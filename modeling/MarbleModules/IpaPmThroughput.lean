import Mathlib.Algebra.Order.BigOperators.Group.List
import Mathlib.Data.List.ReduceOption
import MarbleModules.IpaPm

/-! `calculate_throughput`: the largest two requests are taken again and again for their
difference. What comes out is the smaller side of a split of the requests in two. -/
namespace MarbleModules
namespace IpaPm

/-- `enum ipa_pm_group` -/
inductive Group
  | default | apps | modem
  deriving DecidableEq

/-- What `calculate_throughput` reads of a client -/
structure TputClient where
  state : PmState
  group : Group
  throughput : ℤ

/-- The loop of `pop_max_from_array`, from `i` on -/
def popScan : List ℤ → ℕ → ℤ → ℕ → ℤ × ℕ
  | [], _, max, maxIdx => (max,maxIdx)
  | x::xs, i, max, maxIdx =>
    if x > max then popScan xs (i+1) x i else popScan xs (i+1) max maxIdx

/-- `pop_max_from_array`: the value and the entries left, the last one in the place of the
largest -/
def popMaxFromArray (arr : List ℤ) : ℤ × List ℤ :=
  if arr = [] then (0,[])
  else
    let r := popScan arr 0 0 (arr.length-1)
    (r.1,(arr.set r.2 (arr.getLastD 0)).dropLast)

theorem popMaxFromArray_length (arr : List ℤ) :
    (popMaxFromArray arr).2.length = arr.length-1 := by
  rw [popMaxFromArray]
  split
  case isTrue h => simp [h]
  case isFalse => simp

/-- The `while` loop of `calculate_throughput` -/
def aggregateLoop (arr : List ℤ) (aggregatedTput : ℤ) : ℤ :=
  if 1 < arr.length then
    let max := popMaxFromArray arr
    let secondMax := popMaxFromArray max.2
    aggregateLoop (secondMax.2++[max.1-secondMax.1]) (aggregatedTput+secondMax.1)
  else aggregatedTput
termination_by arr.length
decreasing_by
  simp only [List.length_append,List.length_singleton,popMaxFromArray_length]
  omega

/-- The requests of the active clients by their handles: of each client in the default group its
own, of each other group the one of the group, with its first client -/
def clientTput (groupTput : Group → ℤ) : List (Option TputClient) → (Group → Bool) → List ℤ
  | [], _ => []
  | none::cs, groupVoted => clientTput groupTput cs groupVoted
  | some c::cs, groupVoted =>
    if c.state.active then
      if c.group = .default then c.throughput::clientTput groupTput cs groupVoted
      else if !groupVoted c.group then
        groupTput c.group::clientTput groupTput cs (Function.update groupVoted c.group true)
      else clientTput groupTput cs groupVoted
    else clientTput groupTput cs groupVoted

/-- `calculate_throughput` -/
def calculateThroughput (groupTput : Group → ℤ) (clients : List (Option TputClient)) : ℤ :=
  aggregateLoop (clientTput groupTput clients fun _ => false) 0

example : calculateThroughput (fun _ => 40)
    [some ⟨.activated,.default,100⟩,some ⟨.activated,.apps,0⟩,none,
      some ⟨.activatedTimerSet,.apps,0⟩,some ⟨.deactivated,.default,500⟩,
      some ⟨.activated,.default,30⟩] = 70 := by
  simp [calculateThroughput,clientTput,PmState.active,aggregateLoop,popMaxFromArray,popScan,
    Function.update]

section Pop

variable {arr arr' : List ℤ} {m a : ℤ} {k : ℕ}

theorem popScan_spec (l : List ℤ) (i : ℕ) (max : ℤ) (maxIdx : ℕ) :
    max ≤ (popScan l i max maxIdx).1 ∧ (∀ x ∈ l, x ≤ (popScan l i max maxIdx).1) ∧
      (popScan l i max maxIdx = (max,maxIdx) ∨
        ∃ j, (popScan l i max maxIdx).2 = i+j ∧ l[j]? = some (popScan l i max maxIdx).1) := by
  fun_induction popScan l i max maxIdx with
  | case1 i max maxIdx => simp
  | case2 i max maxIdx x xs hx ih =>
    obtain ⟨hle,hall,hat⟩ := ih
    refine ⟨by omega,by simpa using ⟨hle,hall⟩,.inr ?_⟩
    obtain heq|⟨j,hj,hget⟩ := hat
    · exact ⟨0,by simp [heq]⟩
    · exact ⟨j+1,by omega,by simpa using hget⟩
  | case3 i max maxIdx x xs hx ih =>
    obtain ⟨hle,hall,hat⟩ := ih
    refine ⟨hle,?_,?_⟩
    · simp only [List.mem_cons,forall_eq_or_imp]
      exact ⟨by omega,hall⟩
    · obtain heq|⟨j,hj,hget⟩ := hat
      · exact .inl heq
      · exact .inr ⟨j+1,by omega,by simpa using hget⟩

theorem cons_set_perm (h : arr[k]? = some m) (a : ℤ) : (m::arr.set k a).Perm (a::arr) := by
  induction arr generalizing k with
  | nil => simp at h
  | cons x xs ih =>
    cases k with
    | zero =>
      obtain rfl : x = m := by simpa using h
      exact List.Perm.swap a x xs
    | succ k =>
      have hk := ih (k := k) (by simpa using h)
      calc m::(x::xs.set k a)
        _ |>.Perm (x::m::xs.set k a) := List.Perm.swap x m _
        _ |>.Perm (x::a::xs) := hk.cons x
        _ |>.Perm (a::x::xs) := List.Perm.swap a x xs

/-- The last entry goes where the one taken out was. -/
theorem set_last_perm (h : arr[k]? = some m) :
    (m::(arr.set k (arr.getLastD 0)).dropLast).Perm arr := by
  obtain rfl|⟨init,last,rfl⟩ := arr.eq_nil_or_concat'
  · simp at h
  · have hlast : (init++[last]).getLastD 0 = last := by simp
    rw [hlast]
    by_cases hk : k < init.length
    · rw [List.set_append_left _ _ hk,List.dropLast_concat]
      rw [List.getElem?_append_left hk] at h
      exact (cons_set_perm h last).trans (List.perm_append_singleton last init).symm
    · have hkeq : k = init.length := by
        have := (List.getElem?_eq_some_iff.mp h).1
        simp at this
        omega
      subst hkeq
      obtain rfl : last = m := by simpa using h
      simpa using (List.perm_append_singleton last init).symm

/-- `pop_max_from_array` takes out a largest entry. -/
theorem popMaxFromArray_spec {arr : List ℤ} (hne : arr ≠ []) (hpos : ∀ x ∈ arr, 0 ≤ x) :
    ((popMaxFromArray arr).1::(popMaxFromArray arr).2).Perm arr ∧
      ∀ x ∈ arr, x ≤ (popMaxFromArray arr).1 := by
  obtain ⟨-,hall,hat⟩ := popScan_spec arr 0 0 (arr.length-1)
  simp only [popMaxFromArray,hne,if_false]
  refine ⟨set_last_perm ?_,hall⟩
  obtain heq|⟨j,hj,hget⟩ := hat
  · -- no entry is above zero, and the last one is taken
    obtain ⟨init,last,rfl⟩ := arr.eq_nil_or_concat'.resolve_left hne
    have hle := hall last (by simp)
    have hge := hpos last (by simp)
    rw [heq] at hle ⊢
    have hzero : last = 0 := le_antisymm hle hge
    simp [hzero]
  · rw [hj]
    simpa using hget

theorem eq_of_largest (h : ∀ x ∈ arr, x ≤ m) (hm : m ∈ arr) (h' : ∀ x ∈ arr', x ≤ a)
    (ha : a ∈ arr') (hp : arr.Perm arr') : m = a :=
  le_antisymm (h' m (hp.mem_iff.mp hm)) (h a (hp.mem_iff.mpr ha))

/-- Which entries are left does not depend on the order of the array. -/
theorem popMaxFromArray_perm (hne : arr ≠ []) (hpos : ∀ x ∈ arr, 0 ≤ x) (hp : arr.Perm arr') :
    (popMaxFromArray arr).1 = (popMaxFromArray arr').1 ∧
      (popMaxFromArray arr).2.Perm (popMaxFromArray arr').2 := by
  have hne' : arr' ≠ [] := by
    rintro rfl
    exact hne hp.eq_nil
  have hpos' : ∀ x ∈ arr', 0 ≤ x := fun x hx => hpos x (hp.mem_iff.mpr hx)
  obtain ⟨hperm,hall⟩ := popMaxFromArray_spec hne hpos
  obtain ⟨hperm',hall'⟩ := popMaxFromArray_spec hne' hpos'
  have heq := eq_of_largest hall (hperm.mem_iff.mp List.mem_cons_self) hall'
    (hperm'.mem_iff.mp List.mem_cons_self) hp
  refine ⟨heq,List.Perm.cons_inv (a := (popMaxFromArray arr).1) ?_⟩
  rw [heq] at hperm ⊢
  exact hperm.trans (hp.trans hperm'.symm)

end Pop

section Split

variable {arr arr' : List ℤ} {m n s d t : ℤ}

/-- The entries can be split in two, with the sums `s` and `s+d`. -/
def SplitsInto (arr : List ℤ) (s d : ℤ) : Prop :=
  ∃ small large : List ℤ, (small++large).Perm arr ∧ small.sum = s ∧ large.sum = s+d

theorem SplitsInto.perm (h : SplitsInto arr s d) (hp : arr.Perm arr') : SplitsInto arr' s d := by
  obtain ⟨small,large,hsplit,hs,hl⟩ := h
  exact ⟨small,large,hsplit.trans hp,hs,hl⟩

/-- Two entries go to opposite sides when their difference goes to one. -/
theorem SplitsInto.difference (h : SplitsInto ((m-n)::arr) s d) :
    SplitsInto (m::n::arr) (n+s) d := by
  obtain ⟨small,large,hsplit,hs,hl⟩ := h
  obtain hmem|hmem := List.mem_append.mp (hsplit.mem_iff.mpr List.mem_cons_self)
  · obtain ⟨rest,hrest⟩ : ∃ rest, small.Perm ((m-n)::rest) := ⟨_,List.perm_cons_erase hmem⟩
    have hsum := hrest.sum_eq
    have hp : (rest++large).Perm arr :=
      List.Perm.cons_inv ((hrest.append_right large).symm.trans hsplit)
    refine ⟨m::rest,n::large,?_,?_,?_⟩
    · exact (List.perm_middle.cons m).trans ((hp.cons n).cons m)
    · simp only [List.sum_cons] at hsum ⊢
      omega
    · simp only [List.sum_cons] at hsum ⊢
      omega
  · obtain ⟨rest,hrest⟩ : ∃ rest, large.Perm ((m-n)::rest) := ⟨_,List.perm_cons_erase hmem⟩
    have hsum := hrest.sum_eq
    have hp : (small++rest).Perm arr := by
      have h := ((hrest.append_left small).symm.trans hsplit)
      exact List.Perm.cons_inv (List.perm_middle.symm.trans h)
    refine ⟨n::small,m::rest,?_,?_,?_⟩
    · refine (List.perm_middle.cons n).trans ?_
      exact (List.Perm.swap m n _).trans ((hp.cons n).cons m)
    · simp only [List.sum_cons] at hsum ⊢
      omega
    · simp only [List.sum_cons] at hsum ⊢
      omega

theorem aggregateLoop_of_lt {l : List ℤ} (h : 1 < l.length) (t : ℤ) :
    aggregateLoop l t =
      aggregateLoop ((popMaxFromArray (popMaxFromArray l).2).2++
          [(popMaxFromArray l).1-(popMaxFromArray (popMaxFromArray l).2).1])
        (t+(popMaxFromArray (popMaxFromArray l).2).1) := by
  conv_lhs => rw [aggregateLoop,if_pos h]

theorem sub_nonneg_of_pops (hne : 1 < arr.length) (hpos : ∀ x ∈ arr, 0 ≤ x) :
    let p := popMaxFromArray arr
    let q := popMaxFromArray p.2
    (p.1::q.1::q.2).Perm arr ∧ 0 ≤ q.1 ∧ q.1 ≤ p.1 ∧ (∀ x ∈ arr, x ≤ p.1) ∧
      ∀ x ∈ q.2++[p.1-q.1], 0 ≤ x ∧ x ≤ p.1 := by
  dsimp only
  have hne1 : arr ≠ [] := by
    rintro rfl
    simp at hne
  have hp := popMaxFromArray_spec hne1 hpos
  have hlen := popMaxFromArray_length arr
  have hpos2 : ∀ x ∈ (popMaxFromArray arr).2, 0 ≤ x := fun x hx =>
    hpos x (hp.1.mem_iff.mp (List.mem_cons_of_mem _ hx))
  have hne2 : (popMaxFromArray arr).2 ≠ [] := by
    intro h
    rw [h,List.length_nil] at hlen
    omega
  have hq := popMaxFromArray_spec hne2 hpos2
  have hmem := hq.1.mem_iff.mp List.mem_cons_self
  have hle : (popMaxFromArray (popMaxFromArray arr).2).1 ≤ (popMaxFromArray arr).1 :=
    hp.2 _ (hp.1.mem_iff.mp (List.mem_cons_of_mem _ hmem))
  refine ⟨(hq.1.cons _).trans hp.1,hpos2 _ hmem,hle,hp.2,fun x hx => ?_⟩
  obtain hx|hx := List.mem_append.mp hx
  · have hin := hq.1.mem_iff.mp (List.mem_cons_of_mem _ hx)
    exact ⟨hpos2 x hin,hp.2 x (hp.1.mem_iff.mp (List.mem_cons_of_mem _ hin))⟩
  · have := hpos2 _ hmem
    simp only [List.mem_singleton] at hx
    omega

/-- The loop adds up the smaller side of a split whose sides differ by no more than the largest
entry. -/
theorem aggregateLoop_spec (arr : List ℤ) (t : ℤ) (hpos : ∀ x ∈ arr, 0 ≤ x) :
    ∃ s d, aggregateLoop arr t = t+s ∧ 0 ≤ d ∧ SplitsInto arr s d ∧
      ∀ b, 0 ≤ b → (∀ x ∈ arr, x ≤ b) → d ≤ b := by
  fun_induction aggregateLoop arr t with
  | case1 arr t hlen p q ih =>
    obtain ⟨hperm,-,-,hmax,hrest⟩ := sub_nonneg_of_pops hlen hpos
    obtain ⟨s,d,hagg,hd,hsplit,hb⟩ := ih fun x hx => (hrest x hx).1
    refine ⟨q.1+s,d,by omega,hd,?_,fun b h0 hb' => ?_⟩
    · exact (hsplit.perm (List.perm_append_singleton _ _)).difference.perm hperm
    · have hpb : p.1 ≤ b := hb' _ (hperm.mem_iff.mp List.mem_cons_self)
      exact hb b h0 fun x hx => (hrest x hx).2.trans hpb
  | case2 arr t hlen =>
    cases arr with
    | nil => exact ⟨0,0,by omega,le_rfl,⟨[],[],by simp,rfl,rfl⟩,fun b h0 _ => h0⟩
    | cons x l =>
      obtain rfl : l = [] := by
        simp only [List.length_cons,not_lt] at hlen
        exact List.eq_nil_of_length_eq_zero (by omega)
      exact ⟨0,x,by omega,hpos x (by simp),⟨[],[x],by simp,rfl,by simp⟩,
        fun b _ h => h x (by simp)⟩

theorem aggregateLoop_perm (arr : List ℤ) (t : ℤ) (hpos : ∀ x ∈ arr, 0 ≤ x) :
    ∀ arr', arr.Perm arr' → aggregateLoop arr t = aggregateLoop arr' t := by
  fun_induction aggregateLoop arr t with
  | case1 arr t hlen p q ih =>
    intro arr' hp
    obtain ⟨-,-,-,-,hrest⟩ := sub_nonneg_of_pops hlen hpos
    have hne : arr ≠ [] := by
      rintro rfl
      simp at hlen
    obtain ⟨hp1,hp2⟩ := popMaxFromArray_perm hne hpos hp
    have hne2 : p.2 ≠ [] := by
      intro h
      have hl := popMaxFromArray_length arr
      rw [show (popMaxFromArray arr).2 = [] from h,List.length_nil] at hl
      omega
    have hpos2 : ∀ x ∈ p.2, 0 ≤ x := fun x hx =>
      hpos x ((popMaxFromArray_spec hne hpos).1.mem_iff.mp (List.mem_cons_of_mem _ hx))
    obtain ⟨hq1,hq2⟩ := popMaxFromArray_perm hne2 hpos2 hp2
    rw [aggregateLoop_of_lt (l := arr') (hp.length_eq ▸ hlen),← hp1,← hq1]
    exact ih (fun x hx => (hrest x hx).1) _ (hq2.append_right _)
  | case2 arr t hlen =>
    intro arr' hp
    rw [aggregateLoop,if_neg (hp.length_eq ▸ hlen)]

/-- An entry as large as all others together leaves them to be added up. -/
theorem aggregateLoop_dominated (arr : List ℤ) (t : ℤ) (hpos : ∀ x ∈ arr, 0 ≤ x) :
    ∀ m rest, arr.Perm (m::rest) → rest.sum ≤ m → aggregateLoop arr t = t+rest.sum := by
  fun_induction aggregateLoop arr t with
  | case1 arr t hlen p q ih =>
    intro m rest hp hsum
    obtain ⟨hperm,hq0,hqp,hmax,hrest⟩ := sub_nonneg_of_pops hlen hpos
    have hpos' : ∀ x ∈ m::rest, 0 ≤ x := fun x hx => hpos x (hp.mem_iff.mpr hx)
    have hm : ∀ x ∈ m::rest, x ≤ m := by
      intro x hx
      obtain rfl|hx := List.mem_cons.mp hx
      · exact le_rfl
      · exact (List.single_le_sum (fun y hy => hpos' y (List.mem_cons_of_mem _ hy)) x hx).trans
          hsum
    have hpm : p.1 = m :=
      eq_of_largest hmax (hperm.mem_iff.mp List.mem_cons_self) hm List.mem_cons_self hp
    have hq : (q.1::q.2).Perm rest := by
      refine List.Perm.cons_inv (a := m) ?_
      rw [← hpm]
      exact hperm.trans (hpm ▸ hp)
    have hqsum := hq.sum_eq
    rw [List.sum_cons] at hqsum
    rw [ih (fun x hx => (hrest x hx).1) (p.1-q.1) q.2 (List.perm_append_singleton _ _)
      (by omega)]
    omega
  | case2 arr t hlen =>
    intro m rest hp _
    have hl := hp.length_eq
    obtain rfl : rest = [] := List.eq_nil_of_length_eq_zero (by simp at hl; omega)
    simp

end Split

section Requests

variable {groupTput : Group → ℤ} {clients clients' : List (Option TputClient)}

/-- The clients that count -/
def activeClients (clients : List (Option TputClient)) : List TputClient :=
  clients.reduceOption.filter (·.state.active)

/-- A group has a client that counts, and has not voted. -/
def votesOf (clients : List (Option TputClient)) (groupVoted : Group → Bool) : List Group :=
  [.apps,.modem].filter fun g => !groupVoted g && (activeClients clients).any (·.group = g)

/-- What the active clients ask for: each in the default group for itself, and each other group
with an active client once -/
def requests (groupTput : Group → ℤ) (clients : List (Option TputClient)) : List ℤ :=
  ((activeClients clients).filter (·.group = .default)).map (·.throughput)++
    (votesOf clients fun _ => false).map groupTput

theorem activeClients_cons_none : activeClients (none::clients) = activeClients clients := by
  rw [activeClients,activeClients,List.reduceOption_cons_of_none]

theorem activeClients_cons_some (c : TputClient) :
    activeClients (some c::clients) =
      if c.state.active then c::activeClients clients else activeClients clients := by
  cases h : c.state.active <;> simp [activeClients,h]

theorem votesOf_cons_default {c : TputClient} (hc : c.group = .default)
    (groupVoted : Group → Bool) :
    votesOf (some c::clients) groupVoted = votesOf clients groupVoted := by
  rw [votesOf,votesOf,activeClients_cons_some]
  split <;> simp [hc,List.filter]

theorem votesOf_cons_voted {c : TputClient} {groupVoted : Group → Bool}
    (hv : groupVoted c.group = true) :
    votesOf (some c::clients) groupVoted = votesOf clients groupVoted := by
  rw [votesOf,votesOf,activeClients_cons_some]
  split
  · refine List.filter_congr fun g _ => ?_
    by_cases hg : c.group = g
    · simp [← hg,hv]
    · simp [hg]
  · rfl

/-- The first active client of a group casts its vote. -/
theorem votesOf_cons_first {c : TputClient} {groupVoted : Group → Bool}
    (clients : List (Option TputClient)) (ha : c.state.active = true) (hd : c.group ≠ .default)
    (hv : groupVoted c.group = false) :
    (votesOf (some c::clients) groupVoted).Perm
      (c.group::votesOf clients (Function.update groupVoted c.group true)) := by
  simp only [votesOf,activeClients_cons_some,ha,if_true,List.any_cons]
  cases hg : c.group with
  | default => exact absurd hg hd
  | apps =>
    rw [hg] at hv
    simp [List.filter,hv]
  | modem =>
    rw [hg] at hv
    cases ha : groupVoted .apps <;> cases hb : (activeClients clients).any (·.group = .apps) <;>
      simp [List.filter,hv,ha,hb,List.Perm.swap]

theorem clientTput_perm (groupTput : Group → ℤ) (clients : List (Option TputClient))
    (groupVoted : Group → Bool) :
    (clientTput groupTput clients groupVoted).Perm
      (((activeClients clients).filter (·.group = .default)).map (·.throughput)++
        (votesOf clients groupVoted).map groupTput) := by
  fun_induction clientTput groupTput clients groupVoted with
  | case1 groupVoted => simp [activeClients,votesOf]
  | case2 cs groupVoted ih => simpa [votesOf,activeClients_cons_none] using ih
  | case3 c cs groupVoted ha hd ih =>
    rw [votesOf_cons_default hd,activeClients_cons_some,if_pos ha]
    simpa [hd] using ih
  | case4 c cs groupVoted ha hd hv ih =>
    have hv : groupVoted c.group = false := by simpa using hv
    have hfirst := (votesOf_cons_first cs ha hd hv).map groupTput
    rw [activeClients_cons_some,if_pos ha]
    simp only [List.filter_cons,hd,decide_false,Bool.false_eq_true,if_false]
    refine (ih.cons (groupTput c.group)).trans ?_
    exact List.perm_middle.symm.trans (hfirst.symm.append_left _)
  | case5 c cs groupVoted ha hd hv ih =>
    have hv : groupVoted c.group = true := by simpa using hv
    rw [votesOf_cons_voted hv,activeClients_cons_some,if_pos ha]
    simpa [hd] using ih
  | case6 c cs groupVoted ha ih =>
    have ha : c.state.active = false := by simpa using ha
    simpa [votesOf,activeClients_cons_some,ha] using ih

theorem requests_perm (groupTput : Group → ℤ) (h : clients.Perm clients') :
    (requests groupTput clients).Perm (requests groupTput clients') := by
  have ha : (activeClients clients).Perm (activeClients clients') := (h.filterMap id).filter _
  have hv : votesOf clients (fun _ => false) = votesOf clients' fun _ => false := by
    refine List.filter_congr fun g _ => ?_
    rw [ha.any_eq]
  rw [requests,requests,hv]
  exact ((ha.filter _).map _).append_right _

/-- Three clients of the default group -/
def threeClients : List (Option TputClient) :=
  [some ⟨.activated,.default,5⟩,some ⟨.activated,.default,4⟩,some ⟨.activated,.default,3⟩]

end Requests

end IpaPm
end MarbleModules
