import MarbleModules.OlRxReorder

/-! What the slots of a reorder array hold, and what a release and a flush of a range hand
over. The two gather the same list unless the first slot of the range is empty. -/
namespace MarbleModules
namespace OlRxReorder

open LinkedLists RingScan

variable {α : Type*}

namespace Peer

variable (p : Peer α)

theorem winSz_pos : 0 < p.winSz := Nat.two_pow_pos p.bits

theorem wrap_eq (idx : ℕ) : p.wrap idx = idx%p.winSz :=
  Nat.and_two_pow_sub_one_eq_mod idx p.bits

theorem wrap_lt (idx : ℕ) : p.wrap idx < p.winSz := by
  rw [wrap_eq]
  exact Nat.mod_lt idx p.winSz_pos

/-- The slots `idxStart..idxEnd-1`, all slots when the masked indices are one. -/
def range (idxStart idxEnd : ℕ) : List ℕ := arc p.winSz (p.wrap idxStart) (p.wrap idxEnd)

theorem nodup_range (idxStart idxEnd : ℕ) : (p.range idxStart idxEnd).Nodup :=
  nodup_arc (p.wrap_lt idxStart)

theorem lt_of_mem_range {idxStart idxEnd i : ℕ} (h : i ∈ p.range idxStart idxEnd) :
    i < p.winSz :=
  lt_of_mem_arc (p.wrap_lt idxStart) h

end Peer

/-- Each slot below `n` holds its list, and no buffer lies on two places. -/
structure Slots (n : ℕ) (next : α → Option α) (array : ℕ → Ends α) (content : ℕ → List α) :
    Prop where
  holds : ∀ i < n,Holds next (array i) (content i)
  nodup : ∀ i < n,(content i).Nodup
  disjoint : ∀ i < n,∀ j < n,i ≠ j → (content i).Disjoint (content j)

/-- A peer with the lists its reorder array holds. -/
structure Reorder (α : Type*) extends Peer α where
  content : ℕ → List α
  slots : Slots toPeer.winSz toPeer.next toPeer.array content

/-- The array of `ol_rx_reorder_init` -/
def Reorder.init (next : α → Option α) (p : Peer α) : Reorder α where
  toPeer := OlRxReorder.init next p
  content := fun _ => []
  slots := ⟨fun _ _ => holds_empty,fun _ _ => List.nodup_nil,fun _ _ _ _ _ => by simp⟩

/-- The array of `ol_rx_addba_handler` -/
def Reorder.addba (next : α → Option α) (p : Peer α) (bits : ℕ) : Reorder α where
  toPeer := OlRxReorder.addba next p bits
  content := fun _ => []
  slots := ⟨fun _ _ => holds_empty,fun _ _ => List.nodup_nil,fun _ _ _ _ _ => by simp⟩

section Store

variable {n : ℕ} {next : α → Option α} {array : ℕ → Ends α} {content : ℕ → List α}

namespace Slots

theorem empty_of_nil (h : Slots n next array content) {i : ℕ} (hi : i < n)
    (hc : content i = []) : array i = Ends.empty := by
  have hh := h.holds i hi
  have h1 := hh.head_eq
  have h2 := hh.tail_eq
  rw [hc] at h1 h2
  rcases harr : array i with ⟨hd,tl⟩
  rw [harr] at h1 h2
  exact congrArg₂ Ends.mk h1 h2

theorem head_isSome (h : Slots n next array content) {i : ℕ} (hi : i < n) :
    (array i).head.isSome ↔ content i ≠ [] := (h.holds i hi).head_isSome

/-- A list appended to a slot, away from all others. -/
theorem append [DecidableEq α] (h : Slots n next array content) {i : ℕ} (hi : i < n) {e : Ends α}
    {l : List α} (he : Holds next e l) (hl : l ≠ []) (hnd : l.Nodup)
    (hnew : ∀ j < n,(content j).Disjoint l) :
    Slots n (LinkedLists.append next (array i) e).1
      (Function.update array i (LinkedLists.append next (array i) e).2)
      (Function.update content i (content i++l)) := by
  have hboth : (content i++l).Nodup :=
    List.nodup_append.mpr ⟨h.nodup i hi,hnd,fun a ha b hb hab => hnew i hi ha (hab ▸ hb)⟩
  refine ⟨fun j hj => ?_,fun j hj => ?_,fun j hj k hk hjk => ?_⟩
  · by_cases hji : j = i
    · subst hji
      simpa using (h.holds j hj).append he hl hboth
    · simp only [Function.update_of_ne hji]
      refine (h.holds j hj).congr fun b hb => append_of_notMem (h.holds i hi) fun hbi => ?_
      exact h.disjoint j hj i hi hji hb hbi
  · by_cases hji : j = i
    · subst hji
      simpa using hboth
    · simpa only [Function.update_of_ne hji] using h.nodup j hj
  · have happ : ∀ m < n,m ≠ i → (content i++l).Disjoint (content m) := fun m hm hmi =>
      List.disjoint_append_left.mpr ⟨h.disjoint i hi m hm hmi.symm,(hnew m hm).symm⟩
    by_cases hji : j = i
    · subst hji
      simpa [Function.update_of_ne hjk.symm] using happ k hk hjk.symm
    · by_cases hki : k = i
      · subst hki
        simpa [Function.update_of_ne hji] using (happ j hj hji).symm
      · simpa [Function.update_of_ne hji,Function.update_of_ne hki] using
          h.disjoint j hj k hk hjk

end Slots

/-- `ol_rx_reorder_store` of a list that lies nowhere in the array. -/
def Reorder.store [DecidableEq α] (r : Reorder α) (idx : ℕ) {h t : α} (l : List α)
    (hl : Holds r.next ⟨some h,some t⟩ l) (hnd : l.Nodup)
    (hnew : ∀ j < r.winSz,(r.content j).Disjoint l) : Reorder α where
  toPeer := OlRxReorder.store r.toPeer idx h t
  content := Function.update r.content (r.wrap idx) (r.content (r.wrap idx)++l)
  slots := by
    have hne : l ≠ [] := (hl.head_isSome).mp rfl
    have hh := r.slots.append (r.wrap_lt idx) hl hne hnd hnew
    have heq : (OlRxReorder.store r.toPeer idx h t).next =
          (LinkedLists.append r.next (r.array (r.wrap idx)) ⟨some h,some t⟩).1 ∧
        (OlRxReorder.store r.toPeer idx h t).array = Function.update r.array (r.wrap idx)
          (LinkedLists.append r.next (r.array (r.wrap idx)) ⟨some h,some t⟩).2 := by
      simp only [OlRxReorder.store,LinkedLists.append]
      cases (r.array (r.wrap idx)).head <;> exact ⟨rfl,rfl⟩
    rw [heq.1,heq.2]
    exact hh

end Store

section Gathering

variable {n : ℕ} {next : α → Option α} {array : ℕ → Ends α} {content : ℕ → List α}
  {g : Gather α} {l : List α} {is js : List ℕ} {i : ℕ}

/-- The loops have visited the slots `is`, emptied them, gathered the list `l` and left the
other slots. -/
structure Gathered (n : ℕ) (array : ℕ → Ends α) (content : ℕ → List α) (g : Gather α)
    (l : List α) (is : List ℕ) : Prop where
  msdus : Holds g.next g.msdus l
  nodup : l.Nodup
  apart : ∀ i < n,i ∉ is → l.Disjoint (content i)
  emptied : ∀ i ∈ is,g.array i = Ends.empty
  kept : ∀ i < n,i ∉ is → g.array i = array i
  holds : ∀ i < n,i ∉ is → Holds g.next (array i) (content i)

theorem Slots.gathered (h : Slots n next array content) :
    Gathered n array content ⟨next,array,Ends.empty⟩ [] [] where
  msdus := holds_empty
  nodup := List.nodup_nil
  apart := fun _ _ _ => List.disjoint_nil_left _
  emptied := fun _ hi => absurd hi List.not_mem_nil
  kept := fun _ _ _ => rfl
  holds := fun i hi _ => h.holds i hi

theorem Gathered.head_isSome (hg : Gathered n array content g l is)
    (h : Slots n next array content) (hi : i < n) (hnot : i ∉ is) :
    (g.array i).head.isSome ↔ content i ≠ [] := by
  rw [hg.kept i hi hnot]
  exact h.head_isSome hi

/-- Emptying a slot without taking its list. -/
theorem Gathered.drop (hg : Gathered n array content g l is) (i : ℕ) :
    Gathered n array content ⟨g.next,Function.update g.array i Ends.empty,g.msdus⟩ l
      (is++[i]) := by
  have hnot : ∀ {j},j ∉ is++[i] → j ∉ is ∧ j ≠ i := fun hj => by
    simpa only [List.mem_append,List.mem_singleton,not_or] using hj
  refine ⟨hg.msdus,hg.nodup,fun j hj hjn => hg.apart j hj (hnot hjn).1,fun j hj => ?_,
    fun j hj hjn => ?_,fun j hj hjn => hg.holds j hj (hnot hjn).1⟩
  · by_cases hji : j = i
    · rw [hji]
      exact Function.update_self i _ _
    · have hmem : j ∈ is := by simpa [hji] using hj
      simpa only [Function.update_of_ne hji] using hg.emptied j hmem
  · simpa only [Function.update_of_ne (hnot hjn).2] using hg.kept j hj (hnot hjn).1

/-- Passing an empty slot. -/
theorem Gathered.pass (hg : Gathered n array content g l is) (h : Slots n next array content)
    (hi : i < n) (hnot : i ∉ is) (hc : content i = []) :
    Gathered n array content g l (is++[i]) := by
  have harr : g.array i = Ends.empty := by
    rw [hg.kept i hi hnot]
    exact h.empty_of_nil hi hc
  have hdrop := hg.drop i
  rwa [← harr,Function.update_eq_self] at hdrop

variable [DecidableEq α]

/-- Taking one more list. -/
theorem Gathered.take (hg : Gathered n array content g l is) (h : Slots n next array content)
    (hi : i < n) (hnot : i ∉ is) (hne : content i ≠ []) :
    Gathered n array content
      ⟨(append g.next g.msdus (g.array i)).1,Function.update g.array i Ends.empty,
        (append g.next g.msdus (g.array i)).2⟩ (l++content i) (is++[i]) := by
  have hdrop := hg.drop i
  have hapart := hg.apart i hi hnot
  have hboth : (l++content i).Nodup :=
    List.nodup_append.mpr ⟨hg.nodup,h.nodup i hi,fun a ha b hb hab => hapart ha (hab ▸ hb)⟩
  have helem : Holds g.next (g.array i) (content i) := by
    rw [hg.kept i hi hnot]
    exact hg.holds i hi hnot
  refine ⟨hg.msdus.append helem hne hboth,hboth,fun j hj hjn => ?_,hdrop.emptied,hdrop.kept,
    fun j hj hjn => ?_⟩
  · have hji : i ≠ j := fun hij => hjn (by simp [hij])
    exact List.disjoint_append_left.mpr ⟨hdrop.apart j hj hjn,h.disjoint i hi j hj hji⟩
  · refine (hdrop.holds j hj hjn).congr fun b hb => append_of_notMem hg.msdus fun hmem => ?_
    exact hdrop.apart j hj hjn hmem hb

theorem Gathered.flushSlot (hg : Gathered n array content g l is)
    (h : Slots n next array content) (hi : i < n) (hnot : i ∉ is) :
    Gathered n array content (flushSlot g i) (l++content i) (is++[i]) := by
  have hhead := hg.head_isSome h hi hnot
  rw [OlRxReorder.flushSlot]
  split
  · rename_i hs
    exact hg.take h hi hnot (hhead.mp hs)
  · rename_i hs
    have hc := not_not.mp fun hne => hs (hhead.mpr hne)
    rw [hc,List.append_nil]
    exact hg.pass h hi hnot hc

/-- A flush takes the lists of all slots it visits. -/
theorem Gathered.foldl_flushSlot (hg : Gathered n array content g l is)
    (h : Slots n next array content) (hlt : ∀ j ∈ js,j < n) (hnd : (is++js).Nodup) :
    Gathered n array content (js.foldl OlRxReorder.flushSlot g) (l++js.flatMap content)
      (is++js) := by
  induction js generalizing g l is with
  | nil => simpa using hg
  | cons j js ih =>
    have hsplit : is++j::js = (is++[j])++js := by simp
    have hnot : j ∉ is := fun hmem =>
      (List.nodup_append.mp hnd).2.2 j hmem j List.mem_cons_self rfl
    rw [hsplit] at hnd ⊢
    have hstep := hg.flushSlot h (hlt j List.mem_cons_self) hnot
    have hrest := ih hstep (fun k hk => hlt k (List.mem_cons_of_mem j hk)) hnd
    rwa [List.append_assoc] at hrest

/-- The two loop bodies agree once a list has been taken, and on empty slots. -/
theorem Gathered.releaseSlot_eq (hg : Gathered n array content g l is)
    (h : Slots n next array content) (hi : i < n) (hnot : i ∉ is)
    (hc : l ≠ [] ∨ content i = []) : releaseSlot g i = OlRxReorder.flushSlot g i := by
  have hhead := hg.head_isSome h hi hnot
  by_cases hne : content i = []
  · have harr : g.array i = Ends.empty := by
      rw [hg.kept i hi hnot]
      exact h.empty_of_nil hi hne
    have hupd : Function.update g.array i Ends.empty = g.array := by
      rw [← harr,Function.update_eq_self]
    have hno : ¬ (g.array i).head.isSome := fun hs => hhead.mp hs hne
    simp only [releaseSlot,OlRxReorder.flushSlot,hno,hupd]
    rfl
  · have hsome := hg.msdus.head_isSome.mpr (hc.resolve_right hne)
    obtain ⟨a,ha⟩ := Option.isSome_iff_exists.mp hsome
    simp [releaseSlot,OlRxReorder.flushSlot,hhead.mpr hne,append,ha]

theorem Gathered.foldl_releaseSlot (hg : Gathered n array content g l is)
    (h : Slots n next array content) (hlt : ∀ j ∈ js,j < n) (hnd : (is++js).Nodup)
    (hc : l ≠ [] ∨ ∀ j ∈ js,content j = []) :
    js.foldl releaseSlot g = js.foldl OlRxReorder.flushSlot g := by
  induction js generalizing g l is with
  | nil => rfl
  | cons j js ih =>
    have hsplit : is++j::js = (is++[j])++js := by simp
    have hnot : j ∉ is := fun hmem =>
      (List.nodup_append.mp hnd).2.2 j hmem j List.mem_cons_self rfl
    rw [hsplit] at hnd
    have hj := hlt j List.mem_cons_self
    rw [List.foldl_cons,List.foldl_cons,
      hg.releaseSlot_eq h hj hnot (hc.imp_right fun hall => hall j List.mem_cons_self)]
    refine ih (hg.flushSlot h hj hnot) (fun k hk => hlt k (List.mem_cons_of_mem j hk)) hnd
      (hc.imp (fun hne => ?_) fun hall k hk => hall k (List.mem_cons_of_mem j hk))
    exact fun hnil => hne (List.append_eq_nil_iff.mp hnil).1

/-- The loop of a release never sets the head. -/
theorem foldl_releaseSlot_head (g : Gather α) (js : List ℕ) :
    (js.foldl releaseSlot g).msdus.head = g.msdus.head := by
  induction js generalizing g with
  | nil => rfl
  | cons j js ih =>
    rw [List.foldl_cons,ih,releaseSlot]
    split <;> rfl

/-- The gathered list gets its end and the slots not visited keep their lists. -/
theorem Gathered.ended (hg : Gathered n array content g l is) :
    Spans g.ended g.msdus.head l none ∧
      ∀ i < n,i ∉ is → Holds g.ended (array i) (content i) := by
  have hended : g.ended = setNext g.next g.msdus.tail none := by
    rw [Gather.ended]
    split
    · rfl
    · rename_i hno
      have hnil := not_not.mp fun hne => hno (hg.msdus.head_isSome.mpr hne)
      have htail := hg.msdus.tail_eq
      rw [hnil] at htail
      rw [htail]
      rfl
  rw [hended]
  refine ⟨hg.msdus.terminate hg.nodup,fun i hi hnot => ?_⟩
  refine (hg.holds i hi hnot).congr fun b hb => setNext_of_ne fun htail => ?_
  rw [hg.msdus.tail_eq] at htail
  exact hg.apart i hi hnot (List.mem_of_getLast? htail) hb

end Gathering

section Range

variable [DecidableEq α] (r : Reorder α) (seqNum : α → ℕ) (idxStart idxEnd : ℕ)

/-- The list a call hands to `rx_opt_proc` is this one, with its end. -/
def Outcome.Delivers (o : Outcome α) (l : List α) : Prop :=
  Spans o.peer.next o.delivered l none

/-- A call has delivered the lists of the slots `is`, in this order, has emptied these and
left the others. -/
structure Releases (r : Reorder α) (is : List ℕ) (o : Outcome α) : Prop where
  delivers : o.Delivers (is.flatMap r.content)
  freed : o.freed = []
  emptied : ∀ i ∈ is,o.peer.array i = Ends.empty
  kept : ∀ i < r.winSz,i ∉ is → o.peer.array i = r.array i
  holds : ∀ i < r.winSz,i ∉ is → Holds o.peer.next (o.peer.array i) (r.content i)

/-- What the loop of a flush has gathered in the end. -/
def Reorder.gathered : Gather α :=
  (r.range idxStart idxEnd).foldl flushSlot ⟨r.next,r.array,Ends.empty⟩

theorem gathered_range :
    Gathered r.winSz r.array r.content (r.gathered idxStart idxEnd)
      ((r.range idxStart idxEnd).flatMap r.content) (r.range idxStart idxEnd) :=
  r.slots.gathered.foldl_flushSlot r.slots (fun _ hi => r.lt_of_mem_range hi)
    (r.nodup_range idxStart idxEnd)

/-- Ending the gathered list makes a release of the range. -/
theorem Gathered.releases {r : Reorder α} {g : Gather α} {is : List ℕ}
    (hg : Gathered r.winSz r.array r.content g (is.flatMap r.content) is) {p : Peer α} :
    Releases r is ⟨finish seqNum p g,g.msdus.head,[]⟩ := by
  obtain ⟨hspans,hholds⟩ := hg.ended
  refine ⟨hspans,rfl,hg.emptied,hg.kept,fun i hi hnot => ?_⟩
  have hh := hholds i hi hnot
  rwa [← hg.kept i hi hnot] at hh

/-- The loop of a flush visits its range. -/
theorem scan_flushSlot {p : Peer α} (hb : p.bits = r.bits) :
    RingScan.scan p.winSz flushSlot (p.wrap idxEnd) p.winSz (p.wrap (p.wrap idxStart+1))
      (flushSlot ⟨r.next,r.array,Ends.empty⟩ (p.wrap idxStart)) =
        some (r.gathered idxStart idxEnd) := by
  have hw : p.winSz = r.winSz := by rw [Peer.winSz,hb,Peer.winSz]
  have hr : ∀ x,p.wrap x = r.wrap x := fun x => by rw [Peer.wrap_eq,Peer.wrap_eq,hw]
  rw [hr,hr,hr,hw,r.wrap_eq (r.wrap idxStart+1)]
  exact scan_arc flushSlot (r.wrap_lt idxStart) (r.wrap_lt idxEnd) _

/-- A flush with `htt_rx_flush_release` delivers the lists of its range. -/
theorem flush_releases (fuel : ℕ) :
    ∃ o,flush fuel seqNum r.toPeer idxStart idxEnd .release = some o ∧
      Releases r (r.range idxStart (if idxEnd = 0xffff then idxStart else idxEnd)) o := by
  have hrel := fun e p => (gathered_range r idxStart e).releases seqNum (p := p)
  by_cases he : idxEnd = 0xffff
  · have hscan := scan_flushSlot r idxStart idxStart (p := { r.toPeer with nextRelIdx := 0 }) rfl
    rw [if_pos he]
    refine ⟨_,?_,hrel idxStart { r.toPeer with nextRelIdx := 0 }⟩
    simp only [flush,if_pos he,hscan]
    rfl
  · have hscan := scan_flushSlot r idxStart idxEnd
      (p := { r.toPeer with nextRelIdx := idxEnd%2^16 }) rfl
    rw [if_neg he]
    refine ⟨_,?_,hrel idxEnd { r.toPeer with nextRelIdx := idxEnd%2^16 }⟩
    simp only [flush,if_neg he,hscan]
    rfl

end Range

end OlRxReorder
end MarbleModules
