import MarbleModules.RxReo

/-! What every sequence of frames, ageing and releases keeps of the reorder list: its order, and
the wait counts, their sums and the flags that follow them. -/
namespace MarbleModules
namespace RxReo

open Runs

/-- The sum of the counts of the links -/
def WaitCount.sum (n : ℕ) (w : WaitCount) : ℕ := ∑ link ∈ Finset.range n, w.perLinkCount link

/-- The counts are 32-bit numbers and the total is their sum. -/
structure WaitCount.Exact (n : ℕ) (w : WaitCount) : Prop where
  lt : ∀ link < n, w.perLinkCount link < 2^32
  total : w.totalCount = w.sum n

/-- No link's count is larger. -/
def WaitCount.Le (n : ℕ) (w w' : WaitCount) : Prop :=
  ∀ link < n, w.perLinkCount link ≤ w'.perLinkCount link

theorem WaitCount.Le.sum {n : ℕ} {w w' : WaitCount} (h : w.Le n w') : w.sum n ≤ w'.sum n :=
  Finset.sum_le_sum fun link hlink => h link (Finset.mem_range.mp hlink)

theorem WaitCount.Exact.sum_lt {n : ℕ} (hn : n ≤ maxLinks) {w : WaitCount} (h : w.Exact n) :
    w.sum n < 2^64 := by
  have hle : w.sum n ≤ ∑ link ∈ Finset.range n, 2^32 :=
    Finset.sum_le_sum fun link hlink => (h.lt link (Finset.mem_range.mp hlink)).le
  rw [Finset.sum_const,Finset.card_range,smul_eq_mul] at hle
  rw [maxLinks] at hn
  omega

theorem sub64_eq {a b : ℕ} (ha : a < 2^64) (hb : b ≤ a) : sub64 a b = a-b := by
  rw [sub64]
  omega

section Update

variable {n : ℕ} (new : WaitCount) (old : WaitCount)

theorem sum_update (f : ℕ → ℕ) {n link : ℕ} (hlink : link < n) (x : ℕ) :
    (∑ l ∈ Finset.range n, Function.update f link x l)+f link =
      (∑ l ∈ Finset.range n, f l)+x := by
  have hmem := Finset.mem_range.mpr hlink
  rw [← Finset.sum_erase_add _ _ hmem,← Finset.sum_erase_add (f := f) _ hmem,Function.update_self]
  have hh : ∑ l ∈ (Finset.range n).erase link, Function.update f link x l =
      ∑ l ∈ (Finset.range n).erase link, f l :=
    Finset.sum_congr rfl fun l hl => Function.update_of_ne (Finset.ne_of_mem_erase hl) x f
  omega

/-- A count that is lowered takes the total down with it. -/
theorem WaitCount.Exact.set {w : WaitCount} (hn : n ≤ maxLinks) (h : w.Exact n) {link x : ℕ}
    (hlink : link < n) (hx : x ≤ w.perLinkCount link) :
    WaitCount.Exact n ⟨Function.update w.perLinkCount link x,
      sub64 w.totalCount (w.perLinkCount link-x)⟩ := by
  have hsum := sum_update w.perLinkCount hlink x
  have hlt := h.sum_lt hn
  have hle : w.perLinkCount link ≤ w.sum n :=
    Finset.single_le_sum (fun _ _ => Nat.zero_le _) (Finset.mem_range.mpr hlink)
  refine ⟨fun l hl => ?_,?_⟩
  · by_cases hll : l = link
    · rw [hll]
      dsimp only
      rw [Function.update_self]
      exact hx.trans_lt (h.lt link hlink)
    · dsimp only
      rw [Function.update_of_ne hll]
      exact h.lt l hl
  · dsimp only
    rw [h.total,sub64_eq hlt (by omega)]
    simp only [WaitCount.sum] at *
    omega

variable {new old}

theorem updateLink_spec (new : WaitCount) (hn : n ≤ maxLinks) (h : old.Exact n) {link : ℕ} (hlink : link < n) :
    (updateLink new old link).Exact n ∧ (updateLink new old link).perLinkCount =
      Function.update old.perLinkCount link
        (min (old.perLinkCount link) (new.perLinkCount link)) := by
  rw [updateLink]
  split
  · next hzero =>
    refine ⟨h,?_⟩
    rw [hzero,Nat.zero_min,← hzero,Function.update_eq_self]
  · exact ⟨h.set hn hlink (min_le_left _ _),rfl⟩

/-- The counts of the links seen so far are the smaller ones. -/
theorem updateWaitCount_spec (new : WaitCount) (hn : n ≤ maxLinks) (h : old.Exact n) {k : ℕ} (hk : k ≤ n) :
    (updateWaitCount new old k).Exact n ∧ ∀ link, (updateWaitCount new old k).perLinkCount link =
      if link < k then min (old.perLinkCount link) (new.perLinkCount link)
      else old.perLinkCount link := by
  induction k with
  | zero => exact ⟨h,fun link => rfl⟩
  | succ k ih =>
    obtain ⟨hexact,hcount⟩ := ih (by omega)
    obtain ⟨hexact',hcount'⟩ := updateLink_spec new hn hexact (by omega : k < n)
    refine ⟨hexact',fun link => ?_⟩
    rw [updateWaitCount,hcount']
    by_cases hlink : link = k
    · rw [hlink,Function.update_self,hcount,if_neg (lt_irrefl k),if_pos (Nat.lt_succ_self k)]
    · rw [Function.update_of_ne hlink,hcount]
      exact if_congr (by omega) rfl rfl

end Update

/-- The flag of an entry is set exactly when it waits for some frame. -/
structure Entry.Fine (n : ℕ) (e : Entry) : Prop where
  exact : e.waitCount.Exact n
  flag : e.waitForFrame = true ↔ 0 < e.waitCount.totalCount

/-- The list between two operations -/
structure Kept (n : ℕ) (l : List Entry) : Prop where
  fine : ∀ e ∈ l, e.Fine n
  sorted : l.Pairwise fun e e' => e.time ≤ e'.time
  counts : l.Pairwise fun e e' => e.waitCount.Le n e'.waitCount

section Entries

variable {cfg : Cfg} {e : Entry} (h : e.Fine cfg.numLinks)
include h

theorem lower_fine (new : WaitCount) : (lower cfg new e).Fine cfg.numLinks := by
  obtain ⟨hexact,hcount⟩ := updateWaitCount_spec new cfg.numLinks_le h.exact le_rfl
  refine ⟨hexact,?_⟩
  have hle : (updateWaitCount new e.waitCount cfg.numLinks).totalCount ≤ e.waitCount.totalCount := by
    rw [hexact.total,h.exact.total]
    refine WaitCount.Le.sum fun link hlink => ?_
    rw [hcount,if_pos hlink]
    exact min_le_left _ _
  have hflag := h.flag
  simp only [lower,Bool.and_eq_true,decide_eq_true_eq,hflag]
  omega

theorem lower_count (new : WaitCount) {link : ℕ} (hlink : link < cfg.numLinks) :
    (lower cfg new e).waitCount.perLinkCount link =
      min (e.waitCount.perLinkCount link) (new.perLinkCount link) := by
  have hh := (updateWaitCount_spec new cfg.numLinks_le h.exact le_rfl).2 link
  rwa [if_pos hlink] at hh

theorem pass_fine {link : ℕ} (hlink : link < cfg.numLinks) : (pass link e).Fine cfg.numLinks := by
  rw [pass]
  split
  · exact h
  · next hpos =>
    have hexact := h.exact.set cfg.numLinks_le hlink (Nat.sub_le _ 1)
    rw [Nat.sub_sub_self (by omega)] at hexact
    refine ⟨hexact,?_⟩
    have hlt := h.exact.sum_lt cfg.numLinks_le
    rw [← h.exact.total] at hlt
    have hle : e.waitCount.perLinkCount link ≤ e.waitCount.totalCount := by
      rw [h.exact.total]
      exact Finset.single_le_sum (fun _ _ => Nat.zero_le _) (Finset.mem_range.mpr hlink)
    have hsub := sub64_eq hlt (by omega : 1 ≤ e.waitCount.totalCount)
    have hflag := h.flag
    simp only [Bool.and_eq_true,decide_eq_true_eq,hflag,hsub]
    omega

end Entries

@[simp] theorem lower_time (cfg : Cfg) (new : WaitCount) (e : Entry) :
    (lower cfg new e).time = e.time := rfl

@[simp] theorem pass_time (link : ℕ) (e : Entry) : (pass link e).time = e.time := by
  rw [pass]
  split <;> rfl

theorem pass_count (link : ℕ) (e : Entry) (l : ℕ) : (pass link e).waitCount.perLinkCount l =
    if l = link then e.waitCount.perLinkCount link-1 else e.waitCount.perLinkCount l := by
  rw [pass]
  split
  · next hzero =>
    split
    · next hl => rw [hl,hzero]
    · rfl
  · by_cases hl : l = link
    · rw [hl,if_pos rfl]
      exact Function.update_self ..
    · rw [if_neg hl]
      exact Function.update_of_ne hl ..

theorem compareGlobalTimestampsGte_eq {a b : ℕ} (hab : a < b+2^31) (hba : b < a+2^31) :
    compareGlobalTimestampsGte (globalTs a) (globalTs b) = decide (b ≤ a) := by
  rw [compareGlobalTimestampsGte,globalTs,globalTs,decide_eq_decide]
  omega

/-- What the first loop of an update does: entries up to the frame's time are lowered. -/
theorem lowerOlder_eq (cfg : Cfg) (d : FrameDesc) (l : List Entry) :
    ∃ pre suf, l = pre ++ suf ∧ lowerOlder cfg d l = (pre.map (lower cfg d.waitCount),suf) ∧
      (∀ e ∈ pre, compareGlobalTimestampsGte (globalTs d.time) (globalTs e.time) = true) ∧
      ∀ g ∈ suf.head?, compareGlobalTimestampsGte (globalTs d.time) (globalTs g.time) = false := by
  induction l with
  | nil => exact ⟨[],[],rfl,rfl,by simp,by simp⟩
  | cons e es ih =>
    obtain ⟨pre,suf,rfl,hr,hpre,hsuf⟩ := ih
    rw [lowerOlder]
    split
    · next hlt => exact ⟨[],e::(pre ++ suf),rfl,rfl,by simp,by simpa using hlt⟩
    · next hgte =>
      rw [Bool.not_eq_false] at hgte
      refine ⟨e::pre,suf,rfl,?_,?_,hsuf⟩
      · rw [hr]
        rfl
      · exact fun e' he' => (List.mem_cons.mp he').elim (fun hh => hh ▸ hgte) (hpre e')

/-- The frame does not wait for its own link, and its time is within half the range of the time
stamps of every entry. -/
structure FrameDesc.Fits (n : ℕ) (d : FrameDesc) (l : List Entry) : Prop where
  link : d.link < n
  exact : d.waitCount.Exact n
  own : d.waitCount.perLinkCount d.link = 0
  close : ∀ e ∈ l, d.time < e.time+2^31 ∧ e.time < d.time+2^31

section UpdateList

variable {cfg : Cfg} {d : FrameDesc} {pre suf : List Entry}

/-- The entry of a frame counts no more than the frame, nor than the entry it goes before. -/
theorem newEntry_spec (hexact : d.waitCount.Exact cfg.numLinks) (now : ℕ) (suf : List Entry) :
    (newEntry cfg d now suf).Fine cfg.numLinks ∧ (newEntry cfg d now suf).time = d.time ∧
      ∀ link < cfg.numLinks, (newEntry cfg d now suf).waitCount.perLinkCount link =
        match suf with
        | [] => d.waitCount.perLinkCount link
        | g::_ => min (d.waitCount.perLinkCount link) (g.waitCount.perLinkCount link) := by
  have hfine : (prepareListEntry d now).Fine cfg.numLinks := by
    refine ⟨hexact,?_⟩
    simp [prepareListEntry,Nat.pos_iff_ne_zero]
  cases suf with
  | nil => exact ⟨hfine,rfl,fun link _ => rfl⟩
  | cons g suf => exact ⟨lower_fine hfine g.waitCount,rfl,fun link hlink => lower_count hfine _ hlink⟩

/-- Lowered entries, perhaps the new one, and the passed ones are again in order. -/
theorem Kept.update (h : Kept cfg.numLinks (pre ++ suf)) (hfits : d.Fits cfg.numLinks (pre ++ suf))
    (hpre : ∀ e ∈ pre, e.time ≤ d.time) (hsuf : ∀ g ∈ suf.head?, d.time < g.time) (now : ℕ)
    (new : List Entry) (hnew : new = [] ∨ new = [newEntry cfg d now suf]) :
    Kept cfg.numLinks (pre.map (lower cfg d.waitCount) ++ (new ++ suf.map (pass d.link))) := by
  obtain ⟨hpresort,hsufsort,hsort⟩ := List.pairwise_append.mp h.sorted
  obtain ⟨hprecount,hsufcount,hcount⟩ := List.pairwise_append.mp h.counts
  obtain ⟨hnewfine,hnewtime,hnewcount⟩ := newEntry_spec hfits.exact now suf
  have hfpre : ∀ e ∈ pre, e.Fine cfg.numLinks := fun e he => h.fine e (List.mem_append_left _ he)
  have hfsuf : ∀ e ∈ suf, e.Fine cfg.numLinks := fun e he => h.fine e (List.mem_append_right _ he)
  have hlater : ∀ e ∈ suf, d.time < e.time := by
    cases suf with
    | nil => simp
    | cons g suf =>
      intro e he
      have hg := hsuf g rfl
      rcases List.mem_cons.mp he with rfl | he
      · exact hg
      · exact hg.trans_le ((List.pairwise_cons.mp hsufsort).1 e he)
  -- what an entry counts that is not after the frame, the passed entries count as well
  have hpass : ∀ w : WaitCount, w.perLinkCount d.link = 0 → ∀ e : Entry,
      w.Le cfg.numLinks e.waitCount → w.Le cfg.numLinks (pass d.link e).waitCount := by
    intro w hw e hle link hlink
    rw [pass_count]
    split
    · next hl =>
      rw [hl,hw]
      exact Nat.zero_le _
    · exact hle link hlink
  have hlow : ∀ e ∈ pre, ∀ link < cfg.numLinks,
      (lower cfg d.waitCount e).waitCount.perLinkCount link ≤ e.waitCount.perLinkCount link :=
    fun e he link hlink => (lower_count (hfpre e he) _ hlink).trans_le (min_le_left _ _)
  have hown : ∀ e ∈ pre, (lower cfg d.waitCount e).waitCount.perLinkCount d.link = 0 := by
    intro e he
    rw [lower_count (hfpre e he) _ hfits.link,hfits.own,Nat.min_zero]
  have hnewown : (newEntry cfg d now suf).waitCount.perLinkCount d.link = 0 := by
    rw [hnewcount d.link hfits.link]
    cases suf with
    | nil => exact hfits.own
    | cons g suf =>
      dsimp only
      rw [hfits.own,Nat.zero_min]
  have hnewle : ∀ e ∈ suf, (newEntry cfg d now suf).waitCount.Le cfg.numLinks e.waitCount := by
    cases suf with
    | nil => simp
    | cons g suf =>
      intro e he link hlink
      rw [hnewcount link hlink]
      refine (min_le_right _ _).trans ?_
      rcases List.mem_cons.mp he with rfl | he
      · exact le_rfl
      · exact (List.pairwise_cons.mp hsufcount).1 e he link hlink
  have hlownew : ∀ e ∈ pre, (lower cfg d.waitCount e).waitCount.Le cfg.numLinks
      (newEntry cfg d now suf).waitCount := by
    intro e he link hlink
    rw [lower_count (hfpre e he) _ hlink,hnewcount link hlink]
    cases suf with
    | nil => exact min_le_right _ _
    | cons g suf =>
      refine le_min (min_le_right _ _) ((min_le_left _ _).trans ?_)
      exact hcount e he g List.mem_cons_self link hlink
  have hnewmem : ∀ e ∈ new, e = newEntry cfg d now suf := by
    rcases hnew with rfl | rfl <;> simp
  refine ⟨fun e he => ?_,?_,?_⟩
  · simp only [List.mem_append,List.mem_map] at he
    rcases he with ⟨e,he,rfl⟩ | he | ⟨e,he,rfl⟩
    · exact lower_fine (hfpre e he) _
    · exact hnewmem e he ▸ hnewfine
    · exact pass_fine (hfsuf e he) hfits.link
  · rw [List.pairwise_append,List.pairwise_append,List.pairwise_map,List.pairwise_map]
    simp only [lower_time,pass_time]
    refine ⟨hpresort,⟨?_,hsufsort,fun e he e' he' => ?_⟩,fun e he e' he' => ?_⟩
    · rcases hnew with rfl | rfl <;> simp
    · obtain ⟨g,hg,rfl⟩ := List.mem_map.mp he'
      rw [hnewmem e he,hnewtime,pass_time]
      exact (hlater g hg).le
    · obtain ⟨a,ha,rfl⟩ := List.mem_map.mp he
      rw [lower_time]
      rcases List.mem_append.mp he' with he' | he'
      · rw [hnewmem e' he',hnewtime]
        exact hpre a ha
      · obtain ⟨g,hg,rfl⟩ := List.mem_map.mp he'
        rw [pass_time]
        exact hsort a ha g hg
  · rw [List.pairwise_append,List.pairwise_append,List.pairwise_map,List.pairwise_map]
    refine ⟨?_,⟨?_,?_,fun e he e' he' => ?_⟩,fun e he e' he' => ?_⟩
    · refine hprecount.imp_of_mem fun {a b} ha hb hab link hlink => ?_
      rw [lower_count (hfpre a ha) _ hlink,lower_count (hfpre b hb) _ hlink]
      exact min_le_min_right _ (hab link hlink)
    · rcases hnew with rfl | rfl <;> simp
    · refine hsufcount.imp fun {a b} hab link hlink => ?_
      rw [pass_count,pass_count]
      split
      · next hl => exact Nat.sub_le_sub_right (hl ▸ hab link hlink) 1
      · exact hab link hlink
    · obtain ⟨g,hg,rfl⟩ := List.mem_map.mp he'
      rw [hnewmem e he]
      exact hpass _ hnewown g (hnewle g hg)
    · obtain ⟨a,ha,rfl⟩ := List.mem_map.mp he
      rcases List.mem_append.mp he' with he' | he'
      · rw [hnewmem e' he']
        exact hlownew a ha
      · obtain ⟨g,hg,rfl⟩ := List.mem_map.mp he'
        exact hpass _ (hown a ha) g fun link hlink =>
          (hlow a ha link hlink).trans (hcount a ha g hg link hlink)

end UpdateList

/-- What the order and the counts of the list depend on -/
def Entry.core (e : Entry) : ℕ × WaitCount × Bool := (e.time,e.waitCount,e.waitForFrame)

theorem Kept.congr {n : ℕ} {l l' : List Entry} (h : Kept n l)
    (hl : l'.map Entry.core = l.map Entry.core) : Kept n l' := by
  have hsorted := List.pairwise_map (f := Entry.core) (R := fun a b => a.1 ≤ b.1) (l := l)
  have hcounts := List.pairwise_map (f := Entry.core) (R := fun a b => a.2.1.Le n b.2.1) (l := l)
  refine ⟨fun e he => ?_,?_,?_⟩
  · have hmem : e.core ∈ l.map Entry.core := hl ▸ List.mem_map_of_mem he
    obtain ⟨e',he',hcore⟩ := List.mem_map.mp hmem
    have hfine := h.fine e' he'
    simp only [Entry.core,Prod.mk.injEq] at hcore
    obtain ⟨-,hw,hflag⟩ := hcore
    exact ⟨hw ▸ hfine.exact,by rw [← hw,← hflag]; exact hfine.flag⟩
  · rw [← hl,List.pairwise_map] at hsorted
    exact hsorted.mpr h.sorted
  · rw [← hl,List.pairwise_map] at hcounts
    exact hcounts.mpr h.counts

theorem Kept.tail {n : ℕ} {e : Entry} {l : List Entry} (h : Kept n (e::l)) : Kept n l :=
  ⟨fun e' he' => h.fine e' (List.mem_cons_of_mem _ he'),h.sorted.of_cons,h.counts.of_cons⟩

theorem markAgedOut_core (cfg : Cfg) (curTs : ℕ) (l : List Entry) :
    (markAgedOut cfg curTs l).map Entry.core = l.map Entry.core := by
  induction l with
  | nil => rfl
  | cons e l ih =>
    rw [markAgedOut,List.map_cons,List.map_cons,ih]
    rfl

/-- A pass of the release loop takes the first entry or nothing. -/
theorem releasePass_list (cfg : Cfg) (s : State) (sent : Bool) :
    (releasePass cfg s sent).1.list = s.list ∨
      ∃ e, s.list = e::(releasePass cfg s sent).1.list := by
  rw [releasePass]
  cases hl : s.list with
  | nil => exact Or.inl hl
  | cons e es =>
    dsimp only
    split
    · exact Or.inl hl
    · refine Or.inr ⟨e,?_⟩
      split
      · rfl
      · split <;> rfl

/-- Frames that enter the list fit it. -/
def Legal (cfg : Cfg) (s : State) : Op → Prop
  | .update d _ _ => d.Fits cfg.numLinks s.list
  | _ => True

theorem Kept.updateList {cfg : Cfg} {s : State} {d : FrameDesc} (h : Kept cfg.numLinks s.list)
    (hfits : d.Fits cfg.numLinks s.list) (prepared : Bool) (now : ℕ) :
    Kept cfg.numLinks (updateList cfg s d prepared now).list := by
  rw [RxReo.updateList]
  split
  · exact h
  · obtain ⟨pre,suf,hl,hr,hpre,hsuf⟩ := lowerOlder_eq cfg d s.list
    rw [hl] at h hfits
    simp only [hr]
    refine h.update hfits (fun e he => ?_) (fun g hg => ?_) now _ ?_
    · have hclose := hfits.close e (List.mem_append_left _ he)
      have hgte := hpre e he
      rw [compareGlobalTimestampsGte_eq hclose.1 hclose.2,decide_eq_true_eq] at hgte
      exact hgte
    · have hclose := hfits.close g (List.mem_append_right _ (List.mem_of_mem_head? hg))
      have hlt := hsuf g hg
      rw [compareGlobalTimestampsGte_eq hclose.1 hclose.2,decide_eq_false_iff_not] at hlt
      omega
    · split
      · exact Or.inr rfl
      · exact Or.inl rfl

theorem Kept.step {cfg : Cfg} {s : State} {op : Op} (h : Kept cfg.numLinks s.list)
    (hlegal : Legal cfg s op) : Kept cfg.numLinks (step cfg s op).list := by
  cases ha : s.asserted with
  | true =>
    simp only [RxReo.step,ha,if_true]
    exact h
  | false =>
    simp only [RxReo.step,ha,Bool.false_eq_true,if_false]
    cases op with
    | update d prepared now => exact h.updateList hlegal prepared now
    | ageout curTs => exact h.congr (markAgedOut_core cfg curTs s.list)
    | release sent =>
      rcases releasePass_list cfg s sent with hl | ⟨e,hl⟩
      · dsimp only
        rw [hl]
        exact h
      · rw [hl] at h
        exact h.tail

/-- The loop of `mgmt_rx_reo_list_release_entries` ends with this pass. -/
def Pass.stops : Pass → Bool
  | .empty => true
  | .notReady => true
  | .failed => true
  | .released => false
  | .asserted => false

/-- The list is sorted by time, the total of each entry is the sum of its counts, its flag is set
exactly when the total is positive, and along the list the counts of each link do not
decrease. -/
structure ListInvariant (n : ℕ) (l : List Entry) : Prop where
  sorted : l.Pairwise fun e e' => e.time ≤ e'.time
  total : ∀ e ∈ l, e.waitCount.totalCount = e.waitCount.sum n
  flag : ∀ e ∈ l, e.waitForFrame = true ↔ 0 < e.waitCount.totalCount
  counts : ∀ link < n, l.Pairwise fun e e' =>
    e.waitCount.perLinkCount link ≤ e'.waitCount.perLinkCount link

/-- Where the release loop stops, no entry is left that waits for nothing. -/
def Drained (cfg : Cfg) (s : State) : Prop := ∀ sent, (releasePass cfg s sent).2.stops = true →
  ∀ e ∈ (releasePass cfg s sent).1.list, e.waitCount.totalCount ≠ 0

/-- Where the release loop stops without a failed delivery, no entry is left that waits for
nothing. -/
def DrainedUnlessFailed (cfg : Cfg) (s : State) : Prop := ∀ sent,
  (releasePass cfg s sent).2.stops = true → (releasePass cfg s sent).2 ≠ .failed →
    ∀ e ∈ (releasePass cfg s sent).1.list, e.waitCount.totalCount ≠ 0

theorem Kept.listInvariant {n : ℕ} {l : List Entry} (h : Kept n l) : ListInvariant n l :=
  ⟨h.sorted,fun e he => (h.fine e he).exact.total,fun e he => (h.fine e he).flag,
    fun link hlink => h.counts.imp fun hab => hab link hlink⟩

/-- An entry that waits is followed by entries that wait. -/
theorem Kept.waiting {n : ℕ} {e : Entry} {l : List Entry} (h : Kept n (e::l))
    (hwait : e.waitForFrame = true) : ∀ e' ∈ e::l, e'.waitCount.totalCount ≠ 0 := by
  have hfine := h.fine e List.mem_cons_self
  have hpos := hfine.flag.mp hwait
  intro e' he'
  rcases List.mem_cons.mp he' with rfl | hmem
  · exact hpos.ne'
  · have hle := ((List.pairwise_cons.mp h.counts).1 e' hmem).sum
    rw [← hfine.exact.total,← (h.fine e' he').exact.total] at hle
    omega

theorem Kept.drained {cfg : Cfg} {s : State} (h : Kept cfg.numLinks s.list) :
    DrainedUnlessFailed cfg s := by
  intro sent hstop hfail
  revert hstop hfail
  rw [releasePass]
  cases hl : s.list with
  | nil =>
    intro _ _ e he
    rw [hl] at he
    cases he
  | cons e es =>
    rw [hl] at h
    dsimp only
    split
    · next hready =>
      intro _ _ e' he'
      rw [hl] at he'
      simp only [isReadyToSendUp,Bool.or_eq_false_iff,Bool.not_eq_false'] at hready
      exact h.waiting hready.1.1.2 e' he'
    · split
      · exact fun hh => by cases hh
      · split
        · exact fun hh => by cases hh
        · cases sent with
          | true => exact fun hh => by cases hh
          | false => exact fun _ hh => absurd rfl hh

/-- In every run of frames that fit the list, of ageing and of releases, the list is in order,
and the release loop leaves no entry without a wait count when no delivery has failed. -/
theorem listInvariant_always (cfg : Cfg) (ops : List Op)
    (hlegal : Guarded (step cfg) (Legal cfg) initial ops) :
    Always (step cfg) (fun s => ListInvariant cfg.numLinks s.list ∧ DrainedUnlessFailed cfg s)
      initial ops :=
  guarded_always (I := fun s => Kept cfg.numLinks s.list) (fun _ h => ⟨h.listInvariant,h.drained⟩)
    (fun _ _ h hl => h.step hl) ⟨by simp [initial],List.Pairwise.nil,List.Pairwise.nil⟩ ops hlegal

instance decidableExact (n : ℕ) (w : WaitCount) : Decidable (w.Exact n) :=
  decidable_of_iff ((∀ link < n, w.perLinkCount link < 2^32) ∧ w.totalCount = w.sum n)
    ⟨fun hh => ⟨hh.1,hh.2⟩,fun hh => ⟨hh.lt,hh.total⟩⟩

instance decidableFits (n : ℕ) (d : FrameDesc) (l : List Entry) : Decidable (d.Fits n l) :=
  decidable_of_iff (d.link < n ∧ d.waitCount.Exact n ∧ d.waitCount.perLinkCount d.link = 0 ∧
      ∀ e ∈ l, d.time < e.time+2^31 ∧ e.time < d.time+2^31)
    ⟨fun hh => ⟨hh.1,hh.2.1,hh.2.2.1,hh.2.2.2⟩,fun hh => ⟨hh.link,hh.exact,hh.own,hh.close⟩⟩

instance decidableLegal (cfg : Cfg) (s : State) : ∀ op, Decidable (Legal cfg s op)
  | .update d _ _ => decidableFits cfg.numLinks d s.list
  | .ageout _ => isTrue trivial
  | .release _ => isTrue trivial

/-- Two links and the sizes of the driver -/
def twoLinks : Cfg := ⟨2,100,10000,by decide⟩

/-- A frame of the second link that waits for one frame of the first, that frame, which the
firmware consumes, and a frame across the wrap of the stamps that waits for the second link -/
def waitingFrames : List Op :=
  [.update ⟨.hostConsumed,1,1,2^32-5,⟨fun link => if link = 0 then 1 else 0,1⟩⟩ true 0,
    .update ⟨.fwConsumed,0,1,2^32-9,⟨fun _ => 0,0⟩⟩ true 10,
    .update ⟨.hostConsumed,0,2,2^32+3,⟨fun link => if link = 1 then 2^32-1 else 0,2^32-1⟩⟩ true 20,
    .release true,.ageout 20000,.release true]

theorem listInvariant_waitingFrames : Always (step twoLinks)
    (fun s => ListInvariant twoLinks.numLinks s.list ∧ DrainedUnlessFailed twoLinks s) initial
      waitingFrames :=
  listInvariant_always twoLinks waitingFrames (by decide +kernel)

/-- Two frames that wait for nothing: when the delivery of the first fails, the loop stops with
the second one still in the list. -/
def failedDelivery : List Op :=
  [.update ⟨.hostConsumed,0,1,5,⟨fun _ => 0,0⟩⟩ true 0,
    .update ⟨.hostConsumed,0,2,6,⟨fun _ => 0,0⟩⟩ true 10]

theorem listInvariant_failedDelivery :
    Guarded (step twoLinks) (Legal twoLinks) initial failedDelivery ∧
      ¬ Always (step twoLinks) (fun s => ListInvariant twoLinks.numLinks s.list ∧
        Drained twoLinks s) initial failedDelivery := by
  refine ⟨by decide +kernel,fun hh => ?_⟩
  have hlast := hh.last.2 false
  revert hlast
  decide +kernel

end RxReo
end MarbleModules
