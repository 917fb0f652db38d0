import MarbleModules.CamSyncInvariant

/-! The operations that create and merge fences keep the invariant of the table. -/
namespace MarbleModules
namespace CamSync

section Creating

variable {dev dev' : SyncDev} {idx : ℕ} {row : Row}

/-- The row of an active child that has been given the parent `idx`. -/
def linked (idx : ℕ) (row : Row) : Row :=
  if row.state = .active then { row with parentsList := row.parentsList ++ [idx] } else row

theorem linked_eq (idx : ℕ) (row : Row) :
    ∃ ps, linked idx row = { row with parentsList := ps, childrenList := row.childrenList } ∧
      (∀ p ∈ row.parentsList, p ∈ ps) ∧ (∀ p ∈ ps, p ∈ row.parentsList ∨ p = idx ∧ row.state = .active) ∧
      (row.state = .active → idx ∈ ps) ∧ (row.parentsList.Nodup → idx ∉ row.parentsList → ps.Nodup) := by
  unfold linked
  split
  · next hs =>
    refine ⟨row.parentsList ++ [idx],rfl,fun p hp => List.mem_append.mpr (Or.inl hp),fun p hp => ?_,
      fun _ => by simp,fun hn hi => ?_⟩
    · rcases List.mem_append.mp hp with hp | hp
      · exact Or.inl hp
      · exact Or.inr ⟨List.mem_singleton.mp hp,hs⟩
    · refine List.nodup_append.mpr ⟨hn,List.nodup_singleton _,fun a ha b hb hab => ?_⟩
      rw [List.mem_singleton] at hb
      exact hi (hb ▸ hab ▸ ha)
  · next hs => exact ⟨row.parentsList,rfl,fun _ hp => hp,fun _ hp => Or.inl hp,
      fun hh => absurd hh hs,fun hn _ => hn⟩

/-- As far as the fences go the row is the same. -/
structure SameRow (r r' : Row) : Prop where
  type : r'.type = r.type
  state : r'.state = r.state
  fence : r'.fence = r.fence
  members : r'.members = r.members

theorem SameRow.refl (r : Row) : SameRow r r := ⟨rfl,rfl,rfl,rfl⟩

/-- At most one fence is added, and its members are fences that are not groups. -/
structure Grows (dev dev' : SyncDev) : Prop where
  old : ∀ j, (dev.table j).state ≠ .invalid → SameRow (dev.table j) (dev'.table j)
  new : ∀ j, (dev'.table j).state ≠ .invalid → (dev.table j).state ≠ .invalid ∨
    (dev'.table j).fence = dev.nextFence ∧ ∀ m ∈ (dev'.table j).members,
      ∃ c, (dev.table c).state ≠ .invalid ∧ (dev.table c).type = .indv ∧ (dev.table c).fence = m
  outcome : ∀ f, dev'.outcome f = dev.outcome f ∨ dev.outcome f = none ∧
    ∃ i, (dev'.table i).state ≠ .invalid ∧ (dev'.table i).fence = f
  nextFence : dev.nextFence ≤ dev'.nextFence
  events : dev'.events = dev.events
  wakeups : dev'.wakeups = dev.wakeups

theorem Grows.refl (dev : SyncDev) : Grows dev dev :=
  ⟨fun _ _ => .refl _,fun _ hj => Or.inl hj,fun _ => Or.inl rfl,le_rfl,rfl,rfl⟩

/-- A row as it has just been initialised for the fence `nextFence`. -/
structure NewRow (dev : SyncDev) (objs : List ℕ) (row : Row) : Prop where
  fence : row.fence = dev.nextFence
  valid : row.state ≠ .invalid
  waitRefCnt : row.waitRefCnt = 1
  callbackList : row.callbackList = []
  parentsList : row.parentsList = []
  members : row.members = objs.map fun c => (dev.table c).fence
  children : ∀ c ∈ objs, (dev.table c).state = .active → c ∈ row.childrenList
  indv : row.type = .indv → row.remaining = 0 ∧ row.childrenList = [] ∧ objs = []

theorem Inv.ne_of_free (h : Inv dev) (hfree : dev.bitmap idx = false) {j : ℕ}
    (hj : (dev.table j).state ≠ .invalid) : j ≠ idx := by
  rintro rfl
  rw [((h.rows j).alloc hj).1] at hfree
  cases hfree

/-- The fence of a new row is nobody else's. -/
theorem Inv.fences_fresh (h : Inv dev) (hself : (dev'.table idx).fence = dev.nextFence)
    (hothers : ∀ j, j ≠ idx → (dev'.table j).fence = (dev.table j).fence) (i j : ℕ)
    (heq : (dev'.table i).fence = (dev'.table j).fence) (hne : (dev'.table i).fence ≠ 0) :
    i = j := by
  by_cases hi : i = idx
  · by_cases hj : j = idx
    · rw [hi,hj]
    · rw [hi,hself,hothers j hj] at heq
      have := (h.rows j).fence_lt
      omega
  · rw [hothers i hi] at heq hne
    by_cases hj : j = idx
    · rw [hj,hself] at heq
      have := (h.rows i).fence_lt
      omega
    · rw [hothers j hj] at heq
      exact h.links.fences i j heq hne

/-- A new row has no callbacks yet. -/
theorem Inv.delivery_fresh (h : Inv dev) (hfree : dev.bitmap idx = false)
    (hself : (dev'.table idx).fence = dev.nextFence ∧ (dev'.table idx).callbackList = [])
    (hothers : ∀ j, j ≠ idx → (dev'.table j).fence = (dev.table j).fence ∧
      (dev'.table j).callbackList = (dev.table j).callbackList)
    (hnext : dev'.nextFence = dev.nextFence+1) (huid : dev'.nextUid = dev.nextUid)
    (hout : ∀ f, f ≠ dev.nextFence → dev'.outcome f = dev.outcome f)
    (hreg : dev'.registered = dev.registered) (hdis : dev'.dispatched = dev.dispatched)
    (hder : dev'.deregistered = dev.deregistered) : Delivery dev' := by
  have hlisted : (dev.table idx).callbackList = [] := ((h.rows idx).free hfree).2
  refine h.delivery.congr hreg hdis hder huid (by omega) (fun j => ?_) (fun j => ?_)
    fun f hf => hout f (Nat.ne_of_lt hf)
  · by_cases hj : j = idx
    · rw [hj,hself.2,hlisted]
    · exact (hothers j hj).2
  · by_cases hj : j = idx
    · rw [hj,hself.1]
      exact Or.inr ⟨hlisted,Or.inr le_rfl⟩
    · exact Or.inl (hothers j hj).1

/-- The row `r'` at `j` is `r`, to which the parent `idx` may have been added. -/
structure Relinked (idx : ℕ) (objs : List ℕ) (j : ℕ) (r r' : Row) : Prop where
  eq : r' = { r with parentsList := r'.parentsList, childrenList := r.childrenList }
  kept : ∀ p ∈ r.parentsList, p ∈ r'.parentsList
  only : ∀ p ∈ r'.parentsList, p ∈ r.parentsList ∨ p = idx ∧ j ∈ objs ∧ r.state = .active
  added : j ∈ objs → r.state = .active → idx ∈ r'.parentsList
  nodup : r.parentsList.Nodup → idx ∉ r.parentsList → r'.parentsList.Nodup

namespace Relinked

variable {objs : List ℕ} {j : ℕ} {r r' : Row} (h : Relinked idx objs j r r')
include h

theorem state : r'.state = r.state := by rw [h.eq]
theorem type : r'.type = r.type := by rw [h.eq]
theorem fence : r'.fence = r.fence := by rw [h.eq]
theorem members : r'.members = r.members := by rw [h.eq]
theorem callbackList : r'.callbackList = r.callbackList := by rw [h.eq]
theorem childrenList : r'.childrenList = r.childrenList := by rw [h.eq]

end Relinked

/-- The free row `idx` becomes a new fence, whose children, if any, are linked to it. -/
structure Adds (dev dev' : SyncDev) (idx : ℕ) (objs : List ℕ) (row : Row) : Prop where
  free : dev.bitmap idx = false
  lt : idx < maxObjs
  children : ∀ c ∈ objs, (dev.table c).state ≠ .invalid ∧ (dev.table c).type = .indv
  new : NewRow dev objs row
  self : dev'.table idx = row
  others : ∀ j, j ≠ idx →
    dev'.table j = if j ∈ objs then linked idx (dev.table j) else dev.table j
  bit : dev'.bitmap = Function.update dev.bitmap idx true
  waiters : dev'.waiters = dev.waiters
  nextFence : dev'.nextFence = dev.nextFence+1
  outcome : ∀ f, f ≠ dev.nextFence → dev'.outcome f = dev.outcome f

namespace Adds

variable {objs : List ℕ} (ha : Adds dev dev' idx objs row) (h : Inv dev)
include ha

theorem relinked {j : ℕ} (hj : j ≠ idx) :
    Relinked idx objs j (dev.table j) (dev'.table j) := by
  rw [ha.others j hj]
  split
  · next hmem =>
    obtain ⟨ps,hps,hsub,hsup,hin,hnd⟩ := linked_eq idx (dev.table j)
    rw [hps]
    exact ⟨rfl,hsub,fun p hp => (hsup p hp).imp id fun hh => ⟨hh.1,hmem,hh.2⟩,fun _ => hin,hnd⟩
  · next hmem =>
    exact ⟨rfl,fun _ hp => hp,fun _ hp => Or.inl hp,fun hh => absurd hh hmem,fun hn _ => hn⟩

theorem self_fence : (dev'.table idx).fence = dev.nextFence := by rw [ha.self,ha.new.fence]

theorem bit_of_ne {j : ℕ} (hj : j ≠ idx) : dev'.bitmap j = dev.bitmap j := by
  rw [ha.bit,Function.update_of_ne hj]

include h

theorem idx_ne_zero : idx ≠ 0 := by
  rintro rfl
  have hfree := ha.free
  rw [h.reserved] at hfree
  cases hfree

theorem member_lt (g : ℕ) : ∀ m ∈ (dev'.table g).members, m < dev.nextFence := by
  intro m hm
  by_cases hg : g = idx
  · rw [hg,ha.self,ha.new.members] at hm
    obtain ⟨c,_,rfl⟩ := List.mem_map.mp hm
    exact (h.rows c).fence_lt
  · rw [(ha.relinked hg).members] at hm
    exact ((h.rows g).members m hm).2

/-- The new fence is no member of a group. -/
theorem ne_idx_of_member {g c : ℕ} (hm : (dev'.table c).fence ∈ (dev'.table g).members) :
    c ≠ idx := by
  rintro rfl
  have hlt := ha.member_lt h g _ hm
  rw [ha.self,ha.new.fence] at hlt
  omega

/-- A member of the new group is the fence of a child. -/
theorem mem_objs {c : ℕ} (hc : c ≠ idx) (hm : (dev'.table c).fence ∈ row.members) : c ∈ objs := by
  rw [(ha.relinked hc).fence,ha.new.members] at hm
  obtain ⟨c',hc',heq⟩ := List.mem_map.mp hm
  have hv := (h.rows c').alloc (ha.children c' hc').1
  obtain rfl := h.links.fences c' c heq ((h.rows c').fence hv.1 hv.2.1)
  exact hc'

theorem rowOk_self :
    RowOk idx (dev'.table idx) (dev'.bitmap idx) (dev.waiters idx) (dev.nextFence+1) := by
  have hnew := ha.new
  have h0 := ha.idx_ne_zero h
  have hpos : 0 < dev.nextFence := lt_of_le_of_lt (Nat.zero_le _) (h.rows 0).fence_lt
  rw [ha.self,ha.bit,Function.update_self]
  refine ⟨fun _ => ⟨rfl,h0,ha.lt⟩,(fun hh => by cases hh),fun _ => ?_,
    fun hh => absurd hh hnew.valid,fun _ _ => ?_,?_,fun ht => ?_,fun _ => hnew.parentsList,
    fun m hm => ?_,fun hh => absurd hh h0⟩
  · rw [hnew.waitRefCnt,((h.rows idx).free ha.free).1]
  · rw [hnew.fence]
    omega
  · rw [hnew.fence]
    omega
  · obtain ⟨hr,hcl,ho⟩ := hnew.indv ht
    refine ⟨hr,hcl,?_⟩
    rw [hnew.members,ho]
    rfl
  · rw [hnew.members] at hm
    obtain ⟨c,hc,rfl⟩ := List.mem_map.mp hm
    have hr := h.rows c
    have hv := hr.alloc (ha.children c hc).1
    exact ⟨hr.fence hv.1 hv.2.1,by have := hr.fence_lt; omega⟩

theorem rowOk_of_ne {j : ℕ} (hj : j ≠ idx) :
    RowOk j (dev'.table j) (dev'.bitmap j) (dev.waiters j) (dev.nextFence+1) := by
  have hr := h.rows j
  have hlink := ha.relinked hj
  rw [hlink.eq,ha.bit_of_ne hj]
  refine ⟨hr.alloc,hr.free,hr.refs,hr.zombie,hr.fence,?_,hr.indv,fun ht => ?_,fun m hm => ?_,
    hr.awake⟩
  · have := hr.fence_lt
    dsimp only
    omega
  · rw [List.eq_nil_iff_forall_not_mem]
    intro p hp
    rcases hlink.only p hp with hh | ⟨_,hmem,_⟩
    · rw [hr.group ht] at hh
      cases hh
    · have hcontra := ht.symm.trans (ha.children j hmem).2
      cases hcontra
  · obtain ⟨hz,hl⟩ := hr.members m hm
    exact ⟨hz,by omega⟩

theorem links : Links dev' := by
  have hnew := ha.new
  refine ⟨h.fences_fresh ha.self_fence fun j hj => (ha.relinked hj).fence,fun c p hc hp => ?_,
    fun c hc => ?_,fun g c hg hc hm => ?_,fun g c hg hm => ?_⟩
  · by_cases hci : c = idx
    · rw [hci,ha.self,hnew.parentsList] at hp
      cases hp
    have hlink := ha.relinked hci
    rw [hlink.state] at hc
    rcases hlink.only p hp with hh | ⟨rfl,hmem,hactive⟩
    · -- a parent that the child had before
      obtain ⟨hactive,ht,hb,hchild,hm⟩ := h.links.parents c p hc hh
      have hpi : p ≠ idx := by
        rintro rfl
        rw [ha.free] at hb
        cases hb
      have hparent := ha.relinked hpi
      rw [hlink.state,hparent.type,hparent.childrenList,hlink.fence,hparent.members,
        ha.bit_of_ne hpi]
      exact ⟨hactive,ht,hb,hchild,hm⟩
    · -- the new group
      rw [hlink.state,hlink.fence,ha.self,hnew.members,ha.bit,Function.update_self]
      refine ⟨hactive,?_,rfl,hnew.children c hmem hactive,List.mem_map.mpr ⟨c,hmem,rfl⟩⟩
      cases ht : row.type with
      | indv =>
        rw [(hnew.indv ht).2.2] at hmem
        cases hmem
      | group => rfl
  · by_cases hci : c = idx
    · rw [hci,ha.self,hnew.parentsList]
      exact List.nodup_nil
    · have hlink := ha.relinked hci
      rw [hlink.state] at hc
      refine hlink.nodup (h.links.nodup c hc) fun hmem => ?_
      have hb := (h.links.parents c idx hc hmem).2.2.1
      rw [ha.free] at hb
      cases hb
  · have hci := ha.ne_idx_of_member h hm
    have hlink := ha.relinked hci
    rw [hlink.state] at hc
    by_cases hgi : g = idx
    · rw [hgi,ha.self] at hm
      rw [hgi]
      exact hlink.added (ha.mem_objs h hci hm) hc
    · rw [(ha.relinked hgi).state] at hg
      rw [hlink.fence,(ha.relinked hgi).members] at hm
      exact hlink.kept g (h.links.carried g c hg hc hm)
  · have hci := ha.ne_idx_of_member h hm
    have hlink := ha.relinked hci
    rw [hlink.type]
    by_cases hgi : g = idx
    · rw [hgi,ha.self] at hm
      exact (ha.children c (ha.mem_objs h hci hm)).2
    · rw [(ha.relinked hgi).state] at hg
      rw [hlink.fence,(ha.relinked hgi).members] at hm
      exact h.links.indv g c hg hm

theorem status (hstatus : StatusOk dev'.outcome row) (j : ℕ)
    (hj : (dev'.table j).state ≠ .invalid) : StatusOk dev'.outcome (dev'.table j) := by
  by_cases hji : j = idx
  · rw [hji,ha.self]
    exact hstatus
  · have hlink := ha.relinked hji
    rw [hlink.state] at hj
    rw [hlink.eq]
    refine ((h.status j hj).relinked _ _).congr (ha.outcome _ ?_) fun m hm => ha.outcome _ ?_
    · exact Nat.ne_of_lt (h.rows j).fence_lt
    · exact Nat.ne_of_lt ((h.rows j).members m hm).2

theorem grows (hevents : dev'.events = dev.events) (hwake : dev'.wakeups = dev.wakeups) :
    Grows dev dev' := by
  have hnext := ha.nextFence
  refine ⟨fun j hj => ?_,fun j hj => ?_,fun f => ?_,by omega,hevents,hwake⟩
  · have hlink := ha.relinked (h.ne_of_free ha.free hj)
    exact ⟨hlink.type,hlink.state,hlink.fence,hlink.members⟩
  · by_cases hji : j = idx
    · right
      rw [hji,ha.self,ha.new.fence,ha.new.members]
      refine ⟨rfl,fun m hm => ?_⟩
      obtain ⟨c,hc,rfl⟩ := List.mem_map.mp hm
      exact ⟨c,(ha.children c hc).1,(ha.children c hc).2,rfl⟩
    · left
      rwa [← (ha.relinked hji).state]
  · by_cases hf : f = dev.nextFence
    · right
      rw [hf]
      refine ⟨h.fresh _ le_rfl,idx,?_,?_⟩
      · rw [ha.self]
        exact ha.new.valid
      · rw [ha.self]
        exact ha.new.fence
    · exact Or.inl (ha.outcome f hf)

end Adds

/-- A free row becomes a new fence, whose children, if any, are linked to it. -/
theorem Inv.newRow (h : Inv dev) (hfree : dev.bitmap idx = false) (hlt : idx < maxObjs)
    (objs : List ℕ) (hobjs : ∀ c ∈ objs, (dev.table c).state ≠ .invalid ∧ (dev.table c).type = .indv)
    (hnew : NewRow dev objs row) (hself : dev'.table idx = row)
    (hothers : ∀ j, j ≠ idx → dev'.table j = if j ∈ objs then linked idx (dev.table j) else dev.table j)
    (hbit : dev'.bitmap = Function.update dev.bitmap idx true) (hwait : dev'.waiters = dev.waiters)
    (hnext : dev'.nextFence = dev.nextFence+1) (huid : dev'.nextUid = dev.nextUid)
    (hout : ∀ f, f ≠ dev.nextFence → dev'.outcome f = dev.outcome f)
    (hreg : dev'.registered = dev.registered) (hdis : dev'.dispatched = dev.dispatched)
    (hder : dev'.deregistered = dev.deregistered) (hevents : dev'.events = dev.events)
    (hwake : dev'.wakeups = dev.wakeups) (hstatus : StatusOk dev'.outcome row) :
    Inv dev' ∧ Grows dev dev' := by
  have ha : Adds dev dev' idx objs row :=
    ⟨hfree,hlt,hobjs,hnew,hself,hothers,hbit,hwait,hnext,hout⟩
  refine ⟨⟨fun j => ?_,ha.links h,ha.status h hstatus,fun f hf => ?_,?_,?_⟩,
    ha.grows h hevents hwake⟩
  · rw [hwait,hnext]
    by_cases hj : j = idx
    · subst hj
      exact ha.rowOk_self h
    · exact ha.rowOk_of_ne h hj
  · rw [hnext] at hf
    rw [hout f (by omega)]
    exact h.fresh f (by omega)
  · refine h.delivery_fresh hfree ⟨ha.self_fence,?_⟩ (fun j hj => ?_) hnext huid hout hreg hdis hder
    · rw [hself]
      exact hnew.callbackList
    · exact ⟨(ha.relinked hj).fence,(ha.relinked hj).callbackList⟩
  · rw [ha.bit_of_ne (Ne.symm (ha.idx_ne_zero h))]
    exact h.reserved

/-- A free row is left behind by a merge that has failed. -/
theorem Inv.deadRow (h : Inv dev) (hfree : dev.bitmap idx = false) (row : Row)
    (hstate : row.state = .invalid) (htype : row.type = .group) (hfence : row.fence = dev.nextFence)
    (hlist : row.callbackList = []) (hparents : row.parentsList = [])
    (hmembers : ∀ m ∈ row.members, m ≠ 0 ∧ m < dev.nextFence)
    (hself : dev'.table idx = row) (hothers : ∀ j, j ≠ idx → dev'.table j = dev.table j)
    (hwait : dev'.waiters = dev.waiters) (hnext : dev'.nextFence = dev.nextFence+1)
    (hbit : dev'.bitmap = dev.bitmap) (huid : dev'.nextUid = dev.nextUid)
    (hout : dev'.outcome = dev.outcome) (hreg : dev'.registered = dev.registered)
    (hdis : dev'.dispatched = dev.dispatched) (hder : dev'.deregistered = dev.deregistered)
    (hevents : dev'.events = dev.events) (hwake : dev'.wakeups = dev.wakeups) :
    Inv dev' ∧ Grows dev dev' := by
  have hlive : ∀ j, (dev'.table j).state ≠ .invalid → j ≠ idx := by
    rintro j hj rfl
    rw [hself] at hj
    exact hj hstate
  have hfence' : (dev'.table idx).fence = dev.nextFence := by rw [hself,hfence]
  refine ⟨⟨fun j => ?_,⟨h.fences_fresh hfence' fun j hj => by rw [hothers j hj],
    fun c p hc hp => ?_,fun c hc => ?_,fun g c hg hc hm => ?_,fun g c hg hm => ?_⟩,
    fun j hj => ?_,fun f hf => ?_,?_,by rw [hbit]; exact h.reserved⟩,
    fun j hj => ?_,fun j hj => ?_,fun f => Or.inl (by rw [hout]),by omega,hevents,hwake⟩
  · rw [hwait,hnext,hbit]
    have hr := h.rows j
    by_cases hj : j = idx
    · subst hj
      rw [hself]
      refine ⟨fun hh => absurd hstate hh,fun _ => ⟨(hr.free hfree).1,hlist⟩,
        fun hh => absurd hstate hh,fun _ hb => ?_,fun hb _ => ?_,?_,fun ht => ?_,fun _ => hparents,
        fun m hm => ?_,hr.awake⟩
      · rw [hfree] at hb
        cases hb
      · rw [hfree] at hb
        cases hb
      · rw [hfence]
        omega
      · rw [htype] at ht
        cases ht
      · obtain ⟨hz,hl⟩ := hmembers m hm
        exact ⟨hz,by omega⟩
    · rw [hothers j hj]
      refine ⟨hr.alloc,hr.free,hr.refs,hr.zombie,hr.fence,?_,hr.indv,hr.group,fun m hm => ?_,
        hr.awake⟩
      · have := hr.fence_lt
        omega
      · obtain ⟨hz,hl⟩ := hr.members m hm
        exact ⟨hz,by omega⟩
  · have hci := hlive c hc
    rw [hothers c hci] at hc hp ⊢
    obtain ⟨hactive,ht,hb,hchild,hm⟩ := h.links.parents c p hc hp
    have hpi : p ≠ idx := by
      rintro rfl
      rw [hfree] at hb
      cases hb
    rw [hothers p hpi,hbit]
    exact ⟨hactive,ht,hb,hchild,hm⟩
  · have hci := hlive c hc
    rw [hothers c hci] at hc ⊢
    exact h.links.nodup c hc
  · have hgi := hlive g hg
    have hci := hlive c (by rw [hc]; decide)
    rw [hothers g hgi] at hg hm
    rw [hothers c hci] at hc hm ⊢
    exact h.links.carried g c hg hc hm
  · have hgi := hlive g hg
    rw [hothers g hgi] at hg hm
    have hci : c ≠ idx := by
      rintro rfl
      rw [hself,hfence] at hm
      have := ((h.rows g).members _ hm).2
      omega
    rw [hothers c hci] at hm ⊢
    exact h.links.indv g c hg hm
  · have hji := hlive j hj
    rw [hothers j hji] at hj ⊢
    rw [hout]
    exact h.status j hj
  · rw [hout]
    exact h.fresh f (by omega)
  · refine h.delivery_fresh hfree ⟨hfence',?_⟩ (fun j hj => ?_) hnext huid
      (fun f _ => by rw [hout]) hreg hdis hder
    · rw [hself]
      exact hlist
    · rw [hothers j hj]
      exact ⟨rfl,rfl⟩
  · rw [hothers j (h.ne_of_free hfree hj)]
    exact .refl _
  · left
    rw [← hothers j (hlive j hj)]
    exact hj

theorem findFirstZeroBit_spec {bitmap : ℕ → Bool} {i n idx : ℕ}
    (h : findFirstZeroBit bitmap i n = some idx) : bitmap idx = false ∧ idx < i+n := by
  induction n generalizing i with
  | zero => cases h
  | succ n ih =>
    rw [findFirstZeroBit] at h
    split at h
    · obtain ⟨hb,hlt⟩ := ih h
      exact ⟨hb,by omega⟩
    · next hb =>
      obtain rfl := Option.some.inj h
      exact ⟨by simpa using hb,by omega⟩

theorem create_inv (h : Inv dev) :
    Inv (camSyncCreate dev).1 ∧ Grows dev (camSyncCreate dev).1 := by
  unfold camSyncCreate
  split
  · exact ⟨h,.refl dev⟩
  · next idx hidx =>
    obtain ⟨hfree,hlt⟩ := findFirstZeroBit_spec hidx
    rw [Nat.zero_add] at hlt
    have hrange : ¬ (idx = 0 ∨ maxObjs ≤ idx) := by
      rintro (rfl | hge)
      · rw [h.reserved] at hfree
        cases hfree
      · omega
    simp only [camSyncInitRow,if_neg hrange,ne_eq,not_true_eq_false,if_false]
    have hout : dev.outcome dev.nextFence = none := h.fresh _ le_rfl
    refine h.newRow hfree hlt [] (fun c hc => by cases hc)
      ⟨rfl,by simp,rfl,rfl,rfl,rfl,(fun c hc => by cases hc),fun _ => ⟨rfl,rfl,rfl⟩⟩
      (Function.update_self ..) (fun j hj => by simp [SyncDev.setBit,hj]) rfl rfl rfl rfl
      (fun _ _ => rfl) rfl rfl rfl rfl rfl ⟨fun _ => Or.inl ⟨rfl,hout⟩,(fun ht => by cases ht),?_⟩
    simp [zeroRow,SyncDev.setBit,hout]

end Creating

section Merging

variable {dev dev₁ dev₂ dev₃ : SyncDev} {idx : ℕ} {objs cs done : List ℕ} {alloc : ℕ → Bool × Bool}

/-- The state the signaled children give a new group; `done` is the list of children handled,
latest first. -/
def mergedState (dev : SyncDev) (done : List ℕ) : FenceState :=
  match done.find? fun c => (dev.table c).state = .signaledError ∨
      (dev.table c).state = .signaledCancel with
  | some c => (dev.table c).state
  | none => .active

def activeOf (dev : SyncDev) (cs : List ℕ) : List ℕ := cs.filter fun c => (dev.table c).state = .active

/-- The loop of `cam_sync_init_group_object` after the children in `done`. -/
structure Linking (dev₁ dev : SyncDev) (idx : ℕ) (done : List ℕ) : Prop where
  others : ∀ j, j ≠ idx →
    dev.table j = if j ∈ done then linked idx (dev₁.table j) else dev₁.table j
  rest : dev = { dev₁ with table := dev.table }

/-- Besides, the row of the group has been kept up to date. -/
structure Counted (dev₁ dev : SyncDev) (idx : ℕ) (done : List ℕ) : Prop extends
    Linking dev₁ dev idx done where
  row : dev.table idx =
    { dev₁.table idx with
      state := mergedState dev₁ done
      remaining := (activeOf dev₁ done).length
      childrenList := (activeOf dev₁ done).reverse }

theorem linked_of_not_active {row : Row} (h : row.state ≠ .active) : linked idx row = row := by
  simp [linked,h]

theorem Linking.setRow {dev : SyncDev} (h : Linking dev₁ dev idx done) (row : Row) :
    Linking dev₁ (dev.setRow idx row) idx done := by
  refine ⟨fun j hj => ?_,?_⟩
  · simp only [setRow_table,Function.update_of_ne hj]
    exact h.others j hj
  · conv_lhs => rw [h.rest]
    rfl

/-- A child that is not active is passed over. -/
theorem Linking.pass {dev : SyncDev} (h : Linking dev₁ dev idx done) {c : ℕ}
    (hc : (dev₁.table c).state ≠ .active) : Linking dev₁ dev idx (c::done) := by
  refine ⟨fun j hj => ?_,h.rest⟩
  rw [h.others j hj]
  by_cases hjc : j = c
  · subst hjc
    simp [linked_of_not_active hc]
  · simp [hjc]

/-- The result of the loop: all children have been handled, or the loop has stopped with an
error before one of them. -/
def LoopResult (dev₁ : SyncDev) (idx : ℕ) (cs done : List ℕ)
    (r : SyncDev × Option (ℤ × List ℕ)) : Prop :=
  (r.2 = none ∧ Counted dev₁ r.1 idx (cs.reverse ++ done) ∧
    ∀ c ∈ cs, (dev₁.table c).state ≠ .invalid ∧ (dev₁.table c).type = .indv) ∨
  ∃ rc done', r.2 = some (rc,done') ∧ rc < 0 ∧ Linking dev₁ r.1 idx done' ∧
    (∀ c ∈ done', c ∈ cs ∨ c ∈ done) ∧ ∃ st rem ch, r.1.table idx =
      { dev₁.table idx with state := st, remaining := rem, childrenList := ch }

theorem addChildren_spec (cs : List ℕ) : ∀ (done : List ℕ) (dev : SyncDev),
    Counted dev₁ dev idx done → (∀ c ∈ cs, c ≠ idx) → cs.Nodup → (∀ c ∈ cs, c ∉ done) →
    LoopResult dev₁ idx cs done (addChildren idx alloc done cs dev) := by
  induction cs with
  | nil =>
    intro done dev h _ _ _
    exact Or.inl ⟨rfl,h,fun c hc => by cases hc⟩
  | cons c cs ih =>
    intro done dev h hidx hnodup hdone
    obtain ⟨hccs,hcs⟩ := List.nodup_cons.mp hnodup
    have hci := hidx c List.mem_cons_self
    have hcd := hdone c List.mem_cons_self
    have hchild : dev.table c = dev₁.table c := by rw [h.others c hci,if_neg hcd]
    -- the rest of the loop, after this child has been handled
    have hstep : ∀ dev', Counted dev₁ dev' idx (c::done) →
        (dev₁.table c).state ≠ .invalid → (dev₁.table c).type = .indv →
        LoopResult dev₁ idx (c::cs) done (addChildren idx alloc (c::done) cs dev') := by
      intro dev' hcount hs ht
      rcases ih (c::done) dev' hcount (fun x hx => hidx x (List.mem_cons_of_mem c hx)) hcs
        (fun x hx hmem => by
          rcases List.mem_cons.mp hmem with rfl | hmem
          · exact hccs hx
          · exact hdone x (List.mem_cons_of_mem c hx) hmem) with
        ⟨hnone,hc,hv⟩ | ⟨rc,done',hsome,hrc,hl,hsub,hrow⟩
      · left
        refine ⟨hnone,by simpa using hc,fun x hx => ?_⟩
        rcases List.mem_cons.mp hx with rfl | hx
        · exact ⟨hs,ht⟩
        · exact hv x hx
      · right
        refine ⟨rc,done',hsome,hrc,hl,fun x hx => ?_,hrow⟩
        rcases hsub x hx with hx | hx
        · exact Or.inl (List.mem_cons_of_mem c hx)
        · rcases List.mem_cons.mp hx with rfl | hx
          · exact Or.inl List.mem_cons_self
          · exact Or.inr hx
    -- an error before this child has been linked
    have hfail : ∀ (rc : ℤ) (rem : ℕ) (ch : List ℕ), rc < 0 →
        LoopResult dev₁ idx (c::cs) done
          (dev.setRow idx { dev.table idx with remaining := rem, childrenList := ch },
            some (rc,done)) := by
      intro rc rem ch hrc
      right
      refine ⟨rc,done,rfl,hrc,h.toLinking.setRow _,fun x hx => Or.inr hx,
        mergedState dev₁ done,rem,ch,?_⟩
      simp only [setRow_table,Function.update_self]
      rw [h.row]
    rw [addChildren]
    simp only [hchild]
    split
    · right
      exact ⟨-einval,done,rfl,by decide,h.toLinking,fun x hx => Or.inr hx,_,_,_,h.row⟩
    · next hvalid =>
      obtain ⟨htype,hs⟩ := not_or.mp hvalid
      have ht : (dev₁.table c).type = .indv := by
        cases hh : (dev₁.table c).type with
        | indv => rfl
        | group => exact absurd hh htype
      split
      · next hfailed =>
        have hna : (dev₁.table c).state ≠ .active := by
          rcases hfailed with hh | hh <;> rw [hh] <;> decide
        refine hstep _ ⟨(h.toLinking.setRow _).pass hna,?_⟩ hs ht
        simp only [setRow_table,Function.update_self]
        rw [h.row]
        simp [mergedState,activeOf,hna,hfailed]
      · next hfailed =>
        split
        · next hna =>
          refine hstep _ ⟨h.toLinking.pass hna,?_⟩ hs ht
          rw [h.row]
          simp only [mergedState,activeOf,List.find?_cons,List.filter_cons,hfailed,hna,
            decide_false,Bool.false_eq_true,if_false]
        · next hactive =>
          have ha : (dev₁.table c).state = .active := not_not.mp hactive
          split
          · exact hfail _ _ _ (by decide)
          · split
            · exact hfail _ _ _ (by decide)
            · refine hstep _ ⟨⟨fun j hj => ?_,?_⟩,?_⟩ hs ht
              · by_cases hjc : j = c
                · subst hjc
                  simp [linked,ha]
                · simp only [setRow_table,Function.update_of_ne hjc,Function.update_of_ne hj,
                    List.mem_cons,hjc,false_or]
                  exact h.others j hj
              · conv_lhs => rw [h.rest]
                rfl
              · simp only [setRow_table,Function.update_of_ne (Ne.symm hci),Function.update_self]
                rw [h.row]
                simp [mergedState,activeOf,ha]

/-- The clean-up loop takes the group out of the lists it has been put on. -/
theorem foldl_unlink (idx : ℕ) (cs : List ℕ) : ∀ dev : SyncDev,
    ∃ t, cs.foldl (fun d c => d.setRow c (cleanupParentsList (d.table c) idx)) dev =
        { dev with table := t } ∧
      (∀ j, j ∉ cs → t j = dev.table j) ∧
      ∀ j row, idx ∉ row.parentsList → (dev.table j = row → t j = row) ∧
        (dev.table j = linked idx row → j ∈ cs → t j = row) := by
  induction cs with
  | nil => exact fun dev => ⟨dev.table,rfl,fun _ _ => rfl,fun _ _ _ => ⟨id,fun _ hj => by cases hj⟩⟩
  | cons c cs ih =>
    intro dev
    obtain ⟨t,ht,hout,hin⟩ := ih (dev.setRow c (cleanupParentsList (dev.table c) idx))
    refine ⟨t,ht,fun j hj => ?_,fun j row hrow => ?_⟩
    · obtain ⟨hjc,hj⟩ := not_or.mp (mt List.mem_cons.mpr hj)
      rw [hout j hj]
      simp [hjc]
    · have hclean : cleanupParentsList row idx = row := by
        simp [cleanupParentsList,List.erase_of_not_mem hrow]
      have hundo : cleanupParentsList (linked idx row) idx = row := by
        unfold linked
        split
        · simp [cleanupParentsList,List.erase_append_right _ hrow]
        · exact hclean
      by_cases hjc : j = c
      · subst hjc
        refine ⟨fun hh => (hin j row hrow).1 ?_,fun hh _ => (hin j row hrow).1 ?_⟩
        · simp [hh,hclean]
        · simp [hh,hundo]
      · refine ⟨fun hh => (hin j row hrow).1 ?_,fun hh hj => (hin j row hrow).2 ?_ ?_⟩
        · simpa [hjc] using hh
        · simpa [hjc] using hh
        · exact (List.mem_cons.mp hj).resolve_left hjc

theorem removeDuplicateArr_length (objs acc : List ℕ) :
    (objs.foldl (fun acc a => if a ∈ acc then acc else acc ++ [a]) acc).length ≤
        acc.length + objs.length ∧
      ((objs.foldl (fun acc a => if a ∈ acc then acc else acc ++ [a]) acc).length =
        acc.length + objs.length → objs.Nodup ∧ ∀ a ∈ objs, a ∉ acc) := by
  induction objs generalizing acc with
  | nil => exact ⟨le_rfl,fun _ => ⟨List.nodup_nil,fun a ha => by cases ha⟩⟩
  | cons a objs ih =>
    rw [List.foldl_cons]
    split
    · obtain ⟨hle,_⟩ := ih acc
      simp only [List.length_cons]
      exact ⟨by omega,fun hh => by omega⟩
    · next ha =>
      obtain ⟨hle,heq⟩ := ih (acc ++ [a])
      simp only [List.length_append,List.length_cons,List.length_nil] at hle heq ⊢
      refine ⟨by omega,fun hh => ?_⟩
      obtain ⟨hn,hd⟩ := heq (by omega)
      refine ⟨List.nodup_cons.mpr ⟨fun hmem => hd a hmem (by simp),hn⟩,fun x hx => ?_⟩
      rcases List.mem_cons.mp hx with rfl | hx
      · exact ha
      · exact fun hmem => hd x hx (List.mem_append.mpr (Or.inl hmem))

/-- Either no child has failed, or the state is that of a child that has. -/
theorem mergedState_cases (dev : SyncDev) (done : List ℕ) :
    (mergedState dev done = .active ∧ ∀ c ∈ done,
      (dev.table c).state ≠ .signaledError ∧ (dev.table c).state ≠ .signaledCancel) ∨
    ∃ c ∈ done, mergedState dev done = (dev.table c).state ∧
      ((dev.table c).state = .signaledError ∨ (dev.table c).state = .signaledCancel) := by
  unfold mergedState
  cases hf : done.find? fun c => (dev.table c).state = .signaledError ∨
      (dev.table c).state = .signaledCancel with
  | none =>
    left
    refine ⟨rfl,fun c hc => ?_⟩
    have hh := List.find?_eq_none.mp hf c hc
    simpa using hh
  | some c =>
    right
    have hh := List.find?_some hf
    exact ⟨c,List.mem_of_find?_eq_some hf,rfl,by simpa using hh⟩

/-- The counter and the state a merge gives the new group. -/
theorem mergedGroup (h : Inv dev) (hnodup : objs.Nodup)
    (hobjs : ∀ c ∈ objs, (dev.table c).state ≠ .invalid ∧ (dev.table c).type = .indv)
    {outcome : ℕ → Option FenceState} (hout : ∀ f < dev.nextFence, outcome f = dev.outcome f)
    {row : Row} (hmembers : row.members = objs.map fun c => (dev.table c).fence)
    (hremaining : row.remaining = (activeOf dev objs.reverse).length)
    (hstate : row.state = mergedState dev objs.reverse ∨
      row.state = .signaledSuccess ∧ mergedState dev objs.reverse = .active)
    (hcomplete : row.remaining = 0 → row.state.IsSignaled ∧ outcome row.fence = some row.state)
    (hpending : row.remaining ≠ 0 → outcome row.fence = none) : GroupOk outcome row := by
  have hchild : ∀ c ∈ objs, (dev.table c).state = .active ∧ outcome (dev.table c).fence = none ∨
      (dev.table c).state.IsSignaled ∧
        outcome (dev.table c).fence = some (dev.table c).state := by
    intro c hc
    obtain ⟨hv,ht⟩ := hobjs c hc
    rw [hout _ (h.rows c).fence_lt]
    exact (h.status c hv).indv ht
  have hinj : ∀ c ∈ objs, ∀ c' ∈ objs, (dev.table c).fence = (dev.table c').fence → c = c' := by
    intro c hc c' _ heq
    have hv := (h.rows c).alloc (hobjs c hc).1
    exact h.links.fences c c' heq ((h.rows c).fence hv.1 hv.2.1)
  refine ⟨?_,?_,?_,fun hs m hm => ?_,fun hs => ?_,hcomplete,hpending⟩
  · rw [hmembers]
    exact (List.nodup_map_iff_inj_on hnodup).mpr hinj
  · rw [hmembers,List.length_map,← List.length_range (n := maxObjs)]
    refine (hnodup.subperm fun c hc => ?_).length_le
    exact List.mem_range.mpr ((h.rows c).alloc (hobjs c hc).1).2.2
  · rw [hremaining,hmembers,activeOf,List.filter_reverse,List.length_reverse,List.filter_map,
      List.length_map]
    congr 1
    refine List.filter_congr fun c hc => ?_
    rcases hchild c hc with ⟨ha,ho⟩ | ⟨hsig,ho⟩
    · simp [ha,ho]
    · have hna : (dev.table c).state ≠ .active := by
        intro ha
        rw [ha] at hsig
        exact absurd hsig (by decide)
      simp [hna,ho]
  · rw [hmembers] at hm
    obtain ⟨c,hc,rfl⟩ := List.mem_map.mp hm
    rcases mergedState_cases dev objs.reverse with ⟨_,hno⟩ | ⟨c',_,hm',hbad⟩
    · obtain ⟨hne,hnc⟩ := hno c (List.mem_reverse.mpr hc)
      rcases hchild c hc with ⟨_,ho⟩ | ⟨hsig,ho⟩
      · exact Or.inl ho
      · right
        rw [ho]
        congr 1
        exact hsig.resolve_right fun hh => hh.elim hne hnc
    · rw [hm'] at hstate
      rcases hstate with hh | ⟨_,hh⟩
      · rw [hh] at hs
        rcases hbad with hb | hb <;> rw [hb] at hs <;> exact absurd hs (by decide)
      · rcases hbad with hb | hb <;> rw [hb] at hh <;> cases hh
  · rcases mergedState_cases dev objs.reverse with ⟨hact,_⟩ | ⟨c,hc,hm',hbad⟩
    · rcases hstate with hh | ⟨hh,_⟩
      · rw [hh,hact] at hs
        exact absurd hs (by decide)
      · rw [hh] at hs
        exact absurd hs (by decide)
    · rcases hstate with hh | ⟨_,hh⟩
      · have hco := List.mem_reverse.mp hc
        refine ⟨(dev.table c).fence,?_,?_⟩
        · rw [hmembers]
          exact List.mem_map.mpr ⟨c,hco,rfl⟩
        · rw [hh,hm']
          rcases hchild c hco with ⟨ha,_⟩ | ⟨_,ho⟩
          · rcases hbad with hb | hb <;> rw [ha] at hb <;> cases hb
          · exact ho
      · rw [hm'] at hh
        rcases hbad with hb | hb <;> rw [hb] at hh <;> cases hh

/-- A new group without children, as `cam_sync_init_row` leaves it. -/
def newGroup (dev : SyncDev) (idx : ℕ) (objs : List ℕ) : SyncDev :=
  { dev with
    table := Function.update dev.table idx
      { zeroRow with
        type := .group, syncId := idx, state := .active, waitRefCnt := 1,
        fence := dev.nextFence, members := objs.map fun c => (dev.table c).fence }
    bitmap := Function.update dev.bitmap idx true
    nextFence := dev.nextFence+1 }

theorem newGroup_counted (dev : SyncDev) (idx : ℕ) (objs : List ℕ) :
    Counted (newGroup dev idx objs) (newGroup dev idx objs) idx [] :=
  ⟨⟨fun j _ => by simp,rfl⟩,by simp [newGroup,zeroRow,mergedState,activeOf]⟩

theorem initGroup_eq (dev : SyncDev) (hrange : ¬ (idx = 0 ∨ maxObjs ≤ idx)) (hne : ∀ c ∈ objs, c ≠ idx) :
    ((camSyncInitRow (dev.setBit idx true) idx .group).1.setRow idx
      { (camSyncInitRow (dev.setBit idx true) idx .group).1.table idx with
        members := objs.map fun c =>
          ((camSyncInitRow (dev.setBit idx true) idx .group).1.table c).fence }) =
      newGroup dev idx objs := by
  have hmap : (objs.map fun c => (Function.update dev.table idx
      { zeroRow with
        type := .group, syncId := idx, state := .active, waitRefCnt := 1,
        fence := dev.nextFence } c).fence) = objs.map fun c => (dev.table c).fence :=
    List.map_congr_left fun c hc => by rw [Function.update_of_ne (hne c hc)]
  simp only [camSyncInitRow,if_neg hrange,SyncDev.setBit,SyncDev.setRow,newGroup,
    Function.update_self,Function.update_idem,hmap]

theorem mergedState_congr {dev' : SyncDev} {done : List ℕ}
    (h : ∀ c ∈ done, dev'.table c = dev.table c) :
    mergedState dev' done = mergedState dev done := by
  induction done with
  | nil => rfl
  | cons c done ih =>
    have hrest := ih fun x hx => h x (List.mem_cons_of_mem c hx)
    unfold mergedState at hrest ⊢
    simp only [List.find?_cons,h c List.mem_cons_self]
    by_cases hc : (dev.table c).state = .signaledError ∨ (dev.table c).state = .signaledCancel
    · simp only [hc,decide_true,h c List.mem_cons_self]
    · simp only [hc,decide_false]
      exact hrest

theorem activeOf_congr {dev' : SyncDev} {done : List ℕ}
    (h : ∀ c ∈ done, dev'.table c = dev.table c) : activeOf dev' done = activeOf dev done :=
  List.filter_congr fun c hc => by rw [h c hc]

/-- A group that has been set up. -/
theorem initGroup_success (h : Inv dev) (hfree : dev.bitmap idx = false) (hlt : idx < maxObjs)
    (hnodup : objs.Nodup) (hne : ∀ c ∈ objs, c ≠ idx)
    (hcount : Counted (newGroup dev idx objs) dev₂ idx objs.reverse)
    (hvalid : ∀ c ∈ objs, (dev.table c).state ≠ .invalid ∧ (dev.table c).type = .indv)
    (row : Row) (outcome : ℕ → Option FenceState)
    (hrow : row = { dev₂.table idx with state := row.state, signaled := row.signaled })
    (hs : row.state ≠ .invalid)
    (hstate : row.state = mergedState dev objs.reverse ∨
      row.state = .signaledSuccess ∧ mergedState dev objs.reverse = .active)
    (hout : ∀ f, f ≠ dev.nextFence → outcome f = dev.outcome f)
    (hcomplete : row.remaining = 0 → row.state.IsSignaled ∧ outcome row.fence = some row.state)
    (hpending : row.remaining ≠ 0 → outcome row.fence = none)
    (hsignaled : row.signaled = true ↔ outcome row.fence ≠ none) :
    Inv { dev₂.setRow idx row with outcome := outcome } ∧
      Grows dev { dev₂.setRow idx row with outcome := outcome } := by
  have htable : ∀ c ∈ objs.reverse, (newGroup dev idx objs).table c = dev.table c := fun c hc => by
    simp [newGroup,hne c (List.mem_reverse.mp hc)]
  have hidx := hcount.row
  rw [activeOf_congr htable] at hidx
  have hfields : row.type = .group ∧ row.fence = dev.nextFence ∧ row.waitRefCnt = 1 ∧
      row.callbackList = [] ∧ row.parentsList = [] ∧
      row.members = (objs.map fun c => (dev.table c).fence) ∧
      row.remaining = (activeOf dev objs.reverse).length ∧
      row.childrenList = (activeOf dev objs.reverse).reverse := by
    rw [hrow,hidx]
    simp [newGroup,zeroRow]
  obtain ⟨htype,hfence,hwait,hlist,hparents,hmembers,hremaining,hchildren⟩ := hfields
  have hrest := hcount.rest
  refine h.newRow hfree hlt objs hvalid ⟨hfence,hs,hwait,hlist,hparents,hmembers,fun c hc ha => ?_,
    fun ht => ?_⟩ (by simp) (fun j hj => ?_) ?_ ?_ ?_ ?_ hout ?_ ?_ ?_ ?_ ?_
    ⟨fun ht => ?_,fun _ => mergedGroup h hnodup hvalid (fun f hf => hout f (Nat.ne_of_lt hf)) hmembers
      hremaining hstate hcomplete hpending,hsignaled⟩
  · rw [hchildren]
    simp [activeOf,hc,ha]
  · rw [htype] at ht
    cases ht
  · simp only [setRow_table,Function.update_of_ne hj]
    rw [hcount.others j hj]
    simp [newGroup,hj]
  · simp only [setRow_bitmap]
    rw [hrest]
    rfl
  · simp only [setRow_waiters]
    rw [hrest]
    rfl
  · simp only [setRow_nextFence]
    rw [hrest]
    rfl
  · simp only [setRow_nextUid]
    rw [hrest]
    rfl
  · simp only [setRow_registered]
    rw [hrest]
    rfl
  · simp only [setRow_dispatched]
    rw [hrest]
    rfl
  · simp only [setRow_deregistered]
    rw [hrest]
    rfl
  · simp only [setRow_events]
    rw [hrest]
    rfl
  · simp only [setRow_wakeups]
    rw [hrest]
    rfl
  · rw [htype] at ht
    cases ht

/-- A group that could not be set up: the children forget it. -/
theorem initGroup_failure (h : Inv dev) (hfree : dev.bitmap idx = false)
    (hne : ∀ c ∈ objs, c ≠ idx) (hvalid : ∀ c ∈ objs, (dev.table c).state ≠ .invalid)
    (hlink : Linking (newGroup dev idx objs) dev₂ idx done) (hdone : ∀ c ∈ done, c ∈ objs)
    {st : FenceState} {rem : ℕ} {ch : List ℕ}
    (hrow : dev₂.table idx = { (newGroup dev idx objs).table idx with
      state := st, remaining := rem, childrenList := ch })
    (hdev : dev₃ = ((done.foldl (fun d c => d.setRow c (cleanupParentsList (d.table c) idx))
      (dev₂.setRow idx { dev₂.table idx with state := .invalid })).setRow idx
        (cleanupChildrenListAll ((done.foldl
          (fun d c => d.setRow c (cleanupParentsList (d.table c) idx))
          (dev₂.setRow idx { dev₂.table idx with state := .invalid })).table idx))).setBit
            idx false) : Inv dev₃ ∧ Grows dev dev₃ := by
  obtain ⟨t,ht,hkeep,hundo⟩ := foldl_unlink idx done
    (dev₂.setRow idx { dev₂.table idx with state := .invalid })
  have hidx : idx ∉ done := fun hmem => hne idx (hdone idx hmem) rfl
  have hself : t idx = { (newGroup dev idx objs).table idx with
      state := .invalid, remaining := rem, childrenList := ch } := by
    rw [hkeep idx hidx,setRow_table,Function.update_self,hrow]
  have hothers : ∀ j, j ≠ idx → t j = dev.table j := by
    intro j hj
    have hnew : (newGroup dev idx objs).table j = dev.table j := by simp [newGroup,hj]
    have hbefore := hlink.others j hj
    rw [hnew] at hbefore
    by_cases hmem : j ∈ done
    · have hno : idx ∉ (dev.table j).parentsList := by
        intro hin
        have hb := (h.links.parents j idx (hvalid j (hdone j hmem)) hin).2.2.1
        rw [hfree] at hb
        cases hb
      rw [if_pos hmem] at hbefore
      exact (hundo j (dev.table j) hno).2 (by simpa [hj] using hbefore) hmem
    · rw [if_neg hmem] at hbefore
      rw [hkeep j hmem,setRow_table,Function.update_of_ne hj,hbefore]
  have hrest := hlink.rest
  rw [hdev,ht]
  refine h.deadRow hfree (cleanupChildrenListAll (t idx)) ?_ ?_ ?_ ?_ ?_ (fun m hm => ?_)
    (by simp [SyncDev.setBit]) (fun j hj => ?_) ?_ ?_ ?_ ?_ ?_ ?_ ?_ ?_ ?_ ?_
  · rw [hself]
    rfl
  · rw [hself]
    simp [cleanupChildrenListAll,newGroup]
  · rw [hself]
    simp [cleanupChildrenListAll,newGroup]
  · rw [hself]
    simp [cleanupChildrenListAll,newGroup,zeroRow]
  · rw [hself]
    simp [cleanupChildrenListAll,newGroup,zeroRow]
  · rw [hself] at hm
    simp only [cleanupChildrenListAll,newGroup,Function.update_self] at hm
    obtain ⟨c,hc,rfl⟩ := List.mem_map.mp hm
    have hr := h.rows c
    have ha := hr.alloc (hvalid c hc)
    exact ⟨hr.fence ha.1 ha.2.1,hr.fence_lt⟩
  · simp only [SyncDev.setBit,setRow_table,Function.update_of_ne hj]
    exact hothers j hj
  all_goals
    simp only [SyncDev.setBit,SyncDev.setRow]
    rw [hrest]
    simp [newGroup,hfree]

/-- The group is complete at once when no child is active. -/
theorem merge_success (h : Inv dev) (hfree : dev.bitmap idx = false) (hlt : idx < maxObjs)
    (hnodup : objs.Nodup) (hne : ∀ c ∈ objs, c ≠ idx)
    (hcount : Counted (newGroup dev idx objs) dev₂ idx objs.reverse)
    (hvalid : ∀ c ∈ objs, (dev.table c).state ≠ .invalid ∧ (dev.table c).type = .indv)
    {r : SyncDev × ℤ}
    (hr : r = if (dev₂.table idx).remaining = 0 then
        ({ dev₂.setRow idx { dev₂.table idx with
            state := if (dev₂.table idx).state ≠ .signaledError ∧
                (dev₂.table idx).state ≠ .signaledCancel then .signaledSuccess
              else (dev₂.table idx).state
            signaled := true } with
          outcome := Function.update dev₂.outcome (dev₂.table idx).fence
            (some (if (dev₂.table idx).state ≠ .signaledError ∧
                (dev₂.table idx).state ≠ .signaledCancel then .signaledSuccess
              else (dev₂.table idx).state)) },0)
      else (dev₂,0)) : r.2 = 0 ∧ Inv r.1 ∧ Grows dev r.1 := by
  have htable : ∀ c ∈ objs.reverse, (newGroup dev idx objs).table c = dev.table c := fun c hc => by
    simp [newGroup,hne c (List.mem_reverse.mp hc)]
  have hidx := hcount.row
  rw [mergedState_congr htable] at hidx
  have hstate : (dev₂.table idx).state = mergedState dev objs.reverse := by rw [hidx]
  have hfence : (dev₂.table idx).fence = dev.nextFence := by
    rw [hidx]
    simp [newGroup]
  have hsig : (dev₂.table idx).signaled = false := by
    rw [hidx]
    simp [newGroup,zeroRow]
  have hout : dev₂.outcome = dev.outcome := by
    rw [hcount.rest]
    rfl
  have hfresh : dev.outcome dev.nextFence = none := h.fresh _ le_rfl
  rw [hr]
  split
  · next hzero =>
    refine ⟨rfl,?_⟩
    rcases mergedState_cases dev objs.reverse with ⟨hact,_⟩ | ⟨c,_,hm,hbad⟩
    · have hif : (if (dev₂.table idx).state ≠ .signaledError ∧
          (dev₂.table idx).state ≠ .signaledCancel then FenceState.signaledSuccess
          else (dev₂.table idx).state) = .signaledSuccess := by
        rw [hstate,hact]
        decide
      simp only [hif]
      refine initGroup_success h hfree hlt hnodup hne hcount hvalid _ _ rfl (fun hh => by cases hh)
        (Or.inr ⟨rfl,hact⟩) (fun f hf => ?_) (fun _ => ⟨Or.inl rfl,by simp⟩)
        (fun hh => absurd hzero hh) (by simp)
      rw [hfence,hout,Function.update_of_ne hf]
    · have hif : (if (dev₂.table idx).state ≠ .signaledError ∧
          (dev₂.table idx).state ≠ .signaledCancel then FenceState.signaledSuccess
          else (dev₂.table idx).state) = (dev₂.table idx).state := by
        rw [hstate,hm]
        rcases hbad with hb | hb <;> rw [hb] <;> decide
      have hsigd : (dev₂.table idx).state.IsSignaled := by
        rw [hstate,hm]
        rcases hbad with hb | hb <;> rw [hb] <;> decide
      simp only [hif]
      refine initGroup_success h hfree hlt hnodup hne hcount hvalid _ _ rfl (fun hh => ?_)
        (Or.inl hstate) (fun f hf => ?_) (fun _ => ⟨hsigd,by simp⟩)
        (fun hh => absurd hzero hh) (by simp)
      · rw [show (dev₂.table idx).state = .invalid from hh] at hsigd
        exact absurd hsigd (by decide)
      · rw [hfence,hout,Function.update_of_ne hf]
  · next hzero =>
    refine ⟨rfl,?_⟩
    have hinv := initGroup_success h hfree hlt hnodup hne hcount hvalid (dev₂.table idx)
      dev₂.outcome rfl (fun hh => ?_) (Or.inl hstate) (fun f _ => by rw [hout])
      (fun hh => absurd hh hzero) (fun _ => by rw [hfence,hout,hfresh])
      (by rw [hsig,hfence,hout,hfresh]; simp)
    · simpa [SyncDev.setRow] using hinv
    · rw [hstate] at hh
      rcases mergedState_cases dev objs.reverse with ⟨hact,_⟩ | ⟨c,_,hm,hbad⟩
      · rw [hact] at hh
        cases hh
      · rw [hm] at hh
        rcases hbad with hb | hb <;> rw [hb] at hh <;> cases hh

theorem merge_inv (h : Inv dev) (objs : List ℕ) (alloc : ℕ → Bool × Bool) :
    Inv (camSyncMerge dev objs alloc).1 ∧ Grows dev (camSyncMerge dev objs alloc).1 := by
  unfold camSyncMerge
  split
  · exact ⟨h,.refl dev⟩
  · split
    · exact ⟨h,.refl dev⟩
    · next hdup =>
      split
      · exact ⟨h,.refl dev⟩
      · next hall =>
        split
        · exact ⟨h,.refl dev⟩
        · next idx hidx =>
          obtain ⟨hfree,hlt⟩ := findFirstZeroBit_spec hidx
          rw [Nat.zero_add] at hlt
          have hrange : ¬ (idx = 0 ∨ maxObjs ≤ idx) := by
            rintro (rfl | hge)
            · rw [h.reserved] at hfree
              cases hfree
            · omega
          have hnodup : objs.Nodup := by
            have hlen : (removeDuplicateArr objs).length = objs.length := not_not.mp hdup
            exact ((removeDuplicateArr_length objs []).2
              (by rw [List.length_nil,Nat.zero_add]; exact hlen)).1
          have hne : ∀ c ∈ objs, c ≠ idx := by
            rintro c hc rfl
            have hv := (List.all_eq_true.mp (by simpa using hall)) c hc
            simp [camSyncCheckValid,hfree] at hv
          have hvalid : ∀ c ∈ objs, (dev.table c).state ≠ .invalid := by
            intro c hc
            have hv := (List.all_eq_true.mp (by simpa using hall)) c hc
            simp only [camSyncCheckValid,Bool.and_eq_true,decide_eq_true_eq] at hv
            exact hv.2
          have htable : ∀ c ∈ objs, (newGroup dev idx objs).table c = dev.table c := fun c hc => by
            simp [newGroup,hne c hc]
          have hloop : LoopResult (newGroup dev idx objs) idx objs []
              (addChildren idx alloc [] objs (newGroup dev idx objs)) :=
            addChildren_spec objs [] _ (newGroup_counted dev idx objs) hne hnodup
              fun c _ hmem => by cases hmem
          have hinit := initGroup_eq dev hrange hne
          simp only [camSyncInitGroupObject,hinit]
          generalize addChildren idx alloc [] objs (newGroup dev idx objs) = r at hloop ⊢
          obtain ⟨dev₂,res⟩ := r
          rcases hloop with ⟨hnone,hcount,hv⟩ | ⟨rc,done,hsome,hrc,hlink,hsub,st,rem,ch,hrow⟩
          · dsimp only at hnone hcount
            subst hnone
            rw [List.append_nil] at hcount
            have hv' : ∀ c ∈ objs, (dev.table c).state ≠ .invalid ∧ (dev.table c).type = .indv :=
              fun c hc => by
                have hh := hv c hc
                rwa [htable c hc] at hh
            obtain ⟨hrc,hinv⟩ := merge_success h hfree hlt hnodup hne hcount hv' rfl
            dsimp only at hrc hinv ⊢
            rw [if_neg (by rw [hrc]; decide)]
            exact hinv
          · dsimp only at hsome hlink hrow
            subst hsome
            simp only [if_pos hrc]
            exact initGroup_failure h hfree hne hvalid hlink
              (fun c hc => (hsub c hc).resolve_right (fun hh => by cases hh)) hrow rfl

end Merging

end CamSync
end MarbleModules
