import Mathlib.Tactic
import MarbleModules.CamSync

/-! The invariant of the fence table: which rows are allocated, how parents and children
refer to each other, what a group's counter and state say about its members, and where each
registered callback is. -/
namespace MarbleModules
namespace CamSync

theorem FenceState.IsSignaled.ne_invalid {s : FenceState} (h : s.IsSignaled) : s ≠ .invalid := by
  rintro rfl
  exact absurd h (by decide)

theorem FenceState.IsSignaled.ne_active {s : FenceState} (h : s.IsSignaled) : s ≠ .active := by
  rintro rfl
  exact absurd h (by decide)

/-- A field that the new row keeps is the same in every row. -/
theorem update_keeps {α : Type} (field : Row → α) {table : ℕ → Row} {i : ℕ} {row : Row}
    (h : field row = field (table i)) (j : ℕ) :
    field (Function.update table i row j) = field (table j) := by
  by_cases hj : j = i
  · subst hj
    rw [Function.update_self,h]
  · rw [Function.update_of_ne hj]

section Definitions

/-- A row by itself, with its bit, the number of threads asleep on it and the fence counter.
An invalid row whose bit is set waits for its last waiter. -/
structure RowOk (i : ℕ) (row : Row) (bit : Bool) (waiters nextFence : ℕ) : Prop where
  alloc : row.state ≠ .invalid → bit = true ∧ i ≠ 0 ∧ i < maxObjs
  free : bit = false → waiters = 0 ∧ row.callbackList = []
  refs : row.state ≠ .invalid → row.waitRefCnt = waiters+1
  zombie : row.state = .invalid → bit = true → row.waitRefCnt = waiters
  fence : bit = true → i ≠ 0 → row.fence ≠ 0
  fence_lt : row.fence < nextFence
  indv : row.type = .indv → row.remaining = 0 ∧ row.childrenList = [] ∧ row.members = []
  group : row.type = .group → row.parentsList = []
  members : ∀ m ∈ row.members, m ≠ 0 ∧ m < nextFence
  awake : i = 0 → waiters = 0

/-- How rows refer to each other. -/
structure Links (dev : SyncDev) : Prop where
  fences : ∀ i j, (dev.table i).fence = (dev.table j).fence → (dev.table i).fence ≠ 0 → i = j
  parents : ∀ c p, (dev.table c).state ≠ .invalid → p ∈ (dev.table c).parentsList →
    (dev.table c).state = .active ∧ (dev.table p).type = .group ∧ dev.bitmap p = true ∧
      c ∈ (dev.table p).childrenList ∧ (dev.table c).fence ∈ (dev.table p).members
  nodup : ∀ c, (dev.table c).state ≠ .invalid → (dev.table c).parentsList.Nodup
  carried : ∀ g c, (dev.table g).state ≠ .invalid → (dev.table c).state = .active →
    (dev.table c).fence ∈ (dev.table g).members → g ∈ (dev.table c).parentsList
  indv : ∀ g c, (dev.table g).state ≠ .invalid → (dev.table c).fence ∈ (dev.table g).members →
    (dev.table c).type = .indv

/-- The counter of a group is the number of members that have not been signaled, and its
state sums up those that have. -/
structure GroupOk (outcome : ℕ → Option FenceState) (row : Row) : Prop where
  nodup : row.members.Nodup
  bound : row.members.length ≤ maxObjs
  remaining : row.remaining = (row.members.filter fun m => outcome m = none).length
  success : row.state = .active ∨ row.state = .signaledSuccess →
    ∀ m ∈ row.members, outcome m = none ∨ outcome m = some .signaledSuccess
  failure : row.state = .signaledError ∨ row.state = .signaledCancel →
    ∃ m ∈ row.members, outcome m = some row.state
  complete : row.remaining = 0 → row.state.IsSignaled ∧ outcome row.fence = some row.state
  pending : row.remaining ≠ 0 → outcome row.fence = none

/-- What the state of a valid row says about the outcome of its fence. -/
structure StatusOk (outcome : ℕ → Option FenceState) (row : Row) : Prop where
  indv : row.type = .indv → row.state = .active ∧ outcome row.fence = none ∨
    row.state.IsSignaled ∧ outcome row.fence = some row.state
  group : row.type = .group → GroupOk outcome row
  signaled : row.signaled = true ↔ outcome row.fence ≠ none

/-- The row of a fence has been deinitialised. -/
def Gone (dev : SyncDev) (f : ℕ) : Prop := ∀ i, (dev.table i).fence ≠ f

/-- The status a callback was given is that of its fence, or the fence is gone without one. -/
def Final (dev : SyncDev) (d : Dispatch) : Prop :=
  dev.outcome d.cb.fence = some d.status ∨
    dev.outcome d.cb.fence = none ∧ d.status = .signaledCancel ∧ Gone dev d.cb.fence

/-- Every registered callback is in one place: listed at its row while its fence has no
outcome, dispatched, or deregistered. -/
structure Delivery (dev : SyncDev) : Prop where
  uids : (dev.registered.map Callback.uid).Nodup
  bound : ∀ cb ∈ dev.registered, cb.uid < dev.nextUid ∧ cb.fence < dev.nextFence ∧ cb.fence ≠ 0
  listed : ∀ i, ∀ cb ∈ (dev.table i).callbackList, cb.syncObj = i ∧
    cb.fence = (dev.table i).fence ∧ cb ∈ dev.registered ∧ cb ∉ dev.deregistered ∧
      cb ∉ dev.dispatched.map Dispatch.cb ∧ dev.outcome cb.fence = none
  nodup_listed : ∀ i, (dev.table i).callbackList.Nodup
  nodup : (dev.dispatched.map Dispatch.cb).Nodup
  dispatched : ∀ d ∈ dev.dispatched, d.cb ∈ dev.registered ∧ d.cb ∉ dev.deregistered ∧ Final dev d
  deregistered : ∀ cb ∈ dev.deregistered, cb ∈ dev.registered
  kept : ∀ cb ∈ dev.registered, cb ∈ (dev.table cb.syncObj).callbackList ∨
    cb ∈ dev.dispatched.map Dispatch.cb ∨ cb ∈ dev.deregistered

structure Inv (dev : SyncDev) : Prop where
  rows : ∀ i, RowOk i (dev.table i) (dev.bitmap i) (dev.waiters i) dev.nextFence
  links : Links dev
  status : ∀ i, (dev.table i).state ≠ .invalid → StatusOk dev.outcome (dev.table i)
  fresh : ∀ f, dev.nextFence ≤ f → dev.outcome f = none
  delivery : Delivery dev
  reserved : dev.bitmap 0 = true

end Definitions

section Status

variable {outcome outcome' : ℕ → Option FenceState} {row : Row}

theorem GroupOk.congr (h : GroupOk outcome row) (hfence : outcome' row.fence = outcome row.fence)
    (hmem : ∀ m ∈ row.members, outcome' m = outcome m) : GroupOk outcome' row := by
  refine ⟨h.nodup,h.bound,?_,fun hs m hm => ?_,fun hs => ?_,fun hr => ?_,fun hr => ?_⟩
  · rw [h.remaining]
    congr 1
    exact List.filter_congr fun m hm => by rw [hmem m hm]
  · rw [hmem m hm]
    exact h.success hs m hm
  · obtain ⟨m,hm,ho⟩ := h.failure hs
    exact ⟨m,hm,by rw [hmem m hm,ho]⟩
  · rw [hfence]
    exact h.complete hr
  · rw [hfence]
    exact h.pending hr

/-- Only the outcomes of the row's fence and of its members matter. -/
theorem StatusOk.congr (h : StatusOk outcome row) (hfence : outcome' row.fence = outcome row.fence)
    (hmem : ∀ m ∈ row.members, outcome' m = outcome m) : StatusOk outcome' row := by
  refine ⟨fun ht => ?_,fun ht => (h.group ht).congr hfence hmem,?_⟩
  · rw [hfence]
    exact h.indv ht
  · rw [hfence]
    exact h.signaled

/-- The outcome of a member leaves one member less to wait for. -/
theorem unsignaled_update {m : ℕ} {members : List ℕ} (hnodup : members.Nodup)
    (hm : m ∈ members) (hout : outcome m ≠ none) :
    (members.filter fun k => Function.update outcome m none k = none).length =
      (members.filter fun k => outcome k = none).length + 1 := by
  induction members with
  | nil => cases hm
  | cons a l ih =>
    obtain ⟨hal,hl⟩ := List.nodup_cons.mp hnodup
    by_cases ha : a = m
    · subst ha
      have hsame : (l.filter fun k => Function.update outcome a none k = none) =
          l.filter fun k => outcome k = none := by
        refine List.filter_congr fun k hk => ?_
        have hka : k ≠ a := by
          rintro rfl
          exact hal hk
        rw [Function.update_of_ne hka]
      simp [hsame,hout]
    · have hml : m ∈ l := (List.mem_cons.mp hm).resolve_left (Ne.symm ha)
      have hh := ih hl hml
      by_cases hoa : outcome a = none
      · simp only [List.filter_cons,Function.update_of_ne ha,hoa,decide_true,if_true,
          List.length_cons,hh]
      · simp only [List.filter_cons,Function.update_of_ne ha,hoa,decide_false,
          Bool.false_eq_true,if_false,hh]

end Status

section Rows

variable {dev dev' : SyncDev}

@[simp] theorem setRow_table (i : ℕ) (row : Row) :
    (dev.setRow i row).table = Function.update dev.table i row := rfl
@[simp] theorem setRow_bitmap (i : ℕ) (row : Row) : (dev.setRow i row).bitmap = dev.bitmap := rfl
@[simp] theorem setRow_waiters (i : ℕ) (row : Row) : (dev.setRow i row).waiters = dev.waiters := rfl
@[simp] theorem setRow_nextFence (i : ℕ) (row : Row) :
    (dev.setRow i row).nextFence = dev.nextFence := rfl
@[simp] theorem setRow_nextUid (i : ℕ) (row : Row) : (dev.setRow i row).nextUid = dev.nextUid := rfl
@[simp] theorem setRow_outcome (i : ℕ) (row : Row) : (dev.setRow i row).outcome = dev.outcome := rfl
@[simp] theorem setRow_registered (i : ℕ) (row : Row) :
    (dev.setRow i row).registered = dev.registered := rfl
@[simp] theorem setRow_dispatched (i : ℕ) (row : Row) :
    (dev.setRow i row).dispatched = dev.dispatched := rfl
@[simp] theorem setRow_deregistered (i : ℕ) (row : Row) :
    (dev.setRow i row).deregistered = dev.deregistered := rfl
@[simp] theorem setRow_events (i : ℕ) (row : Row) : (dev.setRow i row).events = dev.events := rfl
@[simp] theorem setRow_wakeups (i : ℕ) (row : Row) : (dev.setRow i row).wakeups = dev.wakeups := rfl

/-- The row keeps its place among the fences; at most it becomes invalid. -/
structure Keeps (r r' : Row) : Prop where
  type : r'.type = r.type
  parentsList : r'.parentsList = r.parentsList
  childrenList : r'.childrenList = r.childrenList
  remaining : r'.remaining = r.remaining
  fence : r'.fence = r.fence
  members : r'.members = r.members
  state : r'.state = .invalid ∨ r'.state = r.state ∧ r'.signaled = r.signaled

theorem Keeps.refl (r : Row) : Keeps r r := ⟨rfl,rfl,rfl,rfl,rfl,rfl,Or.inr ⟨rfl,rfl⟩⟩

theorem Keeps.valid {r r' : Row} (h : Keeps r r') (hs : r'.state ≠ .invalid) :
    r'.state = r.state ∧ r'.signaled = r.signaled := h.state.resolve_left hs

/-- The row's links are the same, and as far as they are concerned its state is; a row that is
not active may have lost its parents. -/
structure SameLinks (r r' : Row) : Prop where
  type : r'.type = r.type
  parentsList : r'.parentsList = r.parentsList ∨ r'.parentsList = [] ∧ r'.state ≠ .active
  childrenList : r'.childrenList = r.childrenList
  fence : r'.fence = r.fence
  members : r'.members = r.members
  valid : r'.state ≠ .invalid → r.state ≠ .invalid
  active : r'.state = .active → r.state = .active
  stays : r'.state ≠ .invalid → r'.parentsList ≠ [] → r.state = .active → r'.state = .active

theorem SameLinks.refl (r : Row) : SameLinks r r :=
  ⟨rfl,Or.inl rfl,rfl,rfl,rfl,id,id,fun _ _ => id⟩

theorem Keeps.sameLinks {r r' : Row} (h : Keeps r r') : SameLinks r r' := by
  have hsame : r'.state ≠ .invalid → r'.state = r.state := fun hs => (h.valid hs).1
  refine ⟨h.type,Or.inl h.parentsList,h.childrenList,h.fence,h.members,fun hs => ?_,fun hs => ?_,
    fun hs _ ha => (hsame hs).trans ha⟩
  · rw [← hsame hs]
    exact hs
  · rw [← hsame (by rw [hs]; decide)]
    exact hs

theorem Links.congr (h : Links dev) (hk : ∀ i, SameLinks (dev.table i) (dev'.table i))
    (hbit : ∀ i, dev.bitmap i = true → dev'.bitmap i = true) : Links dev' := by
  refine ⟨fun i j => ?_,fun c p hc hp => ?_,fun c hc => ?_,fun g c hg hc hm => ?_,
    fun g c hg hm => ?_⟩
  · rw [(hk i).fence,(hk j).fence]
    exact h.fences i j
  · have hstays := (hk c).stays hc (List.ne_nil_of_mem hp)
    rcases (hk c).parentsList with hps | ⟨hnil,_⟩
    · rw [hps] at hp
      obtain ⟨hactive,ht,hb,hmem,hf⟩ := h.parents c p ((hk c).valid hc) hp
      rw [(hk p).type,(hk p).childrenList,(hk c).fence,(hk p).members]
      exact ⟨hstays hactive,ht,hbit p hb,hmem,hf⟩
    · rw [hnil] at hp
      cases hp
  · rcases (hk c).parentsList with hps | ⟨hnil,_⟩
    · rw [hps]
      exact h.nodup c ((hk c).valid hc)
    · rw [hnil]
      exact List.nodup_nil
  · rw [(hk c).fence,(hk g).members] at hm
    rw [(hk c).parentsList.resolve_right fun hh => hh.2 hc]
    exact h.carried g c ((hk g).valid hg) ((hk c).active hc) hm
  · rw [(hk c).fence,(hk g).members] at hm
    rw [(hk c).type]
    exact h.indv g c ((hk g).valid hg) hm

theorem StatusOk.keeps {outcome : ℕ → Option FenceState} {r r' : Row} (h : StatusOk outcome r)
    (hk : Keeps r r') (hs : r'.state ≠ .invalid) : StatusOk outcome r' := by
  obtain ⟨hstate,hsig⟩ := hk.valid hs
  refine ⟨fun ht => ?_,fun ht => ?_,?_⟩
  · rw [hstate,hk.fence]
    exact h.indv (hk.type ▸ ht)
  · obtain ⟨hn,hb,hr,hsu,hfa,hc,hp⟩ := h.group (hk.type ▸ ht)
    rw [← hk.members] at hn hb hr hsu hfa
    rw [← hk.remaining] at hr hc hp
    rw [← hstate] at hsu hfa hc
    rw [← hk.fence] at hc hp
    exact ⟨hn,hb,hr,hsu,hfa,hc,hp⟩
  · rw [hsig,hk.fence]
    exact h.signaled

end Rows

section Deliveries

variable {dev dev' : SyncDev}

/-- Nothing is delivered: rows keep their callbacks, and only rows without callbacks change
their fence, to none or to a new one. -/
theorem Delivery.congr (h : Delivery dev) (hreg : dev'.registered = dev.registered)
    (hdis : dev'.dispatched = dev.dispatched) (hder : dev'.deregistered = dev.deregistered)
    (huid : dev'.nextUid = dev.nextUid) (hnext : dev.nextFence ≤ dev'.nextFence)
    (hlist : ∀ i, (dev'.table i).callbackList = (dev.table i).callbackList)
    (hfence : ∀ i, (dev'.table i).fence = (dev.table i).fence ∨
      (dev.table i).callbackList = [] ∧
        ((dev'.table i).fence = 0 ∨ dev.nextFence ≤ (dev'.table i).fence))
    (hout : ∀ f < dev.nextFence, dev'.outcome f = dev.outcome f) : Delivery dev' := by
  have hgone : ∀ f, f < dev.nextFence → f ≠ 0 → Gone dev f → Gone dev' f := by
    intro f hf hf0 hg i
    rcases hfence i with hh | ⟨_,hh | hh⟩
    · rw [hh]
      exact hg i
    · rw [hh]
      exact Ne.symm hf0
    · omega
  refine ⟨by rw [hreg]; exact h.uids,fun cb hcb => ?_,fun i cb hcb => ?_,fun i => ?_,
    by rw [hdis]; exact h.nodup,fun d hd => ?_,fun cb hcb => ?_,fun cb hcb => ?_⟩
  · obtain ⟨hu,hf,h0⟩ := h.bound cb (hreg ▸ hcb)
    exact ⟨huid ▸ hu,lt_of_lt_of_le hf hnext,h0⟩
  · rw [hlist] at hcb
    obtain ⟨hobj,hf,hr,hnd,hnx,ho⟩ := h.listed i cb hcb
    obtain ⟨_,hlt,_⟩ := h.bound cb hr
    rw [hreg,hder,hdis]
    refine ⟨hobj,?_,hr,hnd,hnx,by rw [hout _ hlt]; exact ho⟩
    rcases hfence i with hh | ⟨hh,_⟩
    · rw [hh]
      exact hf
    · rw [hh] at hcb
      cases hcb
  · rw [hlist]
    exact h.nodup_listed i
  · obtain ⟨hr,hnd,hfin⟩ := h.dispatched d (hdis ▸ hd)
    obtain ⟨_,hlt,h0⟩ := h.bound d.cb hr
    rw [hreg,hder]
    refine ⟨hr,hnd,?_⟩
    rw [Final,hout _ hlt]
    exact hfin.imp id fun hh => ⟨hh.1,hh.2.1,hgone _ hlt h0 hh.2.2⟩
  · rw [hreg]
    exact h.deregistered cb (hder ▸ hcb)
  · rw [hlist,hdis,hder]
    exact h.kept cb (hreg ▸ hcb)

/-- The callbacks listed at row `i` are dispatched, with the outcome the fence gets or, when
the row is deinitialised, with `CANCEL`. -/
theorem Delivery.flush (h : Delivery dev) (i : ℕ) (status : FenceState)
    (hreg : dev'.registered = dev.registered) (hder : dev'.deregistered = dev.deregistered)
    (huid : dev'.nextUid = dev.nextUid) (hnext : dev'.nextFence = dev.nextFence)
    (hdis : dev'.dispatched = dev.dispatched ++ (dev.table i).callbackList.map (⟨·,status⟩))
    (hnil : (dev'.table i).callbackList = [])
    (hlist : ∀ j, j ≠ i → (dev'.table j).callbackList = (dev.table j).callbackList)
    (hfence : ∀ j, j ≠ i → (dev'.table j).fence = (dev.table j).fence)
    (hf0 : (dev.table i).fence ≠ 0)
    (hunique : ∀ j, (dev.table j).fence = (dev.table i).fence → j = i)
    (hout : ∀ f, f ≠ (dev.table i).fence → dev'.outcome f = dev.outcome f)
    (hcase : (dev'.table i).fence = (dev.table i).fence ∧
        dev.outcome (dev.table i).fence = none ∧ dev'.outcome (dev.table i).fence = some status ∨
      (dev'.table i).fence = 0 ∧
        dev'.outcome (dev.table i).fence = dev.outcome (dev.table i).fence ∧
          status = .signaledCancel) : Delivery dev' := by
  have hmap : dev'.dispatched.map Dispatch.cb =
      dev.dispatched.map Dispatch.cb ++ (dev.table i).callbackList := by
    rw [hdis,List.map_append,List.map_map]
    congr 1
    exact List.map_id _
  have hgone : ∀ f, f ≠ 0 → Gone dev f → Gone dev' f := by
    intro f h0 hg j
    by_cases hj : j = i
    · subst hj
      rcases hcase with ⟨hh,_⟩ | ⟨hh,_⟩
      · rw [hh]
        exact hg j
      · rw [hh]
        exact Ne.symm h0
    · rw [hfence j hj]
      exact hg j
  refine ⟨by rw [hreg]; exact h.uids,fun cb hcb => ?_,fun j cb hcb => ?_,fun j => ?_,?_,
    fun d hd => ?_,fun cb hcb => ?_,fun cb hcb => ?_⟩
  · rw [huid,hnext]
    exact h.bound cb (hreg ▸ hcb)
  · have hj : j ≠ i := by
      rintro rfl
      rw [hnil] at hcb
      cases hcb
    rw [hlist j hj] at hcb
    obtain ⟨hobj,hcf,hr,hnd,hnx,ho⟩ := h.listed j cb hcb
    rw [hfence j hj,hreg,hder,hmap]
    refine ⟨hobj,hcf,hr,hnd,fun hh => ?_,?_⟩
    · rcases List.mem_append.mp hh with hh | hh
      · exact hnx hh
      · exact hj (hobj.symm.trans (h.listed i cb hh).1)
    · rw [hout]
      · exact ho
      · rw [hcf]
        exact fun hh => hj (hunique j hh)
  · by_cases hj : j = i
    · rw [hj,hnil]
      exact List.nodup_nil
    · rw [hlist j hj]
      exact h.nodup_listed j
  · rw [hmap]
    refine List.nodup_append.mpr ⟨h.nodup,h.nodup_listed i,fun a ha b hb hab => ?_⟩
    exact (h.listed i b hb).2.2.2.2.1 (hab ▸ ha)
  · rw [hdis] at hd
    rw [hreg,hder]
    rcases List.mem_append.mp hd with hd | hd
    · obtain ⟨hr,hnd,hfin⟩ := h.dispatched d hd
      obtain ⟨_,_,h0⟩ := h.bound d.cb hr
      refine ⟨hr,hnd,?_⟩
      by_cases hdf : d.cb.fence = (dev.table i).fence
      · rw [Final,hdf] at hfin
        rcases hfin with hfin | ⟨_,_,hg⟩
        · rcases hcase with ⟨_,hnone,_⟩ | ⟨_,hsame,_⟩
          · rw [hnone] at hfin
            cases hfin
          · left
            rw [hdf,hsame]
            exact hfin
        · exact absurd rfl (hg i)
      · rw [Final,hout _ hdf]
        exact hfin.imp id fun hh => ⟨hh.1,hh.2.1,hgone _ h0 hh.2.2⟩
    · obtain ⟨cb,hcb,rfl⟩ := List.mem_map.mp hd
      obtain ⟨_,hcf,hr,hnd,_,ho⟩ := h.listed i cb hcb
      refine ⟨hr,hnd,?_⟩
      rcases hcase with ⟨_,_,hsome⟩ | ⟨hz,hsame,hcancel⟩
      · left
        dsimp only
        rw [hcf,hsome]
      · right
        dsimp only
        rw [hcf] at ho ⊢
        refine ⟨hsame.trans ho,hcancel,fun j => ?_⟩
        by_cases hj : j = i
        · rw [hj,hz]
          exact Ne.symm hf0
        · rw [hfence j hj]
          exact fun hh => hj (hunique j hh)
  · rw [hreg]
    exact h.deregistered cb (hder ▸ hcb)
  · rw [hmap,hder]
    rcases h.kept cb (hreg ▸ hcb) with hk | hk | hk
    · by_cases hj : cb.syncObj = i
      · exact Or.inr (Or.inl (List.mem_append.mpr (Or.inr (hj ▸ hk))))
      · exact Or.inl (by rw [hlist _ hj]; exact hk)
    · exact Or.inr (Or.inl (List.mem_append.mpr (Or.inl hk)))
    · exact Or.inr (Or.inr hk)

end Deliveries

section Rows

variable {dev dev' : SyncDev} {i : ℕ} {row row' : Row}

/-- Apart from rows, waiters and notifications of user space nothing changes. -/
structure SameBooks (dev dev' : SyncDev) : Prop where
  bitmap : dev'.bitmap = dev.bitmap
  nextFence : dev'.nextFence = dev.nextFence
  nextUid : dev'.nextUid = dev.nextUid
  outcome : dev'.outcome = dev.outcome
  registered : dev'.registered = dev.registered
  dispatched : dev'.dispatched = dev.dispatched
  deregistered : dev'.deregistered = dev.deregistered

/-- What does not matter here: the signaled states, reference counts and payloads. -/
theorem RowOk.update {bit : Bool} {waiters nextFence : ℕ} (h : RowOk i row bit waiters nextFence)
    (hl : SameLinks row row') (hstate : row.state ≠ .invalid → row'.state ≠ .invalid)
    (hlist : row'.callbackList = row.callbackList ∨ row'.callbackList = [])
    (hremaining : row.type = .indv → row'.remaining = row.remaining)
    (hwait : row'.waitRefCnt = row.waitRefCnt) : RowOk i row' bit waiters nextFence := by
  refine ⟨fun hs => h.alloc (hl.valid hs),fun hb => ⟨(h.free hb).1,?_⟩,fun hs => ?_,
    fun hs hb => ?_,?_,?_,fun ht => ?_,fun ht => ?_,?_,h.awake⟩
  · rcases hlist with hh | hh
    · rw [hh]
      exact (h.free hb).2
    · exact hh
  · rw [hwait]
    exact h.refs (hl.valid hs)
  · rw [hwait]
    exact h.zombie (by_contra fun hh => hstate hh hs) hb
  · rw [hl.fence]
    exact h.fence
  · rw [hl.fence]
    exact h.fence_lt
  · rw [hl.type] at ht
    rw [hremaining ht,hl.childrenList,hl.members]
    exact h.indv ht
  · rw [hl.type] at ht
    rcases hl.parentsList with hh | ⟨hh,_⟩
    · rw [hh]
      exact h.group ht
    · exact hh
  · rw [hl.members]
    exact h.members

/-- A row changes without moving among the fences, and keeps its callbacks. -/
theorem Inv.keepRow (h : Inv dev) (i : ℕ) (row : Row) (htable : dev'.table = Function.update dev.table i row)
    (hwait : ∀ j, j ≠ i → dev'.waiters j = dev.waiters j) (hb : SameBooks dev dev')
    (hk : Keeps (dev.table i) row) (hlist : row.callbackList = (dev.table i).callbackList)
    (hrow : RowOk i row (dev.bitmap i) (dev'.waiters i) dev.nextFence) : Inv dev' := by
  have hother : ∀ j, j ≠ i → dev'.table j = dev.table j := fun j hj => by simp [htable,hj]
  have hself : dev'.table i = row := by simp [htable]
  have hkeeps : ∀ j, Keeps (dev.table j) (dev'.table j) := by
    intro j
    by_cases hj : j = i
    · rw [hj,hself]
      exact hk
    · rw [hother j hj]
      exact Keeps.refl _
  refine ⟨fun j => ?_,h.links.congr (fun j => (hkeeps j).sameLinks)
    (by rw [hb.bitmap]; exact fun _ hh => hh),
    fun j hj => ?_,by rw [hb.nextFence,hb.outcome]; exact h.fresh,?_,
    by rw [hb.bitmap]; exact h.reserved⟩
  · rw [hb.bitmap,hb.nextFence]
    by_cases hj : j = i
    · rw [hj,hself]
      exact hrow
    · rw [hother j hj,hwait j hj]
      exact h.rows j
  · have hs : (dev.table j).state ≠ .invalid := by
      rw [← ((hkeeps j).valid hj).1]
      exact hj
    rw [hb.outcome]
    exact (h.status j hs).keeps (hkeeps j) hj
  · refine h.delivery.congr hb.registered hb.dispatched hb.deregistered hb.nextUid
      (le_of_eq hb.nextFence.symm) (fun j => ?_) (fun j => Or.inl (hkeeps j).fence)
      (fun _ _ => by rw [hb.outcome])
    rw [htable]
    exact update_keeps Row.callbackList hlist j

/-- Only what the application sees changes. -/
theorem Inv.sameTable (h : Inv dev) (htable : dev'.table = dev.table)
    (hwait : dev'.waiters = dev.waiters) (hb : SameBooks dev dev') : Inv dev' :=
  h.keepRow 0 (dev.table 0) (by rw [htable,Function.update_eq_self])
    (fun _ _ => by rw [hwait]) hb (Keeps.refl _) rfl (by rw [hwait]; exact h.rows 0)

end Rows

section Deinit

variable {dev : SyncDev}

/-- A list after entries `idx` have been taken out of it, but no others. -/
structure Cleaned (idx : ℕ) (l l' : List ℕ) : Prop where
  sublist : l'.Sublist l
  others : ∀ p, p ≠ idx → p ∈ l → p ∈ l'

theorem Cleaned.refl (idx : ℕ) (l : List ℕ) : Cleaned idx l l := ⟨List.Sublist.refl l,fun _ _ hm => hm⟩

theorem Cleaned.trans {idx : ℕ} {l l' l'' : List ℕ} (h : Cleaned idx l l')
    (h' : Cleaned idx l' l'') : Cleaned idx l l'' :=
  ⟨h'.sublist.trans h.sublist,fun p hp hm => h'.others p hp (h.others p hp hm)⟩

theorem cleaned_erase (idx : ℕ) (l : List ℕ) : Cleaned idx l (l.erase idx) :=
  ⟨List.erase_sublist,fun _ hp hm => (List.mem_erase_of_ne hp).mpr hm⟩

theorem RowOk.cleaned {i idx : ℕ} {row : Row} {bit : Bool} {waiters nextFence : ℕ}
    (h : RowOk i row bit waiters nextFence) {ps cs : List ℕ} (hps : Cleaned idx row.parentsList ps)
    (hcs : Cleaned idx row.childrenList cs) :
    RowOk i { row with parentsList := ps, childrenList := cs } bit waiters nextFence := by
  refine ⟨h.alloc,h.free,h.refs,h.zombie,h.fence,h.fence_lt,fun ht => ?_,fun ht => ?_,h.members,h.awake⟩
  · obtain ⟨hr,hc,hm⟩ := h.indv ht
    refine ⟨hr,?_,hm⟩
    have hsub := hcs.sublist
    rw [hc] at hsub
    exact List.sublist_nil.mp hsub
  · have hsub := hps.sublist
    rw [h.group ht] at hsub
    exact List.sublist_nil.mp hsub

theorem StatusOk.relinked {outcome : ℕ → Option FenceState} {row : Row} (h : StatusOk outcome row)
    (ps cs : List ℕ) : StatusOk outcome { row with parentsList := ps, childrenList := cs } := by
  refine ⟨h.indv,fun ht => ?_,h.signaled⟩
  obtain ⟨hn,hb,hr,hs,hf,hc,hp⟩ := h.group ht
  exact ⟨hn,hb,hr,hs,hf,hc,hp⟩

/-- The child loop of `cam_sync_deinit_object`. -/
theorem foldl_cleanupParents (idx : ℕ) (cs : List ℕ) (dev : SyncDev) :
    ∃ t, cs.foldl (fun d c => if (d.table c).state = .invalid then d
        else d.setRow c (cleanupParentsList (d.table c) idx)) dev = { dev with table := t } ∧
      ∀ j, ∃ l, t j = { dev.table j with parentsList := l } ∧
        Cleaned idx (dev.table j).parentsList l ∧
          (j ∈ cs → (dev.table j).state ≠ .invalid → (dev.table j).parentsList.Nodup → idx ∉ l) := by
  induction cs generalizing dev with
  | nil =>
    exact ⟨dev.table,rfl,fun j => ⟨(dev.table j).parentsList,rfl,.refl _ _,fun hj => by cases hj⟩⟩
  | cons c cs ih =>
    rw [List.foldl_cons]
    by_cases hc : (dev.table c).state = .invalid
    · rw [if_pos hc]
      obtain ⟨t,ht,hrows⟩ := ih dev
      refine ⟨t,ht,fun j => ?_⟩
      obtain ⟨l,hl,hcl,hno⟩ := hrows j
      refine ⟨l,hl,hcl,fun hj hs => ?_⟩
      rcases List.mem_cons.mp hj with rfl | hj
      · exact absurd hc hs
      · exact hno hj hs
    · rw [if_neg hc]
      obtain ⟨t,ht,hrows⟩ := ih (dev.setRow c (cleanupParentsList (dev.table c) idx))
      refine ⟨t,ht,fun j => ?_⟩
      obtain ⟨l,hl,hcl,hno⟩ := hrows j
      by_cases hj : j = c
      · subst hj
        simp only [setRow_table,Function.update_self,cleanupParentsList] at hl hcl hno
        refine ⟨l,hl,(cleaned_erase idx _).trans hcl,fun _ _ hnd hmem => ?_⟩
        have hin := hcl.sublist.subset hmem
        rw [hnd.erase_eq_filter,List.mem_filter] at hin
        simp at hin
      · simp only [setRow_table,Function.update_of_ne hj] at hl hcl hno
        exact ⟨l,hl,hcl,fun hmem => hno ((List.mem_cons.mp hmem).resolve_left hj)⟩

/-- The parent loop of `cam_sync_deinit_object`. -/
theorem foldl_cleanupChildren (idx : ℕ) (ps : List ℕ) (dev : SyncDev) :
    ∃ t, ps.foldl (fun d p => if (d.table p).state = .invalid then d
        else d.setRow p (cleanupChildrenList (d.table p) idx)) dev = { dev with table := t } ∧
      ∀ j, ∃ l, t j = { dev.table j with childrenList := l } ∧
        Cleaned idx (dev.table j).childrenList l := by
  induction ps generalizing dev with
  | nil => exact ⟨dev.table,rfl,fun j => ⟨(dev.table j).childrenList,rfl,.refl _ _⟩⟩
  | cons p ps ih =>
    rw [List.foldl_cons]
    split
    · exact ih dev
    · obtain ⟨t,ht,hrows⟩ := ih (dev.setRow p (cleanupChildrenList (dev.table p) idx))
      refine ⟨t,ht,fun j => ?_⟩
      obtain ⟨l,hl,hcl⟩ := hrows j
      by_cases hj : j = p
      · subst hj
        simp only [setRow_table,Function.update_self,cleanupChildrenList] at hl hcl
        exact ⟨l,hl,(cleaned_erase idx _).trans hcl⟩
      · simp only [setRow_table,Function.update_of_ne hj] at hl hcl
        exact ⟨l,hl,hcl⟩

/-- What `cam_sync_deinit_object` does: the row is freed, its callbacks and payloads are
told `CANCEL`, and the other rows' lists no longer name it. -/
structure Deinited (dev dev' : SyncDev) (idx : ℕ) : Prop where
  self : dev'.table idx = zeroRow
  others : ∀ j, j ≠ idx → ∃ ps cs,
    dev'.table j = { dev.table j with parentsList := ps, childrenList := cs } ∧
      Cleaned idx (dev.table j).parentsList ps ∧ Cleaned idx (dev.table j).childrenList cs ∧
      (j ∈ (dev.table idx).childrenList → (dev.table j).state ≠ .invalid →
        (dev.table j).parentsList.Nodup → idx ∉ ps)
  bitmap : dev'.bitmap = Function.update dev.bitmap idx false
  waiters : dev'.waiters = dev.waiters
  nextFence : dev'.nextFence = dev.nextFence
  nextUid : dev'.nextUid = dev.nextUid
  outcome : dev'.outcome = dev.outcome
  registered : dev'.registered = dev.registered
  deregistered : dev'.deregistered = dev.deregistered
  dispatched : dev'.dispatched = dev.dispatched ++
    (dev.table idx).callbackList.map (⟨·,.signaledCancel⟩)
  events : dev'.events = dev.events ++
    (dev.table idx).userPayloadList.map (⟨idx,.signaledCancel,·,(dev.table idx).fence⟩)
  wakeups : dev'.wakeups = dev.wakeups

theorem deinited (dev : SyncDev) (idx : ℕ) : Deinited dev (camSyncDeinitObject dev idx) idx := by
  obtain ⟨t,ht,hparents⟩ := foldl_cleanupParents idx (dev.table idx).childrenList
    (dev.setRow idx { dev.table idx with childrenList := [], parentsList := [] })
  obtain ⟨t',ht',hchildren⟩ := foldl_cleanupChildren idx (dev.table idx).parentsList
    { dev.setRow idx { dev.table idx with childrenList := [], parentsList := [] } with table := t }
  have hrow : (t' idx).callbackList = (dev.table idx).callbackList ∧
      (t' idx).userPayloadList = (dev.table idx).userPayloadList ∧
        (t' idx).fence = (dev.table idx).fence := by
    obtain ⟨l,hl,_⟩ := hparents idx
    obtain ⟨l',hl',_⟩ := hchildren idx
    rw [hl']
    dsimp only
    rw [hl]
    simp
  have hdeinit : camSyncDeinitObject dev idx =
      { dev with
        table := Function.update t' idx zeroRow
        bitmap := Function.update dev.bitmap idx false
        events := dev.events ++ (t' idx).userPayloadList.map
          (⟨idx,.signaledCancel,·,(t' idx).fence⟩)
        dispatched := dev.dispatched ++ (t' idx).callbackList.map (⟨·,.signaledCancel⟩) } := by
    unfold camSyncDeinitObject
    dsimp only
    rw [ht,ht']
    rfl
  rw [hdeinit,hrow.1,hrow.2.1,hrow.2.2]
  refine ⟨by simp,fun j hj => ?_,rfl,rfl,rfl,rfl,rfl,rfl,rfl,rfl,rfl,rfl⟩
  obtain ⟨l,hl,hcl,hno⟩ := hparents j
  obtain ⟨l',hl',hcl'⟩ := hchildren j
  simp only [setRow_table,Function.update_of_ne hj] at hl hcl hno
  dsimp only at hl' hcl'
  rw [hl] at hl' hcl'
  exact ⟨l,l',by simp [hj,hl'],hcl,hcl',hno⟩

/-- A row nobody waits for is deinitialised once it is invalid. -/
theorem deinit_inv (h : Inv dev) {idx : ℕ} (hs : (dev.table idx).state = .invalid)
    (hbit : dev.bitmap idx = true) (h0 : idx ≠ 0) (hwait : dev.waiters idx = 0) :
    Inv (camSyncDeinitObject dev idx) := by
  have hd := deinited dev idx
  have hf0 := (h.rows idx).fence hbit h0
  have hbit' : ∀ j, j ≠ idx → (camSyncDeinitObject dev idx).bitmap j = dev.bitmap j :=
    fun j hj => by rw [hd.bitmap,Function.update_of_ne hj]
  have hself : ∀ j, ((camSyncDeinitObject dev idx).table j).state ≠ .invalid → j ≠ idx := by
    rintro j hj rfl
    rw [hd.self] at hj
    exact hj rfl
  have hsame : ∀ j, j ≠ idx →
      ((camSyncDeinitObject dev idx).table j).state = (dev.table j).state ∧
      ((camSyncDeinitObject dev idx).table j).type = (dev.table j).type ∧
      ((camSyncDeinitObject dev idx).table j).fence = (dev.table j).fence ∧
      ((camSyncDeinitObject dev idx).table j).members = (dev.table j).members ∧
      ((camSyncDeinitObject dev idx).table j).callbackList = (dev.table j).callbackList := by
    intro j hj
    obtain ⟨ps,cs,hrow,_⟩ := hd.others j hj
    rw [hrow]
    exact ⟨rfl,rfl,rfl,rfl,rfl⟩
  have hmember : ∀ g c, ((camSyncDeinitObject dev idx).table c).fence ∈
      ((camSyncDeinitObject dev idx).table g).members → g ≠ idx ∧ c ≠ idx := by
    intro g c hm
    have hg : g ≠ idx := by
      rintro rfl
      rw [hd.self] at hm
      cases hm
    refine ⟨hg,?_⟩
    rintro rfl
    rw [hd.self,(hsame g hg).2.2.2.1] at hm
    exact ((h.rows g).members _ hm).1 rfl
  refine ⟨fun j => ?_,⟨fun i j heq hne => ?_,fun c p hc hp => ?_,fun c hc => ?_,
    fun g c hg hc hm => ?_,fun g c hg hm => ?_⟩,fun j hj => ?_,
    by rw [hd.nextFence,hd.outcome]; exact h.fresh,?_,?_⟩
  · rw [hd.waiters,hd.nextFence]
    by_cases hj : j = idx
    · subst hj
      have hpos := (h.rows j).fence_lt
      rw [hd.self,hd.bitmap,Function.update_self,hwait]
      refine ⟨fun hh => absurd rfl hh,fun _ => ⟨rfl,rfl⟩,fun hh => absurd rfl hh,fun _ _ => rfl,
        (fun hh => by cases hh),?_,fun _ => ⟨rfl,rfl,rfl⟩,fun _ => rfl,(fun m hm => by cases hm),
        fun _ => rfl⟩
      simp only [zeroRow]
      omega
    · obtain ⟨ps,cs,hrow,hps,hcs,_⟩ := hd.others j hj
      rw [hrow,hbit' j hj]
      exact (h.rows j).cleaned hps hcs
  · have hi : i ≠ idx := by
      rintro rfl
      rw [hd.self] at hne
      exact hne rfl
    have hj : j ≠ idx := by
      rintro rfl
      rw [hd.self] at heq
      exact hne heq
    rw [(hsame i hi).2.2.1] at heq hne
    rw [(hsame j hj).2.2.1] at heq
    exact h.links.fences i j heq hne
  · have hci := hself c hc
    obtain ⟨ps,cs,hrow,hps,_,hno⟩ := hd.others c hci
    rw [(hsame c hci).1] at hc
    rw [hrow] at hp
    obtain ⟨hactive,ht,hb,hchild,hmem⟩ := h.links.parents c p hc (hps.sublist.subset hp)
    have hpi : p ≠ idx := by
      rintro rfl
      exact hno hchild hc (h.links.nodup c hc) hp
    obtain ⟨ps',cs',hrow',_,hcs',_⟩ := hd.others p hpi
    rw [(hsame c hci).1,(hsame p hpi).2.1,(hsame c hci).2.2.1,(hsame p hpi).2.2.2.1,hbit' p hpi,
      hrow']
    exact ⟨hactive,ht,hb,hcs'.others c hci hchild,hmem⟩
  · have hci := hself c hc
    obtain ⟨ps,cs,hrow,hps,_⟩ := hd.others c hci
    rw [(hsame c hci).1] at hc
    rw [hrow]
    exact (h.links.nodup c hc).sublist hps.sublist
  · obtain ⟨hgi,hci⟩ := hmember g c hm
    obtain ⟨ps,cs,hrow,hps,_⟩ := hd.others c hci
    rw [(hsame g hgi).1] at hg
    rw [(hsame c hci).1] at hc
    rw [(hsame c hci).2.2.1,(hsame g hgi).2.2.2.1] at hm
    rw [hrow]
    exact hps.others g hgi (h.links.carried g c hg hc hm)
  · obtain ⟨hgi,hci⟩ := hmember g c hm
    rw [(hsame g hgi).1] at hg
    rw [(hsame c hci).2.2.1,(hsame g hgi).2.2.2.1] at hm
    rw [(hsame c hci).2.1]
    exact h.links.indv g c hg hm
  · have hji := hself j hj
    obtain ⟨ps,cs,hrow,_⟩ := hd.others j hji
    rw [(hsame j hji).1] at hj
    rw [hd.outcome,hrow]
    exact (h.status j hj).relinked ps cs
  · refine h.delivery.flush idx .signaledCancel hd.registered hd.deregistered hd.nextUid
      hd.nextFence hd.dispatched (by rw [hd.self]; rfl) (fun j hj => (hsame j hj).2.2.2.2)
      (fun j hj => (hsame j hj).2.2.1) hf0 (fun j hj => h.links.fences j idx hj (hj ▸ hf0))
      (fun f _ => by rw [hd.outcome]) (Or.inr ⟨by rw [hd.self]; rfl,by rw [hd.outcome],rfl⟩)
  · rw [hbit' 0 (Ne.symm h0)]
    exact h.reserved

end Deinit

section Preservation

variable {dev : SyncDev}

/-- Reference counts and payloads do not matter. -/
theorem Inv.asideRow (h : Inv dev) (i : ℕ) (refCnt : ℤ) (payloads : List Payload) :
    Inv (dev.setRow i { dev.table i with refCnt := refCnt, userPayloadList := payloads }) := by
  have hk : Keeps (dev.table i)
      { dev.table i with refCnt := refCnt, userPayloadList := payloads } :=
    ⟨rfl,rfl,rfl,rfl,rfl,rfl,Or.inr ⟨rfl,rfl⟩⟩
  exact h.keepRow i _ rfl (fun _ _ => rfl) ⟨rfl,rfl,rfl,rfl,rfl,rfl,rfl⟩ hk rfl
    ((h.rows i).update hk.sameLinks id (Or.inl rfl) (fun _ => rfl) rfl)

theorem getObjRef_inv (h : Inv dev) (obj : ℕ) : Inv (camSyncGetObjRef dev obj).1 := by
  unfold camSyncGetObjRef
  split
  · exact h
  · split
    · exact h
    · exact h.asideRow obj _ (dev.table obj).userPayloadList

theorem putObjRef_inv (h : Inv dev) (obj : ℕ) : Inv (camSyncPutObjRef dev obj).1 := by
  unfold camSyncPutObjRef
  split
  · exact h
  · exact h.asideRow obj _ (dev.table obj).userPayloadList

theorem registerPayload_inv (h : Inv dev) (obj : ℕ) (p : Payload) (alloc : Bool) :
    Inv (camSyncHandleRegisterUserPayload dev obj p alloc).1 := by
  unfold camSyncHandleRegisterUserPayload
  split
  · exact h
  · split
    · exact h
    · dsimp only
      split
      · exact h
      · split
        · exact h.sameTable rfl rfl ⟨rfl,rfl,rfl,rfl,rfl,rfl,rfl⟩
        · split
          · exact h
          · exact h.asideRow obj (dev.table obj).refCnt _

theorem deregisterPayload_inv (h : Inv dev) (obj : ℕ) (p : Payload) :
    Inv (camSyncHandleDeregisterUserPayload dev obj p).1 := by
  unfold camSyncHandleDeregisterUserPayload
  split
  · exact h
  · dsimp only
    split
    · exact h
    · exact h.asideRow obj (dev.table obj).refCnt _

/-- A reference for a thread that is about to sleep. -/
theorem waitBegin_inv (h : Inv dev) (obj : ℕ) : Inv (camSyncWaitBegin dev obj).1 := by
  unfold camSyncWaitBegin
  split
  · exact h
  · dsimp only
    split
    · exact h
    · next hrange hvalid =>
      have hr := h.rows obj
      have hs : (dev.table obj).state ≠ .invalid := fun hh => hvalid (Or.inl hh)
      refine h.keepRow obj { dev.table obj with
        waitRefCnt := (dev.table obj).waitRefCnt+1 } rfl (fun j hj => by simp [hj])
        ⟨rfl,rfl,rfl,rfl,rfl,rfl,rfl⟩ ⟨rfl,rfl,rfl,rfl,rfl,rfl,Or.inr ⟨rfl,rfl⟩⟩ rfl
        ⟨hr.alloc,fun hb => ?_,fun _ => ?_,fun hh => absurd hh hs,hr.fence,hr.fence_lt,hr.indv,
          hr.group,hr.members,fun hh => absurd hh (hr.alloc hs).2.1⟩
      · rw [(hr.alloc hs).1] at hb
        cases hb
      · simp only [Function.update_self]
        rw [hr.refs hs]

/-- The reference of the row itself, or of a sleeping thread, is dropped: the row may have
become invalid, and the thread no longer counts. -/
theorem putWaitRef_inv (h : Inv dev) {obj : ℕ} (h0 : obj ≠ 0) (hbit : dev.bitmap obj = true)
    {dev' : SyncDev} {row : Row} (htable : dev'.table = Function.update dev.table obj row)
    (hwait : ∀ j, j ≠ obj → dev'.waiters j = dev.waiters j) (hb : SameBooks dev dev')
    (hk : Keeps (dev.table obj) row) (hlist : row.callbackList = (dev.table obj).callbackList)
    (hvalid : row.state ≠ .invalid → row.waitRefCnt = dev'.waiters obj+2)
    (hinvalid : row.state = .invalid → row.waitRefCnt = dev'.waiters obj+1) :
    Inv (camSyncPutWaitRef dev' obj) := by
  have hr := h.rows obj
  have hself : dev'.table obj = row := by simp [htable]
  have hinv : Inv (dev'.setRow obj { row with waitRefCnt := row.waitRefCnt-1 }) := by
    refine h.keepRow obj { row with waitRefCnt := row.waitRefCnt-1 }
      (by simp [htable]) hwait ⟨hb.bitmap,hb.nextFence,hb.nextUid,hb.outcome,hb.registered,
        hb.dispatched,hb.deregistered⟩ ⟨hk.type,hk.parentsList,hk.childrenList,hk.remaining,
          hk.fence,hk.members,hk.state⟩ hlist ⟨fun hs => ?_,fun hh => ?_,fun hs => ?_,
            fun hs _ => ?_,?_,?_,?_,?_,?_,fun hh => absurd hh h0⟩
    · exact hr.alloc (by rw [← (hk.valid hs).1]; exact hs)
    · rw [hbit] at hh
      cases hh
    · have hv := hvalid hs
      simp only [setRow_waiters]
      omega
    · have hz := hinvalid hs
      simp only [setRow_waiters]
      omega
    · rw [hk.fence]
      exact hr.fence
    · rw [hk.fence]
      exact hr.fence_lt
    · rw [hk.type,hk.remaining,hk.childrenList,hk.members]
      exact hr.indv
    · rw [hk.type,hk.parentsList]
      exact hr.group
    · rw [hk.members]
      exact hr.members
  unfold camSyncPutWaitRef
  rw [hself]
  dsimp only
  split
  · next hone =>
    have hs : row.state = .invalid := by
      by_contra hs
      have := hvalid hs
      omega
    have hz := hinvalid hs
    refine deinit_inv hinv (by simpa using hs) ?_ h0 ?_
    · rw [setRow_bitmap,hb.bitmap]
      exact hbit
    · rw [setRow_waiters]
      omega
  · exact hinv

theorem destroy_inv (h : Inv dev) (obj : ℕ) : Inv (camSyncDestroy dev obj).1 := by
  unfold camSyncDestroy
  split
  · exact h
  · next hrange =>
    dsimp only
    split
    · exact h
    · next hs =>
      have hr := h.rows obj
      obtain ⟨hbit,h0,_⟩ := hr.alloc hs
      have hrefs := hr.refs hs
      exact putWaitRef_inv h h0 hbit rfl (fun _ _ => rfl) ⟨rfl,rfl,rfl,rfl,rfl,rfl,rfl⟩
        ⟨rfl,rfl,rfl,rfl,rfl,rfl,Or.inl rfl⟩ rfl (fun hh => absurd rfl hh) fun _ => hrefs

theorem waitEnd_inv (h : Inv dev) (obj : ℕ) (timedOut : Bool) :
    Inv (camSyncWaitEnd dev obj timedOut) := by
  unfold camSyncWaitEnd
  dsimp only
  split
  · exact h
  · next hwait =>
    have hr := h.rows obj
    have hpos : dev.waiters obj ≠ 0 := fun hh => hwait (Or.inl hh)
    have hbit : dev.bitmap obj = true := by
      by_contra hb
      exact hpos (hr.free (by simpa using hb)).1
    have h0 : obj ≠ 0 := fun hh => hpos (hr.awake hh)
    have htable : dev.table = Function.update dev.table obj (dev.table obj) := by simp
    refine putWaitRef_inv h h0 hbit htable
      (fun j hj => by simp [hj]) ⟨rfl,rfl,rfl,rfl,rfl,rfl,rfl⟩ (Keeps.refl _) rfl (fun hs => ?_)
        fun hs => ?_
    · rw [hr.refs hs]
      simp only [Function.update_self]
      omega
    · rw [hr.zombie hs hbit]
      simp only [Function.update_self]
      omega

/-- A signaled row with nothing remaining has its state as outcome. -/
theorem StatusOk.outcome_eq {outcome : ℕ → Option FenceState} {row : Row}
    (h : StatusOk outcome row) (hs : row.state.IsSignaled) (hr : row.remaining = 0) :
    outcome row.fence = some row.state := by
  cases ht : row.type with
  | indv =>
    rcases h.indv ht with ⟨ha,_⟩ | ⟨_,ho⟩
    · rw [ha] at hs
      exact absurd hs (by decide)
    · exact ho
  | group => exact ((h.group ht).complete hr).2

/-- A valid row that is not complete has no outcome yet. -/
theorem StatusOk.outcome_none {outcome : ℕ → Option FenceState} {row : Row}
    (h : StatusOk outcome row) (hindv : row.type = .indv → row.remaining = 0)
    (hs : ¬ (row.state.IsSignaled ∧ row.remaining = 0)) : outcome row.fence = none := by
  cases ht : row.type with
  | indv =>
    rcases h.indv ht with ⟨_,ho⟩ | ⟨hsig,_⟩
    · exact ho
    · exact absurd ⟨hsig,hindv ht⟩ hs
  | group =>
    by_cases hr : row.remaining = 0
    · exact absurd ⟨((h.group ht).complete hr).1,hr⟩ hs
    · exact (h.group ht).pending hr

/-- An active fence has no outcome yet. -/
theorem Inv.outcome_active {dev : SyncDev} (h : Inv dev) {obj : ℕ}
    (hactive : (dev.table obj).state = .active) : dev.outcome (dev.table obj).fence = none := by
  have hvalid : (dev.table obj).state ≠ .invalid := by
    rw [hactive]
    decide
  refine (h.status obj hvalid).outcome_none (fun ht => ((h.rows obj).indv ht).1) fun hsig => ?_
  exact hsig.1.ne_active hactive

/-- A new node is none of those that are known. -/
theorem Delivery.fresh (h : Delivery dev) {cb : Callback} (huid : cb.uid = dev.nextUid) :
    cb ∉ dev.registered ∧ cb ∉ dev.deregistered ∧ cb ∉ dev.dispatched.map Dispatch.cb := by
  have hreg : cb ∉ dev.registered := by
    intro hmem
    have hlt := (h.bound cb hmem).1
    omega
  refine ⟨hreg,fun hmem => hreg (h.deregistered cb hmem),fun hmem => ?_⟩
  obtain ⟨d,hd,rfl⟩ := List.mem_map.mp hmem
  exact hreg (h.dispatched d hd).1

/-- What an accepted registration adds to the history. -/
theorem Delivery.registered_append (h : Delivery dev) {cb : Callback}
    (huid : cb.uid = dev.nextUid) (hlt : cb.fence < dev.nextFence) (h0 : cb.fence ≠ 0) :
    ((dev.registered ++ [cb]).map Callback.uid).Nodup ∧
      ∀ x ∈ dev.registered ++ [cb], x.uid < dev.nextUid+1 ∧ x.fence < dev.nextFence ∧
        x.fence ≠ 0 := by
  constructor
  · rw [List.map_append]
    refine List.nodup_append.mpr ⟨h.uids,List.nodup_singleton _,fun a ha b hb hab => ?_⟩
    obtain ⟨x,hx,rfl⟩ := List.mem_map.mp ha
    have hxl := (h.bound x hx).1
    simp only [List.map_cons,List.map_nil,List.mem_singleton] at hb
    omega
  · intro x hx
    rcases List.mem_append.mp hx with hx | hx
    · obtain ⟨hu,hf,hz⟩ := h.bound x hx
      exact ⟨by omega,hf,hz⟩
    · rw [List.mem_singleton] at hx
      subst hx
      exact ⟨by omega,hlt,h0⟩

/-- A callback registered on a row without outcome is listed there. -/
theorem Delivery.enlist (h : Delivery dev) {obj : ℕ} {cb : Callback}
    (huid : cb.uid = dev.nextUid) (hobj : cb.syncObj = obj)
    (hfence : cb.fence = (dev.table obj).fence) (hlt : cb.fence < dev.nextFence)
    (h0 : cb.fence ≠ 0) (hout : dev.outcome cb.fence = none) :
    Delivery ({ dev with nextUid := dev.nextUid+1, registered := dev.registered ++ [cb] }.setRow
      obj { dev.table obj with callbackList := (dev.table obj).callbackList ++ [cb] }) := by
  obtain ⟨hreg,hder,hdis⟩ := h.fresh huid
  obtain ⟨huids,hbound⟩ := h.registered_append huid hlt h0
  have hlist : ∀ i, cb ∉ (dev.table i).callbackList := fun i hmem =>
    hreg (h.listed i cb hmem).2.2.1
  refine ⟨huids,hbound,fun i x hx => ?_,fun i => ?_,h.nodup,fun d hd => ?_,fun x hx => ?_,
    fun x hx => ?_⟩
  · by_cases hi : i = obj
    · subst hi
      simp only [setRow_table,Function.update_self,List.mem_append,List.mem_singleton] at hx ⊢
      rcases hx with hx | rfl
      · obtain ⟨ho,hf,hr,hd,hp,hn⟩ := h.listed i x hx
        exact ⟨ho,hf,List.mem_append.mpr (Or.inl hr),hd,hp,hn⟩
      · exact ⟨hobj,hfence,List.mem_append.mpr (Or.inr (List.mem_singleton_self x)),hder,hdis,hout⟩
    · simp only [setRow_table,Function.update_of_ne hi] at hx ⊢
      obtain ⟨ho,hf,hr,hd,hp,hn⟩ := h.listed i x hx
      exact ⟨ho,hf,List.mem_append.mpr (Or.inl hr),hd,hp,hn⟩
  · by_cases hi : i = obj
    · subst hi
      simp only [setRow_table,Function.update_self]
      refine List.nodup_append.mpr ⟨h.nodup_listed i,List.nodup_singleton _,fun a ha b hb hab => ?_⟩
      rw [List.mem_singleton] at hb
      exact hlist i (hb ▸ hab ▸ ha)
    · simp only [setRow_table,Function.update_of_ne hi]
      exact h.nodup_listed i
  · obtain ⟨hr,hd',hf⟩ := h.dispatched d hd
    refine ⟨List.mem_append.mpr (Or.inl hr),hd',hf.imp id fun hh => ⟨hh.1,hh.2.1,fun j => ?_⟩⟩
    rw [setRow_table,update_keeps Row.fence (by rfl) j]
    exact hh.2.2 j
  · exact List.mem_append.mpr (Or.inl (h.deregistered x hx))
  · rcases List.mem_append.mp hx with hx | hx
    · rcases h.kept x hx with hk | hk
      · left
        by_cases hi : x.syncObj = obj
        · rw [hi] at hk ⊢
          simp [hk]
        · simpa [hi] using hk
      · exact Or.inr hk
    · rw [List.mem_singleton] at hx
      subst hx
      left
      simp [hobj]

/-- A callback registered on a complete row is dispatched at once. -/
theorem Delivery.dispatch (h : Delivery dev) {cb : Callback} {status : FenceState}
    (huid : cb.uid = dev.nextUid) (hlt : cb.fence < dev.nextFence) (h0 : cb.fence ≠ 0)
    (hout : dev.outcome cb.fence = some status) :
    Delivery (queueCb { dev with
      nextUid := dev.nextUid+1, registered := dev.registered ++ [cb] } cb status) := by
  obtain ⟨hreg,hder,hdis⟩ := h.fresh huid
  obtain ⟨huids,hbound⟩ := h.registered_append huid hlt h0
  have hmap : (dev.dispatched ++ [(⟨cb,status⟩ : Dispatch)]).map Dispatch.cb =
      dev.dispatched.map Dispatch.cb ++ [cb] := by simp
  refine ⟨huids,hbound,fun i x hx => ?_,h.nodup_listed,?_,fun d hd => ?_,fun x hx => ?_,
    fun x hx => ?_⟩
  · obtain ⟨ho,hf,hr,hd,hp,hn⟩ := h.listed i x hx
    refine ⟨ho,hf,List.mem_append.mpr (Or.inl hr),hd,?_,hn⟩
    simp only [queueCb,hmap,List.mem_append,List.mem_singleton,not_or]
    exact ⟨hp,fun hh => hreg (hh ▸ hr)⟩
  · simp only [queueCb,hmap]
    refine List.nodup_append.mpr ⟨h.nodup,List.nodup_singleton _,fun a ha b hb hab => ?_⟩
    rw [List.mem_singleton] at hb
    exact hdis (hb ▸ hab ▸ ha)
  · rcases List.mem_append.mp hd with hd | hd
    · obtain ⟨hr,hd',hf⟩ := h.dispatched d hd
      exact ⟨List.mem_append.mpr (Or.inl hr),hd',hf⟩
    · rw [List.mem_singleton] at hd
      subst hd
      exact ⟨List.mem_append.mpr (Or.inr (List.mem_singleton_self cb)),hder,Or.inl hout⟩
  · exact List.mem_append.mpr (Or.inl (h.deregistered x hx))
  · simp only [queueCb,hmap]
    rcases List.mem_append.mp hx with hx | hx
    · rcases h.kept x hx with hk | hk | hk
      · exact Or.inl hk
      · exact Or.inr (Or.inl (List.mem_append.mpr (Or.inl hk)))
      · exact Or.inr (Or.inr hk)
    · exact Or.inr (Or.inl (List.mem_append.mpr (Or.inr hx)))

/-- The nodes with the given function and data are taken off the row and freed. -/
theorem Delivery.delist (h : Delivery dev) (obj : ℕ) (hit : Callback → Bool) :
    Delivery { dev.setRow obj { dev.table obj with
        callbackList := (dev.table obj).callbackList.filter (! hit ·) } with
      deregistered := dev.deregistered ++ (dev.table obj).callbackList.filter hit } := by
  refine ⟨h.uids,h.bound,fun i x hx => ?_,fun i => ?_,h.nodup,fun d hd => ?_,fun x hx => ?_,
    fun x hx => ?_⟩
  · by_cases hi : i = obj
    · subst hi
      simp only [setRow_table,Function.update_self,List.mem_filter] at hx ⊢
      obtain ⟨ho,hf,hr,hd,hp,hn⟩ := h.listed i x hx.1
      refine ⟨ho,hf,hr,fun hmem => ?_,hp,hn⟩
      rcases List.mem_append.mp hmem with hmem | hmem
      · exact hd hmem
      · have hyes := (List.mem_filter.mp hmem).2
        simp [hyes] at hx
    · simp only [setRow_table,Function.update_of_ne hi] at hx ⊢
      obtain ⟨ho,hf,hr,hd,hp,hn⟩ := h.listed i x hx
      refine ⟨ho,hf,hr,fun hmem => ?_,hp,hn⟩
      rcases List.mem_append.mp hmem with hmem | hmem
      · exact hd hmem
      · exact hi (ho.symm.trans (h.listed obj x (List.mem_filter.mp hmem).1).1)
  · by_cases hi : i = obj
    · subst hi
      simp only [setRow_table,Function.update_self]
      exact (h.nodup_listed i).filter _
    · simp only [setRow_table,Function.update_of_ne hi]
      exact h.nodup_listed i
  · obtain ⟨hr,hd',hf⟩ := h.dispatched d hd
    refine ⟨hr,fun hmem => ?_,hf.imp id fun hh => ⟨hh.1,hh.2.1,fun j => ?_⟩⟩
    · rcases List.mem_append.mp hmem with hmem | hmem
      · exact hd' hmem
      · exact (h.listed obj _ (List.mem_filter.mp hmem).1).2.2.2.2.1 (List.mem_map_of_mem hd)
    · rw [setRow_table,update_keeps Row.fence (by rfl) j]
      exact hh.2.2 j
  · rcases List.mem_append.mp hx with hx | hx
    · exact h.deregistered x hx
    · exact (h.listed obj x (List.mem_filter.mp hx).1).2.2.1
  · rcases h.kept x hx with hk | hk | hk
    · by_cases hi : x.syncObj = obj
      · rw [hi] at hk
        by_cases hyes : hit x = true
        · exact Or.inr (Or.inr (List.mem_append.mpr (Or.inr (List.mem_filter.mpr ⟨hk,hyes⟩))))
        · left
          simp [hi,hk,hyes]
      · left
        simpa [hi] using hk
    · exact Or.inr (Or.inl hk)
    · exact Or.inr (Or.inr (List.mem_append.mpr (Or.inl hk)))

/-- The callbacks of a valid row change, and the deliveries stay in order. -/
theorem Inv.relist (h : Inv dev) {obj : ℕ} (hs : (dev.table obj).state ≠ .invalid)
    (cbs : List Callback) {dev' : SyncDev}
    (htable : dev'.table = Function.update dev.table obj { dev.table obj with callbackList := cbs })
    (hbit : dev'.bitmap = dev.bitmap) (hwait : dev'.waiters = dev.waiters)
    (hnext : dev'.nextFence = dev.nextFence) (hout : dev'.outcome = dev.outcome)
    (hdel : Delivery dev') : Inv dev' := by
  have hr := h.rows obj
  have hk : ∀ i, Keeps (dev.table i) (dev'.table i) := by
    intro i
    rw [htable]
    by_cases hi : i = obj
    · subst hi
      simp only [Function.update_self]
      exact ⟨rfl,rfl,rfl,rfl,rfl,rfl,Or.inr ⟨rfl,rfl⟩⟩
    · simp only [Function.update_of_ne hi]
      exact Keeps.refl _
  refine ⟨fun i => ?_,h.links.congr (fun i => (hk i).sameLinks)
    (by rw [hbit]; exact fun _ hb => hb),fun i hi => ?_,
    by rw [hnext,hout]; exact h.fresh,hdel,by rw [hbit]; exact h.reserved⟩
  · rw [htable,hbit,hwait,hnext]
    by_cases hi : i = obj
    · subst hi
      simp only [Function.update_self]
      refine ⟨hr.alloc,fun hb => ?_,hr.refs,hr.zombie,hr.fence,hr.fence_lt,hr.indv,hr.group,
        hr.members,hr.awake⟩
      rw [(hr.alloc hs).1] at hb
      cases hb
    · simp only [Function.update_of_ne hi]
      exact h.rows i
  · have hv : (dev.table i).state ≠ .invalid := by
      rw [← ((hk i).valid hi).1]
      exact hi
    rw [hout]
    exact (h.status i hv).keeps (hk i) hi

theorem registerCallback_inv (h : Inv dev) (func data obj : ℕ) (alloc : Bool) :
    Inv (camSyncRegisterCallback dev func data obj alloc).1 := by
  unfold camSyncRegisterCallback
  split
  · exact h
  · dsimp only
    split
    · exact h
    · next hs =>
      split
      · exact h
      · have hr := h.rows obj
        have hst := h.status obj hs
        have h0 := hr.fence (hr.alloc hs).1 (hr.alloc hs).2.1
        split
        · next hdone =>
          exact h.relist hs (dev.table obj).callbackList (by simp [queueCb]) rfl rfl rfl rfl
            (h.delivery.dispatch rfl hr.fence_lt h0 (hst.outcome_eq hdone.1 hdone.2))
        · next hdone =>
          exact h.relist hs _ rfl rfl rfl rfl rfl
            (h.delivery.enlist rfl rfl rfl hr.fence_lt h0
              (hst.outcome_none (fun ht => (hr.indv ht).1) hdone))

theorem deregisterCallback_inv (h : Inv dev) (func data obj : ℕ) :
    Inv (camSyncDeregisterCallback dev func data obj).1 := by
  unfold camSyncDeregisterCallback
  split
  · exact h
  · dsimp only
    split
    · exact h
    · next hs =>
      have hdel := h.delivery.delist obj fun cb => decide (cb.func = func ∧ cb.data = data)
      simp only [← decide_not] at hdel
      exact h.relist hs _ rfl rfl rfl rfl rfl hdel

end Preservation

end CamSync
end MarbleModules
