import MarbleModules.CamSyncMerge

/-! Signaling a fence. The fence gets its outcome, the loop of `cam_sync_signal` tells the
groups it belongs to one after the other, and a group told by its last member gets an
outcome as well. Every step of the driver keeps the invariant. -/
namespace MarbleModules
namespace CamSync

section Telling

variable {dev dev' : SyncDev} {outcome : ℕ → Option FenceState} {row : Row} {m p obj : ℕ}
  {st st' : FenceState} {todo : List ℕ}

theorem updateParentState_cases {s : FenceState} (h : updateParentState s st = some st') :
    (s = .active ∨ s = .signaledSuccess) ∧ st' = st ∨
      (s = .signaledError ∨ s = .signaledCancel) ∧ st' = s := by
  cases s <;> simp only [updateParentState,Option.some.injEq,reduceCtorEq] at h <;> simp [← h]

theorem updateParentState_none {s : FenceState} (h : updateParentState s st = none) :
    s = .invalid := by
  cases s <;> simp only [updateParentState,reduceCtorEq] at h ⊢

theorem updateParentState_signaled {s : FenceState} (h : updateParentState s st = some st')
    (hst : st.IsSignaled) : st'.IsSignaled := by
  rcases updateParentState_cases h with ⟨_,rfl⟩ | ⟨hs,rfl⟩
  · exact hst
  · exact Or.inr hs

theorem dispatchSignaledCb_eq (hs : (dev.table obj).state ≠ .invalid) (status : FenceState) :
    dispatchSignaledCb dev obj status =
      { dev with
        table := Function.update dev.table obj
          { dev.table obj with
            callbackList := []
            userPayloadList :=
              if dev.camSyncEventq then [] else (dev.table obj).userPayloadList
            signaled := true }
        outcome := Function.update dev.outcome (dev.table obj).fence (some status)
        dispatched := dev.dispatched ++ (dev.table obj).callbackList.map (⟨·,status⟩)
        events := dev.events ++
          if dev.camSyncEventq then
            (dev.table obj).userPayloadList.map (⟨obj,status,·,(dev.table obj).fence⟩)
          else [] } := by
  rw [dispatchSignaledCb,if_neg hs]

/-- A member's status counts, and there is one member less to wait for. -/
theorem GroupOk.tell (h : GroupOk (Function.update outcome m none) row) (row' : Row)
    (hm : m ∈ row.members)
    (hself : row.fence ∉ row.members) (hout : outcome m = some st) (hst : st.IsSignaled)
    (hstate : updateParentState row.state st = some st') (hmembers : row'.members = row.members)
    (hfence : row'.fence = row.fence) (hremaining : row'.remaining = decRemaining row.remaining)
    (hst' : row'.state = st') :
    outcome row.fence = none ∧ GroupOk (if row'.remaining = 0
      then Function.update outcome row.fence (some st') else outcome) row' := by
  have hfm : row.fence ≠ m := fun hh => hself (hh ▸ hm)
  have hcount : row.remaining = (row.members.filter fun k => outcome k = none).length + 1 :=
    h.remaining.trans (unsignaled_update h.nodup hm (by rw [hout]; simp))
  have hdec : row'.remaining = (row.members.filter fun k => outcome k = none).length := by
    have hle := List.length_filter_le (fun k => decide (outcome k = none)) row.members
    have hbound := h.bound
    rw [hremaining,decRemaining,hcount]
    simp only [maxObjs] at hbound
    omega
  have hnone : outcome row.fence = none := by
    have hh := h.pending (by omega)
    rwa [Function.update_of_ne hfm] at hh
  have hsame : ∀ k ∈ row.members, (if row'.remaining = 0
      then Function.update outcome row.fence (some st') else outcome) k = outcome k := by
    intro k hk
    have hne : k ≠ row.fence := fun hh => hself (hh ▸ hk)
    split
    · rw [Function.update_of_ne hne]
    · rfl
  refine ⟨hnone,⟨hmembers ▸ h.nodup,hmembers ▸ h.bound,?_,fun hs k hk => ?_,fun hs => ?_,
    fun hz => ⟨?_,?_⟩,fun hz => ?_⟩⟩
  · refine hdec.trans ?_
    rw [hmembers]
    congr 1
    exact List.filter_congr fun k hk => by rw [hsame k hk]
  · rw [hmembers] at hk
    rw [hst'] at hs
    rw [hsame k hk]
    rcases updateParentState_cases hstate with ⟨hold,rfl⟩ | ⟨hold,rfl⟩
    · have hk' := h.success hold k hk
      by_cases hkm : k = m
      · subst hkm
        right
        rw [hout]
        rcases hs with rfl | rfl
        · exact absurd hst (by decide)
        · rfl
      · rwa [Function.update_of_ne hkm] at hk'
    · rcases hold with hold | hold <;> rw [hold] at hs <;> exact absurd hs (by decide)
  · rw [hst'] at hs ⊢
    rw [hmembers]
    rcases updateParentState_cases hstate with ⟨_,rfl⟩ | ⟨_,rfl⟩
    · exact ⟨m,hm,by rw [hsame m hm,hout]⟩
    · obtain ⟨k,hk,ho⟩ := h.failure hs
      have hkm : k ≠ m := by
        rintro rfl
        rw [Function.update_self] at ho
        cases ho
      rw [Function.update_of_ne hkm] at ho
      exact ⟨k,hk,by rw [hsame k hk,ho]⟩
  · rw [hst']
    exact updateParentState_signaled hstate hst
  · rw [if_pos hz,hfence,Function.update_self,hst']
  · rw [if_neg hz,hfence]
    exact hnone

/-- Inside the loop of `cam_sync_signal`: the fence `m` has been given `st`, and the groups in
`todo` do not know yet. -/
structure Owing (dev : SyncDev) (m : ℕ) (st : FenceState) (todo : List ℕ) : Prop where
  rows : ∀ i, RowOk i (dev.table i) (dev.bitmap i) (dev.waiters i) dev.nextFence
  links : Links dev
  status : ∀ i, (dev.table i).state ≠ .invalid →
    StatusOk (if i ∈ todo then Function.update dev.outcome m none else dev.outcome) (dev.table i)
  fresh : ∀ f, dev.nextFence ≤ f → dev.outcome f = none
  delivery : Delivery dev
  reserved : dev.bitmap 0 = true
  outcome : dev.outcome m = some st
  nodup : todo.Nodup
  groups : ∀ p ∈ todo, (dev.table p).type = .group ∧ m ∈ (dev.table p).members

theorem Owing.inv (h : Owing dev m st []) : Inv dev :=
  ⟨h.rows,h.links,fun i hi => by simpa using h.status i hi,h.fresh,h.delivery,h.reserved⟩

/-- The row of the next group changes, and with it the outcome of that group at most. -/
theorem Owing.tellRow (h : Owing dev m st (p::todo)) (row : Row)
    (htable : dev'.table = Function.update dev.table p row) (hbit : dev'.bitmap = dev.bitmap)
    (hwait : dev'.waiters = dev.waiters) (hnext : dev'.nextFence = dev.nextFence)
    (hout : ∀ f, ((dev.table p).state ≠ .invalid → f ≠ (dev.table p).fence) →
      dev'.outcome f = dev.outcome f)
    (hl : SameLinks (dev.table p) row) (hkeep : (dev.table p).state ≠ .invalid → row.state ≠ .invalid)
    (hlist : row.callbackList = (dev.table p).callbackList ∨ row.callbackList = [])
    (hrefs : row.waitRefCnt = (dev.table p).waitRefCnt) (hdel : Delivery dev')
    (hstatus : row.state ≠ .invalid → StatusOk dev'.outcome row) : Owing dev' m st todo := by
  obtain ⟨hp,hnodup⟩ := List.nodup_cons.mp h.nodup
  obtain ⟨htype,hmem⟩ := h.groups p List.mem_cons_self
  have hself : dev'.table p = row := by simp [htable]
  have hother : ∀ j, j ≠ p → dev'.table j = dev.table j := fun j hj => by simp [htable,hj]
  have hsame : ∀ j, SameLinks (dev.table j) (dev'.table j) := by
    intro j
    by_cases hj : j = p
    · rw [hj,hself]
      exact hl
    · rw [hother j hj]
      exact .refl _
  -- the fence of a group is nobody's member
  have hmember : ∀ g k, (dev.table g).state ≠ .invalid → k ∈ (dev.table g).members →
      k ≠ (dev.table p).fence := by
    rintro g k hg hk rfl
    have hindv := h.links.indv g p hg hk
    rw [htype] at hindv
    cases hindv
  refine ⟨fun j => ?_,h.links.congr hsame (by rw [hbit]; exact fun _ hb => hb),fun j hj => ?_,
    fun f hf => ?_,hdel,by rw [hbit]; exact h.reserved,?_,hnodup,fun q hq => ?_⟩
  · rw [hbit,hwait,hnext]
    by_cases hj : j = p
    · subst hj
      rw [hself]
      refine (h.rows j).update hl hkeep hlist (fun ht => ?_) hrefs
      rw [htype] at ht
      cases ht
    · rw [hother j hj]
      exact h.rows j
  · by_cases hjp : j = p
    · subst hjp
      rw [if_neg hp,hself]
      rw [hself] at hj
      exact hstatus hj
    · rw [hother j hjp] at hj ⊢
      have hr := h.rows j
      have hf0 := hr.fence (hr.alloc hj).1 (hr.alloc hj).2.1
      have hfence := hout (dev.table j).fence fun _ hh => hjp (h.links.fences j p hh hf0)
      have hmem' : ∀ k ∈ (dev.table j).members, dev'.outcome k = dev.outcome k :=
        fun k hk => hout k fun _ => hmember j k hj hk
      have hst := h.status j hj
      have hupd : ∀ k, dev'.outcome k = dev.outcome k →
          Function.update dev'.outcome m none k = Function.update dev.outcome m none k :=
        fun k hk => by simp only [Function.update_apply,hk]
      simp only [List.mem_cons,hjp,false_or] at hst
      split
      · next hin =>
        rw [if_pos hin] at hst
        exact hst.congr (hupd _ hfence) fun k hk => hupd k (hmem' k hk)
      · next hin =>
        rw [if_neg hin] at hst
        exact hst.congr hfence hmem'
  · rw [hnext] at hf
    rw [hout f fun _ => ?_]
    · exact h.fresh f hf
    · have hlt := (h.rows p).fence_lt
      omega
  · rw [hout m fun hs => hmember p m hs hmem]
    exact h.outcome
  · rw [(hsame q).type,(hsame q).members]
    exact h.groups q (List.mem_cons_of_mem p hq)

/-- A row that may have been told of a signal: only the state of a group can change. -/
structure ToldRow (r r' : Row) : Prop where
  type : r'.type = r.type
  fence : r'.fence = r.fence
  members : r'.members = r.members
  valid : r'.state ≠ .invalid ↔ r.state ≠ .invalid
  active : r'.state = .active → r.state = .active
  indv : r.type = .indv → r'.state = r.state

theorem ToldRow.refl (r : Row) : ToldRow r r := ⟨rfl,rfl,rfl,Iff.rfl,id,fun _ => rfl⟩

theorem ToldRow.trans {r r' r'' : Row} (h : ToldRow r r') (h' : ToldRow r' r'') : ToldRow r r'' :=
  ⟨h'.type.trans h.type,h'.fence.trans h.fence,h'.members.trans h.members,h'.valid.trans h.valid,
    fun hs => h.active (h'.active hs),
    fun ht => (h'.indv (h.type.trans ht)).trans (h.indv ht)⟩

/-- What telling the groups does to the device: fences that had no outcome may get one, and
user space hears of those only. -/
structure Tells (dev dev' : SyncDev) : Prop where
  rows : ∀ i, ToldRow (dev.table i) (dev'.table i)
  nextFence : dev'.nextFence = dev.nextFence
  wakeups : dev'.wakeups = dev.wakeups
  outcome : ∀ f, dev'.outcome f = dev.outcome f ∨
    dev.outcome f = none ∧ ∃ i, (dev.table i).state ≠ .invalid ∧ (dev.table i).fence = f
  events : ∀ e ∈ dev'.events, e ∈ dev.events ∨ dev'.outcome e.fence ≠ none

theorem Tells.refl (dev : SyncDev) : Tells dev dev :=
  ⟨fun _ => .refl _,rfl,rfl,fun _ => Or.inl rfl,fun _ he => Or.inl he⟩

theorem Tells.outcome_some (h : Tells dev dev') {f : ℕ} (hf : dev.outcome f ≠ none) :
    dev'.outcome f = dev.outcome f :=
  (h.outcome f).resolve_right fun hh => hf hh.1

theorem Tells.trans {dev'' : SyncDev} (h : Tells dev dev') (h' : Tells dev' dev'') :
    Tells dev dev'' := by
  refine ⟨fun i => (h.rows i).trans (h'.rows i),h'.nextFence.trans h.nextFence,
    h'.wakeups.trans h.wakeups,fun f => ?_,fun e he => ?_⟩
  · rcases h'.outcome f with heq | ⟨hnone,i,hi,hf⟩
    · rw [heq]
      exact h.outcome f
    · right
      refine ⟨?_,i,((h.rows i).valid).mp hi,(h.rows i).fence.symm.trans hf⟩
      by_contra hne
      exact hne ((h.outcome_some hne).symm.trans hnone)
  · rcases h'.events e he with hold | hout
    · rcases h.events e hold with hold' | hout
      · exact Or.inl hold'
      · right
        rw [h'.outcome_some hout]
        exact hout
    · exact Or.inr hout

/-- Only the row of one valid group and its outcome change. -/
theorem Tells.setRow {row : Row} (hs : (dev.table p).state ≠ .invalid)
    (hnone : dev.outcome (dev.table p).fence = none)
    (htable : dev'.table = Function.update dev.table p row) (hrow : ToldRow (dev.table p) row)
    (hnext : dev'.nextFence = dev.nextFence) (hwake : dev'.wakeups = dev.wakeups)
    (hout : ∀ f, f ≠ (dev.table p).fence → dev'.outcome f = dev.outcome f)
    (hevents : ∀ e ∈ dev'.events, e ∈ dev.events ∨ dev'.outcome e.fence ≠ none) :
    Tells dev dev' := by
  refine ⟨fun i => ?_,hnext,hwake,fun f => ?_,hevents⟩
  · rw [htable]
    by_cases hi : i = p
    · subst hi
      simpa using hrow
    · simpa [hi] using ToldRow.refl _
  · by_cases hf : f = (dev.table p).fence
    · exact Or.inr ⟨hf ▸ hnone,p,hs,hf.symm⟩
    · exact Or.inl (hout f hf)

/-- A group is not its own member. -/
theorem Owing.notMem_self (h : Owing dev m st (p::todo)) (hs : (dev.table p).state ≠ .invalid) :
    (dev.table p).fence ∉ (dev.table p).members := by
  intro hin
  have hindv := h.links.indv p p hs hin
  rw [(h.groups p List.mem_cons_self).1] at hindv
  cases hindv

/-- A group that is told keeps its links and takes a signaled state. -/
theorem Owing.told (h : Owing dev m st (p::todo)) (hs : (dev.table p).state ≠ .invalid)
    (hst' : st'.IsSignaled) (row : Row)
    (hrow : row = { dev.table p with
      remaining := row.remaining, state := st', callbackList := row.callbackList
      userPayloadList := row.userPayloadList, signaled := row.signaled }) :
    SameLinks (dev.table p) row ∧ ToldRow (dev.table p) row := by
  have hgroup := (h.groups p List.mem_cons_self).1
  have hnil := (h.rows p).group hgroup
  rw [hrow]
  refine ⟨⟨rfl,Or.inl rfl,rfl,rfl,rfl,fun _ => hs,fun hh => absurd hh hst'.ne_active,
    fun _ hne => absurd hnil hne⟩,⟨rfl,rfl,rfl,⟨fun _ => hs,fun _ => hst'.ne_invalid⟩,
      fun hh => absurd hh hst'.ne_active,fun hi => ?_⟩⟩
  rw [hgroup] at hi
  cases hi

/-- A destroyed group only counts down. -/
theorem signalParent_invalid (h : Owing dev m st (p::todo))
    (hnone : updateParentState (dev.table p).state st = none) :
    Owing (signalParent st dev p) m st todo ∧ Tells dev (signalParent st dev p) := by
  have hinvalid := updateParentState_none hnone
  have heq : signalParent st dev p = dev.setRow p
      { dev.table p with remaining := decRemaining (dev.table p).remaining } := by
    simp only [signalParent,hnone]
  have hl : SameLinks (dev.table p)
      { dev.table p with remaining := decRemaining (dev.table p).remaining } :=
    ⟨rfl,Or.inl rfl,rfl,rfl,rfl,id,id,fun _ _ => id⟩
  rw [heq]
  refine ⟨h.tellRow _ rfl rfl rfl rfl (fun _ _ => rfl) hl id (Or.inl rfl) rfl ?_
    (fun hs => absurd hinvalid hs),fun j => ?_,rfl,rfl,fun _ => Or.inl rfl,fun _ he => Or.inl he⟩
  · exact h.delivery.congr rfl rfl rfl rfl le_rfl (update_keeps Row.callbackList (by rfl))
      (fun j => Or.inl (update_keeps Row.fence (by rfl) j)) fun _ _ => rfl
  · by_cases hj : j = p
    · subst hj
      simp only [setRow_table,Function.update_self]
      exact ⟨rfl,rfl,rfl,Iff.rfl,id,fun _ => rfl⟩
    · simpa [hj] using ToldRow.refl _

/-- The last member completes the group: its callbacks and its payloads are dispatched. -/
theorem signalParent_last (h : Owing dev m st (p::todo)) (hst : st.IsSignaled)
    (hstate : updateParentState (dev.table p).state st = some st')
    (hzero : decRemaining (dev.table p).remaining = 0) :
    Owing (signalParent st dev p) m st todo ∧ Tells dev (signalParent st dev p) := by
  obtain ⟨htype,hmem⟩ := h.groups p List.mem_cons_self
  have hs : (dev.table p).state ≠ .invalid := fun hh => by
    simp only [hh,updateParentState,reduceCtorEq] at hstate
  have hst' := updateParentState_signaled hstate hst
  have hold := h.status p hs
  rw [if_pos List.mem_cons_self] at hold
  have hr := h.rows p
  have hf0 := hr.fence (hr.alloc hs).1 (hr.alloc hs).2.1
  obtain ⟨hnone,hgroup⟩ := (hold.group htype).tell ({ dev.table p with
    remaining := decRemaining (dev.table p).remaining, state := st', callbackList := []
    userPayloadList := if dev.camSyncEventq then [] else (dev.table p).userPayloadList
    signaled := true }) hmem (h.notMem_self hs) h.outcome hst hstate rfl rfl rfl rfl
  rw [if_pos hzero] at hgroup
  simp only [signalParent,hstate,if_pos hzero]
  rw [dispatchSignaledCb_eq (by simpa using hst'.ne_invalid)]
  simp only [setRow_table,Function.update_self,Function.update_idem,setRow_outcome,
    setRow_dispatched]
  refine ⟨h.tellRow _ rfl rfl rfl rfl (fun f hf => Function.update_of_ne (hf hs) _ _)
    (h.told hs hst' _ (by rfl)).1 (fun _ => hst'.ne_invalid) (Or.inr rfl) rfl ?_
      fun _ => ⟨fun ht => ?_,fun _ => hgroup,by simp⟩,
    Tells.setRow hs hnone rfl (h.told hs hst' _ (by rfl)).2 rfl rfl
      (fun f hf => Function.update_of_ne hf _ _) fun e he => ?_⟩
  · refine h.delivery.flush p st' rfl rfl rfl rfl rfl (by simp) (fun j hj => by simp [hj])
      (fun j hj => by simp [hj]) hf0 (fun j hj => h.links.fences j p hj (hj ▸ hf0))
      (fun f hf => Function.update_of_ne hf _ _) (Or.inl ⟨by simp,hnone,by simp⟩)
  · rw [show _ = SyncType.group from htype] at ht
    cases ht
  · rcases List.mem_append.mp he with hold | hnew
    · exact Or.inl hold
    · right
      split at hnew
      · obtain ⟨_,_,rfl⟩ := List.mem_map.mp hnew
        simp
      · cases hnew

/-- With members still to come the group only takes the state. -/
theorem signalParent_notLast (h : Owing dev m st (p::todo)) (hst : st.IsSignaled)
    (hstate : updateParentState (dev.table p).state st = some st')
    (hzero : decRemaining (dev.table p).remaining ≠ 0) :
    Owing (signalParent st dev p) m st todo ∧ Tells dev (signalParent st dev p) := by
  obtain ⟨htype,hmem⟩ := h.groups p List.mem_cons_self
  have hs : (dev.table p).state ≠ .invalid := fun hh => by
    simp only [hh,updateParentState,reduceCtorEq] at hstate
  have hst' := updateParentState_signaled hstate hst
  have hself := h.notMem_self hs
  have hold := h.status p hs
  rw [if_pos List.mem_cons_self] at hold
  obtain ⟨hnone,hgroup⟩ := (hold.group htype).tell ({ dev.table p with
    remaining := decRemaining (dev.table p).remaining, state := st' })
    hmem hself h.outcome hst hstate rfl rfl rfl rfl
  rw [if_neg hzero] at hgroup
  have hsig := hold.signaled
  have hfm : (dev.table p).fence ≠ m := fun hh => hself (hh ▸ hmem)
  rw [Function.update_of_ne hfm] at hsig
  simp only [signalParent,hstate,if_neg hzero]
  refine ⟨h.tellRow _ rfl rfl rfl rfl (fun _ _ => rfl)
    (h.told hs hst' _ (by rfl)).1 (fun _ => hst'.ne_invalid) (Or.inl rfl) rfl ?_
      fun _ => ⟨fun ht => ?_,fun _ => hgroup,hsig⟩,
    Tells.setRow hs hnone rfl (h.told hs hst' _ (by rfl)).2 rfl rfl (fun _ _ => rfl)
      fun _ he => Or.inl he⟩
  · exact h.delivery.congr rfl rfl rfl rfl le_rfl (update_keeps Row.callbackList (by rfl))
      (fun j => Or.inl (update_keeps Row.fence (by rfl) j)) fun _ _ => rfl
  · rw [show _ = SyncType.group from htype] at ht
    cases ht

theorem signalParent_owing (h : Owing dev m st (p::todo)) (hst : st.IsSignaled) :
    Owing (signalParent st dev p) m st todo ∧ Tells dev (signalParent st dev p) := by
  cases hstate : updateParentState (dev.table p).state st with
  | none => exact signalParent_invalid h hstate
  | some st' =>
    by_cases hzero : decRemaining (dev.table p).remaining = 0
    · exact signalParent_last h hst hstate hzero
    · exact signalParent_notLast h hst hstate hzero

theorem foldl_signalParent (hst : st.IsSignaled) : ∀ (todo : List ℕ) (dev : SyncDev),
    Owing dev m st todo → Inv (todo.foldl (signalParent st) dev) ∧
      Tells dev (todo.foldl (signalParent st) dev)
  | [], dev, h => ⟨h.inv,.refl dev⟩
  | _::todo, _, h =>
    have hh := signalParent_owing h hst
    have hrest := foldl_signalParent hst todo _ hh.1
    ⟨hrest.1,hh.2.trans hrest.2⟩

/-- The fence that is signaled gets its outcome, and owes it to its parents. -/
theorem Inv.owing (h : Inv dev) (htype : (dev.table obj).type = .indv)
    (hactive : (dev.table obj).state = .active) (hst : st.IsSignaled) (row : Row)
    (hrow : row = { dev.table obj with
      refCnt := row.refCnt, state := st, callbackList := [], parentsList := [], signaled := true
      userPayloadList := row.userPayloadList })
    (events : List Event) :
    Owing { dev.setRow obj row with
        outcome := Function.update dev.outcome (dev.table obj).fence (some st)
        dispatched := dev.dispatched ++ (dev.table obj).callbackList.map (⟨·,st⟩)
        events := events }
      (dev.table obj).fence st (dev.table obj).parentsList := by
  have hs : (dev.table obj).state ≠ .invalid := by
    rw [hactive]
    decide
  have hr := h.rows obj
  have hf0 := hr.fence (hr.alloc hs).1 (hr.alloc hs).2.1
  have hnone := h.outcome_active hactive
  have hunique : ∀ j, (dev.table j).fence = (dev.table obj).fence → j = obj :=
    fun j hj => h.links.fences j obj hj (hj ▸ hf0)
  have hl : SameLinks (dev.table obj) row := by
    rw [hrow]
    exact ⟨rfl,Or.inr ⟨rfl,hst.ne_active⟩,rfl,rfl,rfl,fun _ => hs,
      fun hh => absurd hh hst.ne_active,fun _ hh => absurd rfl hh⟩
  have hstate : row.state = st := by rw [hrow]
  have hlist : row.callbackList = [] := by rw [hrow]
  have hsame : ∀ j, SameLinks (dev.table j) ((dev.setRow obj row).table j) := by
    intro j
    by_cases hj : j = obj
    · subst hj
      simpa using hl
    · simpa [hj] using SameLinks.refl _
  refine ⟨fun j => ?_,h.links.congr hsame fun _ hb => hb,fun j hj => ?_,fun f hf => ?_,?_,
    h.reserved,by simp,h.links.nodup obj hs,fun p hp => ?_⟩
  · by_cases hj : j = obj
    · subst hj
      simp only [setRow_table,Function.update_self]
      refine hr.update hl (fun _ => ?_) (Or.inr hlist) (fun _ => by rw [hrow]) (by rw [hrow])
      rw [hstate]
      exact hst.ne_invalid
    · simp only [setRow_table,Function.update_of_ne hj]
      exact h.rows j
  · by_cases hjo : j = obj
    · subst hjo
      have hmem : j ∉ (dev.table j).parentsList := by
        intro hin
        have ht := (h.links.parents j j hs hin).2.1
        rw [htype] at ht
        cases ht
      simp only [setRow_table,Function.update_self,if_neg hmem]
      refine ⟨fun _ => Or.inr ⟨?_,?_⟩,fun ht => ?_,?_⟩
      · rw [hstate]
        exact hst
      · rw [hl.fence,Function.update_self,hstate]
      · rw [hl.type,htype] at ht
        cases ht
      · rw [hl.fence,Function.update_self,hrow]
        simp
    · simp only [setRow_table,Function.update_of_ne hjo] at hj ⊢
      have hold := h.status j hj
      have hne : (dev.table j).fence ≠ (dev.table obj).fence := fun hh => hjo (hunique j hh)
      split
      · refine hold.congr ?_ fun k hk => ?_
        · rw [Function.update_of_ne hne,Function.update_of_ne hne]
        · rw [Function.update_idem]
          by_cases hk' : k = (dev.table obj).fence
          · rw [hk',Function.update_self,hnone]
          · rw [Function.update_of_ne hk']
      · next hmem =>
        refine hold.congr (Function.update_of_ne hne _ _) fun k hk => ?_
        refine Function.update_of_ne ?_ _ _
        rintro rfl
        exact hmem (h.links.carried j obj hj hactive hk)
  · refine (Function.update_of_ne ?_ _ _).trans (h.fresh f hf)
    rintro rfl
    exact absurd hr.fence_lt (Nat.not_lt.mpr hf)
  · refine h.delivery.flush obj st rfl rfl rfl rfl rfl (by simpa using hlist)
      (fun j hj => by simp [hj]) (fun j hj => by simp [hj]) hf0 hunique
      (fun f hf => Function.update_of_ne hf _ _) (Or.inl ⟨by simpa using hl.fence,hnone,by simp⟩)
  · obtain ⟨_,ht,_,_,hm⟩ := h.links.parents obj p hs hp
    have hsp := hsame p
    rw [hsp.type,hsp.members]
    exact ⟨ht,hm⟩

theorem ofStatus_signaled {status : ℕ} (h : FenceState.ofStatus status = some st) :
    st.IsSignaled := by
  unfold FenceState.ofStatus at h
  split at h <;> simp only [Option.some.injEq,reduceCtorEq] at h <;> rw [← h] <;> decide

/-- What `cam_sync_signal` does: it is refused, it drops a reference, or it signals. -/
theorem camSyncSignal_cases (dev : SyncDev) (obj status : ℕ) :
    (camSyncSignal dev obj status).1 = dev ∨
    (∃ refCnt, (camSyncSignal dev obj status).1 =
      dev.setRow obj { dev.table obj with refCnt := refCnt }) ∨
    ∃ st row events, st.IsSignaled ∧ (dev.table obj).type = .indv ∧
      (dev.table obj).state = .active ∧
      row = { dev.table obj with
        refCnt := row.refCnt, state := st, callbackList := [], parentsList := [], signaled := true
        userPayloadList := row.userPayloadList } ∧
      (∀ e ∈ events, e ∈ dev.events ∨ e.fence = (dev.table obj).fence) ∧
      (camSyncSignal dev obj status).1 = (dev.table obj).parentsList.foldl (signalParent st)
        { dev.setRow obj row with
          outcome := Function.update dev.outcome (dev.table obj).fence (some st)
          dispatched := dev.dispatched ++ (dev.table obj).callbackList.map (⟨·,st⟩)
          events := events } := by
  unfold camSyncSignal
  split
  · exact Or.inl rfl
  · dsimp only
    split
    · exact Or.inl rfl
    · split
      · exact Or.inl rfl
      · next htype =>
        split
        · exact Or.inl rfl
        · next hactive =>
          split
          · exact Or.inl rfl
          · next st hst =>
            split
            · exact Or.inr (Or.inl ⟨_,rfl⟩)
            · have hst' := ofStatus_signaled hst
              have hindv : (dev.table obj).type = .indv := by
                cases hh : (dev.table obj).type with
                | indv => rfl
                | group => exact absurd hh htype
              right
              right
              rw [dispatchSignaledCb_eq (by simpa using hst'.ne_invalid)]
              simp only [Function.update_self,Function.update_idem,SyncDev.setRow]
              refine ⟨st,_,_,hst',hindv,not_not.mp hactive,rfl,fun e he => ?_,rfl⟩
              rcases List.mem_append.mp he with hold | hnew
              · exact Or.inl hold
              · right
                split at hnew
                · obtain ⟨_,_,rfl⟩ := List.mem_map.mp hnew
                  rfl
                · cases hnew

theorem signal_inv (h : Inv dev) (obj status : ℕ) : Inv (camSyncSignal dev obj status).1 := by
  rcases camSyncSignal_cases dev obj status with
    heq | ⟨refCnt,heq⟩ | ⟨st,row,events,hst,htype,hactive,hrow,_,heq⟩
  · rw [heq]
    exact h
  · rw [heq]
    exact h.asideRow obj refCnt (dev.table obj).userPayloadList
  · rw [heq]
    exact (foldl_signalParent hst _ _ (h.owing htype hactive hst row hrow events)).1

theorem step_inv (h : Inv dev) (op : Op) : Inv (step dev op) := by
  cases op with
  | create => exact (create_inv h).1
  | merge objs alloc => exact (merge_inv h objs alloc).1
  | getObjRef obj => exact getObjRef_inv h obj
  | putObjRef obj => exact putObjRef_inv h obj
  | signal obj status => exact signal_inv h obj status
  | destroy obj => exact destroy_inv h obj
  | waitBegin obj => exact waitBegin_inv h obj
  | waitEnd obj timedOut => exact waitEnd_inv h obj timedOut
  | registerCallback func data obj alloc => exact registerCallback_inv h func data obj alloc
  | deregisterCallback func data obj => exact deregisterCallback_inv h func data obj
  | registerPayload obj p alloc => exact registerPayload_inv h obj p alloc
  | deregisterPayload obj p => exact deregisterPayload_inv h obj p
  | setEventq on => exact h.sameTable rfl rfl ⟨rfl,rfl,rfl,rfl,rfl,rfl,rfl⟩

end Telling

theorem probe_inv (eventq trigger : Bool) : Inv (probe eventq trigger) := by
  have hrow : ∀ i, RowOk i zeroRow (decide (i = 0)) 0 1 := fun i =>
    ⟨fun hh => absurd rfl hh,fun _ => ⟨rfl,rfl⟩,fun hh => absurd rfl hh,fun _ _ => rfl,
      fun hb h0 => absurd (of_decide_eq_true hb) h0,Nat.one_pos,fun _ => ⟨rfl,rfl,rfl⟩,
      fun _ => rfl,(fun m hm => by cases hm),fun _ => rfl⟩
  refine ⟨hrow,⟨fun i j _ h0 => absurd rfl h0,fun c p hc => absurd rfl hc,
    fun c hc => absurd rfl hc,fun g c hg => absurd rfl hg,fun g c hg => absurd rfl hg⟩,
    fun i hi => absurd rfl hi,fun _ _ => rfl,?_,rfl⟩
  exact ⟨List.nodup_nil,(fun cb hcb => by cases hcb),(fun i cb hcb => by cases hcb),
    fun _ => List.nodup_nil,List.nodup_nil,(fun d hd => by cases hd),(fun cb hcb => by cases hcb),
    fun cb hcb => by cases hcb⟩

theorem run_inv (eventq trigger : Bool) (ops : List Op) :
    Inv (Runs.run step (probe eventq trigger) ops) := by
  have hstep : ∀ dev op, Inv dev → Inv (step dev op) := fun _ op h => step_inv h op
  exact Runs.run_invariant hstep (probe_inv eventq trigger) ops

end CamSync
end MarbleModules
