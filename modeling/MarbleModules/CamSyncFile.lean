import MarbleModules.CamSyncRuns

/-! Two file operations of the sync device: the signal ioctl of user space, and the release of
the last handle, which signals and destroys every fence. -/
namespace MarbleModules
namespace CamSync

def efault : ℤ := 14

/-- `struct cam_sync_signal`, with its signed handle as 32 bits: a negative one is out of range
like any other that is too large. -/
structure SyncSignal where
  syncObj : BitVec 32
  syncState : BitVec 32
  deriving DecidableEq

/-- `struct cam_private_ioctl_arg`, and what `copy_from_user` finds at the pointer. -/
structure PrivateIoctlArg where
  size : ℕ
  ioctlPtr : ℕ
  user : Option SyncSignal
  deriving DecidableEq

/-- `cam_sync_handle_signal` -/
def camSyncHandleSignal (dev : SyncDev) (kIoctl : PrivateIoctlArg) : SyncDev × ℤ :=
  if kIoctl.size ≠ 8 then (dev,-einval)
  else if kIoctl.ioctlPtr = 0 then (dev,-einval)
  else
    match kIoctl.user with
    | none => (dev,-efault)
    | some syncSignal =>
      let r := camSyncGetObjRef dev syncSignal.syncObj.toNat
      if r.2 ≠ 0 then r
      else camSyncSignal r.1 syncSignal.syncObj.toNat syncSignal.syncState.toNat

/-- The fence of row `obj` is complete. -/
def Complete (dev : SyncDev) (obj : ℕ) : Prop := (dev.table obj).state.IsSignaled

instance (dev : SyncDev) (obj : ℕ) : Decidable (Complete dev obj) :=
  inferInstanceAs (Decidable (FenceState.IsSignaled _))

/-- A refused signal leaves every row as it was, so that each later signal completes what it
would have completed. -/
structure Harmless (dev : SyncDev) (kIoctl : PrivateIoctlArg) : Prop where
  rows : (camSyncHandleSignal dev kIoctl).2 ≠ 0 →
    (camSyncHandleSignal dev kIoctl).1.table = dev.table
  later : (camSyncHandleSignal dev kIoctl).2 ≠ 0 → ∀ next obj,
    (Complete (camSyncHandleSignal (camSyncHandleSignal dev kIoctl).1 next).1 obj ↔
      Complete (camSyncHandleSignal dev next).1 obj)

/-- A well-formed argument that names an active fence which is a group, or carries a status
that is none. -/
def Leaks (dev : SyncDev) (kIoctl : PrivateIoctlArg) : Prop :=
  kIoctl.size = 8 ∧ kIoctl.ioctlPtr ≠ 0 ∧ ∃ syncSignal, kIoctl.user = some syncSignal ∧
    syncSignal.syncObj.toNat ≠ 0 ∧ syncSignal.syncObj.toNat < maxObjs ∧
    (dev.table syncSignal.syncObj.toNat).state = .active ∧
    ((dev.table syncSignal.syncObj.toNat).type = .group ∨
      FenceState.ofStatus syncSignal.syncState.toNat = none)

variable {dev dev' dev'' : SyncDev} {obj : ℕ}

theorem neg_einval_ne_zero : -einval ≠ 0 := by decide

/-- Another reference to the fence is taken. -/
def takeRef (dev : SyncDev) (obj : ℕ) : SyncDev :=
  dev.setRow obj { dev.table obj with refCnt := (dev.table obj).refCnt+1 }

theorem camSyncGetObjRef_cases (dev : SyncDev) (obj : ℕ) :
    ¬ (¬ (obj = 0 ∨ maxObjs ≤ obj) ∧ (dev.table obj).state = .active) ∧
        camSyncGetObjRef dev obj = (dev,-einval) ∨
      (¬ (obj = 0 ∨ maxObjs ≤ obj) ∧ (dev.table obj).state = .active) ∧
        camSyncGetObjRef dev obj = (takeRef dev obj,0) := by
  rw [camSyncGetObjRef]
  by_cases hrange : obj = 0 ∨ maxObjs ≤ obj
  · rw [if_pos hrange]
    exact Or.inl ⟨fun hh => hh.1 hrange,rfl⟩
  rw [if_neg hrange]
  by_cases hactive : (dev.table obj).state = .active
  · rw [if_neg (not_not.mpr hactive)]
    exact Or.inr ⟨⟨hrange,hactive⟩,rfl⟩
  · rw [if_pos hactive]
    exact Or.inl ⟨fun hh => hactive hh.2,rfl⟩

/-- A signal of an active row is refused for its type or its status only. -/
theorem camSyncSignal_active (dev : SyncDev) (status : ℕ) (hrange : ¬ (obj = 0 ∨ maxObjs ≤ obj))
    (hactive : (dev.table obj).state = .active) :
    ((dev.table obj).type = .group ∨ FenceState.ofStatus status = none) ∧
        camSyncSignal dev obj status = (dev,-einval) ∨
      ¬ ((dev.table obj).type = .group ∨ FenceState.ofStatus status = none) ∧
        (camSyncSignal dev obj status).2 = 0 := by
  have hvalid : (dev.table obj).state ≠ .invalid := by
    rw [hactive]
    decide
  rw [camSyncSignal,if_neg hrange]
  dsimp only
  rw [if_neg hvalid]
  by_cases htype : (dev.table obj).type = .group
  · rw [if_pos htype]
    exact Or.inl ⟨Or.inl htype,rfl⟩
  rw [if_neg htype,if_neg (not_not.mpr hactive)]
  cases hst : FenceState.ofStatus status with
  | none => exact Or.inl ⟨Or.inr rfl,rfl⟩
  | some st =>
    refine Or.inr ⟨fun hh => hh.elim htype (fun hh => by cases hh),?_⟩
    dsimp only
    split_ifs
    · rfl
    · rfl

/-- What is refused before the reference is taken leaves no trace; what is refused after leaves
the reference. -/
theorem camSyncHandleSignal_cases (dev : SyncDev) (kIoctl : PrivateIoctlArg) :
    ¬ Leaks dev kIoctl ∧ ((camSyncHandleSignal dev kIoctl).2 ≠ 0 →
        (camSyncHandleSignal dev kIoctl).1 = dev) ∨
      Leaks dev kIoctl ∧ (camSyncHandleSignal dev kIoctl).2 ≠ 0 ∧
        ∃ obj, (camSyncHandleSignal dev kIoctl).1 = takeRef dev obj := by
  rw [camSyncHandleSignal]
  by_cases hsize : kIoctl.size = 8
  swap
  · rw [if_pos hsize]
    exact Or.inl ⟨fun hh => hsize hh.1,fun _ => rfl⟩
  rw [if_neg (not_not.mpr hsize)]
  by_cases hptr : kIoctl.ioctlPtr = 0
  · rw [if_pos hptr]
    exact Or.inl ⟨fun hh => hh.2.1 hptr,fun _ => rfl⟩
  rw [if_neg hptr]
  cases huser : kIoctl.user with
  | none =>
    refine Or.inl ⟨?_,fun _ => rfl⟩
    rintro ⟨-,-,s,hs,-⟩
    rw [huser] at hs
    cases hs
  | some s =>
    have hleaks : Leaks dev kIoctl ↔ (¬ (s.syncObj.toNat = 0 ∨ maxObjs ≤ s.syncObj.toNat) ∧
        (dev.table s.syncObj.toNat).state = .active) ∧
        ((dev.table s.syncObj.toNat).type = .group ∨
          FenceState.ofStatus s.syncState.toNat = none) := by
      constructor
      · rintro ⟨-,-,s',hs',h0,hlt,hactive,hbad⟩
        obtain rfl : s = s' := Option.some.inj (huser.symm.trans hs')
        exact ⟨⟨by omega,hactive⟩,hbad⟩
      · rintro ⟨⟨hrange,hactive⟩,hbad⟩
        exact ⟨hsize,hptr,s,huser,by omega,by omega,hactive,hbad⟩
    rw [hleaks]
    dsimp only
    rcases camSyncGetObjRef_cases dev s.syncObj.toNat with ⟨hrefused,heq⟩ | ⟨htaken,heq⟩
    · rw [heq,if_pos neg_einval_ne_zero]
      exact Or.inl ⟨fun hh => hrefused hh.1,fun _ => rfl⟩
    rw [heq,if_neg (not_not.mpr rfl)]
    have hself : (takeRef dev s.syncObj.toNat).table s.syncObj.toNat =
        { dev.table s.syncObj.toNat with refCnt := (dev.table s.syncObj.toNat).refCnt+1 } := by
      rw [takeRef,setRow_table,Function.update_self]
    have hsig := camSyncSignal_active (takeRef dev s.syncObj.toNat)
      s.syncState.toNat htaken.1 (by rw [hself]; exact htaken.2)
    rw [hself] at hsig
    rcases hsig with ⟨hbad,hrej⟩ | ⟨hgood,hrc⟩
    · rw [hrej]
      exact Or.inr ⟨⟨htaken,hbad⟩,neg_einval_ne_zero,_,rfl⟩
    · exact Or.inl ⟨fun hh => hgood hh.2,fun hh => absurd hrc hh⟩

theorem takeRef_table_ne (dev : SyncDev) (obj : ℕ) : (takeRef dev obj).table ≠ dev.table := by
  intro heq
  have hrow := congrArg Row.refCnt (congrFun heq obj)
  rw [takeRef,setRow_table,Function.update_self] at hrow
  dsimp only at hrow
  omega

/-- A refused signal leaves the fence usable exactly when it was refused before a reference was
taken: the argument is malformed or the fence is not active. -/
theorem harmless_iff (dev : SyncDev) (kIoctl : PrivateIoctlArg) :
    Harmless dev kIoctl ↔ ¬ Leaks dev kIoctl := by
  rcases camSyncHandleSignal_cases dev kIoctl with ⟨hno,hsame⟩ | ⟨hleaks,hrc,obj,heq⟩
  · refine ⟨fun _ => hno,fun _ => ⟨fun hrc => by rw [hsame hrc],fun hrc next obj => ?_⟩⟩
    rw [hsame hrc]
  · refine ⟨fun hh => ?_,fun hno => absurd hleaks hno⟩
    have htable := hh.rows hrc
    rw [heq] at htable
    exact absurd htable (takeRef_table_ne dev obj)

/-- An ioctl argument of the right size. -/
def wellFormed (syncObj syncState : BitVec 32) : PrivateIoctlArg := ⟨8,1,some ⟨syncObj,syncState⟩⟩

/-- Fence 1 is created and its signal with status 0 is refused; the signal with success that
follows reports no error and does not complete it, as it would have done. -/
theorem not_harmless_undefined :
    (camSyncHandleSignal (camSyncCreate (probe true false)).1 (wellFormed 1 0)).2 = -einval ∧
    ¬ Harmless (camSyncCreate (probe true false)).1 (wellFormed 1 0) ∧
    ¬ Complete (camSyncHandleSignal (camSyncHandleSignal (camSyncCreate (probe true false)).1
      (wellFormed 1 0)).1 (wellFormed 1 2)).1 1 ∧
    Complete (camSyncHandleSignal (camSyncCreate (probe true false)).1 (wellFormed 1 2)).1 1 := by
  refine ⟨by decide,fun hh => ?_,by decide,by decide⟩
  exact absurd ((hh.later (by decide) (wellFormed 1 2) 1).mpr (by decide)) (by decide)

/-- The handles a release visits. -/
def allObjs : List ℕ := List.range' 1 (maxObjs-1)

/-- One round of the signaling loop of `cam_sync_close`; the second part is `rc`. -/
def closeSignal (s : SyncDev × ℤ) (i : ℕ) : SyncDev × ℤ :=
  if (s.1.table i).state = .active then camSyncSignal s.1 i 3 else s

/-- One round of its destroy loop. -/
def closeDestroy (s : SyncDev × ℤ) (i : ℕ) : SyncDev × ℤ :=
  if (s.1.table i).state ≠ .invalid then camSyncDestroy s.1 i else s

def signalLoop (dev : SyncDev) (l : List ℕ) : SyncDev × ℤ := l.foldl closeSignal (dev,0)

/-- `cam_sync_eventq` is cleared. -/
def SyncDev.dropEventq (dev : SyncDev) : SyncDev := { dev with camSyncEventq := false }

/-- `cam_sync_close`; the last result is the new `open_cnt`. -/
def camSyncClose (dev : SyncDev) (openCnt : ℤ) : SyncDev × ℤ × ℤ :=
  if openCnt-1 = 0 then
    let r := allObjs.foldl closeDestroy (signalLoop dev allObjs)
    (r.1.dropEventq,r.2,0)
  else (dev.dropEventq,0,openCnt-1)

/-- The release of the last handle terminates every fence. -/
structure ClosesAll (dev : SyncDev) : Prop where
  noneActive : ∀ i ∈ allObjs, ((signalLoop dev allObjs).1.table i).type = .indv →
    ((signalLoop dev allObjs).1.table i).state ≠ .active
  error : ∀ i ∈ allObjs, (dev.table i).type = .indv → (dev.table i).state = .active →
    ((signalLoop dev allObjs).1.table i).state = .signaledError
  free : ∀ i ∈ allObjs, (camSyncClose dev 1).1.waiters i = 0 →
    ((camSyncClose dev 1).1.table i).state = .invalid ∧ (camSyncClose dev 1).1.bitmap i = false

/-- Every individual fence that is still active has one reference. -/
def OneRef (dev : SyncDev) : Prop :=
  ∀ i ∈ allObjs, (dev.table i).type = .indv → (dev.table i).state = .active →
    (dev.table i).refCnt = 1

/-- The wait references of the rows, and who is counted by them. -/
structure SameWait (dev dev' : SyncDev) : Prop where
  bitmap : dev'.bitmap = dev.bitmap
  waiters : dev'.waiters = dev.waiters
  waitRefCnt : ∀ j, (dev'.table j).waitRefCnt = (dev.table j).waitRefCnt

theorem SameWait.refl (dev : SyncDev) : SameWait dev dev := ⟨rfl,rfl,fun _ => rfl⟩

theorem SameWait.trans (h : SameWait dev dev') (h' : SameWait dev' dev'') : SameWait dev dev'' :=
  ⟨h'.bitmap.trans h.bitmap,h'.waiters.trans h.waiters,
    fun j => (h'.waitRefCnt j).trans (h.waitRefCnt j)⟩

theorem SameWait.row {row : Row} (hbit : dev'.bitmap = dev.bitmap)
    (hwait : dev'.waiters = dev.waiters) (htable : dev'.table = Function.update dev.table obj row)
    (hrow : row.waitRefCnt = (dev.table obj).waitRefCnt) : SameWait dev dev' := by
  refine ⟨hbit,hwait,fun j => ?_⟩
  rw [htable]
  exact update_keeps Row.waitRefCnt hrow j

theorem setRow_sameWait (dev : SyncDev) {i : ℕ} {row : Row}
    (h : row.waitRefCnt = (dev.table i).waitRefCnt) : SameWait dev (dev.setRow i row) :=
  .row rfl rfl rfl h

theorem SameWait.foldl {α : Type*} {f : SyncDev → α → SyncDev} (hf : ∀ d a, SameWait d (f d a))
    (l : List α) (dev : SyncDev) : SameWait dev (l.foldl f dev) := by
  induction l generalizing dev with
  | nil => exact .refl dev
  | cons a l ih => exact (hf dev a).trans (ih (f dev a))

theorem dispatchSignaledCb_sameWait (dev : SyncDev) (obj : ℕ) (status : FenceState) :
    SameWait dev (dispatchSignaledCb dev obj status) := by
  rw [dispatchSignaledCb]
  by_cases hs : (dev.table obj).state = .invalid
  · rw [if_pos hs]
    exact .refl dev
  · rw [if_neg hs]
    exact .row rfl rfl rfl rfl

/-- A parent's row is written, and then perhaps dispatched. -/
theorem signalParent_cases (st : FenceState) (dev : SyncDev) (p : ℕ) :
    ∃ row, row.waitRefCnt = (dev.table p).waitRefCnt ∧
      (signalParent st dev p = dev.setRow p row ∨
        ∃ st', signalParent st dev p = dispatchSignaledCb (dev.setRow p row) p st') := by
  unfold signalParent
  dsimp only
  split
  · exact ⟨{ dev.table p with remaining := decRemaining (dev.table p).remaining },rfl,Or.inl rfl⟩
  · next st' _ =>
    refine ⟨{ dev.table p with
      remaining := decRemaining (dev.table p).remaining, state := st' },rfl,?_⟩
    split_ifs
    · exact Or.inr ⟨st',rfl⟩
    · exact Or.inl rfl

theorem signalParent_sameWait (status : FenceState) (dev : SyncDev) (p : ℕ) :
    SameWait dev (signalParent status dev p) := by
  obtain ⟨row,hrow,heq | ⟨st,heq⟩⟩ := signalParent_cases status dev p
  · rw [heq]
    exact setRow_sameWait dev hrow
  · rw [heq]
    exact (setRow_sameWait dev hrow).trans (dispatchSignaledCb_sameWait _ p st)

theorem signal_sameWait (dev : SyncDev) (obj status : ℕ) :
    SameWait dev (camSyncSignal dev obj status).1 := by
  rcases camSyncSignal_cases dev obj status with
    heq | ⟨refCnt,heq⟩ | ⟨st,row,events,_,_,_,hrow,_,heq⟩
  · rw [heq]
    exact .refl dev
  · rw [heq]
    exact .row rfl rfl rfl rfl
  · rw [heq]
    have hset : SameWait dev { dev.setRow obj row with
        outcome := Function.update dev.outcome (dev.table obj).fence (some st)
        dispatched := dev.dispatched ++ (dev.table obj).callbackList.map (⟨·,st⟩)
        events := events } := .row rfl rfl rfl (by rw [hrow])
    exact hset.trans (.foldl (signalParent_sameWait st) _ _)

/-- A row in use has a wait reference: the row's own, or a sleeping thread's. -/
def Held (dev : SyncDev) : Prop := ∀ i, i ≠ 0 → dev.bitmap i = true → (dev.table i).waitRefCnt ≠ 0

theorem Held.sameWait (h : Held dev) (hs : SameWait dev dev') : Held dev' := by
  intro i h0 hbit
  rw [hs.waitRefCnt]
  exact h i h0 (hs.bitmap ▸ hbit)

/-- Only one row and its bit change, and a row in use keeps a reference. -/
theorem Held.at (h : Held dev) (idx : ℕ) (hbit : ∀ j, j ≠ idx → dev'.bitmap j = dev.bitmap j)
    (htable : ∀ j, j ≠ idx → (dev'.table j).waitRefCnt = (dev.table j).waitRefCnt)
    (hself : idx ≠ 0 → dev'.bitmap idx = true → (dev'.table idx).waitRefCnt ≠ 0) : Held dev' := by
  intro i h0 hi
  by_cases hij : i = idx
  · subst hij
    exact hself h0 hi
  · rw [htable i hij]
    exact h i h0 ((hbit i hij).symm.trans hi)

theorem Held.setRow (h : Held dev) {row : Row} (hbit : dev'.bitmap = dev.bitmap)
    (htable : dev'.table = Function.update dev.table obj row) (hrow : row.waitRefCnt ≠ 0) :
    Held dev' := by
  refine h.at obj (fun j _ => congrFun hbit j) (fun j hj => ?_) fun _ _ => ?_
  · rw [htable,Function.update_of_ne hj]
  · rwa [htable,Function.update_self]

theorem putWaitRef_held (h : Held dev) (hrow : (dev.table obj).waitRefCnt ≠ 0) :
    Held (camSyncPutWaitRef dev obj) := by
  rw [camSyncPutWaitRef]
  split_ifs with hone
  · have hd := deinited (dev.setRow obj
      { dev.table obj with waitRefCnt := (dev.table obj).waitRefCnt-1 }) obj
    refine h.at obj (fun j hj => ?_) (fun j hj => ?_) fun _ hbit => ?_
    · rw [hd.bitmap,Function.update_of_ne hj,setRow_bitmap]
    · obtain ⟨ps,cs,heq,-⟩ := hd.others j hj
      rw [heq,setRow_table,Function.update_of_ne hj]
    · rw [hd.bitmap,Function.update_self] at hbit
      cases hbit
  · exact h.setRow rfl rfl (by dsimp only; omega)

theorem addChildren_sameWait (idx : ℕ) (alloc : ℕ → Bool × Bool) (done cs : List ℕ)
    (dev : SyncDev) : SameWait dev (addChildren idx alloc done cs dev).1 := by
  induction cs generalizing done dev with
  | nil => exact .refl dev
  | cons c cs ih =>
    rw [addChildren]
    dsimp only
    split_ifs
    · exact .refl dev
    · refine SameWait.trans ?_ (ih _ _)
      exact setRow_sameWait dev rfl
    · exact ih _ _
    · exact .row rfl rfl rfl rfl
    · exact .row rfl rfl rfl rfl
    · refine SameWait.trans (SameWait.trans ?_ (setRow_sameWait _ ?_)) (ih _ _)
      · exact setRow_sameWait dev rfl
      by_cases hc : c = idx
      · subst hc
        rw [setRow_table,Function.update_self]
      · rw [setRow_table,Function.update_of_ne hc]

theorem initGroupObject_sameWait (dev : SyncDev) (idx : ℕ) (objs : List ℕ)
    (alloc : ℕ → Bool × Bool) : SameWait (camSyncInitRow dev idx .group).1
      (camSyncInitGroupObject dev idx objs alloc).1 := by
  rw [camSyncInitGroupObject]
  generalize (camSyncInitRow dev idx .group).1 = dev₀
  have hmembers : SameWait dev₀ (dev₀.setRow idx
      { dev₀.table idx with members := objs.map fun c => (dev₀.table c).fence }) :=
    .row rfl rfl rfl rfl
  have hadd := hmembers.trans (addChildren_sameWait idx alloc [] objs _)
  dsimp only
  generalize addChildren idx alloc [] objs (dev₀.setRow idx
    { dev₀.table idx with members := objs.map fun c => (dev₀.table c).fence }) = r at hadd ⊢
  obtain ⟨dev₂,_ | ⟨rc,done⟩⟩ := r
  · dsimp only at hadd ⊢
    by_cases hrem : (dev₂.table idx).remaining = 0
    · rw [if_pos hrem]
      exact hadd.trans (.row rfl rfl rfl rfl)
    · rw [if_neg hrem]
      exact hadd
  · have hundo : SameWait (dev₂.setRow idx { dev₂.table idx with state := .invalid })
        (done.foldl (fun d c => d.setRow c (cleanupParentsList (d.table c) idx))
          (dev₂.setRow idx { dev₂.table idx with state := .invalid })) := by
      refine SameWait.foldl (fun d c => ?_) done _
      exact setRow_sameWait d rfl
    dsimp only at hadd ⊢
    refine (hadd.trans ?_).trans (hundo.trans ?_)
    · exact setRow_sameWait dev₂ rfl
    · exact setRow_sameWait _ rfl

theorem initRow_held (dev : SyncDev) (type : SyncType) {idx : ℕ} (hlt : idx < maxObjs) :
    (∀ j, j ≠ idx → (camSyncInitRow dev idx type).1.table j = dev.table j) ∧
      (camSyncInitRow dev idx type).1.bitmap = dev.bitmap ∧
      (idx ≠ 0 → ((camSyncInitRow dev idx type).1.table idx).waitRefCnt = 1) := by
  rw [camSyncInitRow]
  by_cases h0 : idx = 0
  · rw [if_pos (Or.inl h0)]
    exact ⟨fun _ _ => rfl,rfl,fun hh => absurd h0 hh⟩
  · rw [if_neg (by omega)]
    refine ⟨fun j hj => Function.update_of_ne hj .. ,rfl,fun _ => ?_⟩
    dsimp only
    rw [Function.update_self]

/-- A free row is taken and may be given back at once. -/
theorem Held.taken (h : Held dev) {type : SyncType} {idx : ℕ} (hlt : idx < maxObjs)
    (hs : SameWait (camSyncInitRow (dev.setBit idx true) idx type).1 dev') (keep : Bool) :
    Held (if keep then dev' else dev'.setBit idx false) := by
  obtain ⟨hothers,hbit,hself⟩ := initRow_held (dev.setBit idx true) type hlt
  have hbit' : ∀ j, j ≠ idx → dev'.bitmap j = dev.bitmap j := fun j hj => by
    rw [hs.bitmap,hbit]
    exact Function.update_of_ne hj ..
  have htable : ∀ j, j ≠ idx → (dev'.table j).waitRefCnt = (dev.table j).waitRefCnt :=
    fun j hj => by
      rw [hs.waitRefCnt,hothers j hj]
      rfl
  cases keep with
  | true =>
    refine h.at idx hbit' htable fun h0 _ => ?_
    rw [if_pos rfl,hs.waitRefCnt,hself h0]
    decide
  | false =>
    refine h.at idx (fun j hj => ?_) htable fun _ hb => ?_
    · exact (Function.update_of_ne hj ..).trans (hbit' j hj)
    · have hclear : (dev'.setBit idx false).bitmap idx = false := Function.update_self ..
      rw [if_neg (by decide),hclear] at hb
      cases hb

theorem create_held (h : Held dev) : Held (camSyncCreate dev).1 := by
  rw [camSyncCreate]
  split
  · exact h
  · next idx hidx =>
    have hlt := (findFirstZeroBit_spec hidx).2
    rw [Nat.zero_add] at hlt
    have htaken := h.taken hlt
      (.refl (camSyncInitRow (dev.setBit idx true) idx .indv).1)
    dsimp only
    split_ifs
    · exact htaken false
    · exact htaken true

theorem merge_held (h : Held dev) (objs : List ℕ) (alloc : ℕ → Bool × Bool) :
    Held (camSyncMerge dev objs alloc).1 := by
  rw [camSyncMerge]
  split_ifs
  · exact h
  · exact h
  · exact h
  split
  · exact h
  · next idx hidx =>
    have hlt := (findFirstZeroBit_spec hidx).2
    rw [Nat.zero_add] at hlt
    have htaken := h.taken hlt (initGroupObject_sameWait (dev.setBit idx true) idx objs alloc)
    dsimp only
    split_ifs
    · exact htaken false
    · exact htaken true

theorem destroy_held (hinv : Inv dev) (h : Held dev) (obj : ℕ) : Held (camSyncDestroy dev obj).1 := by
  rw [camSyncDestroy]
  dsimp only
  split_ifs with hrange hs
  · exact h
  · exact h
  · have hrefs := (hinv.rows obj).refs hs
    refine putWaitRef_held (h.sameWait (setRow_sameWait dev rfl)) ?_
    rw [setRow_table,Function.update_self]
    dsimp only
    omega

theorem waitEnd_held (hinv : Inv dev) (h : Held dev) (obj : ℕ) (timedOut : Bool) :
    Held (camSyncWaitEnd dev obj timedOut) := by
  rw [camSyncWaitEnd]
  by_cases hasleep : dev.waiters obj = 0 ∨ timedOut = false ∧ (dev.table obj).signaled = false
  · rw [if_pos hasleep]
    exact h
  · rw [if_neg hasleep]
    refine putWaitRef_held (fun i h0 hbit => h i h0 hbit) fun hzero => hasleep (Or.inl ?_)
    have hr := hinv.rows obj
    have hzero' : (dev.table obj).waitRefCnt = 0 := hzero
    by_cases hbit : dev.bitmap obj = true
    · by_contra hwait
      exact h obj (fun h0 => hwait (hr.awake h0)) hbit hzero'
    · exact (hr.free (by simpa using hbit)).1

theorem step_held (hinv : Inv dev) (h : Held dev) (op : Op) : Held (step dev op) := by
  cases op with
  | create => exact create_held h
  | merge objs alloc => exact merge_held h objs alloc
  | getObjRef obj =>
    refine h.sameWait ?_
    rcases camSyncGetObjRef_cases dev obj with ⟨-,heq⟩ | ⟨-,heq⟩
    · rw [step,heq]
      exact .refl dev
    · rw [step,heq]
      exact setRow_sameWait dev rfl
  | putObjRef obj =>
    refine h.sameWait ?_
    rw [step,camSyncPutObjRef]
    split_ifs
    · exact .refl dev
    · exact setRow_sameWait dev rfl
  | signal obj status => exact h.sameWait (signal_sameWait dev obj status)
  | destroy obj => exact destroy_held hinv h obj
  | waitBegin obj =>
    rw [step,camSyncWaitBegin]
    dsimp only
    split_ifs
    · exact h
    · exact h
    · exact h.setRow rfl rfl (Nat.succ_ne_zero _)
  | waitEnd obj timedOut => exact waitEnd_held hinv h obj timedOut
  | registerCallback func data obj alloc =>
    refine h.sameWait ?_
    rw [step,camSyncRegisterCallback]
    dsimp only
    split_ifs
    · exact .refl dev
    · exact .refl dev
    · exact .refl dev
    · exact ⟨rfl,rfl,fun _ => rfl⟩
    · exact .row rfl rfl rfl rfl
  | deregisterCallback func data obj =>
    refine h.sameWait ?_
    rw [step,camSyncDeregisterCallback]
    dsimp only
    split_ifs
    · exact .refl dev
    · exact .refl dev
    · exact .row rfl rfl rfl rfl
    · exact .row rfl rfl rfl rfl
  | registerPayload obj p alloc =>
    refine h.sameWait ?_
    rw [step,camSyncHandleRegisterUserPayload]
    dsimp only
    split_ifs
    · exact .refl dev
    · exact .refl dev
    · exact .refl dev
    · exact ⟨rfl,rfl,fun _ => rfl⟩
    · exact .refl dev
    · exact setRow_sameWait dev rfl
  | deregisterPayload obj p =>
    refine h.sameWait ?_
    rw [step,camSyncHandleDeregisterUserPayload]
    dsimp only
    split_ifs
    · exact .refl dev
    · exact .refl dev
    · exact setRow_sameWait dev rfl
  | setEventq on => exact h.sameWait ⟨rfl,rfl,fun _ => rfl⟩

theorem dispatchSignaledCb_of_ne {j : ℕ} (hj : j ≠ obj) (status : FenceState) :
    (dispatchSignaledCb dev obj status).table j = dev.table j := by
  rw [dispatchSignaledCb]
  by_cases hs : (dev.table obj).state = .invalid
  · rw [if_pos hs]
  · rw [if_neg hs]
    exact Function.update_of_ne hj ..

theorem signalParent_of_ne {j p : ℕ} (hj : j ≠ p) (st : FenceState) :
    (signalParent st dev p).table j = dev.table j := by
  obtain ⟨row,-,heq | ⟨st',heq⟩⟩ := signalParent_cases st dev p
  · rw [heq,setRow_table,Function.update_of_ne hj]
  · rw [heq,dispatchSignaledCb_of_ne hj,setRow_table,Function.update_of_ne hj]

theorem foldl_signalParent_of_notMem (st : FenceState) {j : ℕ} {ps : List ℕ} (hj : j ∉ ps)
    (dev : SyncDev) : (ps.foldl (signalParent st) dev).table j = dev.table j := by
  induction ps generalizing dev with
  | nil => rfl
  | cons p ps ih =>
    rw [List.mem_cons,not_or] at hj
    exact (ih hj.2 _).trans (signalParent_of_ne hj.1 st)

/-- Only groups hear of the signal of another row. -/
theorem Inv.notMem_parents (h : Inv dev) (hactive : (dev.table obj).state = .active) {j : ℕ}
    (hj : (dev.table j).type = .indv) : j ∉ (dev.table obj).parentsList := by
  intro hmem
  have hgroup := (h.links.parents obj j (by rw [hactive]; decide) hmem).2.1
  rw [hj] at hgroup
  cases hgroup

theorem signal_of_ne (h : Inv dev) {status j : ℕ} (hj : (dev.table j).type = .indv)
    (hne : j ≠ obj) : (camSyncSignal dev obj status).1.table j = dev.table j := by
  rcases camSyncSignal_cases dev obj status with
    heq | ⟨refCnt,heq⟩ | ⟨st,row,events,-,-,hactive,-,-,heq⟩
  · rw [heq]
  · rw [heq,setRow_table,Function.update_of_ne hne]
  · rw [heq,foldl_signalParent_of_notMem st (h.notMem_parents hactive hj)]
    exact Function.update_of_ne hne ..

theorem signal_type (h : Inv dev) (status j : ℕ) :
    ((camSyncSignal dev obj status).1.table j).type = (dev.table j).type := by
  have hset : ∀ row : Row, row.type = (dev.table obj).type →
      ((dev.setRow obj row).table j).type = (dev.table j).type := by
    intro row hrow
    rw [setRow_table]
    exact update_keeps Row.type hrow j
  rcases camSyncSignal_cases dev obj status with
    heq | ⟨refCnt,heq⟩ | ⟨st,row,events,hst,htype,hactive,hrow,-,heq⟩
  · rw [heq]
  · rw [heq]
    exact hset _ rfl
  · have htells := (foldl_signalParent hst _ _ (h.owing htype hactive hst row hrow events)).2
    rw [heq]
    exact (htells.rows j).type.trans (hset row (by rw [hrow]))

/-- A signal completes an active fence that has one reference, and otherwise takes one. -/
theorem signal_error_self (h : Inv dev) (hrange : ¬ (obj = 0 ∨ maxObjs ≤ obj))
    (htype : (dev.table obj).type = .indv) (hactive : (dev.table obj).state = .active) :
    ((camSyncSignal dev obj 3).1.table obj).state =
      if (dev.table obj).refCnt = 1 then .signaledError else .active := by
  have hstatus : FenceState.ofStatus 3 = some .signaledError := rfl
  have hgroup : ¬ (dev.table obj).type = .group := by
    rw [htype]
    decide
  have hvalid : ¬ (dev.table obj).state = .invalid := by
    rw [hactive]
    decide
  rw [camSyncSignal,if_neg hrange]
  dsimp only
  rw [if_neg hvalid,if_neg hgroup,if_neg (not_not.mpr hactive),hstatus]
  dsimp only
  by_cases hone : (dev.table obj).refCnt = 1
  · rw [if_neg (by omega),if_pos hone]
    have hset : ((dev.setRow obj
        { dev.table obj with refCnt := 0, state := .signaledError }).table obj).state ≠
        .invalid := by
      simp
    rw [dispatchSignaledCb_eq hset .signaledError]
    simp only [setRow_table,Function.update_self,Function.update_idem]
    rw [foldl_signalParent_of_notMem _ (h.notMem_parents hactive htype)]
    simp only [setRow_table,Function.update_self]
  · rw [if_pos (by omega),if_neg hone,setRow_table,Function.update_self]
    exact hactive

theorem mem_allObjs {i : ℕ} : i ∈ allObjs ↔ ¬ (i = 0 ∨ maxObjs ≤ i) := by
  rw [allObjs,List.mem_range'_1,maxObjs]
  omega

/-- The signaling loop after it has visited the rows of `l`. -/
structure Signaled (dev dev' : SyncDev) (l : List ℕ) : Prop where
  inv : Inv dev'
  wait : SameWait dev dev'
  type : ∀ j, (dev'.table j).type = (dev.table j).type
  rest : ∀ j, j ∉ l → (dev.table j).type = .indv → dev'.table j = dev.table j
  active : ∀ j ∈ l, (dev.table j).type = .indv → (dev.table j).state = .active →
    (dev'.table j).state = if (dev.table j).refCnt = 1 then .signaledError else .active
  other : ∀ j ∈ l, (dev.table j).type = .indv → (dev.table j).state ≠ .active →
    dev'.table j = dev.table j

theorem closeSignal_signaled {s : SyncDev × ℤ} (h : Inv s.1) {i : ℕ} (hi : i ∈ allObjs) :
    Signaled s.1 (closeSignal s i).1 [i] := by
  rw [closeSignal]
  by_cases hactive : (s.1.table i).state = .active
  · rw [if_pos hactive]
    refine ⟨signal_inv h i 3,signal_sameWait s.1 i 3,signal_type h 3,fun j hj ht => ?_,
      fun j hj ht _ => ?_,fun j hj _ hs => ?_⟩
    · exact signal_of_ne h ht (fun hji => hj (List.mem_singleton.mpr hji))
    · obtain rfl := List.mem_singleton.mp hj
      exact signal_error_self h (mem_allObjs.mp hi) ht hactive
    · obtain rfl := List.mem_singleton.mp hj
      exact absurd hactive hs
  · rw [if_neg hactive]
    refine ⟨h,.refl s.1,fun _ => rfl,fun _ _ _ => rfl,fun j hj _ hs => ?_,fun _ _ _ _ => rfl⟩
    obtain rfl := List.mem_singleton.mp hj
    exact absurd hs hactive

/-- Each row is visited once, and signals of other rows leave an individual row alone. -/
theorem foldl_closeSignal {s : SyncDev × ℤ} (h : Inv s.1) {l : List ℕ}
    (hl : ∀ i ∈ l, i ∈ allObjs) (hnodup : l.Nodup) :
    Signaled s.1 (l.foldl closeSignal s).1 l := by
  induction l generalizing s with
  | nil =>
    exact ⟨h,.refl s.1,fun _ => rfl,fun _ _ _ => rfl,(fun _ hj => by cases hj),
      fun _ hj => by cases hj⟩
  | cons i l ih =>
    have hfirst := closeSignal_signaled h (hl i (List.mem_cons_self ..))
    obtain ⟨hi,hnodup⟩ := List.nodup_cons.mp hnodup
    have hrest := ih hfirst.inv (fun j hj => hl j (List.mem_cons_of_mem i hj)) hnodup
    have htype : ∀ {j}, (s.1.table j).type = .indv →
        ((closeSignal s i).1.table j).type = .indv := fun ht => (hfirst.type _).trans ht
    have hsame : ∀ {j}, j ≠ i → (s.1.table j).type = .indv →
        (closeSignal s i).1.table j = s.1.table j := fun hj ht =>
      hfirst.rest _ (fun hmem => hj (List.mem_singleton.mp hmem)) ht
    refine ⟨hrest.inv,hfirst.wait.trans hrest.wait,fun j => (hrest.type j).trans (hfirst.type j),
      fun j hj ht => ?_,fun j hj ht hs => ?_,fun j hj ht hs => ?_⟩
    · rw [List.mem_cons,not_or] at hj
      exact (hrest.rest j hj.2 (htype ht)).trans (hsame hj.1 ht)
    · rcases List.mem_cons.mp hj with rfl | hmem
      · have hself := hfirst.active j (List.mem_singleton_self j) ht hs
        have hkept := hrest.rest j hi (htype ht)
        exact (congrArg Row.state hkept).trans hself
      · have hne : j ≠ i := fun hji => hi (hji ▸ hmem)
        have hrow := hsame hne ht
        have hh := hrest.active j hmem (htype ht) (by rw [hrow]; exact hs)
        rwa [hrow] at hh
    · rcases List.mem_cons.mp hj with rfl | hmem
      · exact (hrest.rest j hi (htype ht)).trans (hfirst.other j (List.mem_singleton_self j) ht hs)
      · have hne : j ≠ i := fun hji => hi (hji ▸ hmem)
        have hrow := hsame hne ht
        have hh := hrest.other j hmem (htype ht) (by rw [hrow]; exact hs)
        exact hh.trans hrow

theorem destroy_of_ne {j : ℕ} (hne : j ≠ obj) :
    ((camSyncDestroy dev obj).1.table j).state = (dev.table j).state := by
  rw [camSyncDestroy]
  dsimp only
  split_ifs
  · rfl
  · rfl
  · refine ((putWaitRef_rows _ obj).1 j hne).state.trans ?_
    rw [setRow_table,Function.update_of_ne hne]

/-- The destroy loop after it has visited the rows of `l`. -/
structure Destroyed (dev dev' : SyncDev) (l : List ℕ) : Prop where
  inv : Inv dev'
  held : Held dev'
  gone : ∀ j ∈ l, (dev'.table j).state = .invalid
  kept : ∀ j, (dev.table j).state = .invalid → (dev'.table j).state = .invalid

theorem closeDestroy_destroyed {s : SyncDev × ℤ} (h : Inv s.1) (hheld : Held s.1) {i : ℕ}
    (hi : i ∈ allObjs) : Destroyed s.1 (closeDestroy s i).1 [i] := by
  rw [closeDestroy]
  by_cases hs : (s.1.table i).state ≠ .invalid
  · rw [if_pos hs]
    refine ⟨destroy_inv h i,destroy_held h hheld i,fun j hj => ?_,fun j hj => ?_⟩
    · obtain rfl := List.mem_singleton.mp hj
      exact destroy_invalid (mem_allObjs.mp hi) hs
    · have hne : j ≠ i := by
        rintro rfl
        exact hs hj
      exact (destroy_of_ne hne).trans hj
  · rw [if_neg hs]
    refine ⟨h,hheld,fun j hj => ?_,fun _ hj => hj⟩
    obtain rfl := List.mem_singleton.mp hj
    exact not_not.mp hs

theorem foldl_closeDestroy {s : SyncDev × ℤ} (h : Inv s.1) (hheld : Held s.1) {l : List ℕ}
    (hl : ∀ i ∈ l, i ∈ allObjs) : Destroyed s.1 (l.foldl closeDestroy s).1 l := by
  induction l generalizing s with
  | nil => exact ⟨h,hheld,(fun _ hj => by cases hj),fun _ hj => hj⟩
  | cons i l ih =>
    have hfirst := closeDestroy_destroyed h hheld (hl i (List.mem_cons_self ..))
    have hrest := ih hfirst.inv hfirst.held fun j hj => hl j (List.mem_cons_of_mem i hj)
    refine ⟨hrest.inv,hrest.held,fun j hj => ?_,fun j hj => hrest.kept j (hfirst.kept j hj)⟩
    rcases List.mem_cons.mp hj with rfl | hmem
    · exact hrest.kept j (hfirst.gone j (List.mem_singleton_self j))
    · exact hrest.gone j hmem

/-- An invalid row in use is pinned by a waiter. -/
theorem Held.free (hheld : Held dev) (h : Inv dev) {i : ℕ} (h0 : i ≠ 0)
    (hs : (dev.table i).state = .invalid) (hwait : dev.waiters i = 0) : dev.bitmap i = false := by
  by_contra hbit
  rw [Bool.not_eq_false] at hbit
  exact hheld i h0 hbit (((h.rows i).zombie hs hbit).trans hwait)

theorem probe_held (eventq trigger : Bool) : Held (probe eventq trigger) := by
  intro i h0 hbit
  exact absurd (of_decide_eq_true hbit) h0

theorem run_held (eventq trigger : Bool) (ops : List Op) :
    Inv (Runs.run step (probe eventq trigger) ops) ∧
      Held (Runs.run step (probe eventq trigger) ops) := by
  have hstep : ∀ dev op, Inv dev ∧ Held dev → Inv (step dev op) ∧ Held (step dev op) :=
    fun _ op h => ⟨step_inv h.1 op,step_held h.1 h.2 op⟩
  exact Runs.run_invariant hstep ⟨probe_inv eventq trigger,probe_held eventq trigger⟩ ops

theorem dropEventq_table (dev : SyncDev) : dev.dropEventq.table = dev.table := rfl

theorem dropEventq_bitmap (dev : SyncDev) : dev.dropEventq.bitmap = dev.bitmap := rfl

theorem dropEventq_waiters (dev : SyncDev) : dev.dropEventq.waiters = dev.waiters := rfl

theorem camSyncClose_eq (dev : SyncDev) : (camSyncClose dev 1).1 =
    (allObjs.foldl closeDestroy (signalLoop dev allObjs)).1.dropEventq := by
  have hlast : (1 : ℤ)-1 = 0 := by decide
  rw [camSyncClose,if_pos hlast]

theorem signalLoop_signaled (h : Inv dev) : Signaled dev (signalLoop dev allObjs).1 allObjs :=
  foldl_closeSignal (s := (dev,0)) h (fun _ hj => hj) (List.nodup_range' ..)

/-- Whatever the reference counts, the release frees every row that no thread waits for. -/
theorem camSyncClose_free (h : Inv dev) (hheld : Held dev) {i : ℕ} (hi : i ∈ allObjs)
    (hwait : (camSyncClose dev 1).1.waiters i = 0) :
    ((camSyncClose dev 1).1.table i).state = .invalid ∧
      (camSyncClose dev 1).1.bitmap i = false := by
  have hsig := signalLoop_signaled h
  have hdes := foldl_closeDestroy hsig.inv (hheld.sameWait hsig.wait) fun _ hj => hj
  rw [camSyncClose_eq,dropEventq_waiters] at hwait
  rw [camSyncClose_eq,dropEventq_table,dropEventq_bitmap]
  have h0 : i ≠ 0 := fun h0 => mem_allObjs.mp hi (Or.inl h0)
  have hinvalid := hdes.gone i hi
  exact ⟨hinvalid,hdes.held.free hdes.inv h0 hinvalid hwait⟩

/-- In every reachable table the release of the last handle terminates every fence exactly when
each individual fence that is still active has one reference. -/
theorem closesAll_iff (eventq trigger : Bool) (ops : List Op) :
    ClosesAll (Runs.run step (probe eventq trigger) ops) ↔
      OneRef (Runs.run step (probe eventq trigger) ops) := by
  obtain ⟨h,hheld⟩ := run_held eventq trigger ops
  generalize Runs.run step (probe eventq trigger) ops = dev at h hheld ⊢
  have hsig := signalLoop_signaled h
  constructor
  · intro hc i hi htype hactive
    have herror := hc.error i hi htype hactive
    rw [hsig.active i hi htype hactive] at herror
    by_contra hone
    rw [if_neg hone] at herror
    cases herror
  · intro hone
    have herror : ∀ i ∈ allObjs, (dev.table i).type = .indv → (dev.table i).state = .active →
        ((signalLoop dev allObjs).1.table i).state = .signaledError := fun i hi ht hs => by
      rw [hsig.active i hi ht hs,if_pos (hone i hi ht hs)]
    refine ⟨fun i hi ht => ?_,herror,fun i hi hwait => camSyncClose_free h hheld hi hwait⟩
    rw [hsig.type] at ht
    by_cases hs : (dev.table i).state = .active
    · rw [herror i hi ht hs]
      decide
    · rw [hsig.other i hi ht hs]
      exact hs

/-- A fence that has just been created has no reference, so the release does not signal it. -/
theorem not_closesAll_created : ¬ ClosesAll (Runs.run step (probe true false) [.create]) := by
  intro hc
  have hactive : ((Runs.run step (probe true false) [.create]).table 1).state = .active := by
    decide
  have herror := hc.error 1 (mem_allObjs.mpr (by decide)) (by decide) hactive
  have hsig := signalLoop_signaled (run_inv true false [.create])
  rw [hsig.active 1 (mem_allObjs.mpr (by decide)) (by decide) hactive,if_neg (by decide)] at herror
  cases herror

/-- A loop of calls is a run. -/
theorem foldl_run {f : SyncDev × ℤ → ℕ → SyncDev × ℤ}
    (hf : ∀ s i, ∃ ops, (f s i).1 = Runs.run step s.1 ops) (l : List ℕ) (s : SyncDev × ℤ) :
    ∃ ops, (l.foldl f s).1 = Runs.run step s.1 ops := by
  induction l generalizing s with
  | nil => exact ⟨[],rfl⟩
  | cons i l ih =>
    obtain ⟨ops,hops⟩ := hf s i
    obtain ⟨ops',hops'⟩ := ih (f s i)
    refine ⟨ops++ops',?_⟩
    rw [List.foldl_cons,hops',hops,Runs.run_append]

/-- A release is a run of signals and destroys, so what is reachable by runs is reachable also
when the device has been closed and opened in between. -/
theorem camSyncClose_run (dev : SyncDev) (openCnt : ℤ) :
    ∃ ops, (camSyncClose dev openCnt).1 = Runs.run step dev ops := by
  have hsig : ∀ s i, ∃ ops, (closeSignal s i).1 = Runs.run step s.1 ops := by
    intro s i
    rw [closeSignal]
    split_ifs
    · exact ⟨[.signal i 3],rfl⟩
    · exact ⟨[],rfl⟩
  have hdes : ∀ s i, ∃ ops, (closeDestroy s i).1 = Runs.run step s.1 ops := by
    intro s i
    rw [closeDestroy]
    split_ifs
    · exact ⟨[.destroy i],rfl⟩
    · exact ⟨[],rfl⟩
  rw [camSyncClose]
  by_cases hlast : openCnt-1 = 0
  · rw [if_pos hlast]
    obtain ⟨ops,hops⟩ := foldl_run hsig allObjs (dev,0)
    obtain ⟨ops',hops'⟩ := foldl_run hdes allObjs (signalLoop dev allObjs)
    have hloop : (signalLoop dev allObjs).1 = Runs.run step dev ops := hops
    refine ⟨ops++ops'++[.setEventq false],?_⟩
    rw [Runs.run_append,Runs.run_append,← hloop,← hops']
    rfl
  · rw [if_neg hlast]
    exact ⟨[.setEventq false],rfl⟩

end CamSync
end MarbleModules
