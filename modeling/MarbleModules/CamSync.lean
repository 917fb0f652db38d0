import Mathlib.Logic.Function.Basic
import Mathlib.Data.List.Basic
import Mathlib.Data.Int.Basic
import MarbleModules.Runs

/-! The fence table of the camera sync driver: rows, group fences, callbacks, user
payloads, waiters and deferred destruction. Each driver call is one transition;
`cam_sync_wait` is split where it sleeps. -/
namespace MarbleModules
namespace CamSync

/-- `CAM_SYNC_MAX_OBJS` -/
def maxObjs : ℕ := 2048

def einval : ℤ := 22
def enomem : ℤ := 12
def ealready : ℤ := 114
def enoent : ℤ := 2

/-- `CAM_SYNC_STATE_*` -/
inductive FenceState
  | invalid | active | signaledSuccess | signaledError | signaledCancel
  deriving DecidableEq

/-- `CAM_SYNC_TYPE_*` -/
inductive SyncType
  | indv | group
  deriving DecidableEq

namespace FenceState

def IsSignaled (s : FenceState) : Prop :=
  s = .signaledSuccess ∨ s = .signaledError ∨ s = .signaledCancel

instance (s : FenceState) : Decidable s.IsSignaled :=
  inferInstanceAs (Decidable (_ ∨ _))

/-- The signaled state a raw status word stands for; every other word is undefined. -/
def ofStatus : ℕ → Option FenceState
  | 2 => some .signaledSuccess
  | 3 => some .signaledError
  | 4 => some .signaledCancel
  | _ => none

end FenceState

/-- `struct sync_callback_info`. `uid` is the allocated node itself; `fence` is a history
variable naming the fence it was registered on. -/
structure Callback where
  func : ℕ
  data : ℕ
  syncObj : ℕ
  uid : ℕ
  fence : ℕ
  deriving DecidableEq

abbrev Payload := ℕ × ℕ

/-- A callback handed to the work queue, or invoked in place, with its status. -/
structure Dispatch where
  cb : Callback
  status : FenceState
  deriving DecidableEq

/-- A v4l2 event sent to user space. `fence` is a history variable. -/
structure Event where
  syncObj : ℕ
  status : FenceState
  payload : Payload
  fence : ℕ
  deriving DecidableEq

/-- A `cam_sync_wait` that returned without timing out, with the row state it read. -/
structure Wakeup where
  syncObj : ℕ
  status : FenceState
  fence : ℕ
  deriving DecidableEq

/-- `struct sync_table_row`. `fence` and `members` are history variables: the number of
the fence the row was initialised for, and the fences merged into a group. -/
structure Row where
  type : SyncType
  syncId : ℕ
  parentsList : List ℕ
  childrenList : List ℕ
  state : FenceState
  remaining : ℕ
  signaled : Bool
  callbackList : List Callback
  userPayloadList : List Payload
  refCnt : ℤ
  waitRefCnt : ℕ
  fence : ℕ
  members : List ℕ

/-- A row after `memset(row, 0, sizeof(*row))` and the list initialisers. -/
def zeroRow : Row where
  type := .indv
  syncId := 0
  parentsList := []
  childrenList := []
  state := .invalid
  remaining := 0
  signaled := false
  callbackList := []
  userPayloadList := []
  refCnt := 0
  waitRefCnt := 0
  fence := 0
  members := []

/-- `struct sync_device`, with the threads asleep in `cam_sync_wait` and, as history
variables, the fence and node counters, the status each fence was completed with, and the
logs of everything registered, delivered or freed. -/
structure SyncDev where
  table : ℕ → Row
  bitmap : ℕ → Bool
  camSyncEventq : Bool
  triggerCbWithoutSwitch : Bool
  waiters : ℕ → ℕ
  nextFence : ℕ
  nextUid : ℕ
  outcome : ℕ → Option FenceState
  registered : List Callback
  dispatched : List Dispatch
  events : List Event
  wakeups : List Wakeup
  deregistered : List Callback

/-- The device after probe: bit 0 is taken so that no fence has handle 0. -/
def probe (eventq trigger : Bool) : SyncDev where
  table := fun _ => zeroRow
  bitmap := fun i => decide (i = 0)
  camSyncEventq := eventq
  triggerCbWithoutSwitch := trigger
  waiters := fun _ => 0
  nextFence := 1
  nextUid := 0
  outcome := fun _ => none
  registered := []
  dispatched := []
  events := []
  wakeups := []
  deregistered := []

namespace SyncDev

def setRow (dev : SyncDev) (i : ℕ) (row : Row) : SyncDev :=
  { dev with table := Function.update dev.table i row }

def setBit (dev : SyncDev) (i : ℕ) (b : Bool) : SyncDev :=
  { dev with bitmap := Function.update dev.bitmap i b }

end SyncDev

/-- `find_first_zero_bit`, scanning `n` bits from `i` on. -/
def findFirstZeroBit (bitmap : ℕ → Bool) : ℕ → ℕ → Option ℕ
  | _, 0 => none
  | i, n+1 => if bitmap i then findFirstZeroBit bitmap (i+1) n else some i

/-- Enqueue (or, in place, invoke) a callback with a status. -/
def queueCb (dev : SyncDev) (cb : Callback) (status : FenceState) : SyncDev :=
  { dev with dispatched := dev.dispatched ++ [⟨cb,status⟩] }

/-- `cam_sync_util_send_v4l2_event` -/
def sendV4l2Event (dev : SyncDev) (obj : ℕ) (status : FenceState) (p : Payload) : SyncDev :=
  { dev with events := dev.events ++ [⟨obj,status,p,(dev.table obj).fence⟩] }

/-- `cam_sync_init_row` -/
def camSyncInitRow (dev : SyncDev) (idx : ℕ) (type : SyncType) : SyncDev × ℤ :=
  if idx = 0 ∨ maxObjs ≤ idx then (dev,-einval)
  else
    ({ dev with
        table := Function.update dev.table idx
          { zeroRow with
            type := type, syncId := idx, state := .active, waitRefCnt := 1,
            fence := dev.nextFence }
        nextFence := dev.nextFence+1 },0)

/-- `cam_sync_create`; the second result is the handle. -/
def camSyncCreate (dev : SyncDev) : SyncDev × ℤ × ℕ :=
  match findFirstZeroBit dev.bitmap 0 maxObjs with
  | none => (dev,-enomem,0)
  | some idx =>
    let r := camSyncInitRow (dev.setBit idx true) idx .indv
    if r.2 ≠ 0 then (r.1.setBit idx false,-einval,0) else (r.1,0,idx)

/-- `cam_sync_util_cleanup_parents_list` with `SYNC_LIST_CLEAN_ONE` -/
def cleanupParentsList (row : Row) (obj : ℕ) : Row :=
  { row with parentsList := row.parentsList.erase obj }

/-- `cam_sync_util_cleanup_children_list` with `SYNC_LIST_CLEAN_ONE` -/
def cleanupChildrenList (row : Row) (obj : ℕ) : Row :=
  { row with childrenList := row.childrenList.erase obj }

/-- `cam_sync_util_cleanup_children_list` with `SYNC_LIST_CLEAN_ALL` -/
def cleanupChildrenListAll (row : Row) : Row :=
  { row with childrenList := [] }

/-- `cam_sync_util_dispatch_signaled_cb` -/
def dispatchSignaledCb (dev : SyncDev) (obj : ℕ) (status : FenceState) : SyncDev :=
  let row := dev.table obj
  if row.state = .invalid then dev
  else
    { dev with
      table := Function.update dev.table obj
        { row with
          callbackList := []
          -- without an event queue the loop breaks and the payloads stay listed
          userPayloadList := if dev.camSyncEventq then [] else row.userPayloadList
          signaled := true }
      outcome := Function.update dev.outcome row.fence (some status)
      dispatched := dev.dispatched ++ row.callbackList.map (⟨·,status⟩)
      events := dev.events ++
        if dev.camSyncEventq then row.userPayloadList.map (⟨obj,status,·,row.fence⟩) else [] }

/-- `cam_sync_util_update_parent_state`; `none` is the error return. -/
def updateParentState (state newState : FenceState) : Option FenceState :=
  match state with
  | .active | .signaledSuccess => some newState
  | .signaledError | .signaledCancel => some state
  | .invalid => none

/-- `remaining--` on a `uint32_t` -/
def decRemaining (n : ℕ) : ℕ := (n + 4294967295) % 4294967296

/-- One iteration of the parent loop of `cam_sync_signal`. -/
def signalParent (status : FenceState) (dev : SyncDev) (p : ℕ) : SyncDev :=
  let row := { dev.table p with remaining := decRemaining (dev.table p).remaining }
  match updateParentState row.state status with
  | none => dev.setRow p row
  | some st =>
    let dev' := dev.setRow p { row with state := st }
    if row.remaining = 0 then dispatchSignaledCb dev' p st else dev'

/-- `cam_sync_signal` -/
def camSyncSignal (dev : SyncDev) (obj status : ℕ) : SyncDev × ℤ :=
  if obj = 0 ∨ maxObjs ≤ obj then (dev,-einval)
  else
    let row := dev.table obj
    if row.state = .invalid then (dev,-einval)
    else if row.type = .group then (dev,-einval)
    else if row.state ≠ .active then (dev,-ealready)
    else
      match FenceState.ofStatus status with
      | none => (dev,-einval)
      | some st =>
        if row.refCnt - 1 ≠ 0 then (dev.setRow obj { row with refCnt := row.refCnt - 1 },0)
        else
          let dev₁ := dispatchSignaledCb
            (dev.setRow obj { row with refCnt := 0, state := st }) obj st
          let parents := (dev₁.table obj).parentsList
          let dev₂ := dev₁.setRow obj { dev₁.table obj with parentsList := [] }
          (parents.foldl (signalParent st) dev₂,0)

/-- `cam_sync_check_valid` -/
def camSyncCheckValid (dev : SyncDev) (obj : ℕ) : Bool :=
  decide (obj ≠ 0) && decide (obj < maxObjs) && dev.bitmap obj &&
    decide ((dev.table obj).state ≠ .invalid)

/-- `cam_common_util_remove_duplicate_arr`: the distinct entries in first-occurrence
order; the C function returns their number. -/
def removeDuplicateArr (objs : List ℕ) : List ℕ :=
  objs.foldl (fun acc a => if a ∈ acc then acc else acc ++ [a]) []

/-- The child loop of `cam_sync_init_group_object`. `alloc i` tells whether the child and
the parent node of the `i`-th iteration can be allocated. The error result carries the
entries handled before the failing one, latest first, as the clean-up loop visits them. -/
def addChildren (idx : ℕ) (alloc : ℕ → Bool × Bool) :
    List ℕ → List ℕ → SyncDev → SyncDev × Option (ℤ × List ℕ)
  | _, [], dev => (dev,none)
  | done, c::cs, dev =>
    let child := dev.table c
    let row := dev.table idx
    if child.type = .group ∨ child.state = .invalid then (dev,some (-einval,done))
    else if child.state = .signaledError ∨ child.state = .signaledCancel then
      addChildren idx alloc (c::done) cs (dev.setRow idx { row with state := child.state })
    else if child.state ≠ .active then addChildren idx alloc (c::done) cs dev
    else
      let row₁ := { row with remaining := row.remaining+1 }
      if (alloc done.length).1 = false then (dev.setRow idx row₁,some (-enomem,done))
      else
        let row₂ := { row₁ with childrenList := row₁.childrenList ++ [c] }
        if (alloc done.length).2 = false then (dev.setRow idx row₂,some (-enomem,done))
        else
          addChildren idx alloc (c::done) cs
            ((dev.setRow idx row₂).setRow c
              { child with parentsList := child.parentsList ++ [idx] })

/-- `cam_sync_init_group_object` -/
def camSyncInitGroupObject (dev : SyncDev) (idx : ℕ) (objs : List ℕ)
    (alloc : ℕ → Bool × Bool) : SyncDev × ℤ :=
  let dev₀ := (camSyncInitRow dev idx .group).1
  let dev₁ := dev₀.setRow idx
    { dev₀.table idx with members := objs.map fun c => (dev₀.table c).fence }
  match addChildren idx alloc [] objs dev₁ with
  | (dev₂,none) =>
    let row := dev₂.table idx
    if row.remaining = 0 then
      let st := if row.state ≠ .signaledError ∧ row.state ≠ .signaledCancel
        then .signaledSuccess else row.state
      ({ dev₂.setRow idx { row with state := st, signaled := true } with
          outcome := Function.update dev₂.outcome row.fence (some st) },0)
    else (dev₂,0)
  | (dev₂,some (rc,done)) =>
    let dev₃ := dev₂.setRow idx { dev₂.table idx with state := .invalid }
    let dev₄ := done.foldl
      (fun d c => d.setRow c (cleanupParentsList (d.table c) idx)) dev₃
    (dev₄.setRow idx (cleanupChildrenListAll (dev₄.table idx)),rc)

/-- `cam_sync_merge`; the second result is the handle of the merged fence. -/
def camSyncMerge (dev : SyncDev) (objs : List ℕ) (alloc : ℕ → Bool × Bool) :
    SyncDev × ℤ × ℕ :=
  if objs.length ≤ 1 then (dev,-einval,0)
  else if (removeDuplicateArr objs).length ≠ objs.length then (dev,-einval,0)
  else if objs.all (camSyncCheckValid dev) = false then (dev,-einval,0)
  else
    match findFirstZeroBit dev.bitmap 0 maxObjs with
    | none => (dev,-enomem,0)
    | some idx =>
      let r := camSyncInitGroupObject (dev.setBit idx true) idx objs alloc
      if r.2 < 0 then (r.1.setBit idx false,-einval,0) else (r.1,0,idx)

/-- `cam_sync_get_obj_ref` -/
def camSyncGetObjRef (dev : SyncDev) (obj : ℕ) : SyncDev × ℤ :=
  if obj = 0 ∨ maxObjs ≤ obj then (dev,-einval)
  else if (dev.table obj).state ≠ .active then (dev,-einval)
  else (dev.setRow obj { dev.table obj with refCnt := (dev.table obj).refCnt + 1 },0)

/-- `cam_sync_put_obj_ref` -/
def camSyncPutObjRef (dev : SyncDev) (obj : ℕ) : SyncDev × ℤ :=
  if obj = 0 ∨ maxObjs ≤ obj then (dev,-einval)
  else (dev.setRow obj { dev.table obj with refCnt := (dev.table obj).refCnt - 1 },0)

/-- `cam_sync_deinit_object`, reached with an index that passed the callers' range check. -/
def camSyncDeinitObject (dev : SyncDev) (idx : ℕ) : SyncDev :=
  let row := dev.table idx
  let dev₁ := dev.setRow idx { row with childrenList := [], parentsList := [] }
  -- child to parent links; a child that is itself being destroyed keeps its own list
  let dev₂ := row.childrenList.foldl
    (fun d c => if (d.table c).state = .invalid then d
      else d.setRow c (cleanupParentsList (d.table c) idx)) dev₁
  let dev₃ := row.parentsList.foldl
    (fun d p => if (d.table p).state = .invalid then d
      else d.setRow p (cleanupChildrenList (d.table p) idx)) dev₂
  { dev₃ with
    table := Function.update dev₃.table idx zeroRow
    bitmap := Function.update dev₃.bitmap idx false
    events := dev₃.events ++
      (dev₃.table idx).userPayloadList.map (⟨idx,.signaledCancel,·,(dev₃.table idx).fence⟩)
    dispatched := dev₃.dispatched ++
      (dev₃.table idx).callbackList.map (⟨·,.signaledCancel⟩) }

/-- `cam_sync_put_wait_ref` -/
def camSyncPutWaitRef (dev : SyncDev) (obj : ℕ) : SyncDev :=
  let row := dev.table obj
  let dev' := dev.setRow obj { row with waitRefCnt := row.waitRefCnt - 1 }
  if row.waitRefCnt = 1 then camSyncDeinitObject dev' obj else dev'

/-- `cam_sync_destroy` -/
def camSyncDestroy (dev : SyncDev) (obj : ℕ) : SyncDev × ℤ :=
  if obj = 0 ∨ maxObjs ≤ obj then (dev,-einval)
  else
    let row := dev.table obj
    if row.state = .invalid then (dev,-einval)
    else
      (camSyncPutWaitRef (dev.setRow obj { row with state := .invalid, signaled := true }) obj,0)

/-- `cam_sync_wait` up to the point where it sleeps: `cam_sync_get_wait_ref`. -/
def camSyncWaitBegin (dev : SyncDev) (obj : ℕ) : SyncDev × ℤ :=
  if obj = 0 ∨ maxObjs ≤ obj then (dev,-einval)
  else
    let row := dev.table obj
    if row.state = .invalid ∨ row.waitRefCnt = 0 then (dev,-einval)
    else
      ({ dev.setRow obj { row with waitRefCnt := row.waitRefCnt+1 } with
          waiters := Function.update dev.waiters obj (dev.waiters obj+1) },0)

/-- The rest of `cam_sync_wait` for one sleeping thread: it has timed out or its fence's
completion is done (otherwise it stays asleep), then it drops its reference. -/
def camSyncWaitEnd (dev : SyncDev) (obj : ℕ) (timedOut : Bool) : SyncDev :=
  let row := dev.table obj
  if dev.waiters obj = 0 ∨ (timedOut = false ∧ row.signaled = false) then dev
  else
    camSyncPutWaitRef
      { dev with
        waiters := Function.update dev.waiters obj (dev.waiters obj-1)
        wakeups := if timedOut then dev.wakeups
          else dev.wakeups ++ [⟨obj,row.state,row.fence⟩] } obj

/-- `cam_sync_register_callback` (with a non-null function) -/
def camSyncRegisterCallback (dev : SyncDev) (func data obj : ℕ) (alloc : Bool) :
    SyncDev × ℤ :=
  if obj = 0 ∨ maxObjs ≤ obj then (dev,-einval)
  else
    let row := dev.table obj
    if row.state = .invalid then (dev,-einval)
    else if alloc = false then (dev,-enomem)
    else
      let cb : Callback := ⟨func,data,obj,dev.nextUid,row.fence⟩
      let dev₁ :=
        { dev with nextUid := dev.nextUid+1, registered := dev.registered ++ [cb] }
      -- invoked in place or queued, according to `triggerCbWithoutSwitch`
      if row.state.IsSignaled ∧ row.remaining = 0 then (queueCb dev₁ cb row.state,0)
      else (dev₁.setRow obj { row with callbackList := row.callbackList ++ [cb] },0)

/-- `cam_sync_deregister_callback` -/
def camSyncDeregisterCallback (dev : SyncDev) (func data obj : ℕ) : SyncDev × ℤ :=
  if obj = 0 ∨ maxObjs ≤ obj then (dev,-einval)
  else
    let row := dev.table obj
    if row.state = .invalid then (dev,-einval)
    else
      let hit := fun cb : Callback => cb.func = func ∧ cb.data = data
      ({ dev.setRow obj { row with callbackList := row.callbackList.filter (¬ hit ·) } with
          deregistered := dev.deregistered ++ row.callbackList.filter (hit ·) },
        if row.callbackList.any (hit ·) then 0 else -enoent)

/-- `cam_sync_handle_register_user_payload` after its argument has been copied in -/
def camSyncHandleRegisterUserPayload (dev : SyncDev) (obj : ℕ) (p : Payload)
    (alloc : Bool) : SyncDev × ℤ :=
  if obj = 0 ∨ maxObjs ≤ obj then (dev,-einval)
  else if alloc = false then (dev,-enomem)
  else
    let row := dev.table obj
    if row.state = .invalid then (dev,-einval)
    -- unlike the callback path, `remaining` is not consulted here
    else if row.state.IsSignaled then (sendV4l2Event dev obj row.state p,0)
    else if p ∈ row.userPayloadList then (dev,-ealready)
    else (dev.setRow obj { row with userPayloadList := row.userPayloadList ++ [p] },0)

/-- `cam_sync_handle_deregister_user_payload` -/
def camSyncHandleDeregisterUserPayload (dev : SyncDev) (obj : ℕ) (p : Payload) :
    SyncDev × ℤ :=
  if obj = 0 ∨ maxObjs ≤ obj then (dev,-einval)
  else
    let row := dev.table obj
    if row.state = .invalid then (dev,-einval)
    else (dev.setRow obj { row with userPayloadList := row.userPayloadList.filter (· ≠ p) },0)

/-- The calls a client can make, in any order. -/
inductive Op
  | create
  | merge (objs : List ℕ) (alloc : ℕ → Bool × Bool)
  | getObjRef (obj : ℕ)
  | putObjRef (obj : ℕ)
  | signal (obj status : ℕ)
  | destroy (obj : ℕ)
  | waitBegin (obj : ℕ)
  | waitEnd (obj : ℕ) (timedOut : Bool)
  | registerCallback (func data obj : ℕ) (alloc : Bool)
  | deregisterCallback (func data obj : ℕ)
  | registerPayload (obj : ℕ) (p : Payload) (alloc : Bool)
  | deregisterPayload (obj : ℕ) (p : Payload)
  | setEventq (on : Bool)

def step (dev : SyncDev) : Op → SyncDev
  | .create => (camSyncCreate dev).1
  | .merge objs alloc => (camSyncMerge dev objs alloc).1
  | .getObjRef obj => (camSyncGetObjRef dev obj).1
  | .putObjRef obj => (camSyncPutObjRef dev obj).1
  | .signal obj status => (camSyncSignal dev obj status).1
  | .destroy obj => (camSyncDestroy dev obj).1
  | .waitBegin obj => (camSyncWaitBegin dev obj).1
  | .waitEnd obj timedOut => camSyncWaitEnd dev obj timedOut
  | .registerCallback func data obj alloc => (camSyncRegisterCallback dev func data obj alloc).1
  | .deregisterCallback func data obj => (camSyncDeregisterCallback dev func data obj).1
  | .registerPayload obj p alloc => (camSyncHandleRegisterUserPayload dev obj p alloc).1
  | .deregisterPayload obj p => (camSyncHandleDeregisterUserPayload dev obj p).1
  | .setEventq on => { dev with camSyncEventq := on }

end CamSync
end MarbleModules
