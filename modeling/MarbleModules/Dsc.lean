import Mathlib.Logic.Function.Basic
import Mathlib.Data.List.Basic
import MarbleModules.Runs

/-! The driver synchronization core: transitions and operations on a tree of one driver, its
psocs and their vdevs. Every critical section under the driver lock is one transition; a
call of `wait_for_ops` is a sequence of them. -/
namespace MarbleModules
namespace Dsc

/-- `QDF_STATUS`, as far as the core returns it. -/
inductive Status
  | success | eInval | eAgain | eBusy | eAborted
  deriving DecidableEq

/-- A node of the tree. A vdev names the psoc it points to; numbers stand for addresses and
are not used again. -/
inductive Node
  | driver
  | psoc (p : ℕ)
  | vdev (p v : ℕ)
  deriving DecidableEq

/-- `struct dsc_tran`. `uid` is the queued call itself. -/
structure Tran where
  uid : ℕ
  desc : ℕ
  deriving DecidableEq

/-- `struct dsc_trans`. `epoch` is a history variable: the number of transitions started. -/
structure Trans where
  activeDesc : Option ℕ
  queue : List Tran
  epoch : ℕ
  deriving DecidableEq

/-- `struct dsc_ops` -/
structure Ops where
  count : ℕ
  event : Bool
  deriving DecidableEq

/-- Where a thread is in `wait_for_ops`: the node it was called on with the transition held
there, and the node of the current recursive call. -/
inductive WaitCall
  | idle
  | testing (root : Node) (epoch : ℕ) (cur : Node)
  | blocked (root : Node) (epoch : ℕ) (cur : Node)
  | leaving (root : Node) (epoch : ℕ) (cur : Node)
  | returned (root : Node) (epoch : ℕ)
  deriving DecidableEq

/-- `qdf_is_recovering` and `qdf_is_driver_unloading` during one call -/
structure Flags where
  recovering : Bool
  unloading : Bool

/-- The tree with its lists in order of creation, the calls of `wait_for_ops`, and as history
variables the waiters queued at and released from each node. -/
structure Ctx where
  alive : Bool
  psocs : List ℕ
  vdevs : ℕ → List ℕ
  trans : Node → Trans
  ops : Node → Ops
  calls : ℕ → WaitCall
  nextNode : ℕ
  nextTran : ℕ
  queued : Node → List Tran
  released : Node → List (Tran × Status)

/-- `__dsc_trans_init` -/
def transInit : Trans := { activeDesc := none, queue := [], epoch := 0 }

/-- `__dsc_ops_init` -/
def opsInit : Ops := { count := 0, event := false }

/-- After `dsc_driver_create` -/
def driverCreate : Ctx where
  alive := true
  psocs := []
  vdevs := fun _ => []
  trans := fun _ => transInit
  ops := fun _ => opsInit
  calls := fun _ => .idle
  nextNode := 0
  nextTran := 0
  queued := fun _ => []
  released := fun _ => []

namespace Ctx

def setTrans (s : Ctx) (n : Node) (t : Trans) : Ctx :=
  { s with trans := Function.update s.trans n t }

def setOps (s : Ctx) (n : Node) (o : Ops) : Ctx :=
  { s with ops := Function.update s.ops n o }

def setCall (s : Ctx) (i : ℕ) (c : WaitCall) : Ctx :=
  { s with calls := Function.update s.calls i c }

end Ctx

/-- `__dsc_trans_start`; the debug timer always starts. -/
def transStart (t : Trans) (desc : ℕ) : Trans :=
  { t with activeDesc := some desc, epoch := t.epoch+1 }

/-- `__dsc_trans_stop` -/
def transStop (t : Trans) : Trans := { t with activeDesc := none }

/-- `__dsc_trans_active`, `__dsc_trans_queued` and `__dsc_trans_active_or_queued` -/
def transActive (t : Trans) : Bool := t.activeDesc.isSome
def transQueued (t : Trans) : Bool := !t.queue.isEmpty
def transActiveOrQueued (t : Trans) : Bool := transActive t || transQueued t

/-- `__dsc_trans_queue` -/
def transQueue (s : Ctx) (n : Node) (desc : ℕ) : Ctx :=
  { s.setTrans n { s.trans n with queue := (s.trans n).queue ++ [⟨s.nextTran,desc⟩] } with
    nextTran := s.nextTran+1
    queued := Function.update s.queued n (s.queued n ++ [⟨s.nextTran,desc⟩]) }

/-- `__dsc_trans_abort` -/
def transAbort (s : Ctx) (n : Node) : Ctx × Bool :=
  match (s.trans n).queue with
  | [] => (s,false)
  | tran::rest =>
    ({ s.setTrans n { s.trans n with queue := rest } with
        released := Function.update s.released n (s.released n ++ [(tran,.eAborted)]) },true)

/-- `__dsc_trans_trigger` -/
def transTrigger (s : Ctx) (n : Node) : Ctx × Bool :=
  match (s.trans n).queue with
  | [] => (s,false)
  | tran::rest =>
    ({ s.setTrans n (transStart { s.trans n with queue := rest } tran.desc) with
        released := Function.update s.released n (s.released n ++ [(tran,.success)]) },true)

/-- `__dsc_driver_trans_active_down_tree` -/
def driverTransActiveDownTree (s : Ctx) : Bool :=
  s.psocs.any fun p => transActive (s.trans (.psoc p)) ||
    (s.vdevs p).any fun v => transActive (s.trans (.vdev p v))

/-- `__dsc_driver_can_trans`, also used as `__dsc_driver_can_op` -/
def driverCanTrans (s : Ctx) : Bool :=
  !transActiveOrQueued (s.trans .driver) && !driverTransActiveDownTree s

/-- `__dsc_driver_can_trigger` -/
def driverCanTrigger (s : Ctx) : Bool :=
  !transActive (s.trans .driver) && !driverTransActiveDownTree s

/-- `__dsc_psoc_trans_active_down_tree` -/
def psocTransActiveDownTree (s : Ctx) (p : ℕ) : Bool :=
  (s.vdevs p).any fun v => transActive (s.trans (.vdev p v))

/-- `__dsc_psoc_can_trans`, also used as `__dsc_psoc_can_op` -/
def psocCanTrans (s : Ctx) (p : ℕ) : Status :=
  if transActiveOrQueued (s.trans .driver) then .eInval
  else if transActiveOrQueued (s.trans (.psoc p)) || psocTransActiveDownTree s p then .eAgain
  else .success

/-- `__dsc_psoc_can_trigger` -/
def psocCanTrigger (s : Ctx) (p : ℕ) : Bool :=
  !transActiveOrQueued (s.trans .driver) && !transActive (s.trans (.psoc p)) &&
    !psocTransActiveDownTree s p

/-- `__dsc_vdev_can_trans`, also used as `__dsc_vdev_can_op` -/
def vdevCanTrans (s : Ctx) (fl : Flags) (p v : ℕ) : Status :=
  if transActiveOrQueued (s.trans .driver) then .eInval
  else if fl.recovering then .eInval
  else if transActiveOrQueued (s.trans (.psoc p)) then
    if fl.unloading then .eInval else .eBusy
  else if transActiveOrQueued (s.trans (.vdev p v)) then .eBusy
  else .success

/-- What a node's own check answers. -/
def canTrans (s : Ctx) (fl : Flags) : Node → Status
  | .driver => if driverCanTrans s then .success else .eAgain
  | .psoc p => psocCanTrans s p
  | .vdev p v => vdevCanTrans s fl p v

/-- `__dsc_driver_trans_start`, `__dsc_psoc_trans_start` and `__dsc_vdev_trans_start` -/
def nodeTransStart (s : Ctx) (fl : Flags) (n : Node) (desc : ℕ) : Ctx × Status :=
  if canTrans s fl n ≠ .success then (s,canTrans s fl n)
  else (s.setTrans n (transStart (s.trans n) desc),.success)

/-- `__dsc_driver_trans_start_wait` up to the point where it sleeps; no status means that the
call has been queued. -/
def driverTransStartWait (s : Ctx) (fl : Flags) (desc : ℕ) : Ctx × Option Status :=
  match nodeTransStart s fl .driver desc with
  | (s',.success) => (s',some .success)
  | _ => (transQueue s .driver desc,none)

/-- `__dsc_psoc_trans_start_wait` and `__dsc_vdev_trans_start_wait` up to that point -/
def childTransStartWait (s : Ctx) (fl : Flags) (n : Node) (desc : ℕ) : Ctx × Option Status :=
  match nodeTransStart s fl n desc with
  | (s',.success) => (s',some .success)
  -- a transition above the node is not waited for
  | (s',.eInval) => (s',some .eInval)
  | _ => (transQueue s n desc,none)

def nodeTransStartWait (s : Ctx) (fl : Flags) : Node → ℕ → Ctx × Option Status
  | .driver, desc => driverTransStartWait s fl desc
  | .psoc p, desc => childTransStartWait s fl (.psoc p) desc
  | .vdev p v, desc => childTransStartWait s fl (.vdev p v) desc

/-- `__dsc_driver_trans_trigger_checked` -/
def driverTransTriggerChecked (s : Ctx) : Ctx × Bool :=
  if transQueued (s.trans .driver) = false then (s,false)
  else if driverCanTrigger s = false then (s,true)
  else transTrigger s .driver

/-- `__dsc_psoc_trans_trigger_checked` -/
def psocTransTriggerChecked (s : Ctx) (p : ℕ) : Ctx × Bool :=
  if transQueued (s.trans (.psoc p)) = false then (s,false)
  else if psocCanTrigger s p = false then (s,true)
  else transTrigger s (.psoc p)

/-- The vdev loop of `__dsc_driver_trigger_trans` and `__dsc_psoc_trigger_trans` -/
def triggerVdevs (s : Ctx) (p : ℕ) : Ctx :=
  (s.vdevs p).foldl (fun s v => (transTrigger s (.vdev p v)).1) s

/-- `__dsc_driver_trigger_trans` -/
def driverTriggerTrans (s : Ctx) : Ctx :=
  let r := transTrigger s .driver
  if r.2 then r.1
  else
    s.psocs.foldl (fun s p =>
      let r := transTrigger s (.psoc p)
      if r.2 then r.1 else triggerVdevs s p) s

/-- `__dsc_psoc_trigger_trans` -/
def psocTriggerTrans (s : Ctx) (p : ℕ) : Ctx :=
  let r := driverTransTriggerChecked s
  if r.2 then r.1
  else
    let r := transTrigger s (.psoc p)
    if r.2 then r.1 else triggerVdevs s p

/-- `__dsc_vdev_trigger_trans` -/
def vdevTriggerTrans (s : Ctx) (p v : ℕ) : Ctx :=
  let r := driverTransTriggerChecked s
  if r.2 then r.1
  else
    let r := psocTransTriggerChecked s p
    if r.2 then r.1 else (transTrigger s (.vdev p v)).1

/-- `__dsc_driver_trans_stop`, `__dsc_psoc_trans_stop` and `__dsc_vdev_trans_stop` -/
def nodeTransStop (s : Ctx) (n : Node) : Ctx :=
  let s' := s.setTrans n (transStop (s.trans n))
  match n with
  | .driver => driverTriggerTrans s'
  | .psoc p => psocTriggerTrans s' p
  | .vdev p v => vdevTriggerTrans s' p v

/-- `__dsc_driver_op_start`, `__dsc_psoc_op_start` and `__dsc_vdev_op_start` -/
def nodeOpStart (s : Ctx) (fl : Flags) (n : Node) : Ctx × Status :=
  if canTrans s fl n ≠ .success then (s,canTrans s fl n)
  else (s.setOps n { s.ops n with count := (s.ops n).count+1 },.success)

/-- `__dsc_driver_op_stop` and its siblings: the last operation sets the event. -/
def nodeOpStop (s : Ctx) (n : Node) : Ctx :=
  let o := { s.ops n with count := (s.ops n).count-1 }
  s.setOps n (if o.count = 0 then { o with event := true } else o)

/-- `__dsc_psoc_create`: initialise the node and attach it. -/
def psocCreate (s : Ctx) (alloc : Bool) : Ctx :=
  if alloc = false then s
  else
    { (s.setTrans (.psoc s.nextNode) transInit).setOps (.psoc s.nextNode) opsInit with
      psocs := s.psocs ++ [s.nextNode]
      vdevs := Function.update s.vdevs s.nextNode []
      nextNode := s.nextNode+1 }

/-- `__dsc_vdev_create` -/
def vdevCreate (s : Ctx) (p : ℕ) (alloc : Bool) : Ctx :=
  if alloc = false then s
  else
    { (s.setTrans (.vdev p s.nextNode) transInit).setOps (.vdev p s.nextNode) opsInit with
      vdevs := Function.update s.vdevs p (s.vdevs p ++ [s.nextNode])
      nextNode := s.nextNode+1 }

/-- The locked section of the destroy functions, and `qdf_event_destroy` after it, which
wakes whoever still waits for the node's event. -/
def detach (s : Ctx) : Node → Ctx
  | .driver =>
    { s.setOps .driver { s.ops .driver with event := true } with alive := false }
  | .psoc p =>
    { s.setOps (.psoc p) { s.ops (.psoc p) with event := true } with psocs := s.psocs.erase p }
  | .vdev p v =>
    { s.setOps (.vdev p v) { s.ops (.vdev p v) with event := true } with
      vdevs := Function.update s.vdevs p ((s.vdevs p).erase v) }

/-- The entry of a list after `a`. Entries are added at the back only, so that it is the first
one created later, also when `a` has been taken out meanwhile. -/
def nextEntry (l : List ℕ) (a : ℕ) : Option ℕ := l.find? fun b => a < b

/-- `wait_for_ops` of psoc `p` has returned. -/
def waitAfterPsoc (s : Ctx) (root : Node) (epoch p : ℕ) : WaitCall :=
  if root = .driver then
    match nextEntry s.psocs p with
    | some p' => .testing root epoch (.psoc p')
    | none => .returned root epoch
  else .returned root epoch

/-- The node's own operations have been waited for; on to the nodes below it, or back. -/
def waitNext (s : Ctx) (root : Node) (epoch : ℕ) : Node → WaitCall
  | .driver =>
    match s.psocs.head? with
    | some p => .testing root epoch (.psoc p)
    | none => .returned root epoch
  | .psoc p =>
    match (s.vdevs p).head? with
    | some v => .testing root epoch (.vdev p v)
    | none => waitAfterPsoc s root epoch p
  | .vdev p v =>
    if root = .vdev p v then .returned root epoch
    else
      match nextEntry (s.vdevs p) v with
      | some v' => .testing root epoch (.vdev p v')
      | none => waitAfterPsoc s root epoch p

/-- One step of a thread inside `wait_for_ops`: the locked test of the count with the reset
of the event, the wait for the event, or the step to the next node. -/
def waitStep (s : Ctx) (i : ℕ) : Ctx :=
  match s.calls i with
  | .idle => s
  | .testing root epoch cur =>
    if 0 < (s.ops cur).count then
      (s.setOps cur { s.ops cur with event := false }).setCall i (.blocked root epoch cur)
    else s.setCall i (.leaving root epoch cur)
  | .blocked root epoch cur =>
    if (s.ops cur).event then s.setCall i (.leaving root epoch cur) else s
  | .leaving root epoch cur => s.setCall i (waitNext s root epoch cur)
  | .returned _ _ => s

/-- The calls, and the steps of a call that is not one critical section. Destroying a node is
a number of `abort` steps, until its queue is empty, and one `detach`. -/
inductive Op
  | psocCreate (alloc : Bool)
  | vdevCreate (p : ℕ) (alloc : Bool)
  | transStart (fl : Flags) (n : Node) (desc : ℕ)
  | transStartWait (fl : Flags) (n : Node) (desc : ℕ)
  | transStop (n : Node)
  | opStart (fl : Flags) (n : Node)
  | opStop (n : Node)
  | abort (n : Node)
  | detach (n : Node)
  | waitForOps (i : ℕ) (n : Node)
  | waitStep (i : ℕ)

def step (s : Ctx) : Op → Ctx
  | .psocCreate alloc => psocCreate s alloc
  | .vdevCreate p alloc => vdevCreate s p alloc
  | .transStart fl n desc => (nodeTransStart s fl n desc).1
  | .transStartWait fl n desc => (nodeTransStartWait s fl n desc).1
  | .transStop n => nodeTransStop s n
  | .opStart fl n => (nodeOpStart s fl n).1
  | .opStop n => nodeOpStop s n
  | .abort n => (transAbort s n).1
  | .detach n => detach s n
  | .waitForOps i n => s.setCall i (.testing n (s.trans n).epoch n)
  | .waitStep i => waitStep s i

/-- The node is in the tree. -/
def Exists (s : Ctx) : Node → Prop
  | .driver => s.alive = true
  | .psoc p => p ∈ s.psocs
  | .vdev p v => p ∈ s.psocs ∧ v ∈ s.vdevs p

instance decidableExists (s : Ctx) : ∀ n, Decidable (Exists s n)
  | .driver => inferInstanceAs (Decidable (s.alive = true))
  | .psoc p => inferInstanceAs (Decidable (p ∈ s.psocs))
  | .vdev p v => inferInstanceAs (Decidable (p ∈ s.psocs ∧ v ∈ s.vdevs p))

def Childless (s : Ctx) : Node → Prop
  | .driver => s.psocs = []
  | .psoc p => s.vdevs p = []
  | .vdev _ _ => True

instance decidableChildless (s : Ctx) : ∀ n, Decidable (Childless s n)
  | .driver => inferInstanceAs (Decidable (s.psocs = []))
  | .psoc p => inferInstanceAs (Decidable (s.vdevs p = []))
  | .vdev _ _ => isTrue trivial

/-- What callers owe: the node exists, a transition that is stopped is active, an operation
that is stopped has been started, and a node that is destroyed has no children (which the
destroy functions assert), no active transition and, when it is detached, no waiters. -/
def Legal (s : Ctx) : Op → Prop
  | .psocCreate _ => s.alive = true
  | .vdevCreate p _ => Exists s (.psoc p)
  | .transStart _ n _ => Exists s n
  | .transStartWait _ n _ => Exists s n
  | .transStop n => Exists s n ∧ transActive (s.trans n) = true
  | .opStart _ n => Exists s n
  | .opStop n => Exists s n ∧ 0 < (s.ops n).count
  | .abort n => Exists s n ∧ Childless s n ∧ transActive (s.trans n) = false
  | .detach n => Exists s n ∧ Childless s n ∧ transActive (s.trans n) = false ∧
      transQueued (s.trans n) = false
  | .waitForOps _ n => Exists s n
  | .waitStep _ => True

instance decidableLegal (s : Ctx) : ∀ op, Decidable (Legal s op)
  | .psocCreate _ => inferInstanceAs (Decidable (s.alive = true))
  | .vdevCreate p _ => inferInstanceAs (Decidable (Exists s (.psoc p)))
  | .transStart _ n _ => inferInstanceAs (Decidable (Exists s n))
  | .transStartWait _ n _ => inferInstanceAs (Decidable (Exists s n))
  | .transStop n => inferInstanceAs (Decidable (Exists s n ∧ transActive (s.trans n) = true))
  | .opStart _ n => inferInstanceAs (Decidable (Exists s n))
  | .opStop n => inferInstanceAs (Decidable (Exists s n ∧ 0 < (s.ops n).count))
  | .abort n => inferInstanceAs (Decidable (Exists s n ∧ Childless s n ∧
      transActive (s.trans n) = false))
  | .detach n => inferInstanceAs (Decidable (Exists s n ∧ Childless s n ∧
      transActive (s.trans n) = false ∧ transQueued (s.trans n) = false))
  | .waitForOps _ n => inferInstanceAs (Decidable (Exists s n))
  | .waitStep _ => isTrue trivial

end Dsc
end MarbleModules
