import MarbleModules.Runs

/-! The work queue of the camera request manager: a pool of tasks, a list of tasks to be processed
for each priority, the callers that take a task and enqueue it, the worker, and a thread that
flushes. A step is what one of them does between two points at which another can come in. -/
namespace MarbleModules
namespace CamWorkq

/-- `CRM_TASK_PRIORITY_MAX` -/
def crmTaskPriorityMax : ℕ := 2

/-- `struct crm_workq_task`, without its payload -/
structure Task where
  cancel : Bool
  processCb : Option ℕ
  priv : ℕ
  priority : ℕ
  deriving DecidableEq

/-- Where `cam_req_mgr_process_workq` is: at the lock in front of the list of a priority, or
behind it with a task of that list. -/
inductive Worker
  | idle
  | locks (i : ℕ)
  | took (i t : ℕ)
  | runs (i t : ℕ)
  | puts (i t : ℕ)
  deriving DecidableEq

/-- Where `cam_req_mgr_workq_flush` is; `cancels` is inside of `cancel_work_sync`. -/
inductive Flusher
  | idle | set | cancels | clears
  deriving DecidableEq

/-- A task as it was enqueued -/
structure Job where
  task : ℕ
  processCb : Option ℕ
  priv : ℕ
  priority : ℕ
  deriving DecidableEq

/-- `struct cam_req_mgr_core_workq` with the tasks that callers have taken: those not handed over
yet, those that have passed the check of `cam_req_mgr_workq_enqueue_task`, and those on their way
back. `queued` is the pending bit of the work. The last three are history: what has been
enqueued, what the worker has taken off a list and the callbacks it has called. -/
structure Workq where
  task : ℕ → Task
  emptyHead : List ℕ
  processHead : ℕ → List ℕ
  freeCnt : ℤ
  pendingCnt : ℤ
  flush : Bool
  job : Bool
  queued : Bool
  worker : Worker
  flusher : Flusher
  owned : List ℕ
  locking : List ℕ
  putting : List ℕ
  enqueued : List Job
  taken : List Job
  called : List Job

namespace Workq

def jobOf (w : Workq) (t : ℕ) : Job :=
  ⟨t,(w.task t).processCb,(w.task t).priv,(w.task t).priority⟩

/-- `queue_work`: nothing happens when the work is pending, and `cancel_work_sync` keeps it
pending. -/
def queueWork (w : Workq) : Workq :=
  if w.flusher = .cancels then w else { w with queued := true }

/-- `cam_req_mgr_workq_get_task` -/
def workqGetTask (w : Workq) : Workq :=
  match w.emptyHead with
  | [] => w
  | t::rest => { w with
      emptyHead := rest
      freeCnt := w.freeCnt-1
      owned := w.owned++[t] }

/-- A caller fills in a task it has taken, or asks for it to be put back. -/
def fillTask (w : Workq) (t : ℕ) (processCb : Option ℕ) (cancel : Bool) : Workq :=
  if t ∈ w.owned then
    { w with
      task := Function.update w.task t
        { w.task t with processCb := processCb, cancel := cancel } }
  else w

def priorityOf (prio : ℤ) : ℕ := if prio < 2 ∧ 0 ≤ prio then prio.toNat else 0

/-- `cam_req_mgr_workq_enqueue_task` up to its lock -/
def enqueueCheck (w : Workq) (t priv : ℕ) (prio : ℤ) : Workq :=
  if t ∈ w.owned then
    if (w.task t).cancel ∨ w.flush then
      { w with owned := w.owned.erase t, putting := w.putting++[t] }
    else
      { w with
        task := Function.update w.task t
          { w.task t with priv := priv, priority := priorityOf prio }
        owned := w.owned.erase t
        locking := w.locking++[t] }
  else w

/-- `cam_req_mgr_workq_enqueue_task` under its lock -/
def enqueueLock (w : Workq) (t : ℕ) : Workq :=
  if t ∈ w.locking then
    if w.job then
      queueWork { w with
        locking := w.locking.erase t
        processHead := Function.update w.processHead (w.task t).priority
          (w.processHead (w.task t).priority++[t])
        pendingCnt := w.pendingCnt+1
        enqueued := w.enqueued++[w.jobOf t] }
    else { w with locking := w.locking.erase t, putting := w.putting++[t] }
  else w

/-- What `cam_req_mgr_workq_put_task` leaves of a task -/
def cleared (task : Task) : Task := ⟨false,none,0,task.priority⟩

/-- `cam_req_mgr_workq_put_task` -/
def workqPutTask (w : Workq) (t : ℕ) : Workq :=
  { w with
    task := Function.update w.task t (cleared (w.task t))
    emptyHead := w.emptyHead++[t]
    freeCnt := w.freeCnt+1 }

/-- The end of `cam_req_mgr_workq_enqueue_task` when it has not enqueued the task -/
def enqueueAbort (w : Workq) (t : ℕ) : Workq :=
  if t ∈ w.putting then { workqPutTask w t with putting := w.putting.erase t } else w

/-- The work begins, and is no longer pending. -/
def workStart (w : Workq) : Workq :=
  if w.queued ∧ w.worker = .idle then { w with queued := false, worker := .locks 0 } else w

/-- `cam_req_mgr_process_workq` from one point where it does not hold the lock to the next -/
def workStep (w : Workq) : Workq :=
  match w.worker with
  | .idle => w
  | .locks i =>
    match w.processHead i with
    | [] => { w with worker := if i+1 < crmTaskPriorityMax then .locks (i+1) else .idle }
    | t::rest => { w with
        processHead := Function.update w.processHead i rest
        pendingCnt := w.pendingCnt-1
        worker := .took i t
        taken := w.taken++[w.jobOf t] }
  | .took i t =>
    -- with the flush set the task is left where it is, on no list
    if w.flush then { w with worker := .locks i } else { w with worker := .runs i t }
  | .runs i t =>
    { w with
      worker := .puts i t
      called := if (w.task t).processCb.isSome then w.called++[w.jobOf t] else w.called }
  | .puts i t => { workqPutTask w t with worker := .locks i }

/-- `cam_req_mgr_workq_flush`, step by step -/
def flushStep (w : Workq) : Workq :=
  match w.flusher with
  | .idle => { w with flush := true, flusher := .set }
  | .set => { w with queued := false, flusher := .cancels }
  | .cancels => if w.worker = .idle then { w with flusher := .clears } else w
  | .clears => { w with flush := false, flusher := .idle }

/-- `cam_req_mgr_workq_destroy` up to the wait for the work -/
def destroyBegin (w : Workq) : Workq := { w with flush := true, job := false }

end Workq

inductive Op
  | getTask
  | fillTask (t : ℕ) (processCb : Option ℕ) (cancel : Bool)
  | enqueueCheck (t priv : ℕ) (prio : ℤ)
  | enqueueLock (t : ℕ)
  | enqueueAbort (t : ℕ)
  | workStart
  | workStep
  | flushStep
  | destroyBegin

def step (w : Workq) : Op → Workq
  | .getTask => w.workqGetTask
  | .fillTask t processCb cancel => w.fillTask t processCb cancel
  | .enqueueCheck t priv prio => w.enqueueCheck t priv prio
  | .enqueueLock t => w.enqueueLock t
  | .enqueueAbort t => w.enqueueAbort t
  | .workStart => w.workStart
  | .workStep => w.workStep
  | .flushStep => w.flushStep
  | .destroyBegin => w.destroyBegin

/-- `cam_req_mgr_workq_create`: the tasks of the pool are put into it one after another. -/
def workqCreate (numTasks : ℕ) : Workq :=
  (List.range numTasks).foldl Workq.workqPutTask
    ⟨fun _ => ⟨false,none,0,0⟩,[],fun _ => [],0,0,false,true,false,.idle,.idle,[],[],[],[],[],[]⟩

end CamWorkq
end MarbleModules
