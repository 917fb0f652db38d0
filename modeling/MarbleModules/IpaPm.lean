import MarbleModules.Runs

/-! A client of the IPA power manager: its state, its vote for the clock, its two works on the
single-threaded work queue and the callers that activate and deactivate it. A step is what one of
them does between two points at which another can come in. -/
namespace MarbleModules
namespace IpaPm

/-- `enum ipa_pm_state` -/
inductive PmState
  | deactivated
  | deactivateInProgress
  | activateInProgress
  | activated
  | activatedPendingDeactivation
  | activatedTimerSet
  | activatedPendingReschedule
  deriving DecidableEq

namespace PmState

/-- `IPA_PM_STATE_ACTIVE` -/
def active : PmState → Bool
  | .activated => true
  | .activatedPendingDeactivation => true
  | .activatedTimerSet => true
  | .activatedPendingReschedule => true
  | _ => false

/-- `IPA_PM_STATE_IN_PROGRESS` -/
def inProgress : PmState → Bool
  | .activateInProgress => true
  | .deactivateInProgress => true
  | _ => false

/-- The timer set states of `enum ipa_pm_state` -/
def timerSet : PmState → Bool
  | .activatedPendingDeactivation => true
  | .activatedTimerSet => true
  | .activatedPendingReschedule => true
  | _ => false

end PmState

/-- Where the thread of the work queue is: in `activate_work_func` before its vote, at the lock,
at `complete_all` and behind it with a vote to take back, or in
`delayed_deferred_deactivate_work_func` at the lock and behind it with a vote to take back. -/
inductive Worker
  | idle
  | votes
  | settles
  | completes (decClk : Bool)
  | devotes
  | defers
  | deferredDevotes
  deriving DecidableEq

/-- Where a caller is: in `ipa_pm_activate_helper`, in `ipa_pm_deactivate_sync` (`sync`), or in the
round of `ipa_pm_deactivate_all_deferred` for the client (`all`). -/
inductive Caller
  | activateWaits | activateLocks | activateVotes | activateSettles
  | syncCancels | syncChecks | syncWaits | syncLocks | syncDevotes | syncSettles
  | syncCancelsAgain
  | allCancels | allChecks | allWaits | allLocks | allDevotes
  | returned (result : ℤ)
  deriving DecidableEq

/-- `struct ipa_pm_client`. `votes` is the share of the client in the count of active clients,
`complete` the completion; the two works are pending or not, the second one also while its timer
runs. -/
structure Pm where
  state : PmState
  skipClkVote : Bool
  votes : ℤ
  complete : Bool
  activateWork : Bool
  deactivateWork : Bool
  worker : Worker
  callers : List Caller
  deriving DecidableEq

def eperm : ℤ := 1
def einprogress : ℤ := 115

namespace Pm

/-- `IPA_ACTIVE_CLIENTS_INC_SPECIAL` and `IPA_ACTIVE_CLIENTS_DEC_SPECIAL`, for `1` and `-1` -/
def vote (p : Pm) (d : ℤ) : Pm := if p.skipClkVote then p else { p with votes := p.votes+d }

/-- `ipa_pm_activate_helper` from its `switch` on; `got` says whether
`ipa3_inc_client_enable_clks_no_block` finds the clock on. -/
def activateSwitch (p : Pm) (sync got : Bool) : Pm × Caller :=
  match p.state with
  | .activatedPendingReschedule => ({ p with state := .activatedTimerSet },.returned 0)
  | .activatedPendingDeactivation => ({ p with state := .activatedTimerSet },.returned 0)
  | .activated => (p,.returned 0)
  | .activatedTimerSet => (p,.returned 0)
  | .activateInProgress => (p,.returned (-eperm))
  | .deactivateInProgress => (p,.returned (-eperm))
  | .deactivated =>
    if p.skipClkVote then ({ p with state := .activated },.returned 0)
    else if sync then ({ p with state := .activateInProgress },.activateVotes)
    else if got then ({ p with state := .activated, votes := p.votes+1 },.returned 0)
    else ({ p with
      state := .activateInProgress
      complete := false
      activateWork := true },.returned (-einprogress))

/-- `ipa_pm_activate_helper` up to the end of its first lock -/
def activateHelper (p : Pm) (sync got : Bool) : Pm × Caller :=
  if p.state.inProgress then
    if sync then (p,.activateWaits)
    else ({ p with state := .activateInProgress },.returned (-einprogress))
  else activateSwitch p sync got

/-- `ipa_pm_deferred_deactivate` -/
def deferredDeactivate (p : Pm) : Pm :=
  match p.state with
  | .activateInProgress => { p with state := .deactivateInProgress }
  | .deactivated => p
  | .activated => { p with state := .activatedPendingDeactivation, deactivateWork := true }
  | .activatedTimerSet => { p with state := .activatedPendingReschedule }
  | .activatedPendingDeactivation => { p with state := .activatedPendingReschedule }
  | .deactivateInProgress => p
  | .activatedPendingReschedule => p

/-- The lock of `activate_work_func`; in any other state it warns. -/
def activateWorkSettle (p : Pm) : Pm :=
  match p.state with
  | .activateInProgress => { p with state := .activated, worker := .completes false }
  | .deactivateInProgress => { p with state := .deactivated, worker := .completes true }
  | _ => { p with worker := .completes false }

/-- The lock of `delayed_deferred_deactivate_work_func`; in any other state it warns. -/
def deferredWorkSettle (p : Pm) : Pm :=
  match p.state with
  | .activatedTimerSet => { p with state := .activated, worker := .idle }
  | .activatedPendingReschedule => { p with
      deactivateWork := true
      state := .activatedPendingDeactivation
      worker := .idle }
  | .activatedPendingDeactivation => { p with state := .deactivated, worker := .deferredDevotes }
  | _ => { p with worker := .idle }

/-- The work queue thread takes `activate_work`. -/
def takeActivate (p : Pm) : Pm :=
  if p.activateWork ∧ p.worker = .idle then
    { p with activateWork := false, worker := .votes }
  else p

/-- The timer has run out and the work queue thread takes `deactivate_work`. -/
def takeDeactivate (p : Pm) : Pm :=
  if p.deactivateWork ∧ p.worker = .idle then
    { p with deactivateWork := false, worker := .defers }
  else p

/-- The work queue thread goes on with the work it has. -/
def workStep (p : Pm) : Pm :=
  match p.worker with
  | .idle => p
  | .votes => { p.vote 1 with worker := .settles }
  | .settles => activateWorkSettle p
  | .completes decClk =>
    { p with complete := true, worker := if decClk then .devotes else .idle }
  | .devotes => { p.vote (-1) with worker := .idle }
  | .defers => deferredWorkSettle p
  | .deferredDevotes => { p.vote (-1) with worker := .idle }

/-- `deactivate_work` is running, and `cancel_delayed_work_sync` waits for its end. -/
def deferring (p : Pm) : Bool :=
  match p.worker with
  | .defers => true
  | .deferredDevotes => true
  | _ => false

/-- The lock of `ipa_pm_deactivate_all_deferred` -/
def allDeferredSettle (p : Pm) : Pm × Caller :=
  match p.state with
  | .activatedTimerSet => ({ p with state := .activated },.returned 0)
  | .activatedPendingDeactivation => ({ p with state := .deactivated },.allDevotes)
  | .activatedPendingReschedule => ({ p with state := .deactivated },.allDevotes)
  | _ => (p,.returned 0)

/-- What a caller does next, and where it is then -/
def callerNext (p : Pm) : Caller → Pm × Caller
  | .activateWaits => (p,if p.complete then .activateLocks else .activateWaits)
  | .activateLocks => activateSwitch p true false
  | .activateVotes => (p.vote 1,.activateSettles)
  | .activateSettles => ({ p with state := .activated },.returned 0)
  | .syncCancels =>
    if p.deferring then (p,.syncCancels) else ({ p with deactivateWork := false },.syncChecks)
  | .syncChecks => (p,if p.state.inProgress then .syncWaits else .syncLocks)
  | .syncWaits => (p,if p.complete then .syncLocks else .syncWaits)
  | .syncLocks => (p,if p.state = .deactivated then .returned 0 else .syncDevotes)
  | .syncDevotes => (p.vote (-1),.syncSettles)
  | .syncSettles => ({ p with state := .deactivated },.syncCancelsAgain)
  | .syncCancelsAgain =>
    if p.deferring then (p,.syncCancelsAgain)
    else ({ p with deactivateWork := false },.returned 0)
  | .allCancels =>
    if p.deferring then (p,.allCancels) else ({ p with deactivateWork := false },.allChecks)
  | .allChecks => (p,if p.state.inProgress then .allWaits else .allLocks)
  | .allWaits => (p,if p.complete then .returned 0 else .allWaits)
  | .allLocks => allDeferredSettle p
  | .allDevotes => (p.vote (-1),.returned 0)
  | .returned result => (p,.returned result)

/-- One more caller -/
def enter (r : Pm × Caller) : Pm := { r.1 with callers := r.1.callers++[r.2] }

/-- Caller number `i` goes on. -/
def callerStep (p : Pm) (i : ℕ) : Pm :=
  match p.callers[i]? with
  | none => p
  | some c => { (callerNext p c).1 with callers := p.callers.set i (callerNext p c).2 }

end Pm

/-- `ipa_pm_activate`, `ipa_pm_activate_sync` and the other calls, and what goes on by itself -/
inductive Op
  | activate (got : Bool)
  | activateSync
  | deferredDeactivate
  | deactivateSync
  | deactivateAllDeferred
  | caller (i : ℕ)
  | takeActivate
  | takeDeactivate
  | work
  deriving DecidableEq

def step (p : Pm) : Op → Pm
  | .activate got => Pm.enter (p.activateHelper false got)
  | .activateSync => Pm.enter (p.activateHelper true false)
  | .deferredDeactivate => p.deferredDeactivate
  | .deactivateSync => Pm.enter (p,.syncCancels)
  | .deactivateAllDeferred => Pm.enter (p,.allCancels)
  | .caller i => p.callerStep i
  | .takeActivate => p.takeActivate
  | .takeDeactivate => p.takeDeactivate
  | .work => p.workStep

/-- What `ipa_pm_register` leaves of a client -/
def register (skipClkVote : Bool) : Pm :=
  ⟨.deactivated,skipClkVote,0,false,false,false,.idle,[]⟩

end IpaPm
end MarbleModules
