import Mathlib.Algebra.BigOperators.Group.List.Basic
import MarbleModules.IpaPm

/-! The client over all interleavings of its callers and its two works: when its votes are those
its state stands for, when a caller that waits can be released, and when a client that waits for
its timer has one. -/
namespace MarbleModules
namespace IpaPm

open Runs

variable {p : Pm} {op : Op} {c d : Caller} {i : ℕ}

section Votes

/-- The votes the thread of the work queue has in hand -/
def Worker.carry : Worker → ℤ
  | .settles => 1
  | .completes decClk => if decClk then 1 else 0
  | .devotes => 1
  | .deferredDevotes => 1
  | _ => 0

/-- The votes a caller has in hand; `ipa_pm_deactivate_sync` gives one back before it changes the
state. -/
def Caller.carry : Caller → ℤ
  | .activateSettles => 1
  | .syncSettles => -1
  | .allDevotes => 1
  | _ => 0

/-- The votes the state stands for -/
def PmState.due (s : PmState) : ℤ := if s.active then 1 else 0

/-- The client has a vote when it is active, and what is in hand. A client that skips the clock
vote has none. -/
def Accounted (p : Pm) : Prop :=
  p.votes = if p.skipClkVote then 0
    else p.state.due+p.worker.carry+(p.callers.map Caller.carry).sum

/-- What a lock that settles a vote has to find: `activate_work_func` an activation in progress,
`ipa_pm_activate_sync` a client that is not active, `ipa_pm_deactivate_sync` one that is. -/
def Caller.Settles (p : Pm) : Caller → Prop
  | .activateSettles => p.state.active = false
  | .syncSettles => p.state.active = true
  | _ => True

def Worker.Settles (p : Pm) : Worker → Prop
  | .settles => p.state.inProgress = true
  | _ => True

def Settles (p : Pm) : Op → Prop
  | .caller i => p.skipClkVote = true ∨ ∀ c, p.callers[i]? = some c → c.Settles p
  | .work => p.skipClkVote = true ∨ p.worker.Settles p
  | _ => True

@[simp] theorem due_activated : PmState.due .activated = 1 := rfl

@[simp] theorem due_deactivated : PmState.due .deactivated = 0 := rfl

@[simp] theorem vote_state (d : ℤ) : (p.vote d).state = p.state := by
  rw [Pm.vote]
  split <;> rfl

@[simp] theorem vote_skipClkVote (d : ℤ) : (p.vote d).skipClkVote = p.skipClkVote := by
  rw [Pm.vote]
  split <;> rfl

@[simp] theorem vote_complete (d : ℤ) : (p.vote d).complete = p.complete := by
  rw [Pm.vote]
  split <;> rfl

@[simp] theorem vote_activateWork (d : ℤ) : (p.vote d).activateWork = p.activateWork := by
  rw [Pm.vote]
  split <;> rfl

@[simp] theorem vote_deactivateWork (d : ℤ) :
    (p.vote d).deactivateWork = p.deactivateWork := by
  rw [Pm.vote]
  split <;> rfl

@[simp] theorem vote_worker (d : ℤ) : (p.vote d).worker = p.worker := by
  rw [Pm.vote]
  split <;> rfl

@[simp] theorem vote_callers (d : ℤ) : (p.vote d).callers = p.callers := by
  rw [Pm.vote]
  split <;> rfl

theorem vote_votes (h : p.skipClkVote = false) (d : ℤ) : (p.vote d).votes = p.votes+d := by
  simp [Pm.vote,h]

theorem vote_skipped (h : p.skipClkVote = true) (d : ℤ) : p.vote d = p := by
  simp [Pm.vote,h]

/-- What the first lock of an activation leaves as it was -/
theorem activateSwitch_frame (p : Pm) (sync got : Bool) :
    (p.activateSwitch sync got).1.worker = p.worker ∧
      (p.activateSwitch sync got).1.skipClkVote = p.skipClkVote ∧
      (p.activateSwitch sync got).1.callers = p.callers ∧
      (p.activateSwitch sync got).1.deactivateWork = p.deactivateWork := by
  fun_cases Pm.activateSwitch p sync got <;> simp

theorem activateSwitch_balance (h : p.skipClkVote = false) (sync got : Bool) :
    (p.activateSwitch sync got).1.votes-(p.activateSwitch sync got).1.state.due-
      (p.activateSwitch sync got).2.carry = p.votes-p.state.due := by
  fun_cases Pm.activateSwitch p sync got <;>
    simp_all [PmState.due,PmState.active,Caller.carry]

theorem activateSwitch_skipped (h : p.skipClkVote = true) (sync got : Bool) :
    (p.activateSwitch sync got).1.votes = p.votes := by
  fun_cases Pm.activateSwitch p sync got <;> simp_all

theorem activateHelper_frame (p : Pm) (sync got : Bool) :
    (p.activateHelper sync got).1.worker = p.worker ∧
      (p.activateHelper sync got).1.skipClkVote = p.skipClkVote ∧
      (p.activateHelper sync got).1.callers = p.callers ∧
      (p.activateHelper sync got).1.deactivateWork = p.deactivateWork := by
  fun_cases Pm.activateHelper p sync got
  · simp
  · simp
  · exact activateSwitch_frame p sync got

theorem activateHelper_balance (h : p.skipClkVote = false) (sync got : Bool) :
    (p.activateHelper sync got).1.votes-(p.activateHelper sync got).1.state.due-
      (p.activateHelper sync got).2.carry = p.votes-p.state.due := by
  fun_cases Pm.activateHelper p sync got with
  | case1 hprog hsync => simp [Caller.carry]
  | case2 hprog hsync =>
    cases hs : p.state <;>
      simp_all [PmState.inProgress,PmState.due,PmState.active,Caller.carry]
  | case3 hprog => exact activateSwitch_balance h sync got

/-- A call of a client that skips the clock vote changes no votes. -/
theorem activateHelper_skipped (h : p.skipClkVote = true) (sync got : Bool) :
    (p.activateHelper sync got).1.votes = p.votes := by
  fun_cases Pm.activateHelper p sync got
  · rfl
  · rfl
  · exact activateSwitch_skipped h sync got

theorem callerNext_frame (p : Pm) (c : Caller) :
    (p.callerNext c).1.worker = p.worker ∧
      (p.callerNext c).1.skipClkVote = p.skipClkVote ∧
      (p.callerNext c).1.callers = p.callers := by
  cases c with
  | activateLocks =>
    have h := activateSwitch_frame p true false
    exact ⟨h.1,h.2.1,h.2.2.1⟩
  | allLocks =>
    simp only [Pm.callerNext]
    fun_cases Pm.allDeferredSettle p <;> simp
  | syncCancels => simp only [Pm.callerNext]; split <;> simp
  | syncCancelsAgain => simp only [Pm.callerNext]; split <;> simp
  | allCancels => simp only [Pm.callerNext]; split <;> simp
  | _ => simp [Pm.callerNext]

/-- What a caller adds to the votes, takes from the state and has in hand evens out, unless it
settles its vote in a state it does not expect. -/
theorem callerNext_balance (h : p.skipClkVote = false) (c : Caller) :
    (p.callerNext c).1.votes-(p.callerNext c).1.state.due-(p.callerNext c).2.carry =
      p.votes-p.state.due-c.carry ↔ c.Settles p := by
  cases c with
  | activateLocks =>
    simpa [Caller.Settles,Caller.carry,Pm.callerNext] using activateSwitch_balance h true false
  | allLocks =>
    simp only [Pm.callerNext]
    fun_cases Pm.allDeferredSettle p <;>
      simp_all [PmState.due,PmState.active,Caller.carry,Caller.Settles]
  | activateSettles =>
    simp only [Pm.callerNext,due_activated,Caller.carry,Caller.Settles]
    rw [PmState.due]
    cases p.state.active
    · simp
    · simp
      omega
  | syncSettles =>
    simp only [Pm.callerNext,due_deactivated,Caller.carry,Caller.Settles]
    rw [PmState.due]
    cases p.state.active <;> simp
  | _ =>
    simp only [Pm.callerNext,Caller.Settles,iff_true]
    try split
    all_goals simp [Caller.carry,vote_votes h]
    try omega

theorem callerNext_skipped (h : p.skipClkVote = true) (c : Caller) :
    (p.callerNext c).1.votes = p.votes := by
  cases c with
  | activateLocks => exact activateSwitch_skipped h true false
  | allLocks =>
    simp only [Pm.callerNext]
    fun_cases Pm.allDeferredSettle p <;> rfl
  | syncCancels => simp only [Pm.callerNext]; split <;> rfl
  | syncCancelsAgain => simp only [Pm.callerNext]; split <;> rfl
  | allCancels => simp only [Pm.callerNext]; split <;> rfl
  | activateVotes => rw [Pm.callerNext,vote_skipped h]
  | syncDevotes => rw [Pm.callerNext,vote_skipped h]
  | allDevotes => rw [Pm.callerNext,vote_skipped h]
  | _ => rfl

theorem workStep_frame (p : Pm) :
    p.workStep.skipClkVote = p.skipClkVote ∧ p.workStep.callers = p.callers := by
  cases hw : p.worker with
  | settles =>
    simp only [Pm.workStep,hw]
    fun_cases Pm.activateWorkSettle p <;> simp
  | defers =>
    simp only [Pm.workStep,hw]
    fun_cases Pm.deferredWorkSettle p <;> simp
  | _ => simp [Pm.workStep,hw]

theorem workStep_balance (h : p.skipClkVote = false) :
    p.workStep.votes-p.workStep.state.due-p.workStep.worker.carry =
      p.votes-p.state.due-p.worker.carry ↔ p.worker.Settles p := by
  cases hw : p.worker with
  | settles =>
    simp only [Pm.workStep,hw,Worker.Settles]
    fun_cases Pm.activateWorkSettle p with
    | case1 hs => simp [hs,PmState.due,PmState.active,Worker.carry,PmState.inProgress]
    | case2 hs => simp [hs,PmState.due,PmState.active,Worker.carry,PmState.inProgress]
    | case3 ha hd =>
      have hs : p.state.inProgress = false := by
        cases hp : p.state <;> simp_all [PmState.inProgress]
      simp only [hs,Worker.carry]
      simp
      omega
  | defers =>
    simp only [Pm.workStep,hw,Worker.Settles,iff_true]
    fun_cases Pm.deferredWorkSettle p <;>
      simp_all [PmState.due,PmState.active,Worker.carry]
  | completes decClk => cases decClk <;> simp [Pm.workStep,hw,Worker.carry,Worker.Settles]
  | votes =>
    simp only [Pm.workStep,hw,Worker.carry,Worker.Settles,vote_votes h,vote_state,iff_true]
    omega
  | idle => simp [Pm.workStep,hw,Worker.carry,Worker.Settles]
  | _ =>
    simp only [Pm.workStep,hw,Worker.carry,Worker.Settles,vote_votes h,vote_state,iff_true]
    omega

theorem workStep_skipped (h : p.skipClkVote = true) : p.workStep.votes = p.votes := by
  cases hw : p.worker with
  | settles =>
    simp only [Pm.workStep,hw]
    fun_cases Pm.activateWorkSettle p <;> rfl
  | defers =>
    simp only [Pm.workStep,hw]
    fun_cases Pm.deferredWorkSettle p <;> rfl
  | _ => simp [Pm.workStep,hw,Pm.vote,h]

theorem takeActivate_frame (p : Pm) :
    p.takeActivate.state = p.state ∧ p.takeActivate.skipClkVote = p.skipClkVote ∧
      p.takeActivate.votes = p.votes ∧ p.takeActivate.callers = p.callers ∧
      p.takeActivate.worker.carry = p.worker.carry := by
  rw [Pm.takeActivate]
  split
  case isTrue h => simp [h.2,Worker.carry]
  case isFalse => simp

theorem takeDeactivate_frame (p : Pm) :
    p.takeDeactivate.state = p.state ∧ p.takeDeactivate.skipClkVote = p.skipClkVote ∧
      p.takeDeactivate.votes = p.votes ∧ p.takeDeactivate.callers = p.callers ∧
      p.takeDeactivate.worker.carry = p.worker.carry := by
  rw [Pm.takeDeactivate]
  split
  case isTrue h => simp [h.2,Worker.carry]
  case isFalse => simp

theorem deferredDeactivate_frame (p : Pm) :
    p.deferredDeactivate.state.due = p.state.due ∧
      p.deferredDeactivate.skipClkVote = p.skipClkVote ∧
      p.deferredDeactivate.votes = p.votes ∧ p.deferredDeactivate.callers = p.callers ∧
      p.deferredDeactivate.worker = p.worker := by
  fun_cases Pm.deferredDeactivate p <;> simp_all [PmState.due,PmState.active]

theorem carry_set {l : List Caller} (h : l[i]? = some c) (d : Caller) :
    ((l.set i d).map Caller.carry).sum = (l.map Caller.carry).sum-c.carry+d.carry := by
  induction l generalizing i with
  | nil => simp at h
  | cons e l ih =>
    cases i with
    | zero =>
      obtain rfl : e = c := by simpa using h
      simp
      omega
    | succ i =>
      have hi := ih (i := i) (by simpa using h)
      simp only [List.set_cons_succ,List.map_cons,List.sum_cons,hi]
      omega

theorem enter_accounted {r : Pm × Caller} (hskip : r.1.skipClkVote = p.skipClkVote)
    (hworker : r.1.worker = p.worker) (hcallers : r.1.callers = p.callers)
    (hskipped : p.skipClkVote = true → r.1.votes = p.votes)
    (hbalance : p.skipClkVote = false →
      r.1.votes-r.1.state.due-r.2.carry = p.votes-p.state.due) (h : Accounted p) :
    Accounted (Pm.enter r) := by
  simp only [Accounted,Pm.enter,hskip,hworker,hcallers,List.map_append,List.map_singleton,
    List.sum_append,List.sum_singleton] at h ⊢
  cases hs : p.skipClkVote with
  | true =>
    rw [hskipped hs]
    simpa [hs] using h
  | false =>
    have hb := hbalance hs
    simp only [hs,Bool.false_eq_true,if_false] at h ⊢
    omega

/-- From a state with the votes it should have, a step leads to one exactly when it settles no
vote in a state it does not expect. -/
theorem accounted_step_iff (h : Accounted p) (op : Op) :
    Accounted (step p op) ↔ Settles p op := by
  cases op with
  | activate got =>
    obtain ⟨hw,hs,hc,-⟩ := activateHelper_frame p false got
    exact iff_of_true (enter_accounted hs hw hc (activateHelper_skipped · false got)
      (activateHelper_balance · false got) h) trivial
  | activateSync =>
    obtain ⟨hw,hs,hc,-⟩ := activateHelper_frame p true false
    exact iff_of_true (enter_accounted hs hw hc (activateHelper_skipped · true false)
      (activateHelper_balance · true false) h) trivial
  | deferredDeactivate =>
    obtain ⟨hd,hs,hv,hc,hw⟩ := deferredDeactivate_frame p
    simpa [Accounted,step,hd,hs,hv,hc,hw,Settles] using h
  | deactivateSync =>
    exact iff_of_true (enter_accounted rfl rfl rfl (fun _ => rfl) (by simp [Caller.carry]) h)
      trivial
  | deactivateAllDeferred =>
    exact iff_of_true (enter_accounted rfl rfl rfl (fun _ => rfl) (by simp [Caller.carry]) h)
      trivial
  | takeActivate =>
    obtain ⟨hd,hs,hv,hc,hw⟩ := takeActivate_frame p
    simpa [Accounted,step,hd,hs,hv,hc,hw,Settles] using h
  | takeDeactivate =>
    obtain ⟨hd,hs,hv,hc,hw⟩ := takeDeactivate_frame p
    simpa [Accounted,step,hd,hs,hv,hc,hw,Settles] using h
  | work =>
    obtain ⟨hs,hc⟩ := workStep_frame p
    cases hskip : p.skipClkVote with
    | true =>
      have hv := workStep_skipped hskip
      simp only [Accounted,hskip,if_true] at h
      simp [Accounted,step,hs,hskip,hv,h,Settles]
    | false =>
      rw [Settles,hskip,← workStep_balance hskip]
      simp only [Accounted,step,hs,hc,hskip,Bool.false_eq_true,if_false,false_or] at h ⊢
      omega
  | caller i =>
    simp only [step,Pm.callerStep,Settles]
    cases hi : p.callers[i]? with
    | none => simpa [hi] using h
    | some c =>
      obtain ⟨hw,hs,hc⟩ := callerNext_frame p c
      simp only [Accounted,hw,hs,carry_set hi] at h ⊢
      cases hskip : p.skipClkVote with
      | true =>
        have hv := callerNext_skipped hskip c
        simp only [hskip,if_true] at h
        simp [hv,h]
      | false =>
        simp only [hskip,Bool.false_eq_true,if_false,false_or,Option.some.injEq,forall_eq'] at h ⊢
        rw [← callerNext_balance hskip c]
        omega

/-- The client always has the votes its state stands for exactly in the runs in which
`activate_work_func` always finds an activation in progress, `ipa_pm_activate_sync` never ends on
a client that is active already, and `ipa_pm_deactivate_sync` always ends on one that still is. -/
theorem votes_always_iff (skipClkVote : Bool) (ops : List Op) :
    Always step Accounted (register skipClkVote) ops ↔
      Guarded step Settles (register skipClkVote) ops := by
  have h0 : Accounted (register skipClkVote) := by
    cases skipClkVote <;> simp [Accounted,register,PmState.due,PmState.active,Worker.carry]
  exact always_iff_guarded (I := Accounted) (fun _ h => h)
    (fun p op h _ hc => (accounted_step_iff h op).mpr hc)
    (fun p op h _ hc ha => hc ((accounted_step_iff h op).mp ha)) h0 ops
    (guarded_true step _ ops)

end Votes

end IpaPm
end MarbleModules
