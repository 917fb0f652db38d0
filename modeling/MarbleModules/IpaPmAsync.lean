import MarbleModules.IpaPmWaits

/-! A client that only the calls made for atomic context activate and deactivate, `ipa_pm_activate`
and `ipa_pm_deferred_deactivate`: its works are pending exactly when its state says so, its votes
are exact, and the work queue brings it to its rest. -/
namespace MarbleModules
namespace IpaPm

open Runs

variable {p : Pm} {op : Op}

/-- What happens to a client that nobody calls from a context that may sleep -/
def Op.async : Op → Bool
  | .activate _ => true
  | .deferredDeactivate => true
  | .takeActivate => true
  | .takeDeactivate => true
  | .work => true
  | _ => false

/-- An activation is in progress exactly while `activate_work` is pending or about to settle, a
timer set exactly while `deactivate_work` is, each of them once, and the votes are what the state
and the work queue stand for. -/
structure Exact (p : Pm) : Prop where
  votes : p.votes = if p.skipClkVote then 0 else p.state.due+p.worker.carry
  inProgress : p.state.inProgress = true ↔
    p.activateWork = true ∨ p.worker = .votes ∨ p.worker = .settles
  activateOnce : p.activateWork = true → p.worker ≠ .votes ∧ p.worker ≠ .settles
  timerSet : p.state.timerSet = true ↔ p.deactivateWork = true ∨ p.worker = .defers
  deactivateOnce : p.deactivateWork = true → p.worker ≠ .defers

theorem exact_register (skipClkVote : Bool) : Exact (register skipClkVote) := by
  cases skipClkVote <;>
    constructor <;> simp [register,PmState.due,PmState.active,Worker.carry,PmState.inProgress,
      PmState.timerSet]

theorem exact_activate (h : Exact p) (got : Bool) : Exact (step p (.activate got)) := by
  obtain ⟨hv,hp,hpo,ht,hto⟩ := h
  simp only [step,Pm.enter]
  fun_cases Pm.activateHelper p false got with
  | case1 _ hs => exact absurd hs (by simp)
  | case2 hprog _ =>
    have hprog' := hprog
    cases hs : p.state <;> simp [hs,PmState.inProgress] at hprog' <;>
      constructor <;>
      simp_all [PmState.due,PmState.active,PmState.inProgress,PmState.timerSet]
  | case3 hprog =>
    fun_cases Pm.activateSwitch p false got <;> constructor <;>
      simp_all [PmState.due,PmState.active,PmState.inProgress,PmState.timerSet]
    -- the clock was on, and the client has taken its vote at once
    case case9.votes => omega

theorem exact_deferredDeactivate (h : Exact p) : Exact p.deferredDeactivate := by
  obtain ⟨hv,hp,hpo,ht,hto⟩ := h
  fun_cases Pm.deferredDeactivate p <;> constructor <;>
    simp_all [PmState.due,PmState.active,PmState.inProgress,PmState.timerSet]

theorem exact_takeActivate (h : Exact p) : Exact p.takeActivate := by
  obtain ⟨hv,hp,hpo,ht,hto⟩ := h
  rw [Pm.takeActivate]
  split <;> constructor <;> simp_all [Worker.carry]

theorem exact_takeDeactivate (h : Exact p) : Exact p.takeDeactivate := by
  obtain ⟨hv,hp,hpo,ht,hto⟩ := h
  rw [Pm.takeDeactivate]
  split <;> constructor <;> simp_all [Worker.carry]

theorem exact_work (h : Exact p) : Exact p.workStep := by
  obtain ⟨hv,hp,hpo,ht,hto⟩ := h
  cases hw : p.worker with
  | settles =>
    simp only [Pm.workStep,hw]
    fun_cases Pm.activateWorkSettle p with
    | case3 ha hd => cases hs : p.state <;> simp_all [PmState.inProgress]
    | _ =>
      constructor <;>
        simp_all [PmState.due,PmState.active,PmState.inProgress,PmState.timerSet,Worker.carry]
  | defers =>
    simp only [Pm.workStep,hw]
    fun_cases Pm.deferredWorkSettle p with
    | case4 h1 h2 h3 => cases hs : p.state <;> simp_all [PmState.timerSet]
    | _ =>
      constructor <;>
        simp_all [PmState.due,PmState.active,PmState.inProgress,PmState.timerSet,Worker.carry]
  | completes decClk =>
    cases decClk <;> constructor <;> simp_all [Pm.workStep,Worker.carry]
  | idle => exact ⟨by simpa [Pm.workStep,hw] using hv,by simpa [Pm.workStep,hw] using hp,
      by simp [Pm.workStep,hw],by simpa [Pm.workStep,hw] using ht,by simp [Pm.workStep,hw]⟩
  | _ =>
    cases hskip : p.skipClkVote <;> constructor <;>
      simp_all [Pm.workStep,Worker.carry,Pm.vote]

theorem exact_step (h : Exact p) (hop : op.async = true) : Exact (step p op) := by
  cases op with
  | activate got => exact exact_activate h got
  | deferredDeactivate => exact exact_deferredDeactivate h
  | takeActivate => exact exact_takeActivate h
  | takeDeactivate => exact exact_takeDeactivate h
  | work => exact exact_work h
  | _ => simp [Op.async] at hop

theorem exact_run (h : Exact p) {ops : List Op} (hops : ∀ op ∈ ops, op.async = true) :
    Exact (run step p ops) :=
  guarded_invariant (L := fun _ op => op.async = true) (fun _ _ h hop => exact_step h hop) h ops
    (guarded_of_forall step p hops)

section Rest

/-- The client is at rest: it is deactivated, has no vote, and the work queue has nothing to do
for it. -/
def Off (p : Pm) : Prop :=
  p.state = .deactivated ∧ p.votes = 0 ∧ p.activateWork = false ∧ p.deactivateWork = false ∧
    p.worker = .idle

/-- The work queue, left alone, can bring the client to its rest. -/
def LetsGo (p : Pm) : Prop :=
  ∃ ops : List Op, (∀ op ∈ ops, op.byQueue = true) ∧ Off (run step p ops)

/-- The states behind `ipa_pm_deferred_deactivate` -/
def PmState.leaving : PmState → Bool
  | .deactivated => true
  | .deactivateInProgress => true
  | .activatedPendingDeactivation => true
  | .activatedPendingReschedule => true
  | _ => false

theorem deferredDeactivate_leaving (p : Pm) : p.deferredDeactivate.state.leaving = true := by
  fun_cases Pm.deferredDeactivate p <;> simp_all [PmState.leaving]

theorem letsGo_cons (op : Op) (hop : op.byQueue = true) (h : LetsGo (step p op)) : LetsGo p := by
  obtain ⟨ops,hops,hoff⟩ := h
  exact ⟨op::ops,by simpa [hop] using hops,hoff⟩

/-- The work queue ends what it has when it settles nothing any more. -/
theorem letsGo_of_idle
    (hgo : ∀ q : Pm, Exact q → q.worker = .idle → q.state = p.state → LetsGo q)
    (h : Exact p) (hv : p.worker ≠ .votes) (hs : p.worker ≠ .settles)
    (hd : p.worker ≠ .defers) : LetsGo p := by
  have hwork {q : Pm} (hq : Exact q) (hi : q.workStep.worker = .idle)
      (hst : q.workStep.state = p.state) : LetsGo q :=
    letsGo_cons .work rfl (hgo _ (exact_work hq) hi hst)
  cases hw : p.worker with
  | idle => exact hgo p h hw rfl
  | votes => exact absurd hw hv
  | settles => exact absurd hw hs
  | defers => exact absurd hw hd
  | devotes => exact hwork h (by simp [Pm.workStep,hw]) (by simp [Pm.workStep,hw])
  | deferredDevotes => exact hwork h (by simp [Pm.workStep,hw]) (by simp [Pm.workStep,hw])
  | completes decClk =>
    cases decClk with
    | false => exact hwork h (by simp [Pm.workStep,hw]) (by simp [Pm.workStep,hw])
    | true =>
      refine letsGo_cons .work rfl (hwork (exact_work h) ?_ ?_) <;>
        simp [step,Pm.workStep,hw]

theorem letsGo_deactivated (h : Exact p) (hs : p.state = .deactivated) : LetsGo p := by
  have hp := h.inProgress
  have ht := h.timerSet
  simp only [hs,PmState.inProgress,PmState.timerSet,Bool.false_eq_true,false_iff,not_or] at hp ht
  refine letsGo_of_idle (fun q hq hi hst => ?_) h hp.2.1 hp.2.2 ht.2
  have hv := hq.votes
  have hqp := hq.inProgress
  have hqt := hq.timerSet
  simp only [hst,hs,PmState.inProgress,PmState.timerSet,Bool.false_eq_true,false_iff,not_or,
    Bool.not_eq_true] at hqp hqt
  exact ⟨[],by simp,hst.trans hs,by simpa [hi,hst,hs,Worker.carry] using hv,hqp.1,hqt.1,hi⟩

theorem letsGo_deactivateInProgress (h : Exact p) (hs : p.state = .deactivateInProgress) :
    LetsGo p := by
  have hsettles {q : Pm} (hq : Exact q) (hst : q.state = .deactivateInProgress)
      (hw : q.worker = .settles) : LetsGo q := by
    refine letsGo_cons .work rfl (letsGo_deactivated (exact_work hq) ?_)
    simp [step,Pm.workStep,hw,Pm.activateWorkSettle,hst]
  have hvotes {q : Pm} (hq : Exact q) (hst : q.state = .deactivateInProgress)
      (hw : q.worker = .votes) : LetsGo q := by
    refine letsGo_cons .work rfl (hsettles (exact_work hq) ?_ ?_)
    · simpa [step,Pm.workStep,hw] using hst
    · simp [step,Pm.workStep,hw]
  by_cases hv : p.worker = .votes
  · exact hvotes h hs hv
  by_cases hse : p.worker = .settles
  · exact hsettles h hs hse
  have ht := h.timerSet
  simp only [hs,PmState.timerSet,Bool.false_eq_true,false_iff,not_or] at ht
  refine letsGo_of_idle (fun q hq hi hst => ?_) h hv hse ht.2
  have ha : q.activateWork = true := by
    simpa [hst,hs,PmState.inProgress,hi] using hq.inProgress
  refine letsGo_cons .takeActivate rfl (hvotes (exact_takeActivate hq) ?_ ?_)
  · simpa [step,Pm.takeActivate,ha,hi] using hst.trans hs
  · simp [step,Pm.takeActivate,ha,hi]

/-- A timer set client goes on by its timer: `hgo` says what is behind the lock of the deferred
work. -/
theorem letsGo_timerSet (h : Exact p) (ht : p.state.timerSet = true)
    (hgo : ∀ q : Pm, Exact q → q.worker = .defers → q.state = p.state → LetsGo q) :
    LetsGo p := by
  by_cases hd : p.worker = .defers
  · exact hgo p h hd rfl
  have hp : p.state.inProgress = false := by
    cases hs : p.state <;> simp_all [PmState.timerSet,PmState.inProgress]
  have hpi := h.inProgress
  simp only [hp,Bool.false_eq_true,false_iff,not_or] at hpi
  refine letsGo_of_idle (fun q hq hi hst => ?_) h hpi.2.1 hpi.2.2 hd
  have hq' := hq.timerSet
  have hdw : q.deactivateWork = true := by
    simpa [hst,ht,hi] using hq'
  refine letsGo_cons .takeDeactivate rfl (hgo _ (exact_takeDeactivate hq) ?_ ?_)
  · simp [step,Pm.takeDeactivate,hdw,hi]
  · simpa [step,Pm.takeDeactivate,hdw,hi] using hst

theorem letsGo_pendingDeactivation (h : Exact p)
    (hs : p.state = .activatedPendingDeactivation) : LetsGo p := by
  refine letsGo_timerSet h (by rw [hs]; rfl) fun q hq hw hst => ?_
  refine letsGo_cons .work rfl (letsGo_deactivated (exact_work hq) ?_)
  simp [step,Pm.workStep,hw,Pm.deferredWorkSettle,hst,hs]

theorem letsGo_pendingReschedule (h : Exact p)
    (hs : p.state = .activatedPendingReschedule) : LetsGo p := by
  refine letsGo_timerSet h (by rw [hs]; rfl) fun q hq hw hst => ?_
  refine letsGo_cons .work rfl (letsGo_pendingDeactivation (exact_work hq) ?_)
  simp [step,Pm.workStep,hw,Pm.deferredWorkSettle,hst,hs]

theorem letsGo_of_leaving (h : Exact p) (hl : p.state.leaving = true) : LetsGo p := by
  cases hs : p.state with
  | deactivated => exact letsGo_deactivated h hs
  | deactivateInProgress => exact letsGo_deactivateInProgress h hs
  | activatedPendingDeactivation => exact letsGo_pendingDeactivation h hs
  | activatedPendingReschedule => exact letsGo_pendingReschedule h hs
  | _ => simp [hs,PmState.leaving] at hl

/-- However the calls for atomic context and the works have come in so far, the works are pending
exactly as the state says and no vote is missing or left over; and once
`ipa_pm_deferred_deactivate` has been called, the work queue alone can bring the client to its
rest, the clock let go. -/
theorem async_exact (skipClkVote : Bool) {ops : List Op} (h : ∀ op ∈ ops, op.async = true) :
    Exact (run step (register skipClkVote) ops) ∧
      LetsGo (run step (register skipClkVote) ops).deferredDeactivate := by
  have he := exact_run (exact_register skipClkVote) h
  exact ⟨he,letsGo_of_leaving (exact_deferredDeactivate he) (deferredDeactivate_leaving _)⟩

theorem async_exact_reschedule :
    Exact (run step (register false) [.activate false,.takeActivate,.work,.work,.work,
        .deferredDeactivate,.activate true]) ∧
      LetsGo (run step (register false) [.activate false,.takeActivate,.work,.work,.work,
        .deferredDeactivate,.activate true]).deferredDeactivate :=
  async_exact false (by decide)

end Rest

end IpaPm
end MarbleModules
