import MarbleModules.IpaPmRuns

/-! What a client waits for: a caller in `wait_for_completion` for the work that completes, and a
client in a timer set state for its timer or a deactivation. -/
namespace MarbleModules
namespace IpaPm

open Runs

variable {p : Pm} {op : Op} {c d : Caller} {i : ℕ}

section Completion

/-- The caller is in `wait_for_completion`. -/
def Caller.waits : Caller → Bool
  | .activateWaits => true
  | .syncWaits => true
  | .allWaits => true
  | _ => false

/-- `activate_work_func` is running and has not completed yet. -/
def Worker.activating : Worker → Bool
  | .votes => true
  | .settles => true
  | .completes _ => true
  | _ => false

/-- The completion is there, or the work that brings it is. -/
def Answered (p : Pm) : Prop :=
  p.complete = true ∨ p.activateWork = true ∨ p.worker.activating = true

/-- What the work queue does by itself -/
def Op.byQueue : Op → Bool
  | .takeActivate => true
  | .takeDeactivate => true
  | .work => true
  | _ => false

/-- The work queue, left alone, can bring the completion. -/
def Releasable (p : Pm) : Prop :=
  ∃ ops : List Op, (∀ op ∈ ops, op.byQueue = true) ∧ (run step p ops).complete = true

/-- A caller finds the client in progress and is going to wait. -/
def BeginsToWait (p : Pm) : Op → Prop
  | .activateSync => p.state.inProgress = true
  | .caller i =>
    (p.callers[i]? = some .syncChecks ∨ p.callers[i]? = some .allChecks) ∧
      p.state.inProgress = true
  | _ => False

/-- A caller is going to wait for a completion that no work brings. -/
def Hangs (p : Pm) (op : Op) : Prop := BeginsToWait p op ∧ ¬ Answered p

theorem activateSwitch_answered (h : Answered p) (sync got : Bool) :
    Answered (p.activateSwitch sync got).1 := by
  fun_cases Pm.activateSwitch p sync got
  case case10 => exact .inr (.inl rfl)
  all_goals exact h

theorem callerNext_answered (h : Answered p) (c : Caller) : Answered (p.callerNext c).1 := by
  cases c with
  | activateLocks => exact activateSwitch_answered h true false
  | allLocks =>
    simp only [Pm.callerNext]
    fun_cases Pm.allDeferredSettle p <;> exact h
  | syncCancels => simp only [Pm.callerNext]; split <;> exact h
  | syncCancelsAgain => simp only [Pm.callerNext]; split <;> exact h
  | allCancels => simp only [Pm.callerNext]; split <;> exact h
  | activateVotes => simpa [Pm.callerNext,Answered] using h
  | syncDevotes => simpa [Pm.callerNext,Answered] using h
  | allDevotes => simpa [Pm.callerNext,Answered] using h
  | _ => exact h

theorem workStep_answered (h : Answered p) : Answered p.workStep := by
  cases hw : p.worker with
  | idle => simpa [Pm.workStep,hw] using h
  | votes => simp [Pm.workStep,hw,Answered,Worker.activating]
  | settles =>
    simp only [Pm.workStep,hw]
    fun_cases Pm.activateWorkSettle p <;> exact .inr (.inr rfl)
  | completes decClk => simp [Pm.workStep,hw,Answered]
  | defers =>
    simp only [Answered,hw,Worker.activating,Bool.false_eq_true,or_false] at h
    simp only [Pm.workStep,hw]
    fun_cases Pm.deferredWorkSettle p <;> exact h.imp id .inl
  | _ =>
    simp only [Answered,hw,Worker.activating,Bool.false_eq_true,or_false] at h
    simpa [Pm.workStep,hw,Answered,Worker.activating] using h

/-- What is going to be completed stays so. -/
theorem answered_step (h : Answered p) (op : Op) : Answered (step p op) := by
  cases op with
  | activate got =>
    simp only [step,Pm.enter]
    fun_cases Pm.activateHelper p false got
    · exact h
    · exact h
    · exact activateSwitch_answered h false got
  | activateSync =>
    simp only [step,Pm.enter]
    fun_cases Pm.activateHelper p true false
    · exact h
    · exact h
    · exact activateSwitch_answered h true false
  | deferredDeactivate =>
    simp only [step]
    fun_cases Pm.deferredDeactivate p <;> exact h
  | deactivateSync => exact h
  | deactivateAllDeferred => exact h
  | takeActivate =>
    simp only [step,Pm.takeActivate]
    split
    · exact .inr (.inr rfl)
    · exact h
  | takeDeactivate =>
    simp only [step,Pm.takeDeactivate]
    split
    case isTrue hd =>
      simp only [Answered,hd.2,Worker.activating,Bool.false_eq_true,or_false] at h
      exact h.imp id .inl
    case isFalse => exact h
  | work => exact workStep_answered h
  | caller i =>
    simp only [step,Pm.callerStep]
    split
    · exact h
    · exact callerNext_answered h _

/-- Without a work that completes, the work queue does not bring one about. -/
theorem not_answered_step (h : ¬ Answered p) (hop : op.byQueue = true) :
    ¬ Answered (step p op) := by
  simp only [Answered,not_or,Bool.not_eq_true] at h ⊢
  obtain ⟨hc,ha,hw⟩ := h
  cases op with
  | takeActivate => simpa [step,Pm.takeActivate,ha] using ⟨hc,hw⟩
  | takeDeactivate =>
    simp only [step,Pm.takeDeactivate]
    split
    · exact ⟨hc,ha,rfl⟩
    · exact ⟨hc,ha,hw⟩
  | work =>
    cases hp : p.worker with
    | idle => simpa [step,Pm.workStep,hp] using ⟨hc,ha,rfl⟩
    | defers =>
      simp only [step,Pm.workStep,hp]
      fun_cases Pm.deferredWorkSettle p <;> exact ⟨hc,ha,rfl⟩
    | devotes => simp [step,Pm.workStep,hp,hc,ha,Worker.activating]
    | deferredDevotes => simp [step,Pm.workStep,hp,hc,ha,Worker.activating]
    | votes => simp [hp,Worker.activating] at hw
    | settles => simp [hp,Worker.activating] at hw
    | completes => simp [hp,Worker.activating] at hw
  | _ => simp [Op.byQueue] at hop

theorem releasable_cons (op : Op) (hop : op.byQueue = true) (h : Releasable (step p op)) :
    Releasable p := by
  obtain ⟨ops,hops,hc⟩ := h
  exact ⟨op::ops,by simpa [hop] using hops,hc⟩

theorem releasable_of_activating (h : p.worker.activating = true) : Releasable p := by
  have hcompletes {q : Pm} {b : Bool} (hq : q.worker = .completes b) : Releasable q :=
    releasable_cons .work rfl ⟨[],by simp,by simp [step,Pm.workStep,hq]⟩
  have hsettles {q : Pm} (hq : q.worker = .settles) : Releasable q := by
    refine releasable_cons .work rfl ?_
    simp only [step,Pm.workStep,hq]
    fun_cases Pm.activateWorkSettle q <;> exact hcompletes rfl
  cases hw : p.worker with
  | votes =>
    refine releasable_cons .work rfl (hsettles ?_)
    simp [step,Pm.workStep,hw]
  | settles => exact hsettles hw
  | completes decClk => exact hcompletes hw
  | _ => simp [hw,Worker.activating] at h

/-- The work queue ends what it has, takes `activate_work` and completes. -/
theorem releasable_of_activateWork (h : p.activateWork = true) : Releasable p := by
  have hidle {q : Pm} (hq : q.worker = .idle) (ha : q.activateWork = true) : Releasable q := by
    refine releasable_cons .takeActivate rfl (releasable_of_activating ?_)
    simp [step,Pm.takeActivate,hq,ha,Worker.activating]
  have hdevotes {q : Pm} (hq : q.worker = .deferredDevotes) (ha : q.activateWork = true) :
      Releasable q := by
    refine releasable_cons .work rfl (hidle ?_ ?_)
    · simp [step,Pm.workStep,hq]
    · simpa [step,Pm.workStep,hq] using ha
  cases hw : p.worker with
  | idle => exact hidle hw h
  | defers =>
    refine releasable_cons .work rfl ?_
    simp only [step,Pm.workStep,hw]
    fun_cases Pm.deferredWorkSettle p
    · exact hidle rfl h
    · exact hidle rfl h
    · exact hdevotes rfl h
    · exact hidle rfl h
  | deferredDevotes => exact hdevotes hw h
  | devotes =>
    refine releasable_cons .work rfl (hidle ?_ ?_)
    · simp [step,Pm.workStep,hw]
    · simpa [step,Pm.workStep,hw] using h
  | _ => exact releasable_of_activating (by simp [hw,Worker.activating])

theorem releasable_iff (p : Pm) : Releasable p ↔ Answered p := by
  constructor
  · rintro ⟨ops,hops,hc⟩
    by_contra hn
    have hrun := guarded_invariant (L := fun _ op => op.byQueue = true)
      (I := fun q => ¬ Answered q) (fun _ _ hq hop => not_answered_step hq hop) hn ops
      (guarded_of_forall step p hops)
    exact hrun (.inl hc)
  · rintro (hc|ha|hw)
    · exact ⟨[],by simp,hc⟩
    · exact releasable_of_activateWork ha
    · exact releasable_of_activating hw

theorem activateSwitch_waits (p : Pm) (sync got : Bool) :
    (p.activateSwitch sync got).2.waits = false := by
  fun_cases Pm.activateSwitch p sync got <;> rfl

/-- A caller that waits after a step was waiting before, or has begun to. -/
theorem callerNext_waits (h : (p.callerNext c).2.waits = true) :
    c.waits = true ∨ (c = .syncChecks ∨ c = .allChecks) ∧ p.state.inProgress = true := by
  cases c with
  | activateLocks => simp [Pm.callerNext,activateSwitch_waits] at h
  | allLocks =>
    simp only [Pm.callerNext] at h
    revert h
    fun_cases Pm.allDeferredSettle p <;> simp [Caller.waits]
  | syncChecks =>
    simp only [Pm.callerNext] at h
    split at h
    case isTrue hp => exact .inr ⟨.inl rfl,hp⟩
    case isFalse => simp [Caller.waits] at h
  | allChecks =>
    simp only [Pm.callerNext] at h
    split at h
    case isTrue hp => exact .inr ⟨.inr rfl,hp⟩
    case isFalse => simp [Caller.waits] at h
  | activateWaits => exact .inl rfl
  | syncWaits => exact .inl rfl
  | allWaits => exact .inl rfl
  | _ =>
    simp only [Pm.callerNext] at h
    try split at h
    all_goals simp [Caller.waits] at h

theorem enter_waits {r : Pm × Caller} (hc : r.1.callers = p.callers)
    (h : ∃ c ∈ (Pm.enter r).callers, c.waits = true) :
    (∃ c ∈ p.callers, c.waits = true) ∨ r.2.waits = true := by
  simpa [Pm.enter,hc,or_and_right,exists_or] using h

theorem waits_step (h : ∃ c ∈ (step p op).callers, c.waits = true) :
    (∃ c ∈ p.callers, c.waits = true) ∨ BeginsToWait p op := by
  cases op with
  | activate got =>
    refine (enter_waits (activateHelper_frame p false got).2.2.1 h).imp id fun hw => ?_
    revert hw
    fun_cases Pm.activateHelper p false got
    · contradiction
    · simp [Caller.waits]
    · simp [activateSwitch_waits]
  | activateSync =>
    refine (enter_waits (activateHelper_frame p true false).2.2.1 h).imp id fun hw => ?_
    revert hw
    fun_cases Pm.activateHelper p true false
    case case1 hp hs => exact fun _ => hp
    case case2 hp hs => simp at hs
    case case3 hp => simp [activateSwitch_waits]
  | deferredDeactivate =>
    have hc : p.deferredDeactivate.callers = p.callers := (deferredDeactivate_frame p).2.2.2.1
    exact .inl (by simpa [step,hc] using h)
  | deactivateSync => exact .inl ((enter_waits rfl h).resolve_right (by simp [Caller.waits]))
  | deactivateAllDeferred =>
    exact .inl ((enter_waits rfl h).resolve_right (by simp [Caller.waits]))
  | takeActivate => exact .inl (by simpa [step,(takeActivate_frame p).2.2.2.1] using h)
  | takeDeactivate => exact .inl (by simpa [step,(takeDeactivate_frame p).2.2.2.1] using h)
  | work => exact .inl (by simpa [step,(workStep_frame p).2] using h)
  | caller i =>
    simp only [step,Pm.callerStep] at h
    cases hi : p.callers[i]? with
    | none => exact .inl (by simpa [hi] using h)
    | some c =>
      simp only [hi] at h
      obtain ⟨d,hd,hdw⟩ := h
      obtain hold|rfl := List.mem_or_eq_of_mem_set hd
      · exact .inl ⟨d,hold,hdw⟩
      · obtain hc|⟨hc,hp⟩ := callerNext_waits hdw
        · exact .inl ⟨c,List.mem_of_getElem? hi,hc⟩
        · exact .inr ⟨hc.imp (fun hs => by rw [hi,hs]) (fun hs => by rw [hi,hs]),hp⟩

/-- A caller that begins to wait is waiting after the step, and the step changes nothing else. -/
theorem beginsToWait_step (h : BeginsToWait p op) :
    (∃ c ∈ (step p op).callers, c.waits = true) ∧ (Answered (step p op) ↔ Answered p) := by
  cases op with
  | activateSync =>
    have hp : p.state.inProgress = true := h
    simp [step,Pm.activateHelper,hp,Pm.enter,Caller.waits,Answered]
  | caller i =>
    obtain ⟨hi,hp⟩ := h
    have hlen : i < p.callers.length := by
      by_contra hn
      simp [List.getElem?_eq_none (not_lt.mp hn)] at hi
    obtain hi|hi := hi
    · simp only [step,Pm.callerStep,hi,Pm.callerNext,hp,if_true]
      exact ⟨⟨.syncWaits,List.mem_set hlen _,rfl⟩,Iff.rfl⟩
    · simp only [step,Pm.callerStep,hi,Pm.callerNext,hp,if_true]
      exact ⟨⟨.allWaits,List.mem_set hlen _,rfl⟩,Iff.rfl⟩
  | _ => exact absurd h id

/-- Whoever waits for the completion can always be released by the work queue alone exactly in
the runs in which nobody begins to wait while no completion is there and no `activate_work` is
pending or running, as during `ipa_pm_activate_sync`, which never completes. -/
theorem releasable_always_iff (skipClkVote : Bool) (ops : List Op) :
    Always step (fun p => (∃ c ∈ p.callers, c.waits = true) → Releasable p)
        (register skipClkVote) ops ↔
      Guarded step (fun p op => ¬ Hangs p op) (register skipClkVote) ops := by
  simp only [releasable_iff]
  have h0 : (∃ c ∈ (register skipClkVote).callers, c.waits = true) →
      Answered (register skipClkVote) := by
    simp [register]
  refine always_iff_guarded (I := fun p => (∃ c ∈ p.callers, c.waits = true) → Answered p)
    (fun _ h => h) (fun p op h _ hc hw => ?_) (fun p op _ _ hc ha => ?_) h0 ops
    (guarded_true step _ ops)
  · by_cases ha : Answered p
    · exact answered_step ha op
    · exact absurd ⟨(waits_step hw).resolve_left fun hold => ha (h hold),ha⟩ hc
  · obtain ⟨hb,hn⟩ := not_not.mp hc
    obtain ⟨hw,hiff⟩ := beginsToWait_step hb
    exact hn (hiff.mp (ha hw))

end Completion

section Timer

/-- The caller has cancelled the timer, and is going to take the client out of its state. -/
def Caller.deactivating : Caller → Bool
  | .syncChecks => true
  | .syncWaits => true
  | .syncLocks => true
  | .syncDevotes => true
  | .syncSettles => true
  | .allChecks => true
  | .allLocks => true
  | _ => false

/-- A client in a timer set state has a timer, or a deactivation under way. -/
def Timed (p : Pm) : Prop :=
  p.state.timerSet = true →
    p.deactivateWork = true ∨ p.worker = .defers ∨ ∃ c ∈ p.callers, c.deactivating = true

/-- `ipa_pm_deactivate_sync` cancels the timer of a client that has been activated and deactivated
again behind its back, and nobody else is deactivating it. -/
def Strands (p : Pm) : Op → Prop
  | .caller i =>
    p.callers[i]? = some .syncCancelsAgain ∧ p.deferring = false ∧ p.state.timerSet = true ∧
      ∀ c ∈ p.callers, c.deactivating = false
  | _ => False

theorem activateSwitch_timerSet {sync got : Bool}
    (h : (p.activateSwitch sync got).1.state.timerSet = true) : p.state.timerSet = true := by
  revert h
  fun_cases Pm.activateSwitch p sync got <;> simp_all [PmState.timerSet]

theorem activateHelper_timerSet {sync got : Bool}
    (h : (p.activateHelper sync got).1.state.timerSet = true) : p.state.timerSet = true := by
  revert h
  fun_cases Pm.activateHelper p sync got
  · exact id
  · simp [PmState.timerSet]
  · exact activateSwitch_timerSet

theorem mem_set_of_ne {l : List Caller} (hi : l[i]? = some c) (hd : d ∈ l) (hne : d ≠ c)
    (e : Caller) : d ∈ l.set i e := by
  obtain ⟨j,hj⟩ := List.mem_iff_getElem?.mp hd
  have hij : i ≠ j := by
    rintro rfl
    rw [hi] at hj
    exact hne (Option.some.inj hj).symm
  exact List.mem_iff_getElem?.mpr ⟨j,by rw [List.getElem?_set_ne hij,hj]⟩

/-- A caller leaves a client in a timer set state only with its timer as it was, or on its way to
take it out of there. -/
theorem callerNext_timerSet (hc : c ≠ .syncCancelsAgain)
    (h : (p.callerNext c).1.state.timerSet = true) :
    (p.callerNext c).2.deactivating = true ∨
      p.state.timerSet = true ∧ (p.callerNext c).1.deactivateWork = p.deactivateWork ∧
        c.deactivating = false := by
  cases c with
  | activateLocks =>
    exact .inr ⟨activateSwitch_timerSet h,(activateSwitch_frame p true false).2.2.2,rfl⟩
  | allLocks =>
    revert h
    simp only [Pm.callerNext]
    fun_cases Pm.allDeferredSettle p with
    | case4 h1 h2 h3 => cases hs : p.state <;> simp_all [PmState.timerSet]
    | _ => simp [PmState.timerSet]
  | syncCancels =>
    revert h
    simp only [Pm.callerNext]
    split
    · exact fun h => .inr ⟨h,rfl,rfl⟩
    · exact fun _ => .inl rfl
  | allCancels =>
    revert h
    simp only [Pm.callerNext]
    split
    · exact fun h => .inr ⟨h,rfl,rfl⟩
    · exact fun _ => .inl rfl
  | syncChecks =>
    refine .inl ?_
    simp only [Pm.callerNext]
    split <;> rfl
  | syncWaits =>
    refine .inl ?_
    simp only [Pm.callerNext]
    split <;> rfl
  | syncLocks =>
    have hs : p.state.timerSet = true := h
    have hne : p.state ≠ .deactivated := by
      intro he
      simp [he,PmState.timerSet] at hs
    simp [Pm.callerNext,hne,Caller.deactivating]
  | allChecks =>
    have hs : p.state.timerSet = true := h
    have hne : p.state.inProgress = false := by
      cases hp : p.state <;> simp_all [PmState.timerSet,PmState.inProgress]
    simp [Pm.callerNext,hne,Caller.deactivating]
  | syncCancelsAgain => exact absurd rfl hc
  | activateSettles => simp [Pm.callerNext,PmState.timerSet] at h
  | syncSettles => simp [Pm.callerNext,PmState.timerSet] at h
  | syncDevotes => exact .inl rfl
  | activateVotes => exact .inr (by simpa [Pm.callerNext,Caller.deactivating] using h)
  | allDevotes => exact .inr (by simpa [Pm.callerNext,Caller.deactivating] using h)
  | _ => exact .inr ⟨h,rfl,rfl⟩

theorem timed_caller (h : Timed p) (hs : ¬ Strands p (.caller i)) :
    Timed (p.callerStep i) := by
  rw [Pm.callerStep]
  cases hi : p.callers[i]? with
  | none => exact h
  | some c =>
    obtain ⟨hw,-,-⟩ := callerNext_frame p c
    intro ht
    simp only [hw] at ht ⊢
    -- a deactivation by another caller goes on
    have hother (hc : c.deactivating = false)
        (hd : ∃ d ∈ p.callers, d.deactivating = true) :
        ∃ d ∈ p.callers.set i (p.callerNext c).2, d.deactivating = true := by
      obtain ⟨d,hd,hdd⟩ := hd
      refine ⟨d,mem_set_of_ne hi hd ?_ _,hdd⟩
      rintro rfl
      simp [hc] at hdd
    by_cases hc : c = .syncCancelsAgain
    · subst hc
      simp only [Pm.callerNext] at ht hother ⊢
      split at ht
      case isTrue hdef =>
        simp only [hdef,if_true] at hother ⊢
        exact (h ht).imp id (Or.imp id (hother rfl))
      case isFalse hdef =>
        have hdef : p.deferring = false := by simpa using hdef
        simp only [hdef,Bool.false_eq_true,if_false] at hother ⊢
        refine .inr (.inr (hother rfl ?_))
        by_contra hn
        exact hs ⟨hi,hdef,ht,by simpa using hn⟩
    · obtain hd|⟨ht',hdw,hcd⟩ := callerNext_timerSet hc ht
      · have hlen : i < p.callers.length := (List.getElem?_eq_some_iff.mp hi).1
        exact .inr (.inr ⟨_,List.mem_set hlen _,hd⟩)
      · rw [hdw]
        exact (h ht').imp id (Or.imp id (hother hcd))

theorem timed_work (h : Timed p) : Timed p.workStep := by
  obtain ⟨-,hc⟩ := workStep_frame p
  intro ht
  rw [hc]
  revert ht
  cases hw : p.worker with
  | settles =>
    simp only [Timed,hw] at h
    simp only [Pm.workStep,hw]
    fun_cases Pm.activateWorkSettle p <;> simp_all [PmState.timerSet]
  | defers =>
    simp only [Pm.workStep,hw]
    fun_cases Pm.deferredWorkSettle p with
    | case4 h1 h2 h3 => cases hs : p.state <;> simp_all [PmState.timerSet]
    | _ => simp [PmState.timerSet]
  | completes decClk =>
    simp only [Timed,hw] at h
    cases decClk <;> simpa [Pm.workStep,hw] using h
  | idle => simpa [Timed,Pm.workStep,hw] using h
  | _ => simpa [Timed,Pm.workStep,hw] using h

theorem timed_activateHelper (h : Timed p) (sync got : Bool) :
    Timed (p.activateHelper sync got).1 := by
  obtain ⟨hw,-,hc,hd⟩ := activateHelper_frame p sync got
  rw [Timed,hw,hc,hd]
  exact fun ht => h (activateHelper_timerSet ht)

theorem timed_enter {r : Pm × Caller} (h : Timed r.1) : Timed (Pm.enter r) := by
  intro ht
  simp only [Pm.enter,List.mem_append]
  exact (h ht).imp id (Or.imp id (Exists.imp fun d hd => ⟨.inl hd.1,hd.2⟩))

theorem timed_step (h : Timed p) (hs : ¬ Strands p op) : Timed (step p op) := by
  cases op with
  | activate got => exact timed_enter (timed_activateHelper h false got)
  | activateSync => exact timed_enter (timed_activateHelper h true false)
  | deferredDeactivate =>
    simp only [step]
    fun_cases Pm.deferredDeactivate p <;> simp_all [Timed,PmState.timerSet]
  | deactivateSync => exact timed_enter h
  | deactivateAllDeferred => exact timed_enter h
  | takeActivate =>
    simp only [step,Pm.takeActivate]
    split
    case isTrue ht => simpa [Timed,ht.2] using h
    case isFalse => exact h
  | takeDeactivate =>
    simp only [step,Pm.takeDeactivate]
    split
    · exact fun _ => .inr (.inl rfl)
    · exact h
  | work => exact timed_work h
  | caller i => exact timed_caller h hs

theorem not_timed_of_strands (h : Strands p op) : ¬ Timed (step p op) := by
  cases op with
  | caller i =>
    obtain ⟨hi,hdef,ht,hall⟩ := h
    have hw : p.worker ≠ .defers := by
      intro hw
      simp [Pm.deferring,hw] at hdef
    intro htimed
    simp only [step,Pm.callerStep,hi,Pm.callerNext,hdef,Bool.false_eq_true,if_false] at htimed
    obtain hf|hf|⟨d,hd,hdd⟩ := htimed ht
    · simp at hf
    · exact hw hf
    · obtain hold|rfl := List.mem_or_eq_of_mem_set hd
      · simp [hall d hold] at hdd
      · simp [Caller.deactivating] at hdd
  | _ => exact absurd h id

/-- A client in a timer set state always has a timer or a deactivation under way exactly in the
runs in which the second `cancel_delayed_work_sync` of `ipa_pm_deactivate_sync` never finds the
client in such a state again, with nobody else deactivating it. -/
theorem timed_always_iff (skipClkVote : Bool) (ops : List Op) :
    Always step Timed (register skipClkVote) ops ↔
      Guarded step (fun p op => ¬ Strands p op) (register skipClkVote) ops := by
  have h0 : Timed (register skipClkVote) := by
    simp [Timed,register,PmState.timerSet]
  exact always_iff_guarded (I := Timed) (fun _ h => h) (fun p op h _ hs => timed_step h hs)
    (fun p op _ _ hs => not_timed_of_strands (not_not.mp hs)) h0 ops (guarded_true step _ ops)

example : ¬ Timed (run step (register false)
    [.activate true,.deactivateSync,.caller 1,.caller 1,.caller 1,.caller 1,.caller 1,
      .activate true,.deferredDeactivate,.caller 1]) := by
  unfold Timed
  decide

end Timer

end IpaPm
end MarbleModules
