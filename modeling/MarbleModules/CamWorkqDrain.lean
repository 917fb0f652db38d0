import MarbleModules.CamWorkqRuns

/-! What the worker can still get to: with nothing but steps of its own it empties both lists,
unless a flush has taken the work away from under a task. -/
namespace MarbleModules
namespace CamWorkq

open Runs

variable {w w' : Workq} {n i j : ℕ} {op : Op}

def WorkerOnly (op : Op) : Prop := op = .workStart ∨ op = .workStep

/-- Steps of the worker alone lead from one state to the other. -/
def Works (w w' : Workq) : Prop := ∃ ops, (∀ op ∈ ops, WorkerOnly op) ∧ run step w ops = w'

/-- The worker alone can empty the lists. -/
def Drainable (w : Workq) : Prop := ∃ w', Works w w' ∧ ∀ i, w'.processHead i = []

/-- The worker is in front of the list, or at it. -/
def Worker.Reaches (v : Worker) (j : ℕ) : Prop := ∃ i, v.at? = some i ∧ i ≤ j

/-- A task is pending only where the worker comes by. -/
def Covered (w : Workq) : Prop :=
  ∀ j, w.processHead j ≠ [] → w.queued = true ∨ w.worker.Reaches j

/-- The work is cancelled while a list behind the worker has a task, or a task is enqueued behind
the worker while the work is being cancelled. -/
def Strands (w : Workq) (op : Op) : Prop :=
  match op with
  | .flushStep => w.flusher = .set ∧ ∃ j, w.processHead j ≠ [] ∧ ¬w.worker.Reaches j
  | .enqueueLock t => t ∈ w.locking ∧ w.job = true ∧ w.flusher = .cancels ∧
      ¬w.worker.Reaches (w.task t).priority
  | _ => False

section Works

theorem Works.refl (w : Workq) : Works w w := ⟨[],by simp,rfl⟩

theorem Works.trans {w'' : Workq} (h : Works w w') (h' : Works w' w'') : Works w w'' := by
  obtain ⟨ops,hops,hrun⟩ := h
  obtain ⟨ops',hops',hrun'⟩ := h'
  refine ⟨ops++ops',fun op hop => ?_,by rw [run_append,hrun,hrun']⟩
  rcases List.mem_append.mp hop with hop | hop
  · exact hops op hop
  · exact hops' op hop

theorem works_workStep (w : Workq) : Works w w.workStep :=
  ⟨[.workStep],fun _ hop => Or.inr (List.mem_singleton.mp hop),rfl⟩

theorem works_workStart (w : Workq) : Works w w.workStart :=
  ⟨[.workStart],fun _ hop => Or.inl (List.mem_singleton.mp hop),rfl⟩

theorem Works.invariant {I : Workq → Prop} (hstart : ∀ w, I w → I w.workStart)
    (hstep : ∀ w, I w → I w.workStep) (h : Works w w') (hw : I w) : I w' := by
  obtain ⟨ops,hops,rfl⟩ := h
  refine guarded_invariant (L := fun _ op => WorkerOnly op) (fun w op hI hop => ?_) hw ops
    (guarded_of_forall step w hops)
  rcases hop with rfl | rfl
  · exact hstart w hI
  · exact hstep w hI

theorem Works.inRange (h : Works w w') (hr : InRange w) : InRange w' :=
  h.invariant (fun _ hw => inRange_step hw .workStart) (fun _ hw => inRange_step hw .workStep) hr

/-- The worker puts the task in hand away, and is at the lock again. -/
theorem works_locks (hw : w.worker.at? = some i) :
    ∃ w', Works w w' ∧ w'.worker = .locks i ∧ w'.queued = w.queued ∧
      w'.processHead = w.processHead := by
  have hputs : ∀ (v : Workq) t, v.worker = .puts i t →
      ∃ w', Works v w' ∧ w'.worker = .locks i ∧ w'.queued = v.queued ∧
        w'.processHead = v.processHead := by
    intro v t hv
    refine ⟨_,works_workStep v,?_,?_,?_⟩ <;> simp only [Workq.workStep,hv,Workq.workqPutTask]
  have hruns : ∀ (v : Workq) t, v.worker = .runs i t →
      ∃ w', Works v w' ∧ w'.worker = .locks i ∧ w'.queued = v.queued ∧
        w'.processHead = v.processHead := by
    intro v t hv
    obtain ⟨w',hworks,hw'⟩ := hputs v.workStep t (by simp only [Workq.workStep,hv])
    refine ⟨w',(works_workStep v).trans hworks,?_⟩
    simp only [Workq.workStep,hv] at hw'
    exact hw'
  cases hv : w.worker with
  | idle => rw [hv] at hw; cases hw
  | locks k =>
    rw [hv] at hw
    obtain rfl : k = i := Option.some.inj hw
    exact ⟨w,.refl w,hv,rfl,rfl⟩
  | took k t =>
    rw [hv] at hw
    obtain rfl : k = i := Option.some.inj hw
    by_cases hflush : w.flush = true
    · refine ⟨_,works_workStep w,?_,?_,?_⟩ <;> simp only [Workq.workStep,hv,if_pos hflush]
    · obtain ⟨w',hworks,hw'⟩ := hruns w.workStep t
        (by simp only [Workq.workStep,hv,if_neg hflush])
      refine ⟨w',(works_workStep w).trans hworks,?_⟩
      simp only [Workq.workStep,hv,if_neg hflush] at hw'
      exact hw'
  | runs k t =>
    rw [hv] at hw
    obtain rfl : k = i := Option.some.inj hw
    exact hruns w t hv
  | puts k t =>
    rw [hv] at hw
    obtain rfl : k = i := Option.some.inj hw
    exact hputs w t hv

/-- The inner loop: the list the worker is at is emptied, and the other is left alone. -/
theorem works_list (hw : w.worker = .locks i) :
    ∃ w', Works w w' ∧ w'.worker = .locks i ∧ w'.queued = w.queued ∧ w'.processHead i = [] ∧
      ∀ j, j ≠ i → w'.processHead j = w.processHead j := by
  induction hl : w.processHead i generalizing w with
  | nil => exact ⟨w,.refl w,hw,rfl,hl,fun _ _ => rfl⟩
  | cons t rest ih =>
    have htook : w.workStep.worker = .took i t := by simp only [Workq.workStep,hw,hl]
    have hqueued : w.workStep.queued = w.queued := by simp only [Workq.workStep,hw,hl]
    have hlist : w.workStep.processHead = Function.update w.processHead i rest := by
      simp only [Workq.workStep,hw,hl]
    obtain ⟨w₁,hworks₁,hw₁,hq₁,hl₁⟩ := works_locks (w := w.workStep) (by rw [htook]; rfl)
    obtain ⟨w₂,hworks₂,hw₂,hq₂,hempty,hother⟩ := ih hw₁
      (by rw [hl₁,hlist,Function.update_self])
    refine ⟨w₂,(works_workStep w).trans (hworks₁.trans hworks₂),hw₂,
      hq₂.trans (hq₁.trans hqueued),hempty,fun j hj => ?_⟩
    rw [hother j hj,hl₁,hlist,Function.update_of_ne hj]

/-- The outer loop: all lists from here on are emptied. -/
theorem works_pass (hr : InRange w) (hw : w.worker = .locks i) :
    ∃ w', Works w w' ∧ w'.worker = .idle ∧ w'.queued = w.queued ∧
      (∀ j, i ≤ j → w'.processHead j = []) ∧ ∀ j, j < i → w'.processHead j = w.processHead j := by
  induction hk : crmTaskPriorityMax-i generalizing w i with
  | zero =>
    have := hr.worker i (by rw [hw]; rfl)
    omega
  | succ k ih =>
    obtain ⟨w₁,hworks₁,hw₁,hq₁,hempty₁,hother₁⟩ := works_list hw
    have hr₁ := hworks₁.inRange hr
    have hlist : w₁.workStep.processHead = w₁.processHead := by
      simp only [Workq.workStep,hw₁,hempty₁]
    have hqueued : w₁.workStep.queued = w₁.queued := by simp only [Workq.workStep,hw₁,hempty₁]
    by_cases hlt : i+1 < crmTaskPriorityMax
    · have hnext : w₁.workStep.worker = .locks (i+1) := by
        simp only [Workq.workStep,hw₁,hempty₁,if_pos hlt]
      obtain ⟨w₂,hworks₂,hw₂,hq₂,hempty₂,hother₂⟩ :=
        ih (w := w₁.workStep) (inRange_step hr₁ .workStep) hnext (by omega)
      refine ⟨w₂,hworks₁.trans ((works_workStep w₁).trans hworks₂),hw₂,
        hq₂.trans (hqueued.trans hq₁),fun j hj => ?_,fun j hj => ?_⟩
      · by_cases hji : j = i
        · rw [hother₂ j (by omega),hlist,hji,hempty₁]
        · exact hempty₂ j (by omega)
      · rw [hother₂ j (by omega),hlist,hother₁ j (by omega)]
    · have hnext : w₁.workStep.worker = .idle := by
        simp only [Workq.workStep,hw₁,hempty₁,if_neg hlt]
      refine ⟨w₁.workStep,hworks₁.trans (works_workStep w₁),hnext,hqueued.trans hq₁,
        fun j hj => ?_,fun j hj => ?_⟩
      · rw [hlist]
        by_cases hji : j = i
        · rw [hji,hempty₁]
        · exact hr₁.lists j (by omega)
      · rw [hlist,hother₁ j (by omega)]

theorem works_all (hr : InRange w) (hw : w.worker = .idle) (hq : w.queued = true) :
    Drainable w := by
  have hstart : w.workStart.worker = .locks 0 := by
    rw [Workq.workStart,if_pos ⟨hq,hw⟩]
  obtain ⟨w',hworks,-,-,hempty,-⟩ := works_pass (inRange_step hr .workStart) hstart
  exact ⟨w',(works_workStart w).trans hworks,fun i => hempty i (Nat.zero_le i)⟩

theorem Covered.drainable (hr : InRange w) (hc : Covered w) : Drainable w := by
  cases hat : w.worker.at? with
  | none =>
    have hidle : w.worker = .idle := by
      cases hw : w.worker with
      | idle => rfl
      | _ => rw [hw] at hat; cases hat
    by_cases hq : w.queued = true
    · exact works_all hr hidle hq
    · refine ⟨w,.refl w,fun i => by_contra fun hne => ?_⟩
      rcases hc i hne with hq' | ⟨k,hk,-⟩
      · exact hq hq'
      · rw [hat] at hk
        cases hk
  | some i =>
    obtain ⟨w₁,hworks₁,hw₁,hq₁,hl₁⟩ := works_locks hat
    obtain ⟨w₂,hworks₂,hw₂,hq₂,hempty,hbelow⟩ := works_pass (hworks₁.inRange hr) hw₁
    by_cases hq : w.queued = true
    · obtain ⟨w₃,hworks₃,hall⟩ := works_all (hworks₂.inRange (hworks₁.inRange hr)) hw₂
        (hq₂.trans (hq₁.trans hq))
      exact ⟨w₃,hworks₁.trans (hworks₂.trans hworks₃),hall⟩
    · refine ⟨w₂,hworks₁.trans hworks₂,fun j => ?_⟩
      by_cases hj : i ≤ j
      · exact hempty j hj
      · rw [hbelow j (by omega),hl₁]
        by_contra hne
        rcases hc j hne with hq' | ⟨k,hk,hle⟩
        · exact hq hq'
        · rw [hat] at hk
          obtain rfl : i = k := Option.some.inj hk
          exact hj hle

/-- A task behind the worker, with no work pending: no step of the worker changes that. -/
def Stranded (j : ℕ) (w : Workq) : Prop :=
  w.processHead j ≠ [] ∧ w.queued = false ∧ ¬w.worker.Reaches j

theorem Stranded.workStart (h : Stranded j w) : Stranded j w.workStart := by
  rw [Workq.workStart,if_neg]
  · exact h
  · rintro ⟨hq,-⟩
    rw [h.2.1] at hq
    cases hq

theorem Worker.not_reaches_of_at {v v' : Worker} (hv : v.at? = v'.at?) (h : ¬v'.Reaches j) :
    ¬v.Reaches j := by
  rw [Worker.Reaches,hv]
  exact h

theorem Stranded.workStep (h : Stranded j w) : Stranded j w.workStep := by
  obtain ⟨hne,hq,hr⟩ := h
  cases hw : w.worker with
  | idle =>
    simp only [Workq.workStep,hw]
    exact ⟨hne,hq,hr⟩
  | locks i =>
    have hlt : ¬i ≤ j := fun hle => hr ⟨i,by rw [hw]; rfl,hle⟩
    cases hl : w.processHead i with
    | nil =>
      simp only [Workq.workStep,hw,hl]
      refine ⟨hne,hq,?_⟩
      rintro ⟨k,hk,hle⟩
      dsimp only at hk
      split at hk
      · obtain rfl : i+1 = k := Option.some.inj hk
        omega
      · cases hk
    | cons t rest =>
      simp only [Workq.workStep,hw,hl]
      refine ⟨?_,hq,Worker.not_reaches_of_at (by rw [hw]; rfl) hr⟩
      dsimp only
      rw [Function.update_of_ne (by omega)]
      exact hne
  | took i t =>
    simp only [Workq.workStep,hw]
    split
    · exact ⟨hne,hq,Worker.not_reaches_of_at (by rw [hw]; rfl) hr⟩
    · exact ⟨hne,hq,Worker.not_reaches_of_at (by rw [hw]; rfl) hr⟩
  | runs i t =>
    simp only [Workq.workStep,hw]
    exact ⟨hne,hq,Worker.not_reaches_of_at (by rw [hw]; rfl) hr⟩
  | puts i t =>
    simp only [Workq.workStep,hw]
    exact ⟨hne,hq,Worker.not_reaches_of_at (by rw [hw]; rfl) hr⟩

theorem drainable_iff (hr : InRange w) : Drainable w ↔ Covered w := by
  refine ⟨?_,Covered.drainable hr⟩
  rintro ⟨w',hworks,hempty⟩ j hne
  by_contra hc
  rw [not_or] at hc
  have hs : Stranded j w := ⟨hne,by simpa using hc.1,hc.2⟩
  exact (hworks.invariant (I := Stranded j) (fun _ => Stranded.workStart)
    (fun _ => Stranded.workStep) hs).1 (hempty j)

end Works

section Cover

theorem Covered.congr (hc : Covered w) (hlist : w'.processHead = w.processHead)
    (hq : w'.queued = w.queued) (hw : w'.worker.at? = w.worker.at?) : Covered w' := by
  intro j hne
  rw [hlist] at hne
  rw [hq,Worker.Reaches,hw]
  exact hc j hne

theorem covered_enqueueLock (hc : Covered w) {t : ℕ} (hs : ¬Strands w (.enqueueLock t)) :
    Covered (w.enqueueLock t) := by
  rw [Workq.enqueueLock]
  split
  · next hmem =>
    split
    · next hjob =>
      by_cases hf : w.flusher = .cancels
      · rw [Workq.queueWork,if_pos hf]
        intro j hne
        by_cases hj : j = (w.task t).priority
        · right
          rw [hj]
          exact by_contra fun hr => hs ⟨hmem,hjob,hf,hr⟩
        · dsimp only at hne
          rw [Function.update_of_ne hj] at hne
          exact hc j hne
      · rw [Workq.queueWork,if_neg hf]
        exact fun _ _ => Or.inl rfl
    · exact hc.congr rfl rfl rfl
  · exact hc

theorem covered_workStep (hr : InRange w) (hc : Covered w) : Covered w.workStep := by
  cases hw : w.worker with
  | idle =>
    simp only [Workq.workStep,hw]
    exact hc
  | locks i =>
    have hreach : ∀ j, w.processHead j ≠ [] → w.queued = true ∨ i ≤ j := by
      intro j hne
      refine (hc j hne).imp id ?_
      rintro ⟨k,hk,hle⟩
      rw [hw] at hk
      obtain rfl : i = k := Option.some.inj hk
      exact hle
    cases hl : w.processHead i with
    | nil =>
      simp only [Workq.workStep,hw,hl]
      intro j hne
      dsimp only at hne ⊢
      refine (hreach j hne).imp id fun hle => ?_
      have hji : j ≠ i := by
        rintro rfl
        exact hne hl
      have hj : j < crmTaskPriorityMax := by
        by_contra hge
        exact hne (hr.lists j (Nat.le_of_not_lt hge))
      rw [if_pos (by omega)]
      exact ⟨i+1,rfl,by omega⟩
    | cons t rest =>
      simp only [Workq.workStep,hw,hl]
      intro j hne
      by_cases hji : j = i
      · exact Or.inr ⟨i,rfl,hji.ge⟩
      · dsimp only at hne
        rw [Function.update_of_ne hji] at hne
        exact (hreach j hne).imp id fun hle => ⟨i,rfl,hle⟩
  | took i t =>
    simp only [Workq.workStep,hw]
    split
    · exact hc.congr rfl rfl (by rw [hw]; rfl)
    · exact hc.congr rfl rfl (by rw [hw]; rfl)
  | runs i t =>
    simp only [Workq.workStep,hw]
    exact hc.congr rfl rfl (by rw [hw]; rfl)
  | puts i t =>
    simp only [Workq.workStep,hw]
    exact hc.congr rfl rfl (by rw [hw]; rfl)

theorem covered_step (hr : InRange w) (hc : Covered w) (hs : ¬Strands w op) :
    Covered (step w op) := by
  cases op with
  | getTask =>
    simp only [step,Workq.workqGetTask]
    split
    · exact hc
    · exact hc.congr rfl rfl rfl
  | fillTask t processCb cancel =>
    simp only [step,Workq.fillTask]
    split
    · exact hc.congr rfl rfl rfl
    · exact hc
  | enqueueCheck t priv prio =>
    simp only [step,Workq.enqueueCheck]
    split
    · split <;> exact hc.congr rfl rfl rfl
    · exact hc
  | enqueueLock t => exact covered_enqueueLock hc hs
  | enqueueAbort t =>
    simp only [step,Workq.enqueueAbort]
    split
    · exact hc.congr rfl rfl rfl
    · exact hc
  | workStart =>
    simp only [step,Workq.workStart]
    split
    · exact fun j _ => Or.inr ⟨0,rfl,Nat.zero_le j⟩
    · exact hc
  | workStep => exact covered_workStep hr hc
  | flushStep =>
    simp only [step,Workq.flushStep]
    cases hf : w.flusher with
    | idle => exact hc.congr rfl rfl rfl
    | set =>
      intro j hne
      right
      exact by_contra fun hr => hs ⟨hf,j,hne,hr⟩
    | cancels =>
      dsimp only
      split
      · exact hc.congr rfl rfl rfl
      · exact hc
    | clears => exact hc.congr rfl rfl rfl
  | destroyBegin => exact hc.congr rfl rfl rfl

/-- While the work is cancelled it is not queued. -/
def Quiet (w : Workq) : Prop := w.flusher = .cancels → w.queued = false

theorem quiet_step (h : Quiet w) (op : Op) : Quiet (step w op) := by
  cases op with
  | getTask =>
    simp only [step,Workq.workqGetTask]
    split <;> exact h
  | fillTask t processCb cancel =>
    simp only [step,Workq.fillTask]
    split <;> exact h
  | enqueueCheck t priv prio =>
    simp only [step,Workq.enqueueCheck]
    split
    · split <;> exact h
    · exact h
  | enqueueLock t =>
    simp only [step,Workq.enqueueLock]
    split
    · split
      · rw [Workq.queueWork]
        split
        · exact h
        · next hf => exact fun hh => absurd hh hf
      · exact h
    · exact h
  | enqueueAbort t =>
    simp only [step,Workq.enqueueAbort]
    split <;> exact h
  | workStart =>
    simp only [step,Workq.workStart]
    split
    · exact fun _ => rfl
    · exact h
  | workStep =>
    simp only [step,Workq.workStep]
    cases w.worker with
    | locks i => dsimp only; split <;> exact h
    | took i t => dsimp only; split <;> exact h
    | _ => exact h
  | flushStep =>
    simp only [step,Workq.flushStep]
    cases hf : w.flusher with
    | idle => exact fun hh => by cases hh
    | set => exact fun _ => rfl
    | cancels =>
      dsimp only
      split
      · exact fun hh => by cases hh
      · exact h
    | clears => exact fun hh => by cases hh
  | destroyBegin => exact h

theorem strands_breaks (hq : Quiet w) (hs : Strands w op) : ¬Covered (step w op) := by
  cases op with
  | flushStep =>
    obtain ⟨hf,j,hne,hr⟩ := hs
    intro hc
    simp only [step,Workq.flushStep,hf] at hc
    rcases hc j hne with hh | hh
    · cases hh
    · exact hr hh
  | enqueueLock t =>
    obtain ⟨hmem,hjob,hf,hr⟩ := hs
    intro hc
    simp only [step,Workq.enqueueLock,if_pos hmem,if_pos hjob] at hc
    rw [Workq.queueWork,if_pos hf] at hc
    rcases hc (w.task t).priority (by simp) with hh | hh
    · rw [hq hf] at hh
      cases hh
    · exact hr hh
  | _ => exact hs.elim

/-- The worker can always get to every pending task, exactly when no flush cancels the work with
a task behind the worker, and nothing is enqueued behind the worker during the cancellation. -/
theorem drainable_always_iff (n : ℕ) (ops : List Op) :
    Always step Drainable (workqCreate n) ops ↔
      Guarded step (fun w op => ¬Strands w op) (workqCreate n) ops := by
  refine always_iff_guarded (L := fun _ _ => True)
    (I := fun w => InRange w ∧ Covered w ∧ Quiet w) (fun _ h => h.2.1.drainable h.1)
    (fun w op h _ hs => ⟨inRange_step h.1 op,covered_step h.1 h.2.1 hs,quiet_step h.2.2 op⟩)
    (fun w op h _ hs hd => ?_) ⟨(created_inv n).inRange,?_,?_⟩ ops (guarded_true step _ ops)
  · exact strands_breaks h.2.2 (not_not.mp hs) ((drainable_iff (inRange_step h.1 op)).mp hd)
  · rw [workqCreate_eq]
    exact fun j hne => absurd rfl hne
  · rw [workqCreate_eq]
    exact fun hh => by cases hh

end Cover

end CamWorkq
end MarbleModules
