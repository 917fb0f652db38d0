import Mathlib.Data.List.Perm.Basic
import Mathlib.Data.List.Count
import MarbleModules.CamWorkq

/-! The work queue over all interleavings of its callers, its worker and its flush: where the
tasks of the pool are, in which order the callbacks are called, and which tasks the worker can
still get to. -/
namespace MarbleModules
namespace CamWorkq

open Runs

variable {w : Workq} {n t : ℕ} {op : Op}

section Places

/-- The task the worker has in hand -/
def Worker.inHand : Worker → List ℕ
  | .idle => []
  | .locks _ => []
  | .took _ t => [t]
  | .runs _ t => [t]
  | .puts _ t => [t]

/-- The tasks of the pool, by where they are -/
def Workq.everywhere (w : Workq) : List ℕ :=
  w.emptyHead++(w.processHead 0++(w.processHead 1++(w.owned++(w.locking++(w.putting++
    w.worker.inHand)))))

/-- Every task is in one place, and the counters count. -/
structure Conserved (n : ℕ) (w : Workq) : Prop where
  tasks : w.everywhere.Perm (List.range n)
  freeCnt : w.freeCnt = w.emptyHead.length
  pendingCnt : w.pendingCnt = (w.processHead 0).length+(w.processHead 1).length

/-- The worker finds the flush set, with a task in hand. -/
def Drops (w : Workq) (op : Op) : Prop :=
  match op,w.worker with
  | .workStep,.took _ _ => w.flush = true
  | _,_ => False

/-- The index of the list the worker is at -/
def Worker.at? : Worker → Option ℕ
  | .idle => none
  | .locks i => some i
  | .took i _ => some i
  | .runs i _ => some i
  | .puts i _ => some i

/-- There are two lists, whatever the tasks and the worker say. -/
structure InRange (w : Workq) : Prop where
  lists : ∀ i, crmTaskPriorityMax ≤ i → w.processHead i = []
  priority : ∀ t, (w.task t).priority < crmTaskPriorityMax
  worker : ∀ i, w.worker.at? = some i → i < crmTaskPriorityMax

theorem priorityOf_lt (prio : ℤ) : Workq.priorityOf prio < crmTaskPriorityMax := by
  simp only [Workq.priorityOf,crmTaskPriorityMax]
  split_ifs <;> omega

theorem priority_update (h : ∀ t, (w.task t).priority < crmTaskPriorityMax) (t : ℕ) {task : Task}
    (htask : task.priority < crmTaskPriorityMax) (k : ℕ) :
    (Function.update w.task t task k).priority < crmTaskPriorityMax := by
  by_cases hk : k = t
  · rw [hk,Function.update_self]
    exact htask
  · rw [Function.update_of_ne hk]
    exact h k

/-- The task in hand, when it is of this priority and its callback has not been called -/
def Worker.uncalled : Worker → ℕ → List ℕ
  | .took j t, i => if j = i then [t] else []
  | .runs j t, i => if j = i then [t] else []
  | _, _ => []

/-- What a step does with the tasks: six ways of the callers and five of the worker; in the last
no task is concerned. -/
inductive Moves (w : Workq) (op : Op) : Workq → Prop
  | gets {t : ℕ} {rest : List ℕ} (hl : w.emptyHead = t::rest) : Moves w op
      { w with emptyHead := rest, freeCnt := w.freeCnt-1, owned := w.owned++[t] }
  | writes {t : ℕ} {task : Task} (ht : t ∈ w.owned)
      (hp : task.priority = (w.task t).priority) : Moves w op
      { w with task := Function.update w.task t task }
  | checks {t : ℕ} {task : Task} (ht : t ∈ w.owned) (hp : task.priority < crmTaskPriorityMax) :
      Moves w op
      { w with
        task := Function.update w.task t task
        owned := w.owned.erase t
        locking := w.locking++[t] }
  | refuses {t : ℕ} {owned locking : List ℕ}
      (hperm : (t::(owned++locking)).Perm (w.owned++w.locking)) : Moves w op
      { w with owned := owned, locking := locking, putting := w.putting++[t] }
  | enqueues {t : ℕ} (ht : t ∈ w.locking) (queued : Bool) : Moves w op
      { w with
        locking := w.locking.erase t
        processHead := Function.update w.processHead (w.task t).priority
          (w.processHead (w.task t).priority++[t])
        pendingCnt := w.pendingCnt+1
        enqueued := w.enqueued++[w.jobOf t]
        queued := queued }
  | aborts {t : ℕ} (ht : t ∈ w.putting) : Moves w op
      { w.workqPutTask t with putting := w.putting.erase t }
  | turns {v : Worker} (queued : Bool) (hhand : v.inHand = w.worker.inHand)
      (huncalled : ∀ i, v.uncalled i = w.worker.uncalled i)
      (hat : ∀ i, v.at? = some i → i < crmTaskPriorityMax)
      (hsame : w.worker.at? = v.at? ∨ v.inHand = []) : Moves w op
      { w with queued := queued, worker := v }
  | takes {i t : ℕ} {rest : List ℕ} (hw : w.worker = .locks i) (hl : w.processHead i = t::rest) :
      Moves w op
      { w with
        processHead := Function.update w.processHead i rest
        pendingCnt := w.pendingCnt-1
        worker := .took i t
        taken := w.taken++[w.jobOf t] }
  | drops {i t : ℕ} (hop : op = .workStep) (hw : w.worker = .took i t) (hf : w.flush = true) :
      Moves w op { w with worker := .locks i }
  | calls {i t : ℕ} (hw : w.worker = .runs i t) : Moves w op
      { w with
        worker := .puts i t
        called := if (w.task t).processCb.isSome then w.called++[w.jobOf t] else w.called }
  | finishes {i t : ℕ} (hw : w.worker = .puts i t) : Moves w op
      { w.workqPutTask t with worker := .locks i }
  | rests (flush job queued : Bool) (flusher : Flusher) : Moves w op
      { w with flush := flush, job := job, queued := queued, flusher := flusher }

theorem Moves.stays : Moves w op w := .rests w.flush w.job w.queued w.flusher

theorem step_moves (h : InRange w) (op : Op) : Moves w op (step w op) := by
  cases op with
  | getTask =>
    simp only [step,Workq.workqGetTask]
    split
    · exact .stays
    · next t rest hl => exact .gets hl
  | fillTask t processCb cancel =>
    simp only [step,Workq.fillTask]
    split
    · next hmem => exact .writes hmem rfl
    · exact .stays
  | enqueueCheck t priv prio =>
    simp only [step,Workq.enqueueCheck]
    split
    · next hmem =>
      split
      · exact .refuses ((List.perm_cons_erase hmem).symm.append_right w.locking)
      · exact .checks hmem (priorityOf_lt prio)
    · exact .stays
  | enqueueLock t =>
    simp only [step,Workq.enqueueLock]
    split
    · next hmem =>
      split
      · rw [Workq.queueWork]
        split
        · exact .enqueues hmem w.queued
        · exact .enqueues hmem true
      · refine .refuses (List.perm_middle.symm.trans ?_)
        exact (List.perm_cons_erase hmem).symm.append_left w.owned
    · exact .stays
  | enqueueAbort t =>
    simp only [step,Workq.enqueueAbort]
    split
    · next hmem => exact .aborts hmem
    · exact .stays
  | workStart =>
    simp only [step,Workq.workStart]
    split
    · next hw =>
      refine .turns false ?_ ?_ (fun i hi => ?_) (.inr rfl)
      · rw [hw.2]
        rfl
      · rw [hw.2]
        exact fun _ => rfl
      · obtain rfl : 0 = i := Option.some.inj hi
        decide
    · exact .stays
  | workStep =>
    simp only [step,Workq.workStep]
    cases hw : w.worker with
    | idle => exact .stays
    | locks i =>
      have hi := h.worker i (by rw [hw]; rfl)
      dsimp only
      split
      · refine .turns w.queued ?_ (fun j => ?_) (fun j hj => ?_) (.inr ?_)
        · rw [hw]
          split <;> rfl
        · rw [hw]
          split <;> rfl
        · split at hj
          · next hlt =>
            obtain rfl : i+1 = j := Option.some.inj hj
            exact hlt
          · cases hj
        · split <;> rfl
      · next t rest hl => exact .takes hw hl
    | took i t =>
      dsimp only
      split
      · next hf => exact .drops rfl hw hf
      · refine .turns w.queued ?_ ?_ (fun j hj => h.worker j (by rw [hw]; exact hj)) (.inl ?_)
        · rw [hw]
          rfl
        · rw [hw]
          exact fun _ => rfl
        · rw [hw]
          rfl
    | runs i t => exact .calls hw
    | puts i t => exact .finishes hw
  | flushStep =>
    simp only [step,Workq.flushStep]
    cases w.flusher with
    | idle => exact .rests true w.job w.queued .set
    | set => exact .rests w.flush w.job false .cancels
    | cancels =>
      dsimp only
      split
      · exact .rests w.flush w.job w.queued .clears
      · exact .stays
    | clears => exact .rests false w.job w.queued .idle
  | destroyBegin => exact .rests true false w.queued w.flusher

theorem inRange_step (h : InRange w) (op : Op) : InRange (step w op) := by
  have hat (i j : ℕ) (hi : w.worker.at? = some i) (hj : some i = some j) :
      j < crmTaskPriorityMax := h.worker j (hi.trans hj)
  have hm := step_moves h op
  generalize step w op = w' at hm ⊢
  cases hm with
  | gets hl => exact ⟨h.lists,h.priority,h.worker⟩
  | writes ht hp => exact ⟨h.lists,priority_update h.priority _ (hp ▸ h.priority _),h.worker⟩
  | checks ht hp => exact ⟨h.lists,priority_update h.priority _ hp,h.worker⟩
  | refuses hperm => exact ⟨h.lists,h.priority,h.worker⟩
  | @enqueues t ht queued =>
    refine ⟨fun i hi => ?_,h.priority,h.worker⟩
    have := h.priority t
    exact (Function.update_of_ne (by omega) _ _).trans (h.lists i hi)
  | aborts ht => exact ⟨h.lists,priority_update h.priority _ (h.priority _),h.worker⟩
  | turns queued hhand huncalled hv hsame => exact ⟨h.lists,h.priority,hv⟩
  | @takes i t rest hw hl =>
    have hi := h.worker i (by rw [hw]; rfl)
    refine ⟨fun j hj => ?_,h.priority,fun j => hat i j (by rw [hw]; rfl)⟩
    exact (Function.update_of_ne (by omega) _ _).trans (h.lists j hj)
  | @drops i t hop hw hf => exact ⟨h.lists,h.priority,fun j => hat i j (by rw [hw]; rfl)⟩
  | @calls i t hw => exact ⟨h.lists,h.priority,fun j => hat i j (by rw [hw]; rfl)⟩
  | @finishes i t hw =>
    exact ⟨h.lists,priority_update h.priority _ (h.priority _),fun j => hat i j (by rw [hw]; rfl)⟩
  | rests flush job queued flusher => exact ⟨h.lists,h.priority,h.worker⟩

theorem two_cases {i : ℕ} (hi : i < crmTaskPriorityMax) : i = 0 ∨ i = 1 := by
  simp only [crmTaskPriorityMax] at hi
  omega

/-- A step that drops no task moves at most one to another place. -/
theorem everywhere_step (h : InRange w) (hd : ¬Drops w op) :
    (step w op).everywhere.Perm w.everywhere := by
  rw [List.perm_iff_count]
  intro a
  have hm := step_moves h op
  generalize step w op = w' at hm ⊢
  cases hm with
  | gets hl =>
    simp only [Workq.everywhere,hl,List.count_append,List.count_cons,List.count_nil]
    omega
  | writes ht hp => rfl
  | checks ht hp =>
    have hcount := (List.perm_cons_erase ht).count_eq a
    simp only [Workq.everywhere,List.count_append,List.count_cons,List.count_nil] at hcount ⊢
    omega
  | refuses hperm =>
    have hcount := hperm.count_eq a
    simp only [Workq.everywhere,List.count_append,List.count_cons,List.count_nil] at hcount ⊢
    omega
  | @enqueues t ht queued =>
    have hcount := (List.perm_cons_erase ht).count_eq a
    rcases two_cases (h.priority t) with hp | hp
    all_goals
      simp only [Workq.everywhere,hp,Function.update_self,ne_eq,zero_ne_one,one_ne_zero,
        not_false_eq_true,Function.update_of_ne,List.count_append,List.count_cons,
        List.count_nil] at hcount ⊢
      omega
  | aborts ht =>
    have hcount := (List.perm_cons_erase ht).count_eq a
    simp only [Workq.everywhere,Workq.workqPutTask,List.count_append,List.count_cons,
      List.count_nil] at hcount ⊢
    omega
  | turns queued hhand huncalled hv hsame => simp only [Workq.everywhere,hhand]
  | @takes i t rest hw hl =>
    rcases two_cases (h.worker i (by rw [hw]; rfl)) with rfl | rfl
    all_goals
      simp only [Workq.everywhere,hw,hl,Worker.inHand,Function.update_self,ne_eq,zero_ne_one,
        one_ne_zero,not_false_eq_true,Function.update_of_ne,List.count_append,List.count_cons,
        List.count_nil]
      omega
  | drops hop hw hf => exact absurd (by simpa only [hop,Drops,hw] using hf) hd
  | calls hw => simp only [Workq.everywhere,hw,Worker.inHand]
  | finishes hw =>
    simp only [Workq.everywhere,Workq.workqPutTask,hw,Worker.inHand,List.count_append,
      List.count_cons,List.count_nil]
    omega
  | rests flush job queued flusher => rfl

/-- The counters count what is on the lists, whatever happens to tasks off them. -/
structure Counted (w : Workq) : Prop where
  freeCnt : w.freeCnt = w.emptyHead.length
  pendingCnt : w.pendingCnt = (w.processHead 0).length+(w.processHead 1).length

theorem Counted.workqPutTask (h : Counted w) (t : ℕ) : Counted (w.workqPutTask t) := by
  refine ⟨?_,h.pendingCnt⟩
  have hfree := h.freeCnt
  simp only [Workq.workqPutTask,List.length_append,List.length_singleton]
  omega

theorem counted_step (hr : InRange w) (h : Counted w) (op : Op) : Counted (step w op) := by
  have hfree := h.freeCnt
  have hpending := h.pendingCnt
  have hm := step_moves hr op
  generalize step w op = w' at hm ⊢
  cases hm with
  | gets hl =>
    refine ⟨?_,hpending⟩
    rw [hl,List.length_cons] at hfree
    dsimp only
    omega
  | @enqueues t ht queued =>
    refine ⟨hfree,?_⟩
    rcases two_cases (hr.priority t) with hp | hp
    all_goals
      simp only [hp,Function.update_self,ne_eq,zero_ne_one,one_ne_zero,not_false_eq_true,
        Function.update_of_ne,List.length_append,List.length_singleton]
      omega
  | @takes i t rest hw hl =>
    refine ⟨hfree,?_⟩
    rcases two_cases (hr.worker i (by rw [hw]; rfl)) with rfl | rfl
    all_goals
      simp only [hl,List.length_cons,Function.update_self,ne_eq,zero_ne_one,one_ne_zero,
        not_false_eq_true,Function.update_of_ne] at hpending ⊢
      omega
  | aborts ht => exact ⟨(h.workqPutTask _).freeCnt,hpending⟩
  | finishes hw => exact ⟨(h.workqPutTask _).freeCnt,hpending⟩
  | _ => exact ⟨hfree,hpending⟩

theorem drops_everywhere (hd : Drops w op) :
    ∃ t, w.everywhere.Perm (t::(step w op).everywhere) := by
  cases op with
  | workStep =>
    cases hw : w.worker with
    | took i t =>
      refine ⟨t,List.perm_iff_count.mpr fun a => ?_⟩
      have hflush : w.flush = true := by simpa only [Drops,hw] using hd
      simp only [step,Workq.workStep,hw,if_pos hflush,Workq.everywhere,Worker.inHand,
        List.count_append,List.count_cons,List.count_nil]
      omega
    | _ => simp only [Drops,hw] at hd
  | _ => exact hd.elim

/-- What every run keeps as long as no task is dropped -/
structure Inv (n : ℕ) (w : Workq) : Prop where
  inRange : InRange w
  conserved : Conserved n w

theorem inv_step (h : Inv n w) (hd : ¬Drops w op) : Inv n (step w op) := by
  have hcounted := counted_step h.inRange ⟨h.conserved.freeCnt,h.conserved.pendingCnt⟩ op
  exact ⟨inRange_step h.inRange op,(everywhere_step h.inRange hd).trans h.conserved.tasks,
    hcounted.freeCnt,hcounted.pendingCnt⟩

theorem foldl_workqPutTask (l : List ℕ) {w : Workq} (h : w.task = fun _ => ⟨false,none,0,0⟩) :
    l.foldl Workq.workqPutTask w =
      { w with emptyHead := w.emptyHead++l, freeCnt := w.freeCnt+l.length } := by
  induction l generalizing w with
  | nil => simp
  | cons t l ih =>
    have htask : (w.workqPutTask t).task = fun _ => ⟨false,none,0,0⟩ := by
      funext k
      by_cases hk : k = t
      · simp only [Workq.workqPutTask,hk,Function.update_self,Workq.cleared,h]
      · simp only [Workq.workqPutTask,Function.update_of_ne hk,h]
    rw [List.foldl_cons,ih htask,htask]
    simp only [Workq.workqPutTask,List.append_assoc,List.singleton_append,List.length_cons,h]
    congr 1
    push_cast
    ring

theorem workqCreate_eq (n : ℕ) : workqCreate n =
    ⟨fun _ => ⟨false,none,0,0⟩,List.range n,fun _ => [],n,0,false,true,false,.idle,.idle,[],[],[],
      [],[],[]⟩ := by
  rw [workqCreate,foldl_workqPutTask _ rfl]
  simp

theorem created_inv (n : ℕ) : Inv n (workqCreate n) := by
  rw [workqCreate_eq]
  refine ⟨⟨fun _ _ => rfl,fun _ => Nat.two_pos,fun i hi => ?_⟩,?_,by simp,rfl⟩
  · cases hi
  · simp [Workq.everywhere,Worker.inHand]

/-- Every task of the pool is always in one place, and the counters are right, exactly when the
worker never finds the flush set with a task in hand. -/
theorem conserved_always_iff (n : ℕ) (ops : List Op) :
    Always step (Conserved n) (workqCreate n) ops ↔
      Guarded step (fun w op => ¬Drops w op) (workqCreate n) ops := by
  refine always_iff_guarded (L := fun _ _ => True) (I := Inv n) (fun _ h => h.conserved)
    (fun w op h _ hd => inv_step h hd) (fun w op h _ hd hc => ?_) (created_inv n) ops
      (guarded_true step _ ops)
  obtain ⟨t,hperm⟩ := drops_everywhere (not_not.mp hd)
  have hlen := (hperm.symm.trans h.conserved.tasks).length_eq
  have hlen' := hc.tasks.length_eq
  rw [List.length_cons] at hlen
  omega

end Places

section Order

/-- The calls of a priority that are due -/
def Workq.due (w : Workq) (i : ℕ) : List Job :=
  (w.worker.uncalled i++w.processHead i).map w.jobOf

/-- The callbacks of every priority are called in the order in which the tasks were enqueued,
each once: those called and those still due are those enqueued. A task without a callback takes
its turn, and nothing is called. -/
def InOrder (w : Workq) : Prop :=
  ∀ i, w.called.filter (·.priority = i)++(w.due i).filter (·.processCb.isSome) =
    w.enqueued.filter fun j => j.priority = i ∧ j.processCb.isSome

/-- The worker drops a task that has a callback. -/
def DropsCall (w : Workq) (op : Op) : Prop :=
  match op,w.worker with
  | .workStep,.took _ t => w.flush = true ∧ (w.task t).processCb.isSome = true
  | _,_ => False

/-- Tasks are never in two places, and those to be processed are on the list of their
priority. -/
structure Placed (w : Workq) : Prop where
  inRange : InRange w
  nodup : w.everywhere.Nodup
  listed : ∀ i, ∀ t ∈ w.processHead i, (w.task t).priority = i
  taken : ∀ i, w.worker.at? = some i → ∀ t ∈ w.worker.inHand, (w.task t).priority = i

theorem Placed.notMem_processHead (h : Placed w)
    (ht : t ∈ w.owned++(w.locking++(w.putting++w.worker.inHand))) (i : ℕ) :
    t ∉ w.processHead i := by
  intro hmem
  have hcount := List.nodup_iff_count_le_one.mp h.nodup t
  have hpos := List.count_pos_iff.mpr hmem
  have hpos' := List.count_pos_iff.mpr ht
  simp only [Workq.everywhere,List.count_append] at hcount hpos'
  by_cases hi : crmTaskPriorityMax ≤ i
  · rw [h.inRange.lists i hi] at hmem
    cases hmem
  · rcases two_cases (Nat.lt_of_not_le hi) with rfl | rfl <;> omega

theorem Placed.notMem_inHand (h : Placed w) (ht : t ∈ w.owned++(w.locking++w.putting)) :
    t ∉ w.worker.inHand := by
  intro hmem
  have hcount := List.nodup_iff_count_le_one.mp h.nodup t
  have hpos := List.count_pos_iff.mpr hmem
  have hpos' := List.count_pos_iff.mpr ht
  simp only [Workq.everywhere,List.count_append] at hcount hpos'
  omega

theorem Worker.uncalled_subset (v : Worker) {i k : ℕ} (hk : k ∈ v.uncalled i) :
    k ∈ v.inHand := by
  cases v with
  | took j t =>
    rw [Worker.uncalled] at hk
    split at hk
    · exact hk
    · cases hk
  | runs j t =>
    rw [Worker.uncalled] at hk
    split at hk
    · exact hk
    · cases hk
  | _ => cases hk

/-- The task waits for its callback, on a list or in hand. -/
def Waits (w : Workq) (t : ℕ) : Prop :=
  ∃ i, t ∈ w.worker.uncalled i++w.processHead i

theorem due_congr {w' : Workq} (hworker : ∀ i, w'.worker.uncalled i = w.worker.uncalled i)
    (hlist : w'.processHead = w.processHead) (htask : ∀ k, Waits w k → w'.task k = w.task k) :
    w'.due = w.due := by
  funext i
  rw [Workq.due,Workq.due,hworker,hlist]
  refine List.map_congr_left fun k hk => ?_
  rw [Workq.jobOf,Workq.jobOf,htask k ⟨i,hk⟩]

theorem update_of_not_waits (ht : ¬Waits w t) (task : Task) (k : ℕ) (hk : Waits w k) :
    Function.update w.task t task k = w.task k := by
  refine Function.update_of_ne ?_ _ _
  rintro rfl
  exact ht hk

theorem Placed.not_waits (h : Placed w) (ht : t ∈ w.owned++(w.locking++w.putting)) :
    ¬Waits w t := by
  rintro ⟨i,hi⟩
  rcases List.mem_append.mp hi with hi | hi
  · exact h.notMem_inHand ht (Worker.uncalled_subset _ hi)
  · refine h.notMem_processHead ?_ i hi
    simp only [List.mem_append] at ht ⊢
    tauto

theorem InOrder.congr {w' : Workq} (h : InOrder w) (hdue : w'.due = w.due)
    (hcalled : w'.called = w.called) (henqueued : w'.enqueued = w.enqueued) : InOrder w' := by
  intro i
  rw [hcalled,henqueued,hdue]
  exact h i

theorem InOrder.enqueue (h : InOrder w) {w' : Workq} (hworker : w'.worker = w.worker)
    (htask : w'.task = w.task) (hcalled : w'.called = w.called)
    (hlist : w'.processHead = Function.update w.processHead (w.task t).priority
      (w.processHead (w.task t).priority++[t]))
    (henqueued : w'.enqueued = w.enqueued++[w.jobOf t]) : InOrder w' := by
  intro i
  have hdue : w'.due i = w.due i++if (w.task t).priority = i then [w.jobOf t] else [] := by
    have hjob : w'.jobOf = w.jobOf := by
      funext k
      rw [Workq.jobOf,Workq.jobOf,htask]
    rw [Workq.due,Workq.due,hworker,hlist,hjob]
    by_cases hi : (w.task t).priority = i
    · subst hi
      simp
    · simp [hi,Ne.symm hi]
  rw [hdue,hcalled,henqueued,List.filter_append,List.filter_append,← List.append_assoc,h i]
  congr 1
  by_cases hi : (w.task t).priority = i
  · cases hcb : (w.task t).processCb <;> simp [hi,hcb,Workq.jobOf]
  · simp [hi,Workq.jobOf]

/-- The worker takes the first task of a list. -/
theorem InOrder.take (h : InOrder w) {w' : Workq} {i : ℕ} {rest : List ℕ}
    (hw : w.worker = .locks i) (hl : w.processHead i = t::rest) (hworker : w'.worker = .took i t)
    (hlist : w'.processHead = Function.update w.processHead i rest) (htask : w'.task = w.task)
    (hcalled : w'.called = w.called) (henqueued : w'.enqueued = w.enqueued) : InOrder w' := by
  refine h.congr ?_ hcalled henqueued
  have hjob : w'.jobOf = w.jobOf := by
    funext k
    rw [Workq.jobOf,Workq.jobOf,htask]
  funext j
  rw [Workq.due,Workq.due,hworker,hlist,hjob,hw]
  by_cases hj : i = j
  · subst hj
    simp [Worker.uncalled,hl]
  · simp [Worker.uncalled,hj,Ne.symm hj]

/-- The task in hand has its turn: its callback is called, or there is none. -/
theorem InOrder.pass (h : InOrder w) {w' : Workq} {i : ℕ} {calls : List Job}
    (hprio : (w.task t).priority = i)
    (hw : ∀ j, w.worker.uncalled j = if i = j then [t] else [])
    (hworker : ∀ j, w'.worker.uncalled j = []) (hlist : w'.processHead = w.processHead)
    (htask : w'.task = w.task) (hcalled : w'.called = w.called++calls)
    (henqueued : w'.enqueued = w.enqueued)
    (hcalls : calls = if (w.task t).processCb.isSome then [w.jobOf t] else []) : InOrder w' := by
  intro j
  have hjob : w'.jobOf = w.jobOf := by
    funext k
    rw [Workq.jobOf,Workq.jobOf,htask]
  have hj := h j
  rw [Workq.due,hw] at hj
  rw [henqueued,← hj,hcalled,Workq.due,hworker,hlist,hjob,hcalls]
  by_cases hij : i = j
  · subst hij
    cases hcb : (w.task t).processCb <;> simp [Workq.jobOf,hcb,hprio]
  · have hne : (w.task t).priority ≠ j := fun hh => hij (hprio.symm.trans hh)
    cases hcb : (w.task t).processCb <;> simp [Workq.jobOf,hcb,hij,hne]

theorem inOrder_step (hp : Placed w) (h : InOrder w) (hd : ¬DropsCall w op) :
    InOrder (step w op) := by
  have hprio {i t : ℕ} {v : Worker} (hw : w.worker = v) (hi : v.at? = some i)
      (ht : t ∈ v.inHand) : (w.task t).priority = i :=
    hp.taken i (by rw [hw]; exact hi) t (by rw [hw]; exact ht)
  have hm := step_moves hp.inRange op
  generalize step w op = w' at hm ⊢
  cases hm with
  | gets hl => exact h
  | writes ht _ =>
    have hnot := hp.not_waits (List.mem_append_left _ ht)
    exact h.congr (due_congr (fun _ => rfl) rfl (update_of_not_waits hnot _)) rfl rfl
  | checks ht _ =>
    have hnot := hp.not_waits (List.mem_append_left _ ht)
    exact h.congr (due_congr (fun _ => rfl) rfl (update_of_not_waits hnot _)) rfl rfl
  | refuses hperm => exact h
  | enqueues ht queued => exact h.enqueue rfl rfl rfl rfl rfl
  | @aborts t ht =>
    have hnot := hp.not_waits (t := t) (by simp [ht])
    exact h.congr (due_congr (fun _ => rfl) rfl (update_of_not_waits hnot _)) rfl rfl
  | turns queued hhand huncalled hv hsame =>
    exact h.congr (due_congr huncalled rfl fun _ _ => rfl) rfl rfl
  | takes hw hl => exact h.take hw hl rfl rfl rfl rfl rfl
  | @drops i t hop hw hf =>
    have hnone : ¬(w.task t).processCb.isSome = true := fun hcb =>
      hd (by simp only [hop,DropsCall,hw]; exact ⟨hf,hcb⟩)
    exact h.pass (hprio hw rfl (List.mem_singleton_self t)) (by rw [hw]; exact fun _ => rfl)
      (fun _ => rfl) rfl rfl (List.append_nil _).symm rfl (if_neg hnone).symm
  | @calls i t hw =>
    refine h.pass (hprio hw rfl (List.mem_singleton_self t)) (by rw [hw]; exact fun _ => rfl)
      (fun _ => rfl) rfl rfl ?_ rfl rfl
    dsimp only
    split
    · rfl
    · exact (List.append_nil _).symm
  | @finishes i t hw =>
    have hnot : ¬Waits w t := by
      rintro ⟨j,hj⟩
      rw [hw] at hj
      exact hp.notMem_processHead (by simp [hw,Worker.inHand]) j hj
    refine h.congr (due_congr (fun j => ?_) rfl (update_of_not_waits hnot _)) rfl rfl
    rw [hw]
    rfl
  | rests flush job queued flusher => exact h

theorem everywhere_nodup_step (hr : InRange w) (h : w.everywhere.Nodup) (op : Op) :
    (step w op).everywhere.Nodup := by
  by_cases hd : Drops w op
  · obtain ⟨t,hperm⟩ := drops_everywhere hd
    exact (List.nodup_cons.mp (hperm.nodup_iff.mp h)).2
  · exact (everywhere_step hr hd).nodup_iff.mpr h

theorem listed_update (h : ∀ i, ∀ k ∈ w.processHead i, (w.task k).priority = i)
    (ht : ∀ i, t ∉ w.processHead i) (task : Task) (i k : ℕ) (hk : k ∈ w.processHead i) :
    (Function.update w.task t task k).priority = i := by
  have hne : k ≠ t := by
    rintro rfl
    exact ht i hk
  rw [Function.update_of_ne hne]
  exact h i k hk

theorem taken_update (h : ∀ i, w.worker.at? = some i → ∀ k ∈ w.worker.inHand,
      (w.task k).priority = i) (ht : t ∉ w.worker.inHand) (task : Task) (i : ℕ)
    (hi : w.worker.at? = some i) (k : ℕ) (hk : k ∈ w.worker.inHand) :
    (Function.update w.task t task k).priority = i := by
  have hne : k ≠ t := by
    rintro rfl
    exact ht hk
  rw [Function.update_of_ne hne]
  exact h i hi k hk

theorem listed_step (h : Placed w) (op : Op) :
    ∀ i, ∀ t ∈ (step w op).processHead i, ((step w op).task t).priority = i := by
  have hm := step_moves h.inRange op
  generalize step w op = w' at hm ⊢
  cases hm with
  | writes ht _ =>
    exact listed_update h.listed (h.notMem_processHead (List.mem_append_left _ ht)) _
  | checks ht _ =>
    exact listed_update h.listed (h.notMem_processHead (List.mem_append_left _ ht)) _
  | @enqueues t ht queued =>
    intro i k hk
    dsimp only at hk ⊢
    by_cases hi : i = (w.task t).priority
    · subst hi
      rw [Function.update_self,List.mem_append,List.mem_singleton] at hk
      rcases hk with hk | rfl
      · exact h.listed _ k hk
      · rfl
    · rw [Function.update_of_ne hi] at hk
      exact h.listed i k hk
  | aborts ht => exact listed_update h.listed (h.notMem_processHead (by simp [ht])) _
  | @takes i t rest hw hl =>
    intro j k hk
    dsimp only at hk ⊢
    by_cases hj : j = i
    · subst hj
      rw [Function.update_self] at hk
      exact h.listed j k (hl ▸ List.mem_cons_of_mem t hk)
    · rw [Function.update_of_ne hj] at hk
      exact h.listed j k hk
  | finishes hw =>
    exact listed_update h.listed (h.notMem_processHead (by simp [hw,Worker.inHand])) _
  | _ => exact h.listed

theorem taken_step (h : Placed w) (op : Op) : ∀ i, (step w op).worker.at? = some i →
    ∀ t ∈ (step w op).worker.inHand, ((step w op).task t).priority = i := by
  have htaken := h.taken
  have hm := step_moves h.inRange op
  generalize step w op = w' at hm ⊢
  cases hm with
  | writes ht _ =>
    exact taken_update h.taken (h.notMem_inHand (List.mem_append_left _ ht)) _
  | checks ht _ =>
    exact taken_update h.taken (h.notMem_inHand (List.mem_append_left _ ht)) _
  | aborts ht => exact taken_update h.taken (h.notMem_inHand (by simp [ht])) _
  | turns queued hhand huncalled hv hsame =>
    intro i hi k hk
    rcases hsame with hsame | hnil
    · exact h.taken i (hsame.trans hi) k (hhand ▸ hk)
    · dsimp only at hk
      rw [hnil] at hk
      cases hk
  | @takes i t rest hw hl =>
    intro j hj k hk
    obtain rfl : i = j := Option.some.inj hj
    obtain rfl := List.mem_singleton.mp hk
    exact h.listed i k (hl ▸ List.mem_cons_self)
  | drops hop hw hf =>
    intro j _ k hk
    cases hk
  | calls hw =>
    rw [hw] at htaken
    exact htaken
  | finishes hw =>
    intro j _ k hk
    cases hk
  | _ => exact h.taken

theorem placed_step (h : Placed w) (op : Op) : Placed (step w op) :=
  ⟨inRange_step h.inRange op,everywhere_nodup_step h.inRange h.nodup op,listed_step h op,
    taken_step h op⟩

theorem created_placed (n : ℕ) : Placed (workqCreate n) := by
  refine ⟨(created_inv n).inRange,?_,fun i t ht => ?_,fun i hi => ?_⟩
  · exact (created_inv n).conserved.tasks.nodup_iff.mpr List.nodup_range
  · rw [workqCreate_eq] at ht
    cases ht
  · rw [workqCreate_eq] at hi
    cases hi

theorem dropsCall_breaks (h : InOrder w) (hd : DropsCall w op) :
    ¬InOrder (step w op) := by
  cases op with
  | workStep =>
    cases hw : w.worker with
    | took i t =>
      simp only [DropsCall,hw] at hd
      have hstep : step w .workStep = { w with worker := .locks i } := by
        simp only [step,Workq.workStep,hw,if_pos hd.1]
      have hdue : w.due i = w.jobOf t::(step w .workStep).due i := by
        rw [hstep,Workq.due,Workq.due,hw]
        simp only [Worker.uncalled,if_true,List.nil_append,List.singleton_append,List.map_cons]
        rfl
      have hcb : (fun j : Job => j.processCb.isSome) (w.jobOf t) = true := hd.2
      intro h'
      have hlen := congrArg List.length (h i)
      have hlen' := congrArg List.length (h' i)
      rw [hdue,List.filter_cons_of_pos (p := fun j : Job => j.processCb.isSome) hcb,
        List.length_append,List.length_cons] at hlen
      rw [List.length_append] at hlen'
      rw [hstep] at hlen hlen'
      dsimp only at hlen hlen'
      omega
    | _ => simp only [DropsCall,hw] at hd
  | _ => exact hd.elim

/-- The callbacks are always called once each and in order, exactly when the worker never finds
the flush set with a task in hand that has a callback. -/
theorem inOrder_always_iff (n : ℕ) (ops : List Op) :
    Always step InOrder (workqCreate n) ops ↔
      Guarded step (fun w op => ¬DropsCall w op) (workqCreate n) ops := by
  refine always_iff_guarded (L := fun _ _ => True) (I := fun w => Placed w ∧ InOrder w)
    (fun _ h => h.2) (fun w op h _ hd => ⟨placed_step h.1 op,inOrder_step h.1 h.2 hd⟩)
    (fun w op h _ hd => dropsCall_breaks h.2 (not_not.mp hd)) ⟨created_placed n,fun i => ?_⟩
      ops (guarded_true step _ ops)
  rw [workqCreate_eq]
  rfl

end Order

end CamWorkq
end MarbleModules
