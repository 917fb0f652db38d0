import MarbleModules.SerializationInvariant

/-! The counter of waiting blocking commands: it is advanced by the test whether a command may
be active, and taken back by promotions and cancels. -/
namespace MarbleModules
namespace Serialization

open Runs Stacks

/-- The pending command whose cancel callbacks run -/
def Frame.cancelledPending : Frame → Option Command
  | .cancelled _ false _ _ c => some c
  | _ => none

/-- The pending commands whose cancel callbacks run -/
abbrev withdrawn (F : List Frame) : List Command := F.filterMap Frame.cancelledPending

/-- A blocking request is counted exactly when it becomes pending, and the counter has room. -/
def CountsPending (cfg : Cfg) (q : Queue) (c : Command) : Prop :=
  c.isBlocking = true → ¬ Disabled cfg q c →
    if q.bitmap = ∅ then q.vdevPending c.vdev ≠ [] → ¬ Fits cfg q c
    else Fits cfg q c ∧ q.blockingCmdWaiting+1 < 2^16

/-- Requests are counted exactly when they become pending. -/
def RequestsCounted (cfg : Cfg) (s : State) : Op → Prop
  | .request c _ => CountsPending cfg s.store.q (numbered s.store c)
  | .advance i _ => ∀ f ∈ top s i, Followed cfg s.store.q f
  | _ => True

/-- The counter is the number of blocking commands that are pending, and of those a cancel has
taken out of the pending list without the bookkeeping yet. -/
def CounterExact (s : State) : Prop :=
  s.store.q.blockingCmdWaiting = (s.store.q.pending.filter (isBlocking s.store.q)).length +
    ((withdrawn (frames s)).filter Command.isBlocking).length

/-- Outside cancels the counter is the number of pending blocking commands. -/
def CounterAtRest (s : State) : Prop := withdrawn (frames s) = [] →
  s.store.q.blockingCmdWaiting = (s.store.q.pending.filter (isBlocking s.store.q)).length

/-- The invariant of the counter -/
structure Counted (q : Queue) (w : List Command) : Prop where
  exact : q.blockingCmdWaiting = (q.pendingCmds ++ w).countP Command.isBlocking
  lt : q.blockingCmdWaiting < 2^16

theorem countBack {w : ℕ} (h : w+1 < 2^16) : (w+1+2^16-1) % 2^16 = w := by omega

section Keeps

variable {cfg : Cfg} (hk : cfg.kind = .nonScan) {q q' : Queue} {w : List Command}

theorem Counted.congr (h : Counted q w) (hp : q'.pendingCmds = q.pendingCmds)
    (hw : q'.blockingCmdWaiting = q.blockingCmdWaiting) : Counted q' w := by
  refine ⟨?_,?_⟩
  · rw [hw,hp]
    exact h.exact
  · rw [hw]
    exact h.lt

theorem Counted.marks (h : Counted q w) (hq : Marks q q') : Counted q' w :=
  h.congr hq.pendingCmds hq.blockingCmdWaiting

theorem Counted.perm (h : Counted q w) {w' : List Command} (hp : w.Perm w') : Counted q w' :=
  ⟨h.exact.trans ((hp.append_left _).countP_eq _),h.lt⟩

/-- A cancel takes a command over. -/
theorem Counted.taken {f : Filter} {active timerFound : Bool} {p p' : Option ℕ} {k k' : ℕ}
    {q₁ : Queue} {n : ℕ} {c : Command} (h : Counted q w) (hwf : Wf cfg q)
    (ht : Taken cfg q f active timerFound p k q₁ n c p' k') :
    Counted (takeOut cfg q₁ n c.vdev active) (if active then w else c::w) := by
  have hbase := h.marks ht.marks
  have hn : n ∈ q₁.pdevList active := ht.marks.pdevList active ▸ ht.mem
  have hcmds := (hwf.of_marks ht.marks).takeOut_cmds _ hn ((ht.marks.cmd n).trans ht.cmd)
  cases active with
  | true => exact hbase.congr hcmds.2 (takeOut_blockingCmdWaiting ..)
  | false =>
    refine ⟨?_,?_⟩
    · rw [takeOut_blockingCmdWaiting,hbase.exact]
      exact ((hcmds.2.append_right w).trans List.perm_middle.symm).countP_eq _
    · rw [takeOut_blockingCmdWaiting]
      exact hbase.lt

include hk in
theorem Counted.finished (active : Bool) (c : Command)
    (h : Counted q (if active then w else c::w)) : Counted (cancelFinish cfg q active c) w := by
  have hcmds := (cancelFinish_cmds cfg q active c).2
  cases active with
  | true =>
    exact Counted.congr h hcmds (by simp only [cancelFinish,hk,if_true])
  | false =>
    have hexact := h.exact
    have hlt := h.lt
    simp only [Bool.false_eq_true,if_false,List.countP_append,List.countP_cons] at hexact
    cases hb : c.isBlocking with
    | false =>
      have hq : cancelFinish cfg q false c = q := by
        simp only [cancelFinish,hk,hb,Bool.false_eq_true,if_false]
      rw [if_neg (by simp [hb])] at hexact
      rw [hq]
      exact ⟨by rw [List.countP_append,hexact,Nat.add_zero],hlt⟩
    | true =>
      have hw : (cancelFinish cfg q false c).blockingCmdWaiting =
          (q.blockingCmdWaiting+2^16-1) % 2^16 := by
        simp only [cancelFinish,hk,hb,Bool.false_eq_true,if_false,if_true]
      rw [if_pos hb,← Nat.add_assoc] at hexact
      refine ⟨?_,?_⟩
      · rw [hw,hcmds,List.countP_append,hexact]
        rw [hexact] at hlt
        exact countBack hlt
      · rw [hw]
        exact Nat.mod_lt _ (by decide)

include hk in
/-- A blocking command that is promoted waits no longer. -/
theorem Counted.promoted {n : ℕ} {c : Command} (h : Counted q w) (hwf : Wf cfg q)
    (hp : Promoted cfg q n c q') : Counted q' w := by
  have hpend := (hp.cmds hwf).2
  have hexact := h.exact
  have hlt := h.lt
  have hw := hp.blockingCmdWaiting hk
  rw [(hpend.append_right w).countP_eq,List.cons_append,List.countP_cons] at hexact
  cases hb : c.isBlocking with
  | false =>
    rw [if_neg (by simp [hb])] at hexact hw
    exact ⟨hw.trans hexact,hw ▸ hlt⟩
  | true =>
    rw [if_pos hb] at hexact hw
    refine ⟨?_,?_⟩
    · rw [hw,hexact]
      rw [hexact] at hlt
      exact countBack hlt
    · rw [hw]
      exact Nat.mod_lt _ (by decide)

end Keeps

theorem Frame.Plain.cancelledPending {f : Frame} (hf : f.Plain) : f.cancelledPending = none := by
  cases f <;> first | rfl | exact hf.elim

theorem Idle.cancelledPending {cfg : Cfg} {q q' : Queue} {f : Frame} (hf : Idle cfg q f q') :
    f.cancelledPending = none := by
  cases hf with
  | looked hk hl hs => cases hl <;> rfl
  | _ => rfl

theorem Chosen.cancelledPending {cfg : Cfg} {q q' : Queue} {n : ℕ} {f : Frame}
    {gs : List Frame} (hf : Chosen cfg q n f q' gs) : f.cancelledPending = none := by
  cases hf with
  | looked hk hl hs => cases hl <;> rfl
  | scan => rfl

theorem Counted.turn {cfg : Cfg} (hk : cfg.kind = .nonScan) {s s' : Store} {env : Env}
    {f : Frame} {F gs : List Frame} (hinv : Inv cfg s.q (f::F))
    (h : Counted s.q (withdrawn (f::F))) (ht : Turn cfg s env f s' gs) :
    Counted s'.q (withdrawn (gs ++ F)) := by
  have htail : f.cancelledPending = none → Counted s.q (withdrawn F) := fun hf => by
    rwa [withdrawn,List.filterMap_cons_none hf] at h
  have hcancelled : ∀ (f : Filter) (active : Bool) (p : Option ℕ) (k : ℕ) (c : Command),
      withdrawn (.cancelled f active p k c::F) =
        if active then withdrawn F else c::withdrawn F :=
    fun f active p k c => by cases active <;> rfl
  cases ht with
  | plain hf hgs hq hm =>
    rw [withdrawn,plain_filterMap (fun f => Frame.Plain.cancelledPending (f := f)) hgs]
    exact (htail hf.cancelledPending).marks hq
  | activate n uid =>
    refine (htail rfl).congr (commands_congr fun m _ => ?_) rfl
    by_cases hmn : m = n
    · rw [hmn,setNode_nodes,Function.update_self]
    · rw [setNode_nodes,Function.update_of_ne hmn]
  | @dequeue ref n c hr hn hc hm =>
    have hcmds := (hinv.wf.takeOut_cmds true hn hc).2
    have hbase : Counted (takeOut cfg s.q n c.vdev true) (withdrawn F) :=
      (htail rfl).congr hcmds (takeOut_blockingCmdWaiting ..)
    exact hbase.finished hk true c
  | idle hf => exact (htail hf.cancelledPending).marks (hf.marks hinv.wf)
  | @promote _ gs n c q₁ q' hf hp =>
    have hq := hf.marks hinv.wf
    have hw : withdrawn (.activate n c.uid::gs ++ F) = withdrawn F := by
      rcases hf.frames.2 with rfl | ⟨-,l,rfl⟩ <;> rfl
    rw [hw]
    exact ((htail hf.cancelledPending).marks hq).promoted hk (hinv.wf.of_marks hq) hp
  | release c => exact htail rfl
  | take ht =>
    rw [List.singleton_append,hcancelled]
    exact (htail rfl).taken hinv.wf ht
  | finish hq hm hb =>
    rw [hcancelled] at h
    exact (h.finished hk _ _).marks hq
  | finishTake ht =>
    rw [hcancelled] at h
    rw [List.singleton_append,hcancelled]
    exact (h.finished hk _ _).taken (hinv.wf.of_cancelFinish _ _) ht

/-- The test leaves the counter alone unless the command blocks and some vdev is active. -/
theorem counted_eq {cfg : Cfg} (hk : cfg.kind = .nonScan) (q : Queue) (c : Command) :
    counted cfg q c = if c.isBlocking = true ∧ q.bitmap ≠ ∅ then
      (q.blockingCmdWaiting+1) % 2^16 else q.blockingCmdWaiting := by
  simp only [counted,hk,true_and]

theorem Counted.rejected {cfg : Cfg} (hk : cfg.kind = .nonScan) {others : ℕ} {q q' : Queue}
    {c : Command} {w : List Command} (h : Counted q w) (hr : Rejected cfg others q c q')
    (hcond : CountsPending cfg q c) : Counted q' w := by
  refine h.congr hr.cmds.2 ?_
  rcases hr.blockingCmdWaiting with hw | ⟨hw,hd,hfits⟩
  · exact hw
  · rw [hw,counted_eq hk]
    by_cases hb : c.isBlocking = true ∧ q.bitmap ≠ ∅
    · have hcount := hcond hb.1 hd
      rw [if_neg hb.2] at hcount
      refine absurd hcount.1 (hfits ?_)
      rw [← Bool.not_eq_true,isActiveCmdAllowed_nonScan hk,if_pos hb.1]
      exact fun hh => hb.2 hh.2
    · rw [if_neg hb]

/-- A blocking request becomes pending only next to an active vdev. -/
theorem CountsPending.bitmap_ne {cfg : Cfg} (hk : cfg.kind = .nonScan) {others : ℕ}
    {q q' : Queue} {n : ℕ} {c : Command} (hcond : CountsPending cfg q c)
    (he : Enqueued cfg others q n c false q') (hb : c.isBlocking = true) : q.bitmap ≠ ∅ := by
  intro hempty
  have hcount := hcond hb he.enabled
  rw [if_pos hempty] at hcount
  have hnil : q.vdevPending c.vdev = [] := by
    by_contra hne
    exact hcount hne (he.fits rfl)
  have hallowed := (isActiveCmdAllowed_nonScan hk others q c).mpr
    ⟨hnil,by rw [if_pos hb,hempty]⟩
  rw [he.allowed] at hallowed
  cases hallowed

theorem Counted.enqueued {cfg : Cfg} (hk : cfg.kind = .nonScan) {others : ℕ} {q q' : Queue}
    {n : ℕ} {c : Command} {active : Bool} {w : List Command} (h : Counted q w) (hwf : Wf cfg q)
    (he : Enqueued cfg others q n c active q') (hcond : CountsPending cfg q c) :
    Counted q' w := by
  have hcmds := he.cmds hwf
  have hw := he.blockingCmdWaiting
  rw [counted_eq hk] at hw
  cases active with
  | true =>
    refine h.congr hcmds.2 ?_
    have hallowed := ((isActiveCmdAllowed_nonScan hk others q c).mp he.allowed).2
    rw [hw,if_neg]
    rintro ⟨hb,hne⟩
    rw [if_pos hb] at hallowed
    exact hne hallowed
  | false =>
    have hexact : (q'.pendingCmds ++ w).countP Command.isBlocking =
        q.blockingCmdWaiting + if c.isBlocking = true then 1 else 0 := by
      rw [(hcmds.2.append_right w).countP_eq,List.cons_append,List.countP_cons,h.exact]
    cases hb : c.isBlocking with
    | false =>
      rw [if_neg (by simp [hb])] at hw hexact
      exact ⟨hw.trans hexact.symm,hw ▸ h.lt⟩
    | true =>
      have hne := hcond.bitmap_ne hk he hb
      have hcount := hcond hb he.enabled
      rw [if_neg hne] at hcount
      rw [if_pos ⟨hb,hne⟩,Nat.mod_eq_of_lt hcount.2] at hw
      rw [if_pos hb] at hexact
      exact ⟨hw.trans hexact.symm,hw ▸ hcount.2⟩

theorem withdrawn_activate (active : Bool) (n uid : ℕ) (F : List Frame) :
    withdrawn ((if active then [.activate n uid] else []) ++ F) = withdrawn F := by
  cases active <;> rfl

theorem step_counted {cfg : Cfg} (hk : cfg.kind = .nonScan) {s : State} {op : Op}
    (hinv : Inv cfg s.store.q (frames s)) (hlegal : Legal cfg s op)
    (hcond : RequestsCounted cfg s op) (h : Counted s.store.q (withdrawn (frames s))) :
    Counted (step cfg s op).store.q (withdrawn (frames (step cfg s op))) := by
  refine step_rule (I := fun d F => Counted d.q (withdrawn F))
    (fun d F F' hp hh => hh.perm (hp.filterMap _)) hinv hlegal h (fun gs hgs => ?_) ?_ ?_ ?_
  · rwa [withdrawn,plain_filterMap (fun f => Frame.Plain.cancelledPending (f := f)) hgs]
  · rintro c others q' rfl hr
    exact h.rejected hk hr hcond
  · rintro c others n active q' rfl he
    rw [withdrawn_activate]
    exact h.enqueued hk hinv.wf he hcond
  · intro i env f F s' gs _ _ _ hinv' hh ht
    exact hh.turn hk hinv' ht

theorem countP_isBlocking (q : Queue) :
    (q.pending.filter (isBlocking q)).length = q.pendingCmds.countP Command.isBlocking := by
  rw [← List.countP_eq_length_filter,Queue.pendingCmds,Queue.commands,List.countP_filterMap]
  refine List.countP_congr fun n _ => ?_
  cases hc : (q.nodes n).cmd <;> simp [isBlocking,hc]

theorem CounterExact.atRest {s : State} (h : CounterExact s) : CounterAtRest s := by
  intro hw
  rw [CounterExact,hw] at h
  exact h

/-- In runs whose requests are counted exactly when they become pending, the counter is the
number of waiting blocking commands. -/
theorem counter_always {cfg : Cfg} (hk : cfg.kind = .nonScan) (ops : List Op)
    (hlegal : Guarded (step cfg) (Legal cfg) (initial cfg) ops)
    (hcond : Guarded (step cfg) (RequestsCounted cfg) (initial cfg) ops) :
    Always (step cfg) (fun s => CounterExact s ∧ CounterAtRest s) (initial cfg) ops := by
  suffices hall : Always (step cfg) CounterExact (initial cfg) ops from
    fun pre hpre => ⟨hall pre hpre,(hall pre hpre).atRest⟩
  refine guarded_always (I := fun s => Inv cfg s.store.q (frames s) ∧
      Counted s.store.q (withdrawn (frames s))) (fun s hh => ?_)
    (fun s op hh hc => ⟨step_inv hh.1 hc.1,step_counted hk hh.1 hc.1 hc.2 hh.2⟩)
    ⟨initial_inv (Cfg.bounded_nonScan hk),rfl,Nat.two_pow_pos 16⟩ ops (hlegal.and hcond)
  rw [CounterExact,hh.2.exact,countP_isBlocking,List.countP_append,
    List.countP_eq_length_filter (l := withdrawn (frames s))]

instance decidableFitsRequest (cfg : Cfg) (q : Queue) (c : Command) : Decidable (Fits cfg q c) :=
  decidable_of_iff (isCmdPresentQueue cfg q c.key false = false ∧ q.pool ≠ [] ∧
      q.pending.length ≠ cfg.maxPending ∧
      (cfg.kind = .nonScan → (q.vdevPending c.vdev).length ≠ cfg.vdevMaxPending c.vdev))
    ⟨fun hh => ⟨hh.1,hh.2.1,hh.2.2.1,hh.2.2.2⟩,
      fun hh => ⟨hh.absent,hh.pool,hh.pending,hh.vdevPending⟩⟩

instance decidableCountsPending (cfg : Cfg) (q : Queue) (c : Command) :
    Decidable (CountsPending cfg q c) :=
  inferInstanceAs (Decidable (c.isBlocking = true →
    ¬ (cfg.kind = .nonScan ∧ q.queueDisable c.vdev = true) →
    if q.bitmap = ∅ then q.vdevPending c.vdev ≠ [] → ¬ Fits cfg q c
    else Fits cfg q c ∧ q.blockingCmdWaiting+1 < 2^16))

instance decidableRequestsCounted (cfg : Cfg) (s : State) :
    ∀ op, Decidable (RequestsCounted cfg s op)
  | .request c _ => decidableCountsPending cfg s.store.q (numbered s.store c)
  | .advance i _ => inferInstanceAs (Decidable (∀ f ∈ top s i, Followed cfg s.store.q f))
  | .removeCmd _ => isTrue trivial
  | .timeout _ => isTrue trivial
  | .cancelRequest _ _ _ => isTrue trivial

/-- A blocking request waits for an active command and is promoted after its removal. -/
def blockingWaits : List Op :=
  [.request ⟨2,1,1,false,false,false,0⟩ 0,.advance 0 ⟨true,true,0⟩,.advance 0 ⟨true,true,0⟩,
    .request ⟨2,2,2,false,true,false,0⟩ 0,.removeCmd ⟨2,1,1⟩,.advance 2 ⟨true,true,0⟩,
    .advance 2 ⟨true,true,0⟩,.advance 2 ⟨true,true,0⟩]

theorem counter_blockingWaits :
    Always (step nonScanCfg) (fun s => CounterExact s ∧ CounterAtRest s) (initial nonScanCfg)
      blockingWaits :=
  counter_always rfl blockingWaits (by decide +kernel) (by decide +kernel)

/-- A blocking request waits, and the same request is made again and rejected. -/
def requestedTwice : List Op :=
  [.request ⟨2,1,1,false,false,false,0⟩ 0,.request ⟨2,2,1,false,true,false,0⟩ 0,
    .request ⟨2,2,1,false,true,false,0⟩ 0]

theorem counter_requestedTwice :
    Guarded (step nonScanCfg) (Legal nonScanCfg) (initial nonScanCfg) requestedTwice ∧
      ¬ Always (step nonScanCfg) CounterAtRest (initial nonScanCfg) requestedTwice := by
  refine ⟨by decide +kernel,fun hh => ?_⟩
  have hlast := hh.last (by decide +kernel)
  revert hlast
  decide +kernel

end Serialization
end MarbleModules
