import MarbleModules.SerializationInvariant

/-! What becomes of nodes and commands: every node is in one list, and every accepted command is
in a list or has been released, once. -/
namespace MarbleModules
namespace Serialization

open Runs Stacks

/-- The numbers of the commands in a list of nodes -/
def Queue.uids (q : Queue) (l : List ℕ) : List ℕ := (q.commands l).map Command.uid

/-- The command whose callback a call has still to call -/
def Frame.owed : Frame → Option ℕ
  | .release c => some c.uid
  | _ => none

/-- The node that a call names its command by still holds it, when it is in the list the call
takes commands from. -/
def Unmixed (q : Queue) : Frame → Prop
  | .dequeue (.node n uid) => n ∈ q.active → ∀ c ∈ (q.nodes n).cmd, c.uid = uid
  | .cancel ⟨some (.node n uid),_,_,_,_⟩ active =>
    n ∈ q.pdevList active → ∀ c ∈ (q.nodes n).cmd, c.uid = uid
  | .cancelled ⟨some (.node n uid),_,_,_,_⟩ active _ _ _ =>
    n ∈ q.pdevList active → ∀ c ∈ (q.nodes n).cmd, c.uid = uid
  | _ => True

/-- No call takes a command out of a node that has been given to another command. -/
def NodesUnmixed (cfg : Cfg) (s : State) : Op → Prop
  | .advance i _ => ∀ f ∈ top s i, Followed cfg s.store.q f ∧ Unmixed s.store.q f
  | _ => True

/-- Every node is in exactly one of the pool, the active and the pending list, and in the vdev's
lists accordingly. Every accepted command is in one of the lists, or it has left them and its
callback is about to be called, or that has been done, once. What was taken out of a node that a
call kept a pointer to was the command that was meant, and no cancel loop has left its list. -/
structure Conserved (cfg : Cfg) (s : State) : Prop where
  nodes : (s.store.q.active ++ (s.store.q.pending ++ s.store.q.pool)).Perm
    (List.range cfg.poolSize)
  vdevs : cfg.kind = .nonScan → ∀ active v,
    s.store.q.vdevList active v = (s.store.q.pdevList active).filter (onVdev s.store.q v)
  commands : (s.store.q.uids s.store.q.active ++ s.store.q.uids s.store.q.pending ++
    ((frames s).filterMap Frame.owed ++ s.store.released)).Perm s.store.accepted
  once : s.store.accepted.Nodup
  meant : ∀ p ∈ s.store.deferred, p.1 = p.2
  intact : s.store.corrupt = false

/-- The invariant of the history -/
structure Recorded (s : Store) (F : List Frame) : Prop where
  commands : ((s.q.activeCmds ++ s.q.pendingCmds).map Command.uid ++
    (F.filterMap Frame.owed ++ s.released)).Perm s.accepted
  once : s.accepted.Nodup
  fresh : ∀ u ∈ s.accepted, u < s.nextUid

/-- All commands were the ones that were meant. -/
def Meant (s : Store) : Prop := ∀ p ∈ s.deferred, p.1 = p.2

theorem Recorded.perm {s : Store} {F F' : List Frame} (hp : F.Perm F') (h : Recorded s F) :
    Recorded s F' where
  commands := ((((hp.filterMap _).append_right _).append_left _).symm).trans h.commands
  once := h.once
  fresh := h.fresh

/-- The history depends on the queue's commands and on what is owed and released only. -/
theorem Recorded.congr {s s' : Store} {F F' : List Frame} (h : Recorded s F)
    (hc : ((s'.q.activeCmds ++ s'.q.pendingCmds).map Command.uid ++
      (F'.filterMap Frame.owed ++ s'.released)).Perm
      ((s.q.activeCmds ++ s.q.pendingCmds).map Command.uid ++
        (F.filterMap Frame.owed ++ s.released)))
    (ha : s'.accepted = s.accepted) (hn : s'.nextUid = s.nextUid) : Recorded s' F' where
  commands := ha ▸ hc.trans h.commands
  once := ha ▸ h.once
  fresh := by
    rw [ha,hn]
    exact h.fresh

theorem Frame.Plain.owed {f : Frame} (hf : f.Plain) : f.owed = none := by
  cases f <;> first | rfl | exact hf.elim

theorem Idle.owed {cfg : Cfg} {q q' : Queue} {f : Frame} (hf : Idle cfg q f q') :
    f.owed = none := by
  cases hf with
  | looked hk hl hs => cases hl <;> rfl
  | _ => rfl

theorem Chosen.owed {cfg : Cfg} {q q' : Queue} {n : ℕ} {f : Frame} {gs : List Frame}
    (hf : Chosen cfg q n f q' gs) : f.owed = none ∧ gs.filterMap Frame.owed = [] := by
  cases hf with
  | looked hk hl hs => exact ⟨by cases hl <;> rfl,rfl⟩
  | scan => exact ⟨rfl,rfl⟩

/-- A command taken out, from whichever list, is missing there. -/
theorem Wf.takeOut_all {cfg : Cfg} {q : Queue} (h : Wf cfg q) (active : Bool) {n : ℕ}
    {c : Command} (hn : n ∈ q.pdevList active) (hc : (q.nodes n).cmd = some c) :
    (q.activeCmds ++ q.pendingCmds).Perm (c::((takeOut cfg q n c.vdev active).activeCmds ++
      (takeOut cfg q n c.vdev active).pendingCmds)) := by
  have hcmds := h.takeOut_cmds active hn hc
  cases active with
  | true =>
    rw [← hcmds.2]
    exact hcmds.1.append_right _
  | false =>
    rw [hcmds.1]
    exact (hcmds.2.append_left _).trans List.perm_middle

/-- A command may leave the lists when it is owed or released from then on. -/
theorem Recorded.left {s s' : Store} {F F' : List Frame} {u : ℕ} (h : Recorded s F)
    (hc : ((s.q.activeCmds ++ s.q.pendingCmds).map Command.uid).Perm
      (u::(s'.q.activeCmds ++ s'.q.pendingCmds).map Command.uid))
    (ho : (F'.filterMap Frame.owed ++ s'.released).Perm (u::(F.filterMap Frame.owed ++ s.released)))
    (ha : s'.accepted = s.accepted) (hn : s'.nextUid = s.nextUid) : Recorded s' F' := by
  refine h.congr ?_ ha hn
  exact ((ho.append_left _).trans List.perm_middle).trans (hc.symm.append_right _)

/-- A command that a cancel takes out is released at once. -/
theorem Recorded.taken {cfg : Cfg} {s s₀ : Store} {F : List Frame} {f : Filter}
    {active timerFound : Bool} {p p' : Option ℕ} {k k' : ℕ} {q₁ : Queue} {n : ℕ} {c : Command}
    {g : Frame} (h : Recorded s₀ F) (hwf : Wf cfg s.q)
    (ht : Taken cfg s.q f active timerFound p k q₁ n c p' k') (hg : g.owed = none)
    (hcmds : s.q.activeCmds = s₀.q.activeCmds ∧ s.q.pendingCmds = s₀.q.pendingCmds)
    (hr : s.released = s₀.released) (ha : s.accepted = s₀.accepted)
    (hn : s.nextUid = s₀.nextUid) :
    Recorded (s.taken (takeOut cfg q₁ n c.vdev active) f n c) (g::F) := by
  have hmem : n ∈ q₁.pdevList active := ht.marks.pdevList active ▸ ht.mem
  have hleft := (hwf.of_marks ht.marks).takeOut_all active hmem ((ht.marks.cmd n).trans ht.cmd)
  rw [ht.marks.activeCmds,ht.marks.pendingCmds,hcmds.1,hcmds.2] at hleft
  refine h.left (hleft.map Command.uid) ?_ ha hn
  rw [List.filterMap_cons_none hg]
  simp only [Store.taken,hr,← List.append_assoc]
  exact List.perm_append_singleton _ _

theorem Recorded.turn {cfg : Cfg} {s s' : Store} {env : Env} {f : Frame} {F gs : List Frame}
    (hinv : Inv cfg s.q (f::F)) (h : Recorded s (f::F)) (ht : Turn cfg s env f s' gs) :
    Recorded s' (gs ++ F) := by
  have htail : f.owed = none → Recorded s F := fun hf => by
    refine h.congr ?_ rfl rfl
    rw [List.filterMap_cons_none hf]
  have hsame : ∀ {q' : Queue} {b : Bool} {gs : List Frame}, f.owed = none →
      gs.filterMap Frame.owed = [] →
      (q'.activeCmds ++ q'.pendingCmds).Perm (s.q.activeCmds ++ s.q.pendingCmds) →
      Recorded { s with q := q', corrupt := b } (gs ++ F) := by
    intro q' b gs hf hgs hp
    refine (htail hf).congr ?_ rfl rfl
    rw [List.filterMap_append,hgs,List.nil_append]
    exact (hp.map _).append_right _
  cases ht with
  | plain hf hgs hq hm =>
    refine hsame hf.owed (List.filterMap_eq_nil_iff.mpr fun g hg => (hgs g hg).owed) ?_
    rw [hq.activeCmds,hq.pendingCmds]
  | activate n uid =>
    have hcmds : ∀ l, (s.q.setNode n { s.q.nodes n with
        markedForActivation := false, isActive := true }).commands l = s.q.commands l := by
      refine fun l => commands_congr fun m _ => ?_
      by_cases hmn : m = n
      · rw [hmn,setNode_nodes,Function.update_self]
      · rw [setNode_nodes,Function.update_of_ne hmn]
    refine hsame rfl rfl ?_
    simp only [Queue.activeCmds,Queue.pendingCmds,hcmds]
    exact List.Perm.refl _
  | @dequeue ref n c hr hn hc hm =>
    have hleft := hinv.wf.takeOut_all true hn hc
    have hfinish := cancelFinish_cmds cfg (takeOut cfg s.q n c.vdev true) true c
    rw [← hfinish.1,← hfinish.2] at hleft
    exact (htail rfl).left (hleft.map Command.uid) (List.Perm.refl _) rfl rfl
  | idle hf =>
    have hq := hf.marks hinv.wf
    refine hsame hf.owed rfl ?_
    rw [hq.activeCmds,hq.pendingCmds]
  | @promote _ gs n c q₁ q' hf hp =>
    have hq := hf.marks hinv.wf
    obtain ⟨hactive,hpending⟩ := hp.cmds (hinv.wf.of_marks hq)
    rw [hq.activeCmds] at hactive
    rw [hq.pendingCmds] at hpending
    refine hsame hf.owed.1 hf.owed.2 ((hactive.append_right _).trans ?_)
    exact List.perm_middle.symm.trans (hpending.symm.append_left _)
  | release c =>
    refine h.congr (List.Perm.append_left _ ?_) rfl rfl
    rw [List.nil_append,← List.append_assoc]
    exact List.perm_append_singleton _ _
  | take ht => exact (htail rfl).taken hinv.wf ht rfl ⟨rfl,rfl⟩ rfl rfl rfl
  | @finish f active p k c q' b hq hm hb =>
    have hfinish := cancelFinish_cmds cfg s.q active c
    refine hsame rfl rfl ?_
    rw [hq.activeCmds,hq.pendingCmds,hfinish.1,hfinish.2]
  | @finishTake f active p p' k k' c c' q₁ n ht =>
    exact Recorded.taken (s := { s with q := cancelFinish cfg s.q active c }) (htail rfl)
      (hinv.wf.of_cancelFinish active c) ht rfl (cancelFinish_cmds cfg s.q active c) rfl rfl rfl

theorem Meant.note {q : Queue} {l : List (ℕ × ℕ)} (h : ∀ p ∈ l, p.1 = p.2) {ref : Option CmdRef}
    {m : ℕ} {c : Command} (hc : (q.nodes m).cmd = some c)
    (hcond : ∀ uid, ref = some (.node m uid) → ∀ d ∈ (q.nodes m).cmd, d.uid = uid) :
    ∀ p ∈ noteDeferred ref m c l, p.1 = p.2 := by
  unfold noteDeferred
  split
  · next n uid =>
    split
    · next hmn =>
      subst hmn
      intro p hp
      rcases List.mem_append.mp hp with hp | hp
      · exact h p hp
      · rw [List.mem_singleton.mp hp]
        exact (hcond uid rfl c hc).symm
    · exact h
  · exact h

/-- A cancel that still finds the command meant in its node takes no other. -/
theorem Meant.taken {cfg : Cfg} {s : Store} (h : Meant s) {q : Queue} {f : Filter}
    {active timerFound : Bool} {p p' : Option ℕ} {k k' : ℕ} {q₁ q' : Queue} {n : ℕ} {c : Command}
    (ht : Taken cfg q f active timerFound p k q₁ n c p' k')
    (hcond : ∀ uid, f.cmd = some (.node n uid) → n ∈ q.pdevList active →
      ∀ d ∈ (q.nodes n).cmd, d.uid = uid) : Meant (s.taken q' f n c) :=
  Meant.note h ht.cmd fun uid hf => hcond uid hf ht.mem

theorem Unmixed.cancel {q : Queue} {f : Filter} {active : Bool}
    (h : Unmixed q (.cancel f active)) {n uid : ℕ} (hf : f.cmd = some (.node n uid))
    (hn : n ∈ q.pdevList active) : ∀ d ∈ (q.nodes n).cmd, d.uid = uid := by
  obtain ⟨_,_,_,_,_⟩ := f
  cases hf
  exact h hn

theorem Unmixed.cancelled {q : Queue} {f : Filter} {active : Bool} {p : Option ℕ} {k : ℕ}
    {c : Command} (h : Unmixed q (.cancelled f active p k c)) {n uid : ℕ}
    (hf : f.cmd = some (.node n uid)) (hn : n ∈ q.pdevList active) :
    ∀ d ∈ (q.nodes n).cmd, d.uid = uid := by
  obtain ⟨_,_,_,_,_⟩ := f
  cases hf
  exact h hn

theorem Meant.turn {cfg : Cfg} {s s' : Store} {env : Env} {f : Frame} {gs : List Frame}
    (h : Meant s) (hcond : Unmixed s.q f) (ht : Turn cfg s env f s' gs) : Meant s' := by
  cases ht with
  | dequeue hr hn hc hm =>
    refine Meant.note h hc fun uid href => ?_
    cases href
    exact hcond hn
  | take ht => exact h.taken ht fun uid hf => hcond.cancel hf
  | @finishTake f active p p' k k' c c' q₁ n ht =>
    obtain ⟨hparts,hnodes⟩ := cancelFinish_parts cfg s.q active c
    refine Meant.taken h ht fun uid hf hn => ?_
    rw [hparts.pdevList] at hn
    rw [hnodes]
    exact hcond.cancelled hf hn
  | _ => exact h

/-- An accepted request has a number of its own. -/
theorem Recorded.enqueued {cfg : Cfg} {others : ℕ} {s : Store} {F : List Frame} {q' : Queue}
    {n : ℕ} {c : Command} {active : Bool} (h : Recorded s F) (hwf : Wf cfg s.q)
    (he : Enqueued cfg others s.q n (numbered s c) active q') :
    Recorded { s with
        q := q'
        nextUid := s.nextUid+1
        accepted := s.accepted ++ [s.nextUid] }
      ((if active then [.activate n s.nextUid] else []) ++ F) := by
  have hcmds := he.cmds hwf
  have hjoin : ((q'.activeCmds ++ q'.pendingCmds).map Command.uid).Perm
      (s.nextUid::(s.q.activeCmds ++ s.q.pendingCmds).map Command.uid) := by
    have hcons : (s.nextUid::(s.q.activeCmds ++ s.q.pendingCmds).map Command.uid) =
        (numbered s c::(s.q.activeCmds ++ s.q.pendingCmds)).map Command.uid := rfl
    rw [hcons]
    refine List.Perm.map _ ?_
    cases active with
    | true =>
      rw [hcmds.2]
      exact hcmds.1.append_right _
    | false =>
      rw [hcmds.1]
      exact (hcmds.2.append_left _).trans List.perm_middle
  have howed : ((if active then [Frame.activate n s.nextUid] else []) ++ F).filterMap
      Frame.owed = F.filterMap Frame.owed := by
    cases active <;> rfl
  refine ⟨?_,?_,fun u hu => ?_⟩
  · rw [howed]
    exact (hjoin.append_right _).trans ((h.commands.cons _).trans
      (List.perm_append_singleton _ _).symm)
  · refine List.nodup_append.mpr ⟨h.once,List.nodup_singleton _,fun u hu v hv => ?_⟩
    rw [List.mem_singleton.mp hv]
    exact (h.fresh u hu).ne
  · rcases List.mem_append.mp hu with hu | hu
    · exact (h.fresh u hu).trans (Nat.lt_succ_self _)
    · rw [List.mem_singleton.mp hu]
      exact Nat.lt_succ_self _

theorem Recorded.rejected {cfg : Cfg} {others : ℕ} {s : Store} {F : List Frame} {q' : Queue}
    {c : Command} (h : Recorded s F) (hr : Rejected cfg others s.q c q') :
    Recorded { s with q := q', nextUid := s.nextUid+1 } F where
  commands := by
    dsimp only
    rw [hr.cmds.1,hr.cmds.2]
    exact h.commands
  once := h.once
  fresh := fun u hu => (h.fresh u hu).trans (Nat.lt_succ_self _)

theorem step_recorded {cfg : Cfg} {s : State} {op : Op} (hinv : Inv cfg s.store.q (frames s))
    (hlegal : Legal cfg s op) (h : Recorded s.store (frames s)) :
    Recorded (step cfg s op).store (frames (step cfg s op)) := by
  refine step_rule (I := Recorded) (fun d F F' hp hh => hh.perm hp) hinv hlegal h
    (fun gs hgs => ?_) ?_ ?_ ?_
  · refine h.congr ?_ rfl rfl
    rw [plain_filterMap (fun f => Frame.Plain.owed (f := f)) hgs]
  · rintro c others q' rfl hr
    exact h.rejected hr
  · rintro c others n active q' rfl he
    exact h.enqueued hinv.wf he
  · intro i env f F s' gs _ _ _ hinv' hh ht
    exact hh.turn hinv' ht

theorem step_meant {cfg : Cfg} {s : State} {op : Op} (hinv : Inv cfg s.store.q (frames s))
    (hlegal : Legal cfg s op) (hcond : NodesUnmixed cfg s op) (h : Meant s.store) :
    Meant (step cfg s op).store := by
  refine step_rule (I := fun d _ => Meant d) (fun _ _ _ _ hh => hh) hinv hlegal h
    (fun _ _ => h) (fun _ _ _ _ _ => h) (fun _ _ _ _ _ _ _ => h) ?_
  rintro i env f F s' gs rfl htop - - hh ht
  exact hh.turn (hcond f htop).2 ht

/-- In runs in which no call takes a command out of a node that has been given to another
command, every node is in one list and every accepted command is released once, when it has
left the lists. -/
theorem conserved_always {cfg : Cfg} (hbounded : cfg.Bounded) (ops : List Op)
    (hlegal : Guarded (step cfg) (Legal cfg) (initial cfg) ops)
    (hcond : Guarded (step cfg) (NodesUnmixed cfg) (initial cfg) ops) :
    Always (step cfg) (Conserved cfg) (initial cfg) ops := by
  have hfollow : Guarded (step cfg) (Follows cfg) (initial cfg) ops := by
    refine Guarded.imp (I := fun _ => True) (fun _ _ _ _ => trivial) (fun s op _ hc => ?_)
      trivial ops hcond
    cases op with
    | advance i env => exact fun f hf => (hc f hf).1
    | _ => trivial
  have hintact := intact_always hbounded ops hlegal hfollow
  suffices hall : Always (step cfg) (fun s => Inv cfg s.store.q (frames s) ∧
      Recorded s.store (frames s) ∧ Meant s.store) (initial cfg) ops by
    intro pre hpre
    obtain ⟨hinv,hrec,hmeant⟩ := hall pre hpre
    refine ⟨hinv.wf.parts,fun hk active v => hinv.wf.vdevs hk active v,?_,hrec.once,hmeant,
      hintact pre hpre⟩
    have hh := hrec.commands
    rw [List.map_append] at hh
    exact hh
  refine guarded_always (I := fun s => Inv cfg s.store.q (frames s) ∧
      Recorded s.store (frames s) ∧ Meant s.store) (fun s hh => hh) (fun s op hh hc =>
    ⟨step_inv hh.1 hc.1,step_recorded hh.1 hc.1 hh.2.1,step_meant hh.1 hc.1 hc.2 hh.2.2⟩)
    ⟨initial_inv hbounded,?_,by simp [Meant,initial]⟩ ops (hlegal.and hcond)
  refine ⟨?_,?_,?_⟩ <;>
    simp [initial,initialQueue,frames,Queue.activeCmds,Queue.pendingCmds,Queue.commands]

instance decidableUnmixed (q : Queue) : ∀ f, Decidable (Unmixed q f)
  | .dequeue (.node n uid) =>
    inferInstanceAs (Decidable (n ∈ q.active → ∀ c ∈ (q.nodes n).cmd, c.uid = uid))
  | .dequeue (.value _) => isTrue trivial
  | .cancel ⟨some (.node n uid),_,_,_,_⟩ active =>
    inferInstanceAs (Decidable (n ∈ q.pdevList active → ∀ c ∈ (q.nodes n).cmd, c.uid = uid))
  | .cancel ⟨some (.value _),_,_,_,_⟩ _ => isTrue trivial
  | .cancel ⟨none,_,_,_,_⟩ _ => isTrue trivial
  | .cancelled ⟨some (.node n uid),_,_,_,_⟩ active _ _ _ =>
    inferInstanceAs (Decidable (n ∈ q.pdevList active → ∀ c ∈ (q.nodes n).cmd, c.uid = uid))
  | .cancelled ⟨some (.value _),_,_,_,_⟩ _ _ _ _ => isTrue trivial
  | .cancelled ⟨none,_,_,_,_⟩ _ _ _ _ => isTrue trivial
  | .activate _ _ => isTrue trivial
  | .activated _ _ _ => isTrue trivial
  | .timeout _ => isTrue trivial
  | .move _ _ => isTrue trivial
  | .moveLoop _ => isTrue trivial
  | .release _ => isTrue trivial

instance decidableNodesUnmixed (cfg : Cfg) (s : State) : ∀ op, Decidable (NodesUnmixed cfg s op)
  | .advance i _ => inferInstanceAs (Decidable (∀ f ∈ top s i,
      Followed cfg s.store.q f ∧ Unmixed s.store.q f))
  | .request _ _ => isTrue trivial
  | .removeCmd _ => isTrue trivial
  | .timeout _ => isTrue trivial
  | .cancelRequest _ _ _ => isTrue trivial

/-- The removal of a scan arrives during its activation and is carried out after it. -/
def removedWhileActivated : List Op :=
  [.request ⟨0,1,0,false,false,false,0⟩ 0,.removeCmd ⟨0,1,0⟩,.advance 1 ⟨true,true,0⟩,
    .advance 0 ⟨true,true,0⟩,.advance 0 ⟨true,true,0⟩,.advance 0 ⟨true,true,0⟩,
    .advance 0 ⟨true,true,0⟩,.advance 0 ⟨true,true,0⟩]

theorem conserved_removedWhileActivated :
    Always (step scanCfg) (Conserved scanCfg) (initial scanCfg) removedWhileActivated :=
  conserved_always (by decide) removedWhileActivated (by decide +kernel) (by decide +kernel)

/-- A scan that is requested, activated and removed by the calls `i` and `i+1` -/
def passing (i id : ℕ) : List Op :=
  [.request ⟨0,id,0,false,false,false,0⟩ 0,.advance i ⟨true,true,0⟩,.advance i ⟨true,true,0⟩,
    .removeCmd ⟨0,id,0⟩,.advance (i+1) ⟨true,true,0⟩,.advance (i+1) ⟨true,true,0⟩,
    .advance (i+1) ⟨true,true,0⟩]

/-- The activation of a scan fails. Before its thread has the lock again the scan is removed,
thirty-one scans pass through the pool, and another scan gets its node and becomes active: that
one is taken out. -/
def nodeReused : List Op :=
  [.request ⟨0,0,0,false,false,false,0⟩ 0,.advance 0 ⟨false,true,0⟩,.removeCmd ⟨0,0,0⟩,
    .advance 1 ⟨true,true,0⟩,.advance 1 ⟨true,true,0⟩,.advance 1 ⟨true,true,0⟩] ++
  (List.range 31).flatMap (fun j => passing (2+2*j) (j+1)) ++
  [.request ⟨0,40,0,false,false,false,0⟩ 0,.advance 64 ⟨true,true,0⟩,.advance 64 ⟨true,true,0⟩,
    .advance 0 ⟨true,true,0⟩,.advance 0 ⟨true,true,0⟩]

theorem conserved_nodeReused :
    Guarded (step scanCfg) (Legal scanCfg) (initial scanCfg) nodeReused ∧
      ¬ Always (step scanCfg) (Conserved scanCfg) (initial scanCfg) nodeReused := by
  refine ⟨by decide +kernel,fun hh => ?_⟩
  have hlast := hh.last.meant
  revert hlast
  decide +kernel

end Serialization
end MarbleModules
