import MarbleModules.SerializationRegions

/-! What a step of a call does, and what every run keeps: the queue is in order, a command is
not taken out while it is being activated, and no vdev has two active commands. -/
namespace MarbleModules
namespace Serialization

open Runs Stacks

/-- The frames that neither own a command nor have to promote one. -/
def Frame.Plain : Frame → Prop
  | .activated _ _ _ => True
  | .timeout _ => True
  | .dequeue _ => True
  | .cancel _ _ => True
  | _ => False

/-- Where a promotion looks for its command -/
inductive Looks (q : Queue) : Frame → Lookup → Prop
  | move (v : ℕ) (b : Bool) : Looks q (.move v b) (lookupFor q v b)
  | again (h : q.blockingCmdActive = false) : Looks q (.moveLoop .pdev) .pdev

/-- A promotion ends without a command. -/
inductive Idle (cfg : Cfg) (q : Queue) : Frame → Queue → Prop
  | scan (hk : cfg.kind = .scan) (v : ℕ) (b : Bool) : Idle cfg q (.move v b) q
  | vdev (v : ℕ) : Idle cfg q (.moveLoop (.vdev v)) q
  | blocked (h : q.blockingCmdActive = true) : Idle cfg q (.moveLoop .pdev) q
  | looked {f : Frame} {l : Lookup} (hk : cfg.kind = .nonScan) (hl : Looks q f l)
      (hs : (select q l).2 = none) : Idle cfg q f (select q l).1

/-- A promotion has chosen the command in a node; what it leaves for after the activation. -/
inductive Chosen (cfg : Cfg) (q : Queue) (n : ℕ) : Frame → Queue → List Frame → Prop
  | scan (hk : cfg.kind = .scan) (v : ℕ) (b : Bool) : Chosen cfg q n (.move v b) q []
  | looked {f : Frame} {l : Lookup} (hk : cfg.kind = .nonScan) (hl : Looks q f l)
      (hs : (select q l).2 = some n) : Chosen cfg q n f (select q l).1 [.moveLoop l]

/-- One pass of the cancel loop takes a command out. -/
structure Taken (cfg : Cfg) (q : Queue) (f : Filter) (active timerFound : Bool)
    (pnode : Option ℕ) (qsize : ℕ) (q₁ : Queue) (n : ℕ) (c : Command) (p : Option ℕ) (k : ℕ) :
    Prop where
  marks : Marks q q₁
  moves : SameMoves q q₁
  mem : n ∈ q.pdevList active
  cmd : (q.nodes n).cmd = some c
  selects : f.selects q n = true
  unmarked : (q.nodes n).markedForActivation = false
  result : cancelCmd cfg q f active timerFound pnode qsize =
    (takeOut cfg q₁ n c.vdev active,some (n,c,p,k))

/-- The store after a cancel has taken a command out -/
def Store.taken (s : Store) (q' : Queue) (f : Filter) (n : ℕ) (c : Command) : Store :=
  { s with
    q := q'
    released := s.released ++ [c.uid]
    deferred := noteDeferred f.cmd n c s.deferred }

/-- The node a cancel loop goes back to is still in its list, or the loop is over. -/
def Followed (cfg : Cfg) (q : Queue) : Frame → Prop
  | .cancelled f active p _ _ =>
    cfg.kind = .nonScan ∧ f.vdev = none ∧ f.pdev = false ∨ ¬ Stale q active p
  | _ => True

instance decidableFollowed (cfg : Cfg) (q : Queue) : ∀ f, Decidable (Followed cfg q f)
  | .cancelled f active p _ _ => inferInstanceAs (Decidable
      (cfg.kind = .nonScan ∧ f.vdev = none ∧ f.pdev = false ∨ ¬ Stale q active p))
  | .activate _ _ => isTrue trivial
  | .activated _ _ _ => isTrue trivial
  | .timeout _ => isTrue trivial
  | .dequeue _ => isTrue trivial
  | .move _ _ => isTrue trivial
  | .moveLoop _ => isTrue trivial
  | .release _ => isTrue trivial
  | .cancel _ _ => isTrue trivial

/-- What the step of a call does to a queue in order. -/
inductive Turn (cfg : Cfg) (s : Store) (env : Env) : Frame → Store → List Frame → Prop
  | plain {f : Frame} {q' : Queue} {gs : List Frame} (hf : f.Plain) (hgs : ∀ g ∈ gs, g.Plain)
      (hq : Marks s.q q') (hm : SameMoves s.q q') : Turn cfg s env f { s with q := q' } gs
  | activate (n uid : ℕ) : Turn cfg s env (.activate n uid)
      { s with q := s.q.setNode n { s.q.nodes n with
          markedForActivation := false, isActive := true } }
      [.activated n uid env.ok]
  | dequeue {ref : CmdRef} {n : ℕ} {c : Command} (hr : ref.key s.q = some c.key)
      (hn : n ∈ s.q.active) (hc : (s.q.nodes n).cmd = some c)
      (hm : (s.q.nodes n).markedForActivation = false) : Turn cfg s env (.dequeue ref)
      { s with
        q := cancelFinish cfg (takeOut cfg s.q n c.vdev true) true c
        deferred := noteDeferred (some ref) n c s.deferred }
      [.move c.vdev c.isBlocking,.release c]
  | idle {f : Frame} {q' : Queue} (hf : Idle cfg s.q f q') : Turn cfg s env f { s with q := q' } []
  | promote {f : Frame} {gs : List Frame} {n : ℕ} {c : Command} {q₁ q' : Queue}
      (hf : Chosen cfg s.q n f q₁ gs) (hp : Promoted cfg q₁ n c q') :
      Turn cfg s env f { s with q := q' } (.activate n c.uid::gs)
  | release (c : Command) :
      Turn cfg s env (.release c) { s with released := s.released ++ [c.uid] } []
  | take {f : Filter} {active : Bool} {q₁ : Queue} {n : ℕ} {c : Command} {p : Option ℕ} {k : ℕ}
      (ht : Taken cfg s.q f active env.timerFound none (s.q.pdevList active).length q₁ n c p k) :
      Turn cfg s env (.cancel f active) (s.taken (takeOut cfg q₁ n c.vdev active) f n c)
        [.cancelled f active p k c]
  | finish {f : Filter} {active : Bool} {p : Option ℕ} {k : ℕ} {c : Command} {q' : Queue}
      {b : Bool} (hq : Marks (cancelFinish cfg s.q active c) q')
      (hm : SameMoves (cancelFinish cfg s.q active c) q')
      (hb : Followed cfg s.q (.cancelled f active p k c) → b = s.corrupt) :
      Turn cfg s env (.cancelled f active p k c) { s with q := q', corrupt := b } []
  | finishTake {f : Filter} {active : Bool} {p p' : Option ℕ} {k k' : ℕ}
      {c c' : Command} {q₁ : Queue} {n : ℕ}
      (ht : Taken cfg (cancelFinish cfg s.q active c) f active env.timerFound p k q₁ n c' p' k') :
      Turn cfg s env (.cancelled f active p k c) (s.taken (takeOut cfg q₁ n c'.vdev active) f n c')
        [.cancelled f active p' k' c']

/-- What a promotion chooses is pending on a vdev without an active command. -/
theorem Wf.select_spec {cfg : Cfg} {q : Queue} (h : Wf cfg q) (hk : cfg.kind = .nonScan)
    (l : Lookup) : Walked q.pending q (select q l).1 ∧
      ∀ n, (select q l).2 = some n → n ∈ q.pending ∧ vdevCmdActive q n = false := by
  cases l with
  | vdev v =>
    refine ⟨Walked.refl _ q,fun n hn => ?_⟩
    rw [select,vdevFront] at hn
    cases hl : q.vdevPending v with
    | nil =>
      rw [hl] at hn
      cases hn
    | cons m rest =>
      rw [hl] at hn
      have hmem : m ∈ q.vdevPending v := by rw [hl]; exact List.mem_cons_self
      rw [← vdevList_false,h.vdevs hk] at hmem
      cases hv : vdevCmdActive q m with
      | true => simp [hv] at hn
      | false =>
        have hmn : m = n := by
          simp only [hv,Bool.false_eq_true,if_false] at hn
          split at hn
          · cases hn
          · exact Option.some.inj hn
        exact hmn ▸ ⟨List.mem_of_mem_filter hmem,hv⟩
  | pdev =>
    obtain ⟨hwalk,hstop⟩ := scanPending_spec h.pending_nodup
      fun n hn => h.not_mem_pool (Or.inr hn)
    refine ⟨hwalk,fun n hn => ?_⟩
    rw [select] at hn
    rw [hn] at hstop
    cases hstop with
    | found n hn hv hb => exact ⟨hn,hv⟩

theorem Roomy.of_marks {cfg : Cfg} {q q' : Queue} (h : Roomy cfg q) (hq : Marks q q') :
    Roomy cfg q' := by
  intro hk v hv hb
  rw [hq.bitmap] at hb
  rw [hq.vdevActive,hq.active]
  exact h hk v hv hb

theorem vdevCmdActive_eq {q : Queue} {n : ℕ} {c : Command} (hc : (q.nodes n).cmd = some c) :
    vdevCmdActive q n = decide (c.vdev ∈ q.bitmap) := by
  rw [vdevCmdActive,hc]

theorem isBlocking_of_cmd {q : Queue} {n : ℕ} {c : Command} (hc : (q.nodes n).cmd = some c) :
    isBlocking q n = c.isBlocking := by
  rw [isBlocking,hc]

section Turns

variable {cfg : Cfg} {s : Store} {env : Env} (h : Wf cfg s.q) (hroom : Roomy cfg s.q)
include h

include hroom in
theorem turn_moveFrom (hk : cfg.kind = .nonScan) {f : Frame} {l : Lookup}
    (hl : Looks s.q f l) : Turn cfg s env f (moveFrom cfg s l).1 (moveFrom cfg s l).2 := by
  obtain ⟨hwalk,hsome⟩ := h.select_spec hk l
  cases hs : (select s.q l).2 with
  | none =>
    simp only [moveFrom,hs]
    exact .idle (.looked hk hl hs)
  | some n =>
    obtain ⟨hn,hv⟩ := hsome n hs
    obtain ⟨c,hc,-⟩ := h.held n (Or.inr hn)
    have hc' : ((select s.q l).1.nodes n).cmd = some c := (hwalk.cmd n).trans hc
    obtain ⟨q',hp,hpromoted⟩ := (h.of_marks hwalk.toMarks).promote (hroom.of_marks hwalk.toMarks)
      (by rwa [hwalk.pending]) hc' (fun _ => by
        rw [vdevCmdActive_eq hc,decide_eq_false_iff_not] at hv
        rwa [hwalk.bitmap]) (fun hh => by rw [hk] at hh; cases hh)
    simp only [moveFrom,hs,hp]
    exact .promote (.looked hk hl hs) hpromoted

include hroom in
theorem turn_moveScan (hlimit : cfg.Bounded) (hk : cfg.kind = .scan) (others v : ℕ) (b : Bool) :
    Turn cfg s env (.move v b) (moveScan cfg s others).1 (moveScan cfg s others).2 := by
  rw [moveScan]
  cases hpending : s.q.pending with
  | nil => exact .idle (.scan hk v b)
  | cons n rest =>
    cases hallow : isActiveScanCmdAllowed cfg others s.q with
    | false => exact .idle (.scan hk v b)
    | true =>
      have hn : n ∈ s.q.pending := by rw [hpending]; exact List.mem_cons_self
      obtain ⟨c,hc,-⟩ := h.held n (Or.inr hn)
      obtain ⟨q',hp,hpromoted⟩ := h.promote hroom hn hc
        (fun hh => by rw [hk] at hh; cases hh) fun _ => by
          have hmax := hlimit hk
          rw [isActiveScanCmdAllowed,decide_eq_true_eq] at hallow
          omega
      simp only [hp,Bool.true_eq_false,if_false]
      exact .promote (.scan hk v b) hpromoted

theorem plain_or_taken (f : Filter) (active timerFound : Bool) (p : Option ℕ) (k : ℕ) :
    (∃ q', Marks s.q q' ∧ SameMoves s.q q' ∧
      cancelFrom cfg s f active timerFound p k = ({ s with q := q' },[])) ∨
    ∃ q₁ n c p' k', Taken cfg s.q f active timerFound p k q₁ n c p' k' ∧
      cancelFrom cfg s f active timerFound p k =
        (s.taken (takeOut cfg q₁ n c.vdev active) f n c,[.cancelled f active p' k' c]) := by
  rcases h.cancelCmd_cases f active timerFound p k with ⟨q',hq,hm,hs⟩ |
    ⟨q₁,n,c,p',k',hm,hs,hn,hc,hsel,hmark,hq⟩
  · refine Or.inl ⟨q',hm,hs,?_⟩
    simp only [cancelFrom,hq]
  · refine Or.inr ⟨q₁,n,c,p',k',⟨hm,hs,hn,hc,hsel,hmark,hq⟩,?_⟩
    simp only [cancelFrom,hq]
    rfl

end Turns

theorem cancelFinish_parts (cfg : Cfg) (q : Queue) (active : Bool) (c : Command) :
    SameParts q (cancelFinish cfg q active c) ∧ (cancelFinish cfg q active c).nodes = q.nodes := by
  rw [cancelFinish]
  cases cfg.kind with
  | scan => exact ⟨SameParts.refl q,rfl⟩
  | nonScan =>
    cases active with
    | true => exact ⟨⟨rfl,rfl,List.Perm.refl _,rfl,rfl⟩,rfl⟩
    | false =>
      dsimp only
      rw [if_neg (by decide)]
      split
      · exact ⟨SameParts.setWaiting q _,rfl⟩
      · exact ⟨SameParts.refl q,rfl⟩

theorem Wf.of_cancelFinish {cfg : Cfg} {q : Queue} (h : Wf cfg q) (active : Bool) (c : Command) :
    Wf cfg (cancelFinish cfg q active c) := by
  obtain ⟨hparts,hnodes⟩ := cancelFinish_parts cfg q active c
  exact h.of_same hparts (fun n => by rw [hnodes]) (fun n hn => by rwa [hnodes] at hn)
    fun n _ => by rw [hnodes]

/-- Every step of a call is one of the turns. -/
theorem turn {cfg : Cfg} {s : Store} (h : Wf cfg s.q) (hroom : Roomy cfg s.q)
    (hlimit : cfg.Bounded) (env : Env)
    {f : Frame} (hloop : cfg.kind = .scan → ∀ l, f ≠ .moveLoop l) :
    Turn cfg s env f (runFrame cfg s env f).1 (runFrame cfg s env f).2 := by
  have hsame : ∀ f gs, Frame.Plain f → (∀ g ∈ gs, Frame.Plain g) → Turn cfg s env f s gs :=
    fun f gs hf hgs => .plain hf hgs (Marks.refl s.q) fun _ => rfl
  cases f with
  | activate n uid => exact .activate n uid
  | activated n uid ok =>
    simp only [runFrame]
    split
    · exact hsame _ _ trivial (by simp [Frame.Plain])
    · split
      · split
        · exact hsame _ _ trivial (by simp)
        · exact hsame _ _ trivial (by simp [Frame.Plain])
      · exact hsame _ _ trivial (by simp)
  | timeout k =>
    simp only [runFrame]
    split
    · exact hsame _ _ trivial (by simp [Frame.Plain])
    · exact hsame _ _ trivial (by simp)
  | dequeue ref =>
    simp only [runFrame]
    cases hr : ref.key s.q with
    | none => exact hsame _ _ trivial (by simp)
    | some k =>
      rcases h.dequeueCmd_cases k with ⟨q',hd,hq,hm⟩ | ⟨n,c,hn,hc,hk,hm,hd⟩
      · simp only [hd]
        exact .plain trivial (by simp) hq hm
      · simp only [hd]
        exact .dequeue (by rw [hr,hk]) hn hc hm
  | move v b =>
    simp only [runFrame]
    cases hk : cfg.kind with
    | scan => exact turn_moveScan h hroom hlimit hk env.others v b
    | nonScan => exact turn_moveFrom h hroom hk (.move v b)
  | moveLoop l =>
    cases hk : cfg.kind with
    | scan => exact absurd rfl (hloop hk l)
    | nonScan =>
      cases l with
      | vdev v => exact .idle (.vdev v)
      | pdev =>
        simp only [runFrame]
        cases hb : s.q.blockingCmdActive with
        | true => exact .idle (.blocked hb)
        | false => exact turn_moveFrom h hroom hk (.again hb)
  | release c => exact .release c
  | cancel f active =>
    simp only [runFrame]
    rcases plain_or_taken h f active env.timerFound none (s.q.pdevList active).length with
      ⟨q',hq,hm,hc⟩ | ⟨q₁,n,c,p,k,ht,hc⟩
    · rw [hc]
      exact .plain trivial (by simp) hq hm
    · rw [hc]
      exact .take ht
  | cancelled f active p k c =>
    simp only [runFrame]
    split
    · exact .finish (Marks.refl _) (fun _ => rfl) fun _ => rfl
    · next hbreak =>
      split
      · next hstale =>
        refine .finish (b := true) (Marks.refl _) (fun _ => rfl) fun hfollow => ?_
        have hsame : Stale (cancelFinish cfg s.q active c) active p ↔ Stale s.q active p := by
          cases p with
          | none => exact Iff.rfl
          | some p => rw [Stale,Stale,(cancelFinish_parts cfg s.q active c).1.pdevList]
        exact (hfollow.elim hbreak fun hh => hh (hsame.mp hstale)).elim
      · rcases plain_or_taken (s := { s with q := cancelFinish cfg s.q active c })
          (h.of_cancelFinish active c) f active env.timerFound p k with
          ⟨q',hq,hm,hc⟩ | ⟨q₁,n,c',p',k',ht,hc⟩
        · rw [hc]
          exact .finish hq hm fun _ => rfl
        · rw [hc]
          exact .finishTake ht

/-- The commands in the active and in the pending list -/
def Queue.activeCmds (q : Queue) : List Command := q.commands q.active

def Queue.pendingCmds (q : Queue) : List Command := q.commands q.pending

theorem commands_cons {q : Queue} {n : ℕ} {c : Command} (hc : (q.nodes n).cmd = some c)
    (l : List ℕ) : q.commands (n::l) = c::q.commands l := by
  simp [Queue.commands,hc]

section Commands

variable {q q' : Queue} {l : List ℕ} {n : ℕ} {c : Command} {x : CommandList}
  (hq : q'.nodes = Function.update q.nodes n x)
include hq

theorem commands_same (hn : n ∉ l) : q'.commands l = q.commands l := by
  refine commands_congr fun m hm => ?_
  have hmn : m ≠ n := fun hh => hn (hh ▸ hm)
  rw [hq,Function.update_of_ne hmn]

theorem commands_left (hl : l.Nodup) (hn : n ∈ l) (hc : (q.nodes n).cmd = some c) :
    (q.commands l).Perm (c::q'.commands (l.erase n)) := by
  rw [commands_same hq hl.not_mem_erase,← commands_cons hc]
  exact (List.perm_cons_erase hn).filterMap _

theorem commands_joined (hn : n ∉ l) (hc : x.cmd = some c) (high : Bool) :
    (q'.commands (place l n high)).Perm (c::q.commands l) := by
  have hc' : (q'.nodes n).cmd = some c := by rw [hq,Function.update_self,hc]
  rw [← commands_same hq hn,← commands_cons hc']
  exact (place_perm l n high).filterMap _

end Commands

theorem mem_commands {q : Queue} {l : List ℕ} {c : Command} :
    c ∈ q.commands l ↔ ∃ n ∈ l, (q.nodes n).cmd = some c := List.mem_filterMap

section Books

variable {cfg : Cfg} {q q' : Queue} {n : ℕ} {c : Command}

theorem Marks.activeCmds (h : Marks q q') : q'.activeCmds = q.activeCmds := by
  rw [Queue.activeCmds,Queue.activeCmds,h.active]
  exact commands_congr fun n _ => h.cmd n

theorem Marks.pendingCmds (h : Marks q q') : q'.pendingCmds = q.pendingCmds := by
  rw [Queue.pendingCmds,Queue.pendingCmds,h.pending]
  exact commands_congr fun n _ => h.cmd n

theorem cancelFinish_cmds (cfg : Cfg) (q : Queue) (active : Bool) (c : Command) :
    (cancelFinish cfg q active c).activeCmds = q.activeCmds ∧
      (cancelFinish cfg q active c).pendingCmds = q.pendingCmds := by
  obtain ⟨hparts,hnodes⟩ := cancelFinish_parts cfg q active c
  simp only [Queue.activeCmds,Queue.pendingCmds,hparts.active,hparts.pending,Queue.commands,hnodes]
  exact ⟨trivial,trivial⟩

/-- A command taken out leaves one of the two lists. -/
theorem Wf.takeOut_cmds (h : Wf cfg q) (active : Bool) (hn : n ∈ q.pdevList active)
    (hc : (q.nodes n).cmd = some c) :
    (if active then q.activeCmds.Perm (c::(takeOut cfg q n c.vdev active).activeCmds) ∧
        (takeOut cfg q n c.vdev active).pendingCmds = q.pendingCmds
      else (takeOut cfg q n c.vdev active).activeCmds = q.activeCmds ∧
        q.pendingCmds.Perm (c::(takeOut cfg q n c.vdev active).pendingCmds)) := by
  have hnodes := takeOut_nodes cfg q n c.vdev active
  simp only [Queue.activeCmds,Queue.pendingCmds,takeOut_active,takeOut_pending]
  cases active with
  | true =>
    exact ⟨commands_left hnodes h.active_nodup hn hc,commands_same hnodes (h.not_mem_pending hn)⟩
  | false =>
    exact ⟨commands_same hnodes fun hh => h.not_mem_pending hh hn,
      commands_left hnodes h.pending_nodup hn hc⟩

theorem Promoted.cmds (hp : Promoted cfg q n c q') (h : Wf cfg q) :
    q'.activeCmds.Perm (c::q.activeCmds) ∧ q.pendingCmds.Perm (c::q'.pendingCmds) := by
  rw [Queue.activeCmds,Queue.activeCmds,Queue.pendingCmds,Queue.pendingCmds,hp.active,hp.pending]
  exact ⟨commands_joined hp.nodes (fun hh => h.not_mem_pending hh hp.mem) hp.cmd _,
    commands_left hp.nodes h.pending_nodup hp.mem hp.cmd⟩

theorem Enqueued.cmds {others : ℕ} {active : Bool} (he : Enqueued cfg others q n c active q')
    (h : Wf cfg q) :
    (if active then q'.activeCmds.Perm (c::q.activeCmds) ∧ q'.pendingCmds = q.pendingCmds
      else q'.activeCmds = q.activeCmds ∧ q'.pendingCmds.Perm (c::q.pendingCmds)) := by
  have hna : n ∉ q.active := fun hh => h.not_mem_pool (Or.inl hh) he.mem_pool
  have hnp : n ∉ q.pending := fun hh => h.not_mem_pool (Or.inr hh) he.mem_pool
  simp only [Queue.activeCmds,Queue.pendingCmds,he.active_eq,he.pending_eq]
  cases active with
  | true => exact ⟨commands_joined he.nodes hna rfl _,commands_same he.nodes hnp⟩
  | false => exact ⟨commands_same he.nodes hna,commands_joined he.nodes hnp rfl _⟩

theorem Rejected.cmds {others : ℕ} (hr : Rejected cfg others q c q') :
    q'.activeCmds = q.activeCmds ∧ q'.pendingCmds = q.pendingCmds := by
  simp only [Queue.activeCmds,Queue.pendingCmds,hr.active,hr.pending,Queue.commands,hr.nodes]
  exact ⟨trivial,trivial⟩

end Books

/-- The node whose command is being activated -/
def Frame.activating : Frame → Option ℕ
  | .activate n _ => some n
  | _ => none

/-- The active command whose cancel callbacks run -/
def Frame.cancelledActive : Frame → Option Command
  | .cancelled _ true _ _ c => some c
  | _ => none

/-- The commands are on different vdevs, and the bits are those of their vdevs. -/
structure Booked (l : List Command) (b : Finset ℕ) : Prop where
  nodup : (l.map Command.vdev).Nodup
  mem : ∀ v, v ∈ b ↔ v ∈ l.map Command.vdev

theorem Booked.perm {l l' : List Command} {b : Finset ℕ} (h : Booked l b) (hp : l.Perm l') :
    Booked l' b where
  nodup := (hp.map Command.vdev).nodup_iff.mp h.nodup
  mem := fun v => by rw [h.mem,(hp.map Command.vdev).mem_iff]

theorem Booked.insert {l : List Command} {b : Finset ℕ} (h : Booked l b) {c : Command}
    (hc : c.vdev ∉ b) : Booked (c::l) (insert c.vdev b) where
  nodup := List.nodup_cons.mpr ⟨fun hh => hc ((h.mem _).mpr hh),h.nodup⟩
  mem := fun v => by rw [Finset.mem_insert,h.mem,List.map_cons,List.mem_cons]

theorem Booked.erase {l : List Command} {b : Finset ℕ} {c : Command} (h : Booked (c::l) b) :
    Booked l (b.erase c.vdev) := by
  have hnodup := List.nodup_cons.mp h.nodup
  refine ⟨hnodup.2,fun v => ?_⟩
  rw [Finset.mem_erase,h.mem,List.map_cons,List.mem_cons]
  constructor
  · rintro ⟨hne,hv⟩
    exact hv.resolve_left hne
  · exact fun hv => ⟨fun hh => hnodup.1 (hh ▸ hv),Or.inr hv⟩

/-- The invariant of the queue and the frames of all calls. Outside cancels the bitmap holds the
vdevs of the active commands; a command that a cancel has taken out keeps its bit until its
callbacks have run. -/
structure Inv (cfg : Cfg) (q : Queue) (F : List Frame) : Prop where
  wf : Wf cfg q
  limit : cfg.Bounded
  activating : (F.filterMap Frame.activating).Nodup
  marked : ∀ n ∈ F.filterMap Frame.activating, (q.nodes n).markedForActivation = true
  loops : cfg.kind = .scan → ∀ l, Frame.moveLoop l ∉ F
  booked : cfg.kind = .nonScan →
    Booked (q.activeCmds ++ F.filterMap Frame.cancelledActive) q.bitmap

theorem Inv.perm {cfg : Cfg} {q : Queue} {F F' : List Frame} (hp : F.Perm F')
    (h : Inv cfg q F) : Inv cfg q F' := by
  have ha := hp.filterMap Frame.activating
  exact ⟨h.wf,h.limit,ha.nodup_iff.mp h.activating,fun n hn => h.marked n (ha.mem_iff.mpr hn),
    fun hk l hl => h.loops hk l (hp.mem_iff.mpr hl),
    fun hk => (h.booked hk).perm ((hp.filterMap Frame.cancelledActive).append_left _)⟩

theorem Wf.activeCmds_length {cfg : Cfg} {q : Queue} (h : Wf cfg q) :
    q.activeCmds.length = q.active.length := by
  refine List.filterMap_length_eq_length.mpr fun n hn => ?_
  obtain ⟨c,hc,-⟩ := h.held n (Or.inl hn)
  simp [hc]

theorem Inv.roomy {cfg : Cfg} {q : Queue} {F : List Frame} (h : Inv cfg q F) :
    Roomy cfg q := by
  intro hk v hv hb
  have hnot : v ∉ q.activeCmds.map Command.vdev := fun hh => hb (((h.booked hk).mem v).mpr (by
    rw [List.map_append]
    exact List.mem_append_left _ hh))
  constructor
  · rw [← vdevList_true,h.wf.vdevs hk,List.filter_eq_nil_iff]
    intro n hn hon
    obtain ⟨c,hc,-⟩ := h.wf.held n (Or.inl hn)
    rw [onVdev_of_cmd hc,decide_eq_true_eq] at hon
    exact hnot (List.mem_map.mpr ⟨c,mem_commands.mpr ⟨n,hn,hc⟩,hon⟩)
  · have hnodup : (q.activeCmds.map Command.vdev).Nodup := by
      have hh := (h.booked hk).nodup
      rw [List.map_append] at hh
      exact (List.nodup_append.mp hh).1
    have hsub : (q.activeCmds.map Command.vdev).toFinset ⊆ cfg.vdevs.erase v := by
      intro w hw
      rw [List.mem_toFinset] at hw
      obtain ⟨c,hc,rfl⟩ := List.mem_map.mp hw
      obtain ⟨n,hn,hcn⟩ := mem_commands.mp hc
      obtain ⟨d,hd,hdv⟩ := h.wf.held n (Or.inl hn)
      rw [← Option.some.inj (hcn.symm.trans hd)] at hdv
      exact Finset.mem_erase.mpr ⟨fun hh => hnot (hh ▸ hw),hdv⟩
    have hcard := Finset.card_le_card hsub
    rw [List.toFinset_card_of_nodup hnodup,List.length_map,h.wf.activeCmds_length,
      Finset.card_erase_of_mem hv] at hcard
    have hpos : 0 < cfg.vdevs.card := Finset.card_pos.mpr ⟨v,hv⟩
    have hmax := cfg.vdevs_card
    omega

theorem initial_inv {cfg : Cfg} (hb : cfg.Bounded) : Inv cfg (initialQueue cfg) [] where
  wf := initial_wf cfg
  limit := hb
  activating := List.nodup_nil
  marked := by simp
  loops := by simp
  booked := fun _ => by
    refine ⟨?_,?_⟩ <;> simp [initialQueue,Queue.activeCmds,Queue.commands]

section Plain

variable {f : Frame} (hf : f.Plain)
include hf

theorem Frame.Plain.activating : f.activating = none := by
  cases f <;> first | rfl | exact hf.elim

theorem Frame.Plain.cancelledActive : f.cancelledActive = none := by
  cases f <;> first | rfl | exact hf.elim

theorem Frame.Plain.ne_moveLoop (l : Lookup) : f ≠ .moveLoop l := by
  rintro rfl
  exact hf

end Plain

theorem plain_filterMap {α : Type*} {g : Frame → Option α} (hg : ∀ f, f.Plain → g f = none)
    {gs : List Frame} (hgs : ∀ f ∈ gs, f.Plain) (F : List Frame) :
    (gs ++ F).filterMap g = F.filterMap g := by
  have hh : gs.filterMap g = [] := List.filterMap_eq_nil_iff.mpr fun f hf => hg f (hgs f hf)
  rw [List.filterMap_append,hh,List.nil_append]

section Keeps

variable {cfg : Cfg} {q q' : Queue} {F : List Frame}

/-- New calls begin with plain frames. -/
theorem Inv.calls (h : Inv cfg q F) {gs : List Frame} (hgs : ∀ f ∈ gs, f.Plain) :
    Inv cfg q (gs ++ F) := by
  have ha := plain_filterMap (fun f => Frame.Plain.activating (f := f)) hgs F
  have hc := plain_filterMap (fun f => Frame.Plain.cancelledActive (f := f)) hgs F
  refine ⟨h.wf,h.limit,ha ▸ h.activating,fun n hn => h.marked n (ha ▸ hn),fun hk l hl => ?_,
    fun hk => hc ▸ h.booked hk⟩
  rcases List.mem_append.mp hl with hl | hl
  · exact (hgs _ hl).ne_moveLoop l rfl
  · exact h.loops hk l hl

/-- A frame that owns nothing may go. -/
theorem Inv.tail {f : Frame} (h : Inv cfg q (f::F)) (hc : f.cancelledActive = none) :
    Inv cfg q F := by
  have hsub : (F.filterMap Frame.activating).Sublist ((f::F).filterMap Frame.activating) :=
    (List.sublist_cons_self f F).filterMap _
  refine ⟨h.wf,h.limit,h.activating.sublist hsub,fun n hn => h.marked n (hsub.subset hn),
    fun hk l hl => h.loops hk l (List.mem_cons_of_mem _ hl),fun hk => ?_⟩
  have hb := h.booked hk
  rwa [List.filterMap_cons_none hc] at hb

/-- A frame that owns nothing may come. -/
theorem Inv.cons (h : Inv cfg q F) {f : Frame} (ha : f.activating = none)
    (hc : f.cancelledActive = none) (hl : cfg.kind = .scan → ∀ l, f ≠ .moveLoop l) :
    Inv cfg q (f::F) := by
  refine ⟨h.wf,h.limit,?_,?_,fun hk l hm => ?_,fun hk => ?_⟩
  · rw [List.filterMap_cons_none ha]
    exact h.activating
  · rw [List.filterMap_cons_none ha]
    exact h.marked
  · rcases List.mem_cons.mp hm with hm | hm
    · exact hl hk l hm.symm
    · exact h.loops hk l hm
  · rw [List.filterMap_cons_none hc]
    exact h.booked hk

/-- Marks change nothing that the invariant speaks of. -/
theorem Inv.marks (h : Inv cfg q F) (hq : Marks q q') : Inv cfg q' F := by
  refine ⟨h.wf.of_marks hq,h.limit,h.activating,fun n hn => (hq.marked n).trans (h.marked n hn),h.loops,
    fun hk => ?_⟩
  rw [hq.activeCmds,hq.bitmap]
  exact h.booked hk

/-- The activation of a command begins with its mark. -/
theorem Inv.activate {n uid : ℕ} (h : Inv cfg q (.activate n uid::F)) :
    Inv cfg (q.setNode n { q.nodes n with markedForActivation := false, isActive := true }) F := by
  have hnodup := List.nodup_cons.mp h.activating
  have hcmd : ∀ m, ((q.setNode n { q.nodes n with
      markedForActivation := false, isActive := true }).nodes m).cmd = (q.nodes m).cmd := by
    intro m
    by_cases hmn : m = n
    · rw [hmn,setNode_nodes,Function.update_self]
    · rw [setNode_nodes,Function.update_of_ne hmn]
  have hn := h.wf.marked n (h.marked n List.mem_cons_self)
  refine ⟨h.wf.of_same ⟨rfl,rfl,List.Perm.refl _,rfl,rfl⟩ hcmd (fun m hm => ?_) fun m hm => ?_,
    h.limit,hnodup.2,fun m hm => ?_,fun hk l hl => h.loops hk l (List.mem_cons_of_mem _ hl),
    fun hk => ?_⟩
  · by_cases hmn : m = n
    · rw [hmn,setNode_nodes,Function.update_self] at hm
      cases hm
    · rwa [setNode_nodes,Function.update_of_ne hmn] at hm
  · have hmn : m ≠ n := fun hh => h.wf.not_mem_pool (Or.inl hn) (hh ▸ hm)
    rw [setNode_nodes,Function.update_of_ne hmn]
  · have hmn : m ≠ n := fun hh => hnodup.1 (hh ▸ hm)
    rw [setNode_nodes,Function.update_of_ne hmn]
    exact h.marked m (List.mem_cons_of_mem _ hm)
  · have hc : (q.setNode n { q.nodes n with
        markedForActivation := false, isActive := true }).activeCmds = q.activeCmds :=
      commands_congr fun m _ => hcmd m
    rw [hc]
    exact h.booked hk

/-- A command taken out of the active list keeps its bit as long as its cancel runs. -/
theorem Inv.of_takeOut (h : Inv cfg q F) (active : Bool) {n : ℕ} {c : Command}
    (hn : n ∈ q.pdevList active) (hc : (q.nodes n).cmd = some c)
    (hm : (q.nodes n).markedForActivation = false) (f : Filter) (p : Option ℕ) (k : ℕ) :
    Inv cfg (takeOut cfg q n c.vdev active) (.cancelled f active p k c::F) := by
  have hcmds := h.wf.takeOut_cmds active hn hc
  refine ⟨h.wf.of_takeOut hn hc,h.limit,h.activating,fun m hm' => ?_,fun hk l hl => ?_,fun hk => ?_⟩
  · have hmark := h.marked m hm'
    have hmn : m ≠ n := fun hh => by
      rw [hh,hm] at hmark
      cases hmark
    rw [takeOut_nodes,Function.update_of_ne hmn]
    exact hmark
  · rcases List.mem_cons.mp hl with hl | hl
    · cases hl
    · exact h.loops hk l hl
  · rw [takeOut_bitmap]
    cases active with
    | true =>
      refine (h.booked hk).perm ((hcmds.1.append_right _).trans ?_)
      exact List.perm_middle.symm
    | false =>
      rw [hcmds.1]
      exact h.booked hk

theorem Inv.finish {f : Filter} {active : Bool} {p : Option ℕ} {k : ℕ} {c : Command}
    (h : Inv cfg q (.cancelled f active p k c::F)) : Inv cfg (cancelFinish cfg q active c) F := by
  obtain ⟨-,hnodes⟩ := cancelFinish_parts cfg q active c
  refine ⟨h.wf.of_cancelFinish active c,h.limit,h.activating,fun m hm => ?_,
    fun hk l hl => h.loops hk l (List.mem_cons_of_mem _ hl),fun hk => ?_⟩
  · rw [hnodes]
    exact h.marked m hm
  · have hb := h.booked hk
    rw [(cancelFinish_cmds cfg q active c).1,cancelFinish,hk]
    cases active with
    | true => exact (hb.perm List.perm_middle).erase
    | false =>
      dsimp only
      rw [if_neg (by decide)]
      split <;> exact hb

theorem Inv.dequeue (h : Inv cfg q F) {n : ℕ} {c : Command} (hn : n ∈ q.active)
    (hc : (q.nodes n).cmd = some c) (hm : (q.nodes n).markedForActivation = false) :
    Inv cfg (cancelFinish cfg (takeOut cfg q n c.vdev true) true c) F :=
  (h.of_takeOut true hn hc hm ⟨none,false,none,0,false⟩ none 0).finish

/-- A command that becomes active is being activated. -/
theorem Inv.joined {n : ℕ} {c : Command} (hwf : Wf cfg q') (h : Inv cfg q F)
    (hn : (q.nodes n).markedForActivation = false)
    (hmark : (q'.nodes n).markedForActivation = true) (hne : ∀ m, m ≠ n → q'.nodes m = q.nodes m)
    (hbooked : cfg.kind = .nonScan → c.vdev ∉ q.bitmap ∧ q'.bitmap = insert c.vdev q.bitmap ∧
      q'.activeCmds.Perm (c::q.activeCmds)) :
    Inv cfg q' (.activate n c.uid::F) := by
  have hnot : ∀ m ∈ F.filterMap Frame.activating, m ≠ n := fun m hm hh => by
    rw [hh] at hm
    rw [h.marked n hm] at hn
    cases hn
  refine ⟨hwf,h.limit,List.nodup_cons.mpr ⟨fun hh => hnot n hh rfl,h.activating⟩,fun m hm => ?_,
    fun hk l hl => ?_,fun hk => ?_⟩
  · rcases List.mem_cons.mp hm with rfl | hm
    · exact hmark
    · rw [hne m (hnot m hm)]
      exact h.marked m hm
  · rcases List.mem_cons.mp hl with hl | hl
    · cases hl
    · exact h.loops hk l hl
  · obtain ⟨hv,hb,hp⟩ := hbooked hk
    rw [hb]
    exact ((h.booked hk).insert hv).perm (hp.append_right _).symm

end Keeps

section Steps

variable {cfg : Cfg} {s : Store} {env : Env} {F : List Frame}

theorem Idle.marks {q q' : Queue} {f : Frame} (h : Wf cfg q) (hf : Idle cfg q f q') :
    Marks q q' := by
  cases hf with
  | scan => exact Marks.refl q
  | vdev => exact Marks.refl q
  | blocked => exact Marks.refl q
  | looked hk hl hs => exact (h.select_spec hk _).1.toMarks

theorem Idle.not_activating {q q' : Queue} {f : Frame} (hf : Idle cfg q f q') :
    f.cancelledActive = none := by
  cases hf with
  | looked hk hl hs => cases hl <;> rfl
  | _ => rfl

theorem Chosen.marks {q q' : Queue} {n : ℕ} {f : Frame} {gs : List Frame} (h : Wf cfg q)
    (hf : Chosen cfg q n f q' gs) : Marks q q' := by
  cases hf with
  | scan => exact Marks.refl q
  | looked hk hl hs => exact (h.select_spec hk _).1.toMarks

theorem Chosen.vdev {q q' : Queue} {n : ℕ} {f : Frame} {gs : List Frame} (h : Wf cfg q)
    (hf : Chosen cfg q n f q' gs) {c : Command} (hc : (q.nodes n).cmd = some c)
    (hk : cfg.kind = .nonScan) : c.vdev ∉ q.bitmap := by
  cases hf with
  | scan hk' => rw [hk] at hk'; cases hk'
  | looked hk' hl hs =>
    have hh := ((h.select_spec hk _).2 n hs).2
    rwa [vdevCmdActive_eq hc,decide_eq_false_iff_not] at hh

theorem Chosen.frames {q q' : Queue} {n : ℕ} {f : Frame} {gs : List Frame}
    (hf : Chosen cfg q n f q' gs) : f.cancelledActive = none ∧
      (gs = [] ∨ cfg.kind = .nonScan ∧ ∃ l, gs = [.moveLoop l]) := by
  cases hf with
  | scan => exact ⟨rfl,Or.inl rfl⟩
  | @looked f l hk hl hs => exact ⟨by cases hl <;> rfl,Or.inr ⟨hk,l,rfl⟩⟩

theorem Inv.turn {f : Frame} {s' : Store} {gs : List Frame} (h : Inv cfg s.q (f::F))
    (ht : Turn cfg s env f s' gs) : Inv cfg s'.q (gs ++ F) := by
  cases ht with
  | plain hf hgs hq hm => exact ((h.tail hf.cancelledActive).marks hq).calls hgs
  | activate n uid => exact h.activate.cons rfl rfl fun _ _ => by simp
  | dequeue hr hn hc hm =>
    refine Inv.cons ?_ rfl rfl fun _ _ => by simp
    exact ((h.tail rfl).dequeue hn hc hm).cons rfl rfl fun _ _ => by simp
  | idle hf => exact (h.tail hf.not_activating).marks (hf.marks h.wf)
  | @promote _ gs n c q₁ q' hf hp =>
    obtain ⟨hnone,hgs⟩ := hf.frames
    have hmarks := hf.marks h.wf
    have hbase : Inv cfg q₁ (gs ++ F) := by
      have htail := (h.tail hnone).marks hmarks
      rcases hgs with rfl | ⟨hk,l,rfl⟩
      · exact htail
      · exact htail.cons rfl rfl fun hk' => by rw [hk] at hk'; cases hk'
    refine Inv.joined (c := c) (hbase.wf.of_promoted hp) hbase (hbase.wf.unmarked_pending hp.mem)
      ?_ (fun m hm => ?_) fun hk => ⟨?_,hp.bitmap hk,(hp.cmds hbase.wf).1⟩
    · rw [hp.nodes,Function.update_self]
    · rw [hp.nodes,Function.update_of_ne hm]
    · rw [hmarks.bitmap]
      exact hf.vdev h.wf ((hmarks.cmd n).symm.trans hp.cmd) hk
  | release c => exact h.tail rfl
  | @take f active q₁ n c p k ht =>
    refine Inv.of_takeOut ((h.tail rfl).marks ht.marks) active ?_ ?_ ?_ f p k
    · rw [ht.marks.pdevList]
      exact ht.mem
    · exact (ht.marks.cmd n).trans ht.cmd
    · exact (ht.marks.marked n).trans ht.unmarked
  | finish hq hm hb => exact h.finish.marks hq
  | @finishTake f active p p' k k' c c' q₁ n ht =>
    refine Inv.of_takeOut (h.finish.marks ht.marks) active ?_ ?_ ?_ f p' k'
    · rw [ht.marks.pdevList]
      exact ht.mem
    · exact (ht.marks.cmd n).trans ht.cmd
    · exact (ht.marks.marked n).trans ht.unmarked

theorem Enqueued.vdev {others : ℕ} {q q' : Queue} {n : ℕ} {c : Command}
    (he : Enqueued cfg others q n c true q') (hk : cfg.kind = .nonScan) : c.vdev ∉ q.bitmap := by
  have hh := ((isActiveCmdAllowed_nonScan hk others q c).mp he.allowed).2
  cases hb : c.isBlocking with
  | true =>
    rw [if_pos hb] at hh
    rw [hh]
    exact Finset.notMem_empty _
  | false =>
    rw [if_neg (by simp [hb])] at hh
    exact hh.2.2

theorem Inv.enqueued {others : ℕ} {q q' : Queue} {n : ℕ} {c : Command} {active : Bool}
    (h : Inv cfg q F) (he : Enqueued cfg others q n c active q') (hv : c.vdev ∈ cfg.vdevs) :
    Inv cfg q' ((if active then [.activate n c.uid] else []) ++ F) := by
  have hwf := h.wf.of_enqueued he hv
  have hcmds := he.cmds h.wf
  have hzero := h.wf.free n he.mem_pool
  cases active with
  | true =>
    refine Inv.joined (c := c) hwf h (by rw [hzero]; rfl) ?_ (fun m => he.nodes_of_ne)
      fun hk => ⟨he.vdev hk,he.bitmap hk,hcmds.1⟩
    rw [he.nodes,Function.update_self]
  | false =>
    refine ⟨hwf,h.limit,h.activating,fun m hm => ?_,h.loops,fun hk => ?_⟩
    · have hmark := h.marked m hm
      have hmn : m ≠ n := fun hh => by
        rw [hh,hzero] at hmark
        cases hmark
      rw [he.nodes_of_ne hmn]
      exact hmark
    · rw [hcmds.1,he.bitmap hk]
      exact h.booked hk

theorem Inv.rejected {others : ℕ} {q q' : Queue} {c : Command} (h : Inv cfg q F)
    (hr : Rejected cfg others q c q') : Inv cfg q' F := by
  refine ⟨h.wf.of_same hr.toSameParts (fun n => by rw [hr.nodes])
    (fun n hn => by rwa [hr.nodes] at hn) fun n _ => by rw [hr.nodes],h.limit,h.activating,
    fun n hn => ?_,h.loops,fun hk => ?_⟩
  · rw [hr.nodes]
    exact h.marked n hn
  · rw [hr.cmds.1,hr.bitmap]
    exact h.booked hk

theorem callFrames_plain (cfg : Cfg) (op : Op) : ∀ f ∈ callFrames cfg op, f.Plain := by
  intro f hf
  cases op with
  | cancelRequest t a p =>
    cases a <;> cases p <;> simp [callFrames] at hf
    all_goals rcases hf with rfl | rfl
    all_goals trivial
  | request => cases hf
  | advance => cases hf
  | removeCmd k =>
    obtain rfl := List.mem_singleton.mp hf
    trivial
  | timeout k =>
    obtain rfl := List.mem_singleton.mp hf
    trivial

end Steps

/-- The command of a request with its number -/
def numbered (s : Store) (c : Command) : Command := { c with uid := s.nextUid }

theorem request_cases {cfg : Cfg} {s : Store} (h : Wf cfg s.q) (hroom : Roomy cfg s.q)
    {c : Command} (hv : c.vdev ∈ cfg.vdevs) (others : ℕ) :
    (∃ q', request cfg s c others = ({ s with q := q', nextUid := s.nextUid+1 },[]) ∧
      Rejected cfg others s.q (numbered s c) q') ∨
    ∃ n active q', request cfg s c others =
        ({ s with q := q', nextUid := s.nextUid+1, accepted := s.accepted ++ [s.nextUid] },
          if active then [.activate n s.nextUid] else []) ∧
      Enqueued cfg others s.q n (numbered s c) active q' := by
  rcases h.enqueueCmd_cases hroom (c := numbered s c) others hv with ⟨q',he,hr⟩ |
    ⟨n,active,q',he,hr⟩
  · refine Or.inl ⟨q',?_,hr⟩
    rw [numbered] at he
    simp only [request,he]
  · refine Or.inr ⟨n,active,q',?_,hr⟩
    rw [numbered] at he
    simp only [request,he]

section StepRule

variable {cfg : Cfg} {I : Store → List Frame → Prop}
  (hperm : ∀ d F F', F.Perm F' → I d F → I d F') {s : State} {op : Op}
include hperm

/-- What new calls, the answer to a request and every turn keep, the step keeps. -/
theorem step_rule (hinv : Inv cfg s.store.q (frames s)) (hlegal : Legal cfg s op)
    (h : I s.store (frames s))
    (hcalls : ∀ gs : List Frame, (∀ f ∈ gs, f.Plain) → I s.store (gs ++ frames s))
    (hreject : ∀ c others q', op = .request c others →
      Rejected cfg others s.store.q (numbered s.store c) q' →
      I { s.store with q := q', nextUid := s.store.nextUid+1 } (frames s))
    (haccept : ∀ c others n active q', op = .request c others →
      Enqueued cfg others s.store.q n (numbered s.store c) active q' →
      I { s.store with
          q := q'
          nextUid := s.store.nextUid+1
          accepted := s.store.accepted ++ [s.store.nextUid] }
        ((if active then [.activate n s.store.nextUid] else []) ++ frames s))
    (hturn : ∀ i env f F s' gs, op = .advance i env → top s i = some f →
      (frames s).Perm (f::F) → Inv cfg s.store.q (f::F) → I s.store (f::F) → Turn cfg s.store env f s' gs → I s' (gs ++ F)) :
    I (step cfg s op).store (frames (step cfg s op)) := by
  cases op with
  | request c others =>
    refine start_rule hperm ?_
    rcases request_cases hinv.wf hinv.roomy hlegal.1 others with ⟨q',hr,hq⟩ |
      ⟨n,active,q',hr,hq⟩
    · rw [hr]
      exact hreject c others q' rfl hq
    · rw [hr]
      exact haccept c others n active q' rfl hq
  | removeCmd k => exact start_rule hperm (hcalls _ (callFrames_plain cfg (.removeCmd k)))
  | timeout k => exact start_rule hperm (hcalls _ (callFrames_plain cfg (.timeout k)))
  | cancelRequest t a p =>
    exact start_rule hperm (hcalls _ (callFrames_plain cfg (.cancelRequest t a p)))
  | advance i env =>
    have hboth : ∀ d F F', F.Perm F' → (Inv cfg d.q F ∧ I d F) → Inv cfg d.q F' ∧ I d F' :=
      fun d F F' hp hh => ⟨hh.1.perm hp,hperm d F F' hp hh.2⟩
    refine (advance_rule hboth (fun f F htop hp hh => ?_) ⟨hinv,h⟩).2
    have hloop : cfg.kind = .scan → ∀ l, f ≠ .moveLoop l := fun hk l hf =>
      hh.1.loops hk l (hf ▸ List.mem_cons_self)
    have ht := turn hh.1.wf hh.1.roomy hh.1.limit env hloop
    exact ⟨hh.1.turn ht,hturn i env f F _ _ rfl htop hp hh.1 hh.2 ht⟩

end StepRule

theorem step_inv {cfg : Cfg} {s : State} {op : Op} (h : Inv cfg s.store.q (frames s))
    (hlegal : Legal cfg s op) : Inv cfg (step cfg s op).store.q (frames (step cfg s op)) := by
  refine step_rule (I := fun d F => Inv cfg d.q F) (fun d F F' hp => Inv.perm hp) h hlegal h
    (fun gs hgs => h.calls hgs) (fun c others q' _ hr => h.rejected hr) ?_
    fun i env f F s' gs _ _ _ hinv _ ht => hinv.turn ht
  rintro c others n active q' rfl he
  exact h.enqueued he hlegal.1

/-- The active commands whose cancel callbacks run -/
abbrev taking (F : List Frame) : List Command := F.filterMap Frame.cancelledActive

theorem taking_activate (active : Bool) (n uid : ℕ) (F : List Frame) :
    taking ((if active then [.activate n uid] else []) ++ F) = taking F := by
  cases active <;> rfl

/-- A statement about the flag, the active commands and those being cancelled that survives a
cancel: first the command leaves the list, then the flag follows. -/
structure Books (P : Bool → List Command → List Command → Prop) : Prop where
  perm : ∀ {b : Bool} {l l' w w' : List Command}, l.Perm l' → w.Perm w' → P b l w → P b l' w'
  take : ∀ {b : Bool} {c : Command} {l w : List Command}, P b (c::l) w → P b l (c::w)
  finish : ∀ {b : Bool} {c : Command} {l w : List Command}, P b l (c::w) →
    P (b && !c.isBlocking) l w

section Books

variable {P : Bool → List Command → List Command → Prop} (hP : Books P) {cfg : Cfg}
  (hk : cfg.kind = .nonScan) {q q' : Queue} {w : List Command}

theorem books_congr (h : P q.blockingCmdActive q.activeCmds w)
    (ha : q'.activeCmds = q.activeCmds) (hf : q'.blockingCmdActive = q.blockingCmdActive) :
    P q'.blockingCmdActive q'.activeCmds w := by
  rwa [ha,hf]

include hP

theorem Books.taken {f : Filter} {active timerFound : Bool} {p p' : Option ℕ} {k k' : ℕ}
    {q₁ : Queue} {n : ℕ} {c : Command} (h : P q.blockingCmdActive q.activeCmds w)
    (hwf : Wf cfg q) (ht : Taken cfg q f active timerFound p k q₁ n c p' k') :
    P (takeOut cfg q₁ n c.vdev active).blockingCmdActive
      (takeOut cfg q₁ n c.vdev active).activeCmds (if active then c::w else w) := by
  have hbase := books_congr h ht.marks.activeCmds ht.marks.blockingCmdActive
  have hn : n ∈ q₁.pdevList active := ht.marks.pdevList active ▸ ht.mem
  have hcmds := (hwf.of_marks ht.marks).takeOut_cmds _ hn ((ht.marks.cmd n).trans ht.cmd)
  rw [takeOut_blockingCmdActive]
  cases active with
  | true => exact hP.take (hP.perm hcmds.1 (List.Perm.refl w) hbase)
  | false =>
    rw [hcmds.1]
    exact hbase

include hk in
theorem Books.finished (active : Bool) (c : Command)
    (h : P q.blockingCmdActive q.activeCmds (if active then c::w else w)) :
    P (cancelFinish cfg q active c).blockingCmdActive (cancelFinish cfg q active c).activeCmds
      w := by
  rw [(cancelFinish_cmds cfg q active c).1,cancelFinish,hk]
  cases active with
  | true => exact hP.finish h
  | false =>
    dsimp only
    rw [if_neg (by decide)]
    split <;> exact h

/-- What the books keep through cancels they keep through every turn, as long as commands may
join. -/
theorem Books.turn (hk : cfg.kind = .nonScan) {s s' : Store} {env : Env} {f : Frame}
    {F gs : List Frame} (hinv : Inv cfg s.q (f::F))
    (h : P s.q.blockingCmdActive s.q.activeCmds (taking (f::F))) (ht : Turn cfg s env f s' gs)
    (hjoin : ∀ n c q₁ gs, Chosen cfg s.q n f q₁ gs → (s.q.nodes n).cmd = some c →
      P s.q.blockingCmdActive s.q.activeCmds (taking F) →
      P (s.q.blockingCmdActive || c.isBlocking) (c::s.q.activeCmds) (taking F)) :
    P s'.q.blockingCmdActive s'.q.activeCmds (taking (gs ++ F)) := by
  have htail : f.cancelledActive = none → P s.q.blockingCmdActive s.q.activeCmds (taking F) :=
    fun hf => by rwa [taking,List.filterMap_cons_none hf] at h
  have hcancelled : ∀ (f : Filter) (active : Bool) (p : Option ℕ) (k : ℕ) (c : Command),
      taking (.cancelled f active p k c::F) = if active then c::taking F else taking F :=
    fun f active p k c => by cases active <;> rfl
  cases ht with
  | plain hf hgs hq hm =>
    rw [taking,plain_filterMap (fun f => Frame.Plain.cancelledActive (f := f)) hgs]
    exact books_congr (htail hf.cancelledActive) hq.activeCmds hq.blockingCmdActive
  | activate n uid =>
    refine books_congr (htail rfl) (commands_congr fun m _ => ?_) rfl
    by_cases hmn : m = n
    · rw [hmn,setNode_nodes,Function.update_self]
    · rw [setNode_nodes,Function.update_of_ne hmn]
  | @dequeue ref n c hr hn hc hm =>
    have hcmds := (hinv.wf.takeOut_cmds true hn hc).1
    refine hP.finished hk true c ?_
    rw [takeOut_blockingCmdActive]
    exact hP.take (hP.perm hcmds (List.Perm.refl _) (htail rfl))
  | idle hf =>
    have hq := hf.marks hinv.wf
    exact books_congr (htail hf.not_activating) hq.activeCmds hq.blockingCmdActive
  | @promote _ gs n c q₁ q' hf hp =>
    obtain ⟨hnone,hgs⟩ := hf.frames
    have hq := hf.marks hinv.wf
    have hw : taking (.activate n c.uid::gs ++ F) = taking F := by
      rcases hgs with rfl | ⟨-,l,rfl⟩ <;> rfl
    have hbase := hjoin n c q₁ gs hf ((hq.cmd n).symm.trans hp.cmd) (htail hnone)
    rw [hw]
    dsimp only
    rw [hp.blockingCmdActive hk,hq.blockingCmdActive]
    refine hP.perm ?_ (List.Perm.refl _) hbase
    rw [← hq.activeCmds]
    exact (hp.cmds (hinv.wf.of_marks hq)).1.symm
  | release c => exact htail rfl
  | take ht =>
    rw [List.singleton_append,hcancelled]
    exact hP.taken (htail rfl) hinv.wf ht
  | finish hq hm hb =>
    rw [hcancelled] at h
    exact books_congr (hP.finished hk _ _ h) hq.activeCmds hq.blockingCmdActive
  | finishTake ht =>
    rw [hcancelled] at h
    rw [List.singleton_append,hcancelled]
    exact hP.taken (hP.finished hk _ _ h) (hinv.wf.of_cancelFinish _ _) ht

/-- They also keep through requests, as long as those may join that become active. -/
theorem Books.enqueued (hk : cfg.kind = .nonScan) {others : ℕ} {n : ℕ} {c : Command}
    {active : Bool} (hwf : Wf cfg q) (he : Enqueued cfg others q n c active q')
    (h : P q.blockingCmdActive q.activeCmds w)
    (hjoin : active = true → P (q.blockingCmdActive || c.isBlocking) (c::q.activeCmds) w) :
    P q'.blockingCmdActive q'.activeCmds w := by
  have hcmds := he.cmds hwf
  have hflag := he.blockingCmdActive hk
  cases active with
  | false =>
    rw [Bool.false_and,Bool.or_false] at hflag
    exact books_congr h hcmds.1 hflag
  | true =>
    rw [hflag,Bool.true_and]
    exact hP.perm hcmds.1.symm (List.Perm.refl w) (hjoin rfl)

end Books

/-- No cancel loop goes back to a node that has left its list. -/
def Follows (cfg : Cfg) (s : State) : Op → Prop
  | .advance i _ => ∀ f ∈ top s i, Followed cfg s.store.q f
  | _ => True

/-- Cancel loops that go back to nodes of their lists stay in them. -/
theorem intact_always {cfg : Cfg} (hb : cfg.Bounded) (ops : List Op)
    (hlegal : Guarded (step cfg) (Legal cfg) (initial cfg) ops)
    (hfollow : Guarded (step cfg) (Follows cfg) (initial cfg) ops) :
    Always (step cfg) (fun s => s.store.corrupt = false) (initial cfg) ops := by
  refine guarded_always (I := fun s => Inv cfg s.store.q (frames s) ∧ s.store.corrupt = false)
    (fun s hh => hh.2) (fun s op hh hc => ⟨step_inv hh.1 hc.1,?_⟩) ⟨initial_inv hb,rfl⟩ ops
    (hlegal.and hfollow)
  refine step_rule (I := fun d _ => d.corrupt = false) (fun _ _ _ _ hh => hh) hh.1 hc.1 hh.2
    (fun _ _ => hh.2) (fun _ _ _ _ _ => hh.2) (fun _ _ _ _ _ _ _ => hh.2) ?_
  rintro i env f F s' gs rfl htop - - hcorrupt ht
  cases ht with
  | finish hq hm hb => exact (hb (hc.2 _ htop)).trans hcorrupt
  | _ => exact hcorrupt

end Serialization
end MarbleModules
