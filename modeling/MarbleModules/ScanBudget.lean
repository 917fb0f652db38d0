import Mathlib.Algebra.BigOperators.Group.Finset.Basic
import MarbleModules.SerializationInvariant

/-! The scan queues of all pdevs of a psoc when calls come one at a time: each call is started
with no other in progress and advanced to its end. What a call to its end does to the queue
of its pdev. -/
namespace MarbleModules
namespace Serialization

open Stacks

/-- The outcomes that are left after the step of a frame -/
def Frame.outcomes (oks : List Bool) : Frame → List Bool
  | .activate _ _ => oks.tail
  | _ => oks

/-- Advance the only call for at most the given number of steps. `oks` are the outcomes of its
activations, which succeed when nothing is said; an active command has its timer. -/
def settle (cfg : Cfg) (others : ℕ) : ℕ → State → List Bool → State
  | 0, s, _ => s
  | k+1, s, oks =>
    match top s 0 with
    | none => s
    | some f =>
      settle cfg others k (step cfg s (.advance 0 ⟨oks.headD true,true,others⟩)) (f.outcomes oks)

/-- The frames of a call are run to their end. -/
inductive Settles (cfg : Cfg) (others : ℕ) : Store → List Frame → List Bool → Store → Prop
  | nil (s : Store) (oks : List Bool) : Settles cfg others s [] oks s
  | cons {s s' : Store} {f : Frame} {fs : List Frame} {oks : List Bool}
      (h : Settles cfg others (runFrame cfg s ⟨oks.headD true,true,others⟩ f).1
        ((runFrame cfg s ⟨oks.headD true,true,others⟩ f).2 ++ fs) (f.outcomes oks) s') :
      Settles cfg others s (f::fs) oks s'

theorem settles_of_settle {cfg : Cfg} {others k : ℕ} {s : Store} {fs : List Frame}
    {oks : List Bool} (h : frames (settle cfg others k ⟨s,[fs]⟩ oks) = []) :
    Settles cfg others s fs oks (settle cfg others k ⟨s,[fs]⟩ oks).store := by
  induction k generalizing s fs oks with
  | zero =>
    have hfs : fs = [] := by simpa [settle,frames] using h
    subst hfs
    exact .nil s oks
  | succ k ih =>
    cases fs with
    | nil => exact .nil s oks
    | cons f fs => exact .cons (ih h)

/-- The number of activations that fail before one succeeds -/
def failures (oks : List Bool) : ℕ := (oks.takeWhile fun ok => !ok).length

theorem failures_head {oks : List Bool} (h : oks.headD true = true) : failures oks = 0 := by
  cases oks with
  | nil => rfl
  | cons ok oks =>
    have hok : ok = true := h
    simp [failures,hok]

theorem failures_tail {oks : List Bool} (h : oks.headD true = false) :
    failures oks = failures oks.tail+1 := by
  cases oks with
  | nil => cases h
  | cons ok oks =>
    have hok : ok = false := h
    simp [failures,hok]

/-- A scan queue on which no call is in progress -/
structure Still (cfg : Cfg) (q : Queue) : Prop where
  wf : Wf cfg q
  unmarked : ∀ n, (q.nodes n).markedForActivation = false
  unflagged : ∀ n, (q.nodes n).activeMarkedForRemoval = false ∧
    (q.nodes n).activeMarkedForCancel = false
  room : q.active.length ≤ cfg.maxActive

/-- A scan queue on which the command in the node is being activated -/
structure Activating (cfg : Cfg) (q : Queue) (n : ℕ) : Prop where
  wf : Wf cfg q
  mem : n ∈ q.active
  unmarked : ∀ m, m ≠ n → (q.nodes m).markedForActivation = false
  unflagged : ∀ m, (q.nodes m).activeMarkedForRemoval = false ∧
    (q.nodes m).activeMarkedForCancel = false
  room : q.active.length ≤ cfg.maxActive

/-- The node after the activation callback -/
def afterActivation (q : Queue) (n : ℕ) : Queue :=
  q.setNode n { q.nodes n with markedForActivation := false, isActive := true }

theorem initial_still (cfg : Cfg) : Still cfg (initialQueue cfg) :=
  ⟨initial_wf cfg,fun _ => rfl,fun _ => ⟨rfl,rfl⟩,Nat.zero_le _⟩

section Nodes

variable {q : Queue} {n : ℕ}

theorem afterActivation_cmd (m : ℕ) : ((afterActivation q n).nodes m).cmd = (q.nodes m).cmd := by
  by_cases hmn : m = n
  · rw [hmn,afterActivation,setNode_nodes,Function.update_self]
  · rw [afterActivation,setNode_nodes,Function.update_of_ne hmn]

theorem afterActivation_unflagged (h : ∀ m, (q.nodes m).activeMarkedForRemoval = false ∧
    (q.nodes m).activeMarkedForCancel = false) (m : ℕ) :
    ((afterActivation q n).nodes m).activeMarkedForRemoval = false ∧
      ((afterActivation q n).nodes m).activeMarkedForCancel = false := by
  by_cases hmn : m = n
  · rw [hmn,afterActivation,setNode_nodes,Function.update_self]
    exact h n
  · rw [afterActivation,setNode_nodes,Function.update_of_ne hmn]
    exact h m

end Nodes

theorem Activating.still {cfg : Cfg} {q : Queue} {n : ℕ} (h : Activating cfg q n) :
    Still cfg (afterActivation q n) := by
  have hmark : ∀ m, ((afterActivation q n).nodes m).markedForActivation = false := by
    intro m
    by_cases hmn : m = n
    · rw [hmn,afterActivation,setNode_nodes,Function.update_self]
    · rw [afterActivation,setNode_nodes,Function.update_of_ne hmn]
      exact h.unmarked m hmn
  refine ⟨h.wf.of_same ⟨rfl,rfl,List.Perm.refl _,rfl,rfl⟩ afterActivation_cmd
    (fun m hm => ?_) (fun m hm => ?_),hmark,afterActivation_unflagged h.unflagged,h.room⟩
  · rw [hmark] at hm
    cases hm
  · have hmn : m ≠ n := fun hh => h.wf.not_mem_pool (Or.inl h.mem) (hh ▸ hm)
    rw [afterActivation,setNode_nodes,Function.update_of_ne hmn]

section Settling

variable {cfg : Cfg} {others : ℕ} {s s' : Store} {oks : List Bool} {rs : List Frame}

/-- The frames that only call the callbacks of removed commands -/
def Releases (rs : List Frame) : Prop := ∀ f ∈ rs, ∃ c, f = .release c

theorem Settles.releases (hrs : Releases rs) (h : Settles cfg others s rs oks s') :
    s'.q = s.q := by
  induction rs generalizing s oks with
  | nil =>
    cases h
    rfl
  | cons f rs ih =>
    obtain ⟨c,rfl⟩ := hrs f List.mem_cons_self
    cases h with
    | cons h => exact (ih (fun f hf => hrs f (List.mem_cons_of_mem _ hf)) h).trans rfl

/-- The activation of a command ends with its success, or with its removal. -/
theorem Settles.activate {n uid : ℕ} {fs : List Frame} (hact : Activating cfg s.q n)
    (h : Settles cfg others s (.activate n uid::fs) oks s') :
    Settles cfg others { s with q := afterActivation s.q n }
      ((if oks.headD true then [] else [.dequeue (.node n uid)]) ++ fs) oks.tail s' := by
  have hflags := hact.still.unflagged n
  cases h with
  | cons h =>
    cases h with
    | cons h =>
      simp only [runFrame,Frame.outcomes] at h
      cases hok : oks.headD true with
      | false =>
        rw [if_neg (by decide)]
        simp only [hok,true_or,if_true] at h
        exact h
      | true =>
        rw [if_pos rfl]
        have hq : s.q.setNode n { s.q.nodes n with markedForActivation := false, isActive := true } =
          afterActivation s.q n := rfl
        simp only [hok,hq,hflags.1,hflags.2,Bool.true_eq_false,Bool.false_eq_true,or_self,
          if_false] at h
        exact h

end Settling

section Still

variable {cfg : Cfg} {q q' : Queue} {n : ℕ} {c : Command} (h : Still cfg q)
include h

theorem Still.of_takeOut (active : Bool) (hn : n ∈ q.pdevList active)
    (hc : (q.nodes n).cmd = some c) : Still cfg (takeOut cfg q n c.vdev active) := by
  have hnodes : ∀ m, (takeOut cfg q n c.vdev active).nodes m =
      if m = n then .zero else q.nodes m := fun m => by
    rw [takeOut_nodes]
    by_cases hmn : m = n
    · rw [hmn,Function.update_self,if_pos rfl]
    · rw [Function.update_of_ne hmn,if_neg hmn]
  refine ⟨h.wf.of_takeOut hn hc,fun m => ?_,fun m => ?_,?_⟩
  · rw [hnodes]
    split
    · rfl
    · exact h.unmarked m
  · rw [hnodes]
    split
    · exact ⟨rfl,rfl⟩
    · exact h.unflagged m
  · rw [takeOut_active]
    cases active
    · exact h.room
    · exact (List.length_erase_le ..).trans h.room

theorem Still.promoted (hp : Promoted cfg q n c q') (hroom : q.active.length < cfg.maxActive) :
    Activating cfg q' n := by
  refine ⟨h.wf.of_promoted hp,?_,fun m hm => ?_,fun m => ?_,?_⟩
  · rw [hp.active]
    exact mem_place.mpr (Or.inl rfl)
  · rw [hp.nodes,Function.update_of_ne hm]
    exact h.unmarked m
  · rw [hp.nodes]
    by_cases hmn : m = n
    · rw [hmn,Function.update_self]
      exact h.unflagged n
    · rw [Function.update_of_ne hmn]
      exact h.unflagged m
  · rw [hp.active,length_place]
    exact hroom

theorem Still.enqueued {others : ℕ} (he : Enqueued cfg others q n c true q')
    (hv : c.vdev ∈ cfg.vdevs) (hroom : q.active.length < cfg.maxActive) :
    Activating cfg q' n := by
  refine ⟨h.wf.of_enqueued he hv,?_,fun m hm => ?_,fun m => ?_,?_⟩
  · rw [he.active_eq]
    exact mem_place.mpr (Or.inl rfl)
  · rw [he.nodes_of_ne hm]
    exact h.unmarked m
  · by_cases hmn : m = n
    · rw [hmn,he.nodes,Function.update_self]
      exact ⟨rfl,rfl⟩
    · rw [he.nodes_of_ne hmn]
      exact h.unflagged m
  · rw [he.active_eq,if_pos rfl,length_place]
    exact hroom

end Still

/-- A command that is in a list is found there by its key. -/
theorem findCmd_isSome {q : Queue} {l : List ℕ} {n : ℕ} {c : Command} (hn : n ∈ l)
    (hc : (q.nodes n).cmd = some c) : ∃ m, findCmd q l c.key = some m := by
  cases hf : findCmd q l c.key with
  | some m => exact ⟨m,rfl⟩
  | none =>
    have hh := List.find?_eq_none.mp hf n hn
    simp [hc] at hh

section Settling

variable {cfg : Cfg} (hk : cfg.kind = .scan) {others : ℕ} {s s' : Store} {oks : List Bool}
  {rs : List Frame}

/-- What the removal of an active scan leads to: the first pending scan whose activation
succeeds takes its place, or none is left pending. -/
structure Refilled (cfg : Cfg) (oks : List Bool) (q q' : Queue) : Prop where
  still : Still cfg q'
  filled : failures oks < q.pending.length → q'.active.length = q.active.length
  drained : q.pending.length ≤ failures oks →
    q'.active.length+1 = q.active.length ∧ q'.pending = []

theorem afterActivation_pending (q : Queue) (n : ℕ) :
    (afterActivation q n).pending = q.pending := rfl

theorem afterActivation_active (q : Queue) (n : ℕ) :
    (afterActivation q n).active = q.active := rfl

include hk

/-- A promotion takes the first pending scan, if there is room in the psoc. -/
theorem Settles.move {v : ℕ} {b : Bool} (hstill : Still cfg s.q)
    (hbound : others+s.q.active.length < cfg.maxActiveScans)
    (hroom : s.q.active.length < cfg.maxActive)
    (h : Settles cfg others s (.move v b::rs) oks s') :
    (s.q.pending = [] ∧ Settles cfg others s rs oks s') ∨
    ∃ n rest c q', s.q.pending = n::rest ∧ (s.q.nodes n).cmd = some c ∧
      Promoted cfg s.q n c q' ∧ Activating cfg q' n ∧
      Settles cfg others { s with q := afterActivation q' n }
        ((if oks.headD true then [] else [.dequeue (.node n c.uid)]) ++ rs) oks.tail s' := by
  cases h with
  | cons h =>
    simp only [runFrame,hk,Frame.outcomes,moveScan] at h
    cases hpending : s.q.pending with
    | nil =>
      simp only [hpending] at h
      exact Or.inl ⟨rfl,h⟩
    | cons n rest =>
      have hn : n ∈ s.q.pending := by rw [hpending]; exact List.mem_cons_self
      obtain ⟨c,hc,-⟩ := hstill.wf.held n (Or.inr hn)
      obtain ⟨q',hp,hpromoted⟩ := hstill.wf.promote (fun hh => by rw [hk] at hh; cases hh) hn hc
        (fun hh => by rw [hk] at hh; cases hh) fun _ => hroom.ne
      have hallow : isActiveScanCmdAllowed cfg others s.q = true := by
        rw [isActiveScanCmdAllowed,decide_eq_true_eq]
        exact hbound
      simp only [hpending,hallow,hp,Bool.true_eq_false,if_false] at h
      have hact := hstill.promoted hpromoted hroom
      exact Or.inr ⟨n,rest,c,q',rfl,hc,hpromoted,hact,Settles.activate hact h⟩

/-- An active scan that is found is taken out, and the promotion begins. -/
theorem Settles.found {ref : CmdRef} {k : Key} {n : ℕ} (hstill : Still cfg s.q)
    (hkey : ref.key s.q = some k) (hf : findCmd s.q s.q.active k = some n)
    (h : Settles cfg others s (.dequeue ref::rs) oks s') :
    ∃ c s₁, Still cfg s₁.q ∧ s₁.q.active.length+1 = s.q.active.length ∧
      s₁.q.pending = s.q.pending ∧
      Settles cfg others s₁ (.move c.vdev c.isBlocking::.release c::rs) oks s' := by
  obtain ⟨hn,c,hc,-⟩ := findCmd_some hf
  have hd := hstill.wf.dequeueCmd_some hf hc (hstill.unmarked n)
  have hfinish : cancelFinish cfg (takeOut cfg s.q n c.vdev true) true c =
      takeOut cfg s.q n c.vdev true := by rw [cancelFinish,hk]
  cases h with
  | cons h =>
    simp only [runFrame,hkey,hd,hfinish,Frame.outcomes] at h
    refine ⟨c,_,?_,?_,?_,h⟩
    · exact hstill.of_takeOut true hn hc
    · have hpos := List.length_pos_of_mem hn
      simp only [takeOut_active,if_true,List.length_erase_of_mem hn]
      omega
    · simp only [takeOut_pending,if_true]

theorem Settles.dequeue {ref : CmdRef} {k : Key} {n : ℕ} (hstill : Still cfg s.q)
    (hbound : others+s.q.active.length ≤ cfg.maxActiveScans) (hkey : ref.key s.q = some k)
    (hf : findCmd s.q s.q.active k = some n) (hrs : Releases rs)
    (h : Settles cfg others s (.dequeue ref::rs) oks s') : Refilled cfg oks s.q s'.q := by
  obtain ⟨b,hb⟩ : ∃ b, s.q.pending.length = b := ⟨_,rfl⟩
  induction b generalizing s ref k n oks rs with
  | zero =>
    obtain ⟨c,s₁,hstill₁,hlen,hpending,h⟩ := h.found hk hstill hkey hf
    have hroom := hstill.room
    have hnil : s.q.pending = [] := List.eq_nil_of_length_eq_zero hb
    rcases h.move hk hstill₁ (by omega) (by omega) with ⟨-,h⟩ | ⟨m,rest,d,q',hcons,-⟩
    · have hq : s'.q = s₁.q := h.releases fun f hf => by
        rcases List.mem_cons.mp hf with rfl | hf
        · exact ⟨c,rfl⟩
        · exact hrs f hf
      refine ⟨hq ▸ hstill₁,fun hh => absurd hh (by omega),fun _ => ⟨?_,?_⟩⟩
      · rw [hq,hlen]
      · rw [hq,hpending,hnil]
    · rw [hpending,hnil] at hcons
      cases hcons
  | succ b ih =>
    obtain ⟨c,s₁,hstill₁,hlen,hpending,h⟩ := h.found hk hstill hkey hf
    have hroom := hstill.room
    have hrs' : Releases (.release c::rs) := fun f hf => by
      rcases List.mem_cons.mp hf with rfl | hf
      · exact ⟨c,rfl⟩
      · exact hrs f hf
    rcases h.move hk hstill₁ (by omega) (by omega) with ⟨hnil,-⟩ |
      ⟨m,rest,d,q',hcons,hd,hp,hact,h⟩
    · rw [hpending] at hnil
      rw [hnil] at hb
      cases hb
    have hq' : (afterActivation q' m).active.length = s.q.active.length := by
      rw [afterActivation_active,hp.active,length_place,hlen]
    have hrest : (afterActivation q' m).pending.length+1 = s.q.pending.length := by
      rw [afterActivation_pending,hp.pending,List.length_erase_of_mem hp.mem,hpending]
      omega
    cases hok : oks.headD true with
    | true =>
      rw [hok,if_pos rfl,List.nil_append] at h
      have hq := h.releases hrs'
      have hfail := failures_head hok
      refine ⟨hq ▸ hact.still,fun _ => by rw [hq]; exact hq',fun hh => ?_⟩
      omega
    | false =>
      rw [hok,if_neg (by decide)] at h
      have hcmd : ((afterActivation q' m).nodes m).cmd = some d := by
        rw [afterActivation_cmd,hp.cmd_eq,hd]
      have hmem : m ∈ (afterActivation q' m).active := hact.mem
      obtain ⟨m',hfind⟩ := findCmd_isSome hmem hcmd
      have hkey' : (CmdRef.node m d.uid).key (afterActivation q' m) = some d.key := by
        rw [CmdRef.key,hcmd]
        rfl
      have hfail := failures_tail hok
      have hh := ih (s := { s₁ with q := afterActivation q' m }) hact.still
        (by dsimp only; omega) hkey' hfind hrs' h (by dsimp only; omega)
      refine ⟨hh.still,fun hlt => ?_,fun hle => ?_⟩
      · rw [hh.filled (by dsimp only; omega)]
        exact hq'
      · obtain ⟨h₁,h₂⟩ := hh.drained (by dsimp only; omega)
        exact ⟨by rw [h₁]; exact hq',h₂⟩

/-- What a request leads to: it leaves no scan pending while the limit is not reached. -/
structure Admitted (cfg : Cfg) (others : ℕ) (q q' : Queue) : Prop where
  still : Still cfg q'
  active_le : q.active.length ≤ q'.active.length
  bound : others+q'.active.length ≤ cfg.maxActiveScans
  pending : others+q'.active.length < cfg.maxActiveScans → q.pending = [] → q'.pending = []

omit hk in
theorem Admitted.of_parts {q q' : Queue} (hbound : others+q.active.length ≤ cfg.maxActiveScans)
    (hstill : Still cfg q') (ha : q'.active = q.active) (hp : q'.pending = q.pending) :
    Admitted cfg others q q' := by
  refine ⟨hstill,?_,?_,fun _ hh => ?_⟩
  · rw [ha]
  · rw [ha]
    exact hbound
  · rw [hp,hh]

theorem Settles.request {c : Command} (hstill : Still cfg s.q) (hv : c.vdev ∈ cfg.vdevs)
    (hbound : others+s.q.active.length ≤ cfg.maxActiveScans)
    (h : Settles cfg others (request cfg s c others).1 (request cfg s c others).2 oks s') :
    Admitted cfg others s.q s'.q := by
  have hroomy : Roomy cfg s.q := fun hh => by rw [hk] at hh; cases hh
  rcases request_cases hstill.wf hroomy hv others with ⟨q',hr,hrej⟩ | ⟨n,active,q',hr,he⟩
  · rw [hr] at h
    cases h
    refine Admitted.of_parts hbound ⟨hstill.wf.of_same hrej.toSameParts ?_ ?_ ?_,?_,?_,?_⟩
      hrej.active hrej.pending
    · exact fun m => by rw [hrej.nodes]
    · exact fun m hm => by rwa [hrej.nodes] at hm
    · exact fun m _ => by rw [hrej.nodes]
    · exact fun m => by rw [hrej.nodes,hstill.unmarked]
    · exact fun m => by rw [hrej.nodes]; exact hstill.unflagged m
    · rw [hrej.active]
      exact hstill.room
  · rw [hr] at h
    have hallow := he.allowed
    simp only [isActiveCmdAllowed,hk,isActiveScanCmdAllowed] at hallow
    cases active with
    | false =>
      cases h
      have hpend : q'.active = s.q.active := he.active_eq
      refine ⟨⟨hstill.wf.of_enqueued he hv,fun m => ?_,fun m => ?_,?_⟩,?_,?_,?_⟩
      · by_cases hmn : m = n
        · rw [hmn,he.nodes,Function.update_self]
        · rw [he.nodes_of_ne hmn,hstill.unmarked]
      · by_cases hmn : m = n
        · rw [hmn,he.nodes,Function.update_self]
          exact ⟨rfl,rfl⟩
        · rw [he.nodes_of_ne hmn]
          exact hstill.unflagged m
      · dsimp only
        rw [hpend]
        exact hstill.room
      · dsimp only
        rw [hpend]
      · dsimp only
        rw [hpend]
        exact hbound
      · intro hlt hnil
        dsimp only at hlt
        rw [hpend] at hlt
        simp [hlt,hnil] at hallow
    | true =>
      rw [Bool.and_eq_true,decide_eq_true_eq,List.isEmpty_iff] at hallow
      have hne := he.room rfl hk
      have hroom := hstill.room
      have hact := hstill.enqueued he hv (by omega)
      have hlen : q'.active.length = s.q.active.length+1 := by
        rw [he.active_eq,if_pos rfl,length_place]
      have hnil : q'.pending = [] := he.pending_eq.trans hallow.2
      rw [if_pos rfl] at h
      replace h := Settles.activate hact h
      cases hok : oks.headD true with
      | true =>
        rw [hok,if_pos rfl] at h
        cases h
        refine ⟨hact.still,?_,?_,fun _ _ => hnil⟩ <;>
          (dsimp only; rw [afterActivation_active]; omega)
      | false =>
        rw [hok,if_neg (by decide)] at h
        have hcmd : ((afterActivation q' n).nodes n).cmd = some (numbered s c) := by
          rw [afterActivation_cmd,he.cmd]
        have hmem : n ∈ (afterActivation q' n).active := hact.mem
        obtain ⟨m,hfind⟩ := findCmd_isSome hmem hcmd
        have hkey : (CmdRef.node n s.nextUid).key (afterActivation q' n) =
            some (numbered s c).key := by
          rw [CmdRef.key,hcmd]
          rfl
        have hrefill := Settles.dequeue hk hact.still
          (by dsimp only; rw [afterActivation_active]; omega) hkey hfind
          (fun f hf => by cases hf) h
        have hempty : (afterActivation q' n).pending.length = 0 := by
          rw [afterActivation_pending,hnil,List.length_nil]
        obtain ⟨hlen',hnil'⟩ := hrefill.drained (by dsimp only; omega)
        dsimp only at hlen'
        rw [afterActivation_active] at hlen'
        exact ⟨hrefill.still,by omega,by omega,fun _ _ => hnil'⟩

end Settling

section Cancel

/-- The filter names its command, if any, by a copy of its fields. -/
def Filter.ByValue (f : Filter) : Prop := ∀ n uid, f.cmd ≠ some (.node n uid)

theorem CancelType.filter_byValue (kind : Kind) (t : CancelType) : (t.filter kind).ByValue := by
  intro n uid hh
  cases t <;> cases hh

theorem Filter.ByValue.selects_eq {f : Filter} (hf : f.ByValue) {q q' : Queue} {n : ℕ}
    (h : (q'.nodes n).cmd = (q.nodes n).cmd) : f.selects q' n = f.selects q n := by
  rw [Filter.selects,Filter.selects,h]
  cases hcmd : f.cmd with
  | none => rfl
  | some r =>
    cases r with
    | value k => rfl
    | node m uid => exact absurd hcmd (hf m uid)

theorem after_getLast {l r : List ℕ} (h : (l ++ r).Nodup) : after (l ++ r) l.getLast? = r := by
  rcases List.eq_nil_or_concat l with rfl | ⟨init,p,rfl⟩
  · rfl
  · rw [List.concat_eq_append,List.getLast?_concat,after]
    rw [List.concat_eq_append,List.append_assoc] at *
    have hne : ∀ n ∈ init, decide (n ≠ p) = true := fun n hn => by
      rw [decide_eq_true_eq]
      exact (List.nodup_append.mp h).2.2 n hn p (by simp)
    rw [List.dropWhile_append_of_pos hne,List.singleton_append,
      List.dropWhile_cons_of_neg (by simp),List.tail_cons]

/-- The loop passes what its filter does not select; without marks it stops at the first
command it selects. -/
theorem cancelScan_passes {f : Filter} (active : Bool) (p : Option ℕ) {q : Queue}
    (hq : ∀ n, (q.nodes n).markedForActivation = false) {skip rest : List ℕ} {n k : ℕ}
    (hskip : ∀ m ∈ skip, f.selects q m = false)
    (hn : f.selects q n = true) (hk : (skip ++ n::rest).length ≤ k) :
    cancelScan f active true q (skip ++ n::rest) p k =
      (q,some (n,skip.getLast?.or p,k-skip.length-1)) := by
  induction skip generalizing p k with
  | nil =>
    obtain ⟨k,rfl⟩ : ∃ j, k = j+1 := ⟨k-1,by simp at hk; omega⟩
    simp [cancelScan,hn,hq]
  | cons a skip ih =>
    obtain ⟨k,rfl⟩ : ∃ j, k = j+1 := ⟨k-1,by simp at hk; omega⟩
    have hlen : (skip ++ n::rest).length ≤ k := by simp at hk ⊢; omega
    have hlast : (a::skip).getLast?.or p = skip.getLast?.or (some a) := by
      cases skip with
      | nil => rfl
      | cons b skip =>
        rw [List.getLast?_cons_cons,List.getLast?_eq_some_getLast (List.cons_ne_nil b skip)]
        rfl
    rw [List.cons_append,cancelScan,if_pos (hskip a List.mem_cons_self),
      ih (some a) (fun m hm => hskip m (List.mem_cons_of_mem _ hm)) hlen,hlast]
    simp only [List.length_cons]
    congr 4
    omega

theorem cancelScan_ends {f : Filter} {active : Bool} {q : Queue} {l : List ℕ} {p : Option ℕ}
    {k : ℕ} (hl : ∀ m ∈ l, f.selects q m = false) :
    cancelScan f active true q l p k = (q,none) := by
  induction l generalizing p k with
  | nil => rfl
  | cons a l ih =>
    cases k with
    | zero => rfl
    | succ k =>
      rw [cancelScan,if_pos (hl a List.mem_cons_self)]
      exact ih fun m hm => hl m (List.mem_cons_of_mem _ hm)

/-- What a cancel of one of the lists leads to: the commands that its filter selects are gone
from the list. -/
structure Cancelled (cfg : Cfg) (f : Filter) (active : Bool) (q q' : Queue) : Prop where
  still : Still cfg q'
  list : q'.pdevList active = (q.pdevList active).filter fun n => !f.selects q n
  other : q'.pdevList (!active) = q.pdevList (!active)
  cmd : ∀ n, n ∈ q'.active ∨ n ∈ q'.pending → (q'.nodes n).cmd = (q.nodes n).cmd

theorem Cancelled.refl {cfg : Cfg} {f : Filter} {active : Bool} {q : Queue} (h : Still cfg q)
    (hl : ∀ m ∈ q.pdevList active, f.selects q m = false) : Cancelled cfg f active q q := by
  refine ⟨h,?_,rfl,fun _ _ => rfl⟩
  rw [List.filter_eq_self.mpr fun m hm => by simp [hl m hm]]

variable {cfg : Cfg} (hk : cfg.kind = .scan) {others : ℕ} {s s' : Store} {oks : List Bool}
  {fs : List Frame} {f : Filter} (hf : f.ByValue) {active : Bool}

/-- The list after the loop has taken a command out of it -/
theorem pdevList_takeOut (cfg : Cfg) (v : ℕ) {q : Queue} {n : ℕ} {l r : List ℕ} (hnodup : (l ++ n::r).Nodup)
    (hl : q.pdevList active = l ++ n::r) :
    (takeOut cfg q n v active).pdevList active = l ++ r := by
  have hn : n ∉ l := fun hh => (List.nodup_append.mp hnodup).2.2 n hh n List.mem_cons_self rfl
  rw [takeOut_pdevList,if_pos rfl,hl,List.erase_append_right _ hn,List.erase_cons_head]

include hf in
/-- What is taken out does not matter for the rest of the loop. -/
theorem Cancelled.of_takeOut {q q' : Queue} {n v : ℕ} {l r : List ℕ}
    (hstill : Still cfg q) (hl : q.pdevList active = l ++ n::r) (hn : f.selects q n = true)
    (h : Cancelled cfg f active (takeOut cfg q n v active) q') :
    Cancelled cfg f active q q' := by
  have hnodup := hstill.wf.pdevList_nodup active
  have hmem : n ∈ q.pdevList active := by rw [hl]; simp
  have hother : (takeOut cfg q n v active).pdevList (!active) = q.pdevList (!active) := by
    rw [takeOut_pdevList,if_neg (by cases active <;> decide)]
  have hcmd : ∀ m, m ≠ n → ((takeOut cfg q n v active).nodes m).cmd = (q.nodes m).cmd :=
    fun m hm => by rw [takeOut_nodes,Function.update_of_ne hm]
  rw [hl] at hnodup
  have hlist := h.list
  rw [pdevList_takeOut cfg v hnodup hl] at hlist
  have hne : ∀ m ∈ l ++ r, m ≠ n := by
    have hh := (List.nodup_cons.mp (List.nodup_middle.mp hnodup)).1
    exact fun m hm hmn => hh (hmn ▸ hm)
  refine ⟨h.still,?_,h.other.trans hother,fun m hm => (h.cmd m hm).trans (hcmd m ?_)⟩
  · have hsel : ∀ m ∈ l ++ r, (!f.selects (takeOut cfg q n v active) m) = !f.selects q m :=
      fun m hm => by rw [hf.selects_eq (hcmd m (hne m hm))]
    rw [hlist,List.filter_congr hsel,hl,List.filter_append,List.filter_append,
      List.filter_cons_of_neg (by simp [hn])]
  · rintro rfl
    have hin : m ∈ q'.pdevList active ∨ m ∈ q'.pdevList (!active) := by
      cases active
      · exact hm.symm
      · exact hm
    rcases hin with hin | hin
    · rw [hlist] at hin
      exact hne m (List.mem_of_mem_filter hin) rfl
    · rw [h.other,hother] at hin
      exact hstill.wf.not_mem_pdevList (by cases active <;> decide) hmem hin

include hk hf

theorem Settles.cancelFrom {l r : List ℕ} {k : ℕ} (hstill : Still cfg s.q)
    (hl : s.q.pdevList active = l ++ r) (hpassed : ∀ m ∈ l, f.selects s.q m = false)
    (hlen : r.length ≤ k)
    (h : Settles cfg others (cancelFrom cfg s f active true l.getLast? k).1
      ((cancelFrom cfg s f active true l.getLast? k).2 ++ fs) oks s') :
    ∃ s₁, Cancelled cfg f active s.q s₁.q ∧ Settles cfg others s₁ fs oks s' := by
  obtain ⟨b,hb⟩ : ∃ b, r.length = b := ⟨_,rfl⟩
  induction b using Nat.strong_induction_on generalizing s l r k with
  | _ b ih =>
    have hnodup := hstill.wf.pdevList_nodup active
    rw [hl] at hnodup
    have hafter : after (s.q.pdevList active) l.getLast? = r := by rw [hl,after_getLast hnodup]
    cases hfind : r.find? (f.selects s.q) with
    | none =>
      have hnone : ∀ m ∈ r, f.selects s.q m = false := by
        simpa using List.find?_eq_none.mp hfind
      simp only [Serialization.cancelFrom,cancelCmd,hafter,cancelScan_ends hnone] at h
      refine ⟨s,Cancelled.refl hstill fun m hm => ?_,h⟩
      rw [hl,List.mem_append] at hm
      exact hm.elim (hpassed m) (hnone m)
    | some n =>
      obtain ⟨hn,skip,rest,rfl,hskip⟩ := List.find?_eq_some_iff_append.mp hfind
      replace hskip : ∀ m ∈ skip, f.selects s.q m = false := by simpa using hskip
      rw [← List.append_assoc] at hl hnodup
      have hmem : n ∈ s.q.pdevList active := by rw [hl]; simp
      obtain ⟨c,hc,-⟩ := hstill.wf.held_list hmem
      have hstill₁ := hstill.of_takeOut active hmem hc
      have hlist := pdevList_takeOut cfg c.vdev hnodup hl
      have hpass := cancelScan_passes active l.getLast? hstill.unmarked hskip hn hlen
      have hcancel : Serialization.cancelFrom cfg s f active true l.getLast? k =
          (s.taken (takeOut cfg s.q n c.vdev active) f n c,
            [.cancelled f active (skip.getLast?.or l.getLast?) (k-skip.length-1) c]) := by
        simp only [Serialization.cancelFrom,cancelCmd,hafter,hpass,hc]
        rfl
      rw [hcancel] at h
      cases h with
      | cons h =>
        have hlast : skip.getLast?.or l.getLast? = (l ++ skip).getLast? := by
          rw [List.getLast?_append]
        have hfresh : ¬ Stale (takeOut cfg s.q n c.vdev active) active (l ++ skip).getLast? := by
          intro hh
          cases hp : (l ++ skip).getLast? with
          | none =>
            rw [hp] at hh
            exact hh
          | some p =>
            rw [hp,Stale,hlist] at hh
            exact hh (List.mem_append_left _ (List.mem_of_getLast? hp))
        have hfinish : cancelFinish cfg (takeOut cfg s.q n c.vdev active) active c =
            takeOut cfg s.q n c.vdev active := by rw [cancelFinish,hk]
        have hscan : ¬ (cfg.kind = .nonScan ∧ f.vdev = none ∧ f.pdev = false) := fun hh => by
          cases hk.symm.trans hh.1
        simp only [runFrame,hlast,Store.taken,hfinish,if_neg hscan,if_neg hfresh,
          Frame.outcomes] at h
        have hne : ∀ m ∈ l ++ skip, m ≠ n := fun m hm hmn =>
          (List.nodup_append.mp hnodup).2.2 m hm n List.mem_cons_self hmn
        have hlen' : rest.length ≤ k-skip.length-1 := by
          simp only [List.length_append,List.length_cons] at hlen
          omega
        have hpassed' : ∀ m ∈ l ++ skip,
            f.selects (takeOut cfg s.q n c.vdev active) m = false := fun m hm => by
          have hsame : ((takeOut cfg s.q n c.vdev active).nodes m).cmd = (s.q.nodes m).cmd := by
            rw [takeOut_nodes,Function.update_of_ne (hne m hm)]
          rw [hf.selects_eq hsame]
          exact (List.mem_append.mp hm).elim (hpassed m) (hskip m)
        obtain ⟨s₁,hcancelled,h⟩ := ih rest.length (by simp at hb; omega)
          (s := s.taken (takeOut cfg s.q n c.vdev active) f n c) hstill₁ hlist hpassed' hlen' h rfl
        exact ⟨s₁,Cancelled.of_takeOut hf hstill hl hn hcancelled,h⟩

/-- A cancel runs until nothing is left that its filter selects. -/
theorem Settles.cancel (hstill : Still cfg s.q)
    (h : Settles cfg others s (.cancel f active::fs) oks s') :
    ∃ s₁, Cancelled cfg f active s.q s₁.q ∧ Settles cfg others s₁ fs oks s' := by
  cases h with
  | cons h =>
    exact Settles.cancelFrom (l := []) hk hf hstill rfl (fun m hm => by cases hm) le_rfl h

end Cancel

end Serialization
end MarbleModules
