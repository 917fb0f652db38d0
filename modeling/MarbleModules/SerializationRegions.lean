import Mathlib.Data.List.Perm.Lattice
import Mathlib.Data.List.Range
import MarbleModules.Serialization

/-! Where the nodes of the queue are and what they hold, whatever the calls do; and for each
region under the lock, what it does to a queue in order. -/
namespace MarbleModules
namespace Serialization

/-- The commands in the nodes of a list -/
def Queue.commands (q : Queue) (l : List ℕ) : List Command := l.filterMap fun n => (q.nodes n).cmd

/-- The node holds a command of the vdev. -/
def onVdev (q : Queue) (v n : ℕ) : Bool := decide ((q.nodes n).cmd.map Command.vdev = some v)

/-- The queue is in order: every node is in one of its lists, those in the active or the
pending list hold a command, those in the pool nothing; the vdev's lists are the pdev's
restricted to the vdev. -/
structure Wf (cfg : Cfg) (q : Queue) : Prop where
  parts : (q.active ++ (q.pending ++ q.pool)).Perm (List.range cfg.poolSize)
  held : ∀ n, n ∈ q.active ∨ n ∈ q.pending →
    ∃ c, (q.nodes n).cmd = some c ∧ c.vdev ∈ cfg.vdevs
  free : ∀ n ∈ q.pool, q.nodes n = .zero
  marked : ∀ n, (q.nodes n).markedForActivation = true → n ∈ q.active
  keys : ∀ n ∈ q.pending, ∀ m ∈ q.pending,
    (q.nodes n).cmd.map Command.key = (q.nodes m).cmd.map Command.key → n = m
  room : q.pending.length ≤ cfg.maxPending
  vdevs : cfg.kind = .nonScan →
    ∀ active v, q.vdevList active v = (q.pdevList active).filter (onVdev q v)

section Lists

variable {α : Type*}

/-- Where `wlan_serialization_add_cmd_to_queue` puts an entry -/
def place (l : List α) (n : α) (high : Bool) : List α := if high then n::l else l ++ [n]

theorem place_perm (l : List α) (n : α) (high : Bool) : (place l n high).Perm (n::l) := by
  cases high
  · exact List.perm_append_singleton n l
  · exact List.Perm.refl _

@[simp] theorem mem_place {l : List α} {n m : α} {high : Bool} :
    m ∈ place l n high ↔ m = n ∨ m ∈ l := by
  rw [(place_perm l n high).mem_iff,List.mem_cons]

@[simp] theorem length_place (l : List α) (n : α) (high : Bool) :
    (place l n high).length = l.length+1 := by
  rw [(place_perm l n high).length_eq,List.length_cons]

theorem filter_place (p : α → Bool) (l : List α) (n : α) (high : Bool) :
    (place l n high).filter p = if p n then place (l.filter p) n high else l.filter p := by
  cases high <;> by_cases hp : p n <;> simp [place,hp]

theorem erase_place [DecidableEq α] {l : List α} {n : α} (h : n ∉ l) (high : Bool) :
    (place l n high).erase n = l := by
  cases high
  · simp [place,List.erase_append_right _ h]
  · simp [place]

end Lists

@[simp] theorem pdevList_true (q : Queue) : q.pdevList true = q.active := rfl

@[simp] theorem pdevList_false (q : Queue) : q.pdevList false = q.pending := rfl

@[simp] theorem vdevList_true (q : Queue) : q.vdevList true = q.vdevActive := rfl

@[simp] theorem vdevList_false (q : Queue) : q.vdevList false = q.vdevPending := rfl

theorem mem_of_pdevList {q : Queue} {active : Bool} {n : ℕ} (hn : n ∈ q.pdevList active) :
    n ∈ q.active ∨ n ∈ q.pending := by
  cases active
  · exact Or.inr hn
  · exact Or.inl hn

namespace Wf

variable {cfg : Cfg} {q : Queue} (h : Wf cfg q)
include h

theorem nodup : (q.active ++ (q.pending ++ q.pool)).Nodup :=
  h.parts.nodup_iff.mpr List.nodup_range

theorem active_nodup : q.active.Nodup := (List.nodup_append.mp h.nodup).1

theorem pending_nodup : q.pending.Nodup :=
  (List.nodup_append.mp (List.nodup_append.mp h.nodup).2.1).1

theorem pdevList_nodup (active : Bool) : (q.pdevList active).Nodup := by
  cases active
  · exact h.pending_nodup
  · exact h.active_nodup

theorem not_mem_pending {n : ℕ} (hn : n ∈ q.active) : n ∉ q.pending := fun hh =>
  (List.nodup_append.mp h.nodup).2.2 n hn n (List.mem_append_left _ hh) rfl

theorem not_mem_pdevList {n : ℕ} {active b : Bool} (hb : b ≠ active)
    (hn : n ∈ q.pdevList active) : n ∉ q.pdevList b := by
  cases active <;> cases b
  · exact absurd rfl hb
  · exact fun hh => h.not_mem_pending hh hn
  · exact h.not_mem_pending hn
  · exact absurd rfl hb

theorem not_mem_pool {n : ℕ} (hn : n ∈ q.active ∨ n ∈ q.pending) : n ∉ q.pool := fun hh => by
  rcases hn with hn | hn
  · exact (List.nodup_append.mp h.nodup).2.2 n hn n (List.mem_append_right _ hh) rfl
  · exact (List.nodup_append.mp (List.nodup_append.mp h.nodup).2.1).2.2 n hn n hh rfl

theorem held_list {active : Bool} {n : ℕ} (hn : n ∈ q.pdevList active) :
    ∃ c, (q.nodes n).cmd = some c ∧ c.vdev ∈ cfg.vdevs :=
  h.held n (mem_of_pdevList hn)

theorem unmarked_pending {n : ℕ} (hn : n ∈ q.pending) :
    (q.nodes n).markedForActivation = false := by
  cases hm : (q.nodes n).markedForActivation with
  | false => rfl
  | true => exact absurd hn (h.not_mem_pending (h.marked n hm))

end Wf

theorem initial_wf (cfg : Cfg) : Wf cfg (initialQueue cfg) := by
  constructor <;> simp [initialQueue,CommandList.zero,Queue.vdevList,Queue.pdevList]

section Find

theorem findCmd_some {q : Queue} {l : List ℕ} {k : Key} {n : ℕ} (h : findCmd q l k = some n) :
    n ∈ l ∧ ∃ c, (q.nodes n).cmd = some c ∧ c.key = k := by
  refine ⟨List.mem_of_find?_eq_some h,?_⟩
  have hh := List.find?_some h
  simpa using hh

theorem findCmd_congr {q q' : Queue} {l : List ℕ}
    (h : ∀ n ∈ l, (q'.nodes n).cmd = (q.nodes n).cmd) (k : Key) :
    findCmd q' l k = findCmd q l k :=
  List.find?_congr fun n hn => by rw [h n hn]

/-- Keys name their vdev, so that the vdev's list finds what the pdev's list does. -/
theorem findCmd_filter (q : Queue) (l : List ℕ) (k : Key) :
    findCmd q (l.filter (onVdev q k.vdev)) k = findCmd q l k := by
  rw [findCmd,findCmd,List.find?_filter]
  congr 1
  funext n
  cases hc : (q.nodes n).cmd with
  | none => simp [onVdev,hc]
  | some c =>
    by_cases hk : c.key = k
    · simp [onVdev,hc,← hk,Command.key]
    · simp [hk]

theorem Wf.findCmd_pending {cfg : Cfg} {q : Queue} (h : Wf cfg q) {n : ℕ} {c : Command}
    (hn : n ∈ q.pending) (hc : (q.nodes n).cmd = some c) : findCmd q q.pending c.key = some n := by
  cases hf : findCmd q q.pending c.key with
  | none =>
    have hh := List.find?_eq_none.mp hf n hn
    simp [hc] at hh
  | some m =>
    obtain ⟨hm,d,hd,hk⟩ := findCmd_some hf
    rw [h.keys n hn m hm (by rw [hc,hd]; simp [hk])]

theorem Wf.isCmdPresentQueue_eq {cfg : Cfg} {q : Queue} (h : Wf cfg q) (k : Key)
    (active : Bool) :
    isCmdPresentQueue cfg q k active = (findCmd q (q.pdevList active) k).isSome := by
  rw [isCmdPresentQueue]
  cases hk : cfg.kind with
  | scan => rfl
  | nonScan =>
    dsimp only
    rw [h.vdevs hk,findCmd_filter]

end Find

/-- The lists are the same, the pool perhaps in another order. -/
structure SameParts (q q' : Queue) : Prop where
  active : q'.active = q.active
  pending : q'.pending = q.pending
  pool : q'.pool.Perm q.pool
  vdevActive : q'.vdevActive = q.vdevActive
  vdevPending : q'.vdevPending = q.vdevPending

/-- Only flags of nodes that hold a command are different. -/
structure Marks (q q' : Queue) : Prop extends SameParts q q' where
  cmd : ∀ n, (q'.nodes n).cmd = (q.nodes n).cmd
  marked : ∀ n, (q'.nodes n).markedForActivation = (q.nodes n).markedForActivation
  pooled : ∀ n ∈ q.pool, q'.nodes n = q.nodes n
  bitmap : q'.bitmap = q.bitmap
  blockingCmdActive : q'.blockingCmdActive = q.blockingCmdActive
  blockingCmdWaiting : q'.blockingCmdWaiting = q.blockingCmdWaiting

theorem SameParts.refl (q : Queue) : SameParts q q := ⟨rfl,rfl,List.Perm.refl _,rfl,rfl⟩

theorem SameParts.pdevList {q q' : Queue} (h : SameParts q q') (active : Bool) :
    q'.pdevList active = q.pdevList active := by
  cases active
  · exact h.pending
  · exact h.active

theorem SameParts.vdevList {q q' : Queue} (h : SameParts q q') (active : Bool) :
    q'.vdevList active = q.vdevList active := by
  cases active
  · exact h.vdevPending
  · exact h.vdevActive

theorem Marks.refl (q : Queue) : Marks q q :=
  ⟨SameParts.refl q,fun _ => rfl,fun _ => rfl,fun _ _ => rfl,rfl,rfl,rfl⟩

theorem Marks.trans {q q' q'' : Queue} (h : Marks q q') (h' : Marks q' q'') : Marks q q'' where
  active := h'.active.trans h.active
  pending := h'.pending.trans h.pending
  pool := h'.pool.trans h.pool
  vdevActive := h'.vdevActive.trans h.vdevActive
  vdevPending := h'.vdevPending.trans h.vdevPending
  cmd := fun n => (h'.cmd n).trans (h.cmd n)
  marked := fun n => (h'.marked n).trans (h.marked n)
  pooled := fun n hn => (h'.pooled n (h.pool.mem_iff.mpr hn)).trans (h.pooled n hn)
  bitmap := h'.bitmap.trans h.bitmap
  blockingCmdActive := h'.blockingCmdActive.trans h.blockingCmdActive
  blockingCmdWaiting := h'.blockingCmdWaiting.trans h.blockingCmdWaiting

@[simp] theorem setNode_nodes (q : Queue) (n : ℕ) (x : CommandList) :
    (q.setNode n x).nodes = Function.update q.nodes n x := rfl

@[simp] theorem setNode_pdevList (q : Queue) (n : ℕ) (x : CommandList) (b : Bool) :
    (q.setNode n x).pdevList b = q.pdevList b := by cases b <;> rfl

@[simp] theorem setNode_vdevList (q : Queue) (n : ℕ) (x : CommandList) (b : Bool) :
    (q.setNode n x).vdevList b = q.vdevList b := by cases b <;> rfl

theorem marks_setNode {q : Queue} {n : ℕ} {x : CommandList} (hn : n ∉ q.pool)
    (hc : x.cmd = (q.nodes n).cmd)
    (hm : x.markedForActivation = (q.nodes n).markedForActivation) : Marks q (q.setNode n x) := by
  refine ⟨⟨rfl,rfl,List.Perm.refl _,rfl,rfl⟩,fun m => ?_,fun m => ?_,fun m hm => ?_,rfl,rfl,rfl⟩
  · by_cases hmn : m = n
    · rw [setNode_nodes,hmn,Function.update_self,hc]
    · rw [setNode_nodes,Function.update_of_ne hmn]
  · by_cases hmn : m = n
    · rw [setNode_nodes,hmn,Function.update_self,hm]
    · rw [setNode_nodes,Function.update_of_ne hmn]
  · have hmn : m ≠ n := fun hh => hn (hh ▸ hm)
    rw [setNode_nodes,Function.update_of_ne hmn]

/-- No mark for movement is different. -/
def SameMoves (q q' : Queue) : Prop :=
  ∀ n, (q'.nodes n).markedForMovement = (q.nodes n).markedForMovement

theorem sameMoves_setNode {q : Queue} {n : ℕ} {x : CommandList}
    (hx : x.markedForMovement = (q.nodes n).markedForMovement) :
    SameMoves q (q.setNode n x) := by
  intro m
  by_cases hmn : m = n
  · rw [hmn,setNode_nodes,Function.update_self,hx]
  · rw [setNode_nodes,Function.update_of_ne hmn]

theorem onVdev_congr {q q' : Queue} {n : ℕ} (h : (q'.nodes n).cmd = (q.nodes n).cmd) (v : ℕ) :
    onVdev q' v n = onVdev q v n := by
  rw [onVdev,onVdev,h]

theorem commands_congr {q q' : Queue} {l : List ℕ}
    (h : ∀ n ∈ l, (q'.nodes n).cmd = (q.nodes n).cmd) : q'.commands l = q.commands l :=
  List.filterMap_congr h

/-- Queues with the same lists and commands are alike in order. -/
theorem Wf.of_same {cfg : Cfg} {q q' : Queue} (h : Wf cfg q) (hp : SameParts q q')
    (hc : ∀ n, (q'.nodes n).cmd = (q.nodes n).cmd)
    (hm : ∀ n, (q'.nodes n).markedForActivation = true →
      (q.nodes n).markedForActivation = true)
    (hf : ∀ n ∈ q.pool, q'.nodes n = q.nodes n) : Wf cfg q' where
  parts := by
    rw [hp.active,hp.pending]
    exact ((hp.pool.append_left _).append_left _).trans h.parts
  held := by
    rw [hp.active,hp.pending]
    exact fun n hn => hc n ▸ h.held n hn
  free := fun n hn => by
    rw [hp.pool.mem_iff] at hn
    exact (hf n hn).trans (h.free n hn)
  marked := by
    rw [hp.active]
    exact fun n hn => h.marked n (hm n hn)
  keys := by
    rw [hp.pending]
    intro n hn m hm
    rw [hc,hc]
    exact h.keys n hn m hm
  room := hp.pending ▸ h.room
  vdevs := fun hk active v => by
    rw [hp.vdevList,hp.pdevList,h.vdevs hk]
    exact List.filter_congr fun n _ => (onVdev_congr (hc n) v).symm

theorem Wf.of_marks {cfg : Cfg} {q q' : Queue} (h : Wf cfg q) (hq : Marks q q') : Wf cfg q' :=
  h.of_same hq.toSameParts hq.cmd (fun n hn => hq.marked n ▸ hn) hq.pooled

/-- A node leaves the active or the pending list; for a non-scan command its vdev's list as
well. -/
def detach (cfg : Cfg) (q : Queue) (n v : ℕ) (active : Bool) : Queue :=
  let q' := q.setPdevList active ((q.pdevList active).erase n)
  if cfg.kind = .nonScan then q'.setVdevList active v ((q'.vdevList active v).erase n) else q'

/-- Its command is gone and the node free. -/
def takeOut (cfg : Cfg) (q : Queue) (n v : ℕ) (active : Bool) : Queue :=
  toPool (detach cfg q n v active) n

section TakeOut

variable (cfg : Cfg) (q : Queue) (n v : ℕ) (active : Bool)

@[simp] theorem detach_active : (detach cfg q n v active).active =
    if active then q.active.erase n else q.active := by
  cases hk : cfg.kind <;> cases active <;>
    simp [detach,hk,Queue.setPdevList,Queue.setVdevList,Queue.pdevList]

@[simp] theorem detach_pending : (detach cfg q n v active).pending =
    if active then q.pending else q.pending.erase n := by
  cases hk : cfg.kind <;> cases active <;>
    simp [detach,hk,Queue.setPdevList,Queue.setVdevList,Queue.pdevList]

@[simp] theorem detach_pool : (detach cfg q n v active).pool = q.pool := by
  cases hk : cfg.kind <;> cases active <;>
    simp [detach,hk,Queue.setPdevList,Queue.setVdevList]

@[simp] theorem detach_nodes : (detach cfg q n v active).nodes = q.nodes := by
  cases hk : cfg.kind <;> cases active <;>
    simp [detach,hk,Queue.setPdevList,Queue.setVdevList]

@[simp] theorem detach_bitmap : (detach cfg q n v active).bitmap = q.bitmap := by
  cases hk : cfg.kind <;> cases active <;>
    simp [detach,hk,Queue.setPdevList,Queue.setVdevList]

@[simp] theorem detach_blockingCmdActive :
    (detach cfg q n v active).blockingCmdActive = q.blockingCmdActive := by
  cases hk : cfg.kind <;> cases active <;>
    simp [detach,hk,Queue.setPdevList,Queue.setVdevList]

@[simp] theorem detach_blockingCmdWaiting :
    (detach cfg q n v active).blockingCmdWaiting = q.blockingCmdWaiting := by
  cases hk : cfg.kind <;> cases active <;>
    simp [detach,hk,Queue.setPdevList,Queue.setVdevList]

theorem detach_vdevList (hk : cfg.kind = .nonScan) (b : Bool) :
    (detach cfg q n v active).vdevList b =
      if b = active then Function.update (q.vdevList b) v ((q.vdevList b v).erase n)
      else q.vdevList b := by
  cases active <;> cases b <;>
    simp [detach,hk,Queue.setPdevList,Queue.setVdevList,Queue.vdevList]

@[simp] theorem takeOut_active : (takeOut cfg q n v active).active =
    if active then q.active.erase n else q.active := detach_active cfg q n v active

@[simp] theorem takeOut_pending : (takeOut cfg q n v active).pending =
    if active then q.pending else q.pending.erase n := detach_pending cfg q n v active

@[simp] theorem takeOut_pool : (takeOut cfg q n v active).pool = q.pool ++ [n] := by
  simp [takeOut,toPool]

@[simp] theorem takeOut_nodes :
    (takeOut cfg q n v active).nodes = Function.update q.nodes n .zero := by
  simp [takeOut,toPool]

@[simp] theorem takeOut_bitmap : (takeOut cfg q n v active).bitmap = q.bitmap :=
  detach_bitmap cfg q n v active

@[simp] theorem takeOut_blockingCmdActive :
    (takeOut cfg q n v active).blockingCmdActive = q.blockingCmdActive :=
  detach_blockingCmdActive cfg q n v active

@[simp] theorem takeOut_blockingCmdWaiting :
    (takeOut cfg q n v active).blockingCmdWaiting = q.blockingCmdWaiting :=
  detach_blockingCmdWaiting cfg q n v active

theorem takeOut_pdevList (b : Bool) : (takeOut cfg q n v active).pdevList b =
    if b = active then (q.pdevList b).erase n else q.pdevList b := by
  cases active <;> cases b <;> simp [Queue.pdevList]

theorem takeOut_vdevList (hk : cfg.kind = .nonScan) (b : Bool) :
    (takeOut cfg q n v active).vdevList b =
      if b = active then Function.update (q.vdevList b) v ((q.vdevList b v).erase n)
      else q.vdevList b := detach_vdevList cfg q n v active hk b

end TakeOut

theorem onVdev_of_cmd {q : Queue} {n v : ℕ} {c : Command} (hc : (q.nodes n).cmd = some c) :
    onVdev q v n = decide (c.vdev = v) := by
  simp [onVdev,hc]

section Filter

variable {q q' : Queue} {l : List ℕ} {n : ℕ} {x : CommandList}
  (hq : q'.nodes = Function.update q.nodes n x)
include hq

/-- A list of a vdev when a node outside it is written. -/
theorem filter_same (hn : n ∉ l) (v : ℕ) : l.filter (onVdev q' v) = l.filter (onVdev q v) := by
  refine List.filter_congr fun m hm => onVdev_congr ?_ v
  have hmn : m ≠ n := fun hh => hn (hh ▸ hm)
  rw [hq,Function.update_of_ne hmn]

/-- A list of a vdev after one of its nodes has left. -/
theorem filter_left {c : Command} (hl : l.Nodup) (hc : (q.nodes n).cmd = some c) (v : ℕ) :
    (l.erase n).filter (onVdev q' v) =
      Function.update (fun v => l.filter (onVdev q v)) c.vdev
        ((l.filter (onVdev q c.vdev)).erase n) v := by
  rw [filter_same hq hl.not_mem_erase,← List.erase_filter]
  by_cases hv : v = c.vdev
  · rw [hv,Function.update_self]
  · rw [Function.update_of_ne hv]
    refine List.erase_of_not_mem fun hm => hv ?_
    have hh := (List.mem_filter.mp hm).2
    rw [onVdev_of_cmd hc] at hh
    exact (of_decide_eq_true hh).symm

/-- A list of a vdev after a node has joined. -/
theorem filter_joined {c : Command} (hn : n ∉ l) (hc : x.cmd = some c) (high : Bool) (v : ℕ) :
    (place l n high).filter (onVdev q' v) =
      Function.update (fun v => l.filter (onVdev q v)) c.vdev
        (place (l.filter (onVdev q c.vdev)) n high) v := by
  have hc' : (q'.nodes n).cmd = some c := by rw [hq,Function.update_self,hc]
  rw [filter_place,filter_same hq hn,onVdev_of_cmd hc']
  by_cases hv : v = c.vdev
  · rw [hv,Function.update_self,if_pos (by simp)]
  · rw [Function.update_of_ne hv,if_neg (by simpa using fun hh => hv hh.symm)]

end Filter

theorem Wf.parts_takeOut {cfg : Cfg} {q : Queue} (h : Wf cfg q) {n : ℕ} {active : Bool}
    (hn : n ∈ q.pdevList active) (v : ℕ) :
    ((takeOut cfg q n v active).active ++
      ((takeOut cfg q n v active).pending ++ (takeOut cfg q n v active).pool)).Perm
        (List.range cfg.poolSize) := by
  refine List.Perm.trans ?_ h.parts
  simp only [takeOut_active,takeOut_pending,takeOut_pool]
  cases active with
  | true =>
    refine List.Perm.trans ?_ ((List.perm_cons_erase hn).append_right _).symm
    simp only [if_true,← List.append_assoc]
    exact List.perm_append_singleton n _
  | false =>
    refine List.Perm.append_left _ ?_
    refine List.Perm.trans ?_ ((List.perm_cons_erase hn).append_right _).symm
    simp only [Bool.false_eq_true,if_false,← List.append_assoc]
    exact List.perm_append_singleton n _

theorem Wf.of_takeOut {cfg : Cfg} {q : Queue} (h : Wf cfg q) {n : ℕ} {c : Command} {active : Bool}
    (hn : n ∈ q.pdevList active) (hc : (q.nodes n).cmd = some c) :
    Wf cfg (takeOut cfg q n c.vdev active) := by
  have hnodes := takeOut_nodes cfg q n c.vdev active
  have hsub : ∀ m, m ∈ (takeOut cfg q n c.vdev active).active ∨
      m ∈ (takeOut cfg q n c.vdev active).pending →
      m ≠ n ∧ (m ∈ q.active ∨ m ∈ q.pending) := by
    intro m hm
    rw [takeOut_active,takeOut_pending] at hm
    cases active with
    | true =>
      rcases hm with hm | hm
      · have hh := h.active_nodup.mem_erase_iff.mp hm
        exact ⟨hh.1,Or.inl hh.2⟩
      · exact ⟨fun hmn => h.not_mem_pending hn (hmn ▸ hm),Or.inr hm⟩
    | false =>
      rcases hm with hm | hm
      · exact ⟨fun hmn => h.not_mem_pending (hmn ▸ hm) hn,Or.inl hm⟩
      · have hh := h.pending_nodup.mem_erase_iff.mp hm
        exact ⟨hh.1,Or.inr hh.2⟩
  constructor
  · exact h.parts_takeOut hn c.vdev
  · intro m hm
    rw [hnodes,Function.update_of_ne (hsub m hm).1]
    exact h.held m (hsub m hm).2
  · intro m hm
    rw [takeOut_pool,List.mem_append,List.mem_singleton] at hm
    rw [hnodes]
    by_cases hmn : m = n
    · rw [hmn,Function.update_self]
    · rw [Function.update_of_ne hmn]
      exact h.free m (hm.resolve_right hmn)
  · intro m hm'
    rw [hnodes] at hm'
    by_cases hmn : m = n
    · rw [hmn,Function.update_self] at hm'
      cases hm'
    · rw [Function.update_of_ne hmn] at hm'
      rw [takeOut_active]
      cases active
      · exact h.marked m hm'
      · exact h.active_nodup.mem_erase_iff.mpr ⟨hmn,h.marked m hm'⟩
  · intro a ha b hb hab
    have ha' := hsub a (Or.inr ha)
    have hb' := hsub b (Or.inr hb)
    rw [hnodes,Function.update_of_ne ha'.1,Function.update_of_ne hb'.1] at hab
    rw [takeOut_pending] at ha hb
    cases active
    · exact h.keys a (List.mem_of_mem_erase ha) b (List.mem_of_mem_erase hb) hab
    · exact h.keys a ha b hb hab
  · rw [takeOut_pending]
    cases active
    · exact (List.length_erase_le ..).trans h.room
    · exact h.room
  · intro hk b v
    rw [takeOut_vdevList cfg q n c.vdev active hk,takeOut_pdevList]
    by_cases hb : b = active
    · rw [if_pos hb,if_pos hb,hb,filter_left hnodes (h.pdevList_nodup active) hc,h.vdevs hk]
      congr 1
      exact funext (h.vdevs hk active)
    · rw [if_neg hb,if_neg hb,h.vdevs hk,filter_same hnodes (h.not_mem_pdevList hb hn)]

section Remove

variable {cfg : Cfg} {q : Queue} (h : Wf cfg q) {k : Key} {active : Bool}
include h

theorem Wf.removeCmd_none (hf : findCmd q (q.pdevList active) k = none) :
    removeCmd cfg q k active = (q,none) := by
  rw [removeCmd]
  cases hk : cfg.kind with
  | scan => simp only [removeScanCmd,removeCmdFromQueue,hf]
  | nonScan =>
    have hv : findCmd q (q.vdevList active k.vdev) k = none := by
      rw [h.vdevs hk,findCmd_filter,hf]
    simp only [removeNonScanCmd,removeCmdFromQueue,hv]

theorem Wf.removeCmd_marked {n : ℕ} (hf : findCmd q (q.pdevList active) k = some n)
    (hm : (q.nodes n).markedForActivation = true) : removeCmd cfg q k active =
      (q.setNode n { q.nodes n with activeMarkedForRemoval := true },none) := by
  rw [removeCmd]
  cases hk : cfg.kind with
  | scan => simp only [removeScanCmd,removeCmdFromQueue,hf,hm,if_true]
  | nonScan =>
    have hv : findCmd q (q.vdevList active k.vdev) k = some n := by
      rw [h.vdevs hk,findCmd_filter,hf]
    simp only [removeNonScanCmd,removeCmdFromQueue,hv,hm,if_true]

/-- A command that is not being activated leaves; if it was active the books follow at once. -/
theorem Wf.removeCmd_some {n : ℕ} {c : Command} (hf : findCmd q (q.pdevList active) k = some n)
    (hc : (q.nodes n).cmd = some c) (hm : (q.nodes n).markedForActivation = false) :
    removeCmd cfg q k active =
      (if active then cancelFinish cfg (detach cfg q n c.vdev true) true c
        else detach cfg q n c.vdev false,some n) := by
  obtain ⟨-,d,hd,hkey⟩ := findCmd_some hf
  have hv : k.vdev = c.vdev := by
    rw [← hkey,← Option.some.inj (hc.symm.trans hd)]
    rfl
  rw [removeCmd]
  cases hk : cfg.kind with
  | scan =>
    simp only [removeScanCmd,removeCmdFromQueue,hf,hm]
    cases active <;> simp [detach,cancelFinish,hk]
  | nonScan =>
    have hv' : findCmd q (q.vdevList active k.vdev) k = some n := by
      rw [h.vdevs hk,findCmd_filter,hf]
    have hf' : findCmd (q.setVdevList active k.vdev ((q.vdevList active k.vdev).erase n))
        ((q.setVdevList active k.vdev ((q.vdevList active k.vdev).erase n)).pdevList active) k =
          some n := by
      cases active <;> exact hf
    have hm' : ((q.setVdevList active k.vdev
        ((q.vdevList active k.vdev).erase n)).nodes n).markedForActivation = false := by
      cases active <;> exact hm
    simp only [removeNonScanCmd,removeCmdFromQueue,hv',hm,hf',hm',Bool.false_eq_true,if_false]
    rw [hv]
    cases active <;>
      simp [detach,cancelFinish,hk,Queue.setPdevList,Queue.setVdevList,Queue.pdevList,
        Queue.vdevList,isBlocking,hc]

/-- A dequeue is a cancel of one active command with the bookkeeping at once. -/
theorem Wf.dequeueCmd_some {n : ℕ} {c : Command} (hf : findCmd q q.active k = some n)
    (hc : (q.nodes n).cmd = some c) (hm : (q.nodes n).markedForActivation = false) :
    dequeueCmd cfg q k = (cancelFinish cfg (takeOut cfg q n c.vdev true) true c,some (n,c)) := by
  have hfind : findCmd q (q.pdevList true) k = some n := hf
  simp only [dequeueCmd,h.removeCmd_some hfind hc hm,if_true]
  cases hk : cfg.kind <;>
    simp [cancelFinish,hk,takeOut,toPool,Queue.setNode,hc]

theorem Wf.dequeueCmd_cases (k : Key) :
    (∃ q', dequeueCmd cfg q k = (q',none) ∧ Marks q q' ∧ SameMoves q q') ∨
    ∃ n c, n ∈ q.active ∧ (q.nodes n).cmd = some c ∧ c.key = k ∧
      (q.nodes n).markedForActivation = false ∧
      dequeueCmd cfg q k = (cancelFinish cfg (takeOut cfg q n c.vdev true) true c,some (n,c)) := by
  cases hf : findCmd q (q.pdevList true) k with
  | none =>
    refine Or.inl ⟨q,?_,Marks.refl q,fun _ => rfl⟩
    simp only [dequeueCmd,h.removeCmd_none hf]
  | some n =>
    obtain ⟨hn,c,hc,hkey⟩ := findCmd_some hf
    cases hm : (q.nodes n).markedForActivation with
    | true =>
      refine Or.inl ⟨q.setNode n { q.nodes n with activeMarkedForRemoval := true },?_,
        marks_setNode (h.not_mem_pool (Or.inl hn)) rfl rfl,sameMoves_setNode rfl⟩
      simp only [dequeueCmd,h.removeCmd_marked hf hm]
    | false => exact Or.inr ⟨n,c,hn,hc,hkey,hm,h.dequeueCmd_some hf hc hm⟩

end Remove

/-- A node has been put into a list; a non-scan command that is put into the active list is
booked. -/
structure Added (cfg : Cfg) (q : Queue) (n : ℕ) (c : Command) (active : Bool) (q' : Queue) :
    Prop where
  pdevList : ∀ b, q'.pdevList b =
    if b = active then place (q.pdevList b) n c.isHighPriority else q.pdevList b
  vdevList : cfg.kind = .nonScan → ∀ b, q'.vdevList b =
    if b = active then
      Function.update (q.vdevList b) c.vdev (place (q.vdevList b c.vdev) n c.isHighPriority)
    else q.vdevList b
  pool : q'.pool = q.pool
  nodes : q'.nodes = q.nodes
  bitmap : cfg.kind = .nonScan → q'.bitmap = if active then insert c.vdev q.bitmap else q.bitmap
  blockingCmdActive : cfg.kind = .nonScan →
    q'.blockingCmdActive = (q.blockingCmdActive || (active && c.isBlocking))
  blockingCmdWaiting : q'.blockingCmdWaiting = q.blockingCmdWaiting

theorem addCmd_room (cfg : Cfg) (q : Queue) (n : ℕ) (c : Command) (active : Bool)
    (hp : (q.pdevList active).length ≠ if active then cfg.maxActive else cfg.maxPending)
    (hv : cfg.kind = .nonScan → (q.vdevList active c.vdev).length ≠
      if active then cfg.vdevMaxActive else cfg.vdevMaxPending c.vdev) :
    (addCmd cfg q n c active).2 = true ∧ Added cfg q n c active (addCmd cfg q n c active).1 := by
  rw [addCmd]
  cases hk : cfg.kind with
  | scan =>
    simp only [addScanCmd,addCmdToQueue,if_neg hp]
    refine ⟨trivial,fun b => ?_,fun hh => (by simp [hk] at hh),?_,?_,fun hh => (by simp [hk] at hh),
      fun hh => (by simp [hk] at hh),?_⟩
    · cases active <;> cases b <;> simp [Queue.setPdevList,Queue.pdevList,place]
    all_goals cases active <;> rfl
  | nonScan =>
    have hv := hv hk
    cases hd : c.queueDisable <;> cases active <;>
      simp only [Queue.pdevList,Queue.vdevList,Bool.false_eq_true,if_true,if_false] at hp hv <;>
      simp only [addNonScanCmd,addCmdToVdevQueue,addCmdToQueue,hd,Queue.vdevList,
        Queue.setVdevList,Queue.pdevList,Queue.setPdevList,Bool.false_eq_true,Bool.true_eq_false,
        if_true,if_false,if_neg hp,if_neg hv] <;>
      refine ⟨trivial,fun b => ?_,fun _ b => ?_,rfl,rfl,fun _ => ?_,fun _ => ?_,rfl⟩ <;>
      first
        | cases b <;> simp [place]
        | simp

theorem findCmd_place {q : Queue} {l : List ℕ} {n : ℕ} {c : Command} {k : Key}
    (hf : findCmd q l k = none) (hc : (q.nodes n).cmd = some c) (hk : c.key = k) (high : Bool) :
    findCmd q (place l n high) k = some n := by
  have hh : findCmd q [n] k = some n := by simp [findCmd,hc,hk]
  rw [findCmd] at hf hh ⊢
  cases high
  · rw [place,if_neg (by decide),List.find?_append,hf,Option.none_or,hh]
  · rw [place,if_pos rfl]
    exact List.find?_cons_of_pos (by simp [hc,hk])

/-- A full list takes nothing, and what the vdev's list has taken is given back. -/
theorem addCmd_full (cfg : Cfg) (q : Queue) (n : ℕ) (c : Command)
    (hfull : q.pending.length = cfg.maxPending ∨ cfg.kind = .nonScan ∧
      (q.vdevPending c.vdev).length = cfg.vdevMaxPending c.vdev)
    (hf : cfg.kind = .nonScan → findCmd q (q.vdevPending c.vdev) c.key = none)
    (hn : cfg.kind = .nonScan → n ∉ q.vdevPending c.vdev) (hc : (q.nodes n).cmd = some c)
    (hm : (q.nodes n).markedForActivation = false) :
    ∃ d, addCmd cfg q n c false = ({ q with queueDisable := d },false) := by
  rw [addCmd]
  cases hk : cfg.kind with
  | scan =>
    have hp : q.pending.length = cfg.maxPending :=
      hfull.resolve_right fun hh => (by simp [hk] at hh)
    refine ⟨q.queueDisable,?_⟩
    simp [addScanCmd,addCmdToQueue,hp]
  | nonScan =>
    refine ⟨if c.queueDisable then Function.update q.queueDisable c.vdev true
      else q.queueDisable,?_⟩
    by_cases hv : (q.vdevPending c.vdev).length = cfg.vdevMaxPending c.vdev
    · cases hd : c.queueDisable <;>
        simp [addNonScanCmd,addCmdToVdevQueue,addCmdToQueue,hd,hv]
    · have hp : q.pending.length = cfg.maxPending := hfull.resolve_right fun hh => hv hh.2
      have hplace : (if c.isHighPriority then n::q.vdevPending c.vdev
          else q.vdevPending c.vdev ++ [n]) = place (q.vdevPending c.vdev) n c.isHighPriority :=
        rfl
      have hfind : ∀ q' : Queue, q'.nodes = q.nodes →
          findCmd q' (place (q.vdevPending c.vdev) n c.isHighPriority) c.key = some n := by
        intro q' hq'
        refine findCmd_place ?_ (by rw [hq',hc]) rfl _
        rw [← hf hk,findCmd,findCmd,hq']
      cases hd : c.queueDisable <;>
        simp [addNonScanCmd,addCmdToVdevQueue,addCmdToQueue,hd,hv,hp,removeCmdFromQueue,
          Queue.setVdevList,hplace,hfind,hm,erase_place (hn hk)]

/-- The counter after the test whether a command may be active -/
def counted (cfg : Cfg) (q : Queue) (c : Command) : ℕ :=
  if cfg.kind = .nonScan ∧ c.isBlocking = true ∧ q.bitmap ≠ ∅ then
    (q.blockingCmdWaiting+1) % 2^16
  else q.blockingCmdWaiting

theorem isActiveCmdAllowed_fst (cfg : Cfg) (others : ℕ) (q : Queue) (c : Command) :
    (isActiveCmdAllowed cfg others q c).1 =
      { q with blockingCmdWaiting := counted cfg q c } := by
  rw [isActiveCmdAllowed]
  cases hk : cfg.kind with
  | scan => simp [counted,hk]
  | nonScan =>
    cases hb : c.isBlocking with
    | false =>
      simp only [isActiveNonScanCmdAllowed,counted,hb,Bool.false_eq_true,if_false,false_and,
        and_false]
      split <;> rfl
    | true =>
      by_cases hq : q.bitmap = ∅
      · have ha : anyVdevCmdActive q = false := by simp [anyVdevCmdActive,hq]
        have hw : counted cfg q c = q.blockingCmdWaiting := by simp [counted,hq]
        simp [isActiveNonScanCmdAllowed,hb,ha,hw]
      · have ha : anyVdevCmdActive q = true := by simp [anyVdevCmdActive,hq]
        have hw : counted cfg q c = (q.blockingCmdWaiting+1) % 2^16 := by simp [counted,hk,hb,hq]
        simp [isActiveNonScanCmdAllowed,hb,ha,hw]

theorem isActiveCmdAllowed_nonScan {cfg : Cfg} (hk : cfg.kind = .nonScan) (others : ℕ) (q : Queue)
    (c : Command) : (isActiveCmdAllowed cfg others q c).2 = true ↔
      q.vdevPending c.vdev = [] ∧ if c.isBlocking = true then q.bitmap = ∅
        else q.blockingCmdActive = false ∧ q.blockingCmdWaiting % 2^8 = 0 ∧ c.vdev ∉ q.bitmap := by
  rw [isActiveCmdAllowed,hk]
  cases hb : c.isBlocking with
  | false =>
    cases ha : q.blockingCmdActive <;> by_cases hw : q.blockingCmdWaiting % 256 = 0 <;>
      simp [isActiveNonScanCmdAllowed,hb,ha,hw,and_comm]
  | true =>
    by_cases hq : q.bitmap = ∅ <;>
      simp [isActiveNonScanCmdAllowed,anyVdevCmdActive,hb,hq]

/-- A request that may not be active can become pending. -/
structure Fits (cfg : Cfg) (q : Queue) (c : Command) : Prop where
  absent : isCmdPresentQueue cfg q c.key false = false
  pool : q.pool ≠ []
  pending : q.pending.length ≠ cfg.maxPending
  vdevPending : cfg.kind = .nonScan →
    (q.vdevPending c.vdev).length ≠ cfg.vdevMaxPending c.vdev

/-- The queue refuses every request for the vdev. -/
def Disabled (cfg : Cfg) (q : Queue) (c : Command) : Prop :=
  cfg.kind = .nonScan ∧ q.queueDisable c.vdev = true

/-- A request has been rejected. -/
structure Rejected (cfg : Cfg) (others : ℕ) (q : Queue) (c : Command) (q' : Queue) : Prop
    extends SameParts q q' where
  nodes : q'.nodes = q.nodes
  bitmap : q'.bitmap = q.bitmap
  blockingCmdActive : q'.blockingCmdActive = q.blockingCmdActive
  blockingCmdWaiting : q'.blockingCmdWaiting = q.blockingCmdWaiting ∨
    q'.blockingCmdWaiting = counted cfg q c ∧ ¬ Disabled cfg q c ∧
      ((isActiveCmdAllowed cfg others q c).2 = false → ¬ Fits cfg q c)

/-- A request has been given a node. -/
structure Enqueued (cfg : Cfg) (others : ℕ) (q : Queue) (n : ℕ) (c : Command) (active : Bool)
    (q' : Queue) : Prop where
  enabled : ¬ Disabled cfg q c
  allowed : (isActiveCmdAllowed cfg others q c).2 = active
  absent : findCmd q (q.pdevList active) c.key = none
  fits : active = false → Fits cfg q c
  room : active = true → cfg.kind = .scan → q.active.length ≠ cfg.maxActive
  pool : q.pool = n::q'.pool
  nodes : q'.nodes = Function.update q.nodes n { CommandList.zero with
    cmd := some c, markedForActivation := active }
  pdevList : ∀ b, q'.pdevList b =
    if b = active then place (q.pdevList b) n c.isHighPriority else q.pdevList b
  vdevList : cfg.kind = .nonScan → ∀ b, q'.vdevList b =
    if b = active then
      Function.update (q.vdevList b) c.vdev (place (q.vdevList b c.vdev) n c.isHighPriority)
    else q.vdevList b
  bitmap : cfg.kind = .nonScan → q'.bitmap = if active then insert c.vdev q.bitmap else q.bitmap
  blockingCmdActive : cfg.kind = .nonScan →
    q'.blockingCmdActive = (q.blockingCmdActive || (active && c.isBlocking))
  blockingCmdWaiting : q'.blockingCmdWaiting = counted cfg q c

/-- There is room for an active command on a vdev without one. -/
def Roomy (cfg : Cfg) (q : Queue) : Prop := cfg.kind = .nonScan → ∀ v ∈ cfg.vdevs, v ∉ q.bitmap →
  q.vdevActive v = [] ∧ q.active.length < cfg.maxActive

theorem Roomy.active_room {cfg : Cfg} {q : Queue} (h : Roomy cfg q) {v : ℕ} (hv : v ∈ cfg.vdevs)
    (hb : cfg.kind = .nonScan → v ∉ q.bitmap)
    (hs : cfg.kind = .scan → q.active.length ≠ cfg.maxActive) :
    q.active.length ≠ cfg.maxActive ∧
      (cfg.kind = .nonScan → (q.vdevActive v).length ≠ cfg.vdevMaxActive) := by
  have hmax := cfg.vdevMaxActive_pos
  cases hk : cfg.kind with
  | scan => exact ⟨hs hk,fun hh => by cases hh⟩
  | nonScan =>
    obtain ⟨h₁,h₂⟩ := h hk v hv (hb hk)
    refine ⟨h₂.ne,fun _ => ?_⟩
    rw [h₁,List.length_nil]
    omega

theorem SameParts.setWaiting (q : Queue) (w : ℕ) :
    SameParts q { q with blockingCmdWaiting := w } :=
  ⟨rfl,rfl,List.Perm.refl _,rfl,rfl⟩

/-- A node from the pool holds the command, which is in no list yet. -/
def popped (cfg : Cfg) (q : Queue) (n : ℕ) (rest : List ℕ) (c : Command) : Queue :=
  { q with
    blockingCmdWaiting := counted cfg q c
    nodes := Function.update q.nodes n { CommandList.zero with cmd := some c }
    pool := rest }

@[simp] theorem popped_pdevList (cfg : Cfg) (q : Queue) (n : ℕ) (rest : List ℕ) (c : Command)
    (b : Bool) : (popped cfg q n rest c).pdevList b = q.pdevList b := by cases b <;> rfl

@[simp] theorem popped_vdevList (cfg : Cfg) (q : Queue) (n : ℕ) (rest : List ℕ) (c : Command)
    (b : Bool) : (popped cfg q n rest c).vdevList b = q.vdevList b := by cases b <;> rfl

section Enqueue

variable {cfg : Cfg} {q : Queue} (h : Wf cfg q) {others : ℕ} {c : Command} {n : ℕ}
  {rest : List ℕ} {active : Bool}
include h

theorem Wf.enqueueCmd_pop (hd : ¬ Disabled cfg q c)
    (hactive : (isActiveCmdAllowed cfg others q c).2 = active)
    (hp : isCmdPresentQueue cfg q c.key active = false) (hpool : q.pool = n::rest) :
    enqueueCmd cfg others q c =
      let a := addCmd cfg (popped cfg q n rest c) n c active
      if a.2 = false then (toPool a.1 n,none)
      else if active then
        (a.1.setNode n { a.1.nodes n with markedForActivation := true },some (n,true))
      else (a.1,some (n,false)) := by
  have hzero := h.free n (by rw [hpool]; exact List.mem_cons_self)
  have henqueue : enqueueCmd cfg others q c = _ := if_neg hd
  simp only [isActiveCmdAllowed_fst,hactive] at henqueue
  replace henqueue := henqueue.trans (if_neg (ne_true_of_eq_false hp))
  simp only [hpool,hzero] at henqueue
  exact henqueue

/-- What the pool gave for a request that does not fit goes back. -/
theorem Wf.enqueueCmd_full (hd : ¬ Disabled cfg q c)
    (hactive : (isActiveCmdAllowed cfg others q c).2 = false)
    (hp : isCmdPresentQueue cfg q c.key false = false) (hpool : q.pool = n::rest)
    (hfits : ¬ Fits cfg q c) :
    ∃ q', enqueueCmd cfg others q c = (q',none) ∧ Rejected cfg others q c q' := by
  have hn : n ∈ q.pool := by rw [hpool]; exact List.mem_cons_self
  have hfull : q.pending.length = cfg.maxPending ∨ cfg.kind = .nonScan ∧
      (q.vdevPending c.vdev).length = cfg.vdevMaxPending c.vdev := by
    by_contra hh
    rw [not_or,not_and] at hh
    exact hfits ⟨hp,by simp [hpool],hh.1,hh.2⟩
  have hmem : cfg.kind = .nonScan → n ∉ q.vdevPending c.vdev := fun hk hh => by
    rw [← vdevList_false,h.vdevs hk] at hh
    exact h.not_mem_pool (Or.inr (List.mem_of_mem_filter hh)) hn
  have hfind : cfg.kind = .nonScan → findCmd (popped cfg q n rest c)
      ((popped cfg q n rest c).vdevPending c.vdev) c.key = none := fun hk => by
    rw [isCmdPresentQueue,hk] at hp
    have hnone : findCmd q (q.vdevPending c.vdev) c.key = none := by
      simpa [Command.key] using hp
    refine (findCmd_congr (fun m hm => ?_) c.key).trans hnone
    have hmn : m ≠ n := fun hmn => hmem hk (hmn ▸ hm)
    simp [popped,hmn]
  obtain ⟨d,hd'⟩ := addCmd_full cfg (popped cfg q n rest c) n c hfull hfind
    hmem (by simp [popped]) (by simp [popped,CommandList.zero])
  have henqueue := h.enqueueCmd_pop hd hactive hp hpool
  simp only [hd',if_true] at henqueue
  refine ⟨_,henqueue,⟨rfl,rfl,?_,rfl,rfl⟩,?_,rfl,rfl,Or.inr ⟨rfl,hd,fun _ => hfits⟩⟩
  · rw [hpool]
    exact List.perm_append_singleton n rest
  · simp [toPool,popped,← h.free n hn]

/-- The active list of scans may be full although the psoc's limit is not reached. -/
theorem Wf.enqueueCmd_activeFull (hk : cfg.kind = .scan)
    (hactive : (isActiveCmdAllowed cfg others q c).2 = true)
    (hp : isCmdPresentQueue cfg q c.key true = false) (hpool : q.pool = n::rest)
    (hfull : q.active.length = cfg.maxActive) :
    ∃ q', enqueueCmd cfg others q c = (q',none) ∧ Rejected cfg others q c q' := by
  have hn : n ∈ q.pool := by rw [hpool]; exact List.mem_cons_self
  have hd : ¬ Disabled cfg q c := fun hh => by cases hk.symm.trans hh.1
  have hadd : addCmd cfg (popped cfg q n rest c) n c true = (popped cfg q n rest c,false) := by
    have hlen : ((popped cfg q n rest c).pdevList true).length = cfg.maxActive := by
      rw [popped_pdevList,pdevList_true,hfull]
    simp only [addCmd,hk,addScanCmd,addCmdToQueue,if_true,hlen]
  have henqueue := h.enqueueCmd_pop hd hactive hp hpool
  simp only [hadd,if_true] at henqueue
  refine ⟨_,henqueue,⟨rfl,rfl,?_,rfl,rfl⟩,?_,rfl,rfl,Or.inr ⟨rfl,hd,fun hh => ?_⟩⟩
  · rw [hpool]
    exact List.perm_append_singleton n rest
  · simp [toPool,popped,← h.free n hn]
  · rw [hactive] at hh
    cases hh

/-- A request that may be active, or that fits, is accepted. -/
theorem Wf.enqueueCmd_accept (hroom : Roomy cfg q) (hv : c.vdev ∈ cfg.vdevs)
    (hd : ¬ Disabled cfg q c) (hactive : (isActiveCmdAllowed cfg others q c).2 = active)
    (hp : isCmdPresentQueue cfg q c.key active = false) (hpool : q.pool = n::rest)
    (hfits : active = false → Fits cfg q c)
    (hlen : active = true → cfg.kind = .scan → q.active.length ≠ cfg.maxActive) :
    ∃ q', enqueueCmd cfg others q c = (q',some (n,active)) ∧
      Enqueued cfg others q n c active q' := by
  have hroom : (q.pdevList active).length ≠ (if active then cfg.maxActive else cfg.maxPending) ∧
      (cfg.kind = .nonScan → (q.vdevList active c.vdev).length ≠
        if active then cfg.vdevMaxActive else cfg.vdevMaxPending c.vdev) := by
    cases active with
    | true =>
      refine hroom.active_room hv (fun hk => ?_) fun hk => ?_
      · have hh := ((isActiveCmdAllowed_nonScan hk others q c).mp hactive).2
        cases hb : c.isBlocking with
        | true =>
          rw [if_pos hb] at hh
          rw [hh]
          exact Finset.notMem_empty _
        | false =>
          rw [if_neg (by simp [hb])] at hh
          exact hh.2.2
      · exact hlen rfl hk
    | false => exact ⟨(hfits rfl).pending,fun hk => (hfits rfl).vdevPending hk⟩
  obtain ⟨hok,hadd⟩ := addCmd_room cfg (popped cfg q n rest c) n c active
    (by simpa using hroom.1) fun hk => by simpa using hroom.2 hk
  have henqueue := h.enqueueCmd_pop hd hactive hp hpool
  have habsent : findCmd q (q.pdevList active) c.key = none := by
    rw [h.isCmdPresentQueue_eq] at hp
    simpa using hp
  simp only [hok,Bool.true_eq_false,if_false] at henqueue
  have hpool' : ∀ q' : Queue, q'.pool = rest → q.pool = n::q'.pool := fun q' hh => by
    rw [hh,hpool]
  cases active with
  | true =>
    refine ⟨_,henqueue,hd,hactive,habsent,hfits,hlen,hpool' _ hadd.pool,?_,fun b => ?_,fun hk b => ?_,
      hadd.bitmap,hadd.blockingCmdActive,hadd.blockingCmdWaiting⟩
    · simp only [setNode_nodes,hadd.nodes]
      simp [popped]
    · simpa using hadd.pdevList b
    · simpa using hadd.vdevList hk b
  | false =>
    refine ⟨_,henqueue,hd,hactive,habsent,hfits,hlen,hpool' _ hadd.pool,?_,fun b => ?_,fun hk b => ?_,
      hadd.bitmap,hadd.blockingCmdActive,hadd.blockingCmdWaiting⟩
    · exact hadd.nodes
    · simpa using hadd.pdevList b
    · simpa using hadd.vdevList hk b

theorem Wf.enqueueCmd_cases (hroom : Roomy cfg q) (others : ℕ) (hv : c.vdev ∈ cfg.vdevs) :
    (∃ q', enqueueCmd cfg others q c = (q',none) ∧ Rejected cfg others q c q') ∨
      ∃ n active q', enqueueCmd cfg others q c = (q',some (n,active)) ∧
        Enqueued cfg others q n c active q' := by
  by_cases hd : Disabled cfg q c
  · refine Or.inl ⟨q,?_,SameParts.refl q,rfl,rfl,rfl,Or.inl rfl⟩
    exact if_pos hd
  obtain ⟨active,hactive⟩ : ∃ b, (isActiveCmdAllowed cfg others q c).2 = b := ⟨_,rfl⟩
  by_cases hp : isCmdPresentQueue cfg q c.key active = true
  · have henqueue : enqueueCmd cfg others q c = _ := if_neg hd
    simp only [isActiveCmdAllowed_fst,hactive] at henqueue
    refine Or.inl ⟨_,henqueue.trans (if_pos hp),SameParts.setWaiting ..,rfl,rfl,rfl,
      Or.inr ⟨rfl,hd,fun hh hf => ?_⟩⟩
    rw [hactive] at hh
    rw [hh,hf.absent] at hp
    cases hp
  rw [Bool.not_eq_true] at hp
  cases hpool : q.pool with
  | nil =>
    have henqueue : enqueueCmd cfg others q c = _ := if_neg hd
    simp only [isActiveCmdAllowed_fst,hactive] at henqueue
    replace henqueue := henqueue.trans (if_neg (ne_true_of_eq_false hp))
    simp only [hpool] at henqueue
    exact Or.inl ⟨_,henqueue,⟨rfl,rfl,by rw [hpool],rfl,rfl⟩,rfl,rfl,rfl,
      Or.inr ⟨rfl,hd,fun _ hf => hf.pool hpool⟩⟩
  | cons n rest =>
    by_cases hfull : active = false ∧ ¬ Fits cfg q c
    · rw [hfull.1] at hactive hp
      exact Or.inl (h.enqueueCmd_full hd hactive hp hpool hfull.2)
    by_cases hlen : active = true ∧ cfg.kind = .scan ∧ q.active.length = cfg.maxActive
    · obtain ⟨rfl,hk,hlen⟩ := hlen
      exact Or.inl (h.enqueueCmd_activeFull hk hactive hp hpool hlen)
    refine Or.inr ⟨n,active,h.enqueueCmd_accept hroom hv hd hactive hp hpool (fun hh => ?_)
      fun hh hk hl => hlen ⟨hh,hk,hl⟩⟩
    by_contra hf
    exact hfull ⟨hh,hf⟩

end Enqueue

/-- A pending command has become active. -/
structure Promoted (cfg : Cfg) (q : Queue) (n : ℕ) (c : Command) (q' : Queue) : Prop where
  mem : n ∈ q.pending
  cmd : (q.nodes n).cmd = some c
  active : q'.active = place q.active n c.isHighPriority
  pending : q'.pending = q.pending.erase n
  pool : q'.pool = q.pool
  nodes : q'.nodes = Function.update q.nodes n { q.nodes n with markedForActivation := true }
  vdevActive : cfg.kind = .nonScan → q'.vdevActive =
    Function.update q.vdevActive c.vdev (place (q.vdevActive c.vdev) n c.isHighPriority)
  vdevPending : cfg.kind = .nonScan → q'.vdevPending =
    Function.update q.vdevPending c.vdev ((q.vdevPending c.vdev).erase n)
  bitmap : cfg.kind = .nonScan → q'.bitmap = insert c.vdev q.bitmap
  blockingCmdActive : cfg.kind = .nonScan →
    q'.blockingCmdActive = (q.blockingCmdActive || c.isBlocking)
  blockingCmdWaiting : cfg.kind = .nonScan → q'.blockingCmdWaiting =
    if c.isBlocking then (q.blockingCmdWaiting+2^16-1) % 2^16 else q.blockingCmdWaiting

/-- A pending command is promoted when its vdev has no active one, or the scan limit is not
reached. -/
theorem Wf.promote {cfg : Cfg} {q : Queue} (h : Wf cfg q) (hroom : Roomy cfg q) {n : ℕ}
    {c : Command} (hn : n ∈ q.pending) (hc : (q.nodes n).cmd = some c)
    (hb : cfg.kind = .nonScan → c.vdev ∉ q.bitmap)
    (hs : cfg.kind = .scan → q.active.length ≠ cfg.maxActive) :
    ∃ q', promote cfg q n = (q',some (n,c)) ∧ Promoted cfg q n c q' := by
  obtain ⟨d,hd,hv⟩ := h.held n (Or.inr hn)
  rw [← Option.some.inj (hc.symm.trans hd)] at hv
  have hlen := hroom.active_room hv hb hs
  have hfind : findCmd q (q.pdevList false) c.key = some n := h.findCmd_pending hn hc
  have hremove := h.removeCmd_some hfind hc (h.unmarked_pending hn)
  obtain ⟨hok,hadd⟩ := addCmd_room cfg (detach cfg q n c.vdev false) n c true
    (by simpa using hlen.1) fun hk => by
      rw [detach_vdevList cfg q n c.vdev false hk]
      simpa using hlen.2 hk
  have hpdev := hadd.pdevList
  have hvdev := hadd.vdevList
  have hbit := hadd.bitmap
  have hflag := hadd.blockingCmdActive
  have hw := hadd.blockingCmdWaiting
  have hpool := hadd.pool
  have hnodes := hadd.nodes
  simp only [Serialization.promote,hc,hremove,Bool.false_eq_true,if_false,detach_nodes,hok,
    Bool.true_eq_false]
  obtain ⟨q',hq'⟩ : ∃ q', (addCmd cfg (detach cfg q n c.vdev false) n c true).1 = q' := ⟨_,rfl⟩
  rw [hq'] at hpdev hvdev hbit hflag hw hpool hnodes ⊢
  have hactive : q'.active = place q.active n c.isHighPriority := by
    simpa using hpdev true
  have hpending : q'.pending = q.pending.erase n := by
    simpa using hpdev false
  have hva : cfg.kind = .nonScan → q'.vdevActive =
      Function.update q.vdevActive c.vdev (place (q.vdevActive c.vdev) n c.isHighPriority) := by
    intro hk
    have hh := hvdev hk true
    rw [detach_vdevList cfg q n c.vdev false hk] at hh
    simpa using hh
  have hvp : cfg.kind = .nonScan → q'.vdevPending =
      Function.update q.vdevPending c.vdev ((q.vdevPending c.vdev).erase n) := by
    intro hk
    have hh := hvdev hk false
    rw [detach_vdevList cfg q n c.vdev false hk] at hh
    simpa using hh
  rw [detach_pool] at hpool
  rw [detach_nodes] at hnodes
  rw [detach_blockingCmdWaiting] at hw
  simp only [detach_bitmap,detach_blockingCmdActive,if_true,Bool.true_and] at hbit hflag
  have hx : Function.update q'.nodes n { q'.nodes n with markedForActivation := true } =
      Function.update q.nodes n { q.nodes n with markedForActivation := true } := by rw [hnodes]
  by_cases hcount : cfg.kind = .nonScan ∧ c.isBlocking = true
  · rw [if_pos hcount]
    refine ⟨_,rfl,hn,hc,hactive,hpending,hpool,hx,hva,hvp,hbit,hflag,fun _ => ?_⟩
    rw [if_pos hcount.2]
    exact congrArg (fun w => (w+2^16-1) % 2^16) hw
  · rw [if_neg hcount]
    refine ⟨_,rfl,hn,hc,hactive,hpending,hpool,hx,hva,hvp,hbit,hflag,fun hk => ?_⟩
    rw [if_neg fun hh => hcount ⟨hk,hh⟩]
    exact hw

section Promote

variable {cfg : Cfg} {q q' : Queue} {n : ℕ} {c : Command} (hp : Promoted cfg q n c q')
include hp

theorem Promoted.vdevList (hk : cfg.kind = .nonScan) (b : Bool) : q'.vdevList b =
    Function.update (q.vdevList b) c.vdev
      (if b then place (q.vdevList b c.vdev) n c.isHighPriority
        else (q.vdevList b c.vdev).erase n) := by
  cases b
  · simpa using hp.vdevPending hk
  · simpa using hp.vdevActive hk

theorem Promoted.cmd_eq (m : ℕ) : (q'.nodes m).cmd = (q.nodes m).cmd := by
  rw [hp.nodes]
  by_cases hmn : m = n
  · rw [hmn,Function.update_self]
  · rw [Function.update_of_ne hmn]

theorem Wf.of_promoted (h : Wf cfg q) : Wf cfg q' where
  parts := by
    refine List.Perm.trans ?_ h.parts
    rw [hp.active,hp.pending,hp.pool]
    have h₁ := (place_perm q.active n c.isHighPriority).append_right (q.pending.erase n ++ q.pool)
    have h₂ := ((List.perm_cons_erase hp.mem).append_right q.pool).append_left q.active
    exact h₁.trans (List.perm_middle.symm.trans h₂.symm)
  held := fun m hm => by
    rw [hp.cmd_eq]
    refine h.held m ?_
    rw [hp.active,hp.pending,mem_place] at hm
    rcases hm with (rfl | hm) | hm
    · exact Or.inr hp.mem
    · exact Or.inl hm
    · exact Or.inr (List.mem_of_mem_erase hm)
  free := fun m hm => by
    rw [hp.pool] at hm
    have hmn : m ≠ n := fun hh => h.not_mem_pool (Or.inr hp.mem) (hh ▸ hm)
    rw [hp.nodes,Function.update_of_ne hmn]
    exact h.free m hm
  marked := fun m hm => by
    rw [hp.active,mem_place]
    by_cases hmn : m = n
    · exact Or.inl hmn
    · rw [hp.nodes,Function.update_of_ne hmn] at hm
      exact Or.inr (h.marked m hm)
  keys := fun a ha b hb hab => by
    rw [hp.pending] at ha hb
    rw [hp.cmd_eq,hp.cmd_eq] at hab
    exact h.keys a (List.mem_of_mem_erase ha) b (List.mem_of_mem_erase hb) hab
  room := by
    rw [hp.pending]
    exact (List.length_erase_le ..).trans h.room
  vdevs := fun hk b v => by
    rw [hp.vdevList hk]
    cases b with
    | true =>
      rw [if_pos rfl,pdevList_true,hp.active,filter_joined hp.nodes (fun hh =>
        h.not_mem_pending hh hp.mem) hp.cmd,h.vdevs hk,pdevList_true]
      congr 1
      exact funext (h.vdevs hk true)
    | false =>
      rw [if_neg (by decide),pdevList_false,hp.pending,filter_left hp.nodes h.pending_nodup hp.cmd,
        h.vdevs hk,pdevList_false]
      congr 1
      exact funext (h.vdevs hk false)

end Promote

section Enqueued

variable {cfg : Cfg} {others : ℕ} {q q' : Queue} {n : ℕ} {c : Command} {active : Bool}
  (he : Enqueued cfg others q n c active q')
include he

theorem Enqueued.mem_pool : n ∈ q.pool := by
  rw [he.pool]
  exact List.mem_cons_self

theorem Enqueued.cmd : (q'.nodes n).cmd = some c := by
  rw [he.nodes,Function.update_self]

theorem Enqueued.nodes_of_ne {m : ℕ} (hm : m ≠ n) : q'.nodes m = q.nodes m := by
  rw [he.nodes,Function.update_of_ne hm]

theorem Enqueued.active_eq :
    q'.active = if active then place q.active n c.isHighPriority else q.active := by
  have hh := he.pdevList true
  cases active <;> simpa using hh

theorem Enqueued.pending_eq :
    q'.pending = if active then q.pending else place q.pending n c.isHighPriority := by
  have hh := he.pdevList false
  cases active <;> simpa using hh

theorem Enqueued.mem_cases {m : ℕ} (hm : m ∈ q'.active ∨ m ∈ q'.pending) :
    m = n ∨ m ∈ q.active ∨ m ∈ q.pending := by
  rw [he.active_eq,he.pending_eq] at hm
  cases active <;> simp at hm <;> tauto

theorem Enqueued.key_ne (ha : active = false) {m : ℕ} (hm : m ∈ q.pending) :
    (q.nodes m).cmd.map Command.key ≠ some c.key := by
  have hh := he.absent
  rw [ha,pdevList_false] at hh
  simpa using List.find?_eq_none.mp hh m hm

theorem Enqueued.pending_keys (h : Wf cfg q) : ∀ a ∈ q'.pending, ∀ b ∈ q'.pending,
    (q'.nodes a).cmd.map Command.key = (q'.nodes b).cmd.map Command.key → a = b := by
  have hn : n ∉ q.pending := fun hh => h.not_mem_pool (Or.inr hh) he.mem_pool
  have hkey : (q'.nodes n).cmd.map Command.key = some c.key := by rw [he.cmd]; rfl
  intro a ha b hb hab
  rw [he.pending_eq] at ha hb
  cases hact : active with
  | true =>
    rw [if_pos hact] at ha hb
    have hne : ∀ m ∈ q.pending, m ≠ n := fun m hm hh => hn (hh ▸ hm)
    rw [he.nodes_of_ne (hne a ha),he.nodes_of_ne (hne b hb)] at hab
    exact h.keys a ha b hb hab
  | false =>
    rw [if_neg (by simp [hact]),mem_place] at ha hb
    by_cases han : a = n <;> by_cases hbn : b = n
    · rw [han,hbn]
    · rw [han,hkey,he.nodes_of_ne hbn] at hab
      exact absurd hab.symm (he.key_ne hact (hb.resolve_left hbn))
    · rw [hbn,hkey,he.nodes_of_ne han] at hab
      exact absurd hab (he.key_ne hact (ha.resolve_left han))
    · rw [he.nodes_of_ne han,he.nodes_of_ne hbn] at hab
      exact h.keys a (ha.resolve_left han) b (hb.resolve_left hbn) hab

theorem Wf.of_enqueued (h : Wf cfg q) (hv : c.vdev ∈ cfg.vdevs) : Wf cfg q' := by
  have hnot : n ∉ q.active ∧ n ∉ q.pending := ⟨fun hh => h.not_mem_pool (Or.inl hh) he.mem_pool,
    fun hh => h.not_mem_pool (Or.inr hh) he.mem_pool⟩
  constructor
  · refine List.Perm.trans ?_ h.parts
    rw [he.active_eq,he.pending_eq,he.pool]
    cases active with
    | true =>
      have hh := (place_perm q.active n c.isHighPriority).append_right (q.pending ++ q'.pool)
      refine hh.trans (List.perm_middle.symm.trans ?_)
      exact List.perm_middle.symm.append_left q.active
    | false =>
      have hh := (place_perm q.pending n c.isHighPriority).append_right q'.pool
      exact (hh.trans List.perm_middle.symm).append_left q.active
  · intro m hm
    by_cases hmn : m = n
    · exact ⟨c,hmn ▸ he.cmd,hv⟩
    · rw [he.nodes_of_ne hmn]
      exact h.held m ((he.mem_cases hm).resolve_left hmn)
  · intro m hm
    have hnodup : (n::q'.pool).Nodup := he.pool ▸
      (List.nodup_append.mp (List.nodup_append.mp h.nodup).2.1).2.1
    have hmn : m ≠ n := fun hh => (List.nodup_cons.mp hnodup).1 (hh ▸ hm)
    rw [he.nodes_of_ne hmn]
    exact h.free m (he.pool ▸ List.mem_cons_of_mem _ hm)
  · intro m hm
    rw [he.active_eq]
    by_cases hmn : m = n
    · rw [hmn,he.nodes,Function.update_self] at hm
      cases active
      · cases hm
      · exact mem_place.mpr (Or.inl hmn)
    · rw [he.nodes_of_ne hmn] at hm
      have hh := h.marked m hm
      cases active
      · exact hh
      · exact mem_place.mpr (Or.inr hh)
  · exact he.pending_keys h
  · rw [he.pending_eq]
    have hroom := h.room
    cases active with
    | true => exact hroom
    | false =>
      have hne := (he.fits rfl).pending
      simp only [Bool.false_eq_true,if_false,length_place]
      omega
  · intro hk b v
    rw [he.vdevList hk,he.pdevList]
    have hnb : n ∉ q.pdevList b := by
      cases b
      · exact hnot.2
      · exact hnot.1
    by_cases hb : b = active
    · rw [if_pos hb,if_pos hb,filter_joined he.nodes hnb rfl,h.vdevs hk]
      congr 1
      exact funext (h.vdevs hk b)
    · rw [if_neg hb,if_neg hb,h.vdevs hk,filter_same he.nodes hnb]

end Enqueued

/-- What a walk over a list of nodes changes: flags of these nodes. -/
structure Walked (l : List ℕ) (q q' : Queue) : Prop extends Marks q q' where
  outside : ∀ n ∉ l, q'.nodes n = q.nodes n

theorem Walked.refl (l : List ℕ) (q : Queue) : Walked l q q := ⟨Marks.refl q,fun _ _ => rfl⟩

theorem Walked.trans {l l' : List ℕ} {q q' q'' : Queue} (h : Walked l q q')
    (h' : Walked l' q' q'') (hl : ∀ n ∈ l', n ∈ l) : Walked l q q'' :=
  ⟨h.toMarks.trans h'.toMarks,fun n hn =>
    (h'.outside n fun hh => hn (hl n hh)).trans (h.outside n hn)⟩

theorem walked_setNode {l : List ℕ} {q : Queue} {n : ℕ} {x : CommandList} (hn : n ∈ l)
    (hpool : ∀ n ∈ l, n ∉ q.pool) (hc : x.cmd = (q.nodes n).cmd)
    (hm : x.markedForActivation = (q.nodes n).markedForActivation) :
    Walked l q (q.setNode n x) := by
  refine ⟨marks_setNode (hpool n hn) hc hm,fun m hml => ?_⟩
  have hmn : m ≠ n := fun hh => hml (hh ▸ hn)
  rw [setNode_nodes,Function.update_of_ne hmn]

theorem isBlocking_congr {q q' : Queue} {n : ℕ} (h : (q'.nodes n).cmd = (q.nodes n).cmd) :
    isBlocking q' n = isBlocking q n := by
  rw [isBlocking,isBlocking,h]

theorem vdevCmdActive_congr {q q' : Queue} {n : ℕ} (h : (q'.nodes n).cmd = (q.nodes n).cmd)
    (hb : q'.bitmap = q.bitmap) : vdevCmdActive q' n = vdevCmdActive q n := by
  rw [vdevCmdActive,vdevCmdActive,h,hb]

/-- Where the walk over the pending list stops: at a command that can go, or at a blocking
command that cannot, or at the end, with the vdevs of all commands active and no mark left. -/
inductive ScanStop (q q' : Queue) (l : List ℕ) : Option ℕ → Prop
  | found (n : ℕ) (hn : n ∈ l) (hv : vdevCmdActive q n = false)
      (hb : isBlocking q n = true → q.bitmap = ∅) : ScanStop q q' l (some n)
  | blocked (n : ℕ) (hn : n ∈ l) (hb : isBlocking q n = true) (hne : q.bitmap ≠ ∅) :
      ScanStop q q' l none
  | finish (hv : ∀ n ∈ l, vdevCmdActive q n = true) (hb : ∀ n ∈ l, isBlocking q n = false)
      (hm : ∀ n ∈ l, (q'.nodes n).markedForMovement = false) : ScanStop q q' l none

theorem markForMovement_walked {l : List ℕ} {q : Queue} {n : ℕ} (b : Bool) (hn : n ∈ l)
    (hpool : ∀ n ∈ l, n ∉ q.pool) : Walked l q (markForMovement q n b) :=
  walked_setNode hn hpool rfl rfl

theorem ScanStop.cons {q q₁ q' : Queue} {n : ℕ} {l : List ℕ} {r : Option ℕ}
    (hmarks : Marks q q₁) (hv : vdevCmdActive q n = true) (hb : isBlocking q n = false)
    (hm : (q'.nodes n).markedForMovement = false) (h : ScanStop q₁ q' l r) :
    ScanStop q q' (n::l) r := by
  have hv' : ∀ m, vdevCmdActive q₁ m = vdevCmdActive q m := fun m =>
    vdevCmdActive_congr (hmarks.cmd m) hmarks.bitmap
  have hb' : ∀ m, isBlocking q₁ m = isBlocking q m := fun m => isBlocking_congr (hmarks.cmd m)
  cases h with
  | found m hm' hvm hbm =>
    rw [hv'] at hvm
    rw [hb',hmarks.bitmap] at hbm
    exact .found m (List.mem_cons_of_mem _ hm') hvm hbm
  | blocked m hm' hbm hne =>
    rw [hb'] at hbm
    rw [hmarks.bitmap] at hne
    exact .blocked m (List.mem_cons_of_mem _ hm') hbm hne
  | finish hvl hbl hml =>
    refine .finish (fun m hm' => ?_) (fun m hm' => ?_) fun m hm' => ?_ <;>
      rcases List.mem_cons.mp hm' with rfl | hm'
    · exact hv
    · exact hv' m ▸ hvl m hm'
    · exact hb
    · exact hb' m ▸ hbl m hm'
    · exact hm
    · exact hml m hm'

theorem scanPending_spec {q : Queue} {l : List ℕ} (hl : l.Nodup) (hpool : ∀ n ∈ l, n ∉ q.pool) :
    Walked l q (scanPending q l).1 ∧
      ScanStop q (scanPending q l).1 l (scanPending q l).2 := by
  induction l generalizing q with
  | nil => exact ⟨Walked.refl _ q,.finish (by simp) (by simp) (by simp)⟩
  | cons n rest ih =>
    rw [scanPending]
    cases hblock : isBlocking q n && anyVdevCmdActive q with
    | true =>
      rw [if_pos rfl]
      rw [Bool.and_eq_true,anyVdevCmdActive,Bool.not_eq_true',decide_eq_false_iff_not] at hblock
      exact ⟨Walked.refl _ q,.blocked n List.mem_cons_self hblock.1 hblock.2⟩
    | false =>
      rw [if_neg (by decide)]
      have hwalk : Walked (n::rest) q (markNext q rest) := by
        cases rest with
        | nil => exact Walked.refl _ q
        | cons m _ => exact markForMovement_walked true (by simp) hpool
      cases hv : vdevCmdActive q n with
      | false =>
        rw [if_neg (by decide)]
        refine ⟨hwalk,.found n List.mem_cons_self hv fun hb => ?_⟩
        rw [hb,Bool.true_and,anyVdevCmdActive,Bool.not_eq_false',decide_eq_true_eq] at hblock
        exact hblock
      | true =>
        rw [if_pos rfl]
        have hpool₁ : ∀ m ∈ n::rest, m ∉ (markNext q rest).pool := fun m hm hh =>
          hpool m hm (hwalk.pool.mem_iff.mp hh)
        have hwalk₂ : Walked (n::rest) q (markForMovement (markNext q rest) n false) :=
          hwalk.trans (markForMovement_walked false List.mem_cons_self hpool₁) fun _ hm => hm
        have hpool₂ : ∀ m ∈ rest, m ∉ (markForMovement (markNext q rest) n false).pool := fun m hm =>
          hpool₁ m (List.mem_cons_of_mem _ hm)
        obtain ⟨h₁,h₂⟩ := ih (List.nodup_cons.mp hl).2 hpool₂
        refine ⟨hwalk₂.trans h₁ fun m hm => List.mem_cons_of_mem _ hm,
          h₂.cons hwalk₂.toMarks hv ?_ ?_⟩
        · -- a blocking command does not get past the test without an active vdev
          have hne : q.bitmap ≠ ∅ := fun hh => by
            rw [vdevCmdActive] at hv
            cases hc : (q.nodes n).cmd <;> simp [hc,hh] at hv
          cases hb : isBlocking q n with
          | false => rfl
          | true => simp [hb,anyVdevCmdActive,hne] at hblock
        · rw [h₁.outside n (List.nodup_cons.mp hl).1,markForMovement,setNode_nodes,
            Function.update_self]

section Cancel

theorem CmdRef.key_congr {q q' : Queue} (h : ∀ n, (q'.nodes n).cmd = (q.nodes n).cmd)
    (r : CmdRef) : r.key q' = r.key q := by
  cases r with
  | value k => rfl
  | node n uid => rw [CmdRef.key,CmdRef.key,h]

theorem Filter.selects_congr {q q' : Queue} (h : ∀ n, (q'.nodes n).cmd = (q.nodes n).cmd)
    (f : Filter) (n : ℕ) : f.selects q' n = f.selects q n := by
  rw [Filter.selects,Filter.selects,h]
  simp only [CmdRef.key_congr h]

/-- The cancel loop marks commands on its way and stops at one that its filter selects. -/
theorem cancelScan_spec (f : Filter) (active timerFound : Bool) {q : Queue} {l : List ℕ}
    (hpool : ∀ n ∈ l, n ∉ q.pool) (pnode : Option ℕ) (qsize : ℕ) :
    let r := cancelScan f active timerFound q l pnode qsize
    Walked l q r.1 ∧ SameMoves q r.1 ∧ ∀ n p k, r.2 = some (n,p,k) →
      n ∈ l ∧ f.selects q n = true ∧
        (active = true → (q.nodes n).markedForActivation = false) := by
  induction l generalizing q pnode qsize with
  | nil => exact ⟨Walked.refl _ q,fun _ => rfl,fun _ _ _ hh => by cases hh⟩
  | cons a rest ih =>
    cases qsize with
    | zero => exact ⟨Walked.refl _ q,fun _ => rfl,fun _ _ _ hh => by cases hh⟩
    | succ qsize =>
      have hrest : ∀ n ∈ rest, n ∉ q.pool := fun n hn => hpool n (List.mem_cons_of_mem _ hn)
      simp only [cancelScan]
      split
      · obtain ⟨h₁,h₂,h₃⟩ := ih hrest (some a) qsize
        refine ⟨(Walked.refl (a::rest) q).trans h₁ fun m => List.mem_cons_of_mem _,h₂,
          fun n p k hh => ?_⟩
        obtain ⟨hn,hs,hm⟩ := h₃ n p k hh
        exact ⟨List.mem_cons_of_mem _ hn,hs,hm⟩
      · next hsel =>
        rw [Bool.not_eq_false] at hsel
        split
        · split
          · have hwalk : Walked (a::rest) q
                (q.setNode a { q.nodes a with activeMarkedForCancel := true }) :=
              walked_setNode List.mem_cons_self hpool rfl rfl
            obtain ⟨h₁,h₂,h₃⟩ := ih (q := q.setNode a { q.nodes a with
              activeMarkedForCancel := true }) hrest pnode qsize
            have hmoves : SameMoves q (q.setNode a { q.nodes a with
              activeMarkedForCancel := true }) := sameMoves_setNode rfl
            refine ⟨hwalk.trans h₁ fun m => List.mem_cons_of_mem _,
              fun n => (h₂ n).trans (hmoves n),fun n p k hh => ?_⟩
            obtain ⟨hn,hs,hm⟩ := h₃ n p k hh
            rw [Filter.selects_congr hwalk.cmd] at hs
            rw [hwalk.marked] at hm
            exact ⟨List.mem_cons_of_mem _ hn,hs,hm⟩
          · next hmark =>
            rw [Bool.not_eq_true] at hmark
            split
            · exact ⟨Walked.refl _ q,fun _ => rfl,fun _ _ _ hh => by cases hh⟩
            · refine ⟨Walked.refl _ q,fun _ => rfl,fun n p k hh => ?_⟩
              cases hh
              exact ⟨List.mem_cons_self,hsel,fun _ => hmark⟩
        · next hact =>
          refine ⟨Walked.refl _ q,fun _ => rfl,fun n p k hh => ?_⟩
          cases hh
          exact ⟨List.mem_cons_self,hsel,fun hh => absurd hh hact⟩

theorem mem_of_after {l : List ℕ} {p : Option ℕ} {n : ℕ} (h : n ∈ after l p) : n ∈ l := by
  cases p with
  | none => exact h
  | some p => exact (List.dropWhile_suffix _).subset (List.mem_of_mem_tail h)

/-- One pass of a cancel marks commands, and may take one out that its filter selects. -/
theorem Wf.cancelCmd_cases {cfg : Cfg} {q : Queue} (h : Wf cfg q) (f : Filter)
    (active timerFound : Bool) (pnode : Option ℕ) (qsize : ℕ) :
    (∃ q', cancelCmd cfg q f active timerFound pnode qsize = (q',none) ∧ Marks q q' ∧
      SameMoves q q') ∨
    ∃ q₁ n c p k, Marks q q₁ ∧ SameMoves q q₁ ∧ n ∈ q.pdevList active ∧
      (q.nodes n).cmd = some c ∧ f.selects q n = true ∧
      (q.nodes n).markedForActivation = false ∧
      cancelCmd cfg q f active timerFound pnode qsize =
        (takeOut cfg q₁ n c.vdev active,some (n,c,p,k)) := by
  have hpool : ∀ n ∈ after (q.pdevList active) pnode, n ∉ q.pool := fun n hn =>
    h.not_mem_pool (mem_of_pdevList (mem_of_after hn))
  obtain ⟨hwalk,hmoves,hsome⟩ := cancelScan_spec f active timerFound hpool pnode qsize
  cases hr : (cancelScan f active timerFound q (after (q.pdevList active) pnode) pnode qsize).2 with
  | none =>
    refine Or.inl ⟨_,?_,hwalk.toMarks,hmoves⟩
    simp only [cancelCmd,hr]
  | some r =>
    obtain ⟨n,p,k⟩ := r
    obtain ⟨hn,hsel,hmark⟩ := hsome n p k hr
    obtain ⟨c,hc,-⟩ := h.held_list (mem_of_after hn)
    refine Or.inr ⟨_,n,c,p,k,hwalk.toMarks,hmoves,mem_of_after hn,hc,hsel,?_,?_⟩
    · cases active with
      | true => exact hmark rfl
      | false => exact h.unmarked_pending (mem_of_after hn)
    · have hc' := (hwalk.cmd n).trans hc
      simp only [cancelCmd,hr,hc']
      rfl

end Cancel

end Serialization
end MarbleModules
