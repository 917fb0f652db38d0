import Mathlib.Tactic
import MarbleModules.Dsc

/-! What the operations of the synchronization core do to transitions and queues, stated once
for each, and the scheduling invariant they keep. -/
namespace MarbleModules
namespace Dsc

/-- The node has an active transition, and it has waiters. -/
def Active (s : Ctx) (n : Node) : Prop := transActive (s.trans n) = true
def Waiting (s : Ctx) (n : Node) : Prop := transQueued (s.trans n) = true

theorem active_congr {s s' : Ctx} {n : Node} (h : s'.trans n = s.trans n) :
    Active s' n ↔ Active s n := by
  rw [Active,Active,h]

theorem waiting_congr {s s' : Ctx} {n : Node} (h : s'.trans n = s.trans n) :
    Waiting s' n ↔ Waiting s n := by
  rw [Waiting,Waiting,h]

theorem not_waiting_iff {s : Ctx} {n : Node} : ¬ Waiting s n ↔ (s.trans n).queue = [] := by
  simp [Waiting,transQueued]

theorem not_active_iff {s : Ctx} {n : Node} :
    ¬ Active s n ↔ (s.trans n).activeDesc = none := by
  simp [Active,transActive]

namespace Ctx

@[simp] theorem setTrans_trans_self (s : Ctx) (n : Node) (t : Trans) :
    (s.setTrans n t).trans n = t := by
  simp [setTrans]

theorem setTrans_trans_of_ne (s : Ctx) {n m : Node} (t : Trans) (h : m ≠ n) :
    (s.setTrans n t).trans m = s.trans m := by
  simp [setTrans,h]

end Ctx

/-- What triggering does to a node's transition. -/
def pop (t : Trans) : Trans :=
  match t.queue with
  | [] => t
  | tran::rest => transStart { t with queue := rest } tran.desc

theorem pop_of_empty {t : Trans} (h : t.queue = []) : pop t = t := by
  rw [pop,h]

/-- At every node those released, in this order, and those still queued are those that have
queued up. -/
def Logged (s : Ctx) : Prop :=
  ∀ n, (s.released n).map Prod.fst ++ (s.trans n).queue = s.queued n

/-- From `s` to `s'` the first waiter of each node of `T` has been let in, and nothing else
has changed. -/
structure Triggered (s s' : Ctx) (T : Set Node) : Prop where
  alive : s'.alive = s.alive
  psocs : s'.psocs = s.psocs
  vdevs : s'.vdevs = s.vdevs
  ops : s'.ops = s.ops
  calls : s'.calls = s.calls
  nextNode : s'.nextNode = s.nextNode
  nextTran : s'.nextTran = s.nextTran
  queued : s'.queued = s.queued
  hit : ∀ n ∈ T, s'.trans n = pop (s.trans n)
  miss : ∀ n ∉ T, s'.trans n = s.trans n
  logged : Logged s → Logged s'

namespace Triggered

theorem refl (s : Ctx) : Triggered s s ∅ where
  alive := rfl
  psocs := rfl
  vdevs := rfl
  ops := rfl
  calls := rfl
  nextNode := rfl
  nextTran := rfl
  queued := rfl
  hit := fun _ hn => absurd hn (Set.notMem_empty _)
  miss := fun _ _ => rfl
  logged := id

theorem trans {s₁ s₂ s₃ : Ctx} {T T' : Set Node} (h : Triggered s₁ s₂ T)
    (h' : Triggered s₂ s₃ T') (hd : ∀ n ∈ T, n ∉ T') : Triggered s₁ s₃ (T ∪ T') where
  alive := h'.alive.trans h.alive
  psocs := h'.psocs.trans h.psocs
  vdevs := h'.vdevs.trans h.vdevs
  ops := h'.ops.trans h.ops
  calls := h'.calls.trans h.calls
  nextNode := h'.nextNode.trans h.nextNode
  nextTran := h'.nextTran.trans h.nextTran
  queued := h'.queued.trans h.queued
  hit := by
    rintro n (hn|hn)
    · rw [h'.miss n (hd n hn),h.hit n hn]
    · rw [h'.hit n hn,h.miss n (fun hT => hd n hT hn)]
  miss := by
    intro n hn
    rw [h'.miss n (fun hT => hn (Or.inr hT)),h.miss n (fun hT => hn (Or.inl hT))]
  logged := fun hl => h'.logged (h.logged hl)

/-- Nodes without waiters may be added to the set. -/
theorem mono {s s' : Ctx} {T T' : Set Node} (h : Triggered s s' T) (hsub : T ⊆ T')
    (hempty : ∀ n ∈ T', n ∉ T → (s.trans n).queue = []) : Triggered s s' T' where
  alive := h.alive
  psocs := h.psocs
  vdevs := h.vdevs
  ops := h.ops
  calls := h.calls
  nextNode := h.nextNode
  nextTran := h.nextTran
  queued := h.queued
  hit := by
    intro n hn
    by_cases hT : n ∈ T
    · exact h.hit n hT
    · rw [h.miss n hT,pop_of_empty (hempty n hn hT)]
  miss := fun n hn => h.miss n fun hT => hn (hsub hT)
  logged := h.logged

theorem active_iff {s s' : Ctx} {T : Set Node} (h : Triggered s s' T) (n : Node) :
    Active s' n ↔ Active s n ∨ n ∈ T ∧ Waiting s n := by
  by_cases hn : n ∈ T
  · rw [Active,h.hit n hn,pop]
    cases hq : (s.trans n).queue with
    | nil => simp [Active,Waiting,transQueued,hq]
    | cons tran rest => simp [hn,Waiting,transQueued,hq,transStart,transActive]
  · rw [active_congr (h.miss n hn)]
    simp [hn]

theorem waiting_of {s s' : Ctx} {T : Set Node} (h : Triggered s s' T) {n : Node}
    (hw : Waiting s' n) : Waiting s n := by
  by_cases hn : n ∈ T
  · by_contra hc
    rw [not_waiting_iff] at hc
    rw [Waiting,h.hit n hn,pop_of_empty hc] at hw
    exact not_waiting_iff.mpr hc hw
  · exact (waiting_congr (h.miss n hn)).mp hw

theorem waiting_iff_of_notMem {s s' : Ctx} {T : Set Node} (h : Triggered s s' T) {n : Node}
    (hn : n ∉ T) : Waiting s' n ↔ Waiting s n :=
  waiting_congr (h.miss n hn)

end Triggered

/-- Triggering one node answers whether somebody was let in. -/
theorem transTrigger_triggered (s : Ctx) (n : Node) :
    Triggered s (transTrigger s n).1 {n} ∧ ((transTrigger s n).2 = true ↔ Waiting s n) := by
  rw [transTrigger]
  cases hq : (s.trans n).queue with
  | nil =>
    refine ⟨(Triggered.refl s).mono (Set.empty_subset _) ?_,?_⟩
    · rintro m rfl -
      exact hq
    · simp [Waiting,transQueued,hq]
  | cons tran rest =>
    refine ⟨⟨rfl,rfl,rfl,rfl,rfl,rfl,rfl,rfl,?_,?_,?_⟩,by simp [Waiting,transQueued,hq]⟩
    · rintro m rfl
      simp [Ctx.setTrans,pop,hq]
    · intro m hm
      simp [Ctx.setTrans,Set.mem_singleton_iff.not.mp hm]
    · intro hl m
      by_cases hm : m = n
      · subst hm
        simp [Ctx.setTrans,transStart,← hl m,hq]
      · simpa [Ctx.setTrans,hm] using hl m

theorem foldl_triggerVdevs_triggered (p : ℕ) (vs : List ℕ) (hvs : vs.Nodup) (s : Ctx) :
    Triggered s (vs.foldl (fun s v => (transTrigger s (.vdev p v)).1) s)
      {n | ∃ v ∈ vs, n = .vdev p v} := by
  induction vs generalizing s with
  | nil => simpa using Triggered.refl s
  | cons v vs ih =>
    obtain ⟨hv,hvs⟩ := List.nodup_cons.mp hvs
    have hh := (transTrigger_triggered s (.vdev p v)).1.trans (ih hvs _) (by
      rintro n rfl ⟨w,hw,heq⟩
      cases heq
      exact hv hw)
    rw [List.foldl_cons]
    convert hh using 1
    ext n
    simp

theorem triggerVdevs_triggered {s : Ctx} {p : ℕ} (hvs : (s.vdevs p).Nodup) :
    Triggered s (triggerVdevs s p) {n | ∃ v ∈ s.vdevs p, n = .vdev p v} :=
  foldl_triggerVdevs_triggered p _ hvs s

/-- What a psoc without a transition lets in: its own waiter, or else one of each vdev. -/
def psocSet (s : Ctx) (p : ℕ) : Set Node :=
  {n | n = .psoc p ∨ ¬ Waiting s (.psoc p) ∧ ∃ v ∈ s.vdevs p, n = .vdev p v}

theorem triggerPsoc_triggered {s : Ctx} {p : ℕ} (hvs : (s.vdevs p).Nodup) :
    Triggered s (if (transTrigger s (.psoc p)).2 then (transTrigger s (.psoc p)).1
      else triggerVdevs s p) (psocSet s p) := by
  obtain ⟨ht,hb⟩ := transTrigger_triggered s (.psoc p)
  by_cases hw : Waiting s (.psoc p)
  · rw [if_pos (hb.mpr hw)]
    convert ht using 1
    ext n
    simp [psocSet,hw]
  · rw [if_neg fun hc => hw (hb.mp hc)]
    refine (triggerVdevs_triggered hvs).mono ?_ ?_
    · rintro n ⟨v,hv,rfl⟩
      exact Or.inr ⟨hw,v,hv,rfl⟩
    · rintro n (rfl|⟨-,hn⟩) hnot
      · exact not_waiting_iff.mp hw
      · exact absurd hn hnot

theorem foldl_triggerPsoc_triggered (ps : List ℕ) (hps : ps.Nodup) (s : Ctx)
    (hvs : ∀ p ∈ ps, (s.vdevs p).Nodup) :
    Triggered s (ps.foldl (fun s p => let r := transTrigger s (.psoc p)
      if r.2 then r.1 else triggerVdevs s p) s) {n | ∃ p ∈ ps, n ∈ psocSet s p} := by
  induction ps generalizing s with
  | nil => simpa using Triggered.refl s
  | cons p ps ih =>
    obtain ⟨hp,hps⟩ := List.nodup_cons.mp hps
    have hfirst := triggerPsoc_triggered (hvs p List.mem_cons_self)
    set s₁ := if (transTrigger s (.psoc p)).2 then (transTrigger s (.psoc p)).1
      else triggerVdevs s p with hs₁
    have hsame : ∀ q ∈ ps, psocSet s₁ q = psocSet s q := by
      intro q hq
      have hne : q ≠ p := fun heq => hp (heq ▸ hq)
      have hout : Node.psoc q ∉ psocSet s p := by
        simp [psocSet,hne]
      rw [psocSet,psocSet,hfirst.waiting_iff_of_notMem hout,hfirst.vdevs]
    have hrest := ih hps s₁ fun q hq => by
      rw [hfirst.vdevs]
      exact hvs q (List.mem_cons_of_mem _ hq)
    have hh := hfirst.trans hrest (by
      rintro n hn ⟨q,hq,hnq⟩
      rw [hsame q hq] at hnq
      have hne : q ≠ p := fun heq => hp (heq ▸ hq)
      rcases hn with rfl|⟨-,v,-,rfl⟩ <;> rcases hnq with heq|⟨-,w,-,heq⟩ <;> cases heq <;>
        exact hne rfl)
    rw [List.foldl_cons]
    convert hh using 1
    ext n
    constructor
    · rintro ⟨q,hq,hn⟩
      rcases List.mem_cons.mp hq with rfl|hq
      · exact Or.inl hn
      · exact Or.inr ⟨q,hq,(hsame q hq).symm ▸ hn⟩
    · rintro (hn|⟨q,hq,hn⟩)
      · exact ⟨p,List.mem_cons_self,hn⟩
      · exact ⟨q,List.mem_cons_of_mem _ hq,hsame q hq ▸ hn⟩

/-- The tree's lists are in order of creation, and what is not in the tree is at rest. -/
structure Shape (s : Ctx) : Prop where
  alive : s.alive = false → s.psocs = []
  psocs_sorted : s.psocs.Pairwise (· < ·)
  psocs_lt : ∀ p ∈ s.psocs, p < s.nextNode
  vdevs_sorted : ∀ p, (s.vdevs p).Pairwise (· < ·)
  vdevs_lt : ∀ p, ∀ v ∈ s.vdevs p, v < s.nextNode
  vdevs_nil : ∀ p, p ∉ s.psocs → s.vdevs p = []
  inactive : ∀ n, ¬ Exists s n → ¬ Active s n
  unqueued : ∀ n, ¬ Exists s n → ¬ Waiting s n

/-- What a waiter of a node waits for. -/
def Ahead (s : Ctx) : Node → Prop
  | .driver => Active s .driver ∨
      ∃ p ∈ s.psocs, Active s (.psoc p) ∨ ∃ v ∈ s.vdevs p, Active s (.vdev p v)
  | .psoc p => (Active s .driver ∨ Waiting s .driver) ∨
      Active s (.psoc p) ∨ ∃ v ∈ s.vdevs p, Active s (.vdev p v)
  | .vdev p v => (Active s .driver ∨ Waiting s .driver) ∨
      (Active s (.psoc p) ∨ Waiting s (.psoc p)) ∨ Active s (.vdev p v)

/-- No two nodes of one path are active. -/
structure Apart (s : Ctx) : Prop where
  driver_psoc : ∀ p ∈ s.psocs, Active s .driver → ¬ Active s (.psoc p)
  driver_vdev : ∀ p ∈ s.psocs, ∀ v ∈ s.vdevs p, Active s .driver → ¬ Active s (.vdev p v)
  psoc_vdev : ∀ p ∈ s.psocs, ∀ v ∈ s.vdevs p, Active s (.psoc p) → ¬ Active s (.vdev p v)

/-- Moreover whoever waits is waiting for somebody. -/
structure Sched (s : Ctx) : Prop extends Apart s where
  ahead : ∀ n, Exists s n → Waiting s n → Ahead s n

theorem Shape.nodup_vdevs {s : Ctx} (h : Shape s) (p : ℕ) : (s.vdevs p).Nodup :=
  (h.vdevs_sorted p).imp ne_of_lt

theorem Shape.nodup_psocs {s : Ctx} (h : Shape s) : s.psocs.Nodup :=
  h.psocs_sorted.imp ne_of_lt

theorem activeOrQueued_iff {s : Ctx} {n : Node} :
    transActiveOrQueued (s.trans n) = true ↔ Active s n ∨ Waiting s n := by
  simp [transActiveOrQueued,Active,Waiting]

theorem psocTransActiveDownTree_iff {s : Ctx} {p : ℕ} :
    psocTransActiveDownTree s p = true ↔ ∃ v ∈ s.vdevs p, Active s (.vdev p v) := by
  simp [psocTransActiveDownTree,Active]

theorem driverTransActiveDownTree_iff {s : Ctx} :
    driverTransActiveDownTree s = true ↔
      ∃ p ∈ s.psocs, Active s (.psoc p) ∨ ∃ v ∈ s.vdevs p, Active s (.vdev p v) := by
  simp [driverTransActiveDownTree,Active]

theorem driverCanTrigger_iff {s : Ctx} :
    driverCanTrigger s = true ↔ ¬ Active s .driver ∧
      ¬ ∃ p ∈ s.psocs, Active s (.psoc p) ∨ ∃ v ∈ s.vdevs p, Active s (.vdev p v) := by
  rw [driverCanTrigger,Bool.and_eq_true,Bool.not_eq_true',Bool.not_eq_true',
    ← Bool.not_eq_true,← Bool.not_eq_true,driverTransActiveDownTree_iff]
  rfl

theorem psocCanTrigger_iff {s : Ctx} {p : ℕ} :
    psocCanTrigger s p = true ↔ ¬ (Active s .driver ∨ Waiting s .driver) ∧
      ¬ Active s (.psoc p) ∧ ¬ ∃ v ∈ s.vdevs p, Active s (.vdev p v) := by
  rw [psocCanTrigger,Bool.and_eq_true,Bool.and_eq_true,Bool.not_eq_true',Bool.not_eq_true',
    Bool.not_eq_true',← Bool.not_eq_true,← Bool.not_eq_true,← Bool.not_eq_true,
    activeOrQueued_iff,psocTransActiveDownTree_iff,and_assoc]
  rfl

/-- A node's own check lets it go ahead when no transition above, at or below it is active
and none above or at it has waiters. -/
theorem canTrans_driver_iff {s : Ctx} {fl : Flags} :
    canTrans s fl .driver = .success ↔ ¬ (Active s .driver ∨ Waiting s .driver) ∧
      ¬ ∃ p ∈ s.psocs, Active s (.psoc p) ∨ ∃ v ∈ s.vdevs p, Active s (.vdev p v) := by
  rw [← activeOrQueued_iff,← driverTransActiveDownTree_iff]
  simp [canTrans,driverCanTrans]

theorem canTrans_psoc_iff {s : Ctx} {fl : Flags} {p : ℕ} :
    canTrans s fl (.psoc p) = .success ↔ ¬ (Active s .driver ∨ Waiting s .driver) ∧
      ¬ (Active s (.psoc p) ∨ Waiting s (.psoc p)) ∧
      ¬ ∃ v ∈ s.vdevs p, Active s (.vdev p v) := by
  rw [← activeOrQueued_iff,← activeOrQueued_iff,← psocTransActiveDownTree_iff]
  by_cases hd : transActiveOrQueued (s.trans .driver) <;>
    by_cases hp : transActiveOrQueued (s.trans (.psoc p)) <;>
      by_cases hv : psocTransActiveDownTree s p <;> simp [canTrans,psocCanTrans,hd,hp,hv]

theorem canTrans_vdev_iff {s : Ctx} {fl : Flags} {p v : ℕ} :
    canTrans s fl (.vdev p v) = .success ↔ ¬ (Active s .driver ∨ Waiting s .driver) ∧
      ¬ (Active s (.psoc p) ∨ Waiting s (.psoc p)) ∧
      ¬ (Active s (.vdev p v) ∨ Waiting s (.vdev p v)) ∧ fl.recovering = false := by
  rw [← activeOrQueued_iff,← activeOrQueued_iff,← activeOrQueued_iff]
  by_cases hd : transActiveOrQueued (s.trans .driver) <;> by_cases hr : fl.recovering <;>
    by_cases hp : transActiveOrQueued (s.trans (.psoc p)) <;> by_cases hu : fl.unloading <;>
      by_cases hv : transActiveOrQueued (s.trans (.vdev p v)) <;>
        simp [canTrans,vdevCanTrans,hd,hr,hp,hu,hv]

theorem canTrans_vdev_recovering {s : Ctx} {fl : Flags} {p v : ℕ} (h : fl.recovering = true) :
    canTrans s fl (.vdev p v) = .eInval := by
  by_cases hd : transActiveOrQueued (s.trans .driver) <;> simp [canTrans,vdevCanTrans,hd,h]

/-- A node that is told to wait has something to wait for. -/
theorem canTrans_wait {s : Ctx} {fl : Flags} (hs : Sched s) {n : Node} (he : Exists s n)
    (h : canTrans s fl n ≠ .success) (hwait : n = .driver ∨ canTrans s fl n ≠ .eInval) :
    Ahead s n := by
  by_contra hc
  have hw : ¬ Waiting s n := fun hw => hc (hs.ahead n he hw)
  apply h
  cases n with
  | driver =>
    rw [canTrans_driver_iff]
    obtain ⟨hd,hdown⟩ := not_or.mp hc
    exact ⟨not_or.mpr ⟨hd,hw⟩,hdown⟩
  | psoc p =>
    rw [canTrans_psoc_iff]
    obtain ⟨hd,hc⟩ := not_or.mp hc
    obtain ⟨hp,hdown⟩ := not_or.mp hc
    exact ⟨hd,not_or.mpr ⟨hp,hw⟩,hdown⟩
  | vdev p v =>
    rw [canTrans_vdev_iff]
    obtain ⟨hd,hc⟩ := not_or.mp hc
    obtain ⟨hp,hv⟩ := not_or.mp hc
    refine ⟨hd,hp,not_or.mpr ⟨hv,hw⟩,?_⟩
    by_contra hr
    have hinval := canTrans_vdev_recovering (s := s) (p := p) (v := v)
      (Bool.not_eq_false _ ▸ hr)
    rcases hwait with hd|hne
    · cases hd
    · exact hne hinval

/-- The first node is a proper ancestor of the second. -/
inductive Ancestor : Node → Node → Prop
  | driver_psoc (p : ℕ) : Ancestor .driver (.psoc p)
  | driver_vdev (p v : ℕ) : Ancestor .driver (.vdev p v)
  | psoc_vdev (p v : ℕ) : Ancestor (.psoc p) (.vdev p v)

/-- The two nodes are on one path of the tree. -/
def Related (n m : Node) : Prop := n = m ∨ Ancestor n m ∨ Ancestor m n

/-- The tree is the same. -/
structure SameTree (s s' : Ctx) : Prop where
  alive : s'.alive = s.alive
  psocs : s'.psocs = s.psocs
  vdevs : s'.vdevs = s.vdevs

theorem SameTree.trans {s₁ s₂ s₃ : Ctx} (h : SameTree s₁ s₂) (h' : SameTree s₂ s₃) :
    SameTree s₁ s₃ :=
  ⟨h'.alive.trans h.alive,h'.psocs.trans h.psocs,h'.vdevs.trans h.vdevs⟩

theorem SameTree.exists_iff {s s' : Ctx} (h : SameTree s s') (n : Node) :
    Exists s' n ↔ Exists s n := by
  cases n <;> simp [Exists,h.alive,h.psocs,h.vdevs]

theorem Triggered.sameTree {s s' : Ctx} {T : Set Node} (h : Triggered s s' T) :
    SameTree s s' := ⟨h.alive,h.psocs,h.vdevs⟩

/-- What a node waits for stays, as long as the active nodes and the queues above it do. -/
theorem Ahead.mono {s s' : Ctx} {n : Node} (he : Exists s n)
    (htree : ∀ m, Exists s m → Active s m → Exists s' m)
    (hactive : ∀ m, Active s m → Active s' m)
    (hwaiting : ∀ m, Ancestor m n → Waiting s m → Waiting s' m) (h : Ahead s n) :
    Ahead s' n := by
  cases n with
  | driver =>
    rcases h with hd|⟨p,hp,ha|⟨v,hv,ha⟩⟩
    · exact Or.inl (hactive _ hd)
    · exact Or.inr ⟨p,htree (.psoc p) hp ha,Or.inl (hactive _ ha)⟩
    · have hh := htree (.vdev p v) ⟨hp,hv⟩ ha
      exact Or.inr ⟨p,hh.1,Or.inr ⟨v,hh.2,hactive _ ha⟩⟩
  | psoc p =>
    refine h.imp (Or.imp (hactive _) (hwaiting _ (.driver_psoc p))) (Or.imp (hactive _) ?_)
    exact fun ⟨v,hv,ha⟩ => ⟨v,(htree (.vdev p v) ⟨he,hv⟩ ha).2,hactive _ ha⟩
  | vdev p v =>
    exact h.imp (Or.imp (hactive _) (hwaiting _ (.driver_vdev p v)))
      (Or.imp (Or.imp (hactive _) (hwaiting _ (.psoc_vdev p v))) (hactive _))

/-- Nothing in the tree is below a node without children. -/
theorem Childless.not_ancestor {s : Ctx} {n m : Node} (h : Childless s n) (hm : Exists s m) :
    ¬ Ancestor n m := by
  rintro (p|⟨p,v⟩|⟨p,v⟩)
  · rw [Exists,show s.psocs = [] from h] at hm
    cases hm
  · rw [Exists,show s.psocs = [] from h] at hm
    cases hm.1
  · rw [Exists,show s.vdevs p = [] from h] at hm
    cases hm.2

theorem Apart.anti {s s' : Ctx} (hsame : SameTree s s')
    (hactive : ∀ n, Active s' n → Active s n) (h : Apart s) : Apart s' where
  driver_psoc := fun p hp ha hb =>
    h.driver_psoc p (hsame.psocs ▸ hp) (hactive _ ha) (hactive _ hb)
  driver_vdev := fun p hp v hv ha hb =>
    h.driver_vdev p (hsame.psocs ▸ hp) v (hsame.vdevs ▸ hv) (hactive _ ha) (hactive _ hb)
  psoc_vdev := fun p hp v hv ha hb =>
    h.psoc_vdev p (hsame.psocs ▸ hp) v (hsame.vdevs ▸ hv) (hactive _ ha) (hactive _ hb)

/-- With nothing active below it, the driver's waiter may be let in. -/
theorem Triggered.sched_driver {s r : Ctx} (h : Triggered s r {.driver})
    (hdown : ¬ ∃ p ∈ s.psocs, Active s (.psoc p) ∨ ∃ v ∈ s.vdevs p, Active s (.vdev p v))
    (hw : Waiting s .driver) : Sched r := by
  have hact := h.active_iff
  have hdriver : Active r .driver := (hact _).mpr (Or.inr ⟨rfl,hw⟩)
  refine ⟨⟨?_,?_,?_⟩,?_⟩
  · intro p hp _ ha
    have hh := ((hact _).mp ha).resolve_right (by simp)
    exact hdown ⟨p,h.psocs ▸ hp,Or.inl hh⟩
  · intro p hp v hv _ ha
    have hh := ((hact _).mp ha).resolve_right (by simp)
    exact hdown ⟨p,h.psocs ▸ hp,Or.inr ⟨v,h.vdevs ▸ hv,hh⟩⟩
  · intro p hp v hv _ ha
    have hh := ((hact _).mp ha).resolve_right (by simp)
    exact hdown ⟨p,h.psocs ▸ hp,Or.inr ⟨v,h.vdevs ▸ hv,hh⟩⟩
  · rintro (_|p|⟨p,v⟩) he hwn
    · exact Or.inl hdriver
    · exact Or.inl (Or.inl hdriver)
    · exact Or.inl (Or.inl hdriver)

/-- The driver's waiter is let in when nothing is active any more; as long as it waits, all
others wait behind it. -/
theorem driverTransTriggerChecked_sched {s : Ctx} (hs : Apart s) (hw : Waiting s .driver) :
    (driverTransTriggerChecked s).2 = true ∧ Sched (driverTransTriggerChecked s).1 ∧
      ∃ T, Triggered s (driverTransTriggerChecked s).1 T := by
  rw [driverTransTriggerChecked,if_neg (by simpa [Waiting] using hw)]
  by_cases hc : driverCanTrigger s = false
  · rw [if_pos hc]
    refine ⟨rfl,⟨hs,?_⟩,_,Triggered.refl s⟩
    rintro (_|p|⟨p,v⟩) he hwn
    · by_contra hno
      have hcan := driverCanTrigger_iff.mpr (not_or.mp hno)
      rw [hc] at hcan
      cases hcan
    · exact Or.inl (Or.inr hw)
    · exact Or.inl (Or.inr hw)
  · rw [if_neg hc]
    obtain ⟨hd,hdown⟩ := driverCanTrigger_iff.mp (Bool.not_eq_false _ ▸ hc)
    obtain ⟨ht,hb⟩ := transTrigger_triggered s .driver
    exact ⟨hb.mpr hw,ht.sched_driver hdown hw,_,ht⟩

theorem driverTransTriggerChecked_idle {s : Ctx} (hw : ¬ Waiting s .driver) :
    driverTransTriggerChecked s = (s,false) := by
  rw [driverTransTriggerChecked,if_pos (by simpa [Waiting] using hw)]

theorem psocTransTriggerChecked_idle {s : Ctx} {p : ℕ} (hw : ¬ Waiting s (.psoc p)) :
    psocTransTriggerChecked s p = (s,false) := by
  rw [psocTransTriggerChecked,if_pos (by simpa [Waiting] using hw)]

/-- The psoc and its vdevs. -/
def Under (p : ℕ) : Node → Prop
  | .driver => False
  | .psoc q => q = p
  | .vdev q _ => q = p

/-- Below the driver, what waiters wait for does not depend on the other psocs. -/
theorem Ahead.elsewhere {s r : Ctx} (hsame : SameTree s r) {p : ℕ}
    (hactive : ∀ n, ¬ Under p n → Active s n → Active r n)
    (hwaiting : ∀ n, ¬ Under p n → Waiting s n → Waiting r n) {n : Node} (hn : ¬ Under p n)
    (hne : n ≠ .driver) (h : Ahead s n) : Ahead r n := by
  have hd : ¬ Under p .driver := id
  cases n with
  | driver => exact absurd rfl hne
  | psoc q =>
    refine h.imp (Or.imp (hactive _ hd) (hwaiting _ hd)) (Or.imp (hactive _ hn) ?_)
    rw [hsame.vdevs]
    exact fun ⟨v,hv,ha⟩ => ⟨v,hv,hactive (.vdev q v) hn ha⟩
  | vdev q v =>
    have hq : ¬ Under p (.psoc q) := hn
    exact h.imp (Or.imp (hactive _ hd) (hwaiting _ hd))
      (Or.imp (Or.imp (hactive _ hq) (hwaiting _ hq)) (hactive _ hn))

/-- The node's transition has been taken back and nobody has been let in yet. -/
def stopped (s : Ctx) (n : Node) : Ctx := s.setTrans n (transStop (s.trans n))

theorem stopped_active_iff {s : Ctx} {n m : Node} :
    Active (stopped s n) m ↔ Active s m ∧ m ≠ n := by
  by_cases hm : m = n
  · subst hm
    simp [Active,stopped,transStop,transActive]
  · have hh : (stopped s n).trans m = s.trans m := Ctx.setTrans_trans_of_ne s _ hm
    rw [active_congr hh]
    simp [hm]

theorem stopped_waiting_iff {s : Ctx} {n m : Node} : Waiting (stopped s n) m ↔ Waiting s m := by
  by_cases hm : m = n
  · subst hm
    simp [Waiting,stopped,transStop,transQueued]
  · exact waiting_congr (Ctx.setTrans_trans_of_ne s _ hm)

theorem stopped_sameTree (s : Ctx) (n : Node) : SameTree s (stopped s n) := ⟨rfl,rfl,rfl⟩

theorem Shape.stopped {s : Ctx} (h : Shape s) (n : Node) : Shape (stopped s n) where
  alive := h.alive
  psocs_sorted := h.psocs_sorted
  psocs_lt := h.psocs_lt
  vdevs_sorted := h.vdevs_sorted
  vdevs_lt := h.vdevs_lt
  vdevs_nil := h.vdevs_nil
  inactive := fun m hm ha =>
    h.inactive m (fun he => hm (((stopped_sameTree s n).exists_iff m).mpr he))
      (stopped_active_iff.mp ha).1
  unqueued := fun m hm hw =>
    h.unqueued m (fun he => hm (((stopped_sameTree s n).exists_iff m).mpr he))
      (stopped_waiting_iff.mp hw)

theorem stopped_apart {s : Ctx} (h : Apart s) (n : Node) : Apart (stopped s n) :=
  h.anti (stopped_sameTree s n) fun _ ha => (stopped_active_iff.mp ha).1

theorem driverTriggerTrans_triggered {s : Ctx} (hshape : Shape s) (hw : ¬ Waiting s .driver) :
    Triggered s (driverTriggerTrans s) {n | ∃ p ∈ s.psocs, n ∈ psocSet s p} := by
  rw [driverTriggerTrans,if_neg fun hc => hw ((transTrigger_triggered s .driver).2.mp hc)]
  exact foldl_triggerPsoc_triggered s.psocs hshape.nodup_psocs s fun p _ => hshape.nodup_vdevs p

theorem driverTriggerTrans_sched {s : Ctx} (hshape : Shape s) (hs : Sched s)
    (ha : Active s .driver) : Sched (driverTriggerTrans (stopped s .driver)) ∧
      ∃ T, Triggered (stopped s .driver) (driverTriggerTrans (stopped s .driver)) T := by
  have hidle : ∀ p ∈ s.psocs, ∀ v ∈ s.vdevs p, ¬ Active (stopped s .driver) (.vdev p v) :=
    fun p hp v hv hh => hs.driver_vdev p hp v hv ha (stopped_active_iff.mp hh).1
  obtain ⟨ht,hb⟩ := transTrigger_triggered (stopped s .driver) .driver
  by_cases hw : Waiting (stopped s .driver) .driver
  · rw [driverTriggerTrans,if_pos (hb.mpr hw)]
    refine ⟨ht.sched_driver ?_ hw,_,ht⟩
    rintro ⟨p,hp,hh|⟨v,hv,hh⟩⟩
    · exact hs.driver_psoc p hp ha (stopped_active_iff.mp hh).1
    · exact hidle p hp v hv hh
  · have hall := driverTriggerTrans_triggered (hshape.stopped .driver) hw
    have hact := hall.active_iff
    have hdriver : ¬ Active (driverTriggerTrans (stopped s .driver)) .driver := by
      rw [hact]
      rintro (hh|⟨⟨p,-,hh|⟨-,v,-,hh⟩⟩,-⟩)
      · exact (stopped_active_iff.mp hh).2 rfl
      · cases hh
      · cases hh
    have hmem : ∀ {p v}, Node.vdev p v ∈ {n | ∃ q ∈ s.psocs, n ∈ psocSet (stopped s .driver) q} →
        ¬ Waiting (stopped s .driver) (.psoc p) := by
      rintro p v ⟨q,-,hh|⟨hwq,w,-,hh⟩⟩
      · cases hh
      · cases hh
        exact hwq
    refine ⟨⟨⟨fun p _ hd => absurd hd hdriver,fun p _ v _ hd => absurd hd hdriver,?_⟩,?_⟩,_,hall⟩
    · intro p hp v hv hpa hva
      rw [hall.psocs] at hp
      rw [hall.vdevs] at hv
      have hpw : Waiting (stopped s .driver) (.psoc p) := by
        rcases (hact _).mp hpa with hh|⟨-,hh⟩
        · exact absurd (stopped_active_iff.mp hh).1 (hs.driver_psoc p hp ha)
        · exact hh
      rcases (hact _).mp hva with hh|⟨hh,-⟩
      · exact hidle p hp v hv hh
      · exact hmem hh hpw
    · rintro (_|p|⟨p,v⟩) he hwn
      · exact absurd (hall.waiting_of hwn) hw
      · have hp : p ∈ s.psocs := hall.psocs ▸ he
        exact Or.inr (Or.inl ((hact _).mpr
          (Or.inr ⟨⟨p,hp,Or.inl rfl⟩,hall.waiting_of hwn⟩)))
      · have hp : p ∈ s.psocs := hall.psocs ▸ he.1
        have hv : v ∈ s.vdevs p := by
          have hv := he.2
          rwa [hall.vdevs] at hv
        by_cases hpw : Waiting (stopped s .driver) (.psoc p)
        · exact Or.inr (Or.inl (Or.inl ((hact _).mpr (Or.inr ⟨⟨p,hp,Or.inl rfl⟩,hpw⟩))))
        · exact Or.inr (Or.inr ((hact _).mpr
            (Or.inr ⟨⟨p,hp,Or.inr ⟨hpw,v,hv,rfl⟩⟩,hall.waiting_of hwn⟩)))

theorem psocTriggerTrans_triggered {s : Ctx} {p : ℕ} (hvs : (s.vdevs p).Nodup)
    (hw : ¬ Waiting s .driver) : Triggered s (psocTriggerTrans s p) (psocSet s p) := by
  rw [psocTriggerTrans,driverTransTriggerChecked_idle hw,if_neg Bool.false_ne_true]
  exact triggerPsoc_triggered hvs

theorem psocTriggerTrans_sched {s : Ctx} (hshape : Shape s) (hs : Sched s) {p : ℕ}
    (hp : p ∈ s.psocs) (ha : Active s (.psoc p)) :
    Sched (psocTriggerTrans (stopped s (.psoc p)) p) ∧
      ∃ T, Triggered (stopped s (.psoc p)) (psocTriggerTrans (stopped s (.psoc p)) p) T := by
  have hapart := stopped_apart hs.toApart (.psoc p)
  by_cases hw : Waiting (stopped s (.psoc p)) .driver
  · obtain ⟨hb,hsched,ht⟩ := driverTransTriggerChecked_sched hapart hw
    rw [psocTriggerTrans,if_pos hb]
    exact ⟨hsched,ht⟩
  · have hr := psocTriggerTrans_triggered ((hshape.stopped (.psoc p)).nodup_vdevs p) hw
    have hact := hr.active_iff
    have hout : ∀ n, ¬ Under p n → n ∉ psocSet (stopped s (.psoc p)) p := by
      rintro n hn (rfl|⟨-,v,-,rfl⟩) <;> exact hn rfl
    have hsame : ∀ n, ¬ Under p n → (Active (psocTriggerTrans (stopped s (.psoc p)) p) n ↔
        Active s n) := by
      intro n hn
      rw [hact,stopped_active_iff]
      have hne : n ≠ .psoc p := by
        rintro rfl
        exact hn rfl
      simp [hout n hn,hne]
    have hdriver : ¬ Active (psocTriggerTrans (stopped s (.psoc p)) p) .driver := by
      rw [hsame _ id]
      exact fun hd => hs.driver_psoc p hp hd ha
    refine ⟨⟨⟨fun q _ hd => absurd hd hdriver,fun q _ v _ hd => absurd hd hdriver,?_⟩,?_⟩,_,hr⟩
    · intro q hq v hv hqa hva
      rw [hr.psocs] at hq
      rw [hr.vdevs] at hv
      by_cases hqp : q = p
      · subst hqp
        rcases (hact _).mp hqa with hh|⟨-,hqw⟩
        · exact (stopped_active_iff.mp hh).2 rfl
        · rcases (hact _).mp hva with hh|⟨hh|⟨hnw,-⟩,-⟩
          · exact hs.psoc_vdev q hq v hv ha (stopped_active_iff.mp hh).1
          · cases hh
          · exact hnw hqw
      · exact hs.psoc_vdev q hq v hv ((hsame (.psoc q) hqp).mp hqa)
          ((hsame (.vdev q v) hqp).mp hva)
    · intro n he hwn
      by_cases hn : Under p n
      · cases n with
        | driver => exact hn.elim
        | psoc q =>
          cases hn
          exact Or.inr (Or.inl ((hact _).mpr (Or.inr ⟨Or.inl rfl,hr.waiting_of hwn⟩)))
        | vdev q v =>
          cases hn
          by_cases hpw : Waiting (stopped s (.psoc p)) (.psoc p)
          · exact Or.inr (Or.inl (Or.inl ((hact _).mpr (Or.inr ⟨Or.inl rfl,hpw⟩))))
          · have hv := he.2
            rw [hr.vdevs] at hv
            exact Or.inr (Or.inr ((hact _).mpr
              (Or.inr ⟨Or.inr ⟨hpw,v,hv,rfl⟩,hr.waiting_of hwn⟩)))
      · by_cases hne : n = .driver
        · subst hne
          exact absurd (hr.waiting_of hwn) hw
        · refine Ahead.elsewhere ((stopped_sameTree s _).trans hr.sameTree) (fun m hm => (hsame m hm).mpr) ?_ hn hne ?_
          · intro m hm hmw
            rw [hr.waiting_iff_of_notMem (hout m hm),stopped_waiting_iff]
            exact hmw
          · exact hs.ahead n ((hr.sameTree.exists_iff n).mp he)
              (stopped_waiting_iff.mp (hr.waiting_of hwn))

/-- A psoc whose waiter cannot be let in yet keeps its vdevs waiting behind it. -/
theorem psocTransTriggerChecked_triggered {s : Ctx} {p : ℕ} (hw : Waiting s (.psoc p)) :
    (psocTransTriggerChecked s p).2 = true ∧
      ((psocTransTriggerChecked s p).1 = s ∧ psocCanTrigger s p = false ∨
        Triggered s (psocTransTriggerChecked s p).1 {.psoc p} ∧ psocCanTrigger s p = true) := by
  rw [psocTransTriggerChecked,if_neg (by simpa [Waiting] using hw)]
  by_cases hc : psocCanTrigger s p = false
  · rw [if_pos hc]
    exact ⟨rfl,Or.inl ⟨rfl,hc⟩⟩
  · rw [if_neg hc]
    obtain ⟨ht,hb⟩ := transTrigger_triggered s (.psoc p)
    exact ⟨hb.mpr hw,Or.inr ⟨ht,Bool.not_eq_false _ ▸ hc⟩⟩

/-- What the stop of vdev `v` of psoc `p` lets in when the driver has no waiter. -/
theorem vdevTriggerTrans_triggered {s : Ctx} {p v : ℕ} (hw : ¬ Waiting s .driver) :
    ∃ T, Triggered s (vdevTriggerTrans s p v) T ∧
      (Waiting s (.psoc p) ∧ (psocCanTrigger s p = false ∧ T = ∅ ∨
          psocCanTrigger s p = true ∧ T = {.psoc p}) ∨
        ¬ Waiting s (.psoc p) ∧ T = {.vdev p v}) := by
  rw [vdevTriggerTrans,driverTransTriggerChecked_idle hw,if_neg Bool.false_ne_true]
  by_cases hpw : Waiting s (.psoc p)
  · obtain ⟨hb,⟨heq,hc⟩|⟨ht,hc⟩⟩ := psocTransTriggerChecked_triggered hpw
    · refine ⟨∅,?_,Or.inl ⟨hpw,Or.inl ⟨hc,rfl⟩⟩⟩
      simp only [hb,heq,if_true]
      exact Triggered.refl s
    · refine ⟨{.psoc p},?_,Or.inl ⟨hpw,Or.inr ⟨hc,rfl⟩⟩⟩
      simp only [hb,if_true]
      exact ht
  · refine ⟨{.vdev p v},?_,Or.inr ⟨hpw,rfl⟩⟩
    simp only [psocTransTriggerChecked_idle hpw,Bool.false_eq_true,if_false]
    exact (transTrigger_triggered s (.vdev p v)).1

theorem vdevTriggerTrans_sched {s : Ctx} (hs : Sched s) {p v : ℕ} (hp : p ∈ s.psocs)
    (hv : v ∈ s.vdevs p) (ha : Active s (.vdev p v)) :
    Sched (vdevTriggerTrans (stopped s (.vdev p v)) p v) ∧
      ∃ T, Triggered (stopped s (.vdev p v)) (vdevTriggerTrans (stopped s (.vdev p v)) p v) T := by
  have hapart := stopped_apart hs.toApart (.vdev p v)
  by_cases hw : Waiting (stopped s (.vdev p v)) .driver
  · obtain ⟨hb,hsched,ht⟩ := driverTransTriggerChecked_sched hapart hw
    rw [vdevTriggerTrans,if_pos hb]
    exact ⟨hsched,ht⟩
  · obtain ⟨T,hr,hcases⟩ := vdevTriggerTrans_triggered (p := p) (v := v) hw
    set r := vdevTriggerTrans (stopped s (.vdev p v)) p v with hrdef
    have hact := hr.active_iff
    have hT : ∀ n ∈ T, n = .psoc p ∨ n = .vdev p v := by
      rcases hcases with ⟨-,⟨-,rfl⟩|⟨-,rfl⟩⟩|⟨-,rfl⟩
      · exact fun n hn => absurd hn (Set.notMem_empty n)
      · exact fun n hn => Or.inl hn
      · exact fun n hn => Or.inr hn
    have hout : ∀ n, ¬ Under p n → n ∉ T := by
      intro n hn hnT
      rcases hT n hnT with rfl|rfl <;> exact hn rfl
    have hsame : ∀ n, ¬ Under p n → (Active r n ↔ Active s n) := by
      intro n hn
      rw [hact,stopped_active_iff]
      have hne : n ≠ .vdev p v := by
        rintro rfl
        exact hn rfl
      simp [hout n hn,hne]
    have hdriver : ¬ Active r .driver := by
      rw [hsame _ id]
      exact fun hd => hs.driver_vdev p hp v hv hd ha
    have hpsoc : ¬ Active (stopped s (.vdev p v)) (.psoc p) :=
      fun hh => hs.psoc_vdev p hp v hv (stopped_active_iff.mp hh).1 ha
    refine ⟨⟨⟨fun q _ hd => absurd hd hdriver,fun q _ w _ hd => absurd hd hdriver,?_⟩,?_⟩,_,hr⟩
    · intro q hq w hwv hqa hwa
      rw [hr.psocs] at hq
      rw [hr.vdevs] at hwv
      by_cases hqp : q = p
      · subst hqp
        obtain ⟨hqT,hqw⟩ := ((hact _).mp hqa).resolve_left hpsoc
        rcases hcases with ⟨-,⟨-,rfl⟩|⟨hc,rfl⟩⟩|⟨hnw,rfl⟩
        · exact hqT
        · have hwa := ((hact _).mp hwa).resolve_right (by simp)
          exact (psocCanTrigger_iff.mp hc).2.2 ⟨w,hwv,hwa⟩
        · exact hnw hqw
      · exact hs.psoc_vdev q hq w hwv ((hsame (.psoc q) hqp).mp hqa)
          ((hsame (.vdev q w) hqp).mp hwa)
    · intro n he hwn
      have hwn' := hr.waiting_of hwn
      by_cases hn : Under p n
      · cases n with
        | driver => exact hn.elim
        | psoc q =>
          cases hn
          rcases hcases with ⟨-,⟨hc,rfl⟩|⟨hc,rfl⟩⟩|⟨hnw,-⟩
          · refine Or.inr (Or.inr ?_)
            by_contra hno
            have hcan : psocCanTrigger (stopped s (.vdev p v)) p = true := by
              refine psocCanTrigger_iff.mpr ⟨not_or.mpr ⟨?_,hw⟩,hpsoc,?_⟩
              · exact fun hd => hdriver ((hact _).mpr (Or.inl hd))
              · rintro ⟨w,hwv,hwa⟩
                exact hno ⟨w,hr.vdevs ▸ hwv,(hact _).mpr (Or.inl hwa)⟩
            rw [hc] at hcan
            cases hcan
          · exact Or.inr (Or.inl ((hact _).mpr (Or.inr ⟨rfl,hwn'⟩)))
          · exact absurd hwn' hnw
        | vdev q w =>
          cases hn
          rcases hcases with ⟨hpw,⟨-,rfl⟩|⟨-,rfl⟩⟩|⟨hnw,rfl⟩
          · exact Or.inr (Or.inl (Or.inr ((waiting_congr (hr.miss _ id)).mpr hpw)))
          · exact Or.inr (Or.inl (Or.inl ((hact _).mpr (Or.inr ⟨rfl,hpw⟩))))
          · by_cases hwv : w = v
            · subst hwv
              exact Or.inr (Or.inr ((hact _).mpr (Or.inr ⟨rfl,hwn'⟩)))
            · -- the other vdevs of the psoc still have their own transition to wait for
              have he := (hr.sameTree.exists_iff _).mp he
              have hother := hs.ahead (.vdev p w) he (stopped_waiting_iff.mp hwn')
              rcases hother with (hd|hd)|(hh|hh)|hh
              · exact absurd ((hsame _ id).mpr hd) hdriver
              · exact absurd (stopped_waiting_iff.mpr hd) hw
              · exact absurd hh fun hh => hs.psoc_vdev p hp v hv hh ha
              · exact absurd (stopped_waiting_iff.mpr hh) hnw
              · refine Or.inr (Or.inr ((hact _).mpr (Or.inl (stopped_active_iff.mpr ⟨hh,?_⟩))))
                intro heq
                cases heq
                exact hwv rfl
      · by_cases hne : n = .driver
        · subst hne
          exact absurd hwn' hw
        · refine Ahead.elsewhere ((stopped_sameTree s _).trans hr.sameTree) (fun m hm => (hsame m hm).mpr) ?_ hn hne ?_
          · intro m hm hmw
            rw [hr.waiting_iff_of_notMem (hout m hm),stopped_waiting_iff]
            exact hmw
          · exact hs.ahead n ((hr.sameTree.exists_iff n).mp he) (stopped_waiting_iff.mp hwn')

/-- Stopping a transition lets in waiters and keeps the schedule. -/
theorem nodeTransStop_sched {s : Ctx} (hshape : Shape s) (hs : Sched s) {n : Node}
    (he : Exists s n) (ha : Active s n) :
    Sched (nodeTransStop s n) ∧ ∃ T, Triggered (stopped s n) (nodeTransStop s n) T := by
  cases n with
  | driver => exact driverTriggerTrans_sched hshape hs ha
  | psoc p => exact psocTriggerTrans_sched hshape hs he ha
  | vdev p v => exact vdevTriggerTrans_sched hs he.1 he.2 ha

theorem apart_iff {s : Ctx} (halive : s.alive = false → s.psocs = []) :
    Apart s ↔ ∀ n m, Exists s n → Exists s m → Ancestor n m → ¬ (Active s n ∧ Active s m) := by
  constructor
  · rintro h n m hn hm (p|⟨p,v⟩|⟨p,v⟩) ⟨ha,hb⟩
    · exact h.driver_psoc p hm ha hb
    · exact h.driver_vdev p hm.1 v hm.2 ha hb
    · exact h.psoc_vdev p hn v hm.2 ha hb
  · intro h
    have hd : ∀ p ∈ s.psocs, Exists s .driver := by
      intro p hp
      by_contra hc
      rw [halive (Bool.not_eq_true _ ▸ hc)] at hp
      cases hp
    exact ⟨fun p hp ha hb => h .driver (.psoc p) (hd p hp) hp (.driver_psoc p) ⟨ha,hb⟩,
      fun p hp v hv ha hb => h .driver (.vdev p v) (hd p hp) ⟨hp,hv⟩ (.driver_vdev p v) ⟨ha,hb⟩,
      fun p hp v hv ha hb => h (.psoc p) (.vdev p v) hp ⟨hp,hv⟩ (.psoc_vdev p v) ⟨ha,hb⟩⟩

theorem canTrans_related {s : Ctx} {fl : Flags} {n : Node} (h : canTrans s fl n = .success)
    {m : Node} (hm : Exists s m) (hr : Related n m) : ¬ Active s m := by
  intro ha
  cases n with
  | driver =>
    obtain ⟨hd,hdown⟩ := canTrans_driver_iff.mp h
    rcases hr with rfl|⟨p|⟨p,v⟩⟩|hr
    · exact hd (Or.inl ha)
    · exact hdown ⟨p,hm,Or.inl ha⟩
    · exact hdown ⟨p,hm.1,Or.inr ⟨v,hm.2,ha⟩⟩
    · cases hr
  | psoc p =>
    obtain ⟨hd,hp,hdown⟩ := canTrans_psoc_iff.mp h
    rcases hr with rfl|hr|hr
    · exact hp (Or.inl ha)
    · cases hr with
      | psoc_vdev p v => exact hdown ⟨v,hm.2,ha⟩
    · cases hr
      exact hd (Or.inl ha)
  | vdev p v =>
    obtain ⟨hd,hp,hv,-⟩ := canTrans_vdev_iff.mp h
    rcases hr with rfl|hr|hr
    · exact hv (Or.inl ha)
    · cases hr
    · cases hr
      · exact hd (Or.inl ha)
      · exact hp (Or.inl ha)

end Dsc
end MarbleModules
