import Mathlib.Tactic
import MarbleModules.DscRuns

/-! Waiting for operations: when the call made under a transition has returned, no operation
runs below its node until that transition is stopped. -/
namespace MarbleModules
namespace Dsc

open Runs

/-- The node is the root or below it. -/
def Below (root n : Node) : Prop := n = root ∨ Ancestor root n

theorem Below.related {root n : Node} (h : Below root n) : Related n root :=
  h.imp id Or.inr

/-- The order in which the walk meets the nodes -/
def Before : Node → Node → Prop
  | _, .driver => False
  | .driver, _ => True
  | .psoc q, .psoc p => q < p
  | .psoc q, .vdev p _ => q ≤ p
  | .vdev q _, .psoc p => q < p
  | .vdev q w, .vdev p v => q < p ∨ q = p ∧ w < v

theorem not_before_root {root n : Node} (h : Below root n) : ¬ Before n root := by
  rcases h with rfl|(p|⟨p,v⟩|⟨p,v⟩)
  · cases n <;> simp [Before]
  · exact id
  · exact id
  · exact lt_irrefl p

/-- What a thread has passed has been waited for. -/
def Passed (s : Ctx) : WaitCall → Node → Prop
  | .idle, _ => False
  | .testing _ _ cur, n => Before n cur
  | .blocked _ _ cur, n => Before n cur ∨ n = cur ∧ (s.ops cur).event = true
  | .leaving _ _ cur, n => Before n cur ∨ n = cur
  | .returned _ _, _ => True

/-- The node the call was made on, and the transition held there -/
def held : WaitCall → Option (Node × ℕ)
  | .idle => none
  | .testing root epoch _ => some (root,epoch)
  | .blocked root epoch _ => some (root,epoch)
  | .leaving root epoch _ => some (root,epoch)
  | .returned root epoch => some (root,epoch)

/-- The walk stays below its root. -/
def Inside : WaitCall → Prop
  | .testing root _ cur => Below root cur
  | .blocked root _ cur => Below root cur
  | .leaving root _ cur => Below root cur
  | _ => True

/-- The node has been created. -/
def Known (s : Ctx) : Node → Prop
  | .driver => True
  | .psoc p => p < s.nextNode
  | .vdev _ v => v < s.nextNode

theorem Known.mono {s s' : Ctx} {n : Node} (hle : s.nextNode ≤ s'.nextNode) (h : Known s n) :
    Known s' n := by
  cases n with
  | driver => trivial
  | psoc p => exact lt_of_lt_of_le h hle
  | vdev p v => exact lt_of_lt_of_le h hle

theorem Shape.known {s : Ctx} (h : Shape s) {n : Node} (he : Exists s n) : Known s n := by
  cases n with
  | driver => trivial
  | psoc p => exact h.psocs_lt p he
  | vdev p v => exact h.vdevs_lt p v he.2

/-- As long as the transition of the call is held, no operation runs at a node it has passed. -/
structure CallOk (s : Ctx) (c : WaitCall) : Prop where
  inside : Inside c
  known : ∀ root epoch, held c = some (root,epoch) → Known s root
  epoch_le : ∀ root epoch, held c = some (root,epoch) → epoch ≤ (s.trans root).epoch
  settled : ∀ root epoch, held c = some (root,epoch) → Active s root →
    (s.trans root).epoch = epoch → ∀ n, Exists s n → Below root n → Passed s c n →
      (s.ops n).count = 0

/-- What a step may change as far as the waiting calls are concerned. -/
structure Calm (s s' : Ctx) : Prop where
  known : ∀ n, Known s n → Known s' n
  epoch_le : ∀ n, Known s n → (s.trans n).epoch ≤ (s'.trans n).epoch
  active : ∀ n, Known s n → Active s' n → (s'.trans n).epoch = (s.trans n).epoch → Active s n
  count : ∀ root n, Active s root → Below root n → Exists s' n → (s'.ops n).count ≠ 0 →
    Exists s n ∧ (s.ops n).count ≠ 0
  event : ∀ n, Exists s' n → (s'.ops n).event = true → (s'.ops n).count ≠ 0 →
    (s.ops n).event = true

theorem CallOk.mono {s s' : Ctx} {c : WaitCall} (hc : Calm s s') (h : CallOk s c) :
    CallOk s' c where
  inside := h.inside
  known := fun root epoch hh => hc.known root (h.known root epoch hh)
  epoch_le := fun root epoch hh =>
    (h.epoch_le root epoch hh).trans (hc.epoch_le root (h.known root epoch hh))
  settled := by
    intro root epoch hh ha hepoch n he hbelow hpassed
    have hk := h.known root epoch hh
    have hle := h.epoch_le root epoch hh
    have hle' := hc.epoch_le root hk
    have hsame : (s.trans root).epoch = epoch := by omega
    have hact := hc.active root hk ha (by omega)
    by_contra hcount
    obtain ⟨he₀,hcount₀⟩ := hc.count root n hact hbelow he hcount
    refine hcount₀ (h.settled root epoch hh hact hsame n he₀ hbelow ?_)
    cases c with
    | idle => exact hpassed
    | testing root epoch cur => exact hpassed
    | blocked root epoch cur =>
      refine hpassed.imp id ?_
      rintro ⟨rfl,hev⟩
      exact ⟨rfl,hc.event n he hev hcount⟩
    | leaving root epoch cur => exact hpassed
    | returned root epoch => exact hpassed

/-- The entries of a sorted list below the next one have been met. -/
theorem nextEntry_spec {l : List ℕ} (hl : l.Pairwise (· < ·)) (a : ℕ) :
    match nextEntry l a with
    | some b => b ∈ l ∧ ∀ c ∈ l, c < b → c ≤ a
    | none => ∀ c ∈ l, c ≤ a := by
  induction l with
  | nil => simp [nextEntry]
  | cons x l ih =>
    obtain ⟨hx,hl⟩ := List.pairwise_cons.mp hl
    have ih := ih hl
    by_cases hax : a < x
    · have heq : nextEntry (x::l) a = some x := by simp [nextEntry,hax]
      rw [heq]
      refine ⟨List.mem_cons_self,fun c hc hlt => ?_⟩
      rcases List.mem_cons.mp hc with rfl|hc
      · exact absurd hlt (lt_irrefl _)
      · exact absurd (hx c hc) (not_lt.mpr hlt.le)
    · have heq : nextEntry (x::l) a = nextEntry l a := by simp [nextEntry,hax]
      rw [heq]
      cases hn : nextEntry l a with
      | none =>
        rw [hn] at ih
        intro c hc
        rcases List.mem_cons.mp hc with rfl|hc
        · exact not_lt.mp hax
        · exact ih c hc
      | some b =>
        rw [hn] at ih
        refine ⟨List.mem_cons_of_mem _ ih.1,fun c hc hlt => ?_⟩
        rcases List.mem_cons.mp hc with rfl|hc
        · exact not_lt.mp hax
        · exact ih.2 c hc hlt

theorem head_le {l : List ℕ} (hl : l.Pairwise (· < ·)) {a : ℕ} (h : l.head? = some a) :
    a ∈ l ∧ ∀ c ∈ l, ¬ c < a := by
  cases l with
  | nil => cases h
  | cons x l =>
    cases h
    refine ⟨List.mem_cons_self,fun c hc => ?_⟩
    rcases List.mem_cons.mp hc with rfl|hc
    · exact lt_irrefl _
    · exact not_lt.mpr ((List.pairwise_cons.mp hl).1 c hc).le

/-- The next stop `c` of a walk from `cur`: it stays below the root, and between the two no
node is left out. -/
def Follows (s : Ctx) (root : Node) (epoch : ℕ) (cur : Node) : WaitCall → Prop
  | .testing root' epoch' cur' => root' = root ∧ epoch' = epoch ∧ Below root cur' ∧
      ∀ n, Exists s n → Below root n → Before n cur' → Before n cur ∨ n = cur
  | .returned root' epoch' => root' = root ∧ epoch' = epoch ∧
      ∀ n, Exists s n → Below root n → Before n cur ∨ n = cur
  | _ => False

section Psoc

variable {s : Ctx} {cur : Node} {p : ℕ}

/-- After its last vdev everything up to psoc `p` has been met. -/
theorem before_of_le (hcur : Under p cur)
    (hlast : ∀ v ∈ s.vdevs p, Before (.vdev p v) cur ∨ .vdev p v = cur)
    (hpsoc : Before (.psoc p) cur ∨ .psoc p = cur) {n : Node} (he : Exists s n)
    (hle : ∀ q, Under q n → q ≤ p) : Before n cur ∨ n = cur := by
  cases n with
  | driver => cases cur with
    | driver => exact hcur.elim
    | psoc _ => exact Or.inl trivial
    | vdev _ _ => exact Or.inl trivial
  | psoc q =>
    rcases (hle q rfl).lt_or_eq with hq|rfl
    · cases cur with
      | driver => exact hcur.elim
      | psoc q' => exact Or.inl (hcur.symm ▸ hq)
      | vdev q' v => exact Or.inl (hcur.symm ▸ hq.le)
    · exact hpsoc
  | vdev q w =>
    rcases (hle q rfl).lt_or_eq with hq|rfl
    · cases cur with
      | driver => exact hcur.elim
      | psoc q' => exact Or.inl (hcur.symm ▸ hq)
      | vdev q' v => exact Or.inl (Or.inl (hcur.symm ▸ hq))
    · exact hlast w he.2

theorem waitAfterPsoc_follows (h : Shape s) {root : Node} {epoch : ℕ} (hcur : Under p cur)
    (hroot : root = .driver ∨ Under p root)
    (hlast : ∀ v ∈ s.vdevs p, Before (.vdev p v) cur ∨ .vdev p v = cur)
    (hpsoc : Before (.psoc p) cur ∨ .psoc p = cur) :
    Follows s root epoch cur (waitAfterPsoc s root epoch p) := by
  rw [waitAfterPsoc]
  by_cases hd : root = .driver
  · rw [if_pos hd]
    have hspec := nextEntry_spec h.psocs_sorted p
    have hmem : ∀ n q, Exists s n → Under q n → q ∈ s.psocs := by
      rintro (_|q|⟨q,w⟩) q' he hu
      · exact hu.elim
      · cases hu
        exact he
      · cases hu
        exact he.1
    cases hn : nextEntry s.psocs p with
    | none =>
      rw [hn] at hspec
      refine ⟨rfl,rfl,fun n he _ => ?_⟩
      exact before_of_le hcur hlast hpsoc he fun q hu => hspec q (hmem n q he hu)
    | some p' =>
      rw [hn] at hspec
      refine ⟨rfl,rfl,Or.inr (hd ▸ .driver_psoc p'),fun n he _ hb => ?_⟩
      refine before_of_le hcur hlast hpsoc he fun q hu => hspec.2 q (hmem n q he hu) ?_
      cases n with
      | driver => exact hu.elim
      | psoc _ => exact hu ▸ hb
      | vdev _ _ => exact hu ▸ hb
  · rw [if_neg hd]
    refine ⟨rfl,rfl,fun n he hbelow => ?_⟩
    have hu := hroot.resolve_left hd
    refine before_of_le hcur hlast hpsoc he fun q hq => ?_
    rcases hbelow with rfl|hanc
    · cases n with
      | driver => exact hu.elim
      | psoc _ => exact (hq.symm.trans hu).le
      | vdev _ _ => exact (hq.symm.trans hu).le
    · cases hanc with
      | driver_psoc _ => exact absurd rfl hd
      | driver_vdev _ _ => exact absurd rfl hd
      | psoc_vdev _ _ => exact (hq.symm.trans hu).le

end Psoc

theorem waitNext_follows {s : Ctx} (h : Shape s) {root cur : Node} (epoch : ℕ)
    (hbelow : Below root cur) : Follows s root epoch cur (waitNext s root epoch cur) := by
  cases cur with
  | driver =>
    have hroot : root = .driver := by
      rcases hbelow with hh|hh
      · exact hh.symm
      · cases hh
    rw [waitNext]
    cases hn : s.psocs.head? with
    | none =>
      have hnil : s.psocs = [] := List.head?_eq_none_iff.mp hn
      refine ⟨rfl,rfl,?_⟩
      rintro (_|p|⟨p,v⟩) he -
      · exact Or.inr rfl
      · rw [Exists,hnil] at he
        cases he
      · rw [Exists,hnil] at he
        cases he.1
    | some p =>
      obtain ⟨-,hfirst⟩ := head_le h.psocs_sorted hn
      refine ⟨rfl,rfl,Or.inr (hroot ▸ .driver_psoc p),?_⟩
      rintro (_|q|⟨q,v⟩) he - hb
      · exact Or.inr rfl
      · exact absurd hb (hfirst q he)
      · exact absurd hb (hfirst q he.1)
  | psoc p =>
    have hroot : root = .driver ∨ Under p root := by
      rcases hbelow with rfl|hh
      · exact Or.inr rfl
      · cases hh
        exact Or.inl rfl
    rw [waitNext]
    cases hn : (s.vdevs p).head? with
    | none =>
      have hnil : s.vdevs p = [] := List.head?_eq_none_iff.mp hn
      refine waitAfterPsoc_follows h rfl hroot (fun v hv => ?_) (Or.inr rfl)
      rw [hnil] at hv
      cases hv
    | some v =>
      obtain ⟨-,hfirst⟩ := head_le (h.vdevs_sorted p) hn
      refine ⟨rfl,rfl,?_,?_⟩
      · rcases hbelow with rfl|hh
        · exact Or.inr (.psoc_vdev p v)
        · cases hh
          exact Or.inr (.driver_vdev p v)
      · rintro (_|q|⟨q,w⟩) he - hb
        · exact Or.inl trivial
        · rcases (show q ≤ p from hb).lt_or_eq with hq|rfl
          · exact Or.inl hq
          · exact Or.inr rfl
        · rcases (show q < p ∨ q = p ∧ w < v from hb) with hq|⟨rfl,hw⟩
          · exact Or.inl hq
          · exact absurd hw (hfirst w he.2)
  | vdev p v =>
    rw [waitNext]
    by_cases hself : root = .vdev p v
    · rw [if_pos hself]
      refine ⟨rfl,rfl,fun n _ hn => ?_⟩
      rcases hn with rfl|hn
      · exact Or.inr hself
      · rw [hself] at hn
        cases hn
    · rw [if_neg hself]
      have hroot : root = .driver ∨ root = .psoc p := by
        rcases hbelow with hh|hh
        · exact absurd hh.symm hself
        · cases hh
          · exact Or.inl rfl
          · exact Or.inr rfl
      have hspec := nextEntry_spec (h.vdevs_sorted p) v
      cases hn : nextEntry (s.vdevs p) v with
      | none =>
        rw [hn] at hspec
        have hunder : root = .driver ∨ Under p root := by
          rcases hroot with rfl|rfl
          · exact Or.inl rfl
          · exact Or.inr rfl
        refine waitAfterPsoc_follows h rfl hunder (fun w hw => ?_) (Or.inl le_rfl)
        rcases (hspec w hw).lt_or_eq with hlt|rfl
        · exact Or.inl (Or.inr ⟨rfl,hlt⟩)
        · exact Or.inr rfl
      | some v' =>
        rw [hn] at hspec
        refine ⟨rfl,rfl,?_,?_⟩
        · rcases hroot with rfl|rfl
          · exact Or.inr (.driver_vdev p v')
          · exact Or.inr (.psoc_vdev p v')
        · rintro (_|q|⟨q,w⟩) he - hb
          · exact Or.inl trivial
          · exact Or.inl hb
          · rcases (show q < p ∨ q = p ∧ w < v' from hb) with hq|⟨rfl,hw⟩
            · exact Or.inl (Or.inl hq)
            · rcases (hspec.2 w he.2 hw).lt_or_eq with hlt|rfl
              · exact Or.inl (Or.inr ⟨rfl,hlt⟩)
              · exact Or.inr rfl

/-- A step that changes no operation and lets nobody in. -/
theorem calm_of_trans {s s' : Ctx} (hsame : SameTree s s') (hnext : s'.nextNode = s.nextNode)
    (hops : s'.ops = s.ops) (hle : ∀ n, (s.trans n).epoch ≤ (s'.trans n).epoch)
    (hact : ∀ n, Active s' n → (s'.trans n).epoch = (s.trans n).epoch → Active s n) :
    Calm s s' where
  known := fun _ hn => hn.mono hnext.ge
  epoch_le := fun n _ => hle n
  active := fun n _ => hact n
  count := fun _ n _ _ he hc => ⟨(hsame.exists_iff n).mp he,hops ▸ hc⟩
  event := fun _ _ hev _ => hops ▸ hev

theorem Calm.refl (s : Ctx) : Calm s s :=
  calm_of_trans ⟨rfl,rfl,rfl⟩ rfl rfl (fun _ => le_rfl) fun _ ha _ => ha

theorem calm_setCall (s : Ctx) (i : ℕ) (c : WaitCall) : Calm s (s.setCall i c) :=
  calm_of_trans ⟨rfl,rfl,rfl⟩ rfl rfl (fun _ => le_rfl) fun _ ha _ => ha

theorem calm_started (s : Ctx) (n : Node) (desc : ℕ) :
    Calm s (s.setTrans n (transStart (s.trans n) desc)) := by
  refine calm_of_trans ⟨rfl,rfl,rfl⟩ rfl rfl (fun m => ?_) fun m ha heq => ?_
  · by_cases hm : m = n
    · subst hm
      rw [Ctx.setTrans_trans_self]
      exact Nat.le_succ _
    · rw [Ctx.setTrans_trans_of_ne s _ hm]
  · rcases started_active_iff.mp ha with ha|rfl
    · exact ha
    · rw [Ctx.setTrans_trans_self] at heq
      exact absurd heq (Nat.succ_ne_self _)

theorem calm_transQueue (s : Ctx) (n : Node) (desc : ℕ) : Calm s (transQueue s n desc) := by
  refine calm_of_trans ⟨rfl,rfl,rfl⟩ rfl rfl (fun m => ?_) fun m ha _ => queue_active_iff.mp ha
  by_cases hm : m = n
  · subst hm
    simp [transQueue,Ctx.setTrans]
  · simp [transQueue,Ctx.setTrans,hm]

theorem calm_nodeTransStart (s : Ctx) (fl : Flags) (n : Node) (desc : ℕ) :
    Calm s (nodeTransStart s fl n desc).1 := by
  rw [nodeTransStart]
  split
  · exact Calm.refl s
  · exact calm_started s n desc

theorem calm_nodeTransStartWait (s : Ctx) (fl : Flags) (n : Node) (desc : ℕ) :
    Calm s (nodeTransStartWait s fl n desc).1 := by
  by_cases hc : canTrans s fl n = .success
  · rw [nodeTransStartWait_start hc]
    exact calm_started s n desc
  · by_cases hwait : n = .driver ∨ canTrans s fl n ≠ .eInval
    · rw [nodeTransStartWait_queue hc hwait]
      exact calm_transQueue s n desc
    · obtain ⟨hne,hinval⟩ := not_or.mp hwait
      rw [nodeTransStartWait_inval hne (not_not.mp hinval)]
      exact Calm.refl s

theorem pop_epoch (t : Trans) :
    t.epoch ≤ (pop t).epoch ∧ ((pop t).epoch = t.epoch → pop t = t) := by
  rw [pop]
  cases hq : t.queue with
  | nil => exact ⟨le_rfl,fun _ => rfl⟩
  | cons tran rest =>
    exact ⟨Nat.le_succ _,fun h => absurd h (Nat.succ_ne_self _)⟩

theorem stopped_epoch (s : Ctx) (n m : Node) :
    ((stopped s n).trans m).epoch = (s.trans m).epoch := by
  by_cases hm : m = n
  · subst hm
    rw [stopped,Ctx.setTrans_trans_self]
    rfl
  · rw [stopped,Ctx.setTrans_trans_of_ne s _ hm]

theorem calm_nodeTransStop {s : Ctx} (h : Inv s) {n : Node} (he : Exists s n)
    (ha : Active s n) : Calm s (nodeTransStop s n) := by
  obtain ⟨-,T,ht⟩ := nodeTransStop_sched h.shape h.sched he ha
  have hepoch : ∀ m, (s.trans m).epoch ≤ ((nodeTransStop s n).trans m).epoch ∧
      (((nodeTransStop s n).trans m).epoch = (s.trans m).epoch →
        (nodeTransStop s n).trans m = (stopped s n).trans m) := by
    intro m
    rw [← stopped_epoch s n m]
    by_cases hm : m ∈ T
    · rw [ht.hit m hm]
      exact pop_epoch _
    · rw [ht.miss m hm]
      exact ⟨le_rfl,fun _ => rfl⟩
  refine calm_of_trans ((stopped_sameTree s n).trans ht.sameTree) ht.nextNode ht.ops
    (fun m => (hepoch m).1) fun m hm heq => ?_
  rw [active_congr ((hepoch m).2 heq)] at hm
  exact (stopped_active_iff.mp hm).1

theorem calm_transAbort (s : Ctx) (n : Node) : Calm s (transAbort s n).1 := by
  rw [transAbort]
  cases hq : (s.trans n).queue with
  | nil => exact Calm.refl s
  | cons tran rest =>
    refine calm_of_trans ⟨rfl,rfl,rfl⟩ rfl rfl (fun m => ?_) fun m ha _ => ?_
    · by_cases hm : m = n
      · subst hm
        simp [Ctx.setTrans]
      · simp [Ctx.setTrans,hm]
    · by_cases hm : m = n
      · subst hm
        simpa [Active,Ctx.setTrans,transActive] using ha
      · simpa [Active,Ctx.setTrans,hm] using ha

/-- No operation starts below an active node. -/
theorem calm_nodeOpStart {s : Ctx} (h : Inv s) (fl : Flags) (n : Node) :
    Calm s (nodeOpStart s fl n).1 := by
  rw [nodeOpStart]
  split
  · exact Calm.refl s
  · have hcan : canTrans s fl n = .success := not_not.mp ‹_›
    refine ⟨fun _ hm => hm,fun _ _ => le_rfl,fun _ _ ha _ => ha,?_,?_⟩
    · intro root m ha hbelow he hc
      refine ⟨he,?_⟩
      by_cases hm : m = n
      · subst hm
        have hroot := not_imp_not.mp (h.shape.inactive root) ha
        exact absurd ha (canTrans_related hcan hroot hbelow.related)
      · simpa [Ctx.setOps,hm] using hc
    · intro m _ hev _
      by_cases hm : m = n
      · subst hm
        simpa [Ctx.setOps] using hev
      · simpa [Ctx.setOps,hm] using hev

/-- The event is set by the last operation only. -/
theorem calm_nodeOpStop (s : Ctx) (n : Node) : Calm s (nodeOpStop s n) := by
  have hself : ((nodeOpStop s n).ops n).count = (s.ops n).count-1 ∧
      (((nodeOpStop s n).ops n).count ≠ 0 →
        ((nodeOpStop s n).ops n).event = (s.ops n).event) := by
    by_cases hz : (s.ops n).count-1 = 0 <;> simp [nodeOpStop,Ctx.setOps,hz]
  have hother : ∀ m, m ≠ n → (nodeOpStop s n).ops m = s.ops m := by
    intro m hm
    simp [nodeOpStop,Ctx.setOps,hm]
  refine ⟨fun _ hm => hm,fun _ _ => le_rfl,fun _ _ ha _ => ha,?_,?_⟩
  · intro root m _ _ he hc
    refine ⟨he,?_⟩
    by_cases hm : m = n
    · subst hm
      omega
    · exact hother m hm ▸ hc
  · intro m _ hev hc
    by_cases hm : m = n
    · subst hm
      exact hself.2 hc ▸ hev
    · exact hother m hm ▸ hev

/-- A fresh node has neither a transition nor an operation. -/
theorem calm_fresh {s s' : Ctx} (fresh : Node) (hfresh : ¬ Known s fresh)
    (hnext : s'.nextNode = s.nextNode+1) (hex : ∀ n, n ≠ fresh → Exists s' n → Exists s n)
    (htrans : ∀ n, n ≠ fresh → s'.trans n = s.trans n)
    (hops : ∀ n, n ≠ fresh → s'.ops n = s.ops n) (hinit : s'.ops fresh = opsInit) :
    Calm s s' := by
  have hne : ∀ n, Known s n → n ≠ fresh := by
    rintro n hn rfl
    exact hfresh hn
  refine ⟨?_,?_,?_,?_,?_⟩
  · exact fun n hn => hn.mono (hnext ▸ Nat.le_succ _)
  · intro n hn
    rw [htrans n (hne n hn)]
  · intro n hn ha _
    exact (active_congr (htrans n (hne n hn))).mp ha
  · intro root n _ _ he hc
    by_cases hn : n = fresh
    · rw [hn,hinit] at hc
      exact absurd rfl hc
    · exact ⟨hex n hn he,hops n hn ▸ hc⟩
  · intro n _ hev hc
    by_cases hn : n = fresh
    · rw [hn,hinit] at hc
      exact absurd rfl hc
    · exact hops n hn ▸ hev

theorem calm_psocCreate (s : Ctx) (alloc : Bool) : Calm s (psocCreate s alloc) := by
  cases alloc with
  | false => exact Calm.refl s
  | true =>
    refine calm_fresh (.psoc s.nextNode) (lt_irrefl s.nextNode) rfl ?_ ?_ ?_ ?_
    · intro n hn he
      cases n with
      | driver => exact he
      | psoc p =>
        rcases List.mem_append.mp he with hp|hp
        · exact hp
        · exact absurd (congrArg Node.psoc (List.mem_singleton.mp hp)) hn
      | vdev p v =>
        obtain ⟨hp,hv⟩ := he
        by_cases hpn : p = s.nextNode
        · subst hpn
          simp [psocCreate] at hv
        · refine ⟨?_,by simpa [psocCreate,Ctx.setOps,Ctx.setTrans,hpn] using hv⟩
          rcases List.mem_append.mp hp with hp|hp
          · exact hp
          · exact absurd (List.mem_singleton.mp hp) hpn
    · intro n hn
      simp [psocCreate,Ctx.setOps,Ctx.setTrans,hn]
    · intro n hn
      simp [psocCreate,Ctx.setOps,Ctx.setTrans,hn]
    · simp [psocCreate,Ctx.setOps]

theorem calm_vdevCreate (s : Ctx) (p : ℕ) (alloc : Bool) : Calm s (vdevCreate s p alloc) := by
  cases alloc with
  | false => exact Calm.refl s
  | true =>
    refine calm_fresh (.vdev p s.nextNode) (lt_irrefl s.nextNode) rfl ?_ ?_ ?_ ?_
    · intro n hn he
      cases n with
      | driver => exact he
      | psoc q => exact he
      | vdev q v =>
        refine ⟨he.1,?_⟩
        have hv := he.2
        by_cases hq : q = p
        · subst hq
          simp only [vdevCreate,Bool.true_eq_false,if_false,Function.update_self] at hv
          rcases List.mem_append.mp hv with hv|hv
          · exact hv
          · exact absurd (congrArg (Node.vdev q) (List.mem_singleton.mp hv)) hn
        · simpa [vdevCreate,Ctx.setOps,Ctx.setTrans,hq] using hv
    · intro n hn
      simp [vdevCreate,Ctx.setOps,Ctx.setTrans,hn]
    · intro n hn
      simp [vdevCreate,Ctx.setOps,Ctx.setTrans,hn]
    · simp [vdevCreate,Ctx.setOps]

theorem calm_detach {s : Ctx} (h : Shape s) {n : Node} (he : Exists s n)
    (hchild : Childless s n) : Calm s (detach s n) := by
  have hex := exists_detach_iff h he hchild
  have htrans : (detach s n).trans = s.trans := by cases n <;> rfl
  have hops : ∀ m, m ≠ n → (detach s n).ops m = s.ops m := by
    intro m hm
    cases n <;> simp [detach,Ctx.setOps,hm]
  refine ⟨fun m hm => ?_,fun m _ => by rw [htrans],fun m _ ha _ => ?_,?_,?_⟩
  · cases n <;> cases m <;> exact hm
  · exact (active_congr (congrFun htrans m)).mp ha
  · intro root m _ _ hm hc
    obtain ⟨hm,hne⟩ := (hex m).mp hm
    exact ⟨hm,hops m hne ▸ hc⟩
  · intro m hm hev _
    obtain ⟨-,hne⟩ := (hex m).mp hm
    exact hops m hne ▸ hev

/-- The reset of the event before a wait -/
theorem calm_resetEvent (s : Ctx) (n : Node) :
    Calm s (s.setOps n { s.ops n with event := false }) := by
  refine ⟨fun _ hm => hm,fun _ _ => le_rfl,fun _ _ ha _ => ha,?_,?_⟩
  · intro root m _ _ he hc
    refine ⟨he,?_⟩
    by_cases hm : m = n
    · subst hm
      simpa [Ctx.setOps] using hc
    · simpa [Ctx.setOps,hm] using hc
  · intro m _ hev _
    by_cases hm : m = n
    · subst hm
      simp [Ctx.setOps] at hev
    · simpa [Ctx.setOps,hm] using hev

/-- The thread's call may be replaced by one that claims no more than what is known. -/
theorem CallOk.advance {s : Ctx} {c c' : WaitCall} (h : CallOk s c) (hheld : held c' = held c)
    (hinside : Inside c')
    (hpassed : ∀ root epoch, held c = some (root,epoch) → ∀ n, Exists s n → Below root n →
      Passed s c' n → Passed s c n ∨ (s.ops n).count = 0) : CallOk s c' where
  inside := hinside
  known := fun root epoch hh => h.known root epoch (hheld ▸ hh)
  epoch_le := fun root epoch hh => h.epoch_le root epoch (hheld ▸ hh)
  settled := by
    intro root epoch hh ha hepoch n he hbelow hp
    rw [hheld] at hh
    rcases hpassed root epoch hh n he hbelow hp with hp|hc
    · exact h.settled root epoch hh ha hepoch n he hbelow hp
    · exact hc

/-- The invariant with the waiting calls -/
structure WaitInv (s : Ctx) : Prop extends Inv s where
  calls : ∀ i, CallOk s (s.calls i)

theorem callOk_setCall {s : Ctx} (h : ∀ i, CallOk s (s.calls i)) {i : ℕ} {c : WaitCall}
    (hc : CallOk s c) (j : ℕ) : CallOk (s.setCall i c) ((s.setCall i c).calls j) := by
  by_cases hj : j = i
  · subst hj
    simpa [Ctx.setCall] using hc.mono (calm_setCall s j c)
  · simpa [Ctx.setCall,hj] using (h j).mono (calm_setCall s i c)

theorem callOk_waitStep {s : Ctx} (h : WaitInv s) (i j : ℕ) :
    CallOk (waitStep s i) ((waitStep s i).calls j) := by
  have hi := h.calls i
  rw [waitStep]
  cases hc : s.calls i with
  | idle => exact h.calls j
  | testing root epoch cur =>
    rw [hc] at hi
    dsimp only
    split
    · -- the event is reset, so that whoever sees it set later has seen the count at zero
      set s₁ := s.setOps cur { s.ops cur with event := false } with hs₁
      have hcalm : Calm s s₁ := calm_resetEvent s cur
      refine callOk_setCall (fun k => (h.calls k).mono hcalm) ?_ j
      refine (hi.mono hcalm).advance rfl hi.inside ?_
      rintro root' epoch' - n - - (hp|⟨rfl,hev⟩)
      · exact Or.inl hp
      · simp [hs₁,Ctx.setOps] at hev
    · refine callOk_setCall (c := .leaving root epoch cur) h.calls (hi.advance rfl hi.inside ?_) j
      rintro root' epoch' - n - - (hp|rfl)
      · exact Or.inl hp
      · exact Or.inr (Nat.eq_zero_of_not_pos ‹_›)
  | blocked root epoch cur =>
    rw [hc] at hi
    dsimp only
    split
    · refine callOk_setCall (c := .leaving root epoch cur) h.calls (hi.advance rfl hi.inside ?_) j
      rintro root' epoch' - n - - (hp|rfl)
      · exact Or.inl (Or.inl hp)
      · exact Or.inl (Or.inr ⟨rfl,‹_›⟩)
    · exact h.calls j
  | leaving root epoch cur =>
    rw [hc] at hi
    dsimp only
    have hfollows := waitNext_follows h.shape epoch hi.inside
    refine callOk_setCall h.calls ?_ j
    cases hn : waitNext s root epoch cur with
    | idle =>
      rw [hn] at hfollows
      exact hfollows.elim
    | testing root' epoch' cur' =>
      rw [hn] at hfollows
      obtain ⟨rfl,rfl,hbelow,hstep⟩ := hfollows
      refine hi.advance rfl hbelow ?_
      rintro root epoch hh n he hb hp
      cases hh
      exact Or.inl (hstep n he hb hp)
    | blocked root' epoch' cur' =>
      rw [hn] at hfollows
      exact hfollows.elim
    | leaving root' epoch' cur' =>
      rw [hn] at hfollows
      exact hfollows.elim
    | returned root' epoch' =>
      rw [hn] at hfollows
      obtain ⟨rfl,rfl,hstep⟩ := hfollows
      refine hi.advance rfl trivial ?_
      rintro root epoch hh n he hb -
      cases hh
      exact Or.inl (hstep n he hb)
  | returned root epoch => exact h.calls j

theorem callOk_waitForOps {s : Ctx} (h : Shape s) {n : Node} (he : Exists s n) :
    CallOk s (.testing n (s.trans n).epoch n) where
  inside := Or.inl rfl
  known := by
    rintro root epoch ⟨⟩
    exact h.known he
  epoch_le := by
    rintro root epoch ⟨⟩
    exact le_rfl
  settled := by
    rintro root epoch ⟨⟩ - - m - hbelow hp
    exact absurd hp (not_before_root hbelow)

theorem waitInv_driverCreate : WaitInv driverCreate where
  toInv := inv_driverCreate
  calls := fun i => by
    constructor
    · trivial
    · rintro root epoch ⟨⟩
    · rintro root epoch ⟨⟩
    · rintro root epoch ⟨⟩

theorem WaitInv.calm {s s' : Ctx} (h : WaitInv s) (hcalm : Calm s s')
    (hcalls : s'.calls = s.calls) (i : ℕ) : CallOk s' (s'.calls i) :=
  hcalls ▸ (h.calls i).mono hcalm

theorem waitInv_step {s : Ctx} {op : Op} (h : WaitInv s) (hlegal : Legal s op) :
    WaitInv (step s op) := by
  refine ⟨inv_step h.toInv hlegal,?_⟩
  cases op with
  | psocCreate alloc => exact h.calm (calm_psocCreate s alloc) (by cases alloc <;> rfl)
  | vdevCreate p alloc => exact h.calm (calm_vdevCreate s p alloc) (by cases alloc <;> rfl)
  | transStart fl n desc =>
    refine h.calm (calm_nodeTransStart s fl n desc) ?_
    simp only [step,nodeTransStart]
    split <;> rfl
  | transStartWait fl n desc =>
    refine h.calm (calm_nodeTransStartWait s fl n desc) ?_
    by_cases hc : canTrans s fl n = .success
    · rw [step,nodeTransStartWait_start hc]
      rfl
    · by_cases hwait : n = .driver ∨ canTrans s fl n ≠ .eInval
      · rw [step,nodeTransStartWait_queue hc hwait]
        rfl
      · obtain ⟨hne,hinval⟩ := not_or.mp hwait
        rw [step,nodeTransStartWait_inval hne (not_not.mp hinval)]
  | transStop n =>
    obtain ⟨-,T,ht⟩ := nodeTransStop_sched h.shape h.sched hlegal.1 hlegal.2
    exact h.calm (calm_nodeTransStop h.toInv hlegal.1 hlegal.2) ht.calls
  | opStart fl n =>
    refine h.calm (calm_nodeOpStart h.toInv fl n) ?_
    simp only [step,nodeOpStart]
    split <;> rfl
  | opStop n => exact h.calm (calm_nodeOpStop s n) rfl
  | abort n =>
    refine h.calm (calm_transAbort s n) ?_
    simp only [step,transAbort]
    split <;> rfl
  | detach n =>
    refine h.calm (calm_detach h.shape hlegal.1 hlegal.2.1) ?_
    cases n <;> rfl
  | waitForOps i n => exact callOk_setCall h.calls (callOk_waitForOps h.shape hlegal)
  | waitStep i => exact callOk_waitStep h i

/-- Once the call of `wait_for_ops` made under a transition has returned, no operation runs at
or below its node as long as that transition is active. -/
theorem waitForOps_quiesces (ops : List Op) (hg : Guarded step Legal driverCreate ops) :
    let s := run step driverCreate ops
    ∀ i root epoch, s.calls i = .returned root epoch → Active s root →
      (s.trans root).epoch = epoch →
        ∀ n, Exists s n → (n = root ∨ Ancestor root n) → (s.ops n).count = 0 := by
  intro s i root epoch hcall ha hepoch n he hbelow
  have h : WaitInv s := guarded_invariant (fun _ _ => waitInv_step) waitInv_driverCreate ops hg
  have hi := h.calls i
  rw [hcall] at hi
  exact hi.settled root epoch rfl ha hepoch n he hbelow trivial

/-- The psoc's transition waits for an operation of its vdev, which then stops. -/
def waitedOps : List Op :=
  [.psocCreate true,.vdevCreate 0 true,.opStart ⟨false,false⟩ (.vdev 0 1),
    .transStart ⟨false,false⟩ (.psoc 0) 7,.waitForOps 3 (.psoc 0),.waitStep 3,.waitStep 3,
    .waitStep 3,.opStop (.vdev 0 1),.waitStep 3,.waitStep 3]

theorem waitForOps_quiesces_waitedOps :
    (run step driverCreate waitedOps).calls 3 = .returned (.psoc 0) 1 ∧
      ((run step driverCreate waitedOps).ops (.vdev 0 1)).count = 0 :=
  ⟨by decide +kernel,waitForOps_quiesces waitedOps (by decide +kernel) 3 (.psoc 0) 1
    (by decide +kernel) (show transActive _ = true by decide +kernel) (by decide +kernel)
    (.vdev 0 1) ⟨by decide +kernel,by decide +kernel⟩ (Or.inr (.psoc_vdev 0 1))⟩

end Dsc
end MarbleModules
