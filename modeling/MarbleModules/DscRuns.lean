import Mathlib.Tactic
import MarbleModules.DscInvariant

/-! Runs of the synchronization core: which transitions exclude each other, and how waiters
are released. -/
namespace MarbleModules
namespace Dsc

open Runs

/-- The invariant of every run. `order` says that waiters are numbered as they queue up. -/
structure Inv (s : Ctx) : Prop where
  shape : Shape s
  sched : Sched s
  logged : Logged s
  order : ∀ n, ((s.queued n).map Tran.uid).Pairwise (· < ·)
  order_lt : ∀ n, ∀ t ∈ s.queued n, t.uid < s.nextTran

theorem inv_driverCreate : Inv driverCreate where
  shape := by
    constructor <;> simp [driverCreate,Active,Waiting,transInit,transActive,transQueued]
  sched := by
    refine ⟨⟨?_,?_,?_⟩,?_⟩ <;>
      simp [driverCreate,Active,Waiting,transInit,transActive,transQueued]
  logged := fun n => rfl
  order := fun n => by simp [driverCreate]
  order_lt := fun n => by simp [driverCreate]

/-- The step changes no transition and no waiter. -/
structure Quiet (s s' : Ctx) : Prop extends SameTree s s' where
  trans : s'.trans = s.trans
  nextNode : s'.nextNode = s.nextNode
  nextTran : s'.nextTran = s.nextTran
  queued : s'.queued = s.queued
  released : s'.released = s.released

theorem Quiet.refl (s : Ctx) : Quiet s s := ⟨⟨rfl,rfl,rfl⟩,rfl,rfl,rfl,rfl,rfl⟩

theorem quiet_setOps (s : Ctx) (n : Node) (o : Ops) : Quiet s (s.setOps n o) :=
  ⟨⟨rfl,rfl,rfl⟩,rfl,rfl,rfl,rfl,rfl⟩

theorem quiet_setCall (s : Ctx) (i : ℕ) (c : WaitCall) : Quiet s (s.setCall i c) :=
  ⟨⟨rfl,rfl,rfl⟩,rfl,rfl,rfl,rfl,rfl⟩

theorem quiet_opStart (s : Ctx) (fl : Flags) (n : Node) : Quiet s (nodeOpStart s fl n).1 := by
  rw [nodeOpStart]
  split
  · exact Quiet.refl s
  · exact quiet_setOps s n _

theorem quiet_waitStep (s : Ctx) (i : ℕ) : Quiet s (waitStep s i) := by
  rw [waitStep]
  cases s.calls i with
  | idle => exact Quiet.refl s
  | testing root epoch cur =>
    dsimp only
    split
    · exact ⟨⟨rfl,rfl,rfl⟩,rfl,rfl,rfl,rfl,rfl⟩
    · exact quiet_setCall s i _
  | blocked root epoch cur =>
    dsimp only
    split
    · exact quiet_setCall s i _
    · exact Quiet.refl s
  | leaving root epoch cur => exact quiet_setCall s i _
  | returned root epoch => exact Quiet.refl s

/-- The shape survives a step that leaves the tree as it is and wakes nothing outside it. -/
theorem Shape.of_sameTree {s s' : Ctx} (h : Shape s) (hsame : SameTree s s')
    (hnext : s'.nextNode = s.nextNode) (hactive : ∀ n, Active s' n → Active s n ∨ Exists s n)
    (hwaiting : ∀ n, Waiting s' n → Waiting s n ∨ Exists s n) : Shape s' where
  alive := fun ha => hsame.psocs ▸ h.alive (hsame.alive ▸ ha)
  psocs_sorted := hsame.psocs ▸ h.psocs_sorted
  psocs_lt := fun p hp => hnext ▸ h.psocs_lt p (hsame.psocs ▸ hp)
  vdevs_sorted := fun p => hsame.vdevs ▸ h.vdevs_sorted p
  vdevs_lt := fun p v hv => hnext ▸ h.vdevs_lt p v (hsame.vdevs ▸ hv)
  vdevs_nil := fun p hp => hsame.vdevs ▸ h.vdevs_nil p (hsame.psocs ▸ hp)
  inactive := fun n hn ha => by
    rw [hsame.exists_iff] at hn
    exact (hactive n ha).elim (h.inactive n hn) hn
  unqueued := fun n hn hw => by
    rw [hsame.exists_iff] at hn
    exact (hwaiting n hw).elim (h.unqueued n hn) hn

/-- The invariant only depends on who is active and who waits; nodes at rest may come and
go. -/
theorem Inv.of_shape {s s' : Ctx} (h : Inv s) (hshape : Shape s')
    (htrans : ∀ n, (s'.trans n).activeDesc = (s.trans n).activeDesc ∧
      (s'.trans n).queue = (s.trans n).queue)
    (htree : ∀ n, Exists s n → Active s n → Exists s' n) (hqueued : s'.queued = s.queued)
    (hreleased : s'.released = s.released) (hnext : s'.nextTran = s.nextTran) : Inv s' := by
  have hact : ∀ n, Active s' n ↔ Active s n := fun n => by
    rw [Active,Active,transActive,transActive,(htrans n).1]
  have hwait : ∀ n, Waiting s' n ↔ Waiting s n := fun n => by
    rw [Waiting,Waiting,transQueued,transQueued,(htrans n).2]
  refine ⟨hshape,⟨?_,?_⟩,?_,?_,?_⟩
  · rw [apart_iff hshape.alive]
    rintro n m - - hanc ⟨ha,hb⟩
    rw [hact] at ha hb
    have hn := not_imp_not.mp (h.shape.inactive n) ha
    have hm := not_imp_not.mp (h.shape.inactive m) hb
    exact (apart_iff h.shape.alive).mp h.sched.toApart n m hn hm hanc ⟨ha,hb⟩
  · intro n _ hw
    rw [hwait] at hw
    have hn := not_imp_not.mp (h.shape.unqueued n) hw
    exact (h.sched.ahead n hn hw).mono hn htree (fun m => (hact m).mpr)
      fun m _ => (hwait m).mpr
  · intro n
    rw [hreleased,(htrans n).2,hqueued]
    exact h.logged n
  · rw [hqueued]
    exact h.order
  · rw [hqueued,hnext]
    exact h.order_lt

theorem Quiet.inv {s s' : Ctx} (hq : Quiet s s') (h : Inv s) : Inv s' := by
  have htrans : ∀ n, s'.trans n = s.trans n := congrFun hq.trans
  refine h.of_shape ?_ (fun n => by rw [htrans]; exact ⟨rfl,rfl⟩)
    (fun n hn _ => (hq.exists_iff n).mpr hn) hq.queued hq.released hq.nextTran
  exact h.shape.of_sameTree hq.toSameTree hq.nextNode
    (fun n ha => Or.inl ((active_congr (htrans n)).mp ha))
    fun n hw => Or.inl ((waiting_congr (htrans n)).mp hw)

section Start

variable {s : Ctx} {n : Node} {desc : ℕ}

theorem started_active_iff {m : Node} :
    Active (s.setTrans n (transStart (s.trans n) desc)) m ↔ Active s m ∨ m = n := by
  by_cases hm : m = n
  · subst hm
    simp [Active,transStart,transActive]
  · have hh := Ctx.setTrans_trans_of_ne s (transStart (s.trans n) desc) hm
    rw [active_congr hh]
    simp [hm]

theorem started_waiting_iff {m : Node} :
    Waiting (s.setTrans n (transStart (s.trans n) desc)) m ↔ Waiting s m := by
  by_cases hm : m = n
  · subst hm
    simp [Waiting,transStart,transQueued]
  · exact waiting_congr (Ctx.setTrans_trans_of_ne s _ hm)

theorem inv_started {fl : Flags} (h : Inv s) (he : Exists s n)
    (hcan : canTrans s fl n = .success) :
    Inv (s.setTrans n (transStart (s.trans n) desc)) := by
  have hsame : SameTree s (s.setTrans n (transStart (s.trans n) desc)) := ⟨rfl,rfl,rfl⟩
  have hshape := h.shape.of_sameTree hsame rfl
    (fun m ha => Or.imp_right (fun hm => by rwa [hm]) (started_active_iff.mp ha))
    (fun m hw => Or.inl (started_waiting_iff.mp hw))
  refine ⟨hshape,⟨?_,?_⟩,?_,h.order,h.order_lt⟩
  · rw [apart_iff hshape.alive]
    rintro m m' hm hm' hanc ⟨ha',hb'⟩
    rw [hsame.exists_iff] at hm hm'
    rcases started_active_iff.mp ha' with ha|rfl
    · rcases started_active_iff.mp hb' with hb|rfl
      · exact (apart_iff h.shape.alive).mp h.sched.toApart m m' hm hm' hanc ⟨ha,hb⟩
      · exact canTrans_related hcan hm (Or.inr (Or.inr hanc)) ha
    · rcases started_active_iff.mp hb' with hb|rfl
      · exact canTrans_related hcan hm' (Or.inr (Or.inl hanc)) hb
      · cases hanc
  · intro m hm hw
    rw [hsame.exists_iff] at hm
    exact (h.sched.ahead m hm (started_waiting_iff.mp hw)).mono hm
      (fun k hk _ => (hsame.exists_iff k).mpr hk)
      (fun k hk => started_active_iff.mpr (Or.inl hk)) fun k _ hk => started_waiting_iff.mpr hk
  · intro m
    by_cases hm : m = n
    · subst hm
      simpa [Ctx.setTrans,transStart] using h.logged m
    · simpa [Ctx.setTrans,hm] using h.logged m

theorem inv_nodeTransStart {fl : Flags} (h : Inv s) (he : Exists s n) :
    Inv (nodeTransStart s fl n desc).1 := by
  rw [nodeTransStart]
  split
  · exact h
  · exact inv_started h he (not_not.mp ‹_›)

theorem queue_active_iff {m : Node} : Active (transQueue s n desc) m ↔ Active s m := by
  by_cases hm : m = n
  · subst hm
    simp [Active,transQueue,Ctx.setTrans,transActive]
  · exact active_congr (Ctx.setTrans_trans_of_ne s _ hm)

theorem queue_waiting_iff {m : Node} :
    Waiting (transQueue s n desc) m ↔ Waiting s m ∨ m = n := by
  by_cases hm : m = n
  · subst hm
    simp [Waiting,transQueue,Ctx.setTrans,transQueued]
  · have hh : (transQueue s n desc).trans m = s.trans m := Ctx.setTrans_trans_of_ne s _ hm
    rw [waiting_congr hh]
    simp [hm]

theorem inv_transQueue (h : Inv s) (he : Exists s n) (hahead : Ahead s n) :
    Inv (transQueue s n desc) := by
  have hsame : SameTree s (transQueue s n desc) := ⟨rfl,rfl,rfl⟩
  refine ⟨h.shape.of_sameTree hsame rfl (fun m ha => Or.inl (queue_active_iff.mp ha))
    (fun m hw => Or.imp_right (fun hm => by rwa [hm]) (queue_waiting_iff.mp hw)),
    ⟨h.sched.toApart.anti hsame fun m => queue_active_iff.mp,?_⟩,?_,?_,?_⟩
  · intro m hm hw
    rw [hsame.exists_iff] at hm
    have hh : Ahead s m := by
      rcases queue_waiting_iff.mp hw with hw|rfl
      · exact h.sched.ahead m hm hw
      · exact hahead
    exact hh.mono hm (fun k hk _ => (hsame.exists_iff k).mpr hk) (fun k => queue_active_iff.mpr)
      fun k _ hk => queue_waiting_iff.mpr (Or.inl hk)
  · intro m
    by_cases hm : m = n
    · subst hm
      simp [transQueue,Ctx.setTrans,← h.logged m]
    · simpa [transQueue,Ctx.setTrans,hm] using h.logged m
  · intro m
    by_cases hm : m = n
    · subst hm
      simp only [transQueue,Function.update_self,List.map_append,List.map_cons,List.map_nil]
      refine List.pairwise_append.mpr ⟨h.order m,List.pairwise_singleton _ _,?_⟩
      intro u hu w hw
      obtain ⟨t,ht,rfl⟩ := List.mem_map.mp hu
      rw [List.mem_singleton.mp hw]
      exact h.order_lt m t ht
    · simpa [transQueue,hm] using h.order m
  · intro m t ht
    by_cases hm : m = n
    · subst hm
      simp only [transQueue,Function.update_self,List.mem_append,List.mem_singleton] at ht
      rcases ht with ht|rfl
      · exact (h.order_lt m t ht).trans (Nat.lt_succ_self _)
      · exact Nat.lt_succ_self _
    · simp only [transQueue,Function.update_of_ne hm] at ht
      exact (h.order_lt m t ht).trans (Nat.lt_succ_self _)

/-- A call that may wait starts the transition, queues up or is turned away. -/
theorem nodeTransStartWait_start {fl : Flags} (hc : canTrans s fl n = .success) :
    nodeTransStartWait s fl n desc =
      (s.setTrans n (transStart (s.trans n) desc),some .success) := by
  cases n <;> simp [nodeTransStartWait,driverTransStartWait,childTransStartWait,
    nodeTransStart,hc]

theorem nodeTransStartWait_queue {fl : Flags} (hc : canTrans s fl n ≠ .success)
    (hwait : n = .driver ∨ canTrans s fl n ≠ .eInval) :
    nodeTransStartWait s fl n desc = (transQueue s n desc,none) := by
  cases n <;> simp only [nodeTransStartWait,driverTransStartWait,childTransStartWait,
    nodeTransStart,if_pos hc] <;> split <;> simp_all

theorem nodeTransStartWait_inval {fl : Flags} (hne : n ≠ .driver)
    (hinval : canTrans s fl n = .eInval) :
    nodeTransStartWait s fl n desc = (s,some .eInval) := by
  cases n <;> simp_all [nodeTransStartWait,childTransStartWait,nodeTransStart]

theorem inv_nodeTransStartWait {fl : Flags} (h : Inv s) (he : Exists s n) :
    Inv (nodeTransStartWait s fl n desc).1 := by
  by_cases hc : canTrans s fl n = .success
  · rw [nodeTransStartWait_start hc]
    exact inv_started h he hc
  · by_cases hwait : n = .driver ∨ canTrans s fl n ≠ .eInval
    · rw [nodeTransStartWait_queue hc hwait]
      exact inv_transQueue h he (canTrans_wait h.sched he hc hwait)
    · obtain ⟨hne,hinval⟩ := not_or.mp hwait
      rw [nodeTransStartWait_inval hne (not_not.mp hinval)]
      exact h

end Start

theorem stopped_logged {s : Ctx} (h : Logged s) (n : Node) : Logged (stopped s n) := by
  intro m
  by_cases hm : m = n
  · subst hm
    simpa [stopped,Ctx.setTrans,transStop] using h m
  · simpa [stopped,Ctx.setTrans,hm] using h m

theorem inv_nodeTransStop {s : Ctx} (h : Inv s) {n : Node} (he : Exists s n)
    (ha : Active s n) : Inv (nodeTransStop s n) := by
  obtain ⟨hsched,T,ht⟩ := nodeTransStop_sched h.shape h.sched he ha
  have hshape := h.shape.stopped n
  refine ⟨hshape.of_sameTree ht.sameTree ht.nextNode (fun m hm => ?_)
    (fun m hm => Or.inl (ht.waiting_of hm)),hsched,ht.logged (stopped_logged h.logged n),?_,?_⟩
  · refine ((ht.active_iff m).mp hm).imp_right fun hw => ?_
    by_contra hc
    exact hshape.unqueued m hc hw.2
  · rw [ht.queued]
    exact h.order
  · rw [ht.queued,ht.nextTran]
    exact h.order_lt

/-- One waiter of a node that is being destroyed is turned away. -/
theorem inv_transAbort {s : Ctx} (h : Inv s) {n : Node} (he : Exists s n)
    (hchild : Childless s n) (hidle : ¬ Active s n) : Inv (transAbort s n).1 := by
  rw [transAbort]
  cases hq : (s.trans n).queue with
  | nil => exact h
  | cons tran rest =>
    dsimp only
    set r : Ctx := { s.setTrans n { s.trans n with queue := rest } with
      released := Function.update s.released n (s.released n ++ [(tran,.eAborted)]) } with hr
    have hsame : SameTree s r := ⟨rfl,rfl,rfl⟩
    have hself : r.trans n = { s.trans n with queue := rest } := Ctx.setTrans_trans_self s n _
    have hother : ∀ m, m ≠ n → r.trans m = s.trans m :=
      fun m hm => Ctx.setTrans_trans_of_ne s _ hm
    have hact : ∀ m, Active r m ↔ Active s m := by
      intro m
      by_cases hm : m = n
      · subst hm
        rw [Active,hself]
        rfl
      · exact active_congr (hother m hm)
    have hwait : ∀ m, Waiting r m → Waiting s m := by
      intro m hw
      by_cases hm : m = n
      · subst hm
        simp [Waiting,transQueued,hq]
      · exact (waiting_congr (hother m hm)).mp hw
    refine ⟨h.shape.of_sameTree hsame rfl (fun m ha => Or.inl ((hact m).mp ha))
      (fun m hw => Or.inl (hwait m hw)),⟨h.sched.toApart.anti hsame fun m => (hact m).mp,?_⟩,
      ?_,h.order,h.order_lt⟩
    · intro m hm hw
      rw [hsame.exists_iff] at hm
      refine (h.sched.ahead m hm (hwait m hw)).mono hm
        (fun k hk _ => (hsame.exists_iff k).mpr hk) (fun k => (hact k).mpr) ?_
      intro k hk
      have hne : k ≠ n := by
        rintro rfl
        exact hchild.not_ancestor hm hk
      exact (waiting_congr (hother k hne)).mpr
    · intro m
      have hl := h.logged m
      by_cases hm : m = n
      · subst hm
        rw [hq] at hl
        rw [hself]
        simpa [hr,Ctx.setTrans] using hl
      · rw [hother m hm]
        simpa [hr,hm,Ctx.setTrans] using hl

theorem transInit_same {s : Ctx} (h : Shape s) {n : Node} (hn : ¬ Exists s n) (m : Node) :
    ((s.setTrans n transInit).trans m).activeDesc = (s.trans m).activeDesc ∧
      ((s.setTrans n transInit).trans m).queue = (s.trans m).queue := by
  by_cases hm : m = n
  · subst hm
    rw [Ctx.setTrans_trans_self,not_active_iff.mp (h.inactive m hn),
      not_waiting_iff.mp (h.unqueued m hn)]
    exact ⟨rfl,rfl⟩
  · rw [Ctx.setTrans_trans_of_ne s _ hm]
    exact ⟨rfl,rfl⟩

theorem Shape.rest {s s' : Ctx} (h : Shape s)
    (htrans : ∀ n, (s'.trans n).activeDesc = (s.trans n).activeDesc ∧
      (s'.trans n).queue = (s.trans n).queue) {n : Node} (hn : ¬ Exists s n) :
    ¬ Active s' n ∧ ¬ Waiting s' n := by
  rw [not_active_iff,not_waiting_iff,(htrans n).1,(htrans n).2]
  exact ⟨not_active_iff.mp (h.inactive n hn),not_waiting_iff.mp (h.unqueued n hn)⟩

theorem inv_psocCreate {s : Ctx} (h : Inv s) (halive : s.alive = true) (alloc : Bool) :
    Inv (psocCreate s alloc) := by
  cases alloc with
  | false => exact h
  | true =>
    have hfresh : s.nextNode ∉ s.psocs := fun hp => lt_irrefl _ (h.shape.psocs_lt _ hp)
    have htrans := transInit_same h.shape (n := .psoc s.nextNode) hfresh
    have hvdevs : Function.update s.vdevs s.nextNode [] = s.vdevs := by
      rw [← h.shape.vdevs_nil _ hfresh,Function.update_eq_self]
    have hgrow : ∀ n, Exists s n → Exists (psocCreate s true) n := by
      rintro (_|p|⟨p,v⟩) hn
      · exact hn
      · exact List.mem_append_left _ hn
      · refine ⟨List.mem_append_left _ hn.1,?_⟩
        simpa [psocCreate,hvdevs] using hn.2
    refine h.of_shape ?_ htrans (fun n hn _ => hgrow n hn) rfl rfl rfl
    refine ⟨fun ha => ?_,?_,?_,?_,?_,?_,?_,?_⟩
    · rw [show (psocCreate s true).alive = s.alive from rfl,halive] at ha
      cases ha
    · refine List.pairwise_append.mpr ⟨h.shape.psocs_sorted,List.pairwise_singleton _ _,?_⟩
      intro p hp q hq
      rw [List.mem_singleton.mp hq]
      exact h.shape.psocs_lt p hp
    · intro p hp
      rcases List.mem_append.mp hp with hp|hp
      · exact (h.shape.psocs_lt p hp).trans (Nat.lt_succ_self _)
      · rw [List.mem_singleton.mp hp]
        exact Nat.lt_succ_self _
    · intro p
      simpa [psocCreate,hvdevs] using h.shape.vdevs_sorted p
    · intro p v hv
      refine (h.shape.vdevs_lt p v ?_).trans (Nat.lt_succ_self _)
      simpa [psocCreate,hvdevs] using hv
    · intro p hp
      simpa [psocCreate,hvdevs] using
        h.shape.vdevs_nil p fun hh => hp (List.mem_append_left _ hh)
    · exact fun n hn => (h.shape.rest htrans fun hh => hn (hgrow n hh)).1
    · exact fun n hn => (h.shape.rest htrans fun hh => hn (hgrow n hh)).2

theorem inv_vdevCreate {s : Ctx} (h : Inv s) {p : ℕ} (hp : p ∈ s.psocs) (alloc : Bool) :
    Inv (vdevCreate s p alloc) := by
  cases alloc with
  | false => exact h
  | true =>
    have hfresh : s.nextNode ∉ s.vdevs p := fun hv => lt_irrefl _ (h.shape.vdevs_lt p _ hv)
    have htrans := transInit_same h.shape (n := .vdev p s.nextNode) fun hh => hfresh hh.2
    have hself : (vdevCreate s p true).vdevs p = s.vdevs p ++ [s.nextNode] := by
      simp [vdevCreate]
    have hother : ∀ q, q ≠ p → (vdevCreate s p true).vdevs q = s.vdevs q := by
      intro q hq
      simp [vdevCreate,hq]
    have hgrow : ∀ n, Exists s n → Exists (vdevCreate s p true) n := by
      rintro (_|q|⟨q,v⟩) hn
      · exact hn
      · exact hn
      · refine ⟨hn.1,?_⟩
        by_cases hq : q = p
        · subst hq
          rw [hself]
          exact List.mem_append_left _ hn.2
        · rw [hother q hq]
          exact hn.2
    refine h.of_shape ?_ htrans (fun n hn _ => hgrow n hn) rfl rfl rfl
    refine ⟨h.shape.alive,h.shape.psocs_sorted,?_,?_,?_,?_,?_,?_⟩
    · exact fun q hq => (h.shape.psocs_lt q hq).trans (Nat.lt_succ_self _)
    · intro q
      by_cases hq : q = p
      · subst hq
        rw [hself]
        refine List.pairwise_append.mpr
          ⟨h.shape.vdevs_sorted q,List.pairwise_singleton _ _,?_⟩
        intro v hv w hw
        rw [List.mem_singleton.mp hw]
        exact h.shape.vdevs_lt q v hv
      · rw [hother q hq]
        exact h.shape.vdevs_sorted q
    · intro q v hv
      by_cases hq : q = p
      · subst hq
        rw [hself] at hv
        rcases List.mem_append.mp hv with hv|hv
        · exact (h.shape.vdevs_lt q v hv).trans (Nat.lt_succ_self _)
        · rw [List.mem_singleton.mp hv]
          exact Nat.lt_succ_self _
      · rw [hother q hq] at hv
        exact (h.shape.vdevs_lt q v hv).trans (Nat.lt_succ_self _)
    · intro q hq
      have hne : q ≠ p := fun heq => hq (heq ▸ hp)
      rw [hother q hne]
      exact h.shape.vdevs_nil q hq
    · exact fun n hn => (h.shape.rest htrans fun hh => hn (hgrow n hh)).1
    · exact fun n hn => (h.shape.rest htrans fun hh => hn (hgrow n hh)).2

/-- What is in the tree after a node has been taken out. -/
theorem exists_detach_iff {s : Ctx} (h : Shape s) {n : Node} (he : Exists s n)
    (hchild : Childless s n) (m : Node) : Exists (detach s n) m ↔ Exists s m ∧ m ≠ n := by
  cases n with
  | driver =>
    have hnil : s.psocs = [] := hchild
    cases m <;> simp [Exists,detach,Ctx.setOps,hnil]
  | psoc p =>
    have hnil : s.vdevs p = [] := hchild
    cases m with
    | driver => simp [Exists,detach,Ctx.setOps]
    | psoc q =>
      simp only [Exists,detach,h.nodup_psocs.mem_erase_iff]
      simp [and_comm]
    | vdev q v =>
      simp only [Exists,detach,h.nodup_psocs.mem_erase_iff,Ctx.setOps]
      constructor
      · rintro ⟨⟨-,hq⟩,hv⟩
        exact ⟨⟨hq,hv⟩,by simp⟩
      · rintro ⟨⟨hq,hv⟩,-⟩
        refine ⟨⟨?_,hq⟩,hv⟩
        rintro rfl
        rw [hnil] at hv
        cases hv
  | vdev p v =>
    cases m with
    | driver => simp [Exists,detach,Ctx.setOps]
    | psoc q => simp [Exists,detach,Ctx.setOps]
    | vdev q w =>
      by_cases hq : q = p
      · subst hq
        simp only [Exists,detach,Ctx.setOps,Function.update_self,
          (h.nodup_vdevs q).mem_erase_iff]
        simp only [ne_eq,Node.vdev.injEq,true_and]
        tauto
      · simp [Exists,detach,Ctx.setOps,hq]

theorem inv_detach {s : Ctx} (h : Inv s) {n : Node} (he : Exists s n)
    (hchild : Childless s n) (hidle : ¬ Active s n) (hempty : ¬ Waiting s n) :
    Inv (detach s n) := by
  have hex := exists_detach_iff h.shape he hchild
  have htrans : ∀ m, (detach s n).trans m = s.trans m := by
    cases n <;> exact fun m => rfl
  have hpsocs : List.Sublist (detach s n).psocs s.psocs := by
    cases n with
    | driver => exact List.Sublist.refl _
    | psoc p => exact List.erase_sublist
    | vdev p v => exact List.Sublist.refl _
  have hvdevs : ∀ q, List.Sublist ((detach s n).vdevs q) (s.vdevs q) := by
    intro q
    cases n with
    | driver => exact List.Sublist.refl _
    | psoc p => exact List.Sublist.refl _
    | vdev p v =>
      by_cases hq : q = p
      · subst hq
        simpa [detach] using List.erase_sublist
      · simp [detach,hq,Ctx.setOps]
  have hrest : ∀ m, ¬ Exists (detach s n) m →
      ¬ Active (detach s n) m ∧ ¬ Waiting (detach s n) m := by
    intro m hm
    rw [active_congr (htrans m),waiting_congr (htrans m)]
    by_cases hmn : m = n
    · subst hmn
      exact ⟨hidle,hempty⟩
    · have hm' : ¬ Exists s m := fun hh => hm ((hex m).mpr ⟨hh,hmn⟩)
      exact ⟨h.shape.inactive m hm',h.shape.unqueued m hm'⟩
  refine h.of_shape ?_ (fun m => by rw [htrans]; exact ⟨rfl,rfl⟩) (fun m hm ha => ?_)
    (by cases n <;> rfl) (by cases n <;> rfl) (by cases n <;> rfl)
  · have hnext : (detach s n).nextNode = s.nextNode := by cases n <;> rfl
    refine ⟨fun ha => ?_,h.shape.psocs_sorted.sublist hpsocs,
      fun p hp => hnext ▸ h.shape.psocs_lt p (hpsocs.subset hp),
      fun p => (h.shape.vdevs_sorted p).sublist (hvdevs p),
      fun p v hv => hnext ▸ h.shape.vdevs_lt p v ((hvdevs p).subset hv),fun p hp => ?_,
      fun m hm => (hrest m hm).1,fun m hm => (hrest m hm).2⟩
    · cases n with
      | driver => exact hchild
      | psoc p =>
        have hnil := h.shape.alive ha
        simp [detach,hnil]
      | vdev p v => exact h.shape.alive ha
    · by_cases hps : p ∈ s.psocs
      · cases n with
        | driver => exact absurd hps hp
        | psoc q =>
          have hpq : p = q := by
            by_contra hne
            exact hp ((List.mem_erase_of_ne hne).mpr hps)
          subst hpq
          exact hchild
        | vdev q v => exact absurd hps hp
      · have hsub := hvdevs p
        rw [h.shape.vdevs_nil p hps] at hsub
        exact List.sublist_nil.mp hsub
  · refine (hex m).mpr ⟨hm,?_⟩
    rintro rfl
    exact hidle ha

theorem inv_step {s : Ctx} {op : Op} (h : Inv s) (hlegal : Legal s op) : Inv (step s op) := by
  cases op with
  | psocCreate alloc => exact inv_psocCreate h hlegal alloc
  | vdevCreate p alloc => exact inv_vdevCreate h hlegal alloc
  | transStart fl n desc => exact inv_nodeTransStart h hlegal
  | transStartWait fl n desc => exact inv_nodeTransStartWait h hlegal
  | transStop n => exact inv_nodeTransStop h hlegal.1 hlegal.2
  | opStart fl n => exact (quiet_opStart s fl n).inv h
  | opStop n => exact (quiet_setOps s n _).inv h
  | abort n =>
    obtain ⟨he,hchild,hidle⟩ := hlegal
    exact inv_transAbort h he hchild (Bool.eq_false_iff.mp hidle)
  | detach n =>
    obtain ⟨he,hchild,hidle,hempty⟩ := hlegal
    exact inv_detach h he hchild (Bool.eq_false_iff.mp hidle) (Bool.eq_false_iff.mp hempty)
  | waitForOps i n => exact (quiet_setCall s i _).inv h
  | waitStep i => exact (quiet_waitStep s i).inv h

theorem inv_run {ops : List Op} (hg : Guarded step Legal driverCreate ops) :
    Inv (run step driverCreate ops) :=
  guarded_invariant (fun _ _ => inv_step) inv_driverCreate ops hg

/-- At no time are two nodes of one path active, and an operation starts only where no
transition on its path is active. -/
theorem active_nodes_apart (ops : List Op) (hg : Guarded step Legal driverCreate ops) :
    let s := run step driverCreate ops
    (∀ n m, Exists s n → Exists s m → Ancestor n m → ¬ (Active s n ∧ Active s m)) ∧
      ∀ fl n, Exists s n → (nodeOpStart s fl n).2 = .success →
        ∀ m, Exists s m → Related n m → ¬ Active s m := by
  intro s
  have h : Inv s := inv_run hg
  refine ⟨(apart_iff h.shape.alive).mp h.sched.toApart,?_⟩
  intro fl n _ hop m hm hr
  have hcan : canTrans s fl n = .success := by
    rw [nodeOpStart] at hop
    split at hop
    · exact hop
    · exact not_not.mp ‹_›
  exact canTrans_related hcan hm hr

/-- One driver, one psoc, two vdevs; the psoc's waiter is let in after both vdevs are done. -/
def waitedPsoc : List Op :=
  [.psocCreate true,.vdevCreate 0 true,.vdevCreate 0 true,.transStart ⟨false,false⟩ (.vdev 0 1) 7,
    .transStart ⟨false,false⟩ (.vdev 0 2) 8,.transStartWait ⟨false,false⟩ (.psoc 0) 9,
    .transStop (.vdev 0 1),.transStop (.vdev 0 2)]

theorem waitedPsoc_legal : Guarded step Legal driverCreate waitedPsoc := by
  decide +kernel

theorem active_nodes_apart_waitedPsoc :
    let s := run step driverCreate waitedPsoc
    (∀ n m, Exists s n → Exists s m → Ancestor n m → ¬ (Active s n ∧ Active s m)) ∧
      ∀ fl n, Exists s n → (nodeOpStart s fl n).2 = .success →
        ∀ m, Exists s m → Related n m → ¬ Active s m :=
  active_nodes_apart waitedPsoc waitedPsoc_legal

/-- The nodes of the tree -/
def nodes (s : Ctx) : List Node :=
  .driver :: s.psocs.flatMap fun p => .psoc p :: (s.vdevs p).map (.vdev p)

theorem SameTree.nodes_eq {s s' : Ctx} (h : SameTree s s') : nodes s' = nodes s := by
  rw [nodes,nodes,h.psocs,h.vdevs]

theorem mem_nodes {s : Ctx} {n : Node} (he : Exists s n) : n ∈ nodes s := by
  cases n with
  | driver => exact List.mem_cons_self
  | psoc p =>
    exact List.mem_cons_of_mem _ (List.mem_flatMap.mpr ⟨p,he,List.mem_cons_self⟩)
  | vdev p v =>
    refine List.mem_cons_of_mem _ (List.mem_flatMap.mpr ⟨p,he.1,List.mem_cons_of_mem _ ?_⟩)
    exact List.mem_map_of_mem he.2

/-- The stops that a node's transition and its waiters still owe, and one for letting each
waiter in. -/
def transLoad (t : Trans) : ℕ := 2*t.queue.length + if transActive t then 1 else 0

def load (s : Ctx) : ℕ := ((nodes s).map fun n => transLoad (s.trans n)).sum

theorem transLoad_pop_le (t : Trans) : transLoad (pop t) ≤ transLoad t := by
  rw [pop]
  cases hq : t.queue with
  | nil => exact le_rfl
  | cons tran rest =>
    simp only [transLoad,transStart,hq,transActive,List.length_cons,Option.isSome_some,if_true]
    omega

/-- Every stop brings the end nearer, whoever it lets in. -/
theorem load_nodeTransStop_lt {s : Ctx} (h : Inv s) {n : Node} (he : Exists s n)
    (ha : Active s n) : load (nodeTransStop s n) < load s := by
  obtain ⟨-,T,ht⟩ := nodeTransStop_sched h.shape h.sched he ha
  have hle : ∀ m, transLoad ((nodeTransStop s n).trans m) ≤ transLoad ((stopped s n).trans m) := by
    intro m
    by_cases hm : m ∈ T
    · rw [ht.hit m hm]
      exact transLoad_pop_le _
    · rw [ht.miss m hm]
  have hself : transLoad ((stopped s n).trans n) < transLoad (s.trans n) := by
    rw [stopped,Ctx.setTrans_trans_self,transLoad,transLoad,if_pos (show transActive _ = true from ha)]
    simp [transStop,transActive]
  rw [load,load,((stopped_sameTree s n).trans ht.sameTree).nodes_eq]
  refine List.sum_lt_sum _ _ (fun m _ => (hle m).trans ?_) ⟨n,mem_nodes he,(hle n).trans_lt hself⟩
  by_cases hm : m = n
  · subst hm
    exact hself.le
  · rw [stopped,Ctx.setTrans_trans_of_ne s _ hm]

theorem stops_length_le {s : Ctx} (h : Inv s) (stops : List Op)
    (hg : Guarded step Legal s stops) (hstops : ∀ op ∈ stops, ∃ n, op = .transStop n) :
    stops.length ≤ load s := by
  induction stops generalizing s with
  | nil => exact Nat.zero_le _
  | cons op stops ih =>
    obtain ⟨n,rfl⟩ := hstops op List.mem_cons_self
    have hrest := ih (inv_step h hg.1) hg.2 fun op hop => hstops op (List.mem_cons_of_mem _ hop)
    have hlt := load_nodeTransStop_lt h hg.1.1 hg.1.2
    rw [List.length_cons]
    exact (Nat.succ_le_succ hrest).trans hlt

/-- When nothing is active any more nobody waits any more. -/
theorem Inv.queues_empty {s : Ctx} (h : Inv s) (hidle : ∀ n, Exists s n → ¬ Active s n)
    (n : Node) : (s.trans n).queue = [] := by
  have hno : ∀ m, ¬ Active s m := fun m ha =>
    hidle m (not_imp_not.mp (h.shape.inactive m) ha) ha
  have hd : ¬ Waiting s .driver := by
    intro hw
    have he := not_imp_not.mp (h.shape.unqueued _) hw
    rcases h.sched.ahead .driver he hw with ha|⟨p,hp,ha|⟨v,hv,ha⟩⟩ <;> exact hno _ ha
  have hp : ∀ p, ¬ Waiting s (.psoc p) := by
    intro p hw
    have he := not_imp_not.mp (h.shape.unqueued _) hw
    rcases h.sched.ahead (.psoc p) he hw with (ha|hw)|ha|⟨v,hv,ha⟩
    · exact hno _ ha
    · exact hd hw
    · exact hno _ ha
    · exact hno _ ha
  rw [← not_waiting_iff]
  cases n with
  | driver => exact hd
  | psoc p => exact hp p
  | vdev p v =>
    intro hw
    have he := not_imp_not.mp (h.shape.unqueued _) hw
    rcases h.sched.ahead (.vdev p v) he hw with (ha|hw)|(ha|hw)|ha
    · exact hno _ ha
    · exact hd hw
    · exact hno _ ha
    · exact hp p hw
    · exact hno _ ha

end Dsc
end MarbleModules
