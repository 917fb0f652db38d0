import MarbleModules.DfcRefs

/-! Queues and grants: as long as no bearer comes to have two queues, a data queue is
stopped exactly when its bearer has no grant. -/
namespace MarbleModules
namespace Dfc

open Runs

/-- Queues and listed bearers know each other, and each bearer's queue is in step. -/
structure Bound (cfg : Cfg) (s : Qos) : Prop where
  mqDefault : (s.mq defaultMqNum).bearer = none
  mqOf : ∀ i < maxMqNum, ∀ a, (s.mq i).bearer = some a → (s.bearer a).mqIdx = i
  idx : ∀ a ∈ s.bearerHead,
    ((s.bearer a).mqIdx = invalidMq ∧ (s.bearer a).ackMqIdx = invalidMq) ∨
      ((s.bearer a).mqIdx < maxMqNum ∧ (s.mq (s.bearer a).mqIdx).bearer = some a ∧
        (s.bearer a).ackMqIdx = (s.bearer a).mqIdx+ackMqOffset)
  sync : ∀ a ∈ s.bearerHead, Synced cfg s a

/-- Every bearer with a queue has a flow. -/
def Used (s : Qos) (flows : List Flow) : Prop :=
  ∀ i < maxMqNum, ∀ a, (s.mq i).bearer = some a → ∃ f ∈ flows, f.bearer = some a

namespace Bound

variable {cfg : Cfg} {s : Qos}

/-- A queue with a bearer is not the default queue. -/
theorem mq_pos (h : Bound cfg s) {i a : ℕ} (hi : (s.mq i).bearer = some a) : 0 < i := by
  rcases Nat.eq_zero_or_pos i with rfl|hp
  · exact absurd (h.mqDefault.symm.trans hi) (by simp)
  · exact hp

/-- Acknowledgement queues are none of the data queues. -/
theorem ack_le (h : Bound cfg s) {a : ℕ} (ha : a ∈ s.bearerHead) :
    maxMqNum ≤ (s.bearer a).ackMqIdx := by
  rcases h.idx a ha with ⟨-,hk⟩|⟨-,hm,hk⟩
  · rw [hk]
    decide
  · have := h.mq_pos hm
    rw [hk,ackMqOffset,maxMqNum]
    omega

/-- Two listed bearers do not have the same queue. -/
theorem idx_inj (h : Bound cfg s) {a c : ℕ} (ha : a ∈ s.bearerHead) (hc : c ∈ s.bearerHead)
    (hlt : (s.bearer a).mqIdx < maxMqNum) (he : (s.bearer a).mqIdx = (s.bearer c).mqIdx) :
    a = c := by
  rcases h.idx a ha with ⟨hi,-⟩|⟨-,hma,-⟩
  · rw [hi] at hlt
    exact absurd hlt (by decide)
  rcases h.idx c hc with ⟨hi,-⟩|⟨-,hmc,-⟩
  · rw [he,hi] at hlt
    exact absurd hlt (by decide)
  rw [he,hmc] at hma
  exact (Option.some.inj hma).symm

/-- An operation on one listed bearer keeps all queues in step. -/
theorem keeps (h : Bound cfg s) {s' : Qos} {a : ℕ} (ha : a ∈ s.bearerHead)
    (hk : Keeps cfg a s s') : Bound cfg s' where
  mqDefault := (hk.same.mq _).trans h.mqDefault
  mqOf i hi c hc := by
    rw [hk.same.mqIdx]
    exact h.mqOf i hi c ((hk.same.mq i).symm.trans hc)
  idx c hc := by
    rw [hk.same.mqIdx,hk.same.ackMqIdx,hk.same.mq]
    exact h.idx c (hk.same.bearerHead ▸ hc)
  sync c hc := by
    have hcs : c ∈ s.bearerHead := hk.same.bearerHead ▸ hc
    by_cases hca : c = a
    · subst hca
      exact hk.own (h.ack_le ha) (h.sync c ha)
    · unfold Synced
      rw [hk.same.mqIdx,hk.other c hca]
      intro hm hn
      have hne : (s.bearer c).mqIdx ≠ (s.bearer a).mqIdx := fun he =>
        hca (h.idx_inj hcs ha hm he)
      rw [hk.queue (h.ack_le ha) _ hm hne]
      exact h.sync c hcs hm hn

theorem visits {as : List ℕ} (h : Bound cfg s) {s' : Qos} (has : as ⊆ s.bearerHead)
    (hv : Visits cfg as s s') : Bound cfg s' := by
  induction as generalizing s with
  | nil =>
    obtain rfl : s' = s := hv
    exact h
  | cons a as ih =>
    obtain ⟨t,ht,hs⟩ := hv
    refine ih (h.keeps (has (by simp)) ht) ?_ hs
    rw [ht.same.bearerHead]
    exact fun c hc => has (by simp [hc])

/-- Fewer bearers and queues: those left have kept their ties, grants and queue states. -/
theorem fewer (h : Bound cfg s) {s' : Qos} (hhead : s'.bearerHead ⊆ s.bearerHead)
    (hmq : ∀ i < maxMqNum, ∀ a, (s'.mq i).bearer = some a → (s.mq i).bearer = some a)
    (hb : ∀ a, (s'.bearer a).mqIdx = (s.bearer a).mqIdx ∧
      (s'.bearer a).ackMqIdx = (s.bearer a).ackMqIdx ∧
      (s'.bearer a).grantSize = (s.bearer a).grantSize)
    (hkeep : ∀ a ∈ s'.bearerHead, ∀ i < maxMqNum, (s.mq i).bearer = some a →
      (s'.mq i).bearer = some a ∧ s'.txStopped i = s.txStopped i) : Bound cfg s' where
  mqDefault := by
    cases hc : (s'.mq defaultMqNum).bearer with
    | none => rfl
    | some a =>
      exact absurd (h.mqDefault.symm.trans (hmq defaultMqNum (by decide) a hc)) (by simp)
  mqOf i hi a ha := (hb a).1.trans (h.mqOf i hi a (hmq i hi a ha))
  idx a ha := by
    rw [(hb a).1,(hb a).2.1]
    rcases h.idx a (hhead ha) with hl|⟨hlt,hm,hk⟩
    · exact .inl hl
    · exact .inr ⟨hlt,(hkeep a ha _ hlt hm).1,hk⟩
  sync a ha := by
    unfold Synced
    rw [(hb a).1,(hb a).2.2]
    intro hm hn
    rcases h.idx a (hhead ha) with ⟨hi,-⟩|⟨-,hma,-⟩
    · rw [hi] at hm
      exact absurd hm (by decide)
    · rw [(hkeep a ha _ hm hma).2]
      exact h.sync a (hhead ha) hm hn

end Bound

/-- The QoS map between calls -/
structure InStep (cfg : Cfg) (s : Qos) : Prop where
  counted : Counted s
  bound : Bound cfg s
  used : Used s s.flowHead

theorem InStep.keeps {cfg : Cfg} {s s' : Qos} (h : InStep cfg s) {a : ℕ}
    (ha : a ∈ s.bearerHead) (hk : Keeps cfg a s s') : InStep cfg s' where
  counted := h.counted.congr hk.same
  bound := h.bound.keeps ha hk
  used i hi c hc := by
    rw [hk.same.flowHead]
    exact h.used i hi c ((hk.same.mq i).symm.trans hc)

theorem InStep.visits {cfg : Cfg} {s s' : Qos} (h : InStep cfg s)
    (hv : Visits cfg s.bearerHead s s') : InStep cfg s' where
  counted := h.counted.congr hv.same
  bound := h.bound.visits (fun _ ha => ha) hv
  used i hi c hc := by
    rw [hv.same.flowHead]
    exact h.used i hi c ((hv.same.mq i).symm.trans hc)

/-! ## Putting a bearer -/

theorem releaseMq_txStopped (cfg : Cfg) {a : ℕ} (reset : Bool) {s : Qos} {i j : ℕ}
    (hj : j < maxMqNum) (h : (s.mq i).bearer = some a → j ≠ i ∧ 0 < i) :
    (releaseMq cfg a reset s i).txStopped j = s.txStopped j := by
  unfold releaseMq
  split_ifs with hi
  · rfl
  · obtain ⟨hji,hpos⟩ := h (not_not.mp hi)
    rw [flowControl_txStopped,if_neg (by rw [ackMqOffset]; omega),flowControl_txStopped,
      if_neg (fun hc => hji hc.1)]

/-- Releasing the queues of a bearer leaves the other data queues running or stopped. -/
theorem releaseMqs_txStopped (cfg : Cfg) {a : ℕ} (reset : Bool) {s : Qos}
    (h0 : (s.mq defaultMqNum).bearer ≠ some a) {j : ℕ} (hj : j < maxMqNum)
    (hne : (s.mq j).bearer ≠ some a) (n : ℕ) :
    ((List.range n).foldl (releaseMq cfg a reset) s).txStopped j = s.txStopped j := by
  induction n with
  | zero => rfl
  | succ n ih =>
    rw [List.range_succ,List.foldl_append,List.foldl_cons,List.foldl_nil,← ih]
    refine releaseMq_txStopped cfg reset hj fun hn => ?_
    rw [(releaseMqs_spec cfg a reset s n).2 n,if_neg (by simp)] at hn
    exact ⟨fun he => hne (he ▸ hn),Nat.pos_of_ne_zero fun hz => h0 (by rw [hz] at hn; exact hn)⟩

/-- What `__qmi_rmnet_bearer_put` does to queues and bearers: the queues of the bearer are
released with its last reference. -/
theorem bearerPut_queues (cfg : Cfg) (s : Qos) (c : ℕ) (reset : Bool) :
    (∀ j < maxMqNum, ((bearerPut cfg s (some c) reset).mq j).bearer =
      if (s.bearer c).flowRef-1 = 0 ∧ (s.mq j).bearer = some c then none
      else (s.mq j).bearer) ∧
    (∀ a, ((bearerPut cfg s (some c) reset).bearer a).mqIdx = (s.bearer a).mqIdx ∧
      ((bearerPut cfg s (some c) reset).bearer a).ackMqIdx = (s.bearer a).ackMqIdx ∧
      ((bearerPut cfg s (some c) reset).bearer a).grantSize = (s.bearer a).grantSize) ∧
    ((s.mq defaultMqNum).bearer ≠ some c → ∀ j < maxMqNum, (s.mq j).bearer ≠ some c →
      (bearerPut cfg s (some c) reset).txStopped j = s.txStopped j) ∧
    ((s.bearer c).flowRef-1 ≠ 0 →
      (bearerPut cfg s (some c) reset).txStopped = s.txStopped) ∧
    ((s.bearer c).flowRef-1 = 0 →
      (bearerPut cfg s (some c) reset).removedBearer = some c) := by
  have hties : ∀ a, ((s.setBearer c fun b => { b with flowRef := b.flowRef-1 }).bearer
      a).mqIdx = (s.bearer a).mqIdx ∧
      ((s.setBearer c fun b => { b with flowRef := b.flowRef-1 }).bearer a).ackMqIdx =
        (s.bearer a).ackMqIdx ∧
      ((s.setBearer c fun b => { b with flowRef := b.flowRef-1 }).bearer a).grantSize =
        (s.bearer a).grantSize := by
    intro a
    by_cases ha : a = c
    · subst ha
      simp
    · rw [setBearer_ne _ _ ha]
      exact ⟨rfl,rfl,rfl⟩
  simp only [bearerPut,setBearer_self]
  by_cases h0 : (s.bearer c).flowRef-1 = 0
  · obtain ⟨hs,hmq⟩ := releaseMqs_spec cfg c reset
      (s.setBearer c fun b => { b with flowRef := b.flowRef-1 }) maxMqNum
    simp only [h0,if_true,true_and]
    refine ⟨fun j hj => ?_,fun a => ?_,fun hz j hj hne => ?_,fun hc => absurd rfl hc,
      fun _ => trivial⟩
    · rw [hmq j]
      simp only [hj,true_and]
      rfl
    · rw [hs.bearer]
      exact hties a
    · exact releaseMqs_txStopped (s := s.setBearer c fun b => { b with flowRef := b.flowRef-1 })
        cfg reset hz hj hne maxMqNum
  · simp only [h0,false_and,if_false]
    exact ⟨fun _ _ => rfl,hties,fun _ _ _ _ => rfl,fun _ => rfl,fun hc => hc.elim⟩

theorem Bound.bearerPut {cfg : Cfg} {s : Qos} (h : Bound cfg s) {itm : Flow}
    {rest : List Flow} (hl : Linked s (itm::rest)) (reset : Bool) :
    Bound cfg (bearerPut cfg s itm.bearer reset) := by
  have hput := (hl.bearerPut cfg reset).1
  cases hb : itm.bearer with
  | none => exact h
  | some c =>
    rw [hb] at hput
    obtain ⟨hmq,hties,hstop,hsame,hrem⟩ := bearerPut_queues cfg s c reset
    obtain ⟨-,hsub,-⟩ := bearerPut_head cfg s c reset
    refine h.fewer hsub (fun i hi a ha => ?_) hties (fun a ha i hi hia => ?_)
    · rw [hmq i hi] at ha
      split_ifs at ha
      exact ha
    · by_cases h0 : (s.bearer c).flowRef-1 = 0
      · have hne : a ≠ c := fun he => (hput.removed c (hrem h0)).1 (he ▸ ha)
        have hic : (s.mq i).bearer ≠ some c := by
          rw [hia]
          simpa using hne
        refine ⟨?_,hstop (by rw [h.mqDefault]; simp) i hi hic⟩
        rw [hmq i hi,if_neg (fun hc => hic hc.2),hia]
      · refine ⟨?_,by rw [hsame h0]⟩
        rw [hmq i hi,if_neg (fun hc => h0 hc.1),hia]

theorem Used.bearerPut {cfg : Cfg} {s : Qos} {itm : Flow} {rest : List Flow}
    (h : Used s (itm::rest)) (hl : Linked s (itm::rest)) (reset : Bool) :
    Used (bearerPut cfg s itm.bearer reset) rest := by
  have hput := (hl.bearerPut cfg reset).1
  intro i hi a ha
  cases hb : itm.bearer with
  | none =>
    rw [hb] at ha
    obtain ⟨f,hf,hfa⟩ := h i hi a ha
    rcases List.mem_cons.mp hf with rfl|hf
    · rw [hb] at hfa
      exact absurd hfa (by simp)
    · exact ⟨f,hf,hfa⟩
  | some c =>
    rw [hb] at ha hput
    obtain ⟨hmq,-⟩ := bearerPut_queues cfg s c reset
    rw [hmq i hi] at ha
    split_ifs at ha with hc
    by_cases hac : a = c
    · subst hac
      have h0 : (s.bearer a).flowRef-1 ≠ 0 := fun hz => hc ⟨hz,ha⟩
      have hm := hl.mqBearer i hi a ha
      have hr := hl.flowRef a hm
      rw [refs_cons,if_pos hb] at hr
      have hpos : 0 < refs rest a := by omega
      obtain ⟨f,hf,hfa⟩ := List.countP_pos_iff.mp hpos
      exact ⟨f,hf,by simpa using hfa⟩
    · obtain ⟨f,hf,hfa⟩ := h i hi a ha
      rcases List.mem_cons.mp hf with rfl|hf
      · rw [hb] at hfa
        exact absurd (Option.some.inj hfa).symm hac
      · exact ⟨f,hf,hfa⟩

/-- A queue that a put bearer leaves had no bearer, or the bearer's last flow is gone. -/
theorem bearerPut_free {cfg : Cfg} {s : Qos} {itm : Flow} {rest : List Flow}
    (hl : Linked s (itm::rest)) (reset : Bool) {i : ℕ} (hi : i < maxMqNum)
    (hfree : ((bearerPut cfg s itm.bearer reset).mq i).bearer = none) :
    ∀ c, (s.mq i).bearer = some c → ∀ f ∈ rest, f.bearer ≠ some c := by
  intro c hc f hf hfc
  cases hb : itm.bearer with
  | none =>
    rw [hb] at hfree
    exact absurd (hc.symm.trans hfree) (by simp)
  | some d =>
    rw [hb,(bearerPut_queues cfg s d reset).1 i hi,hc] at hfree
    split_ifs at hfree with hd
    obtain rfl : c = d := Option.some.inj hd.2
    have hr := hl.flowRef c (hl.mqBearer i hi c hc)
    rw [refs_cons,if_pos hb] at hr
    have hz : refs rest c = 0 := by omega
    have := List.countP_eq_zero.mp hz f hf
    simp [hfc] at this

theorem bearerPut_mq {cfg : Cfg} {s : Qos} (bearer : Option ℕ) (reset : Bool) {i : ℕ}
    (hi : i < maxMqNum) {a : ℕ}
    (ha : ((bearerPut cfg s bearer reset).mq i).bearer = some a) : (s.mq i).bearer = some a := by
  cases bearer with
  | none => exact ha
  | some c =>
    rw [(bearerPut_queues cfg s c reset).1 i hi] at ha
    split_ifs at ha
    exact ha

/-! ## Getting a bearer and binding a queue -/

theorem Bound.ref {cfg : Cfg} {s : Qos} (h : Bound cfg s) (a : ℕ) : Bound cfg (ref s a) := by
  refine h.fewer (fun _ hc => hc) (fun _ _ _ hc => hc) (fun c => ?_)
    (fun _ _ _ _ hc => ⟨hc,rfl⟩)
  by_cases hc : c = a
  · subst hc
    simp [Dfc.ref]
  · rw [Dfc.ref,setBearer_ne _ _ hc]
    exact ⟨rfl,rfl,rfl⟩

theorem Bound.addBearer {cfg : Cfg} {s : Qos} (h : Bound cfg s) {flows : List Flow}
    (hl : Linked s flows) (bearerId : ℕ) : Bound cfg (addBearer cfg s bearerId) := by
  have hold : ∀ c ∈ s.bearerHead, (Dfc.addBearer cfg s bearerId).bearer c = s.bearer c := by
    intro c hc
    simp [Dfc.addBearer,(hl.addr c hc).ne]
  have hnew : (Dfc.addBearer cfg s bearerId).bearer s.nextAddr = newBearer cfg bearerId := by
    simp [Dfc.addBearer]
  refine ⟨h.mqDefault,fun i hi a ha => ?_,fun a ha => ?_,fun a ha => ?_⟩
  · rw [hold a (hl.mqBearer i hi a ha)]
    exact h.mqOf i hi a ha
  · rcases List.mem_cons.mp ha with rfl|ha
    · rw [hnew]
      exact .inl ⟨rfl,rfl⟩
    · rw [hold a ha]
      exact h.idx a ha
  · unfold Synced
    rcases List.mem_cons.mp ha with rfl|ha
    · rw [hnew]
      intro hm
      exact absurd hm (by decide : ¬invalidMq < maxMqNum)
    · rw [hold a ha]
      exact h.sync a ha

/-- Binding a free queue: the bearer remembers it, has a grant, and the queue runs. -/
theorem updateMq_spec (cfg : Cfg) (s : Qos) (a : ℕ) {mqIdx : ℕ} (h0 : mqIdx ≠ defaultMqNum)
    (hfree : (s.mq mqIdx).bearer = none) :
    (updateMq cfg s a mqIdx).bearerHead = s.bearerHead ∧
    (∀ i, ((updateMq cfg s a mqIdx).mq i).bearer =
      if i = mqIdx then some a else (s.mq i).bearer) ∧
    (∀ c, c ≠ a → (updateMq cfg s a mqIdx).bearer c = s.bearer c) ∧
    ((updateMq cfg s a mqIdx).bearer a).mqIdx = mqIdx ∧
    ((updateMq cfg s a mqIdx).bearer a).ackMqIdx = mqIdx+ackMqOffset ∧
    ((updateMq cfg s a mqIdx).bearer a).grantSize ≠ 0 ∧
    ∀ j < maxMqNum, (updateMq cfg s a mqIdx).txStopped j =
      if j = mqIdx ∧ mqIdx < cfg.numTxQueues then false else s.txStopped j := by
  have hwake : ∀ t : Qos, ∀ i k, (flowControl cfg (flowControl cfg t i true) k true).bearerHead =
      t.bearerHead ∧ (flowControl cfg (flowControl cfg t i true) k true).mq = t.mq ∧
      (flowControl cfg (flowControl cfg t i true) k true).bearer = t.bearer := by
    intro t i k
    obtain ⟨h1,h2⟩ := flowControl_sameButMq cfg t i true
    obtain ⟨h3,h4⟩ := flowControl_sameButMq cfg (flowControl cfg t i true) k true
    exact ⟨h3.bearerHead.trans h1.bearerHead,h4.trans h2,h3.bearer.trans h1.bearer⟩
  simp only [updateMq,if_neg h0,hfree,ne_eq,not_true_eq_false,if_false]
  generalize ht : Qos.setBearer (Qos.setBearer _ a _) a _ = t
  obtain ⟨hhead,hmq,hbearer⟩ := hwake t mqIdx (t.bearer a).ackMqIdx
  have hta : (t.bearer a).mqIdx = mqIdx ∧ (t.bearer a).ackMqIdx = mqIdx+ackMqOffset ∧
      (t.bearer a).grantSize ≠ 0 := by
    rw [← ht]
    simp only [setBearer_self]
    split_ifs with hg
    · exact ⟨rfl,rfl,(by decide : defaultGrant ≠ 0)⟩
    · exact ⟨rfl,rfl,hg⟩
  rw [hhead,hbearer]
  refine ⟨by rw [← ht]; rfl,fun i => ?_,fun c hc => ?_,hta.1,hta.2.1,hta.2.2,fun j hj => ?_⟩
  · rw [hmq,← ht]
    simp only [Qos.setBearer,Function.update_apply]
    split_ifs <;> rfl
  · rw [← ht,setBearer_ne _ _ hc,setBearer_ne _ _ hc]
  · have hne : j ≠ mqIdx+ackMqOffset := by
      change mqIdx ≠ 0 at h0
      rw [ackMqOffset]
      omega
    rw [flowControl_txStopped,hta.2.1,if_neg (fun hc => hne hc.1),flowControl_txStopped,← ht]
    rfl

theorem updateMq_same {cfg : Cfg} {s : Qos} {a mqIdx : ℕ}
    (h : mqIdx = defaultMqNum ∨ (s.mq mqIdx).bearer ≠ none) : updateMq cfg s a mqIdx = s := by
  unfold updateMq
  split_ifs with h0 h1
  · rfl
  · rfl
  · exact (h.elim h0 h1).elim

/-- A bearer without a queue may get one. -/
theorem Bound.updateMq {cfg : Cfg} {s : Qos} (h : Bound cfg s) {a mqIdx : ℕ}
    (hm : mqIdx < maxMqNum)
    (hnew : mqIdx ≠ defaultMqNum → (s.mq mqIdx).bearer = none →
      (s.bearer a).mqIdx = invalidMq) : Bound cfg (updateMq cfg s a mqIdx) := by
  by_cases hsame : mqIdx = defaultMqNum ∨ (s.mq mqIdx).bearer ≠ none
  · rw [updateMq_same hsame]
    exact h
  rw [not_or,not_not] at hsame
  obtain ⟨h0,hfree⟩ := hsame
  obtain ⟨hhead,hmq,hother,hidx,hack,hgrant,hstop⟩ := updateMq_spec cfg s a h0 hfree
  have hinv := hnew h0 hfree
  have hnone : ∀ i < maxMqNum, (s.mq i).bearer ≠ some a := by
    intro i hi hc
    have hi' := h.mqOf i hi a hc
    rw [hinv] at hi'
    rw [← hi'] at hi
    exact absurd hi (by decide)
  refine ⟨?_,fun i hi c hc => ?_,fun c hc => ?_,fun c hc => ?_⟩
  · rw [hmq,if_neg (Ne.symm h0)]
    exact h.mqDefault
  · rw [hmq] at hc
    split_ifs at hc with him
    · obtain rfl : a = c := Option.some.inj hc
      rw [hidx,him]
    · have hca : c ≠ a := fun he => hnone i hi (he ▸ hc)
      rw [hother c hca]
      exact h.mqOf i hi c hc
  · by_cases hca : c = a
    · subst hca
      rw [hidx,hack,hmq,if_pos rfl]
      exact .inr ⟨hm,rfl,rfl⟩
    · rw [hother c hca,hmq]
      rcases h.idx c (hhead ▸ hc) with hl|⟨hlt,hc',hk⟩
      · exact .inl hl
      · have hne : (s.bearer c).mqIdx ≠ mqIdx := fun he => by
          rw [he,hfree] at hc'
          exact absurd hc' (by simp)
        rw [if_neg hne]
        exact .inr ⟨hlt,hc',hk⟩
  · unfold Synced
    by_cases hca : c = a
    · subst hca
      rw [hidx]
      intro _ hn
      rw [hstop mqIdx hm,if_pos ⟨rfl,hn⟩]
      exact iff_of_false (by simp) hgrant
    · rw [hother c hca]
      intro hlt hn
      rcases h.idx c (hhead ▸ hc) with ⟨hl,-⟩|⟨-,hc',-⟩
      · rw [hl] at hlt
        exact absurd hlt (by decide)
      · have hne : (s.bearer c).mqIdx ≠ mqIdx := fun he => by
          rw [he,hfree] at hc'
          exact absurd hc' (by simp)
        rw [hstop _ hlt,if_neg (fun hc => hne hc.1)]
        exact h.sync c (hhead ▸ hc) hlt hn

theorem Bound.clean {cfg : Cfg} {s : Qos} (h : Bound cfg s) : Bound cfg (bearerClean s) := by
  unfold bearerClean
  split
  · exact h
  · exact ⟨h.mqDefault,h.mqOf,h.idx,h.sync⟩

@[simp] theorem bearerClean_flowHead (s : Qos) : (bearerClean s).flowHead = s.flowHead := by
  unfold bearerClean
  split <;> rfl

theorem Used.clean {s : Qos} {flows : List Flow} (h : Used s flows) :
    Used (bearerClean s) flows := by
  unfold bearerClean
  split <;> exact h

/-- Getting a bearer for a flow and binding the flow to it, when that gives no bearer a
second queue -/
theorem InStep.bind {cfg : Cfg} (newMap : Flow) {s s' : Qos} {old : Flow} {rest : List Flow}
    (hl : Linked s rest) (hb : Bound cfg s) (hu : Used s rest) {alloc : Bool} {a : ℕ}
    (hget : bearerGet cfg s newMap.bearerId alloc = (s',some a))
    (hp : s.flowHead.Perm (old::rest)) (hk : old.key = newMap.key)
    (hkey : newMap.key ∉ rest.map Flow.key) (hm : newMap.mqIdx < maxMqNum)
    (hone : newMap.mqIdx ≠ defaultMqNum → (s.mq newMap.mqIdx).bearer = none →
      ∀ c ∈ s.bearerHead, (s.bearer c).bearerId = newMap.bearerId →
        ∀ j < maxMqNum, (s.mq j).bearer ≠ some c) :
    InStep cfg (bearerClean (updateMq cfg
      (setFlow s' { newMap with bearer := some a }) a newMap.mqIdx)) := by
  obtain ⟨hbs,hmq,hinv⟩ : Bound cfg s' ∧ s'.mq = s.mq ∧
      (newMap.mqIdx ≠ defaultMqNum → (s.mq newMap.mqIdx).bearer = none →
        (s'.bearer a).mqIdx = invalidMq) := by
    rcases bearerGet_some hget with ⟨hfind,rfl⟩|⟨-,-,rfl,rfl⟩
    · refine ⟨hb.ref a,rfl,fun h0 hfree => ?_⟩
      obtain ⟨hmem,hid⟩ := getBearerMap_some hfind
      rw [Dfc.ref,setBearer_self]
      rcases hb.idx a hmem with ⟨hi,-⟩|⟨hlt,hma,-⟩
      · exact hi
      · exact absurd hma (hone h0 hfree a hmem hid _ hlt)
    · refine ⟨(hb.addBearer hl _).ref _,rfl,fun _ _ => ?_⟩
      rw [Dfc.ref,setBearer_self]
      simp [Dfc.addBearer,newBearer]
  have hset : Bound cfg (setFlow s' { newMap with bearer := some a }) :=
    ⟨hbs.mqDefault,hbs.mqOf,hbs.idx,hbs.sync⟩
  refine ⟨hl.bind _ cfg hget hp hk hkey,(hset.updateMq hm ?_).clean,?_⟩
  · intro h0 hfree
    exact hinv h0 (hmq ▸ hfree)
  · -- the bound queue is used by the flow itself
    have hmem : ∀ f, f ∈ (setFlow s' { newMap with bearer := some a }).flowHead ↔
        f ∈ ({ newMap with bearer := some a } : Flow)::rest := by
      intro f
      have hfl : s'.flowHead = s.flowHead := by
        rcases bearerGet_some hget with ⟨-,rfl⟩|⟨-,-,-,rfl⟩ <;> rfl
      have hperm := perm_map_key { newMap with bearer := some a }
        (hfl.symm ▸ hp : s'.flowHead.Perm (old::rest)) hk hkey
      exact hperm.mem_iff
    have hflow : (bearerClean (updateMq cfg (setFlow s' { newMap with bearer := some a }) a
        newMap.mqIdx)).flowHead = (setFlow s' { newMap with bearer := some a }).flowHead := by
      rw [bearerClean_flowHead]
      by_cases hsame : newMap.mqIdx = defaultMqNum ∨
          ((setFlow s' { newMap with bearer := some a }).mq newMap.mqIdx).bearer ≠ none
      · rw [updateMq_same hsame]
      · simp only [updateMq]
        split_ifs
        · rfl
        · rfl
        · rw [(flowControl_sameButMq ..).1.flowHead,(flowControl_sameButMq ..).1.flowHead]
          rfl
    rw [hflow]
    refine Used.clean fun i hi c hc => ?_
    have hold : (s.mq i).bearer = some c →
        ∃ f ∈ (setFlow s' { newMap with bearer := some a }).flowHead, f.bearer = some c := by
      intro hc'
      obtain ⟨f,hf,hfc⟩ := hu i hi c hc'
      exact ⟨f,(hmem f).mpr (by simp [hf]),hfc⟩
    by_cases hsame : newMap.mqIdx = defaultMqNum ∨
        ((setFlow s' { newMap with bearer := some a }).mq newMap.mqIdx).bearer ≠ none
    · rw [updateMq_same hsame] at hc
      exact hold (hmq ▸ hc)
    · rw [not_or,not_not] at hsame
      rw [(updateMq_spec cfg _ a hsame.1 hsame.2).2.1] at hc
      split_ifs at hc with him
      · exact ⟨_,(hmem _).mpr (List.mem_cons_self ..),hc⟩
      · exact hold (hmq ▸ hc)

/-! ## Adding and deleting flows -/

/-- Adding the flow gives a bearer another queue: the flow is bound anew, other flows keep
its bearer alive with a queue of its own, and the queue asked for is free or becomes so. -/
def SecondQueue (s : Qos) : Op → Prop
  | .addFlow bearerId flowId ipType mqIdx allocFlow _ =>
    mqIdx < maxMqNum ∧ mqIdx ≠ defaultMqNum ∧
    (∀ itm ∈ getFlowMap s flowId ipType, itm.bearerId ≠ bearerId ∨ itm.mqIdx ≠ mqIdx) ∧
    (allocFlow = true ∨ ∃ itm ∈ getFlowMap s flowId ipType, itm.bearerId ≠ bearerId) ∧
    (∃ a ∈ s.bearerHead, (s.bearer a).bearerId = bearerId ∧
      (∃ f ∈ s.flowHead, f.key ≠ (flowId,ipType) ∧ f.bearer = some a) ∧
      ∃ j < maxMqNum, j ≠ mqIdx ∧ (s.mq j).bearer = some a) ∧
    ∀ c ∈ (s.mq mqIdx).bearer, ∀ f ∈ s.flowHead, f.bearer = some c → f.key = (flowId,ipType)
  | _ => False

instance (s : Qos) : DecidablePred (SecondQueue s)
  | .addFlow .. => inferInstanceAs (Decidable (_ ∧ _ ∧ _ ∧ _ ∧ _ ∧ _))
  | .delFlow .. | .flowStatus .. | .txLinkStatus .. | .burstCheck .. | .watchdog .. |
    .enableAllFlows | .preparePsBearers .. => isFalse id

/-- Once the flow is off its old bearer, a bearer with the new identifier and a queue means
that the free queue would be its second. -/
theorem noQueue_of_put {cfg : Cfg} {s : Qos} (h : InStep cfg s) {bearerId flowId : ℕ}
    {ipType : ℤ} {mqIdx : ℕ} {allocFlow allocBearer : Bool} {itm : Flow}
    (hg : getFlowMap s flowId ipType = some itm)
    (hm : mqIdx < maxMqNum) (hnew : itm.bearerId ≠ bearerId ∨ itm.mqIdx ≠ mqIdx)
    (halloc : allocFlow = true ∨ itm.bearerId ≠ bearerId) (reset : Bool)
    (hok : ¬SecondQueue s (.addFlow bearerId flowId ipType mqIdx allocFlow allocBearer))
    {rest : List Flow} (hp : s.flowHead.Perm (itm::rest)) (h0 : mqIdx ≠ defaultMqNum)
    (hfree : ((bearerPut cfg s itm.bearer reset).mq mqIdx).bearer = none) :
    ∀ c ∈ (bearerPut cfg s itm.bearer reset).bearerHead,
      ((bearerPut cfg s itm.bearer reset).bearer c).bearerId = bearerId →
        ∀ j < maxMqNum, ((bearerPut cfg s itm.bearer reset).mq j).bearer ≠ some c := by
  have hl := h.counted.1.perm hp
  have hu : Used s (itm::rest) := fun i hi a ha => by
    obtain ⟨f,hf,hfa⟩ := h.used i hi a ha
    exact ⟨f,hp.mem_iff.mp hf,hfa⟩
  have hkey : (flowId,ipType) ∉ rest.map Flow.key := by
    have hk := (List.nodup_cons.mp hl.keys).1
    rwa [(getFlowMap_some hg).2] at hk
  have hids : ∀ c, c ∈ (bearerPut cfg s itm.bearer reset).bearerHead →
      c ∈ s.bearerHead ∧
        ((bearerPut cfg s itm.bearer reset).bearer c).bearerId = (s.bearer c).bearerId := by
    intro c hc
    cases hb : itm.bearer with
    | none =>
      rw [hb] at hc
      exact ⟨hc,rfl⟩
    | some d =>
      rw [hb] at hc
      exact ⟨(bearerPut_head cfg s d reset).2.1 hc,(bearerPut_head cfg s d reset).1 c⟩
  intro c hc hid j hj hjc
  obtain ⟨hcs,hcid⟩ := hids c hc
  obtain ⟨f,hf,hfc⟩ := (hu.bearerPut hl reset) j hj c hjc
  refine hok ⟨hm,h0,?_,?_,⟨c,hcs,hcid.symm.trans hid,⟨f,hp.mem_iff.mpr (by simp [hf]),?_,hfc⟩,
    j,hj,?_,bearerPut_mq itm.bearer reset hj hjc⟩,?_⟩
  · intro g hgm
    rw [hg] at hgm
    obtain rfl := Option.some.inj hgm
    exact hnew
  · exact halloc.imp id fun hne => ⟨itm,hg,hne⟩
  · exact fun hk => hkey (hk ▸ List.mem_map_of_mem hf)
  · rintro rfl
    exact absurd (hjc.symm.trans hfree) (by simp)
  · intro d hd g hgm hgd
    rcases List.mem_cons.mp (hp.mem_iff.mp hgm) with rfl|hgr
    · exact (getFlowMap_some hg).2
    · exact absurd hgd (bearerPut_free hl reset hm hfree d hd g hgr)

theorem Bound.wake {cfg : Cfg} {s : Qos} (h : Bound cfg s) (hu : Used s []) :
    Bound cfg { s with txStopped := fun _ => false } := by
  refine ⟨h.mqDefault,h.mqOf,h.idx,fun a ha hlt _ => ?_⟩
  rcases h.idx a ha with ⟨hi,-⟩|⟨hlt',hma,-⟩
  · change (s.bearer a).mqIdx < maxMqNum at hlt
    rw [hi] at hlt
    exact absurd hlt (by decide)
  · obtain ⟨f,hf,-⟩ := hu _ hlt' a hma
    simp at hf

/-- Deleting a flow: as after its bearer was put, but for the flow list. -/
theorem delFlow_spec {cfg : Cfg} {s : Qos} (h : InStep cfg s) (flowId : ℕ) (ipType : ℤ) :
    InStep cfg (delFlow cfg s flowId ipType) ∧
      ∀ itm, getFlowMap s flowId ipType = some itm →
        (delFlow cfg s flowId ipType).mq = (bearerPut cfg s itm.bearer true).mq ∧
        (delFlow cfg s flowId ipType).bearer = (bearerPut cfg s itm.bearer true).bearer ∧
        (delFlow cfg s flowId ipType).bearerHead =
          (bearerPut cfg s itm.bearer true).bearerHead := by
  have hend : ∀ t : Qos, Bound cfg t → Used t t.flowHead →
      Bound cfg (bearerClean (if t.flowHead = [] then { t with txStopped := fun _ => false }
        else t)) ∧ Used (bearerClean (if t.flowHead = [] then
          { t with txStopped := fun _ => false } else t)) (bearerClean (if t.flowHead = [] then
          { t with txStopped := fun _ => false } else t)).flowHead := by
    intro t hb hu
    rw [bearerClean_flowHead]
    split_ifs with hnil
    · rw [hnil] at hu
      refine ⟨(hb.wake hu).clean,Used.clean ?_⟩
      change Used t t.flowHead
      rw [hnil]
      exact hu
    · exact ⟨hb.clean,hu.clean⟩
  have hsame : ∀ t : Qos, (bearerClean (if t.flowHead = [] then
      { t with txStopped := fun _ => false } else t)).mq = t.mq ∧
      (bearerClean (if t.flowHead = [] then { t with txStopped := fun _ => false }
        else t)).bearer = t.bearer ∧
      (bearerClean (if t.flowHead = [] then { t with txStopped := fun _ => false }
        else t)).bearerHead = t.bearerHead := by
    intro t
    unfold bearerClean
    split_ifs <;> split <;> exact ⟨rfl,rfl,rfl⟩
  have hc := (h.counted.delFlow cfg flowId ipType).1
  simp only [delFlow] at hc ⊢
  cases hg : getFlowMap s flowId ipType with
  | none =>
    rw [hg] at hc
    obtain ⟨hb,hu⟩ := hend s h.bound h.used
    exact ⟨⟨hc,hb,hu⟩,by simp⟩
  | some itm =>
    rw [hg] at hc
    have hp := perm_cons_eraseP hg
    have hl := h.counted.1.perm hp
    have hus : Used s (itm::_) := fun i hi a ha => by
      obtain ⟨f,hf,hfa⟩ := h.used i hi a ha
      exact ⟨f,hp.mem_iff.mp hf,hfa⟩
    have hf := (hl.bearerPut cfg true).2
    have hb := h.bound.bearerPut hl true
    have hu : Used (bearerPut cfg s itm.bearer true) _ := hus.bearerPut hl true
    obtain ⟨hbe,hue⟩ := hend { bearerPut cfg s itm.bearer true with
      flowHead := (bearerPut cfg s itm.bearer true).flowHead.eraseP
        fun f => decide (f.key = (flowId,ipType)) } ⟨hb.mqDefault,hb.mqOf,hb.idx,hb.sync⟩
      (by
        dsimp only
        rw [hf]
        exact hu)
    refine ⟨⟨hc,hbe,hue⟩,fun i hi => ?_⟩
    obtain rfl := Option.some.inj hi
    exact hsame _

theorem InStep.createFlow {cfg : Cfg} {s : Qos} (h : InStep cfg s) {newMap : Flow}
    (allocFlow allocBearer : Bool) (hk : newMap.key ∉ s.flowHead.map Flow.key)
    (hm : newMap.mqIdx < maxMqNum)
    (hone : allocFlow = true → newMap.mqIdx ≠ defaultMqNum →
      (s.mq newMap.mqIdx).bearer = none →
      ∀ c ∈ s.bearerHead, (s.bearer c).bearerId = newMap.bearerId →
        ∀ j < maxMqNum, (s.mq j).bearer ≠ some c) :
    InStep cfg (createFlow cfg s newMap allocFlow allocBearer) := by
  have hc := h.counted.createFlow cfg newMap allocFlow allocBearer hk
  simp only [Dfc.createFlow] at hc ⊢
  split_ifs at hc ⊢ with halloc
  · exact h
  have hl : Linked { s with flowHead := { newMap with bearer := none }::s.flowHead }
      s.flowHead :=
    ⟨h.counted.1.keys,h.counted.1.flowBearer,h.counted.1.mqBearer,h.counted.1.flowRef,
      h.counted.1.nodup,h.counted.1.addr,h.counted.1.freed,h.counted.1.removed⟩
  have hb : Bound cfg { s with flowHead := { newMap with bearer := none }::s.flowHead } :=
    ⟨h.bound.mqDefault,h.bound.mqOf,h.bound.idx,h.bound.sync⟩
  cases hg : bearerGet cfg { s with flowHead := { newMap with bearer := none }::s.flowHead }
    newMap.bearerId allocBearer with
  | mk t r =>
    rw [hg] at hc
    cases r with
    | none =>
      obtain ⟨rfl,-⟩ := bearerGet_none hg
      refine ⟨hc,hb.clean,?_⟩
      change Used (bearerClean _) (bearerClean _).flowHead
      rw [bearerClean_flowHead]
      refine Used.clean fun i hi a ha => ?_
      obtain ⟨f,hf,hfa⟩ := h.used i hi a ha
      exact ⟨f,List.mem_cons_of_mem _ hf,hfa⟩
    | some a =>
      exact InStep.bind newMap hl hb h.used hg (List.Perm.refl _) rfl hk hm
        (hone (by simpa using halloc))

theorem InStep.addFlow {cfg : Cfg} {s : Qos} (h : InStep cfg s) {bearerId flowId : ℕ}
    {ipType : ℤ} {mqIdx : ℕ} {allocFlow allocBearer : Bool}
    (hreb : ¬HalfRebound s (.addFlow bearerId flowId ipType mqIdx allocFlow allocBearer))
    (hsec : ¬SecondQueue s (.addFlow bearerId flowId ipType mqIdx allocFlow allocBearer)) :
    InStep cfg (addFlow cfg s bearerId flowId ipType mqIdx allocFlow allocBearer) := by
  by_cases hm : mqIdx < maxMqNum
  swap
  · rw [Dfc.addFlow,if_pos (by omega)]
    exact h
  have hcount := h.counted.addFlow cfg hreb
  rw [addFlow_eq h.counted cfg bearerId flowId ipType hm] at hcount ⊢
  cases hg : getFlowMap s flowId ipType with
  | none =>
    refine h.createFlow allocFlow allocBearer (getFlowMap_none.mp hg) hm ?_
    intro halloc h0 hfree c hc hid j hj hjc
    obtain ⟨f,hf,hfc⟩ := h.used j hj c hjc
    refine hsec ⟨hm,h0,by simp [hg],.inl halloc,⟨c,hc,hid,⟨f,hf,?_,hfc⟩,j,hj,?_,hjc⟩,?_⟩
    · exact fun hk => getFlowMap_none.mp hg (hk ▸ List.mem_map_of_mem hf)
    · rintro rfl
      exact absurd (hjc.symm.trans hfree) (by simp)
    · intro d hd
      exact absurd (hfree.symm.trans hd) (by simp)
  | some itm =>
    rw [hg] at hcount
    have hp := perm_cons_eraseP hg
    have hl := h.counted.1.perm hp
    dsimp only at hcount ⊢
    split_ifs at hcount ⊢ with hid hmq
    · -- rebound to another bearer
      have hus : Used s (itm::_) := fun i hi a ha => by
        obtain ⟨f,hf,hfa⟩ := h.used i hi a ha
        exact ⟨f,hp.mem_iff.mp hf,hfa⟩
      obtain ⟨hlp,hfl⟩ := hl.bearerPut cfg false
      have hkey := (List.nodup_cons.mp hl.keys).1
      rw [(getFlowMap_some hg).2] at hkey
      simp only [rebindFlow] at hcount ⊢
      cases hget : bearerGet cfg (bearerPut cfg s itm.bearer false) bearerId allocBearer with
      | mk t r =>
        rw [hget] at hcount
        cases r with
        | none =>
          obtain ⟨rfl,hnone,hal⟩ := bearerGet_none hget
          cases hb : itm.bearer with
          | none =>
            refine ⟨hb ▸ hcount,h.bound.clean,?_⟩
            change Used (bearerClean s) (bearerClean s).flowHead
            rw [bearerClean_flowHead]
            exact h.used.clean
          | some c =>
            have hcid := (h.counted.1.flowBearer itm (getFlowMap_some hg).1 c hb).2
            rw [hb,getBearerMap_put cfg s false (by rw [hcid]; exact hid)] at hnone
            exact absurd ⟨hm,hal,hnone,itm,hg,hid,by simp [hb]⟩ hreb
        | some a =>
          exact InStep.bind ⟨bearerId,flowId,ipType,mqIdx,none⟩ hlp
            (h.bound.bearerPut hl false) (hus.bearerPut hl false) hget (hfl.symm ▸ hp)
            (getFlowMap_some hg).2 hkey hm
            (noQueue_of_put h hg hm (.inl hid) (.inr hid) false hsec hp)
    · -- moved to another queue
      obtain ⟨hd,hsame⟩ := delFlow_spec h flowId ipType
      obtain ⟨h1,h2,h3⟩ := hsame itm hg
      refine hd.createFlow allocFlow allocBearer
        (getFlowMap_none.mp (h.counted.delFlow cfg flowId ipType).2) hm ?_
      intro halloc
      rw [h1,h2,h3]
      exact noQueue_of_put h hg hm (.inr hmq) (.inl halloc) true hsec hp
    · refine ⟨hcount,h.bound.clean,?_⟩
      rw [bearerClean_flowHead]
      exact h.used.clean

/-! ## Runs -/

theorem InStep.updateFcMap {cfg : Cfg} {s : Qos} (h : InStep cfg s) (ackReq : ℕ)
    (ancillary : Ancillary) (fcInfo : FcInfo) (isQuery alloc : Bool) :
    InStep cfg (updateFcMap cfg s ackReq ancillary fcInfo isQuery alloc) := by
  have hcount := h.counted.updateFcMap cfg ackReq ancillary fcInfo isQuery alloc
  unfold Dfc.updateFcMap at hcount ⊢
  cases hb : getBearerMap s fcInfo.bearerId with
  | some a => exact h.keeps (getBearerMap_some hb).1 (keeps_updateFcBearer ..)
  | none =>
    rw [hb] at hcount
    dsimp only at hcount ⊢
    split_ifs at hcount ⊢
    · unfold getBearerNoref at hcount ⊢
      cases hg : bearerGet cfg s fcInfo.bearerId alloc with
      | mk t r =>
        rw [hg] at hcount
        cases r with
        | none =>
          obtain ⟨rfl,-⟩ := bearerGet_none hg
          exact h
        | some a =>
          rcases bearerGet_some hg with ⟨hf,-⟩|⟨-,-,rfl,rfl⟩
          · rw [hb] at hf
            exact absurd hf (by simp)
          · -- the bearer is new and has no queue
            have hcache : Bound cfg ((ref (addBearer cfg s fcInfo.bearerId)
                s.nextAddr).setBearer s.nextAddr fun b =>
                  { b with flowRef := b.flowRef-1 }) := by
              refine (h.bound.addBearer h.counted.1 fcInfo.bearerId).fewer (fun _ hc => hc)
                (fun _ _ _ hc => hc) (fun c => ?_) (fun _ _ _ _ hc => ⟨hc,rfl⟩)
              by_cases hc : c = s.nextAddr
              · subst hc
                simp [ref]
              · rw [setBearer_ne _ _ hc,ref,setBearer_ne _ _ hc]
                exact ⟨rfl,rfl,rfl⟩
            have hk := keeps_updateFcBearer cfg ((ref (addBearer cfg s fcInfo.bearerId)
              s.nextAddr).setBearer s.nextAddr fun b => { b with flowRef := b.flowRef-1 })
              s.nextAddr ackReq ancillary fcInfo isQuery
            refine ⟨hcount,hcache.keeps (List.mem_cons_self ..) hk,fun i hi c hc => ?_⟩
            rw [hk.same.flowHead]
            exact h.used i hi c ((hk.same.mq i).symm.trans hc)
    · exact h

theorem InStep.step {cfg : Cfg} {s : Qos} (h : InStep cfg s) {op : Op}
    (hok : ¬HalfRebound s op ∧ ¬SecondQueue s op) : InStep cfg (step cfg s op) := by
  cases op with
  | addFlow => exact h.addFlow hok.1 hok.2
  | delFlow flowId ipType => exact (delFlow_spec h flowId ipType).1
  | flowStatus ackReq ancillary fcInfo isQuery ignoreGrant alloc =>
    simp only [Dfc.step,burstFlowControl]
    split_ifs
    all_goals first
      | exact h
      | exact h.visits (visits_allBearerFlowCtl ..)
      | exact h.updateFcMap ..
  | txLinkStatus txStatus bearerId =>
    rcases keeps_updateTx cfg s txStatus bearerId with he|⟨a,ha,hk⟩
    · rw [Dfc.step,he]
      exact h
    · exact h.keeps (getBearerMap_some ha).1 hk
  | burstCheck ipType mark len =>
    rcases keeps_burstCheck cfg s ipType mark len with he|⟨f,a,hf,ha,hk⟩
    · rw [Dfc.step,he]
      exact h
    · exact h.keeps (h.counted.1.flowBearer f (getFlowMap_some hf).1 a ha).1 hk
  | watchdog a =>
    rcases keeps_watchdogFn cfg s a with he|⟨ha,hk⟩
    · rw [Dfc.step,he]
      exact h
    · exact h.keeps ha hk
  | enableAllFlows => exact h.visits (visits_enableAllFlows cfg s)
  | preparePsBearers n => exact h.visits (visits_preparePsBearers cfg s n)

theorem inStep_initial (cfg : Cfg) : InStep cfg initial := by
  refine ⟨counted_initial,⟨rfl,?_,?_,?_⟩,?_⟩
  · intro i _ a ha
    exact absurd ha (by simp [initial])
  · intro a ha
    exact absurd ha (by simp [initial])
  · intro a ha
    exact absurd ha (by simp [initial])
  · intro i _ a ha
    exact absurd ha (by simp [initial])

/-- Every data queue of the device with a bearer is stopped exactly when that bearer has no
grant. -/
def QueueState (cfg : Cfg) (s : Qos) : Prop :=
  ∀ i < maxMqNum, i < cfg.numTxQueues → ∀ b, (s.mq i).bearer = some b →
    (s.txStopped i = true ↔ (s.bearer b).grantSize = 0)

theorem InStep.queueState {cfg : Cfg} {s : Qos} (h : InStep cfg s) : QueueState cfg s := by
  intro i hi hn b hb
  have hidx := h.bound.mqOf i hi b hb
  have hs := h.bound.sync b (h.counted.1.mqBearer i hi b hb)
  unfold Synced at hs
  rw [hidx] at hs
  exact hs hi hn

/-- Queues and grants agree in every state of a run in which no bearer gets a second queue
and no flow is half rebound. -/
theorem queueState_always (cfg : Cfg) (ops : List Op)
    (hg : Guarded (step cfg) (fun s op => ¬HalfRebound s op ∧ ¬SecondQueue s op)
      initial ops) : Always (step cfg) (QueueState cfg) initial ops :=
  guarded_always (I := InStep cfg) (fun _ h => h.queueState) (fun _ _ h hok => h.step hok)
    (inStep_initial cfg) ops hg

/-- A flow on its queue uses up the grant, and the modem grants again. -/
def grantedAgain : List Op :=
  [.addFlow 5 1 4 1 true true,.burstCheck 4 1 30000,
    .flowStatus 0 ⟨false,false⟩ ⟨5,1000,7,false,0,false⟩ false false true]

theorem queueState_grantedAgain :
    Always (step ⟨false,5,31⟩) (QueueState ⟨false,5,31⟩) initial grantedAgain :=
  queueState_always ⟨false,5,31⟩ grantedAgain (by decide)

/-- Two flows bind two queues to one bearer, and its grant is used up. -/
def twoQueues : List Op :=
  [.addFlow 5 1 4 1 true true,.addFlow 5 2 4 2 true true,.burstCheck 4 1 30000]

theorem queueState_twoQueues : ¬∀ (cfg : Cfg) (ops : List Op),
    Always (step cfg) (QueueState cfg) initial ops := by
  intro h
  have hq := (h ⟨false,5,31⟩ twoQueues).last 1 (by decide) (by decide) 0 rfl
  exact absurd (hq.mpr (by decide)) (by decide)

end Dfc
end MarbleModules
