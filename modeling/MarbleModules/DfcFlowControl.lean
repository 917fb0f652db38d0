import MarbleModules.Dfc

/-! What the flow control operations leave alone: they write grants, their bookkeeping and
the transmit queue of one bearer at a time. -/
namespace MarbleModules
namespace Dfc

/-- Only grants, their bookkeeping and transmit queues differ. -/
structure SameMap (s s' : Qos) : Prop where
  flowHead : s'.flowHead = s.flowHead
  bearerHead : s'.bearerHead = s.bearerHead
  nextAddr : s'.nextAddr = s.nextAddr
  removedBearer : s'.removedBearer = s.removedBearer
  freed : s'.freed = s.freed
  mq : ∀ i, (s'.mq i).bearer = (s.mq i).bearer
  bearerId : ∀ a, (s'.bearer a).bearerId = (s.bearer a).bearerId
  flowRef : ∀ a, (s'.bearer a).flowRef = (s.bearer a).flowRef
  mqIdx : ∀ a, (s'.bearer a).mqIdx = (s.bearer a).mqIdx
  ackMqIdx : ∀ a, (s'.bearer a).ackMqIdx = (s.bearer a).ackMqIdx

theorem SameMap.refl (s : Qos) : SameMap s s := by
  constructor <;> intros <;> rfl

theorem SameMap.trans {s t u : Qos} (h : SameMap s t) (h' : SameMap t u) : SameMap s u where
  flowHead := h'.flowHead.trans h.flowHead
  bearerHead := h'.bearerHead.trans h.bearerHead
  nextAddr := h'.nextAddr.trans h.nextAddr
  removedBearer := h'.removedBearer.trans h.removedBearer
  freed := h'.freed.trans h.freed
  mq i := (h'.mq i).trans (h.mq i)
  bearerId a := (h'.bearerId a).trans (h.bearerId a)
  flowRef a := (h'.flowRef a).trans (h.flowRef a)
  mqIdx a := (h'.mqIdx a).trans (h.mqIdx a)
  ackMqIdx a := (h'.ackMqIdx a).trans (h.ackMqIdx a)

/-- The fields of a bearer that tie it to the map -/
structure SameTies (b b' : Bearer) : Prop where
  bearerId : b'.bearerId = b.bearerId
  flowRef : b'.flowRef = b.flowRef
  mqIdx : b'.mqIdx = b.mqIdx
  ackMqIdx : b'.ackMqIdx = b.ackMqIdx

theorem sameMap_setBearer (s : Qos) (a : ℕ) {f : Bearer → Bearer}
    (hf : SameTies (s.bearer a) (f (s.bearer a))) : SameMap s (s.setBearer a f) := by
  constructor <;> try (intros; rfl)
  all_goals
    intro c
    simp only [Qos.setBearer,Function.update_apply]
    split_ifs with hc
    · subst hc
      first | exact hf.bearerId | exact hf.flowRef | exact hf.mqIdx | exact hf.ackMqIdx
    · rfl

theorem sameMap_flowControl (cfg : Cfg) (s : Qos) (i : ℕ) (enable : Bool) :
    SameMap s (flowControl cfg s i enable) := by
  unfold flowControl
  split_ifs
  · exact SameMap.refl s
  · constructor <;> intros <;> rfl

theorem sameMap_sendAck (s : Qos) (bearerId seq type : ℕ) :
    SameMap s (sendAck s bearerId seq type) := by
  constructor <;> intros <;> rfl

/-! ## Writing one bearer -/

/-- Only fields of one bearer that do not tie it to the map were written. -/
structure Touches (a : ℕ) (s s' : Qos) : Prop where
  same : SameMap s s'
  other : ∀ c, c ≠ a → (s'.bearer c).grantSize = (s.bearer c).grantSize
  queue : s'.txStopped = s.txStopped

theorem Touches.refl (a : ℕ) (s : Qos) : Touches a s s :=
  ⟨SameMap.refl s,fun _ _ => rfl,rfl⟩

theorem Touches.trans {a : ℕ} {s t u : Qos} (h : Touches a s t) (h' : Touches a t u) :
    Touches a s u :=
  ⟨h.same.trans h'.same,fun c hc => (h'.other c hc).trans (h.other c hc),
    h'.queue.trans h.queue⟩

@[simp] theorem setBearer_self (s : Qos) (a : ℕ) (f : Bearer → Bearer) :
    (s.setBearer a f).bearer a = f (s.bearer a) := by
  simp [Qos.setBearer]

theorem setBearer_ne (s : Qos) {a c : ℕ} (f : Bearer → Bearer) (h : c ≠ a) :
    (s.setBearer a f).bearer c = s.bearer c := by
  simp [Qos.setBearer,h]

theorem touches_setBearer (s : Qos) (a : ℕ) {f : Bearer → Bearer}
    (hf : SameTies (s.bearer a) (f (s.bearer a))) : Touches a s (s.setBearer a f) :=
  ⟨sameMap_setBearer s a hf,fun c hc => by rw [setBearer_ne s f hc],rfl⟩

theorem touches_sendAck (a : ℕ) (s : Qos) (bearerId seq type : ℕ) :
    Touches a s (sendAck s bearerId seq type) :=
  ⟨sameMap_sendAck s bearerId seq type,fun _ _ => rfl,rfl⟩

/-- Stopped exactly when the bearer has no grant, for the queue the bearer remembers -/
def Synced (cfg : Cfg) (s : Qos) (a : ℕ) : Prop :=
  (s.bearer a).mqIdx < maxMqNum → (s.bearer a).mqIdx < cfg.numTxQueues →
    (s.txStopped (s.bearer a).mqIdx = true ↔ (s.bearer a).grantSize = 0)

/-- An operation on one bearer: other bearers keep their grants, other data queues their
state, and its own queue stays in step with its grant. -/
structure Keeps (cfg : Cfg) (a : ℕ) (s s' : Qos) : Prop where
  same : SameMap s s'
  other : ∀ c, c ≠ a → (s'.bearer c).grantSize = (s.bearer c).grantSize
  queue : maxMqNum ≤ (s.bearer a).ackMqIdx → ∀ i < maxMqNum, i ≠ (s.bearer a).mqIdx →
    s'.txStopped i = s.txStopped i
  own : maxMqNum ≤ (s.bearer a).ackMqIdx → Synced cfg s a → Synced cfg s' a

theorem Keeps.refl (cfg : Cfg) (a : ℕ) (s : Qos) : Keeps cfg a s s :=
  ⟨SameMap.refl s,fun _ _ => rfl,fun _ _ _ _ => rfl,fun _ h => h⟩

theorem Keeps.trans {cfg : Cfg} {a : ℕ} {s t u : Qos} (h : Keeps cfg a s t)
    (h' : Keeps cfg a t u) : Keeps cfg a s u where
  same := h.same.trans h'.same
  other c hc := (h'.other c hc).trans (h.other c hc)
  queue hq i hi hne := by
    rw [h'.queue (by rw [h.same.ackMqIdx]; exact hq) i hi (by rw [h.same.mqIdx]; exact hne)]
    exact h.queue hq i hi hne
  own hq hs := h'.own (by rw [h.same.ackMqIdx]; exact hq) (h.own hq hs)

/-- The grant was written, but whether there is one did not change. -/
theorem Touches.keeps {cfg : Cfg} {a : ℕ} {s s' : Qos} (h : Touches a s s')
    (hz : (s'.bearer a).grantSize = 0 ↔ (s.bearer a).grantSize = 0) : Keeps cfg a s s' where
  same := h.same
  other := h.other
  queue _ i _ _ := by rw [h.queue]
  own _ hs := by
    unfold Synced at *
    rw [h.same.mqIdx,h.queue,hz]
    exact hs

theorem flowControl_txStopped (cfg : Cfg) (s : Qos) (i : ℕ) (enable : Bool) (j : ℕ) :
    (flowControl cfg s i enable).txStopped j =
      if j = i ∧ i < cfg.numTxQueues then !enable else s.txStopped j := by
  unfold flowControl
  split_ifs with h1 h2 h2
  · omega
  · rfl
  · simp [h2.1]
  · have hj : j ≠ i := fun hj => h2 ⟨hj,by omega⟩
    simp [hj]

@[simp] theorem flowControl_bearer (cfg : Cfg) (s : Qos) (i : ℕ) (enable : Bool) :
    (flowControl cfg s i enable).bearer = s.bearer := by
  unfold flowControl
  split_ifs <;> rfl

theorem sameMap_bearerFlowCtl (cfg : Cfg) (s : Qos) (a : ℕ) :
    SameMap s (bearerFlowCtl cfg s a) := by
  have hack : SameMap s (if (s.bearer a).ackMqIdx ≠ invalidMq then
      flowControl cfg s (s.bearer a).ackMqIdx
        (decide ((s.bearer a).grantSize ≠ 0) || (s.bearer a).tcpBidir) else s) := by
    split_ifs
    · exact sameMap_flowControl ..
    · exact SameMap.refl s
  simp only [bearerFlowCtl]
  have hmq := hack.trans (sameMap_flowControl cfg _ (s.bearer a).mqIdx
    (decide ((s.bearer a).grantSize ≠ 0)))
  split
  · exact hmq.trans (sameMap_sendAck ..)
  · exact hmq

theorem bearerFlowCtl_bearer (cfg : Cfg) (s : Qos) (a : ℕ) :
    (bearerFlowCtl cfg s a).bearer = s.bearer := by
  simp only [bearerFlowCtl]
  split_ifs <;> simp [sendAck]

theorem bearerFlowCtl_txStopped (cfg : Cfg) (s : Qos) (a : ℕ)
    (hack : maxMqNum ≤ (s.bearer a).ackMqIdx) {j : ℕ} (hj : j < maxMqNum) :
    (bearerFlowCtl cfg s a).txStopped j =
      if j = (s.bearer a).mqIdx ∧ (s.bearer a).mqIdx < cfg.numTxQueues then
        decide ((s.bearer a).grantSize = 0) else s.txStopped j := by
  have hne : ¬(j = (s.bearer a).ackMqIdx ∧ (s.bearer a).ackMqIdx < cfg.numTxQueues) := by
    omega
  have hend : ∀ t : Qos, ∀ c : Bool, ∀ x y z, (if c = true then sendAck t x y z else t).txStopped =
      t.txStopped := by
    intro t c x y z
    split_ifs <;> rfl
  simp only [bearerFlowCtl,hend]
  rw [flowControl_txStopped]
  split_ifs with h1 h2
  · simp
  · rw [flowControl_txStopped,if_neg hne]
  · rfl

/-- The bearer was written and its queue set accordingly. -/
theorem Touches.flowCtl {cfg : Cfg} {a : ℕ} {s s' : Qos} (h : Touches a s s') :
    Keeps cfg a s (bearerFlowCtl cfg s' a) where
  same := h.same.trans (sameMap_bearerFlowCtl cfg s' a)
  other c hc := by rw [bearerFlowCtl_bearer,h.other c hc]
  queue hq i hi hne := by
    rw [← h.same.ackMqIdx] at hq
    rw [← h.same.mqIdx] at hne
    rw [bearerFlowCtl_txStopped cfg s' a hq hi,if_neg (fun hc => hne hc.1),h.queue]
  own hq _ := by
    rw [← h.same.ackMqIdx] at hq
    unfold Synced
    rw [bearerFlowCtl_bearer]
    intro hm hn
    rw [bearerFlowCtl_txStopped cfg s' a hq hm,if_pos ⟨rfl,hn⟩,decide_eq_true_iff]

/-! ## The operations on one bearer -/

theorem touches_noteRatSwitch (s : Qos) (a : ℕ) (ancillary : Ancillary) (numBytes : ℕ) :
    Touches a s (noteRatSwitch s a ancillary numBytes) ∧
      ((noteRatSwitch s a ancillary numBytes).bearer a).grantSize =
        (s.bearer a).grantSize := by
  unfold noteRatSwitch
  split_ifs
  · exact ⟨touches_setBearer s a ⟨rfl,rfl,rfl,rfl⟩,by simp⟩
  · exact ⟨Touches.refl a s,rfl⟩

theorem touches_noteLlStatus (s : Qos) (a : ℕ) (llStatus : Bool) :
    Touches a s (noteLlStatus s a llStatus) ∧
      ((noteLlStatus s a llStatus).bearer a).grantSize = (s.bearer a).grantSize := by
  have ht : Touches a s (s.setBearer a fun b =>
      { b with currentCh := chLl, autoSwitched := true }) :=
    touches_setBearer s a ⟨rfl,rfl,rfl,rfl⟩
  simp only [noteLlStatus]
  split_ifs
  · refine ⟨⟨⟨ht.same.flowHead,ht.same.bearerHead,ht.same.nextAddr,ht.same.removedBearer,
      ht.same.freed,fun i => ?_,ht.same.bearerId,ht.same.flowRef,ht.same.mqIdx,
      ht.same.ackMqIdx⟩,ht.other,ht.queue⟩,by simp [Qos.setBearer]⟩
    simp only [Qos.setBearer,Function.update_apply]
    split_ifs with hi
    · rw [hi]
    · rfl
  · exact ⟨ht,by simp⟩
  · exact ⟨Touches.refl a s,rfl⟩

theorem touches_ackDisable (cfg : Cfg) (s : Qos) (a ackReq : ℕ) :
    Touches a s (ackDisable cfg s a ackReq) ∧
      (ackDisable cfg s a ackReq).bearer = s.bearer := by
  simp only [ackDisable]
  split_ifs
  · exact ⟨touches_sendAck ..,rfl⟩
  · exact ⟨Touches.refl a s,rfl⟩

theorem sameTies_recordGrant (cfg : Cfg) (ackReq : ℕ) (ancillary : Ancillary)
    (fcInfo : FcInfo) (isQuery : Bool) (b : Bearer) :
    SameTies b (recordGrant cfg ackReq ancillary fcInfo isQuery b) := by
  simp only [recordGrant]
  split_ifs <;> exact ⟨rfl,rfl,rfl,rfl⟩

theorem recordGrant_grantSize (cfg : Cfg) (ackReq : ℕ) (ancillary : Ancillary)
    (fcInfo : FcInfo) (isQuery : Bool) (b : Bearer) :
    (recordGrant cfg ackReq ancillary fcInfo isQuery b).grantSize =
      (adjustedGrant cfg b fcInfo isQuery).2 := by
  simp only [recordGrant]
  split_ifs <;> rfl

/-- Without queue action there was a grant before exactly when there is one now. -/
theorem fcAction_false {b : Bearer} {ancillary : Ancillary} {grant : ℕ}
    (h : fcAction b ancillary grant = false) : grant = 0 ↔ b.grantSize = 0 := by
  simp only [fcAction,Bool.or_eq_false_iff,decide_eq_false_iff_not] at h
  omega

theorem noteRatSwitch_bytesInFlight (s : Qos) (a : ℕ) (ancillary : Ancillary)
    (numBytes : ℕ) : ((noteRatSwitch s a ancillary numBytes).bearer a).bytesInFlight =
      (s.bearer a).bytesInFlight := by
  unfold noteRatSwitch
  split_ifs <;> simp

theorem noteLlStatus_bytesInFlight (s : Qos) (a : ℕ) (llStatus : Bool) :
    ((noteLlStatus s a llStatus).bearer a).bytesInFlight = (s.bearer a).bytesInFlight := by
  simp only [noteLlStatus]
  split_ifs <;> simp [Qos.setBearer]

theorem keeps_updateFcBearer (cfg : Cfg) (s : Qos) (a ackReq : ℕ) (ancillary : Ancillary)
    (fcInfo : FcInfo) (isQuery : Bool) :
    Keeps cfg a s (updateFcBearer cfg s a ackReq ancillary fcInfo isQuery) := by
  have hr := touches_noteRatSwitch s a ancillary fcInfo.numBytes
  have hl := touches_noteLlStatus (noteRatSwitch s a ancillary fcInfo.numBytes) a
    fcInfo.llStatus
  have ha := touches_ackDisable cfg
    (noteLlStatus (noteRatSwitch s a ancillary fcInfo.numBytes) a fcInfo.llStatus) a ackReq
  have hbytes := (noteLlStatus_bytesInFlight (noteRatSwitch s a ancillary fcInfo.numBytes) a
    fcInfo.llStatus).trans (noteRatSwitch_bytesInFlight s a ancillary fcInfo.numBytes)
  simp only [updateFcBearer]
  split_ifs with h1 h2 h3
  · exact Keeps.refl cfg a s
  · exact hr.1.keeps (by rw [hr.2])
  · exact ((hr.1.trans hl.1).trans (ha.1.trans
      (touches_setBearer _ a (sameTies_recordGrant ..)))).flowCtl
  · refine ((hr.1.trans hl.1).trans (ha.1.trans
      (touches_setBearer _ a (sameTies_recordGrant ..)))).keeps ?_
    rw [setBearer_self,recordGrant_grantSize,← fcAction_false (Bool.eq_false_of_not_eq_true h3)]
    rw [ha.2,adjustedGrant,adjustedGrant,hbytes]

theorem keeps_updateTx (cfg : Cfg) (s : Qos) (txStatus : Bool) (bearerId : ℕ) :
    updateTxLinkStatus cfg s txStatus bearerId = s ∨ ∃ a, getBearerMap s bearerId = some a ∧
      Keeps cfg a s (updateTxLinkStatus cfg s txStatus bearerId) := by
  simp only [updateTxLinkStatus]
  cases hb : getBearerMap s bearerId with
  | none => exact .inl rfl
  | some a =>
    have hset : ∀ t : Qos, Keeps cfg a t (t.setBearer a fun b => { b with txOff := !txStatus }) :=
      fun t => (touches_setBearer t a ⟨rfl,rfl,rfl,rfl⟩).keeps (by simp)
    dsimp only
    split_ifs
    · exact .inl rfl
    · exact .inr ⟨a,rfl,(touches_setBearer s a ⟨rfl,rfl,rfl,rfl⟩).flowCtl.trans (hset _)⟩
    · exact .inr ⟨a,rfl,(touches_setBearer s a ⟨rfl,rfl,rfl,rfl⟩).flowCtl.trans (hset _)⟩
    · exact .inr ⟨a,rfl,hset s⟩

theorem keeps_burstCheck (cfg : Cfg) (s : Qos) (ipType : ℤ) (mark len : ℕ) :
    burstCheck cfg s ipType mark len = s ∨ ∃ f a, getFlowMap s mark ipType = some f ∧
      f.bearer = some a ∧ Keeps cfg a s (burstCheck cfg s ipType mark len) := by
  simp only [burstCheck]
  cases hf : getFlowMap s mark ipType with
  | none => exact .inl rfl
  | some f =>
    cases ha : f.bearer with
    | none => exact .inl (by simp [ha])
    | some a =>
      refine .inr ⟨f,a,rfl,ha,?_⟩
      simp only [Option.bind_some,ha]
      have h1 : Touches a s (s.setBearer a fun b =>
          { b with bytesInFlight := (b.bytesInFlight+len) % 2^32 }) :=
        touches_setBearer s a ⟨rfl,rfl,rfl,rfl⟩
      have h2 : Touches a s ((s.setBearer a fun b =>
          { b with bytesInFlight := (b.bytesInFlight+len) % 2^32 }).setBearer a fun b =>
            { b with grantSize := (s.bearer a).grantSize-len }) :=
        h1.trans (touches_setBearer _ a ⟨rfl,rfl,rfl,rfl⟩)
      split_ifs with h0 hz hg hg
      · exact h1.keeps (by simp)
      · exact (h2.trans (touches_sendAck ..)).flowCtl
      · exact h2.flowCtl
      · refine (h2.trans (touches_sendAck ..)).keeps ?_
        simp only [sendAck,setBearer_self]
        exact iff_of_false hz h0
      · refine h2.keeps ?_
        simp only [setBearer_self]
        exact iff_of_false hz h0

theorem keeps_watchdogFn (cfg : Cfg) (s : Qos) (a : ℕ) :
    watchdogFn cfg s a = s ∨ a ∈ s.bearerHead ∧ Keeps cfg a s (watchdogFn cfg s a) := by
  have hset : ∀ t : Qos, Keeps cfg a t (t.setBearer a fun b =>
      { b with watchdogStarted := false }) :=
    fun t => (touches_setBearer t a ⟨rfl,rfl,rfl,rfl⟩).keeps (by simp)
  have hexp : Touches a s (s.setBearer a fun b =>
      { b with watchdogExpireCnt := b.watchdogExpireCnt+1, bytesInFlight := 0 }) :=
    touches_setBearer s a ⟨rfl,rfl,rfl,rfl⟩
  by_cases hm : a ∈ s.bearerHead
  swap
  · exact .inl (if_pos hm)
  refine .inr ⟨hm,?_⟩
  simp only [watchdogFn,if_neg (not_not.mpr hm)]
  split_ifs with hq hg
  · exact hset s
  · exact ((hexp.trans (touches_setBearer _ a ⟨rfl,rfl,rfl,rfl⟩)).flowCtl).trans (hset _)
  · refine Keeps.trans (Touches.keeps
      (hexp.trans (touches_setBearer _ a ⟨rfl,rfl,rfl,rfl⟩)) ?_) (hset _)
    simp

theorem keeps_enableFlow (cfg : Cfg) (s : Qos) (a : ℕ) :
    Keeps cfg a s (enableFlow cfg s a) := by
  have hreset : Touches a s (s.setBearer a resetBearer) :=
    touches_setBearer s a ⟨rfl,rfl,rfl,rfl⟩
  simp only [enableFlow]
  split_ifs with htx hw
  · exact hreset.keeps (by simp [resetBearer,watchdogRemove])
  · exact (hreset.trans (touches_setBearer _ a ⟨rfl,rfl,rfl,rfl⟩)).flowCtl
  · refine (hreset.trans (touches_setBearer _ a ⟨rfl,rfl,rfl,rfl⟩)).keeps ?_
    simp only [setBearer_self,resetBearer,watchdogRemove,decide_eq_true_eq] at hw ⊢
    exact iff_of_false (by decide) hw

theorem keeps_preparePsBearer (cfg : Cfg) (r : Qos × List ℕ × ℕ) (a : ℕ) :
    Keeps cfg a r.1 (preparePsBearer cfg r a).1 := by
  simp only [preparePsBearer]
  split_ifs with hg
  · have ht : Touches a r.1 (r.1.setBearer a fun b =>
        { resetBearer b with grantSize := defaultGrant,
                             grantThresh := grantPer cfg defaultGrant }) :=
      touches_setBearer r.1 a ⟨rfl,rfl,rfl,rfl⟩
    refine ht.keeps ?_
    simp only [setBearer_self]
    exact iff_of_false (by decide) hg
  · exact Keeps.refl cfg a r.1
  · exact Keeps.refl cfg a r.1

/-! ## Operations on all bearers -/

/-- The bearers are visited one after the other. -/
def Visits (cfg : Cfg) : List ℕ → Qos → Qos → Prop
  | [],s,s' => s' = s
  | a::as,s,s' => ∃ t, Keeps cfg a s t ∧ Visits cfg as t s'

theorem Visits.same {cfg : Cfg} {as : List ℕ} {s s' : Qos} (h : Visits cfg as s s') :
    SameMap s s' := by
  induction as generalizing s with
  | nil => exact h ▸ SameMap.refl s
  | cons a as ih =>
    obtain ⟨t,ht,hs⟩ := h
    exact ht.same.trans (ih hs)

theorem visits_allBearerFlowCtl (cfg : Cfg) (s : Qos) (ackReq : ℕ) (ancillary : Ancillary)
    (fcInfo : FcInfo) : Visits cfg s.bearerHead s
      (allBearerFlowCtl cfg s ackReq ancillary fcInfo) := by
  unfold allBearerFlowCtl
  generalize s.bearerHead = as
  induction as generalizing s with
  | nil => rfl
  | cons a as ih =>
    exact ⟨_,(touches_setBearer s a ⟨rfl,rfl,rfl,rfl⟩).flowCtl,ih _⟩

theorem visits_enableAllFlows (cfg : Cfg) (s : Qos) :
    Visits cfg s.bearerHead s (enableAllFlows cfg s) := by
  unfold enableAllFlows
  generalize s.bearerHead = as
  induction as generalizing s with
  | nil => rfl
  | cons a as ih => exact ⟨_,keeps_enableFlow cfg s a,ih _⟩

theorem visits_preparePsBearers (cfg : Cfg) (s : Qos) (numBearers : ℕ) :
    Visits cfg s.bearerHead s (preparePsBearers cfg s numBearers).1 := by
  simp only [preparePsBearers]
  generalize hr : (s,([] : List ℕ),numBearers) = r
  obtain rfl : r.1 = s := by rw [← hr]
  generalize r.1.bearerHead = as
  clear hr
  induction as generalizing r with
  | nil => rfl
  | cons a as ih => exact ⟨_,keeps_preparePsBearer cfg r a,ih _⟩

end Dfc
end MarbleModules
