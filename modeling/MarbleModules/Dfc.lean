import Mathlib.Data.List.Nodup
import Mathlib.Logic.Function.Basic
import MarbleModules.Runs

/-! The QoS map of a data device and its flow control: flows are bound to bearers, bearers
to transmit queues, and the grants of the bearers start and stop the queues. Bearers are
known by their addresses; the contents of a freed bearer stay readable behind a stale
pointer, and an address is not used twice. -/
namespace MarbleModules
namespace Dfc

/-- `MAX_MQ_NUM` -/
def maxMqNum : ℕ := 16
/-- `ACK_MQ_OFFSET` -/
def ackMqOffset : ℕ := maxMqNum-1
/-- `DEFAULT_MQ_NUM` -/
def defaultMqNum : ℕ := 0
/-- `INVALID_MQ` -/
def invalidMq : ℕ := 0xFF
/-- `DEFAULT_GRANT` -/
def defaultGrant : ℕ := 1
/-- `DEFAULT_CALL_GRANT` -/
def defaultCallGrant : ℕ := 20480
/-- `RMNET_CH_DEFAULT` and `RMNET_CH_LL` -/
def chDefault : ℕ := 0
def chLl : ℕ := 1
/-- `DFC_ACK_TYPE_DISABLE` and `DFC_ACK_TYPE_THRESHOLD` -/
def ackTypeDisable : ℕ := 1
def ackTypeThreshold : ℕ := 2

/-- `struct rmnet_bearer_map`, with the two fields of its channel switch used here -/
structure Bearer where
  bearerId : ℕ := 0
  flowRef : ℤ := 0
  grantSize : ℕ := 0
  grantThresh : ℕ := 0
  seq : ℕ := 0
  ackReq : ℕ := 0
  lastGrant : ℕ := 0
  lastSeq : ℕ := 0
  bytesInFlight : ℕ := 0
  lastAdjustedGrant : ℕ := 0
  tcpBidir : Bool := false
  ratSwitch : Bool := false
  txOff : Bool := false
  mqIdx : ℕ := 0
  ackMqIdx : ℕ := 0
  watchdogStarted : Bool := false
  watchdogQuit : Bool := false
  watchdogExpireCnt : ℕ := 0
  currentCh : ℕ := chDefault
  autoSwitched : Bool := false

/-- `struct rmnet_flow_map` -/
structure Flow where
  bearerId : ℕ
  flowId : ℕ
  ipType : ℤ
  mqIdx : ℕ
  bearer : Option ℕ
  deriving DecidableEq

/-- `struct mq_map` -/
structure MqMap where
  bearer : Option ℕ := none
  isLlCh : Bool := false
  dropOnRemove : Bool := false

/-- What `dfc_send_ack` is asked to send. -/
structure Ack where
  bearerId : ℕ
  seq : ℕ
  type : ℕ
  deriving DecidableEq

/-- `struct qos_info` with the bearers in memory and the transmit queues of its device.
`freed` is the history of the bearers handed to `kfree`. -/
structure Qos where
  flowHead : List Flow
  bearerHead : List ℕ
  bearer : ℕ → Bearer
  nextAddr : ℕ
  mq : ℕ → MqMap
  removedBearer : Option ℕ
  freed : List ℕ
  txStopped : ℕ → Bool
  sent : List Ack

/-- The globals and the device: `dfc_qmap`, `qmi_rmnet_scale_factor`, `num_tx_queues`; the
mode is `DFC_MODE_SA`, the only supported one. -/
structure Cfg where
  dfcQmap : Bool
  scaleFactor : ℕ
  numTxQueues : ℕ

/-- `qmi_rmnet_qos_init` on a device whose queues are started -/
def initial : Qos where
  flowHead := []
  bearerHead := []
  bearer _ := {}
  nextAddr := 0
  mq _ := {}
  removedBearer := none
  freed := []
  txStopped _ := false
  sent := []

/-- The lookup key of a flow: `flow_id` and `ip_type` -/
def Flow.key (f : Flow) : ℕ × ℤ := (f.flowId,f.ipType)

/-- Writing fields of the bearer at an address -/
def Qos.setBearer (s : Qos) (a : ℕ) (f : Bearer → Bearer) : Qos :=
  { s with bearer := Function.update s.bearer a (f (s.bearer a)) }

/-- `qmi_rmnet_get_flow_map` -/
def getFlowMap (s : Qos) (flowId : ℕ) (ipType : ℤ) : Option Flow :=
  s.flowHead.find? fun f => f.key = (flowId,ipType)

/-- `qmi_rmnet_get_bearer_map` -/
def getBearerMap (s : Qos) (bearerId : ℕ) : Option ℕ :=
  s.bearerHead.find? fun a => (s.bearer a).bearerId = bearerId

/-- `qmi_rmnet_grant_per` -/
def grantPer (cfg : Cfg) (grant : ℕ) : ℕ := grant/cfg.scaleFactor

/-- `qmi_rmnet_flow_control`: waking or stopping a queue the device has -/
def flowControl (cfg : Cfg) (s : Qos) (mqIdx : ℕ) (enable : Bool) : Qos :=
  if cfg.numTxQueues ≤ mqIdx then s
  else { s with txStopped := Function.update s.txStopped mqIdx (!enable) }

/-- `qmi_rmnet_watchdog_add` -/
def watchdogAdd (b : Bearer) : Bearer :=
  { b with watchdogQuit := false, watchdogStarted := true }

/-- `qmi_rmnet_watchdog_remove` -/
def watchdogRemove (b : Bearer) : Bearer :=
  { b with watchdogQuit := true, watchdogStarted := false }

/-- `dfc_send_ack`, or `dfc_qmap_send_ack` in its place -/
def sendAck (s : Qos) (bearerId seq type : ℕ) : Qos :=
  { s with sent := s.sent++[⟨bearerId,seq,type⟩] }

/-! ## Flows and bearers -/

/-- `qmi_rmnet_bearer_clean` -/
def bearerClean (s : Qos) : Qos :=
  match s.removedBearer with
  | none => s
  | some a => { s with removedBearer := none, freed := s.freed++[a] }

/-- `__qmi_rmnet_bearer_get`; `alloc` tells whether `kzalloc` succeeds. -/
def bearerGet (cfg : Cfg) (s : Qos) (bearerId : ℕ) (alloc : Bool) : Qos × Option ℕ :=
  match getBearerMap s bearerId with
  | some a => (s.setBearer a fun b => { b with flowRef := b.flowRef+1 },some a)
  | none =>
    if alloc then
      let bearer : Bearer :=
        { bearerId := bearerId, flowRef := 1, grantSize := defaultCallGrant,
          grantThresh := grantPer cfg defaultCallGrant, mqIdx := invalidMq,
          ackMqIdx := invalidMq }
      ({ s with
          bearer := Function.update s.bearer s.nextAddr bearer
          bearerHead := s.nextAddr::s.bearerHead
          nextAddr := s.nextAddr+1 },some s.nextAddr)
    else (s,none)

/-- The body of the loop of `__qmi_rmnet_bearer_put`: queue `i` leaves the bearer. -/
def releaseMq (cfg : Cfg) (a : ℕ) (reset : Bool) (s : Qos) (i : ℕ) : Qos :=
  if (s.mq i).bearer ≠ some a then s
  else
    let s := { s with mq := Function.update s.mq i ⟨none,false,reset⟩ }
    flowControl cfg (flowControl cfg s i true) (i+ackMqOffset) true

/-- `__qmi_rmnet_bearer_put` -/
def bearerPut (cfg : Cfg) (s : Qos) (bearer : Option ℕ) (reset : Bool) : Qos :=
  match bearer with
  | none => s
  | some a =>
    let s := s.setBearer a fun b => { b with flowRef := b.flowRef-1 }
    if (s.bearer a).flowRef = 0 then
      let s := (List.range maxMqNum).foldl (releaseMq cfg a reset) s
      { s with bearerHead := s.bearerHead.erase a, removedBearer := some a }
    else s

/-- `__qmi_rmnet_update_mq` -/
def updateMq (cfg : Cfg) (s : Qos) (a mqIdx : ℕ) : Qos :=
  -- in SA mode default mq is not associated with any bearer
  if mqIdx = defaultMqNum then s
  else if (s.mq mqIdx).bearer ≠ none then s
  else
    let isLlCh := decide ((s.bearer a).currentCh ≠ 0)
    let s := { s with mq := Function.update s.mq mqIdx ⟨some a,isLlCh,false⟩ }
    let s := s.setBearer a fun b =>
      { b with mqIdx := mqIdx, ackMqIdx := mqIdx+ackMqOffset }
    let s := s.setBearer a fun b =>
      if b.grantSize = 0 then
        { b with grantSize := defaultGrant, grantThresh := grantPer cfg defaultGrant }
      else b
    flowControl cfg (flowControl cfg s mqIdx true) (s.bearer a).ackMqIdx true

/-- `qmi_rmnet_update_flow_map` and the new bearer pointer, on the flow with this key -/
def setFlow (s : Qos) (new : Flow) : Qos :=
  { s with flowHead := s.flowHead.map fun f => if f.key = new.key then new else f }

/-- `__qmi_rmnet_rebind_flow` -/
def rebindFlow (cfg : Cfg) (s : Qos) (itm newMap : Flow) (alloc : Bool) : Qos :=
  let s := bearerPut cfg s itm.bearer false
  match bearerGet cfg s newMap.bearerId alloc with
  | (s,none) => s  -- the flow keeps its old bearer pointer
  | (s,some a) => updateMq cfg (setFlow s { newMap with bearer := some a }) a newMap.mqIdx

/-- `qmi_rmnet_del_flow` -/
def delFlow (cfg : Cfg) (s : Qos) (flowId : ℕ) (ipType : ℤ) : Qos :=
  let s := match getFlowMap s flowId ipType with
    | none => s
    | some itm =>
      let s := bearerPut cfg s itm.bearer true
      { s with flowHead := s.flowHead.eraseP fun f => f.key = (flowId,ipType) }
  -- `netif_tx_wake_all_queues`
  let s := if s.flowHead = [] then { s with txStopped := fun _ => false } else s
  bearerClean s

/-- The part of `qmi_rmnet_add_flow` that creates a flow; the second result of a failed
allocation of the flow skips the clean-up. -/
def createFlow (cfg : Cfg) (s : Qos) (newMap : Flow) (allocFlow allocBearer : Bool) : Qos :=
  if !allocFlow then s
  else
    let s := { s with flowHead := { newMap with bearer := none }::s.flowHead }
    match bearerGet cfg s newMap.bearerId allocBearer with
    | (s,none) => bearerClean s
    | (s,some a) =>
      bearerClean (updateMq cfg (setFlow s { newMap with bearer := some a }) a newMap.mqIdx)

/-- `qmi_rmnet_add_flow` from the label `again` on; each time round a flow is deleted. -/
def addFlowAgain (cfg : Cfg) (newMap : Flow) (allocFlow allocBearer : Bool) : ℕ → Qos → Qos
  | 0,s => s
  | n+1,s =>
    match getFlowMap s newMap.flowId newMap.ipType with
    | some itm =>
      if itm.bearerId ≠ newMap.bearerId then
        bearerClean (rebindFlow cfg s itm newMap allocBearer)
      else if itm.mqIdx ≠ newMap.mqIdx then
        addFlowAgain cfg newMap allocFlow allocBearer n (delFlow cfg s itm.flowId itm.ipType)
      else bearerClean s
    | none => createFlow cfg s newMap allocFlow allocBearer

/-- `qmi_rmnet_add_flow` -/
def addFlow (cfg : Cfg) (s : Qos) (bearerId flowId : ℕ) (ipType : ℤ) (mqIdx : ℕ)
    (allocFlow allocBearer : Bool) : Qos :=
  if maxMqNum ≤ mqIdx then s  -- `-EINVAL`
  else addFlowAgain cfg ⟨bearerId,flowId,ipType,mqIdx,none⟩ allocFlow allocBearer
    (s.flowHead.length+1) s

/-- `qmi_rmnet_get_bearer_noref` -/
def getBearerNoref (cfg : Cfg) (s : Qos) (bearerId : ℕ) (alloc : Bool) : Qos × Option ℕ :=
  match bearerGet cfg s bearerId alloc with
  | (s,none) => (s,none)
  | (s,some a) => (s.setBearer a fun b => { b with flowRef := b.flowRef-1 },some a)

/-! ## Flow control -/

/-- `dfc_bearer_flow_ctl` -/
def bearerFlowCtl (cfg : Cfg) (s : Qos) (a : ℕ) : Qos :=
  let b := s.bearer a
  let enable := decide (b.grantSize ≠ 0)
  let s := if b.ackMqIdx ≠ invalidMq then flowControl cfg s b.ackMqIdx (enable || b.tcpBidir)
    else s
  let s := flowControl cfg s b.mqIdx enable
  if !enable && decide (b.ackReq ≠ 0) then sendAck s b.bearerId b.seq ackTypeDisable else s

/-- `struct dfc_flow_status_info_type_v01` -/
structure FcInfo where
  bearerId : ℕ
  numBytes : ℕ
  seqNum : ℕ
  rxBytesValid : Bool
  rxBytes : ℕ
  llStatus : Bool

/-- The ancillary flags of an indication: `DFC_IS_TCP_BIDIR` and `DFC_IS_RAT_SWITCH` -/
structure Ancillary where
  isTcpBidir : Bool
  isRatSwitch : Bool

/-- `dfc_all_bearer_flow_ctl` -/
def allBearerFlowCtl (cfg : Cfg) (s : Qos) (ackReq : ℕ) (ancillary : Ancillary)
    (fcInfo : FcInfo) : Qos :=
  s.bearerHead.foldl (fun s a =>
    bearerFlowCtl cfg (s.setBearer a fun b =>
      { b with
        grantSize := fcInfo.numBytes
        grantThresh := grantPer cfg fcInfo.numBytes
        seq := fcInfo.seqNum
        ackReq := ackReq
        tcpBidir := ancillary.isTcpBidir
        lastGrant := fcInfo.numBytes
        lastSeq := fcInfo.seqNum
        lastAdjustedGrant := fcInfo.numBytes }) a) s

/-- `dfc_adjust_grant`: the bytes in flight and the grant -/
def adjustGrant (bytesInFlight : ℕ) (fcInfo : FcInfo) : ℕ × ℕ :=
  if !fcInfo.rxBytesValid then (bytesInFlight,fcInfo.numBytes)
  else
    let bytesInFlight := bytesInFlight-fcInfo.rxBytes
    (bytesInFlight,fcInfo.numBytes-bytesInFlight)

/-! `dfc_update_fc_map` once the bearer is known, part by part -/

/-- The RAT switch flag of an indication is noted. -/
def noteRatSwitch (s : Qos) (a : ℕ) (ancillary : Ancillary) (numBytes : ℕ) : Qos :=
  if ancillary.isRatSwitch then
    s.setBearer a fun b => { b with ratSwitch := decide (numBytes = 0) }
  else s

/-- The modem has moved the bearer to the low latency channel. -/
def noteLlStatus (s : Qos) (a : ℕ) (llStatus : Bool) : Qos :=
  let b := s.bearer a
  if llStatus && decide (b.currentCh ≠ chLl) then
    let s := s.setBearer a fun b => { b with currentCh := chLl, autoSwitched := true }
    if b.mqIdx < maxMqNum then
      let mq : MqMap := { s.mq b.mqIdx with isLlCh := true }
      { s with mq := Function.update s.mq b.mqIdx mq }
    else s
  else s

/-- The bytes in flight and the grant an indication leaves -/
def adjustedGrant (cfg : Cfg) (b : Bearer) (fcInfo : FcInfo) (isQuery : Bool) : ℕ × ℕ :=
  if cfg.dfcQmap && isQuery then adjustGrant b.bytesInFlight fcInfo else (0,fcInfo.numBytes)

/-- The queue state has to be updated. -/
def fcAction (b : Bearer) (ancillary : Ancillary) (grant : ℕ) : Bool :=
  decide (b.grantSize = 0 ∧ 0 < grant) || decide (0 < b.grantSize ∧ grant = 0) ||
    (b.tcpBidir != ancillary.isTcpBidir)

/-- The disable ack that qmap still needs -/
def ackDisable (cfg : Cfg) (s : Qos) (a ackReq : ℕ) : Qos :=
  let b := s.bearer a
  if cfg.dfcQmap && decide (b.ackReq ≠ 0) && decide (ackReq = 0) &&
      decide (b.grantSize ≠ 0) then sendAck s b.bearerId b.seq ackTypeDisable
  else s

/-- What an indication writes into the bearer -/
def recordGrant (cfg : Cfg) (ackReq : ℕ) (ancillary : Ancillary) (fcInfo : FcInfo)
    (isQuery : Bool) (b : Bearer) : Bearer :=
  let adjusted := adjustedGrant cfg b fcInfo isQuery
  let b := { b with bytesInFlight := adjusted.1, grantSize := adjusted.2 }
  let b := if cfg.dfcQmap && isQuery && decide (adjusted.2 < fcInfo.numBytes/5) then
      watchdogAdd { b with grantThresh := adjusted.2 }
    else watchdogRemove { b with grantThresh := grantPer cfg adjusted.2 }
  { b with
    seq := fcInfo.seqNum
    ackReq := ackReq
    tcpBidir := ancillary.isTcpBidir
    lastGrant := fcInfo.numBytes
    lastSeq := fcInfo.seqNum
    lastAdjustedGrant := adjusted.2 }

def updateFcBearer (cfg : Cfg) (s : Qos) (a ackReq : ℕ) (ancillary : Ancillary)
    (fcInfo : FcInfo) (isQuery : Bool) : Qos :=
  let b := s.bearer a
  if !ancillary.isRatSwitch && b.ratSwitch then s
  else if b.txOff && decide (0 < fcInfo.numBytes) then
    noteRatSwitch s a ancillary fcInfo.numBytes
  else
    let s := noteRatSwitch s a ancillary fcInfo.numBytes
    let s := noteLlStatus s a fcInfo.llStatus
    let action := fcAction b ancillary (adjustedGrant cfg b fcInfo isQuery).2
    let s := ackDisable cfg s a ackReq
    let s := s.setBearer a (recordGrant cfg ackReq ancillary fcInfo isQuery)
    if action then bearerFlowCtl cfg s a else s

/-- `dfc_update_fc_map` -/
def updateFcMap (cfg : Cfg) (s : Qos) (ackReq : ℕ) (ancillary : Ancillary) (fcInfo : FcInfo)
    (isQuery alloc : Bool) : Qos :=
  match getBearerMap s fcInfo.bearerId with
  | some a => updateFcBearer cfg s a ackReq ancillary fcInfo isQuery
  | none =>
    -- cache the bearer assuming it is a new bearer
    if !isQuery && decide (fcInfo.numBytes ≠ 0) then
      match getBearerNoref cfg s fcInfo.bearerId alloc with
      | (s,none) => s
      | (s,some a) => updateFcBearer cfg s a ackReq ancillary fcInfo isQuery
    else s

/-- One flow status of `dfc_do_burst_flow_control`; `ignoreGrant` is powersave. -/
def burstFlowControl (cfg : Cfg) (s : Qos) (ackReq : ℕ) (ancillary : Ancillary)
    (fcInfo : FcInfo) (isQuery ignoreGrant alloc : Bool) : Qos :=
  if ignoreGrant && decide (fcInfo.numBytes = 0) then s
  else
    let fcInfo := if ignoreGrant then
        { fcInfo with numBytes := defaultGrant, seqNum := 0, rxBytesValid := true,
                      rxBytes := 0xFFFFFFFF }
      else fcInfo
    if fcInfo.bearerId = 0xFF then allBearerFlowCtl cfg s ackReq ancillary fcInfo
    else updateFcMap cfg s ackReq ancillary fcInfo isQuery alloc

/-- `dfc_update_tx_link_status` -/
def updateTxLinkStatus (cfg : Cfg) (s : Qos) (txStatus : Bool) (bearerId : ℕ) : Qos :=
  match getBearerMap s bearerId with
  | none => s
  | some a =>
    let b := s.bearer a
    if b.txOff = !txStatus then s
    else
      let s :=
        if b.grantSize ≠ 0 ∧ txStatus = false then
          bearerFlowCtl cfg (s.setBearer a fun b =>
            watchdogRemove { b with grantSize := 0, tcpBidir := false, bytesInFlight := 0 }) a
        else if b.grantSize = 0 ∧ txStatus = true ∧ b.ratSwitch = false then
          bearerFlowCtl cfg (s.setBearer a fun b =>
            { b with grantSize := defaultGrant, grantThresh := grantPer cfg defaultGrant,
                     seq := 0, ackReq := 0 }) a
        else s
      s.setBearer a fun b => { b with txOff := !txStatus }

/-- `dfc_qmi_burst_check` -/
def burstCheck (cfg : Cfg) (s : Qos) (ipType : ℤ) (mark len : ℕ) : Qos :=
  match (getFlowMap s mark ipType).bind Flow.bearer with
  | none => s
  | some a =>
    let b := s.bearer a
    let s := s.setBearer a fun b => { b with bytesInFlight := (b.bytesInFlight+len) % 2^32 }
    if b.grantSize = 0 then s
    else
      let grant := b.grantSize-len
      let s := s.setBearer a fun b => { b with grantSize := grant }
      let s := if b.grantThresh < b.grantSize ∧ grant ≤ b.grantThresh then
          sendAck s b.bearerId b.seq ackTypeThreshold else s
      if grant = 0 then bearerFlowCtl cfg s a else s

/-- `qmi_rmnet_watchdog_fn` for a bearer in the map; it may run late, after the bearer was
taken off watch. -/
def watchdogFn (cfg : Cfg) (s : Qos) (a : ℕ) : Qos :=
  if a ∉ s.bearerHead then s
  else
    let b := s.bearer a
    let s :=
      if b.watchdogQuit then s
      else
        let s := s.setBearer a fun b =>
          { b with watchdogExpireCnt := b.watchdogExpireCnt+1, bytesInFlight := 0 }
        if b.grantSize = 0 then
          bearerFlowCtl cfg (s.setBearer a fun b =>
            { b with grantSize := defaultCallGrant,
                     grantThresh := grantPer cfg defaultCallGrant }) a
        else s.setBearer a fun b => { b with grantThresh := grantPer cfg b.grantSize }
    s.setBearer a fun b => { b with watchdogStarted := false }

/-- What `qmi_rmnet_enable_all_flows` and `qmi_rmnet_prepare_ps_bearers` reset. -/
def resetBearer (b : Bearer) : Bearer :=
  watchdogRemove
    { b with seq := 0, ackReq := 0, bytesInFlight := 0, tcpBidir := false, ratSwitch := false }

/-- The body of the loop of `qmi_rmnet_enable_all_flows` -/
def enableFlow (cfg : Cfg) (s : Qos) (a : ℕ) : Qos :=
  let s := s.setBearer a resetBearer
  if (s.bearer a).txOff then s
  else
    let doWake := decide ((s.bearer a).grantSize = 0)
    let s := s.setBearer a fun b =>
      { b with grantSize := defaultGrant, grantThresh := grantPer cfg defaultGrant }
    if doWake then bearerFlowCtl cfg s a else s

/-- `qmi_rmnet_enable_all_flows` -/
def enableAllFlows (cfg : Cfg) (s : Qos) : Qos := s.bearerHead.foldl (enableFlow cfg) s

/-- The body of the loop of `qmi_rmnet_prepare_ps_bearers`: the bearers, and the disabled
ones reported while there is room for `left` more -/
def preparePsBearer (cfg : Cfg) (r : Qos × List ℕ × ℕ) (a : ℕ) : Qos × List ℕ × ℕ :=
  let s := r.1
  let bearerIds := r.2.1
  let left := r.2.2
  if (s.bearer a).grantSize ≠ 0 then
    (s.setBearer a fun b =>
      { resetBearer b with grantSize := defaultGrant,
                           grantThresh := grantPer cfg defaultGrant },bearerIds,left)
  else if left ≠ 0 then (s,bearerIds++[(s.bearer a).bearerId],left-1)
  else (s,bearerIds,left)

/-- `qmi_rmnet_prepare_ps_bearers` with room for `numBearers` bearers -/
def preparePsBearers (cfg : Cfg) (s : Qos) (numBearers : ℕ) : Qos × List ℕ :=
  let r := s.bearerHead.foldl (preparePsBearer cfg) (s,[],numBearers)
  (r.1,r.2.1)

/-! ## Runs -/

inductive Op
  | addFlow (bearerId flowId : ℕ) (ipType : ℤ) (mqIdx : ℕ) (allocFlow allocBearer : Bool)
  | delFlow (flowId : ℕ) (ipType : ℤ)
  | flowStatus (ackReq : ℕ) (ancillary : Ancillary) (fcInfo : FcInfo)
      (isQuery ignoreGrant alloc : Bool)
  | txLinkStatus (txStatus : Bool) (bearerId : ℕ)
  | burstCheck (ipType : ℤ) (mark len : ℕ)
  | watchdog (bearer : ℕ)
  | enableAllFlows
  | preparePsBearers (numBearers : ℕ)

def step (cfg : Cfg) (s : Qos) : Op → Qos
  | .addFlow bearerId flowId ipType mqIdx allocFlow allocBearer =>
    addFlow cfg s bearerId flowId ipType mqIdx allocFlow allocBearer
  | .delFlow flowId ipType => delFlow cfg s flowId ipType
  | .flowStatus ackReq ancillary fcInfo isQuery ignoreGrant alloc =>
    burstFlowControl cfg s ackReq ancillary fcInfo isQuery ignoreGrant alloc
  | .txLinkStatus txStatus bearerId => updateTxLinkStatus cfg s txStatus bearerId
  | .burstCheck ipType mark len => burstCheck cfg s ipType mark len
  | .watchdog bearer => watchdogFn cfg s bearer
  | .enableAllFlows => enableAllFlows cfg s
  | .preparePsBearers numBearers => (preparePsBearers cfg s numBearers).1

end Dfc
end MarbleModules
