import MarbleModules.CamReqTbl

/-! A link of the camera request manager: its set-up from the devices connected to it, and what
scheduling, adding, resetting and flushing requests do to its input queue and tables. -/
namespace MarbleModules
namespace CamReqMgr

def enxio : ℤ := 6
def enodev : ℤ := 19
def ebadslt : ℤ := 57

def pipelineDelayMax : ℤ := 3
def maxTriggers : ℕ := 2
def deviceIfe : ℤ := 4
def syncModeNoSync : ℤ := 0
def syncModeSync : ℤ := 1

/-- State of a link, in the order the source compares them in. -/
inductive LinkState
  | available | idle | ready | err
  deriving DecidableEq

def LinkState.rank : LinkState → ℕ
  | .available => 0
  | .idle => 1
  | .ready => 2
  | .err => 3

/-- What a device reports of itself when it is linked, and the return value of the report. -/
structure DevInfo where
  rc : ℤ
  devHdl : ℤ
  devId : ℤ
  pDelay : ℤ
  trigger : BitVec 32
  triggerOn : Bool
  hasApplyReq : Bool

structure Device where
  devHdl : ℤ
  devBit : ℕ
  devInfo : DevInfo

structure Link where
  devs : List Device
  maxDelay : ℤ
  pdMask : BitVec 32
  inQ : ReqQueue
  lTbl : List ReqTbl
  applyData : ℤ → Apply
  prevApplyData : ℤ → Apply
  state : LinkState
  retryCnt : ℕ
  dualTrigger : Bool
  wqCongestion : Bool

def noOps : SpecialOps := ⟨-1,false,false⟩

def emptySlot : TblSlot := ⟨0,.empty,0,0,noOps⟩

def createPdTbl : ReqTbl := ⟨0,0,0,0,0,maxReqSlots,fun _ => emptySlot⟩

def findPdTbl (lTbl : List ReqTbl) (delay : ℤ) : Option ReqTbl :=
  lTbl.find? fun tbl => tbl.pd = delay

/-- Insert behind the last table of a larger delay. -/
def insertAfter (newTbl : ReqTbl) : ReqTbl → List ReqTbl → List ReqTbl
  | tbl, [] => [{tbl with pdDelta := tbl.pd-newTbl.pd},{newTbl with pdDelta := 0}]
  | tbl, next::rest =>
    if newTbl.pd < next.pd then tbl::insertAfter newTbl next rest
    else
      {tbl with pdDelta := tbl.pd-newTbl.pd}::
        {newTbl with pdDelta := newTbl.pd-next.pd}::next::rest

def addTblToLink (lTbl : List ReqTbl) (newTbl : ReqTbl) : List ReqTbl :=
  match lTbl with
  | [] => [newTbl]
  | tbl::next =>
    if tbl.pd < newTbl.pd then {newTbl with pdDelta := newTbl.pd-tbl.pd}::tbl::next
    else insertAfter newTbl tbl next

/-- Every table skips as many traversals as it is behind the largest delay. -/
def tblSetAllSkipCnt (lTbl : List ReqTbl) : List ReqTbl :=
  match lTbl with
  | [] => []
  | tbl::_ => lTbl.map fun t => {t with skipTraverse := tbl.pd-t.pd}

/-- Change the table of a delay. -/
def updTbl (lTbl : List ReqTbl) (pd : ℤ) (f : ReqTbl → ReqTbl) : List ReqTbl :=
  lTbl.map fun tbl => if tbl.pd = pd then f tbl else tbl

/-- Change a slot of a table. -/
def ReqTbl.updSlot (tbl : ReqTbl) (idx : ℤ) (f : TblSlot → TblSlot) : ReqTbl :=
  {tbl with slot := Function.update tbl.slot idx (f (tbl.slot idx))}

def ReqQueue.updSlot (inQ : ReqQueue) (idx : ℤ) (f : Slot → Slot) : ReqQueue :=
  {inQ with slot := Function.update inQ.slot idx (f (inQ.slot idx))}

def setupInQ : ReqQueue :=
  ⟨maxReqSlots,fun i => ⟨i,0,.noReq,0,-1,syncModeNoSync⟩,0,0,0⟩

/-- A link before its devices are known. The link structures are used again, and keep all of
the apply data but the request. -/
def reserveLink (used prevUsed : ℤ → Apply) : Link :=
  ⟨[],0,0,setupInQ,[],fun pd => {used pd with reqId := -1},
    fun pd => {prevUsed pd with reqId := -1},.idle,0,false,false⟩

/-- Connect a device, with a table for its delay when it is the first of that delay. -/
def setupDev (l : Link) (info : DevInfo) : Except ℤ Link :=
  let l :=
    if l.pdMask &&& pdBit info.pDelay ≠ 0 then l
    else
      {l with
        pdMask := l.pdMask ||| pdBit info.pDelay
        lTbl := addTblToLink l.lTbl {createPdTbl with pd := info.pDelay}}
  match findPdTbl l.lTbl info.pDelay with
  | none => .error (-enxio)
  | some tbl =>
    .ok {l with
      devs := l.devs++[⟨info.devHdl,tbl.devCount,info⟩]
      lTbl := updTbl l.lTbl info.pDelay fun t =>
        {t with devCount := t.devCount+1, devMask := t.devMask ||| 1#32 <<< tbl.devCount}
      maxDelay := if info.pDelay > l.maxDelay then info.pDelay else l.maxDelay}

def resetInQ : ReqQueue := ⟨0,fun _ => ⟨0,0,.noReq,0,0,syncModeNoSync⟩,0,0,0⟩

def destroyLinkInfo (l : Link) : Link :=
  {l with lTbl := [], inQ := resetInQ, pdMask := 0, devs := [], maxDelay := 0}

/-- Set up a link for its devices. A delay out of range ends the set-up with the return value
of the report, which need not be an error. -/
def setupLinkInfo (l : Link) (infos : List DevInfo) : Except ℤ Link :=
  match infos.find? fun info =>
      info.rc < 0 ∨ info.pDelay ≥ pipelineDelayMax ∨ info.pDelay < 0 with
  | some info => if info.rc < 0 then .error info.rc else .ok (destroyLinkInfo l)
  | none =>
    if infos.countP (·.triggerOn) > maxTriggers then .error (-einval)
    else do
      let l ← infos.foldlM setupDev
        {l with dualTrigger := infos.countP (·.triggerOn) = maxTriggers}
      return {l with lTbl := tblSetAllSkipCnt l.lTbl}

/-- A link with its devices, ready for use. -/
def link (used prevUsed : ℤ → Apply) (infos : List DevInfo) : Except ℤ Link := do
  let l ← setupLinkInfo (reserveLink used prevUsed) infos
  return {l with state := .ready}

def findSlotLoop (inQ : ReqQueue) (reqId : ℤ) : ℕ → ℤ → ℤ
  | 0, _ => -1
  | n+1, idx =>
    if (inQ.slot idx).reqId = reqId then idx
    else findSlotLoop inQ reqId n (decIdx idx 1 inQ.numSlots)

/-- Look for a request from the read index backwards. -/
def findSlotForReq (inQ : ReqQueue) (reqId : ℤ) : ℤ :=
  findSlotLoop inQ reqId inQ.numSlots.toNat inQ.rdIdx

/-- A slot of the input queue without a request. -/
def Slot.clear (slot : Slot) (skipIdx : ℤ) : Slot :=
  {slot with
    reqId := -1
    skipIdx := skipIdx
    recover := 0
    syncMode := syncModeNoSync
    status := .noReq}

def inQSkipIdx (inQ : ReqQueue) (idx : ℤ) : ReqQueue :=
  inQ.updSlot idx fun slot => {slot with reqId := -1, skipIdx := 1}

/-- Empty every slot. Unlike a reset this marks the queue's slots to be skipped, and leaves the
injected delays of the tables. -/
def flushReqSlot (l : Link) : Link :=
  {l with
    inQ := {l.inQ with
      slot := fun i => if 0 ≤ i ∧ i < l.inQ.numSlots then (l.inQ.slot i).clear 1 else l.inQ.slot i
      wrIdx := 0
      rdIdx := 0}
    lTbl := l.lTbl.map fun tbl => {tbl with
      slot := fun i =>
        if 0 ≤ i ∧ i < l.inQ.numSlots then
          {tbl.slot i with reqReadyMap := 0, state := .empty, ops := noOps}
        else tbl.slot i}}

/-- Empty one slot, unless a new request is there or it was applied last. -/
def resetReqSlot (l : Link) (idx : ℤ) : Link :=
  if idx < 0 then l
  else if (l.inQ.slot idx).status = .reqAdded ∨ l.inQ.lastAppliedIdx = idx then l
  else
    {l with
      inQ := l.inQ.updSlot idx fun slot => slot.clear 0
      lTbl := l.lTbl.map fun tbl => tbl.updSlot idx fun _ => emptySlot}

def checkForLowerPdDevices (l : Link) : ℤ :=
  if ∃ dev ∈ l.devs,dev.devInfo.pDelay < l.maxDelay then 0 else -eagain

/-- Make sure that there is something to do at the slot behind the read index: its request, or
a skipped slot when devices of lower delays still have requests to finish. -/
def checkNextReqSlot (l : Link) : ℤ × Link :=
  let idx := incIdx l.inQ.rdIdx 1 l.inQ.numSlots
  let l :=
    if (l.inQ.slot idx).status = .reqApplied then
      let l :=
        if l.inQ.lastAppliedIdx = idx then {l with inQ := {l.inQ with lastAppliedIdx := -1}}
        else l
      resetReqSlot l idx
    else l
  if (l.inQ.slot idx).status = .noReq then
    let rc := checkForLowerPdDevices l
    if rc ≠ 0 then (rc,l)
    else
      let inQ := (inQSkipIdx l.inQ idx).updSlot idx fun slot => {slot with status := .reqAdded}
      (0,{l with inQ := {inQ with wrIdx := incIdx inQ.wrIdx 1 inQ.numSlots}})
  else (0,l)

structure SchedReq where
  reqId : ℤ
  syncMode : ℤ
  bubbleEnable : ℤ

def processSchedReq (l : Link) (req : SchedReq) : Link :=
  let inQ := l.inQ.updSlot l.inQ.wrIdx fun slot =>
    {slot with
      status := .reqAdded
      reqId := req.reqId
      syncMode := req.syncMode
      skipIdx := 0
      recover := req.bubbleEnable}
  {l with inQ := {inQ with wrIdx := incIdx inQ.wrIdx 1 inQ.numSlots}}

structure AddReq where
  devHdl : ℤ
  reqId : ℤ
  triggerEof : Bool
  skipAtSof : ℕ
  skipAtEof : ℕ

/-- A device has its packet for the request of a slot. -/
def TblSlot.add (slot : TblSlot) (req : AddReq) (device : Device) (devMask : BitVec 32) :
    TblSlot :=
  let reqReadyMap := slot.reqReadyMap ||| 1#32 <<< device.devBit
  ⟨reqReadyMap,if reqReadyMap = devMask then .ready else .pending,
    max slot.injectDelayAtSof (req.skipAtSof % 256),
    max slot.injectDelayAtEof (req.skipAtEof % 256),
    if req.triggerEof then ⟨req.devHdl,true,false⟩ else {slot.ops with isApplied := false}⟩

def processAddReq (l : Link) (req : AddReq) : ℤ × Link :=
  match l.devs.find? fun dev => dev.devHdl = req.devHdl with
  | none => (-einval,l)
  | some device =>
    let idx := findSlotForReq l.inQ req.reqId
    if idx < 0 then (-ebadslt,l)
    else
      (0,{l with
        lTbl := updTbl l.lTbl device.devInfo.pDelay fun tbl =>
          tbl.updSlot idx fun slot => slot.add req device tbl.devMask})

def getDevPd (l : Link) (devId : ℤ) : ℤ :=
  match l.devs.find? fun dev => dev.devInfo.devId = devId with
  | none => -enodev
  | some dev => dev.devInfo.pDelay

/-- Cancel a request that the image front end has not been given. -/
def tryCancelReq (l : Link) (reqId : ℤ) : ℤ × Link :=
  let idx := findSlotForReq l.inQ reqId
  if idx < 0 then (-enoent,l)
  else
    let cancelled := {l with inQ := inQSkipIdx l.inQ idx}
    match (l.inQ.slot idx).status with
    | .reqPending | .reqApplied =>
      let pd := getDevPd l deviceIfe
      if pd < 0 ∨ pd ≥ pipelineDelayMax then (pd,l)
      else if reqId ≤ (l.prevApplyData pd).reqId then (-eperm,l)
      else (0,cancelled)
    | .reqReady | .reqAdded => (0,cancelled)
    | _ => (-einval,l)

def resetApplyData (l : Link) : Link :=
  {l with
    applyData := fun pd => {l.applyData pd with reqId := -1}
    prevApplyData := fun pd => {l.prevApplyData pd with reqId := -1}}

/-- A flush of all requests, or the cancelling of one. -/
inductive FlushType
  | all | cancelReq

def processFlushReq (l : Link) (type : FlushType) (reqId : ℤ) : ℤ × Link :=
  match type with
  | .all => (0,resetApplyData (flushReqSlot l))
  | .cancelReq => tryCancelReq l reqId

def processStop (l : Link) : Link := flushReqSlot l

def linkControl (l : Link) (activate : Bool) : Link :=
  {l with state := if activate then .ready else .idle}

/-- Whether the request of slot `idx` can be applied; unless it is only validated, what to give
to the devices of each delay is filled in and the skips of the tables are spent. -/
def checkLinkIsReady (l : Link) (idx : ℤ) (validateOnly : Bool) : ℤ × Link :=
  let applyData := if validateOnly then l.applyData else fun _ => ⟨0,0,0,0⟩
  let r := traverse l.inQ validateOnly idx l.lTbl ⟨0#32,⟨0,0,0⟩,applyData⟩
  let l := {l with lTbl := r.2.1, applyData := r.2.2.applyData}
  if r.1 = 0 ∧ r.2.2.result = l.pdMask then (0,l) else (-eagain,l)

end CamReqMgr
end MarbleModules
