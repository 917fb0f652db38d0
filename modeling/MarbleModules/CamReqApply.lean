import MarbleModules.CamReqLink

/-! A trigger on a camera link: the request at the read index is checked, sent to the devices
and, when some device does not take it, left for the next trigger. -/
namespace MarbleModules
namespace CamReqMgr

def sof : BitVec 32 := 1
def eof : BitVec 32 := 2

def maximumRetryAttempts : ℕ := 6

/-- What a device is asked to apply. -/
structure ApplyRequest where
  devHdl : ℤ
  requestId : ℤ
  reportIfBubble : ℤ
  reApply : Bool
  triggerPoint : BitVec 32

/-- A trigger, and what the rest of the system answers while it is processed: the devices when
they are asked to apply a request, ahead of the others or with them; the links this one is
synchronised with when asked whether they can take the request, and their delays; the workqueue,
whether it was late; and the debug switch for reapplying. -/
structure Trigger where
  trigger : BitVec 32
  reqId : ℤ
  applySpecial : ApplyRequest → ℤ
  applyReq : ApplyRequest → ℤ
  syncReady : ℤ
  syncDelays : List ℤ
  congested : Bool
  recoveryOnApplyFail : Bool

/-- Whether the request at the read index has something to apply at the end of the frame. -/
inductive EofTrigger
  | none | notApply | applied
  deriving DecidableEq

def injectDelay (trigger : BitVec 32) : ℤ → List ReqTbl → ℤ × List ReqTbl
  | _, [] => (0,[])
  | currIdx, tbl::next =>
    let r := injectDelay trigger (decIdx currIdx tbl.pdDelta tbl.numSlots) next
    let slot := tbl.slot currIdx
    if trigger = sof ∧ slot.injectDelayAtSof > 0 then
      (-eagain,tbl.updSlot currIdx (fun slot =>
        {slot with injectDelayAtSof := slot.injectDelayAtSof-1})::r.2)
    else if trigger = eof ∧ slot.injectDelayAtEof > 0 then
      (-eagain,tbl.updSlot currIdx (fun slot =>
        {slot with injectDelayAtEof := slot.injectDelayAtEof-1})::r.2)
    else (r.1,tbl::r.2)

def eofLoop : ℤ → List ReqTbl → EofTrigger
  | _, [] => .none
  | currIdx, tbl::next =>
    if (tbl.slot currIdx).ops.isApplied then .applied
    else if (tbl.slot currIdx).ops.applyAtEof then .notApply
    else eofLoop (decIdx currIdx tbl.pdDelta tbl.numSlots) next

def checkForEof (l : Link) : EofTrigger := eofLoop l.inQ.rdIdx l.lTbl

/-- The slot of a device's table. -/
def Link.tblSlot (l : Link) (dev : Device) (idx : ℤ) : TblSlot :=
  match findPdTbl l.lTbl dev.devInfo.pDelay with
  | none => emptySlot
  | some tbl => tbl.slot idx

def Link.setOps (l : Link) (dev : Device) (idx : ℤ) (f : SpecialOps → SpecialOps) : Link :=
  {l with
    lTbl := updTbl l.lTbl dev.devInfo.pDelay fun tbl =>
      tbl.updSlot idx fun slot => {slot with ops := f slot.ops}}

/-- Tell every device that the frame is skipped; one that had the request ahead of the others
is no longer marked so. -/
def notifyFrameSkip (l : Link) : Link :=
  l.devs.foldl (fun l dev =>
    let idx := (l.prevApplyData dev.devInfo.pDelay).idx
    let slot := l.tblSlot dev idx
    if dev.devInfo.pDelay ≥ pipelineDelayMax then l
    else if slot.ops.devHdl = dev.devHdl ∧ slot.ops.isApplied then
      l.setOps dev idx fun ops => {ops with isApplied := false}
    else l) l

/-- How the devices that asked for a special operation leave the sending of a request: to the
others, or ended with a return value. -/
inductive Special
  | regular
  | failed (rc : ℤ)
  | applied (dev : Device) (idx : ℤ)

def specialLoop (l : Link) (t : Trigger) : List Device → Special
  | [] => .regular
  | dev::rest =>
    let pd := dev.devInfo.pDelay
    let data := l.applyData pd
    let slot := l.tblSlot dev data.idx
    if pd ≥ pipelineDelayMax then specialLoop l t rest
    else if slot.ops.devHdl < 0 then specialLoop l t rest
    else if dev.devHdl ≠ slot.ops.devHdl then specialLoop l t rest
    else if data.skipIdx ≠ 0 ∨ data.reqId < 0 then specialLoop l t rest
    else if t.trigger = sof ∧ slot.ops.applyAtEof then .regular
    else if t.trigger = eof ∧ ¬slot.ops.applyAtEof then .regular
    else if dev.devInfo.hasApplyReq ∧ ¬slot.ops.isApplied then
      let rc := t.applySpecial ⟨dev.devHdl,data.reqId,0,
        l.retryCnt > 0 ∧ t.recoveryOnApplyFail,t.trigger⟩
      if rc ≠ 0 then .failed rc
      else if t.trigger = eof ∧ slot.ops.applyAtEof then .applied dev data.idx
      else specialLoop l t rest
    else .regular

/-- Send the request to the devices that listen to the trigger, up to the first that fails. -/
def sendLoop (t : Trigger) : Link → Bool → ℤ → List Device → ℤ × Link
  | l, _, rc, [] => (rc,l)
  | l, reApply, rc, dev::rest =>
    let pd := dev.devInfo.pDelay
    let data := l.applyData pd
    let slot := l.tblSlot dev data.idx
    if pd ≥ pipelineDelayMax then sendLoop t l reApply rc rest
    else if dev.devInfo.trigger &&& t.trigger = 0 then sendLoop t l reApply rc rest
    else if data.skipIdx ≠ 0 ∨ data.reqId < 0 then sendLoop t l reApply rc rest
    else
      let reportIfBubble := (l.inQ.slot data.idx).recover
      let reApply := reApply || (l.retryCnt > 0 && reportIfBubble = 0 && l.dualTrigger)
      if slot.ops.devHdl = dev.devHdl ∧ slot.ops.isApplied then
        sendLoop t (l.setOps dev data.idx fun ops => {ops with isApplied := false}) reApply rc rest
      else if t.trigger = sof ∧ dev.devHdl = slot.ops.devHdl ∧ slot.ops.applyAtEof then
        sendLoop t l reApply rc rest
      else if t.trigger = eof ∧ dev.devHdl = slot.ops.devHdl ∧ ¬slot.ops.applyAtEof then
        sendLoop t l reApply rc rest
      else if dev.devInfo.hasApplyReq then
        let rc := t.applyReq ⟨dev.devHdl,data.reqId,reportIfBubble,reApply,t.trigger⟩
        if rc < 0 then (rc,l) else sendLoop t l reApply rc rest
      else sendLoop t l reApply rc rest

def sendReq (l : Link) (t : Trigger) : ℤ × Link :=
  match specialLoop l t l.devs with
  | .failed rc => (rc,notifyFrameSkip l)
  | .applied dev idx =>
    (0,l.setOps dev idx fun ops => {ops with isApplied := true, applyAtEof := false})
  | .regular =>
    let (rc,l) := sendLoop t l (l.retryCnt > 0 ∧ t.recoveryOnApplyFail) 0 l.devs
    if rc < 0 then (rc,notifyFrameSkip l)
    else (rc,{l with prevApplyData := l.applyData})

/-- The larger of the link's own delay and those of the links it is synchronised with. -/
def resetStep (l : Link) (t : Trigger) : ℤ :=
  t.syncDelays.foldl (fun step delay => if delay > step then delay else step) l.maxDelay

def Link.setStatus (l : Link) (status : SlotStatus) : Link :=
  {l with inQ := l.inQ.updSlot l.inQ.rdIdx fun slot => {slot with status := status}}

/-- Everything the request at the read index is asked before the check that fills in what to
apply: the other links when it is synchronised with them, else the link itself, and the delays
the devices inject. -/
def prepare (l : Link) (t : Trigger) : ℤ × Link :=
  let slot := l.inQ.slot l.inQ.rdIdx
  if slot.syncMode = syncModeSync then
    if t.syncReady < 0 then (t.syncReady,l)
    else
      let (rc,lTbl) := injectDelay t.trigger slot.idx l.lTbl
      (if rc < 0 then -einval else 0,{l with lTbl := lTbl})
  else
    let (rc,l) := checkLinkIsReady l slot.idx true
    if rc ≠ 0 then (rc,l)
    else
      let (rc,lTbl) := injectDelay t.trigger slot.idx l.lTbl
      (rc,{l with lTbl := lTbl})

/-- What a trigger does with the request at the read index. -/
inductive Course
  | leave (rc : ℤ) | skip | check | send
  deriving DecidableEq

def course (l : Link) (t : Trigger) : Course :=
  let slot := l.inQ.slot l.inQ.rdIdx
  if l.state = .idle then .leave (-eperm)
  else if t.trigger ≠ sof ∧ t.trigger ≠ eof then .leave 0
  else if t.trigger = eof ∧ checkForEof l = .none then .leave 0
  else if t.trigger = sof ∧ slot.status = .noReq then .skip
  else if slot.status ≠ .reqReady then .check
  else .send

/-- Leave the request for the next trigger. -/
def notReady (l : Link) (rc : ℤ) : ℤ × Link :=
  let l := l.setStatus .reqPending
  (if l.state = .err then -eperm else rc,notifyFrameSkip l)

/-- Send the request, and free the slot that is done with it once it has been applied. -/
def applyStep (l : Link) (t : Trigger) (eofTriggerType : EofTrigger) : ℤ × Link :=
  let (rc,l) := sendReq l t
  if rc < 0 then
    let l := l.setStatus .reqPending
    let maxRetry := if l.maxDelay = 1 then maximumRetryAttempts+1 else maximumRetryAttempts
    let retryCnt := if l.retryCnt+1 = maxRetry then 0 else l.retryCnt+1
    (rc,{l with retryCnt := if l.wqCongestion then l.retryCnt else retryCnt})
  else
    let l := {l with retryCnt := 0, state := if l.state = .err then .ready else l.state}
    if (eofTriggerType = .none ∨ eofTriggerType = .applied) ∧ t.trigger = sof then
      let l := l.setStatus .reqApplied
      let idx := l.inQ.rdIdx
      let l :=
        if (l.inQ.slot idx).reqId > 0 then {l with inQ := {l.inQ with lastAppliedIdx := idx}}
        else l
      (rc,resetReqSlot l (decIdx idx (resetStep l t+1) l.inQ.numSlots))
    else (rc,l)

/-- The workqueue's delay is looked at when a frame starts. -/
def congestion (l : Link) (t : Trigger) : Link :=
  if t.trigger = sof then {l with wqCongestion := t.congested} else l

/-- The link as the check that fills in what to apply finds it, after the questions that come
first. -/
def asked (l : Link) (t : Trigger) : ℤ × Link := prepare (congestion l t) t

/-- The check that fills in what to apply. -/
def filled (l : Link) (t : Trigger) : ℤ × Link :=
  let l := (asked l t).2
  checkLinkIsReady l (l.inQ.slot l.inQ.rdIdx).idx false

def processReq (l : Link) (t : Trigger) : ℤ × Link :=
  let slot := l.inQ.slot l.inQ.rdIdx
  let eofTriggerType := checkForEof l
  match course l t with
  | .leave rc => (rc,l)
  | .skip => (0,notifyFrameSkip l)
  | .send => applyStep (congestion l t) t eofTriggerType
  | .check =>
    let (rc,l) :=
      if (asked l t).1 ≠ 0 then asked l t
      -- synchronised links have answered for each other, a failure here is only printed
      else if slot.syncMode = syncModeSync then (0,(filled l t).2)
      else filled l t
    let rc := if rc = 0 ∧ t.trigger = sof ∧ eofTriggerType = .notApply then -eagain else rc
    if rc < 0 then notReady l rc
    else applyStep (l.setStatus .reqReady) t eofTriggerType

end CamReqMgr
end MarbleModules
