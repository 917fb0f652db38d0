import MarbleModules.GsiRing
import MarbleModules.Runs

/-!
Transfers over GPI channels that share one event ring, after `gsi.c`: queueing elements, the
processing of completion events from the interrupt handler and by polling, and the hardware
that completes elements in ring order. The history of a run is kept beside the driver's state:
the elements accepted, the events written and the notifications given.
-/
namespace MarbleModules
namespace Gsi

/-- `enum gsi_chan_dir`. -/
inductive Dir
  | fromGsi | toGsi
  deriving DecidableEq, Repr

/-- `enum gsi_xfer_elem_type`, and the values outside it. -/
inductive XferElemType
  | data | immeCmd | nop | other
  deriving DecidableEq, Repr

/-- `enum gsi_re_type`, as far as a GPI channel writes it. -/
inductive ReType
  | none | xfer | immdCmd | nop
  deriving DecidableEq, Repr

/-- The status codes of the functions below. -/
inductive Status
  | success | invalidParams | ringInsufficientSpace | pollEmpty
  deriving DecidableEq, Repr

/-- `struct gsi_xfer_elem`, its flags taken apart. -/
structure XferElem where
  addr : ℕ
  len : ℕ
  bei : Bool
  eot : Bool
  eob : Bool
  chain : Bool
  type : XferElemType
  xferUserData : ℕ
  deriving DecidableEq

/-- `struct gsi_tre`. -/
structure Tre where
  bufferPtr : ℕ
  bufLen : ℕ
  reType : ReType
  bei : Bool
  ieot : Bool
  ieob : Bool
  chain : Bool
  deriving DecidableEq

/-- `struct gsi_user_data`. -/
structure UserData where
  valid : Bool
  p : ℕ
  deriving DecidableEq

/-- `struct gsi_chan_ctx` with what it takes from its properties; `tre` is the memory of the
ring by index. -/
structure Chan where
  ring : Ring
  dir : Dir
  txPoll : Bool
  chanUserData : ℕ
  tre : ℕ → Tre
  userData : ℕ → UserData
  queued : ℕ
  completed : ℕ

/-- `struct gsi_xfer_compl_evt`. -/
structure Evt (ι : Type*) where
  xferPtr : ℕ
  len : ℕ
  code : ℕ
  chid : ι

/-- `struct gsi_chan_xfer_notify`. -/
structure Notify where
  chanUserData : ℕ
  xferUserData : ℕ
  evtId : ℕ
  bytesXfered : ℕ
  deriving DecidableEq

/-- `__gsi_populate_tre` up to the place it writes to. -/
def treOf (xfer : XferElem) : Option Tre :=
  let tre (reType : ReType) : Tre :=
    ⟨xfer.addr,xfer.len,reType,xfer.bei,xfer.eot,xfer.eob,xfer.chain⟩
  match xfer.type with
  | .data => some (tre .xfer)
  | .immeCmd => some (tre .immdCmd)
  | .nop => some (tre .nop)
  | .other => none

/-- `__gsi_populate_tre`. -/
def populateTre (ch : Chan) (xfer : XferElem) : Option Chan :=
  match treOf xfer with
  | none => none
  | some tre =>
    let idx := findIdxFromAddr ch.ring ch.ring.wpLocal
    some {ch with
      tre := Function.update ch.tre idx tre
      userData := Function.update ch.userData idx ⟨true,xfer.xferUserData⟩}

/-- `__gsi_query_channel_free_re` for a channel with an event ring. -/
def queryChannelFreeRe (ch : Chan) : ℕ :=
  let start := findIdxFromAddr ch.ring ch.ring.rpLocal
  let stop := findIdxFromAddr ch.ring ch.ring.wpLocal
  let used := if start ≤ stop then stop-start else ch.ring.maxNumElem+1-(start-stop)
  ch.ring.maxNumElem-used

/-- The loop of `gsi_queue_xfer`, with whether it reached the last element. -/
def populateLoop : Chan → List XferElem → Chan × Bool
  | ch, [] => (ch,true)
  | ch, xfer::xfers =>
    match populateTre ch xfer with
    | none => (ch,false)
    | some ch => populateLoop {ch with ring := incrRingWp ch.ring} xfers

/-- `gsi_ring_chan_doorbell`, with the event ring's doorbell it rings first. -/
def ringChanDoorbell (ch : Chan) (evtr : Ring) : Chan × Ring :=
  let evtr := if ch.dir = .fromGsi then {evtr with wp := evtr.wpLocal} else evtr
  ({ch with ring := {ch.ring with wp := ch.ring.wpLocal}},evtr)

/-- `gsi_queue_xfer` on an allocated GPI channel with an event ring. -/
def queueXfer (ch : Chan) (evtr : Ring) (xfers : List XferElem) (ringDb : Bool) :
    Chan × Ring × Status :=
  let doorbell := fun ch =>
    if ringDb then
      let (ch,evtr) := ringChanDoorbell ch evtr
      (ch,evtr,Status.success)
    else (ch,evtr,Status.success)
  if xfers = [] then doorbell ch
  else if queryChannelFreeRe ch < xfers.length then (ch,evtr,.ringInsufficientSpace)
  else
    let wpRollback := ch.ring.wpLocal
    let (ch,reached) := populateLoop ch xfers
    if reached then doorbell {ch with queued := (ch.queued+xfers.length)%2^64}
    else ({ch with ring := {ch.ring with wpLocal := wpRollback}},evtr,.invalidParams)

/-- Whether the processing of a channel's event takes it off the event ring: in the callback
context only where the channel is not polled. -/
def Chan.consumes (ch : Chan) (callback : Bool) : Bool :=
  !callback || (decide (ch.dir = .toGsi) && !ch.txPoll)

variable {ι : Type*} [DecidableEq ι]

/-- `gsi_process_chan` on a GPI channel. -/
def processChan (evt : Evt ι) (callback : Bool) (ch : Chan) : Chan × Notify :=
  let rp := evt.xferPtr
  let ch := if ch.ring.rpLocal ≠ rp then
      {ch with
        completed := (ch.completed+getCompleteNum ch.ring ch.ring.rpLocal rp)%2^64
        ring := {ch.ring with rpLocal := rp}}
    else ch
  -- the element at the read pointer is processed too
  let ch := if ch.consumes callback then {ch with ring := incrRingRp ch.ring} else ch
  let ch := {ch with ring := {ch.ring with rp := ch.ring.rpLocal}}
  let idx := findIdxFromAddr ch.ring rp
  let notify : Notify := ⟨ch.chanUserData,(ch.userData idx).p,evt.code,evt.len⟩
  if ch.consumes callback then
    ({ch with
      completed := (ch.completed+1)%2^64
      userData := Function.update ch.userData idx ⟨false,(ch.userData idx).p⟩},notify)
  else (ch,notify)

/-- An event the hardware has written: the channel, and which of the elements it accepted is
named, counted from the first. -/
structure Event (ι : Type*) where
  chid : ι
  no : ℕ
  deriving DecidableEq

/-- A notification given: the number of its event, and whether that event was then off the
ring. -/
structure Note (ι : Type*) where
  event : ℕ
  chid : ι
  consumed : Bool
  notify : Notify

/-- The channels, the event ring with its memory by index, and the history. -/
structure Driver (ι : Type*) where
  chan : ι → Chan
  evtr : Ring
  evtRe : ℕ → Evt ι
  evtCompleted : ℕ
  sent : ι → List XferElem
  events : List (Event ι)
  consumed : ℕ
  notes : List (Note ι)

/-- `gsi_process_evt_re`. -/
def processEvtRe (callback : Bool) (s : Driver ι) : Driver ι :=
  let evt := s.evtRe ((s.evtr.rpLocal-s.evtr.base)/s.evtr.elemSz)
  let (ch,notify) := processChan evt callback (s.chan evt.chid)
  let s := {s with
    chan := Function.update s.chan evt.chid ch
    notes := s.notes++[⟨s.consumed,evt.chid,ch.consumes callback,notify⟩]}
  if callback ∧ (ch.dir = .fromGsi ∨ ch.txPoll) then s
  else {s with
    evtr := incrRingWp (incrRingRp s.evtr)
    evtCompleted := s.evtCompleted+1
    consumed := s.consumed+1}

/-- The elements of a channel that the first events of a list cover. -/
def covered (x : ι) (evs : List (Event ι)) : ℕ :=
  evs.foldl (fun n ev => if ev.chid = x then ev.no+1 else n) 0

/-- Where the hardware will write its next event. -/
def hwEventRp (s : Driver ι) : ℕ := s.evtr.addr (s.events.length%s.evtr.size)

/-- The read of the event ring's read pointer, in the interrupt handler and in a poll. -/
def updateRp (s : Driver ι) : Driver ι :=
  {s with evtr := {s.evtr with rp := readRp s.evtr (hwEventRp s)}}

/-- One round of the loop of the interrupt handler over the event ring. -/
def callbackRound (s : Driver ι) : Driver ι :=
  if s.evtr.rpLocal ≠ s.evtr.rp then processEvtRe true s else s

/-- `gsi_ring_evt_doorbell`. -/
def ringEvtDoorbell (s : Driver ι) : Driver ι := {s with evtr := {s.evtr with wp := s.evtr.wpLocal}}

/-- `gsi_poll_n_channel` on a channel with an event ring. A second read after an empty first
one sees the same hardware state. -/
def pollNChannel (expectedNum : ℕ) (s : Driver ι) : Driver ι × ℕ × Status :=
  if expectedNum = 0 then (s,0,.invalidParams)
  else
    let s := if s.evtr.rp = s.evtr.rpLocal then updateRp s else s
    if s.evtr.rp = s.evtr.rpLocal then (s,0,.pollEmpty)
    else
      let actualNum := min (getCompleteNum s.evtr s.evtr.rpLocal s.evtr.rp) expectedNum
      ((processEvtRe false)^[actualNum] s,actualNum,.success)

/-- The hardware completes the next `k` elements of a channel and writes one event, which
names the last of them. -/
def hwComplete (x : ι) (k len code : ℕ) (s : Driver ι) : Driver ι :=
  let no := covered x s.events+k-1
  let r := (s.chan x).ring
  {s with
    evtRe := Function.update s.evtRe (s.events.length%s.evtr.size)
      ⟨r.addr (no%r.size),len,code,x⟩
    events := s.events++[⟨x,no⟩]}

/-- The steps of driver and hardware. -/
inductive Op (ι : Type*)
  | queueXfer (x : ι) (xfers : List XferElem) (ringDb : Bool)
  | hwComplete (x : ι) (k len code : ℕ)
  | updateRp
  | callbackRound
  | ringEvtDoorbell
  | pollNChannel (expectedNum : ℕ)

def step (s : Driver ι) : Op ι → Driver ι
  | .queueXfer x xfers ringDb =>
    let (ch,evtr,status) := queueXfer (s.chan x) s.evtr xfers ringDb
    {s with
      chan := Function.update s.chan x ch
      evtr := evtr
      sent := if status = .success then Function.update s.sent x (s.sent x++xfers) else s.sent}
  | .hwComplete x k len code => hwComplete x k len code s
  | .updateRp => updateRp s
  | .callbackRound => callbackRound s
  | .ringEvtDoorbell => ringEvtDoorbell s
  | .pollNChannel expectedNum => (pollNChannel expectedNum s).1

/-- What the hardware does: it completes elements that were queued, at least one an event, and
never overruns the event ring. -/
def HwLegal (s : Driver ι) : Op ι → Prop
  | .hwComplete x k _ _ =>
    1 ≤ k ∧ covered x s.events+k ≤ (s.sent x).length ∧
      s.events.length-s.consumed < s.evtr.maxNumElem
  | _ => True

instance (s : Driver ι) : ∀ op, Decidable (HwLegal s op)
  | .hwComplete _ _ _ _ => inferInstanceAs (Decidable (_ ∧ _ ∧ _))
  | .queueXfer _ _ _ | .updateRp | .callbackRound | .ringEvtDoorbell | .pollNChannel _ =>
    isTrue trivial

/-- The properties of a channel that its allocation reads. -/
structure ChanProps where
  ringBaseAddr : ℕ
  ringLen : ℕ
  reSize : ℕ
  dir : Dir
  txPoll : Bool
  chanUserData : ℕ

/-- A channel as `gsi_alloc_channel` leaves it. -/
def ChanProps.alloc (props : ChanProps) : Chan where
  ring := initRing props.ringBaseAddr props.ringLen props.reSize
  dir := props.dir
  txPoll := props.txPoll
  chanUserData := props.chanUserData
  tre _ := ⟨0,0,.none,false,false,false,false⟩
  userData _ := ⟨false,0⟩
  queued := 0
  completed := 0

/-- The event ring as `gsi_alloc_evt_ring` initialises and primes it. -/
def allocEvtRing (ringBaseAddr ringLen reSize : ℕ) : Ring :=
  let r := initRing ringBaseAddr ringLen reSize
  let wpLocal := r.base+r.maxNumElem*r.elemSz
  {r with wpLocal := wpLocal, wp := wpLocal}

/-- Channels and event ring after allocation, nothing queued yet. -/
def allocated (props : ι → ChanProps) (evtBase evtLen evtSize : ℕ) (evt : Evt ι) : Driver ι where
  chan x := (props x).alloc
  evtr := allocEvtRing evtBase evtLen evtSize
  evtRe _ := evt
  evtCompleted := 0
  sent _ := []
  events := []
  consumed := 0
  notes := []

end Gsi
end MarbleModules
