import MarbleModules.RmnetDeaggregate
import MarbleModules.Runs
import Mathlib.Data.Nat.Log

/-! Uplink aggregation: frames are copied one behind the other into a buffer, which is sent when
the next frame does not fit, when it holds enough frames or is old, and by a timer. A step is what
one sender, the timer or the work does between two points at which another can come in. -/
namespace MarbleModules
namespace RmnetAgg

open Rmnet (hasFlags)

/-- `RMNET_EGRESS_FORMAT_AGGREGATION` -/
def egressFormatAggregation : BitVec 32 := 1 <<< 31
/-- `RMNET_EGRESS_FORMAT_PRIORITY` -/
def egressFormatPriority : BitVec 32 := 1 <<< 28
/-- `RMNET_FLAGS_EGRESS_MAP_CKSUMV4` -/
def flagsEgressMapCksumv4 : BitVec 32 := 1 <<< 3
/-- `RMNET_PRIV_FLAGS_EGRESS_MAP_CKSUMV5` -/
def privFlagsEgressMapCksumv5 : BitVec 32 := 1 <<< 6

/-- `PAGE_SIZE` -/
def pageSize : ℕ := 4096
/-- `SKB_DATA_ALIGN(sizeof(struct skb_shared_info))` -/
def sharedInfoSize : ℕ := 320
/-- `rmnet_agg_time_limit`, in nanoseconds -/
def aggTimeLimit : ℤ := 1000000
/-- `rmnet_agg_bypass_time` -/
def aggBypassTime : ℤ := 10000000
def nsecPerSec : ℤ := 1000000000

/-- An skb with its QMAP header, and who sends it. `prio` is what `RMNET_LLM` and
`RMNET_APS_LLB` find in its priority; `nr` counts the frames that have come in. -/
structure Frame where
  sender : ℕ
  nr : ℕ
  protocol : ℕ
  prio : Bool
  tso : Bool
  bytes : List UInt8
  deriving DecidableEq

def Frame.len (f : Frame) : ℕ := f.bytes.length

/-- `rmnet_map_tx_agg_skip`: ICMP is not aggregated. -/
def txAggSkip (f : Frame) (offset : ℕ) : Bool :=
  let byte := fun k => (f.bytes.getD (offset+k) 0).toNat
  if f.protocol = 0x0800 then byte 9 = 1
  else if f.protocol = 0x86DD then byte 6 = 58 ∨ (byte 6 = 44 ∧ byte 40 = 58)
  else false

/-- `agg_skb`, and the size of its buffer without the shared info -/
structure AggSkb where
  frames : List Frame
  size : ℕ

def bytesOf (frames : List Frame) : List UInt8 := frames.flatMap Frame.bytes

def AggSkb.tailroom (skb : AggSkb) : ℕ := skb.size-(bytesOf skb.frames).length

/-- Where a sender is: at `new_packet`, in front of the lock under which it sends the buffer,
behind that lock and in front of `hrtimer_cancel`, or about to send its own frame. -/
inductive Place
  | idle
  | enters (f : Frame)
  | flushes (f : Frame)
  | cancels (f : Frame) (newPacket : Bool)
  | sends (f : Frame)
  deriving DecidableEq

/-- The frame a sender has in hand -/
def Place.held : Place → Option Frame
  | .idle => none
  | .enters f => some f
  | .flushes f => some f
  | .cancels f _ => some f
  | .sends f => some f

/-- `struct rmnet_aggregation_state` with the data format of its port. `hrtimer` and `aggWq` are
whether the timer is started and the work queued, `working` is whether the work has begun and
waits for the lock. `sent` is what `send_agg_skb` has been given, `submitted` what has come in. -/
structure AggregationState where
  dataFormat : BitVec 32
  paramsSize : ℕ
  paramsCount : ℕ
  aggSizeOrder : ℕ
  aggTime : ℤ
  aggLast : ℤ
  hrtimer : Bool
  aggWq : Bool
  working : Bool
  aggSkb : Option AggSkb
  inProgress : Bool
  aggCount : ℕ
  place : ℕ → Place
  sent : List (List Frame)
  submitted : List Frame
  overPanic : Bool

/-- `diff.tv_sec > 0 || diff.tv_nsec > limit`, of a difference in nanoseconds -/
def longer (diff limit : ℤ) : Bool := 0 < diff/nsecPerSec ∨ limit < diff%nsecPerSec

/-- The size of the buffer that `rmnet_map_build_skb` makes -/
def buildSize (order : ℕ) : ℕ := pageSize*2^order-sharedInfoSize

/-- `get_order` -/
def getOrder (size : ℕ) : ℕ := Nat.clog 2 ((size+pageSize-1)/pageSize)

namespace AggregationState

variable (w : AggregationState)

/-- The frames in the buffer -/
def buffer : List Frame := (w.aggSkb.map AggSkb.frames).getD []

def move (s : ℕ) (p : Place) : AggregationState := { w with place := Function.update w.place s p }

def send (frames : List Frame) : AggregationState := { w with sent := w.sent++[frames] }

/-- What `rmnet_map_send_agg_skb` and the work do with the buffer, under the lock -/
def sendAggSkb : AggregationState :=
  match w.aggSkb with
  | none => w
  | some skb =>
    { w with aggSkb := none, aggCount := 0, aggTime := 0, inProgress := false }.send skb.frames

/-- A sender sends the buffer first; without one there is no timer to cancel. -/
def flushFirst (f : Frame) : AggregationState :=
  w.sendAggSkb.move f.sender (if w.aggSkb.isSome then .cancels f false else .sends f)

/-- The lines behind `schedule` -/
def schedule : AggregationState :=
  if w.inProgress then w else { w with inProgress := true, hrtimer := true }

/-- `rmnet_map_linearize_copy` into a buffer, which panics in front of the end of the buffer -/
def copyInto (skb : AggSkb) (f : Frame) (count : ℕ) (time : ℤ) : AggregationState :=
  { w with
    aggSkb := some { skb with frames := skb.frames++[f] }
    aggCount := count
    aggTime := time
    overPanic := w.overPanic || decide (skb.tailroom < f.len) }

/-- A frame comes to no buffer. `built` is whether `rmnet_map_build_skb` finds memory. -/
def aggregateFirst (f : Frame) (diff now : ℤ) (built : Bool) : AggregationState :=
  if longer diff aggBypassTime ∨ w.paramsSize ≤ f.len then w.send [f]
  else if built then (w.copyInto ⟨[],buildSize w.aggSizeOrder⟩ f 1 now).schedule
  else { w with aggCount := 0, aggTime := 0 }.send [f]

/-- A frame comes to a buffer. -/
def aggregateNext (skb : AggSkb) (f : Frame) (now : ℤ) : AggregationState :=
  if skb.tailroom < f.len ∨ w.paramsCount ≤ w.aggCount ∨ longer (now-w.aggTime) aggTimeLimit then
    w.sendAggSkb.move f.sender (.cancels f true)
  else ((w.copyInto skb f ((w.aggCount+1)%2^8) w.aggTime).schedule).move f.sender .idle

def stamp (now : ℤ) : AggregationState := { w with aggLast := now }

/-- `rmnet_map_tx_aggregate` from `new_packet` to the end of its lock -/
def txAggregate (f : Frame) (now : ℤ) (built : Bool) : AggregationState :=
  if hasFlags w.dataFormat egressFormatPriority ∧ f.prio then (w.stamp now).flushFirst f
  else match w.aggSkb with
    | none => ((w.stamp now).aggregateFirst f (now-w.aggLast) now built).move f.sender .idle
    | some skb => (w.stamp now).aggregateNext skb f now

/-- The next section of a sender -/
def turn (s : ℕ) (now : ℤ) (built : Bool) : AggregationState :=
  match w.place s with
  | .idle => w
  | .enters f => w.txAggregate f now built
  | .flushes f => w.flushFirst f
  | .cancels f newPacket =>
    { w with hrtimer := false }.move s (if newPacket then .enters f else .sends f)
  | .sends f => (w.send [f]).move s .idle

/-- `required_headroom` -/
def requiredHeadroom : ℕ :=
  if hasFlags w.dataFormat (flagsEgressMapCksumv4 ||| privFlagsEgressMapCksumv5 |||
    egressFormatPriority) then 8 else 4

/-- What `rmnet_map_egress_handler` decides about a frame. -/
def egressPlace (f : Frame) : Place :=
  if f.tso then .flushes f
  else if hasFlags w.dataFormat egressFormatAggregation ∧ 2 ≤ w.paramsCount ∧
    ¬txAggSkip f w.requiredHeadroom then .enters f
  else .sends f

/-- What `rmnet_map_tx_qmap_cmd` decides -/
def qmapCmdPlace (f : Frame) (flush : Bool) : Place :=
  if flush ∧ hasFlags w.dataFormat egressFormatAggregation then .flushes f else .sends f

/-- A frame comes in, unless its sender is still busy with the one before. -/
def submit (f : Frame) (place : Frame → Place) : AggregationState :=
  if w.place f.sender = .idle then
    let f := { f with nr := w.submitted.length }
    { w with submitted := w.submitted++[f] }.move f.sender (place f)
  else w

/-- `rmnet_map_flush_tx_packet_queue` -/
def timerFires : AggregationState :=
  if w.hrtimer then { w with hrtimer := false, aggWq := true } else w

def workStart : AggregationState :=
  if w.aggWq ∧ ¬w.working then { w with aggWq := false, working := true } else w

/-- `rmnet_map_flush_tx_packet_work` -/
def workFlush : AggregationState :=
  if w.working then
    let w := { w with working := false }
    if w.inProgress then { w.sendAggSkb with inProgress := false } else w
  else w

/-- `rmnet_map_update_ul_agg_config`; the size is put back into a `u16` before the shared info is
taken off. -/
def updateUlAggConfig (size : UInt16) (count : UInt8) : AggregationState :=
  if size.toNat < pageSize then { w with paramsSize := size.toNat, paramsCount := count.toNat }
  else
    { w with
      aggSizeOrder := getOrder size.toNat
      paramsSize := (pageSize*2^getOrder size.toNat%2^16+2^16-sharedInfoSize)%2^16
      paramsCount := count.toNat }

end AggregationState

inductive Op
  | egress (f : Frame)
  | qmapCmd (f : Frame) (flush : Bool)
  | turn (s : ℕ) (now : ℤ) (built : Bool)
  | timerFires
  | workStart
  | workFlush
  | config (size : UInt16) (count : UInt8)

def step (w : AggregationState) : Op → AggregationState
  | .egress f => w.submit f w.egressPlace
  | .qmapCmd f flush => w.submit f fun f => w.qmapCmdPlace f flush
  | .turn s now built => w.turn s now built
  | .timerFires => w.timerFires
  | .workStart => w.workStart
  | .workFlush => w.workFlush
  | .config size count => w.updateUlAggConfig size count

/-- `rmnet_map_tx_aggregate_init` -/
def txAggregateInit (dataFormat : BitVec 32) : AggregationState :=
  AggregationState.updateUlAggConfig
    ⟨dataFormat,0,0,0,0,0,false,false,false,none,false,0,fun _ => .idle,[],[],false⟩ 4095 20

end RmnetAgg
end MarbleModules
