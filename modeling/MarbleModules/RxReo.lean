import Mathlib.Algebra.BigOperators.Group.Finset.Basic
import MarbleModules.Runs

/-! The reorder list of management frames received on several links: frames enter it sorted by
global time stamp, wait for frames of other links, age and are released from its front. -/
namespace MarbleModules
namespace RxReo

/-- `MGMT_RX_REO_MAX_LINKS` -/
def maxLinks : ℕ := 16

/-- `struct mgmt_rx_reo_wait_count` -/
structure WaitCount where
  perLinkCount : ℕ → ℕ
  totalCount : ℕ

/-- The 32-bit global time stamp of a time -/
def globalTs (time : ℕ) : ℕ := time % 2^32

/-- `mgmt_rx_reo_compare_global_timestamps_gte` -/
def compareGlobalTimestampsGte (ts1 ts2 : ℕ) : Bool :=
  decide ((ts1+2^32-ts2) % 2^32 ≤ 2^31)

/-- `enum mgmt_rx_reo_frame_descriptor_type` -/
inductive FrameType
  | hostConsumed | fwConsumed | error
  deriving DecidableEq

/-- `struct mgmt_rx_reo_frame_descriptor` with the parameters of its frame. The code sees the
time through its 32-bit stamp and the counter through 16 bits only. -/
structure FrameDesc where
  frameType : FrameType
  link : ℕ
  pktCtr : ℕ
  time : ℕ
  waitCount : WaitCount

/-- `struct mgmt_rx_reo_list_entry`; the last four fields are the bits of its status. -/
structure Entry where
  link : ℕ
  pktCtr : ℕ
  time : ℕ
  waitCount : WaitCount
  insertionTs : ℕ
  waitForFrame : Bool
  agedOut : Bool
  olderThanAgedOut : Bool
  maxSizeExceeded : Bool

/-- `struct mgmt_rx_reo_list`. `delivered` is the history of the frames handed to the upper layer;
after a failed `qdf_assert_always` nothing runs any more. -/
structure State where
  list : List Entry
  tsLastReleased : Option ℕ
  delivered : List Entry
  asserted : Bool

structure Cfg where
  numLinks : ℕ
  maxListSize : ℕ
  timeoutUs : ℕ
  numLinks_le : numLinks ≤ maxLinks

/-- Subtraction in an `unsigned long long` -/
def sub64 (a b : ℕ) : ℕ := (a+2^64-b) % 2^64

/-- The body of the loop of `mgmt_rx_reo_update_wait_count` -/
def updateLink (new old : WaitCount) (link : ℕ) : WaitCount :=
  if old.perLinkCount link = 0 then old
  else
    let count := min (old.perLinkCount link) (new.perLinkCount link)
    ⟨Function.update old.perLinkCount link count,
      sub64 old.totalCount (old.perLinkCount link-count)⟩

/-- `mgmt_rx_reo_update_wait_count` -/
def updateWaitCount (new old : WaitCount) : ℕ → WaitCount
  | 0 => old
  | link+1 => updateLink new (updateWaitCount new old link) link

/-- An entry's wait count is lowered to that of a later frame. -/
def lower (cfg : Cfg) (new : WaitCount) (e : Entry) : Entry :=
  let w := updateWaitCount new e.waitCount cfg.numLinks
  { e with waitCount := w, waitForFrame := e.waitForFrame && decide (w.totalCount ≠ 0) }

/-- A frame of the link has been received: a later entry need not wait for it any more. -/
def pass (link : ℕ) (e : Entry) : Entry :=
  if e.waitCount.perLinkCount link = 0 then e
  else
    let w : WaitCount := ⟨Function.update e.waitCount.perLinkCount link
      (e.waitCount.perLinkCount link-1),sub64 e.waitCount.totalCount 1⟩
    { e with waitCount := w, waitForFrame := e.waitForFrame && decide (w.totalCount ≠ 0) }

/-- The first loop of `mgmt_rx_reo_update_list`: the entries that are not later than the frame,
with lower wait counts, and the list from the least greater entry on -/
def lowerOlder (cfg : Cfg) (d : FrameDesc) : List Entry → List Entry × List Entry
  | [] => ([],[])
  | e::es =>
    if compareGlobalTimestampsGte (globalTs d.time) (globalTs e.time) = false then ([],e::es)
    else
      let r := lowerOlder cfg d es
      (lower cfg d.waitCount e::r.1,r.2)

/-- `mgmt_rx_reo_is_stale_frame` -/
def isStaleFrame (last : Option ℕ) (time : ℕ) : Bool :=
  match last with
  | none => false
  | some t => !compareGlobalTimestampsGte (globalTs time) (globalTs t)

/-- `mgmt_rx_reo_prepare_list_entry` -/
def prepareListEntry (d : FrameDesc) (now : ℕ) : Entry where
  link := d.link
  pktCtr := d.pktCtr
  time := d.time
  waitCount := d.waitCount
  insertionTs := now
  waitForFrame := decide (d.waitCount.totalCount ≠ 0)
  agedOut := false
  olderThanAgedOut := false
  maxSizeExceeded := false

/-- The entry of the frame, lowered to the least greater entry -/
def newEntry (cfg : Cfg) (d : FrameDesc) (now : ℕ) : List Entry → Entry
  | [] => prepareListEntry d now
  | g::_ => lower cfg g.waitCount (prepareListEntry d now)

/-- `mgmt_rx_reo_update_list`; without a greater entry the frame goes to the tail. Nothing
happens when its entry cannot be prepared. -/
def updateList (cfg : Cfg) (s : State) (d : FrameDesc) (prepared : Bool) (now : ℕ) : State :=
  if d.frameType = .hostConsumed ∧ prepared = false then s
  else
    let r := lowerOlder cfg d s.list
    let new := if d.frameType = .hostConsumed ∧ isStaleFrame s.tsLastReleased d.time = false then
      [newEntry cfg d now r.2] else []
    { s with list := r.1 ++ (new ++ r.2.map (pass d.link)) }

/-- `mgmt_rx_reo_list_max_size_exceeded` -/
def listMaxSizeExceeded (cfg : Cfg) (s : State) : Bool := decide (cfg.maxListSize < s.list.length)

/-- `mgmt_rx_reo_list_is_ready_to_send_up_entry` -/
def isReadyToSendUp (cfg : Cfg) (s : State) (e : Entry) : Bool :=
  listMaxSizeExceeded cfg s || !e.waitForFrame || e.agedOut || e.olderThanAgedOut

/-- `mgmt_rx_reo_list_entry_get_release_reason` -/
def releaseReason (e : Entry) : ℕ :=
  (if e.maxSizeExceeded then 8 else 0)+(if e.waitForFrame then 0 else 1)+
    (if e.agedOut then 2 else 0)+(if e.olderThanAgedOut then 4 else 0)

/-- How a pass of the loop of `mgmt_rx_reo_list_release_entries` ends: the loop goes on after a
delivery, and stops at an empty list, at an entry that is not ready, or when the delivery
fails. -/
inductive Pass
  | released | empty | notReady | failed | asserted
  deriving DecidableEq

/-- One pass of the loop of `mgmt_rx_reo_list_release_entries` -/
def releasePass (cfg : Cfg) (s : State) (sent : Bool) : State × Pass :=
  match s.list with
  | [] => (s,.empty)
  | e::es =>
    if isReadyToSendUp cfg s e = false then (s,.notReady)
    else
      let e := { e with maxSizeExceeded := e.maxSizeExceeded || listMaxSizeExceeded cfg s }
      if isStaleFrame s.tsLastReleased e.time then
        ({ s with list := es, asserted := true },.asserted)
      else if releaseReason e = 0 then
        ({ s with list := es, tsLastReleased := some e.time, asserted := true },.asserted)
      else
        ({ s with list := es, tsLastReleased := some e.time, delivered := s.delivered ++ [e] },
          if sent then .released else .failed)

/-- The entry has been in the list for the time out. -/
def isTimedOut (cfg : Cfg) (curTs : ℕ) (e : Entry) : Bool :=
  decide (cfg.timeoutUs ≤ sub64 curTs e.insertionTs)

/-- The marks of `mgmt_rx_reo_list_ageout_timer_handler`: whether an entry before this one is
older than an aged out frame is decided from behind. -/
def markAgedOut (cfg : Cfg) (curTs : ℕ) : List Entry → List Entry
  | [] => []
  | e::es =>
    { e with
      agedOut := e.agedOut || isTimedOut cfg curTs e
      olderThanAgedOut := e.olderThanAgedOut || es.any (isTimedOut cfg curTs) }::
      markAgedOut cfg curTs es

/-- What works on the list under its lock -/
inductive Op
  | update (d : FrameDesc) (prepared : Bool) (now : ℕ)
  | ageout (curTs : ℕ)
  | release (sent : Bool)

def step (cfg : Cfg) (s : State) (op : Op) : State :=
  if s.asserted then s
  else
    match op with
    | .update d prepared now => updateList cfg s d prepared now
    | .ageout curTs => { s with list := markAgedOut cfg curTs s.list }
    | .release sent => (releasePass cfg s sent).1

def initial : State := ⟨[],none,[],false⟩

end RxReo
end MarbleModules
