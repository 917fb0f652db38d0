import Mathlib.Algebra.Group.Int.Defs
import Mathlib.Algebra.Group.Nat.Defs
import Mathlib.Data.List.Basic
import Mathlib.Data.Int.Order.Basic

/-! The reject list of the blacklist manager: what expires, what an access point's lists mean for
the candidate selection, and how a full list makes room. The clock is read once for each time the
list lock is held. -/
namespace MarbleModules
namespace Blm

def MAX_BAD_AP_LIST_SIZE : ℕ := 28
def PDEV_MAX_NUM_BSSID_DISALLOW_LIST : ℕ := 28
/-- In minutes. -/
def RSSI_TIMEOUT_VALUE : ℕ := 60
/-- In milliseconds. -/
def MAX_BL_TIME : ℕ := 255000

/-- `enum blm_reject_ap_type` without `REJECT_REASON_UNKNOWN`. -/
inductive RejectType
  | USERSPACE_AVOID
  | USERSPACE_BLACKLIST
  | DRIVER_AVOID
  | DRIVER_BLACKLIST
  | DRIVER_RSSI_REJECT
  | DRIVER_MONITOR
deriving DecidableEq

/-- The types, in the order in which a full list gives up entries. -/
def RejectType.order : List RejectType :=
  [.DRIVER_MONITOR,.DRIVER_AVOID,.USERSPACE_AVOID,.DRIVER_RSSI_REJECT,.DRIVER_BLACKLIST,
    .USERSPACE_BLACKLIST]

/-- `enum cm_blacklist_action` -/
inductive Action
  | NO_ACTION
  | REMOVE
  | FORCE_REMOVE
  | AVOID
deriving DecidableEq

inductive Status
  | SUCCESS
  | E_INVAL
  | E_FAILURE
deriving DecidableEq

/-- `struct blm_config`, the times in minutes and the reset time in seconds. -/
structure Config where
  avoidListExpiryTime : ℕ
  blackListExpiryTime : ℕ
  badBssidCounterResetTime : ℕ
  badBssidCounterThresh : ℕ

/-- The fields of `struct blm_rssi_disallow_params` that decide. -/
structure RssiParams where
  retryDelay : ℕ
  expectedRssi : ℤ
  originalTimeout : ℕ
deriving DecidableEq

/-- `struct blm_reject_ap`: a bit and a time stamp for each list. -/
structure RejectAp where
  bssid : ℕ
  rssiParams : RssiParams
  badBssidCounter : ℕ
  inList : RejectType → Bool
  stamp : RejectType → ℕ
  connectTimestamp : ℕ

/-- `struct reject_ap_info` -/
structure RejectApInfo where
  bssid : ℕ
  rssiParams : RssiParams
  type : RejectType

/-- `SECONDS_TO_MS` of an unsigned long. -/
def secondsToMs (n : ℕ) : ℕ := n*1000 % 2^64
/-- `MINUTES_TO_MS` of an unsigned long. -/
def minutesToMs (n : ℕ) : ℕ := n*60000 % 2^64

/-- `qdf_is_macaddr_zero` -/
def isZero (bssid : ℕ) : Bool := bssid = 0
/-- `qdf_is_macaddr_group`: the low bit of the first of the six bytes. -/
def isGroup (bssid : ℕ) : Bool := bssid / 2^40 % 2 = 1

/-- `reject_ap_type`, the byte of all list bits, is not zero. -/
def RejectAp.listed (e : RejectAp) : Bool := RejectType.order.any e.inList

/-- The entry in or out of a list. -/
def RejectAp.put (e : RejectAp) (t : RejectType) (b : Bool) : RejectAp :=
  {e with inList := Function.update e.inList t b}

/-- The entry in a list from `now` on. -/
def RejectAp.enter (e : RejectAp) (t : RejectType) (now : ℕ) : RejectAp :=
  {e with inList := Function.update e.inList t true,stamp := Function.update e.stamp t now}

/-- `IS_AP_IN_…_ONLY` -/
def presentOnly (t : RejectType) (e : RejectAp) : Bool :=
  RejectType.order.all fun t' => e.inList t' == (t' == t)

section Expiry
variable (cfg : Config) (now : ℕ)

/-- How long an entry of an avoid or driver blacklist stays there. -/
def expiry : RejectType → ℕ
  | .DRIVER_BLACKLIST => minutesToMs cfg.blackListExpiryTime
  | _ => minutesToMs cfg.avoidListExpiryTime

/-- A list whose time is over hands the access point to the monitor list. -/
def toMonitor (t : RejectType) (e : RejectAp) : RejectAp :=
  if e.inList t ∧ expiry cfg t ≤ now-e.stamp t then (e.put t false).enter .DRIVER_MONITOR now else e

/-- The RSSI reject is over: the delay has passed, or the signal is strong enough again. -/
def rssiOver (rssi : Option ℤ) (e : RejectAp) : Prop :=
  (e.rssiParams.retryDelay ≠ 0 ∧ e.rssiParams.retryDelay ≤ now-e.stamp .DRIVER_RSSI_REJECT) ∨
    ∃ r,rssi = some r ∧ e.rssiParams.expectedRssi ≤ r

instance (rssi : Option ℤ) (e : RejectAp) : Decidable (rssiOver now rssi e) :=
  match rssi with
  | none => decidable_of_iff (e.rssiParams.retryDelay ≠ 0 ∧
      e.rssiParams.retryDelay ≤ now-e.stamp .DRIVER_RSSI_REJECT) (by simp [rssiOver])
  | some r => decidable_of_iff ((e.rssiParams.retryDelay ≠ 0 ∧
      e.rssiParams.retryDelay ≤ now-e.stamp .DRIVER_RSSI_REJECT) ∨ e.rssiParams.expectedRssi ≤ r)
      (by simp [rssiOver])

def leaveRssi (rssi : Option ℤ) (e : RejectAp) : RejectAp :=
  if e.inList .DRIVER_RSSI_REJECT ∧ rssiOver now rssi e then e.put .DRIVER_RSSI_REJECT false else e

/-- `blm_update_ap_info` with the signal strength of a scan entry, if there is one. -/
def updateApInfo (rssi : Option ℤ) (e : RejectAp) : RejectAp :=
  leaveRssi now rssi (toMonitor cfg now .DRIVER_BLACKLIST (toMonitor cfg now .DRIVER_AVOID
    (toMonitor cfg now .USERSPACE_AVOID e)))

/-- The action for an entry that is up to date and stays. -/
def getAction (e : RejectAp) : Action :=
  if e.inList .DRIVER_RSSI_REJECT ∧ e.inList .USERSPACE_BLACKLIST = false ∧
      e.inList .DRIVER_BLACKLIST = false ∧ MAX_BL_TIME < e.rssiParams.originalTimeout then
    if e.inList .USERSPACE_AVOID ∨ e.inList .DRIVER_AVOID then .AVOID else .NO_ACTION
  else if e.inList .USERSPACE_BLACKLIST ∨ e.inList .DRIVER_BLACKLIST ∨
      e.inList .DRIVER_RSSI_REJECT then
    if e.inList .USERSPACE_BLACKLIST ∨ e.inList .DRIVER_RSSI_REJECT then .FORCE_REMOVE else .REMOVE
  else if e.inList .USERSPACE_AVOID ∨ e.inList .DRIVER_AVOID then .AVOID
  else .NO_ACTION

/-- `blm_action_on_bssid` with `blm_prune_old_entries_and_get_action`. -/
def actionOnBssid (bssid : ℕ) (rssi : ℤ) : List RejectAp → Action × List RejectAp
  | [] => (.NO_ACTION,[])
  | e::es =>
    if e.bssid = bssid then
      let e' := updateApInfo cfg now (some rssi) e
      if e'.listed then (getAction e',e'::es) else (.NO_ACTION,es)
    else
      let r := actionOnBssid bssid rssi es
      (r.1,e::r.2)

/-- `blm_handle_avoid_list` -/
def handleAvoidList (info : RejectApInfo) (e : RejectAp) : RejectAp :=
  let e := {(e.enter info.type now).put .DRIVER_MONITOR false with
    bssid := info.bssid,badBssidCounter := (e.badBssidCounter+1) % 256}
  if cfg.badBssidCounterThresh ≤ e.badBssidCounter then
    (e.put info.type false).enter .DRIVER_BLACKLIST now
  else {e with connectTimestamp := now}

/-- `blm_handle_blacklist` -/
def handleBlacklist (info : RejectApInfo) (e : RejectAp) : RejectAp :=
  {e.enter .USERSPACE_BLACKLIST now with bssid := info.bssid}

/-- `blm_handle_rssi_reject_list` -/
def handleRssiRejectList (info : RejectApInfo) (e : RejectAp) : RejectAp :=
  {e.enter .DRIVER_RSSI_REJECT now with
    bssid := if e.inList .DRIVER_RSSI_REJECT then e.bssid else info.bssid
    rssiParams := info.rssiParams}

/-- `blm_modify_entry` -/
def modifyEntry (info : RejectApInfo) (e : RejectAp) : RejectAp :=
  match info.type with
  | .USERSPACE_AVOID | .DRIVER_AVOID => handleAvoidList cfg now info e
  | .USERSPACE_BLACKLIST => handleBlacklist now info e
  | .DRIVER_RSSI_REJECT => handleRssiRejectList now info e
  | .DRIVER_BLACKLIST | .DRIVER_MONITOR => e

/-- The difference of two unsigned longs. -/
def sub64 (a b : ℕ) : ℕ := (a+2^64-b) % 2^64

/-- An unsigned long put into an `int32_t`. -/
def toInt32 (a : ℕ) : ℤ := if a % 2^32 < 2^31 then ((a % 2^32 : ℕ) : ℤ) else ((a % 2^32 : ℕ) : ℤ)-2^32

/-- `blm_get_delta_of_bssid` -/
def getDeltaOfBssid (t : RejectType) (e : RejectAp) : ℕ :=
  match t with
  | .USERSPACE_AVOID | .DRIVER_AVOID | .DRIVER_BLACKLIST => sub64 (expiry cfg t) (now-e.stamp t)
  | .USERSPACE_BLACKLIST | .DRIVER_MONITOR => now-e.stamp t
  | .DRIVER_RSSI_REJECT =>
    (toInt32 (if e.rssiParams.retryDelay ≠ 0 then
        sub64 e.rssiParams.retryDelay (now-e.stamp t)
      else sub64 (minutesToMs RSSI_TIMEOUT_VALUE) (now-e.stamp t))).toNat

/-- `blm_is_oldest_entry` -/
def isOldestEntry (t : RejectType) (cur oldest : ℕ) : Bool :=
  match t with
  | .USERSPACE_BLACKLIST | .DRIVER_MONITOR => oldest < cur
  | _ => oldest = 0 ∨ cur < oldest

/-- The loop of `blm_try_delete_bssid_in_list`: the oldest entry and its delta. -/
def oldestInList (t : RejectType) (l : List RejectAp) : Option ℕ × ℕ :=
  (l.zipIdx).foldl (fun acc e =>
    if presentOnly t e.1 ∧ isOldestEntry t (getDeltaOfBssid cfg now t e.1) acc.2 then
      (some e.2,getDeltaOfBssid cfg now t e.1)
    else acc) (none,0)

/-- `blm_try_delete_bssid_in_list` -/
def tryDeleteBssidInList (t : RejectType) (l : List RejectAp) : Option (List RejectAp) :=
  (oldestInList cfg now t l).1.map l.eraseIdx

/-- `blm_remove_lowest_delta_entry` -/
def removeLowestDeltaEntry (l : List RejectAp) : Option (List RejectAp) :=
  RejectType.order.findSome? fun t => tryDeleteBssidInList cfg now t l

/-- `blm_fill_reject_list`: the entries of one type are reported until the report is full. -/
def fillRejectList (t : RejectType) (max : ℕ) : ℕ → List RejectAp → ℕ × List RejectAp
  | num,[] => (num,[])
  | num,e::es =>
    if num = max then (num,e::es)
    else
      let e' := updateApInfo cfg now none e
      if e'.listed then
        let r := fillRejectList t max (if e'.inList t then num+1 else num) es
        (r.1,e'::r.2)
      else fillRejectList t max num es

/-- `blm_send_reject_ap_list_to_fw`. `fw` says that the manager is not suspended and that there is
memory for the report. -/
def sendRejectApListToFw (fw : Bool) (l : List RejectAp) : List RejectAp :=
  if fw then
    ([.USERSPACE_BLACKLIST,.DRIVER_BLACKLIST,.DRIVER_RSSI_REJECT,.USERSPACE_AVOID,
      .DRIVER_AVOID].foldl (fun r t =>
        fillRejectList cfg now t PDEV_MAX_NUM_BSSID_DISALLOW_LIST r.1 r.2) (0,l)).2
  else l

/-- The loop of `blm_add_bssid_to_reject_list`: entries are brought up to date until the one of the
access point is found, which is modified. -/
def findAndModify (info : RejectApInfo) : List RejectAp → Bool × List RejectAp
  | [] => (false,[])
  | e::es =>
    let e' := updateApInfo cfg now none e
    if e'.listed then
      if e'.bssid = info.bssid then (true,modifyEntry cfg now info e'::es)
      else
        let r := findAndModify info es
        (r.1,e'::r.2)
    else findAndModify info es

/-- A fresh entry, all zero. -/
def newEntry : RejectAp := ⟨0,⟨0,0,0⟩,0,fun _ => false,fun _ => 0,0⟩

/-- Room for one more entry. -/
def makeRoom (l : List RejectAp) : Option (List RejectAp) :=
  if l.length = MAX_BAD_AP_LIST_SIZE then removeLowestDeltaEntry cfg now l else some l

/-- `blm_add_bssid_to_reject_list`; `alloc` says that the allocation of the entry succeeds. -/
def addBssidToRejectList (info : RejectApInfo) (alloc fw : Bool) (l : List RejectAp) :
    Status × List RejectAp :=
  if isZero info.bssid ∨ isGroup info.bssid then (.E_INVAL,l)
  else
    let r := findAndModify cfg now info l
    if r.1 then (.SUCCESS,sendRejectApListToFw cfg now fw r.2)
    else
      match makeRoom cfg now r.2 with
      | none => (.E_FAILURE,r.2)
      | some l =>
        if alloc = false then (.E_FAILURE,l)
        else (.SUCCESS,sendRejectApListToFw cfg now fw (l++[modifyEntry cfg now info newEntry]))

/-- `blm_clear_userspace_blacklist_info` -/
def clearUserspaceBlacklistInfo (l : List RejectAp) : List RejectAp :=
  (l.filter fun e => !presentOnly .USERSPACE_BLACKLIST e).map fun e =>
    e.put .USERSPACE_BLACKLIST false

/-- `max_entry_time` of `blm_update_bssid_connect_params`. -/
def maxEntryTime (e : RejectAp) : ℕ :=
  if e.inList .DRIVER_BLACKLIST then e.stamp .DRIVER_BLACKLIST
  else if e.inList .DRIVER_AVOID then max (e.stamp .DRIVER_AVOID) e.connectTimestamp
  else e.connectTimestamp

/-- The entry out of the lists that a good connection clears. -/
def clearLists (e : RejectAp) : RejectAp :=
  (((e.put .DRIVER_AVOID false).put .DRIVER_BLACKLIST false).put .DRIVER_MONITOR false).put
    .USERSPACE_AVOID false

/-- The branch `BLM_AP_DISCONNECTED` of `blm_update_bssid_connect_params` for one entry: the entry
to keep, if any. -/
def disconnectEntry (e : RejectAp) : Option RejectAp :=
  let e := updateApInfo cfg now none e
  if secondsToMs cfg.badBssidCounterResetTime < now-maxEntryTime e then
    if (clearLists e).listed then some (clearLists e) else none
  else some e

/-- `blm_update_bssid_connect_params` for `BLM_AP_CONNECTED`. -/
def connected (bssid : ℕ) : List RejectAp → List RejectAp
  | [] => []
  | e::es =>
    if e.bssid = bssid then {e with connectTimestamp := now}::es else e::connected bssid es

/-- `blm_update_bssid_connect_params` for `BLM_AP_DISCONNECTED`; `before` are the entries that the
search has passed. -/
def disconnected (bssid : ℕ) (fw : Bool) (before : List RejectAp) :
    List RejectAp → List RejectAp
  | [] => before
  | e::es =>
    if e.bssid = bssid then
      match disconnectEntry cfg now e with
      | some e' => before++e'::es
      | none => sendRejectApListToFw cfg now fw (before++es)
    else disconnected bssid fw (before++[e]) es

end Expiry
end Blm
end MarbleModules
