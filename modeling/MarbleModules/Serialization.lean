import Mathlib.Data.Finset.Card
import MarbleModules.Stacks

/-! The command serialization of one pdev: its scan or its non-scan queue, with the requests,
removals, timeouts and cancels that work on it concurrently. Every region under the queue's
lock is one transition; callbacks run between them. -/
namespace MarbleModules
namespace Serialization

/-- Which of the pdev's two queues: scan commands come before `WLAN_SER_CMD_NONSCAN`. -/
inductive Kind
  | scan | nonScan
  deriving DecidableEq

/-- `struct wlan_serialization_command`. `uid` is a history variable: the number of the
request. -/
structure Command where
  cmdType : ℕ
  cmdId : ℕ
  vdev : ℕ
  isHighPriority : Bool
  isBlocking : Bool
  queueDisable : Bool
  uid : ℕ
  deriving DecidableEq

/-- What commands are looked up by -/
structure Key where
  cmdType : ℕ
  cmdId : ℕ
  vdev : ℕ
  deriving DecidableEq

def Command.key (c : Command) : Key := ⟨c.cmdType,c.cmdId,c.vdev⟩

/-- `struct wlan_serialization_command_list`: a zeroed node holds no command; the flags are
the bits of `cmd_in_use`. -/
structure CommandList where
  cmd : Option Command
  markedForActivation : Bool
  isActive : Bool
  activeMarkedForCancel : Bool
  activeMarkedForRemoval : Bool
  markedForMovement : Bool
  deriving DecidableEq

def CommandList.zero : CommandList := ⟨none,false,false,false,false,false⟩

/-- The sizes the queue is created with. The object manager attaches no more vdevs to a pdev
than its active list has room for; sizes are kept in eight bits. -/
structure Cfg where
  kind : Kind
  maxActive : ℕ
  maxPending : ℕ
  vdevMaxActive : ℕ
  vdevMaxPending : ℕ → ℕ
  poolSize : ℕ
  maxActiveScans : ℕ
  vdevs : Finset ℕ
  vdevMaxActive_pos : 0 < vdevMaxActive
  vdevs_card : vdevs.card ≤ maxActive
  maxPending_lt : maxPending < 256

/-- The psoc allows no more active scans than the active list has room for. -/
def Cfg.Bounded (cfg : Cfg) : Prop := cfg.kind = .scan → cfg.maxActiveScans ≤ cfg.maxActive

instance decidableBounded (cfg : Cfg) : Decidable cfg.Bounded :=
  inferInstanceAs (Decidable (cfg.kind = .scan → cfg.maxActiveScans ≤ cfg.maxActive))

theorem Cfg.bounded_nonScan {cfg : Cfg} (hk : cfg.kind = .nonScan) : cfg.Bounded := fun hh => by
  rw [hk] at hh
  cases hh

/-- `struct wlan_serialization_pdev_queue` with the `wlan_serialization_vdev_queue` of every
vdev; list entries are nodes. -/
structure Queue where
  nodes : ℕ → CommandList
  active : List ℕ
  pending : List ℕ
  pool : List ℕ
  vdevActive : ℕ → List ℕ
  vdevPending : ℕ → List ℕ
  queueDisable : ℕ → Bool
  bitmap : Finset ℕ
  blockingCmdActive : Bool
  blockingCmdWaiting : ℕ

namespace Queue

def setNode (q : Queue) (n : ℕ) (x : CommandList) : Queue :=
  { q with nodes := Function.update q.nodes n x }

/-- `wlan_serialization_get_list_from_pdev_queue` -/
def pdevList (q : Queue) (active : Bool) : List ℕ := if active then q.active else q.pending

def setPdevList (q : Queue) (active : Bool) (l : List ℕ) : Queue :=
  if active then { q with active := l } else { q with pending := l }

/-- `wlan_serialization_get_list_from_vdev_queue` -/
def vdevList (q : Queue) (active : Bool) (v : ℕ) : List ℕ :=
  if active then q.vdevActive v else q.vdevPending v

def setVdevList (q : Queue) (active : Bool) (v : ℕ) (l : List ℕ) : Queue :=
  if active then { q with vdevActive := Function.update q.vdevActive v l }
  else { q with vdevPending := Function.update q.vdevPending v l }

end Queue

def isBlocking (q : Queue) (n : ℕ) : Bool :=
  match (q.nodes n).cmd with
  | none => false
  | some c => c.isBlocking

/-- The vdev of the command in the node has an active command. -/
def vdevCmdActive (q : Queue) (n : ℕ) : Bool :=
  match (q.nodes n).cmd with
  | none => false
  | some c => decide (c.vdev ∈ q.bitmap)

/-- `wlan_serialization_find_cmd` with `WLAN_SER_MATCH_CMD_ID_VDEV` -/
def findCmd (q : Queue) (l : List ℕ) (k : Key) : Option ℕ :=
  l.find? fun n => (q.nodes n).cmd.map Command.key = some k

/-- `wlan_serialization_any_vdev_cmd_active` -/
def anyVdevCmdActive (q : Queue) : Bool := !decide (q.bitmap = ∅)

/-- `wlan_serialization_is_active_non_scan_cmd_allowed`, which counts the blocking command it
does not allow. The count is read into eight bits. -/
def isActiveNonScanCmdAllowed (q : Queue) (c : Command) : Queue × Bool :=
  if c.isBlocking then
    if anyVdevCmdActive q then
      ({ q with blockingCmdWaiting := (q.blockingCmdWaiting+1) % 2^16 },false)
    else (q,true)
  else if q.blockingCmdActive || decide (q.blockingCmdWaiting % 2^8 ≠ 0) then (q,false)
  else (q,!decide (c.vdev ∈ q.bitmap))

/-- `wlan_serialization_is_active_scan_cmd_allowed`; `others` scans are active on the other
pdevs. -/
def isActiveScanCmdAllowed (cfg : Cfg) (others : ℕ) (q : Queue) : Bool :=
  decide (others + q.active.length < cfg.maxActiveScans)

/-- `wlan_serialization_is_active_cmd_allowed` -/
def isActiveCmdAllowed (cfg : Cfg) (others : ℕ) (q : Queue) (c : Command) : Queue × Bool :=
  match cfg.kind with
  | .scan => (q,isActiveScanCmdAllowed cfg others q && q.pending.isEmpty)
  | .nonScan =>
    let r := isActiveNonScanCmdAllowed q c
    (r.1,r.2 && (r.1.vdevPending c.vdev).isEmpty)

/-- `wlan_serialization_is_cmd_present_queue` -/
def isCmdPresentQueue (cfg : Cfg) (q : Queue) (k : Key) (active : Bool) : Bool :=
  match cfg.kind with
  | .scan => (findCmd q (q.pdevList active) k).isSome
  | .nonScan => (findCmd q (q.vdevList active k.vdev) k).isSome

/-- `wlan_serialization_add_cmd_to_queue`; a full list takes nothing. -/
def addCmdToQueue (l : List ℕ) (max n : ℕ) (high : Bool) : Option (List ℕ) :=
  if l.length = max then none else some (if high then n::l else l ++ [n])

/-- `wlan_ser_add_scan_cmd` -/
def addScanCmd (cfg : Cfg) (q : Queue) (n : ℕ) (c : Command) (active : Bool) :
    Queue × Bool :=
  match addCmdToQueue (q.pdevList active) (if active then cfg.maxActive else cfg.maxPending) n
      c.isHighPriority with
  | none => (q,false)
  | some l => (q.setPdevList active l,true)

/-- `wlan_serialization_add_cmd_to_vdev_queue` disables the queue even when it is full. -/
def addCmdToVdevQueue (cfg : Cfg) (q : Queue) (n : ℕ) (c : Command) (active : Bool) :
    Queue × Bool :=
  let q' := if c.queueDisable then
    { q with queueDisable := Function.update q.queueDisable c.vdev true } else q
  match addCmdToQueue (q.vdevList active c.vdev)
      (if active then cfg.vdevMaxActive else cfg.vdevMaxPending c.vdev) n c.isHighPriority with
  | none => (q',false)
  | some l => (q'.setVdevList active c.vdev l,true)

/-- The status of `wlan_serialization_remove_cmd_from_queue` -/
inductive Removal
  | success (n : ℕ) (l : List ℕ)
  | pending
  | failure

/-- `wlan_serialization_remove_cmd_from_queue`; a command that is being activated is only
marked. -/
def removeCmdFromQueue (q : Queue) (l : List ℕ) (k : Key) : Queue × Removal :=
  match findCmd q l k with
  | none => (q,.failure)
  | some n =>
    if (q.nodes n).markedForActivation then
      (q.setNode n { q.nodes n with activeMarkedForRemoval := true },.pending)
    else (q,.success n (l.erase n))

/-- `wlan_ser_add_non_scan_cmd`: what went into the vdev's list comes out again when the
pdev's list is full. -/
def addNonScanCmd (cfg : Cfg) (q : Queue) (n : ℕ) (c : Command) (active : Bool) :
    Queue × Bool :=
  let r := addCmdToVdevQueue cfg q n c active
  if r.2 = false then (r.1,false)
  else
    match addCmdToQueue (r.1.pdevList active) (if active then cfg.maxActive else cfg.maxPending)
        n c.isHighPriority with
    | none =>
      match removeCmdFromQueue r.1 (r.1.vdevList active c.vdev) c.key with
      | (q',.success _ l) => (q'.setVdevList active c.vdev l,false)
      | (q',_) => (q',false)
    | some l =>
      let q' := r.1.setPdevList active l
      if active then
        ({ q' with
          bitmap := insert c.vdev q'.bitmap
          blockingCmdActive := q'.blockingCmdActive || c.isBlocking },true)
      else (q',true)

def addCmd (cfg : Cfg) (q : Queue) (n : ℕ) (c : Command) (active : Bool) : Queue × Bool :=
  match cfg.kind with
  | .scan => addScanCmd cfg q n c active
  | .nonScan => addNonScanCmd cfg q n c active

/-- Back to the pool, zeroed -/
def toPool (q : Queue) (n : ℕ) : Queue :=
  { q.setNode n .zero with pool := q.pool ++ [n] }

/-- `wlan_serialization_enqueue_cmd` under the lock: the node of an accepted command, and
whether it is to be activated. -/
def enqueueCmd (cfg : Cfg) (others : ℕ) (q : Queue) (c : Command) :
    Queue × Option (ℕ × Bool) :=
  if cfg.kind = .nonScan ∧ q.queueDisable c.vdev = true then (q,none)
  else
    let r := isActiveCmdAllowed cfg others q c
    if isCmdPresentQueue cfg r.1 c.key r.2 then (r.1,none)
    else
      match r.1.pool with
      | [] => (r.1,none)
      | n::rest =>
        let q' := { r.1.setNode n { r.1.nodes n with cmd := some c } with pool := rest }
        let a := addCmd cfg q' n c r.2
        if a.2 = false then (toPool a.1 n,none)
        else if r.2 then
          (a.1.setNode n { a.1.nodes n with markedForActivation := true },some (n,true))
        else (a.1,some (n,false))

/-- `wlan_ser_remove_scan_cmd` -/
def removeScanCmd (q : Queue) (k : Key) (active : Bool) : Queue × Option ℕ :=
  match removeCmdFromQueue q (q.pdevList active) k with
  | (q',.success n l) => (q'.setPdevList active l,some n)
  | (q',_) => (q',none)

/-- `wlan_ser_remove_non_scan_cmd` -/
def removeNonScanCmd (q : Queue) (k : Key) (active : Bool) : Queue × Option ℕ :=
  match removeCmdFromQueue q (q.vdevList active k.vdev) k with
  | (q',.success _ l) =>
    let q' := q'.setVdevList active k.vdev l
    match removeCmdFromQueue q' (q'.pdevList active) k with
    | (q',.success n l) =>
      let q' := q'.setPdevList active l
      if active then
        ({ q' with
          bitmap := q'.bitmap.erase k.vdev
          blockingCmdActive := q'.blockingCmdActive && !isBlocking q' n },some n)
      else (q',some n)
    | (q',_) => (q',none)
  | (q',_) => (q',none)

def removeCmd (cfg : Cfg) (q : Queue) (k : Key) (active : Bool) : Queue × Option ℕ :=
  match cfg.kind with
  | .scan => removeScanCmd q k active
  | .nonScan => removeNonScanCmd q k active

/-- `wlan_serialization_dequeue_cmd` of an active command under the lock -/
def dequeueCmd (cfg : Cfg) (q : Queue) (k : Key) : Queue × Option (ℕ × Command) :=
  let r := removeCmd cfg q k true
  match r.2 with
  | none => (r.1,none)
  | some n => (toPool r.1 n,(r.1.nodes n).cmd.map fun c => (n,c))

/-- Move one pending command to the active list: the last part of
`wlan_ser_move_non_scan_pending_to_active` and `wlan_ser_move_scan_pending_to_active` before
the lock is given up. -/
def promote (cfg : Cfg) (q : Queue) (n : ℕ) : Queue × Option (ℕ × Command) :=
  match (q.nodes n).cmd with
  | none => (q,none)
  | some c =>
    let r := removeCmd cfg q c.key false
    match r.2 with
    | none => (r.1,none)
    | some m =>
      match (r.1.nodes m).cmd with
      | none => (r.1,none)
      | some d =>
        let a := addCmd cfg r.1 m d true
        -- a command that finds no room goes to the pool as it is
        if a.2 = false then ({ a.1 with pool := a.1.pool ++ [m] },none)
        else
          let q' := a.1.setNode m { a.1.nodes m with markedForActivation := true }
          if cfg.kind = .nonScan ∧ d.isBlocking = true then
            ({ q' with blockingCmdWaiting := (q'.blockingCmdWaiting+2^16-1) % 2^16 },some (m,d))
          else (q',some (m,d))

def markForMovement (q : Queue) (n : ℕ) (b : Bool) : Queue :=
  q.setNode n { q.nodes n with markedForMovement := b }

/-- The command after the current one is marked, so that its vdev leaves it alone. -/
def markNext (q : Queue) : List ℕ → Queue
  | [] => q
  | m::_ => markForMovement q m true

/-- The loop of `wlan_ser_move_non_scan_pending_to_active` over the pdev's pending list: the
first command that can go, the marks on the way there. -/
def scanPending (q : Queue) : List ℕ → Queue × Option ℕ
  | [] => (q,none)
  | n::rest =>
    if isBlocking q n && anyVdevCmdActive q then (q,none)
    else
      if vdevCmdActive q n then scanPending (markForMovement (markNext q rest) n false) rest
      else (markNext q rest,some n)

/-- The front of the vdev's pending list, when it can go. -/
def vdevFront (q : Queue) (v : ℕ) : Option ℕ :=
  match q.vdevPending v with
  | [] => none
  | n::_ =>
    if vdevCmdActive q n then none
    else if (q.nodes n).markedForMovement then none
    else some n

/-- Where the next command to promote is looked for -/
inductive Lookup
  | vdev (v : ℕ)
  | pdev
  deriving DecidableEq

/-- The command that a promotion selects, with the marks it leaves. -/
def select (q : Queue) : Lookup → Queue × Option ℕ
  | .vdev v => (q,vdevFront q v)
  | .pdev => scanPending q q.pending

/-- The choice at the top of `wlan_ser_move_non_scan_pending_to_active` -/
def lookupFor (q : Queue) (v : ℕ) (blockingRemoved : Bool) : Lookup :=
  if blockingRemoved = false ∧ q.blockingCmdWaiting = 0 then .vdev v else .pdev

/-- How a call names a command: by a copy of its fields, or by the command inside a node, with
as history variable the number of the command that was meant. -/
inductive CmdRef
  | value (k : Key)
  | node (n uid : ℕ)
  deriving DecidableEq

def CmdRef.key (q : Queue) : CmdRef → Option Key
  | .value k => some k
  | .node n _ => (q.nodes n).cmd.map Command.key

/-- The arguments of `wlan_ser_cancel_non_scan_cmd` and `wlan_ser_cancel_scan_cmd` that select
commands; for scans the type and the attribute select all. -/
structure Filter where
  cmd : Option CmdRef
  pdev : Bool
  vdev : Option ℕ
  cmdType : ℕ
  nonBlock : Bool
  deriving DecidableEq

/-- The tests of the cancel loop; every command of the queue is on the pdev. -/
def Filter.selects (f : Filter) (q : Queue) (n : ℕ) : Bool :=
  match (q.nodes n).cmd with
  | none => false
  | some c =>
    (match f.cmd with
      | none => true
      | some r => decide (r.key q = some c.key)) &&
    (match f.vdev with
      | none => true
      | some v => decide (c.vdev = v) && (decide (f.cmdType ≤ 1) || decide (c.cmdType = f.cmdType))) &&
    !(f.nonBlock && c.isBlocking)

/-- The cancel loop up to the command it takes out, the node that the loop then goes back to
and the number of rounds left. A command that is being activated is only marked. -/
def cancelScan (f : Filter) (active timerFound : Bool) (q : Queue) :
    List ℕ → Option ℕ → ℕ → Queue × Option (ℕ × Option ℕ × ℕ)
  | [], _, _ => (q,none)
  | _::_, _, 0 => (q,none)
  | n::rest, pnode, qsize+1 =>
    if f.selects q n = false then cancelScan f active timerFound q rest (some n) qsize
    else if active then
      if (q.nodes n).markedForActivation then
        cancelScan f active timerFound
          (q.setNode n { q.nodes n with activeMarkedForCancel := true }) rest pnode qsize
      else if timerFound = false then (q,none)
      else (q,some (n,pnode,qsize))
    else (q,some (n,pnode,qsize))

/-- The entries after the node the loop has gone back to -/
def after (l : List ℕ) : Option ℕ → List ℕ
  | none => l
  | some p => (l.dropWhile fun n => n ≠ p).tail

/-- One pass of the cancel loop under the lock, up to where the lock is given up for the
callbacks of the command taken out. -/
def cancelCmd (cfg : Cfg) (q : Queue) (f : Filter) (active timerFound : Bool)
    (pnode : Option ℕ) (qsize : ℕ) : Queue × Option (ℕ × Command × Option ℕ × ℕ) :=
  let r := cancelScan f active timerFound q (after (q.pdevList active) pnode) pnode qsize
  match r.2 with
  | none => (r.1,none)
  | some (n,pnode',qsize') =>
    match (r.1.nodes n).cmd with
    | none => (r.1,none)
    | some c =>
      let q' := r.1.setPdevList active ((r.1.pdevList active).erase n)
      let q'' := if cfg.kind = .nonScan then
        q'.setVdevList active c.vdev ((q'.vdevList active c.vdev).erase n) else q'
      (toPool q'' n,some (n,c,pnode',qsize'))

/-- The bookkeeping after the callbacks of a cancelled non-scan command -/
def cancelFinish (cfg : Cfg) (q : Queue) (active : Bool) (c : Command) : Queue :=
  match cfg.kind with
  | .scan => q
  | .nonScan =>
    if active then
      { q with
        bitmap := q.bitmap.erase c.vdev
        blockingCmdActive := q.blockingCmdActive && !c.isBlocking }
    else if c.isBlocking then
      { q with blockingCmdWaiting := (q.blockingCmdWaiting+2^16-1) % 2^16 }
    else q

/-- Where a call is, from the innermost function outwards. -/
inductive Frame
  /-- `wlan_serialization_activate_cmd` up to the end of the activation callback -/
  | activate (n uid : ℕ)
  /-- it has given up the lock and looks at its node again -/
  | activated (n uid : ℕ) (ok : Bool)
  /-- `wlan_serialization_generic_timer_cb` -/
  | timeout (k : Key)
  | dequeue (ref : CmdRef)
  /-- `wlan_serialization_move_pending_to_active` -/
  | move (v : ℕ) (blockingRemoved : Bool)
  /-- its loop, after the activation of the command it has moved -/
  | moveLoop (lookup : Lookup)
  /-- the callback of a dequeued command is still to be called -/
  | release (c : Command)
  | cancel (f : Filter) (active : Bool)
  /-- the callbacks of a cancelled command run -/
  | cancelled (f : Filter) (active : Bool) (pnode : Option ℕ) (qsize : ℕ) (c : Command)
  deriving DecidableEq

/-- The queue with its history: the requests answered with active or pending, the commands
whose callback has been called with `WLAN_SER_CB_RELEASE_MEM_CMD`, and for every command taken
out of a node that a call kept a pointer to, the command that was meant and the one taken. After
`corrupt` the cancel loop has followed a node that has left its list. -/
structure Store where
  q : Queue
  nextUid : ℕ
  accepted : List ℕ
  released : List ℕ
  deferred : List (ℕ × ℕ)
  corrupt : Bool

/-- The store and the calls in progress -/
abbrev State := Stacks.State Store Frame

/-- What happens outside the module during a step: whether the timer starts and the activation
callback succeeds, whether the timer of an active command is found, and how many scans are
active on other pdevs. -/
structure Env where
  ok : Bool
  timerFound : Bool
  others : ℕ

def initialQueue (cfg : Cfg) : Queue where
  nodes := fun _ => .zero
  active := []
  pending := []
  pool := List.range cfg.poolSize
  vdevActive := fun _ => []
  vdevPending := fun _ => []
  queueDisable := fun _ => false
  bitmap := ∅
  blockingCmdActive := false
  blockingCmdWaiting := 0

def initial (cfg : Cfg) : State := ⟨⟨initialQueue cfg,0,[],[],[],false⟩,[]⟩

/-- The history of commands taken out of the node that the call names them by -/
def noteDeferred (ref : Option CmdRef) (m : ℕ) (c : Command) (l : List (ℕ × ℕ)) :
    List (ℕ × ℕ) :=
  match ref with
  | some (.node n uid) => if m = n then l ++ [(uid,c.uid)] else l
  | _ => l

/-- From the selection on: promote what was selected and activate it. -/
def moveFrom (cfg : Cfg) (s : Store) (lookup : Lookup) : Store × List Frame :=
  let r := select s.q lookup
  match r.2 with
  | none => ({ s with q := r.1 },[])
  | some n =>
    let p := promote cfg r.1 n
    match p.2 with
    | none => ({ s with q := p.1 },[])
    | some (m,c) => ({ s with q := p.1 },[.activate m c.uid,.moveLoop lookup])

/-- `wlan_ser_move_scan_pending_to_active` under the lock -/
def moveScan (cfg : Cfg) (s : Store) (others : ℕ) : Store × List Frame :=
  match s.q.pending with
  | [] => (s,[])
  | n::_ =>
    if isActiveScanCmdAllowed cfg others s.q = false then (s,[])
    else
      let p := promote cfg s.q n
      match p.2 with
      | none => ({ s with q := p.1 },[])
      | some (m,c) => ({ s with q := p.1 },[.activate m c.uid])

/-- The cancel loop from where it is to the next command it takes out. -/
def cancelFrom (cfg : Cfg) (s : Store) (f : Filter) (active timerFound : Bool)
    (pnode : Option ℕ) (qsize : ℕ) : Store × List Frame :=
  let r := cancelCmd cfg s.q f active timerFound pnode qsize
  match r.2 with
  | none => ({ s with q := r.1 },[])
  | some (n,c,pnode',qsize') =>
    ({ s with
      q := r.1
      released := s.released ++ [c.uid]
      deferred := noteDeferred f.cmd n c s.deferred },[.cancelled f active pnode' qsize' c])

/-- The node that the cancel loop has gone back to has left the list. -/
def Stale (q : Queue) (active : Bool) : Option ℕ → Prop
  | none => False
  | some p => p ∉ q.pdevList active

instance decidableStale (q : Queue) (active : Bool) : ∀ p, Decidable (Stale q active p)
  | none => isFalse id
  | some p => inferInstanceAs (Decidable (p ∉ q.pdevList active))

/-- The next step of the innermost function of a call, and what it leaves to be done. -/
def runFrame (cfg : Cfg) (s : Store) (env : Env) : Frame → Store × List Frame
  | .activate n uid =>
    let x := { s.q.nodes n with markedForActivation := false, isActive := true }
    ({ s with q := s.q.setNode n x },[.activated n uid env.ok])
  | .activated n uid ok =>
    if ok = false ∨ (s.q.nodes n).activeMarkedForRemoval = true then
      (s,[.dequeue (.node n uid)])
    else if (s.q.nodes n).activeMarkedForCancel then
      -- the type of a zeroed node is that of a scan, and nothing matches it
      match (s.q.nodes n).cmd with
      | none => (s,[])
      | some c => (s,[.cancel ⟨some (.node n uid),false,none,c.cmdType,false⟩ true])
    else (s,[])
  | .timeout k => (s,if isCmdPresentQueue cfg s.q k true then [.dequeue (.value k)] else [])
  | .dequeue ref =>
    match ref.key s.q with
    | none => (s,[])
    | some k =>
      let r := dequeueCmd cfg s.q k
      match r.2 with
      | none => ({ s with q := r.1 },[])
      | some (n,c) =>
        ({ s with q := r.1, deferred := noteDeferred (some ref) n c s.deferred },
          [.move c.vdev c.isBlocking,.release c])
  | .move v blockingRemoved =>
    match cfg.kind with
    | .scan => moveScan cfg s env.others
    | .nonScan => moveFrom cfg s (lookupFor s.q v blockingRemoved)
  | .moveLoop (.vdev _) => (s,[])
  | .moveLoop .pdev => if s.q.blockingCmdActive then (s,[]) else moveFrom cfg s .pdev
  | .release c => ({ s with released := s.released ++ [c.uid] },[])
  | .cancel f active =>
    cancelFrom cfg s f active env.timerFound none (s.q.pdevList active).length
  | .cancelled f active pnode qsize c =>
    let s' := { s with q := cancelFinish cfg s.q active c }
    if cfg.kind = .nonScan ∧ f.vdev = none ∧ f.pdev = false then (s',[])
    else if Stale s'.q active pnode then ({ s' with corrupt := true },[])
    else cancelFrom cfg s' f active env.timerFound pnode qsize

/-- The cancel requests of `wlan_serialization_find_and_cancel_cmd` -/
inductive CancelType
  | cmd (k : Key)
  | pdev
  | vdev (v : ℕ)
  | vdevCmdType (v cmdType : ℕ)
  | vdevNonBlocking (v : ℕ)
  deriving DecidableEq

def CancelType.filter (kind : Kind) : CancelType → Filter
  | .cmd k => ⟨some (.value k),false,none,if kind = .scan then 0 else 1,false⟩
  | .pdev => ⟨none,true,none,if kind = .scan then 0 else 1,false⟩
  | .vdev v => ⟨none,false,some v,if kind = .scan then 0 else 1,false⟩
  | .vdevCmdType v t => ⟨none,false,some v,t,false⟩
  | .vdevNonBlocking v => ⟨none,false,some v,1,true⟩

/-- A new call, or the next step of the call with the given number. A call made from inside
a callback is a call like any other. -/
inductive Op
  | request (c : Command) (others : ℕ)
  | removeCmd (k : Key)
  | timeout (k : Key)
  | cancelRequest (t : CancelType) (toActive toPending : Bool)
  | advance (i : ℕ) (env : Env)

/-- `wlan_serialization_request` from the lock on -/
def request (cfg : Cfg) (s : Store) (c : Command) (others : ℕ) : Store × List Frame :=
  let c := { c with uid := s.nextUid }
  let r := enqueueCmd cfg others s.q c
  match r.2 with
  | none => ({ s with q := r.1, nextUid := s.nextUid+1 },[])
  | some (n,active) =>
    ({ s with q := r.1, nextUid := s.nextUid+1, accepted := s.accepted ++ [c.uid] },
      if active then [.activate n c.uid] else [])

/-- What a call that has just been made has to do. -/
def callFrames (cfg : Cfg) : Op → List Frame
  | .removeCmd k => [.dequeue (.value k)]
  | .timeout k => [.timeout k]
  | .cancelRequest t toActive toPending =>
    (if toActive then [.cancel (t.filter cfg.kind) true] else []) ++
      if toPending then [.cancel (t.filter cfg.kind) false] else []
  | _ => []

def step (cfg : Cfg) (s : State) : Op → State
  | .request c others => Stacks.start s (request cfg s.store c others)
  | .advance i env => Stacks.advance (fun d f => runFrame cfg d env f) s i
  | op => Stacks.start s (s.store,callFrames cfg op)

/-- The cancel requests that reach the queue -/
def CancelType.Fits (kind : Kind) : CancelType → Prop
  | .vdevCmdType _ _ => kind = .nonScan
  | .vdevNonBlocking _ => kind = .nonScan
  | _ => True

/-- Requests are for vdevs of the pdev; the type of a command decides on its queue. -/
def Legal (cfg : Cfg) (_ : State) : Op → Prop
  | .request c _ => c.vdev ∈ cfg.vdevs ∧ (c.cmdType = 0 ↔ cfg.kind = .scan)
  | .cancelRequest t _ _ => t.Fits cfg.kind
  | _ => True

instance decidableFits (kind : Kind) : ∀ t : CancelType, Decidable (t.Fits kind)
  | .vdevCmdType _ _ => inferInstanceAs (Decidable (kind = .nonScan))
  | .vdevNonBlocking _ => inferInstanceAs (Decidable (kind = .nonScan))
  | .cmd _ => isTrue trivial
  | .pdev => isTrue trivial
  | .vdev _ => isTrue trivial

instance decidableLegal (cfg : Cfg) (s : State) : ∀ op, Decidable (Legal cfg s op)
  | .request c _ => inferInstanceAs (Decidable (c.vdev ∈ cfg.vdevs ∧ (c.cmdType = 0 ↔
      cfg.kind = .scan)))
  | .cancelRequest t _ _ => decidableFits cfg.kind t
  | .removeCmd _ => isTrue trivial
  | .timeout _ => isTrue trivial
  | .advance _ _ => isTrue trivial

/-- The non-scan queue of a pdev with seventeen vdevs -/
def nonScanCfg : Cfg where
  kind := .nonScan
  maxActive := 17
  maxPending := 68
  vdevMaxActive := 1
  vdevMaxPending := fun _ => 4
  poolSize := 85
  maxActiveScans := 8
  vdevs := Finset.range 17
  vdevMaxActive_pos := by decide
  vdevs_card := by decide
  maxPending_lt := by decide

/-- The scan queue of a pdev -/
def scanCfg : Cfg where
  kind := .scan
  maxActive := 8
  maxPending := 24
  vdevMaxActive := 1
  vdevMaxPending := fun _ => 4
  poolSize := 32
  maxActiveScans := 8
  vdevs := Finset.range 8
  vdevMaxActive_pos := by decide
  vdevs_card := by decide
  maxPending_lt := by decide

end Serialization
end MarbleModules
