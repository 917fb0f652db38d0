import Mathlib.Data.Finset.Card
import Mathlib.Data.Finset.Range
import MarbleModules.GsiAccounting
import MarbleModules.Overwrites

/-!
`gsi_queue_xfer` on channels of every protocol and state, with or without an event ring. GCI
channels name the user data of an element by a cookie, which may be the element's slot, a place
in the escape area behind the slots, or any other free slot.
-/
namespace MarbleModules
namespace Gsi

open Overwrites

/-- `enum gsi_chan_prot`, as far as `gsi_queue_xfer` tells its values apart. -/
inductive ChanProt
  | gpi | gci | other
  deriving DecidableEq

/-- `enum gsi_chan_state`. -/
inductive ChanState
  | notAllocated | allocated | started | stopped | stopInProc | flowControl | error
  deriving DecidableEq

/-- The status codes of `gsi_queue_xfer`. -/
inductive QueueStatus
  | success | invalidParams | ringInsufficientSpace | unsupportedOp
  deriving DecidableEq

/-- `GSI_VEID_MAX`. -/
def veidMax : ℕ := 5

/-- `struct gsi_gci_tre`, whose `re_type` is always `GSI_RE_COAL`. -/
structure GciTre where
  bufferPtr : ℕ
  bufLen : ℕ
  cookie : ℕ
  deriving DecidableEq

/-- `struct gsi_chan_ctx` with what a channel of any protocol has besides; `gciTre` is the
memory of the ring of a GCI channel by index. -/
structure ChanCtx where
  chan : Chan
  prot : ChanProt
  state : ChanState
  gciTre : ℕ → GciTre
  userdataInUse : ℕ

namespace ChanCtx

/-- `ctx->user_data[idx].valid = true`. -/
def takeCookie (c : ChanCtx) (idx : ℕ) : ChanCtx :=
  {c with chan := {c.chan with
    userData := Function.update c.chan.userData idx ⟨true,(c.chan.userData idx).p⟩}}

def setRing (c : ChanCtx) (r : Ring) : ChanCtx := {c with chan := {c.chan with ring := r}}

end ChanCtx

/-- `__gsi_get_gci_cookie`, none where it ends in `BUG`. -/
def getGciCookie (c : ChanCtx) (idx : ℕ) : Option (ChanCtx × ℕ) :=
  let free := fun i => !(c.chan.userData i).valid
  if free idx then some (c.takeCookie idx,idx)
  else
    let c := {c with userdataInUse := c.userdataInUse+1}
    let stop := c.chan.ring.maxNumElem+1
    match (List.range veidMax).find? fun i => free (stop+i) with
    | some i => some (c.takeCookie (stop+i),stop+i)
    | none =>
      match (List.range stop).find? free with
      | some i => some (c.takeCookie i,i)
      | none => none

/-- What becomes of the channel when an element or a list of elements is written. -/
inductive Populated
  | done (c : ChanCtx)
  | error (c : ChanCtx)
  | bug

/-- The bits of an address that a GCI element has no room for. -/
def addrTooLarge : ℕ := 0xFFFFFF0000000000

/-- `__gsi_populate_gci_tre`. -/
def populateGciTre (c : ChanCtx) (xfer : XferElem) : Populated :=
  if xfer.addr &&& addrTooLarge ≠ 0 then .error c
  else if xfer.type ≠ .data then .error c
  else
    let idx := findIdxFromAddr c.chan.ring c.chan.ring.wpLocal
    match getGciCookie c idx with
    | none => .bug
    | some (c,cookie) =>
      if c.chan.ring.maxNumElem+veidMax < cookie then .error c
      else
        let data : UserData := ⟨(c.chan.userData cookie).valid,xfer.xferUserData⟩
        .done {c with
          gciTre := Function.update c.gciTre idx ⟨xfer.addr,xfer.len,cookie⟩
          chan := {c.chan with userData := Function.update c.chan.userData cookie data}}

/-- The body of the loop of `gsi_queue_xfer`; `__gsi_populate_tre` looks at the state after it
has looked at the type. -/
def populate (c : ChanCtx) (xfer : XferElem) : Populated :=
  if c.prot = .gci then populateGciTre c xfer
  else match populateTre c.chan xfer with
    | none => .error c
    | some ch => if c.state = .notAllocated then .error c else .done {c with chan := ch}

/-- The loop of `gsi_queue_xfer`. -/
def populateAll : ChanCtx → List XferElem → Populated
  | c,[] => .done c
  | c,xfer::xfers =>
    match populate c xfer with
    | .done c => populateAll (c.setRing (incrRingWp c.chan.ring)) xfers
    | .error c => .error c
    | .bug => .bug

/-- `__gsi_query_channel_free_re`: without an event ring the read pointer is the one that the
hardware reports. -/
def queryFreeRe (c : ChanCtx) (evtr : Option Ring) (reported : ℕ) : ChanCtx × ℕ :=
  let ring := c.chan.ring
  let c := if evtr.isNone then c.setRing {ring with rp := readRp ring reported} else c
  let start := findIdxFromAddr ring (if evtr.isNone then readRp ring reported else ring.rpLocal)
  let stop := findIdxFromAddr ring ring.wpLocal
  let used := if start ≤ stop then stop-start
    else (ring.maxNumElem+1+2^16-(start-stop))%2^16
  (c,(ring.maxNumElem+2^16-used)%2^16)

/-- `gsi_ring_chan_doorbell` on a channel of any protocol. -/
def ringDoorbell (c : ChanCtx) (evtr : Option Ring) : ChanCtx × Option Ring :=
  let evtr := if c.chan.dir = .fromGsi then evtr.map fun r => {r with wp := r.wpLocal} else evtr
  (c.setRing {c.chan.ring with wp := c.chan.ring.wpLocal},evtr)

/-- `gsi_queue_xfer`, none where it ends in `BUG`. -/
def queueXferAny (c : ChanCtx) (evtr : Option Ring) (reported : ℕ) (xfers : List XferElem)
    (ringDb : Bool) : Option (ChanCtx × Option Ring × QueueStatus) :=
  let doorbell := fun c =>
    if ringDb then
      let (c,evtr) := ringDoorbell c evtr
      some (c,evtr,QueueStatus.success)
    else some (c,evtr,QueueStatus.success)
  if c.state = .notAllocated then some (c,evtr,.unsupportedOp)
  else if c.prot = .other then some (c,evtr,.unsupportedOp)
  else if xfers = [] then doorbell c
  else
    let (c,room) := if c.prot = .gci then (c,true)
      else
        let (c,free) := queryFreeRe c evtr reported
        (c,decide (xfers.length ≤ free))
    if !room then some (c,evtr,.ringInsufficientSpace)
    else
      let wpRollback := c.chan.ring.wpLocal
      match populateAll c xfers with
      | .done c =>
        doorbell {c with chan := {c.chan with queued := (c.chan.queued+xfers.length)%2^64}}
      | .error c => some (c.setRing {c.chan.ring with wpLocal := wpRollback},evtr,.invalidParams)
      | .bug => none

/-- An element that the channel's protocol can take. -/
def Accepts (prot : ChanProt) (xfer : XferElem) : Prop :=
  match prot with
  | .gci => xfer.addr &&& addrTooLarge = 0 ∧ xfer.type = .data
  | _ => xfer.Valid

instance (prot : ChanProt) (xfer : XferElem) : Decidable (Accepts prot xfer) := by
  unfold Accepts
  split <;> infer_instance

section Gpi

/-- The user data that elements from the write pointer on are to hold, by slot. -/
def slotWrites : Ring → List XferElem → List (ℕ × UserData)
  | _,[] => []
  | r,xfer::xfers =>
    (findIdxFromAddr r r.wpLocal,⟨true,xfer.xferUserData⟩)::slotWrites (incrRingWp r) xfers

theorem slotWrites_rp (r : Ring) (rp : ℕ) (xfers : List XferElem) :
    slotWrites {r with rp := rp} xfers = slotWrites r xfers := by
  induction xfers generalizing r with
  | nil => rfl
  | cons xfer xfers ih => exact congrArg _ (ih (incrRingWp r))

/-- Of the user data and the counts only what the writes do has changed. -/
structure Written (c c' : ChanCtx) (l : List (ℕ × UserData)) : Prop where
  prot : c'.prot = c.prot
  state : c'.state = c.state
  userData : c'.chan.userData = writes c.chan.userData l
  queued : c'.chan.queued = c.chan.queued
  userdataInUse : c'.userdataInUse = c.userdataInUse

variable {c : ChanCtx} {xfer : XferElem}

theorem populate_gpi (hp : c.prot = .gpi) (hs : c.state ≠ .notAllocated) (hx : xfer.Valid) :
    ∃ ch,populate c xfer = .done {c with chan := ch} ∧ ch.ring = c.chan.ring ∧
      ch.queued = c.chan.queued ∧
      ch.userData = Function.update c.chan.userData
        (findIdxFromAddr c.chan.ring c.chan.ring.wpLocal) ⟨true,xfer.xferUserData⟩ := by
  obtain ⟨tre,htre⟩ := Option.isSome_iff_exists.mp (treOf_isSome.mpr hx)
  set idx := findIdxFromAddr c.chan.ring c.chan.ring.wpLocal with hidx
  refine ⟨{c.chan with
    tre := Function.update c.chan.tre idx tre
    userData := Function.update c.chan.userData idx ⟨true,xfer.xferUserData⟩},?_,rfl,rfl,rfl⟩
  simp only [populate,hp,reduceCtorEq,if_false,populateTre,htre,hs,← hidx]

theorem populate_gpi_invalid (hp : c.prot = .gpi) (hx : ¬ xfer.Valid) :
    populate c xfer = .error c := by
  have htre : treOf xfer = none := by
    rw [← Option.not_isSome_iff_eq_none,treOf_isSome]
    exact hx
  simp only [populate,hp,reduceCtorEq,if_false,populateTre,htre]

theorem populateAll_gpi (hp : c.prot = .gpi) (hs : c.state ≠ .notAllocated)
    (pre post : List XferElem) (hpre : ∀ x ∈ pre,x.Valid) :
    ∃ c',populateAll c (pre++post) = populateAll c' post ∧
      Written c c' (slotWrites c.chan.ring pre) := by
  induction pre generalizing c with
  | nil => exact ⟨c,rfl,rfl,rfl,rfl,rfl,rfl⟩
  | cons x pre ih =>
    obtain ⟨ch,hch,hring,hqueued,hdata⟩ := populate_gpi hp hs (hpre x List.mem_cons_self)
    set d := ({c with chan := ch} : ChanCtx).setRing (incrRingWp ch.ring) with hd
    obtain ⟨c',hc',hw⟩ := ih (c := d) hp hs fun y hy => hpre y (List.mem_cons_of_mem x hy)
    refine ⟨c',?_,hw.prot,hw.state,?_,hw.queued.trans hqueued,hw.userdataInUse⟩
    · rw [List.cons_append,populateAll,hch]
      exact hc'
    · rw [hw.userData,slotWrites,writes_cons]
      simp only [hd,ChanCtx.setRing,hring,hdata]

end Gpi

end Gsi
end MarbleModules
