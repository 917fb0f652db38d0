import MarbleModules.LinkedLists
import MarbleModules.RingScan

/-! The receive reorder array of a peer's TID: the release of a range of its slots, their
flush, and the handling of the slots that failed the firmware's PN check. A slot holds a list
of network buffers by its first and last one. -/
namespace MarbleModules
namespace OlRxReorder

open LinkedLists

variable {α : Type*} [DecidableEq α]

/-- `enum htt_rx_flush_action` -/
inductive FlushAction
  | release | discard
  deriving DecidableEq

/-- What the reorder functions read and write of a peer, for one TID. The window has `2^bits`
slots; `next` are the links of the network buffers. -/
structure Peer (α : Type*) where
  bits : ℕ
  array : ℕ → Ends α
  nextRelIdx : ℕ
  lastSeq : ℕ
  fwPnCheck : Bool
  next : α → Option α

namespace Peer

def winSz (p : Peer α) : ℕ := 2^p.bits

def winSzMask (p : Peer α) : ℕ := 2^p.bits-1

/-- `OL_RX_REORDER_IDX_WRAP` -/
def wrap (p : Peer α) (idx : ℕ) : ℕ := idx &&& p.winSzMask

end Peer

/-- What a call does: the peer after it, the list handed to `rx_opt_proc`, if any, and the
buffers freed, in this order. -/
structure Outcome (α : Type*) where
  peer : Peer α
  delivered : Option α
  freed : List α

/-- `ol_rx_reorder_init` -/
def init (next : α → Option α) (p : Peer α) : Peer α :=
  { p with bits := 0,array := fun _ => Ends.empty,next := next }

/-- The array of `ol_rx_addba_handler`; the window asked for is rounded up to a power of two. -/
def addba (next : α → Option α) (p : Peer α) (bits : ℕ) : Peer α :=
  { p with bits := bits,array := fun _ => Ends.empty,next := next }

def store (p : Peer α) (idx : ℕ) (headMsdu tailMsdu : α) : Peer α :=
  let elem := p.array (p.wrap idx)
  { p with
    next := if elem.head.isSome then setNext p.next elem.tail (some headMsdu) else p.next
    array := Function.update p.array (p.wrap idx)
      ⟨if elem.head.isSome then elem.head else some headMsdu,some tailMsdu⟩ }

/-- The state of the loops: the links, the array and the list gathered so far. -/
structure Gather (α : Type*) where
  next : α → Option α
  array : ℕ → Ends α
  msdus : Ends α

/-- The body of the loop of `ol_rx_reorder_release`. `OL_RX_REORDER_LIST_APPEND` stores to
the link of the last buffer only. -/
def releaseSlot (g : Gather α) (idx : ℕ) : Gather α :=
  let elem := g.array idx
  if elem.head.isSome then
    { next := setNext g.next g.msdus.tail elem.head
      array := Function.update g.array idx Ends.empty
      msdus := ⟨g.msdus.head,elem.tail⟩ }
  else { g with array := Function.update g.array idx Ends.empty }

/-- The links once the gathered list, if there is one, has its end. -/
def Gather.ended (g : Gather α) : α → Option α :=
  if g.msdus.head.isSome then setNext g.next g.msdus.tail none else g.next

/-- The end of a release or a flush: the sequence number of the first buffer is noted. -/
def finish (seqNum : α → ℕ) (p : Peer α) (g : Gather α) : Peer α :=
  { p with
    array := g.array
    lastSeq := (g.msdus.head.map seqNum).getD p.lastSeq
    next := g.ended }

def release (seqNum : α → ℕ) (p : Peer α) (idxStart idxEnd : ℕ) : Option (Outcome α) :=
  let p := { p with nextRelIdx := idxEnd%2^16 }
  let idxStart := p.wrap idxStart
  let idxEnd := p.wrap idxEnd
  let first : Gather α :=
    ⟨p.next,Function.update p.array idxStart Ends.empty,p.array idxStart⟩
  (RingScan.scan p.winSz releaseSlot idxEnd p.winSz (p.wrap (idxStart+1)) first).map fun g =>
    ⟨finish seqNum p g,g.msdus.head,[]⟩

/-- The body of the loop of `ol_rx_reorder_flush`. -/
def flushSlot (g : Gather α) (idx : ℕ) : Gather α :=
  let elem := g.array idx
  if elem.head.isSome then
    { next := (append g.next g.msdus elem).1
      array := Function.update g.array idx Ends.empty
      msdus := (append g.next g.msdus elem).2 }
  else g

/-- `ol_rx_reorder_flush`; the fuel is for the loop that frees a list. -/
def flush (fuel : ℕ) (seqNum : α → ℕ) (p : Peer α) (idxStart idxEnd : ℕ)
    (action : FlushAction) : Option (Outcome α) := do
  -- an end of 0xffff asks for the entire array
  let (p,idxEnd) := if idxEnd = 0xffff then ({ p with nextRelIdx := 0 },idxStart)
    else ({ p with nextRelIdx := idxEnd%2^16 },idxEnd)
  let idxStart := p.wrap idxStart
  let idxEnd := p.wrap idxEnd
  let first := flushSlot ⟨p.next,p.array,Ends.empty⟩ idxStart
  let g ← RingScan.scan p.winSz flushSlot idxEnd p.winSz (p.wrap (idxStart+1)) first
  let p := finish seqNum p g
  match action with
  | .release => pure ⟨p,g.msdus.head,[]⟩
  | .discard => pure ⟨p,none,← walk p.next fuel g.msdus.head⟩

/-- The state of the loop of `ol_rx_pn_ind_handler`: besides what is gathered, the part of
`pn_ie` not matched yet and the buffers freed, unless the fuel ran out. -/
structure PnGather (α : Type*) extends Gather α where
  pnIe : List ℕ
  freed : Option (List α)

/-- The body of the loop of `ol_rx_pn_ind_handler`. -/
def pnSlot (fuel : ℕ) (g : PnGather α) (seqNum : ℕ) : PnGather α :=
  let elem := g.array seqNum
  if elem.head.isSome then
    if g.pnIe.head? = some seqNum then
      { g with
        array := Function.update g.array seqNum Ends.empty
        pnIe := g.pnIe.tail
        freed := do
          let freed ← g.freed
          let mpdu ← walkTo g.next (fun msdu => some msdu = elem.tail) fuel elem.head
          pure (freed++mpdu) }
    else
      { g with
        next := (append g.next g.msdus elem).1
        array := Function.update g.array seqNum Ends.empty
        msdus := (append g.next g.msdus elem).2 }
  else g

def pnIndHandler (fuel : ℕ) (p : Peer α) (seqNumStart seqNumEnd : ℕ) (pnIe : List ℕ) :
    Option (Outcome α) := do
  let p := { p with fwPnCheck := true }
  let seqNumStart := p.wrap seqNumStart
  let seqNumEnd := p.wrap seqNumEnd
  let first := pnSlot fuel ⟨⟨p.next,p.array,Ends.empty⟩,pnIe,some []⟩ seqNumStart
  let g ← RingScan.scan p.winSz (pnSlot fuel) seqNumEnd p.winSz (p.wrap (seqNumStart+1)) first
  let freed ← g.freed
  pure ⟨{ p with array := g.array,next := g.ended },g.msdus.head,freed⟩

end OlRxReorder
end MarbleModules
