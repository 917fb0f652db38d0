import MarbleModules.RmnetCoalCheck
import MarbleModules.RmnetDescPool

/-! The receive path of the rmnet core, from an skb to the packets handed up the stack, as far
as it decides what becomes of the descriptors: which are taken from the pool, which functions
use them, and where they are put back. -/
namespace MarbleModules
namespace Rmnet

open Lifetimes FragDescriptor

/-- `RMNET_FLAGS_INGRESS_MAP_COMMANDS` -/
def flagsIngressMapCommands : BitVec 32 := 1 <<< 1
/-- `RMNET_INGRESS_FORMAT_DL_MARKER` -/
def ingressFormatDlMarker : BitVec 32 := 1 <<< 30 ||| 1 <<< 29

/-- `RMNET_MAX_LOGICAL_EP` -/
def maxLogicalEp : ℕ := 255
/-- `MAX_SKB_FRAGS` -/
def maxSkbFrags : ℕ := 17

/-- The features of an endpoint's `egress_dev`: `NETIF_F_RXCSUM` and `NETIF_F_GRO_HW`. -/
structure EgressDev where
  rxcsum : Bool
  groHw : Bool

/-- What the receive path reads of `struct rmnet_port`; no endpoint for a mux id is `none`. -/
structure IngressPort where
  dataFormat : BitVec 32
  endpoint : ℕ → Option EgressDev

/-- A received skb. -/
structure RxSkb where
  skb : Skb
  priority : ℕ

/-- What `rmnet_frag_checksum_pkt` writes, and whether the checksum is right. -/
structure CsumPkt where
  ipLen : ℕ
  ipProto : ℕ
  transProto : ℕ
  valid : Bool

/-! ## The QMAP header -/

def mapPadLen (maph : List UInt8) : ℕ := byteAt maph 0%64
def mapNextHdr (maph : List UInt8) : Bool := (byteAt maph 0).testBit 6
def mapMuxId (maph : List UInt8) : ℕ := byteAt maph 1

/-- `ntohs(qmap->pkt_len) - pad`, in 16 bits. -/
def mapDataLen (maph : List UInt8) : ℕ := (mapPktLen maph+2^16-mapPadLen maph)%2^16

/-- `csum_hdr->header_type` -/
def headerType (hdr : List UInt8) : ℕ := byteAt hdr 0/2

/-- `csum_hdr->csum_valid_required` -/
def csumValidRequired (hdr : List UInt8) : Bool := (byteAt hdr 1).testBit 7

/-- The length of the headers that `rmnet_alloc_skb` puts into the linear part. -/
def hdrLen (d : FragDescriptor) : ℕ := (d.ipLen+d.transLen)%2^16

namespace Ingress

variable (skbCopyBits : Skb → ℕ → ℕ → Option (List UInt8))
variable (checksumPkt : FragDescriptor → CsumPkt)
variable (alloc : ℕ → Bool)

/-! ## Deaggregation -/

/-- The loop that adds the fragments with the packet data: the descriptor and the bytes still
missing, `none` when a fragment cannot be allocated. A fragment that is not used up ends the
packet, so the loop never comes back to one. -/
def addPacketFrags (id : ℕ) (fragDesc : FragDescriptor) :
    List Fragment → ℕ → Ingress (Option (FragDescriptor × ℕ))
  | [],pktLen => pure (some (fragDesc,pktLen))
  | frag::frags,pktLen =>
    if 0 < pktLen then do
      let copy := min frag.size pktLen
      use id
      match ← allocate alloc with
      | false => pure none
      | true =>
        addPacketFrags id (fragDesc.addFrag frag.page frag.off copy) frags (pktLen-copy)
    else pure (some (fragDesc,pktLen))

/-- `rmnet_frag_deaggregate_one`: the descriptor it appends to the list, and whose length it
returns; `none` is -1. -/
def deaggregateOne (dataFormat : BitVec 32) (skb : Skb) (start priority : ℕ) :
    Ingress (Option Owned) :=
  let found := findStartFrag start skb.frags 0 0
  match skb.frags[found.1]? with
  | none => pure none
  | some frag =>
    let startFragSize := frag.size-(start-found.2)
    let startFragOff := frag.off+(start-found.2)
    let maph? :=
      if mapHeaderSize ≤ startFragSize then
        some ((frag.page.drop startFragOff).take mapHeaderSize)
      else skbCopyBits skb start mapHeaderSize
    match maph? with
    | none => pure none
    | some maph =>
      if mapPktLen maph = 0 then pure none
      else do
        match ← getFragDescriptor alloc with
        | none => pure none
        | some id =>
          use id
          match frameLength dataFormat maph
            (typeByte skbCopyBits skb frag start startFragSize startFragOff) with
          | none => pure none  -- the descriptor is not put back
          | some pktLen =>
            let frags : List Fragment :=
              { frag with off := startFragOff, size := startFragSize }::
                skb.frags.drop (found.1+1)
            match ← addPacketFrags alloc id { priority := priority } frags pktLen with
            | none =>
              recycleFragDescriptor id
              pure none
            | some (fragDesc,missing) =>
              if missing = 0 then pure (some ⟨id,fragDesc⟩)
              else do
                recycleFragDescriptor id
                pure none

/-- The loop of `rmnet_frag_deaggregate` from `start` on; `none` when it did not end within
the fuel. -/
def deaggregateFrom (dataFormat : BitVec 32) (rx : RxSkb) :
    ℕ → ℕ → List Owned → Ingress (Option (List Owned))
  | 0,_,_ => pure none
  | fuel+1,start,list =>
    if start < rx.skb.len then do
      match ← deaggregateOne skbCopyBits alloc dataFormat rx.skb start rx.priority with
      | none => pure (some list)
      | some fragDesc =>
        deaggregateFrom dataFormat rx fuel (start+fragDesc.desc.len) (list++[fragDesc])
    else pure (some list)

/-- `rmnet_frag_deaggregate`; every turn of the loop moves on by at least a byte. -/
def deaggregate (dataFormat : BitVec 32) (rx : RxSkb) : Ingress (Option (List Owned)) :=
  deaggregateFrom skbCopyBits alloc dataFormat rx (rx.skb.len+1) 0 []

/-! ## Delivery -/

/-- The loop of `rmnet_alloc_skb` over the fragments: a new skb whenever one is full. -/
def addRxFrags : List Fragment → ℕ → Ingress Unit
  | [],_ => pure ()
  | _::fs,nrFrags =>
    if nrFrags < maxSkbFrags then addRxFrags fs (nrFrags+1)
    else do
      match ← allocate alloc with
      | false => pure ()
      | true => addRxFrags fs 1

/-- `rmnet_alloc_skb`: whether there is an skb. -/
def allocSkb (fragDesc : Owned) : Ingress Bool := do
  use fragDesc.id
  match ← allocate alloc with
  | false => pure false
  | true =>
    if fragDesc.desc.hdrsValid then
      if hdrLen fragDesc.desc = fragDesc.desc.len then
        -- a packet that is only headers has no fragments to hand on
        use fragDesc.id
        pure true
      else
        match ← fragPull fragDesc (hdrLen fragDesc.desc) with
        | none => pure false
        | some fragDesc =>
          addRxFrags alloc fragDesc.desc.frags 0
          use fragDesc.id
          pure true
    else
      addRxFrags alloc fragDesc.desc.frags 0
      use fragDesc.id
      pure true

/-- `rmnet_frag_deliver` -/
def fragDeliver (fragDesc : Owned) : Ingress Unit := do
  let _ ← allocSkb alloc fragDesc
  recycleFragDescriptor fragDesc.id

def deliverAll : List Owned → Ingress Unit
  | [] => pure ()
  | frag::segs => do
    fragDeliver alloc frag
    deliverAll segs

/-! ## Segmentation -/

/-- The state of `rmnet_frag_segment_coal_data` while it cuts the frame up. -/
structure Cutting where
  coalDesc : Owned
  list : List Owned
  totalPkt : ℕ
  nloErrMask : ℕ

/-- What `__rmnet_frag_segment_data` writes into the new descriptor; `none` when it goes to
its `recycle` label. -/
def newSegment (coalDesc : Owned) (newDesc : ℕ) (csumValid : Bool) :
    Ingress (Option FragDescriptor) := do
  let d := coalDesc.desc
  let dlen := d.gsoSize*d.gsoSegs
  let hlen := d.ipLen+d.transLen
  let offset := hlen+d.dataOffset
  use newDesc
  match ← addFragsFrom alloc ⟨newDesc,{ d with frags := [], len := 0 }⟩ coalDesc 0 hlen with
  | none => pure none
  | some e =>
    match ← addFragsFrom alloc ⟨newDesc,e⟩ coalDesc offset dlen with
    | none => pure none
    | some e =>
      use coalDesc.id
      match segmentTransport d e offset dlen csumValid with
      | none => pure none
      | some (e,csumValid) =>
        use newDesc
        pure ((segmentNetwork d e).map fun e => { e with csumValid := csumValid })

/-- `__rmnet_frag_segment_data` -/
def segmentData (s : Cutting) (pktId : ℕ) (csumValid : Bool) : Ingress Cutting := do
  use s.coalDesc.id
  match ← getFragDescriptor alloc with
  | none => pure s
  | some id =>
    match ← newSegment alloc s.coalDesc id csumValid with
    | none =>
      recycleFragDescriptor id
      pure s
    | some newDesc =>
      let d := s.coalDesc.desc
      use s.coalDesc.id
      pure { s with
        coalDesc := ⟨s.coalDesc.id,{ d with
          dataOffset := (d.dataOffset+d.gsoSize*d.gsoSegs)%2^16
          pktId := (pktId+1)%2^8
          gsoSegs := 0
          coalBytes := 0
          coalBufsize := 0 }⟩
        list := s.list++[⟨id,newDesc⟩] }

def Cutting.setSegs (s : Cutting) (n : ℕ) : Cutting :=
  { s with coalDesc := ⟨s.coalDesc.id,{ s.coalDesc.desc with gsoSegs := n }⟩ }

/-- The good packets seen so far, if any, are cut off. -/
def flushSegs (s : Cutting) : Ingress Cutting :=
  if s.coalDesc.desc.gsoSegs ≠ 0 then segmentData alloc s s.totalPkt true else pure s

/-- What is done with one packet. -/
def takePacket (gro : Bool) (s : Cutting) : Ingress Cutting :=
  let csumErr := s.nloErrMask.testBit 0
  if gro = false then segmentData alloc (s.setSegs 1) s.totalPkt (!csumErr)
  else if csumErr then do
    let s ← flushSegs alloc s
    segmentData alloc (s.setSegs 1) s.totalPkt false
  else pure (s.setSegs ((s.coalDesc.desc.gsoSegs+1)%2^16))

/-- The loop over the packets of one NLO. -/
def takePackets (gro : Bool) : ℕ → Cutting → Ingress Cutting
  | 0,s => pure s
  | n+1,s => do
    let s ← takePacket alloc gro s
    takePackets gro n { s with
      totalPkt := (s.totalPkt+1)%2^8
      nloErrMask := s.nloErrMask >>> 1 }

/-- One turn of the loop over the NLOs. -/
def takeNlo (gro : Bool) (s : Cutting) (p : NlPair) : Ingress Cutting := do
  let s := { s with coalDesc := ⟨s.coalDesc.id,
    { s.coalDesc.desc with gsoSize := gsoSizeOf s.coalDesc.desc p }⟩ }
  let s ← takePackets alloc gro p.numPackets s
  flushSegs alloc s

/-- The frame as it is passed on whole. -/
def wholeDesc (d : FragDescriptor) (hdr : CoalHeader) (csumValid : Bool) : FragDescriptor :=
  let p := hdr.nlPairs.getD 0 ⟨0,0⟩
  { d with csumValid := csumValid, gsoSize := gsoSizeOf d p, gsoSegs := p.numPackets }

/-- `rmnet_frag_segment_coal_data`: the list it leaves. -/
def segmentCoalData (coalDesc : Owned) (nloErrMask : ℕ) (gro : Bool) :
    Ingress (List Owned) := do
  use coalDesc.id
  match coalDesc.desc.copyData mapHeaderSize v5CoalHeaderSize with
  | none => pure []
  | some bs =>
    let hdr := coalHeader bs
    match ← fragPull coalDesc (mapHeaderSize+v5CoalHeaderSize) with
    | none => pure []
    | some coalDesc =>
      use coalDesc.id
      match walkHeaders coalDesc.desc gro with
      | none => pure []
      | some w =>
        if csumBuggy hdr && !w.zeroCsum then
          let csumValid := w.coalDesc.csumValid || validateCsum w.coalDesc
          pure [⟨coalDesc.id,wholeDesc w.coalDesc hdr csumValid⟩]
        else if w.gro && hdr.numNlos == 1 && hdr.csumValid then
          pure [⟨coalDesc.id,wholeDesc w.coalDesc hdr true⟩]
        else
          let s ← (hdr.nlPairs.take hdr.numNlos).foldlM (takeNlo alloc w.gro)
            ⟨⟨coalDesc.id,w.coalDesc⟩,[],0,nloErrMask⟩
          pure s.list

/-! ## The handlers -/

/-- What the switch on the checksum offload header leaves in the descriptor. -/
def csumOffloadDesc (dev : EgressDev) (csumHdr : List UInt8) (d : FragDescriptor) :
    FragDescriptor :=
  if dev.rxcsum = false then d
  else if csumValidRequired csumHdr then { d with csumValid := true }
  else
    let c := checksumPkt d
    { d with
      ipLen := c.ipLen
      ipProto := c.ipProto
      transProto := c.transProto
      csumValid := d.csumValid || c.valid }

/-- `rmnet_frag_process_next_hdr_packet`: the list of segments; `none` is an error. -/
def processNextHdrPacket (dev : EgressDev) (fragDesc : Owned) (len : ℕ) :
    Ingress (Option (List Owned)) := do
  use fragDesc.id
  match fragDesc.desc.headerPtr mapHeaderSize v5CsumHeaderSize with
  | none => pure none
  | some csumHdr =>
    if headerType csumHdr = mapHeaderTypeCoalescing then
      match fragDataCheckCoalHeader fragDesc.desc with
      | .ok nloErrMask _ =>
        let list ← segmentCoalData alloc fragDesc nloErrMask.toNat dev.groHw
        if list.head?.map Owned.id = some fragDesc.id then pure (some list)
        else
          recycleFragDescriptor fragDesc.id
          pure (some list)
      | _ => pure none
    else if headerType csumHdr = mapHeaderTypeCsumOffload then
      let d := csumOffloadDesc checksumPkt dev csumHdr fragDesc.desc
      match ← fragPull ⟨fragDesc.id,d⟩ (mapHeaderSize+v5CsumHeaderSize) with
      | none => pure none
      | some fragDesc =>
        -- padding is there only behind checksum offload packets
        match ← fragTrim fragDesc len with
        | none => pure none
        | some fragDesc => pure (some [fragDesc])
    else pure none

/-- `__rmnet_frag_ingress_handler`, no perf hook being registered. -/
def ingressFrame (port : IngressPort) (fragDesc : Owned) : Ingress Unit := do
  use fragDesc.id
  match fragDesc.desc.headerPtr 0 mapHeaderSize with
  | none => recycleFragDescriptor fragDesc.id
  | some qmap =>
    let len := mapDataLen qmap
    if mapCdBit qmap then
      -- `rmnet_frag_flow_command` or `rmnet_frag_command`, which only read the frame
      if hasFlags port.dataFormat (ingressFormatDlMarker ||| flagsIngressMapCommands) then
        use fragDesc.id
      recycleFragDescriptor fragDesc.id
    else if maxLogicalEp ≤ mapMuxId qmap then recycleFragDescriptor fragDesc.id
    else
      match port.endpoint (mapMuxId qmap) with
      | none => recycleFragDescriptor fragDesc.id
      | some dev =>
        if mapNextHdr qmap &&
            hasFlags port.dataFormat (flagsIngressCoalesce ||| privFlagsIngressMapCksumv5) then
          match ← processNextHdrPacket checksumPkt alloc dev fragDesc len with
          | none => recycleFragDescriptor fragDesc.id
          | some segs => deliverAll alloc segs
        else
          match ← fragPull fragDesc mapHeaderSize with
          | none => pure ()
          | some fragDesc =>
            match ← fragTrim fragDesc len with
            | none => pure ()
            | some fragDesc => deliverAll alloc [fragDesc]

def ingressFrames (port : IngressPort) : List Owned → Ingress Unit
  | [] => pure ()
  | fragDesc::descList => do
    ingressFrame checksumPkt alloc port fragDesc
    ingressFrames port descList

/-- `rmnet_frag_ingress_handler` on an skb and those in its `frag_list`; `none` when a loop
did not end within its fuel. -/
def fragIngressHandler (port : IngressPort) : List RxSkb → Ingress (Option Unit)
  | [] => pure (some ())
  | rx::chain => do
    match ← deaggregate skbCopyBits alloc port.dataFormat rx with
    | none => pure none
    | some descList =>
      ingressFrames checksumPkt alloc port descList
      fragIngressHandler port chain

end Ingress
end Rmnet
end MarbleModules
