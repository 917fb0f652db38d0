import MarbleModules.OnesComplement
import MarbleModules.RmnetSegmentHeaders

/-! The other receive path: a coalesced frame that arrives as an skb is cut into skbs, whose
headers are written out at once. -/
namespace MarbleModules
namespace Rmnet

open OnesComplement

inductive IpSummed
  | checksumNone | checksumUnnecessary | checksumPartial
  deriving DecidableEq

inductive GsoType
  | tcpv4 | tcpv6 | udpL4
  deriving DecidableEq

/-- The fields of an skb that this path uses. `data` are the bytes from the data pointer on; in
a page they may go on behind the packet, which has `len` bytes. -/
structure MapSkb where
  data : List UInt8
  len : ℕ
  priority : ℕ := 0
  ipSummed : IpSummed := .checksumNone
  csumStart : ℕ := 0
  csumOffset : ℕ := 0
  gsoType : Option GsoType := none
  gsoSize : ℕ := 0
  gsoSegs : ℕ := 0
  deriving DecidableEq

/-- `pskb_pull`; a packet that is too short stays as it is. -/
def pskbPull (skb : MapSkb) (n : ℕ) : MapSkb :=
  if n ≤ skb.len then { skb with data := skb.data.drop n, len := skb.len-n } else skb

/-! ## Header fields and checksums -/

def setBe16 (bs : List UInt8) (k v : ℕ) : List UInt8 :=
  (bs.set k (UInt8.ofNat (v/256))).set (k+1) (UInt8.ofNat v)

def setBe32 (bs : List UInt8) (k v : ℕ) : List UInt8 :=
  setBe16 (setBe16 bs k (v/65536)) (k+2) (v%65536)

/-- A sum of 16-bit words folded into 16 bits; only the empty sum folds to zero. -/
def foldSum (n : ℕ) : ℕ := if n = 0 then 0 else (n-1)%65535+1

/-- `csum_fold` -/
def csumFold (n : ℕ) : ℕ := complement (2^16) (foldSum n)

/-- `~csum_tcpudp_magic` and `~csum_ipv6_magic`: the folded sum of the pseudo header. -/
def pseudoHeader (data : List UInt8) (ipProto len transProto : ℕ) : ℕ :=
  let addresses :=
    if ipProto = 4 then (data.drop 12).take 8 else (data.drop 8).take 32
  foldSum (wordSum addresses+len+transProto)

/-- `ip_fast_csum` -/
def ipFastCsum (iph : List UInt8) (ihl : ℕ) : ℕ := csumFold (wordSum (iph.take (ihl*4)))

/-- `csum16_add` -/
def csum16Add (csum addend : ℕ) : ℕ := carryAdd (2^16) csum addend

/-- Where the checksum stands in the transport header. -/
def checkOffset (transProto : ℕ) : ℕ := if transProto = ipprotoTcp then 16 else 6

/-! ## The metadata -/

/-- `struct rmnet_map_coal_metadata`; a header pointer is the bytes it points to. -/
structure CoalMetadata where
  ipHeader : List UInt8 := []
  transHeader : List UInt8 := []
  ipLen : ℕ := 0
  transLen : ℕ := 0
  dataOffset : ℕ := 0
  dataLen : ℕ := 0
  ipProto : ℕ := 0
  transProto : ℕ := 0
  pktId : ℕ := 0
  pktCount : ℕ := 0
  deriving DecidableEq

namespace CoalMetadata

def hlen (m : CoalMetadata) : ℕ := m.ipLen+m.transLen
def dlen (m : CoalMetadata) : ℕ := m.dataLen*m.pktCount

end CoalMetadata

/-- `rmnet_map_gso_stamp` -/
def gsoStamp (skb : MapSkb) (m : CoalMetadata) : MapSkb :=
  { skb with
    gsoType := some (if m.transProto = ipprotoTcp then
      if m.ipProto = 4 then .tcpv4 else .tcpv6 else .udpL4)
    gsoSize := m.dataLen
    gsoSegs := m.pktCount }

/-- `rmnet_map_partial_csum` -/
def partialCsum (skb : MapSkb) (m : CoalMetadata) : MapSkb :=
  let pktLen := (skb.len+2^16-m.ipLen)%2^16
  let check := pseudoHeader skb.data m.ipProto pktLen m.transProto
  { skb with
    data := setBe16 skb.data (m.ipLen+checkOffset m.transProto) check
    csumOffset := checkOffset m.transProto
    ipSummed := .checksumPartial
    csumStart := m.ipLen }

/-- The actual checksum and one more, which is never right. -/
def fakeBadCsum (skb : MapSkb) (m : CoalMetadata) : MapSkb :=
  let off := m.ipLen+checkOffset m.transProto
  let pseudo := pseudoHeader skb.data m.ipProto (skb.len-m.ipLen) m.transProto
  let csum := wordSum ((setBe16 skb.data off pseudo).drop m.ipLen)
  { skb with
    data := setBe16 skb.data off (csum16Add (csumFold csum) 1)
    ipSummed := .checksumNone }

/-- `rmnet_map_validate_csum` -/
def validateSkbCsum (skb : MapSkb) (m : CoalMetadata) : Bool :=
  let datagramLen := skb.len-m.ipLen
  let pseudo := pseudoHeader skb.data m.ipProto datagramLen m.transProto
  csumFold (wordSum ((skb.data.drop m.ipLen).take datagramLen)+pseudo) == 0

/-! ## One segment -/

/-- `rmnet_map_nonlinear_copy`: the bytes that become the payload. -/
def nonlinearCopy (coalSkb : MapSkb) (m : CoalMetadata) : List UInt8 :=
  (coalSkb.data.drop (m.hlen+m.dataOffset)).take m.dlen

/-- The transport header in front of the payload, and whether it is a UDP header over IPv4
without a checksum. -/
def pushTransport (coalSkb : MapSkb) (m : CoalMetadata) : List UInt8 × Bool :=
  let bs := m.transHeader.take m.transLen++nonlinearCopy coalSkb m
  if m.transProto = ipprotoTcp then
    let bs := setBe32 bs 4 ((be32 bs 4+m.dataOffset)%2^32)
    let flags := bs.getD 13 0
    if (flags.toNat.testBit 0 ∨ flags.toNat.testBit 3) ∧
        m.hlen+m.dataOffset+m.dlen < coalSkb.len then
      (bs.set 13 (flags &&& 0xF6),false)
    else (bs,false)
  else if m.transProto = ipprotoUdp then
    let bs := setBe16 bs 4 ((m.transLen+m.dlen)%2^16)
    (bs,m.ipProto == 4 && be16 bs 6 == 0)
  else (bs,false)

/-- The IP header in front of that. -/
def pushNetwork (m : CoalMetadata) (bs : List UInt8) : List UInt8 :=
  let len := m.hlen+m.dlen
  let bs := m.ipHeader.take m.ipLen++bs
  if m.ipProto = 4 then
    let bs := setBe16 bs 4 ((be16 bs 4+m.pktId)%2^16)
    let bs := setBe16 bs 2 (len%2^16)
    let bs := setBe16 bs 10 0
    setBe16 bs 10 (ipFastCsum bs ((bs.getD 0 0).toNat%16))
  else setBe16 bs 4 ((len+2^16-40)%2^16)

/-- The skb that holds the segment. -/
def newSegmentSkb (coalSkb : MapSkb) (m : CoalMetadata) (csumValid : Bool) : MapSkb :=
  let pushed := pushTransport coalSkb m
  let skbn : MapSkb := { data := pushNetwork m pushed.1, len := m.hlen+m.dlen }
  let skbn :=
    if csumValid || pushed.2 then partialCsum skbn m
    -- a protocol without a checksum field never gets here
    else if m.transProto = ipprotoTcp ∨ m.transProto = ipprotoUdp then fakeBadCsum skbn m
    else skbn
  let skbn := if 1 < m.pktCount then gsoStamp skbn m else skbn
  { skbn with priority := coalSkb.priority }

/-- The state of `rmnet_map_segment_coal_skb` while it cuts the frame up; `allocs` counts the
calls of `alloc_skb`. -/
structure SkbSegmenting where
  coalSkb : MapSkb
  coalMeta : CoalMetadata
  list : List MapSkb
  totalPkt : ℕ
  nloErrMask : ℕ
  allocs : ℕ := 0

section Code

-- whether the `n`th call of `alloc_skb` gives a buffer
variable (allocSkb : ℕ → Bool)

/-- `__rmnet_map_segment_coal_skb` -/
def segmentSkb (s : SkbSegmenting) (pktId : ℕ) (csumValid : Bool) : SkbSegmenting :=
  if allocSkb s.allocs = false then { s with allocs := s.allocs+1 }
  else
    { s with
      coalMeta := { s.coalMeta with
        dataOffset := (s.coalMeta.dataOffset+s.coalMeta.dlen)%2^16
        pktId := (pktId+1)%2^8
        pktCount := 0 }
      list := s.list++[newSegmentSkb s.coalSkb s.coalMeta csumValid]
      allocs := s.allocs+1 }

def SkbSegmenting.setCount (s : SkbSegmenting) (n : ℕ) : SkbSegmenting :=
  { s with coalMeta := { s.coalMeta with pktCount := n } }

/-- The good packets seen so far, if any, are cut off. -/
def flushSkbSegs (s : SkbSegmenting) : SkbSegmenting :=
  if s.coalMeta.pktCount ≠ 0 then segmentSkb allocSkb s s.totalPkt true else s

/-- What is done with one packet. -/
def takeSkbPacket (gro : Bool) (s : SkbSegmenting) : SkbSegmenting :=
  let csumErr := s.nloErrMask.testBit 0
  if gro = false then segmentSkb allocSkb (s.setCount 1) s.totalPkt (!csumErr)
  else if csumErr then
    segmentSkb allocSkb ((flushSkbSegs allocSkb s).setCount 1) s.totalPkt false
  else s.setCount ((s.coalMeta.pktCount+1)%2^8)

/-- The loop over the packets of one NLO. -/
def takeSkbPackets (gro : Bool) : ℕ → SkbSegmenting → SkbSegmenting
  | 0,s => s
  | n+1,s =>
    let s := takeSkbPacket allocSkb gro s
    takeSkbPackets gro n { s with
      totalPkt := (s.totalPkt+1)%2^8
      nloErrMask := s.nloErrMask >>> 1 }

/-- The payload length of the packets of an NLO, in 16 bits. -/
def dataLenOf (m : CoalMetadata) (p : NlPair) : ℕ := (p.pktLen+2^16-m.hlen%2^16)%2^16

/-- One turn of the loop over the NLOs. -/
def takeSkbNlo (gro : Bool) (s : SkbSegmenting) (p : NlPair) : SkbSegmenting :=
  let s := { s with coalMeta := { s.coalMeta with dataLen := dataLenOf s.coalMeta p } }
  flushSkbSegs allocSkb (takeSkbPackets allocSkb gro p.numPackets s)

-- `ipv6_skip_exthdr` on the skb, the offset and the type of the first header: what it returns,
-- the type it ends at and the fragment field
variable (ipv6SkipExthdr : MapSkb → ℕ → ℕ → ℤ × ℕ × ℕ)

/-- The switch on the IP version: the IP part of the metadata, and whether GRO may still
coalesce. `none` when the frame is dropped. -/
def networkMeta (coalSkb : MapSkb) (gro : Bool) : Option (CoalMetadata × Bool) :=
  let iph := coalSkb.data
  if byteAt iph 0/16 = 4 then
    some ({
      ipProto := 4
      ipLen := byteAt iph 0%16*4
      transProto := byteAt iph 9
      ipHeader := iph },gro && byteAt iph 0%16 == 5)
  else if byteAt iph 0/16 = 6 then
    let r := ipv6SkipExthdr coalSkb 40 (byteAt iph 6)
    -- the field is unsigned, so that a negative result passes for a length
    let ipLen := (r.1%2^16).toNat
    if r.2.2 ≠ 0 then none
    else
      some ({ ipProto := 6, ipLen := ipLen, transProto := r.2.1, ipHeader := iph },
        gro && !decide (40 < ipLen))
  else none

/-- The switch on the transport protocol: the whole metadata, and whether it is a UDP header
over IPv4 without a checksum. -/
def transportMeta (coalSkb : MapSkb) (m : CoalMetadata) : Option (CoalMetadata × Bool) :=
  let header := coalSkb.data.drop m.ipLen
  if m.transProto = ipprotoTcp then
    some ({ m with transLen := byteAt header 12/16*4, transHeader := header },false)
  else if m.transProto = ipprotoUdp then
    some ({ m with transLen := 8, transHeader := header },m.ipProto == 4 && be16 header 6 == 0)
  else none

/-- The frame is passed on as it is, the hardware's verdict being doubtful. Moving its headers
into the linear part does not change its bytes. -/
def passDoubted (s : SkbSegmenting) : SkbSegmenting :=
  let skb := s.coalSkb
  let skb := if validateSkbCsum skb s.coalMeta then
    { skb with ipSummed := .checksumUnnecessary } else skb
  { s with list := s.list++[skb] }

/-- The frame is passed on as it is, as one packet of several. -/
def passVouched (s : SkbSegmenting) (hdr : CoalHeader) : SkbSegmenting :=
  let p := hdr.nlPairs.getD 0 ⟨0,0⟩
  let m : CoalMetadata := { s.coalMeta with dataLen := dataLenOf s.coalMeta p, pktCount := p.numPackets }
  let skb := { s.coalSkb with ipSummed := .checksumUnnecessary }
  let skb := if 1 < m.pktCount then gsoStamp (partialCsum skb m) m else skb
  { s with coalMeta := m, list := s.list++[skb] }

/-- `rmnet_map_segment_coal_skb` -/
def segmentCoalSkb (coalSkb : MapSkb) (nloErrMask : ℕ) (list : List MapSkb) (gro : Bool) :
    List MapSkb :=
  let coalSkb := pskbPull coalSkb mapHeaderSize
  let hdr := coalHeader coalSkb.data
  let coalSkb := pskbPull coalSkb v5CoalHeaderSize
  match networkMeta ipv6SkipExthdr coalSkb gro with
  | none => list
  | some (m,gro) =>
    match transportMeta coalSkb m with
    | none => list
    | some (m,zeroCsum) =>
      let s : SkbSegmenting := ⟨coalSkb,m,list,0,nloErrMask,0⟩
      if csumBuggy hdr && !zeroCsum then (passDoubted s).list
      else if gro && hdr.numNlos == 1 && hdr.csumValid then (passVouched s hdr).list
      else ((hdr.nlPairs.take hdr.numNlos).foldl (takeSkbNlo allocSkb gro) s).list

end Code

end Rmnet
end MarbleModules
