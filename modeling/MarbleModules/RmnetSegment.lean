import MarbleModules.RmnetDeaggregate

/-! Segmenting a coalesced frame: the headers of the frame are walked once, then the
packets it holds are handed on in as few descriptors as the checksum errors, the packet
lengths and GRO allow. -/
namespace MarbleModules
namespace Rmnet

open FragDescriptor

/-- A big-endian 16-bit field. -/
def be16 (bs : List UInt8) (k : ℕ) : ℕ := (bs.getD k 0).toNat*256+(bs.getD (k+1) 0).toNat

/-- A big-endian 32-bit field. -/
def be32 (bs : List UInt8) (k : ℕ) : ℕ := be16 bs k*65536+be16 bs (k+2)

/-- `struct rmnet_map_v5_nl_pair`: so many packets of one length. -/
structure NlPair where
  pktLen : ℕ
  numPackets : ℕ
  deriving DecidableEq

/-- `struct rmnet_map_v5_coal_header`; the error bitmaps arrive as one mask. -/
structure CoalHeader where
  numNlos : ℕ
  csumValid : Bool
  closeType : ℕ
  closeValue : ℕ
  nlPairs : List NlPair
  deriving DecidableEq

/-- `RMNET_MAP_V5_MAX_NLOS` -/
def maxNlos : ℕ := 6

def nlPair (bs : List UInt8) (i : ℕ) : NlPair where
  pktLen := be16 bs (4+4*i)
  numPackets := (bs.getD (4+4*i+3) 0).toNat

/-- The bit fields of the coalescing header. -/
def coalHeader (bs : List UInt8) : CoalHeader where
  numNlos := (bs.getD 1 0).toNat/16%8
  csumValid := (bs.getD 1 0).toNat.testBit 7
  closeType := (bs.getD 2 0).toNat%16
  closeValue := (bs.getD 2 0).toNat/16
  nlPairs := (List.range maxNlos).map (nlPair bs)

/-- `RMNET_MAP_COAL_CLOSE_HW` -/
def closeTypeHw : ℕ := 3
/-- `RMNET_MAP_COAL_CLOSE_COAL` -/
def closeTypeCoal : ℕ := 4
/-- `RMNET_MAP_COAL_CLOSE_HW_PKT` -/
def closeHwPkt : ℕ := 1
/-- `RMNET_MAP_COAL_CLOSE_HW_BYTE` -/
def closeHwByte : ℕ := 2
/-- `RMNET_MAP_COAL_CLOSE_HW_TIME` -/
def closeHwTime : ℕ := 3

/-- `rmnet_map_v5_csum_buggy` -/
def csumBuggy (hdr : CoalHeader) : Bool :=
  if hdr.numNlos ≠ 1 ∨ (hdr.nlPairs.getD 0 ⟨0,0⟩).numPackets ≠ 1 then false
  else if hdr.closeType = closeTypeCoal then true
  else hdr.closeType = closeTypeHw ∧ (hdr.closeValue = closeHwPkt ∨
    hdr.closeValue = closeHwByte ∨ hdr.closeValue = closeHwTime)

/-! ## The headers of the packet -/

def ipprotoTcp : ℕ := 6
def ipprotoUdp : ℕ := 17

/-- `NEXTHDR_FRAGMENT`, `NEXTHDR_AUTH` and `NEXTHDR_NONE` -/
def nexthdrFragment : ℕ := 44
def nexthdrAuth : ℕ := 51
def nexthdrNone : ℕ := 59

/-- `ipv6_ext_hdr`: hop-by-hop, routing, fragment, authentication, none, destination. -/
def ipv6ExtHdr (nexthdr : ℕ) : Bool :=
  nexthdr ∈ [0,43,nexthdrFragment,nexthdrAuth,nexthdrNone,60]

/-- The length of an extension header, from its type and its length byte. -/
def extHdrLen (nexthdr hdrlen : ℕ) : ℕ :=
  if nexthdr = nexthdrFragment then 8
  else if nexthdr = nexthdrAuth then (hdrlen+2)*4
  else (hdrlen+1)*8

/-- What `rmnet_frag_ipv6_skip_exthdr` carries through its loop and gives back. -/
structure Exthdrs where
  start : ℕ
  nexthdr : ℕ
  fragOff : ℕ
  fragHdr : Bool
  deriving DecidableEq

/-- The fragment field of the header at `start`; unchanged for the other headers. -/
def readFragOff (d : FragDescriptor) (s : Exthdrs) : Option Exthdrs :=
  if s.nexthdr = nexthdrFragment then
    (headerPtr d (s.start+2) 2).map fun fp => { s with fragOff := be16 fp 0, fragHdr := true }
  else some s

theorem extHdrLen_pos (nexthdr hdrlen : ℕ) : 0 < extHdrLen nexthdr hdrlen := by
  unfold extHdrLen
  split_ifs <;> omega

theorem readFragOff_start {d : FragDescriptor} {s s' : Exthdrs}
    (h : readFragOff d s = some s') : s'.start = s.start := by
  unfold readFragOff at h
  split_ifs at h
  · obtain ⟨fp,-,rfl⟩ := Option.map_eq_some_iff.mp h
    rfl
  · rw [Option.some.inj h]

theorem headerPtr_fits {d : FragDescriptor} {off len : ℕ} {bs : List UInt8}
    (h : headerPtr d off len = some bs) : off+len ≤ d.len := by
  by_contra hlt
  rw [headerPtr_none (by omega)] at h
  cases h

/-- `rmnet_frag_ipv6_skip_exthdr`; `none` is `-EINVAL`. -/
def ipv6SkipExthdr (d : FragDescriptor) (s : Exthdrs) : Option Exthdrs :=
  if ipv6ExtHdr s.nexthdr then
    if s.nexthdr = nexthdrNone then none
    else
      match _hp : headerPtr d s.start 2 with
      | none => none
      | some hp =>
        match _hf : readFragOff d s with
        | none => none
        | some s' =>
          -- a later fragment of a packet has no transport header to look for
          if s.nexthdr = nexthdrFragment ∧ s'.fragOff/8 ≠ 0 then some s'
          else ipv6SkipExthdr d { s' with
            start := s'.start+extHdrLen s.nexthdr (hp.getD 1 0).toNat
            nexthdr := (hp.getD 0 0).toNat }
  else some s
termination_by d.len-s.start
decreasing_by
  have hfits := headerPtr_fits _hp
  have hl := extHdrLen_pos s.nexthdr (hp.getD 1 0).toNat
  simp only [readFragOff_start _hf]
  omega

/-- The switch on the IP version: the descriptor with the IP fields filled in, and
whether GRO may still coalesce. `none` when the frame is dropped. -/
def networkHeader (d : FragDescriptor) (gro : Bool) : Option (FragDescriptor × Bool) :=
  match dataPtr d with
  | none => none
  | some data =>
    if data.getD 0 0 &&& 0xF0 = 0x40 then
      match headerPtr d 0 20 with
      | none => none
      | some iph =>
        let ihl := (iph.getD 0 0).toNat%16
        some ({ d with ipProto := 4, ipLen := ihl*4, transProto := (iph.getD 9 0).toNat },
          gro && ihl == 5)
    else if data.getD 0 0 &&& 0xF0 = 0x60 then
      match headerPtr d 0 40 with
      | none => none
      | some ip6h =>
        match ipv6SkipExthdr d ⟨40,(ip6h.getD 6 0).toNat,0,false⟩ with
        | none => none
        | some s =>
          if s.fragOff ≠ 0 then none
          else
            let ipLen := s.start%2^16
            some ({ d with ipProto := 6, ipLen := ipLen, transProto := s.nexthdr },
              gro && !s.fragHdr && !decide (40 < ipLen))
    else none

/-- The switch on the transport protocol: the descriptor with the length of the header,
and whether it is a UDP header over IPv4 without a checksum. -/
def transportHeader (d : FragDescriptor) : Option (FragDescriptor × Bool) :=
  if d.transProto = ipprotoTcp then
    (headerPtr d d.ipLen 20).map fun th =>
      ({ d with transLen := (th.getD 12 0).toNat/16*4 },false)
  else if d.transProto = ipprotoUdp then
    (headerPtr d d.ipLen 8).map fun uh =>
      ({ d with transLen := 8 },d.ipProto == 4 && be16 uh 6 == 0)
  else none

/-- What the walk over the headers leaves behind. -/
structure Walked where
  coalDesc : FragDescriptor
  gro : Bool
  zeroCsum : Bool
  deriving DecidableEq

/-- The header part of `rmnet_frag_segment_coal_data`. -/
def walkHeaders (d : FragDescriptor) (gro : Bool) : Option Walked :=
  match networkHeader d gro with
  | none => none
  | some (d,gro) =>
    match transportHeader d with
    | none => none
    | some (d,zeroCsum) =>
      some ⟨{ d with
        hdrsValid := true
        coalBytes := d.len
        coalBufsize := d.coalBufsize+(d.frags.map fun f => f.page.length).sum },gro,zeroCsum⟩

/-! ## The checksum in software -/

/-- The 16-bit words of a buffer, added up; an odd byte is padded with a zero. -/
def wordSum : List UInt8 → ℕ
  | [] => 0
  | [b] => b.toNat*256
  | b::c::bs => b.toNat*256+c.toNat+wordSum bs

/-- `rmnet_frag_validate_csum`: pseudo header and datagram fold to all ones. The
datagram is read from the first fragment's page. -/
def validateCsum (d : FragDescriptor) : Bool :=
  match dataPtr d with
  | none => false
  | some data =>
    let datagramLen := d.len-d.ipLen
    let addresses :=
      if d.ipProto = 4 then (data.drop 12).take 8 else (data.drop 8).take 32
    let pseudo := wordSum addresses+datagramLen+d.transProto
    let sum := wordSum ((data.drop d.ipLen).take datagramLen)+pseudo
    sum != 0 && sum%65535 == 0

/-! ## Cutting off a segment -/

/-- The state of `rmnet_frag_segment_coal_data` while it cuts the frame up. -/
structure Segmenting where
  coalDesc : FragDescriptor
  port : Port
  list : List FragDescriptor
  totalPkt : ℕ
  nloErrMask : ℕ

/-- The transport part of the segment's metadata, and its checksum status. -/
def segmentTransport (coalDesc newDesc : FragDescriptor) (offset dlen : ℕ)
    (csumValid : Bool) : Option (FragDescriptor × Bool) :=
  if coalDesc.transProto = ipprotoTcp then
    (headerPtr coalDesc coalDesc.ipLen 20).map fun th =>
      let newDesc := { newDesc with
        tcpSeqSet := true
        tcpSeq := (be32 th 4+coalDesc.dataOffset)%2^32 }
      let flags := th.getD 13 0
      if (flags.toNat.testBit 0 ∨ flags.toNat.testBit 3) ∧ offset+dlen < coalDesc.len then
        -- FIN and PSH are taken out of the flag word
        ({ newDesc with
          tcpFlagsSet := true
          tcpFlags := (th.getD 12 0).toNat*256+(flags &&& 0xF6).toNat },csumValid)
      else (newDesc,csumValid)
  else if coalDesc.transProto = ipprotoUdp then
    (headerPtr coalDesc coalDesc.ipLen 8).map fun uh =>
      (newDesc,csumValid || (coalDesc.ipProto == 4 && be16 uh 6 == 0))
  else some (newDesc,csumValid)

/-- The IPv4 part of the segment's metadata. -/
def segmentNetwork (coalDesc newDesc : FragDescriptor) : Option FragDescriptor :=
  if coalDesc.ipProto = 4 then
    (headerPtr coalDesc 0 20).map fun iph =>
      { newDesc with ipIdSet := true, ipId := (be16 iph 4+coalDesc.pktId)%2^16 }
  else some newDesc

/-- The segment built into a fresh descriptor; `none` when it is recycled again. -/
def newSegment (coalDesc : FragDescriptor) (csumValid : Bool) : Option FragDescriptor :=
  let dlen := coalDesc.gsoSize*coalDesc.gsoSegs
  let hlen := coalDesc.ipLen+coalDesc.transLen
  let offset := hlen+coalDesc.dataOffset
  match addFragsFrom { coalDesc with frags := [], len := 0 } coalDesc 0 hlen with
  | none => none
  | some newDesc =>
    match addFragsFrom newDesc coalDesc offset dlen with
    | none => none
    | some newDesc =>
      match segmentTransport coalDesc newDesc offset dlen csumValid with
      | none => none
      | some (newDesc,csumValid) =>
        (segmentNetwork coalDesc newDesc).map fun newDesc =>
          { newDesc with csumValid := csumValid }

/-- `__rmnet_frag_segment_data` -/
def segmentData (s : Segmenting) (pktId : ℕ) (csumValid : Bool) : Segmenting :=
  let got := getFragDescriptor s.port
  match newSegment s.coalDesc csumValid with
  | none => { s with port := recycleFragDescriptor got.2 }
  | some newDesc =>
    { s with
      coalDesc := { s.coalDesc with
        dataOffset := (s.coalDesc.dataOffset+s.coalDesc.gsoSize*s.coalDesc.gsoSegs)%2^16
        pktId := (pktId+1)%2^8
        gsoSegs := 0
        coalBytes := 0
        coalBufsize := 0 }
      port := got.2
      list := s.list++[newDesc] }

/-! ## The loops -/

def Segmenting.setSegs (s : Segmenting) (n : ℕ) : Segmenting :=
  { s with coalDesc := { s.coalDesc with gsoSegs := n } }

/-- The good packets seen so far, if any, are cut off. -/
def flushSegs (s : Segmenting) : Segmenting :=
  if s.coalDesc.gsoSegs ≠ 0 then segmentData s s.totalPkt true else s

/-- What is done with one packet. -/
def takePacket (gro : Bool) (s : Segmenting) : Segmenting :=
  let csumErr := s.nloErrMask.testBit 0
  if gro = false then segmentData (s.setSegs 1) s.totalPkt (!csumErr)
  else if csumErr then segmentData ((flushSegs s).setSegs 1) s.totalPkt false
  else s.setSegs ((s.coalDesc.gsoSegs+1)%2^16)

/-- The loop over the packets of one NLO. -/
def takePackets (gro : Bool) : ℕ → Segmenting → Segmenting
  | 0,s => s
  | n+1,s =>
    let s := takePacket gro s
    takePackets gro n { s with
      totalPkt := (s.totalPkt+1)%2^8
      nloErrMask := s.nloErrMask >>> 1 }

/-- The payload length of the packets of an NLO, in 16 bits. -/
def gsoSizeOf (d : FragDescriptor) (p : NlPair) : ℕ :=
  (p.pktLen+2^16-(d.ipLen+d.transLen)%2^16)%2^16

/-- One turn of the loop over the NLOs. -/
def takeNlo (gro : Bool) (s : Segmenting) (p : NlPair) : Segmenting :=
  let s := { s with coalDesc := { s.coalDesc with gsoSize := gsoSizeOf s.coalDesc p } }
  flushSegs (takePackets gro p.numPackets s)

/-- The frame is passed on as it is. -/
def passWhole (s : Segmenting) (hdr : CoalHeader) (csumValid : Bool) : Segmenting :=
  let p := hdr.nlPairs.getD 0 ⟨0,0⟩
  let d := { s.coalDesc with
    csumValid := csumValid
    gsoSize := gsoSizeOf s.coalDesc p
    gsoSegs := p.numPackets }
  { s with coalDesc := d, list := s.list++[d] }

/-- `rmnet_frag_segment_coal_data` -/
def segmentCoalData (coalDesc : FragDescriptor) (nloErrMask : ℕ) (port : Port)
    (list : List FragDescriptor) (gro : Bool) : Segmenting :=
  let failed : Segmenting := ⟨coalDesc,port,list,0,nloErrMask⟩
  match copyData coalDesc mapHeaderSize v5CoalHeaderSize with
  | none => failed
  | some bs =>
    let hdr := coalHeader bs
    match pull coalDesc (mapHeaderSize+v5CoalHeaderSize) with
    | none => { failed with port := recycleFragDescriptor port }
    | some coalDesc =>
      match walkHeaders coalDesc gro with
      | none => { failed with coalDesc := coalDesc }  -- dropped: the caller recycles it
      | some w =>
        let s : Segmenting := ⟨w.coalDesc,port,list,0,nloErrMask⟩
        if csumBuggy hdr && !w.zeroCsum then
          passWhole s hdr (w.coalDesc.csumValid || validateCsum w.coalDesc)
        else if w.gro && hdr.numNlos == 1 && hdr.csumValid then passWhole s hdr true
        else (hdr.nlPairs.take hdr.numNlos).foldl (takeNlo w.gro) s

end Rmnet
end MarbleModules
