import MarbleModules.RmnetSegmentHeaders

/-! What segmenting a coalesced frame hands on: the packets of the frame in groups, each
group with the original headers in front of its part of the payload. -/
namespace MarbleModules
namespace Rmnet

open FragDescriptor

/-! ## The packets of a frame -/

/-- A packet in a coalesced frame: its NLO, its bit of the error mask, its payload. -/
structure Packet where
  nlo : ℕ
  csumErr : Bool
  size : ℕ
  deriving DecidableEq

/-- The packets of one NLO, `k` packets of the frame being in front of them. -/
def nloPackets (hlen mask nlo k : ℕ) (p : NlPair) : List Packet :=
  (List.range p.numPackets).map fun i => ⟨nlo,mask.testBit (k+i),p.pktLen-hlen⟩

def packetsFrom (hlen mask : ℕ) : ℕ → ℕ → List NlPair → List Packet
  | _,_,[] => []
  | nlo,k,p::ps =>
    nloPackets hlen mask nlo k p++packetsFrom hlen mask (nlo+1) (k+p.numPackets) ps

/-- The NLOs that the header announces. -/
def CoalHeader.pairs (hdr : CoalHeader) : List NlPair := hdr.nlPairs.take hdr.numNlos

/-- All packets of the frame, in order. -/
def coalPackets (hdr : CoalHeader) (hlen mask : ℕ) : List Packet :=
  packetsFrom hlen mask 0 0 hdr.pairs

def sizes (ps : List Packet) : ℕ := (ps.map Packet.size).sum

@[simp] theorem sizes_nil : sizes [] = 0 := rfl

@[simp] theorem sizes_append (ps qs : List Packet) : sizes (ps++qs) = sizes ps+sizes qs := by
  simp [sizes]

@[simp] theorem sizes_singleton (p : Packet) : sizes [p] = p.size := by simp [sizes]

theorem sizes_const {ps : List Packet} {n : ℕ} (h : ∀ p ∈ ps, p.size = n) :
    sizes ps = n*ps.length := by
  induction ps with
  | nil => simp
  | cons p ps ih =>
    have hp := h p (by simp)
    have hps := ih fun q hq => h q (by simp [hq])
    simp only [sizes,List.map_cons,List.sum_cons,List.length_cons] at *
    rw [hps,hp,Nat.mul_succ,Nat.add_comm]

@[simp] theorem length_nloPackets (hlen mask nlo k : ℕ) (p : NlPair) :
    (nloPackets hlen mask nlo k p).length = p.numPackets := by simp [nloPackets]

theorem sizes_nloPackets (hlen mask nlo k : ℕ) (p : NlPair) :
    sizes (nloPackets hlen mask nlo k p) = (p.pktLen-hlen)*p.numPackets := by
  rw [sizes_const (n := p.pktLen-hlen),length_nloPackets]
  intro q hq
  obtain ⟨i,-,rfl⟩ := List.mem_map.mp hq
  rfl

theorem sizes_packetsFrom (hlen mask nlo k : ℕ) (ps : List NlPair) :
    sizes (packetsFrom hlen mask nlo k ps) =
      (ps.map fun p => (p.pktLen-hlen)*p.numPackets).sum := by
  induction ps generalizing nlo k with
  | nil => rfl
  | cons p ps ih => simp [packetsFrom,ih,sizes_nloPackets]

/-! ## What a segment says -/

/-- The sequence number that leaves with the packet: the header's, unless it is set. -/
def tcpSeqOf (e : FragDescriptor) : ℕ :=
  if e.tcpSeqSet then e.tcpSeq else be32 e.bytes (e.ipLen+4)

/-- The flag word that leaves with the packet. -/
def tcpFlagsOf (e : FragDescriptor) : ℕ :=
  if e.tcpFlagsSet then e.tcpFlags else be16 e.bytes (e.ipLen+12)

def fin (flags : ℕ) : Bool := flags.testBit 0
def psh (flags : ℕ) : Bool := flags.testBit 3

/-- The segment is the headers of the packet `bs` and `n` bytes of its payload from
`start` on; FIN and PSH are gone when payload follows. -/
structure Carries (bs : List UInt8) (h : PacketHeaders) (start n : ℕ) (e : FragDescriptor) :
    Prop where
  wf : e.Wf
  bytes : e.bytes = bs.take h.hlen++(bs.drop (h.hlen+start)).take n
  tcpSeq : h.transProto = ipprotoTcp → tcpSeqOf e = (be32 bs (h.ipLen+4)+start)%2^32
  cleared : h.transProto = ipprotoTcp → h.hlen+start+n < bs.length →
    fin (tcpFlagsOf e) = false ∧ psh (tcpFlagsOf e) = false

/-- Nothing is taken out of the flags when no payload follows. -/
def KeepsFlags (bs : List UInt8) (h : PacketHeaders) (start n : ℕ) (e : FragDescriptor) :
    Prop :=
  h.transProto = ipprotoTcp → bs.length ≤ h.hlen+start+n → tcpFlagsOf e = be16 bs (h.ipLen+12)

/-- The packets of a segment are of one NLO. -/
def OneNlo (g : List Packet) : Prop := ∃ nlo, ∀ p ∈ g, p.nlo = nlo

/-- The packets of a segment have one checksum status, and the segment has it too; a zero
UDP checksum is no error. -/
def OneStatus (zeroCsum : Bool) (g : List Packet) (e : FragDescriptor) : Prop :=
  ∃ err, (∀ p ∈ g, p.csumErr = err) ∧ e.csumValid = (!err || zeroCsum)

/-- The descriptors carry the groups of packets one after the other; `R` says how each
carries its group, given the payload in front of it. -/
inductive Cut (R : ℕ → List Packet → FragDescriptor → Prop) :
    List (List Packet) → List FragDescriptor → Prop
  | nil : Cut R [] []
  | snoc {groups : List (List Packet)} {ds : List FragDescriptor} {g : List Packet}
      {e : FragDescriptor} (h : Cut R groups ds) (hr : R (sizes groups.flatten) g e) :
      Cut R (groups++[g]) (ds++[e])

theorem Cut.imp {R S : ℕ → List Packet → FragDescriptor → Prop}
    {groups : List (List Packet)} {ds : List FragDescriptor} (h : Cut R groups ds)
    (hrs : ∀ start g e, R start g e → S start g e) : Cut S groups ds := by
  induction h with
  | nil => exact .nil
  | snoc h hr ih => exact .snoc ih (hrs _ _ _ hr)

/-- The last descriptor carries the last group. -/
theorem Cut.last {R : ℕ → List Packet → FragDescriptor → Prop}
    {groups : List (List Packet)} {ds : List FragDescriptor} (h : Cut R groups ds)
    {e : FragDescriptor} (he : ds.getLast? = some e) :
    ∃ start g, start+sizes g = sizes groups.flatten ∧ R start g e := by
  cases h with
  | nil => simp at he
  | @snoc groups ds g e' h hr =>
    have hee : e' = e := by simpa using he
    subst hee
    exact ⟨sizes groups.flatten,g,by simp,hr⟩

/-- What a segment carries behind the headers. -/
def piece (h : PacketHeaders) (e : FragDescriptor) : List UInt8 := e.bytes.drop h.hlen

theorem piece_carries {bs : List UInt8} {h : PacketHeaders} {start n : ℕ}
    {e : FragDescriptor} (hc : Carries bs h start n e) (hl : h.hlen ≤ bs.length) :
    piece h e = (bs.drop (h.hlen+start)).take n := by
  rw [piece,hc.bytes,List.drop_append_of_le_length (by simp [hl])]
  rw [List.drop_of_length_le (by simp),List.nil_append]

/-- The pieces put together are the payload as far as it is cut. -/
theorem Cut.pieces {bs : List UInt8} {h : PacketHeaders} (hl : h.hlen ≤ bs.length)
    {groups : List (List Packet)} {ds : List FragDescriptor}
    (hc : Cut (fun start g e => Carries bs h start (sizes g) e) groups ds) :
    (ds.map (piece h)).flatten = (bs.drop h.hlen).take (sizes groups.flatten) := by
  induction hc with
  | nil => simp
  | snoc hc hr ih =>
    simp only [List.map_append,List.map_cons,List.map_nil,List.flatten_append,
      List.flatten_cons,List.flatten_nil,List.append_nil,sizes_append]
    rw [ih,piece_carries hr hl,List.take_add,List.drop_drop]

/-! ## One segment -/

/-- Between the segments only the position in the frame changes. -/
def Positioned (base d : FragDescriptor) : Prop :=
  d = { base with
    dataOffset := d.dataOffset
    gsoSize := d.gsoSize
    gsoSegs := d.gsoSegs
    pktId := d.pktId
    coalBytes := d.coalBytes
    coalBufsize := d.coalBufsize }

/-- The frame after the walk over its headers. -/
structure Base (base : FragDescriptor) (h : PacketHeaders) : Prop where
  wf : base.Wf
  packeted : Packeted base.bytes h
  ipProto : base.ipProto = h.ipProto
  ipLen : base.ipLen = h.ipLen
  transProto : base.transProto = h.transProto
  transLen : base.transLen = h.transLen
  tcpSeqSet : base.tcpSeqSet = false
  tcpFlagsSet : base.tcpFlagsSet = false

theorem Base.positioned {base d : FragDescriptor} {h : PacketHeaders} (hb : Base base h)
    (hp : Positioned base d) : Base d h ∧ d.bytes = base.bytes := by
  unfold Positioned at hp
  have hbytes : d.bytes = base.bytes := by rw [hp]; rfl
  refine ⟨⟨?_,hbytes ▸ hb.packeted,?_,?_,?_,?_,?_,?_⟩,hbytes⟩
  · rw [hp]
    exact ⟨hb.wf.fits,hb.wf.len⟩
  · rw [hp]; exact hb.ipProto
  · rw [hp]; exact hb.ipLen
  · rw [hp]; exact hb.transProto
  · rw [hp]; exact hb.transLen
  · rw [hp]; exact hb.tcpSeqSet
  · rw [hp]; exact hb.tcpFlagsSet

/-- The headers and the piece are put together, all else being as in the frame. -/
theorem addFrags_segment {d : FragDescriptor} {h : PacketHeaders} (hb : Base d h) {n : ℕ}
    (hn : h.hlen+d.dataOffset+n ≤ d.bytes.length) :
    ∃ e₁ e, addFragsFrom { d with frags := [], len := 0 } d 0 (d.ipLen+d.transLen) = some e₁ ∧
      addFragsFrom e₁ d (d.ipLen+d.transLen+d.dataOffset) n = some e ∧ e.Wf ∧ SameMeta d e ∧
      e.bytes = d.bytes.take h.hlen++(d.bytes.drop (h.hlen+d.dataOffset)).take n := by
  have hlen := hb.wf.length_bytes
  have hh : d.ipLen+d.transLen = h.hlen := by rw [hb.ipLen,hb.transLen,PacketHeaders.hlen]
  rw [hh]
  have hw₀ : Wf { d with frags := [], len := 0 } := wf_empty _ rfl rfl
  obtain ⟨e₁,h₁,hbytes₁,hw₁,hm₁⟩ := addFragsFrom_spec hw₀ hb.wf
    (show 0+h.hlen ≤ d.len by omega)
  obtain ⟨e,he,hbytes,hw,hm⟩ := addFragsFrom_spec hw₁ hb.wf
    (show h.hlen+d.dataOffset+n ≤ d.len by omega)
  have hm' : SameMeta d e := (hm₁.trans hm)
  refine ⟨e₁,e,h₁,he,hw,hm',?_⟩
  rw [hbytes,hbytes₁]
  simp [bytes]

/-- The flag word with FIN and PSH taken out has neither. -/
theorem fin_psh_cleared (x b : UInt8) :
    fin (x.toNat*256+(b &&& 0xF6).toNat) = false ∧
      psh (x.toNat*256+(b &&& 0xF6).toNat) = false := by
  have hbit (k : ℕ) (hk : k < 8) :
      (x.toNat*256+(b &&& 0xF6).toNat).testBit k = (b.toNat &&& 0xF6).testBit k := by
    have hlt : (b &&& 0xF6).toNat < 2^8 := UInt8.toNat_lt _
    rw [Nat.mul_comm,Nat.testBit_two_pow_mul_add x.toNat hlt,if_pos hk]
    rfl
  refine ⟨?_,?_⟩
  · rw [fin,hbit 0 (by omega),Nat.testBit_and]
    simp
  · rw [psh,hbit 3 (by omega),Nat.testBit_and]
    rw [show (0xF6 : ℕ).testBit 3 = false by decide,Bool.and_false]

/-- FIN and PSH are in the low byte of the flag word. -/
theorem testBit_be16 (bs : List UInt8) (k : ℕ) {i : ℕ} (hi : i < 8) :
    (be16 bs k).testBit i = (bs.getD (k+1) 0).toNat.testBit i := by
  have hlt : (bs.getD (k+1) 0).toNat < 2^8 := UInt8.toNat_lt _
  rw [be16,Nat.mul_comm,Nat.testBit_two_pow_mul_add _ hlt,if_pos hi]

/-- The headers of a segment are those of the packet. -/
theorem be16_header {bs rest : List UInt8} {n k : ℕ} (hk : k+1 < n) (hn : n ≤ bs.length) :
    be16 (bs.take n++rest) k = be16 bs k := by
  have hl : (bs.take n).length = n := by simp [hn]
  rw [be16,be16,getD_append _ (by omega),getD_append _ (by omega),getD_take (by omega),
    getD_take hk]

/-- The transport part of a TCP segment. -/
theorem segmentTransport_tcp {d e : FragDescriptor} {h : PacketHeaders} (hb : Base d h)
    (hm : SameMeta d e) {n : ℕ} (ht : h.transProto = ipprotoTcp) (hw : e.Wf)
    (hbytes : e.bytes = d.bytes.take h.hlen++(d.bytes.drop (h.hlen+d.dataOffset)).take n)
    (csumValid : Bool) :
    ∃ e', segmentTransport d e (d.ipLen+d.transLen+d.dataOffset) n csumValid =
        some (e',csumValid) ∧ Carries d.bytes h d.dataOffset n e' ∧
      KeepsFlags d.bytes h d.dataOffset n e' := by
  have hlen := hb.wf.length_bytes
  have hcov := hb.packeted.covered
  have hdesc : d.ipLen+d.transLen = h.hlen := by rw [hb.ipLen,hb.transLen,PacketHeaders.hlen]
  have h20 : 20 ≤ h.transLen := by
    cases hb.packeted.transport with
    | tcp _ _ hm => exact hm
    | udp hu _ => rw [hu] at ht; cases ht
  have hhl : h.ipLen+20 ≤ h.hlen := by rw [PacketHeaders.hlen]; omega
  have hth := readHeader hb.wf d.ipLen 20 (by rw [hb.ipLen]; omega)
  have hi : e.ipLen = h.ipLen := by
    have hh : e.ipLen = d.ipLen := by rw [hm]
    rw [hh,hb.ipLen]
  have hset : e.tcpFlagsSet = false := by
    have hh : e.tcpFlagsSet = d.tcpFlagsSet := by rw [hm]
    rw [hh,hb.tcpFlagsSet]
  have hown : be16 e.bytes (h.ipLen+12) = be16 d.bytes (h.ipLen+12) := by
    rw [hbytes,be16_header (by omega) hcov]
  rw [segmentTransport,hb.transProto,if_pos ht,hth,Option.map_some,hdesc,hlen.symm]
  rw [getD_slice (by omega),getD_slice (by omega),be32_slice (by omega),hb.ipLen]
  -- the flags of the header are those of the low byte of the flag word
  have hfin : (d.bytes.getD (h.ipLen+13) 0).toNat.testBit 0 = fin (be16 d.bytes (h.ipLen+12)) :=
    (testBit_be16 _ _ (by omega)).symm
  have hpsh : (d.bytes.getD (h.ipLen+13) 0).toNat.testBit 3 = psh (be16 d.bytes (h.ipLen+12)) :=
    (testBit_be16 _ _ (by omega)).symm
  by_cases hc : ((d.bytes.getD (h.ipLen+13) 0).toNat.testBit 0 = true ∨
      (d.bytes.getD (h.ipLen+13) 0).toNat.testBit 3 = true) ∧
        h.hlen+d.dataOffset+n < d.bytes.length
  · simp only [if_pos hc]
    refine ⟨_,rfl,⟨⟨hw.fits,hw.len⟩,hbytes,?_,?_⟩,?_⟩
    · intro _
      simp [tcpSeqOf]
    · intro _ _
      simp only [tcpFlagsOf,if_true]
      exact fin_psh_cleared _ _
    · intro _ hle
      omega
  · simp only [if_neg hc]
    have hflags : tcpFlagsOf { e with
        tcpSeqSet := true
        tcpSeq := (be32 d.bytes (h.ipLen+4)+d.dataOffset)%2^32 } =
          be16 d.bytes (h.ipLen+12) := by
      simp only [tcpFlagsOf,hset,hi]
      exact hown
    refine ⟨_,rfl,⟨⟨hw.fits,hw.len⟩,hbytes,?_,?_⟩,?_⟩
    · intro _
      simp [tcpSeqOf]
    · intro _ hlt
      rw [hflags]
      rw [hfin,hpsh] at hc
      simpa [hlt] using hc
    · intro _ _
      exact hflags

/-- The segment with the packet's headers, its piece, and the checksum status asked for. -/
theorem newSegment_spec {d : FragDescriptor} {h : PacketHeaders} (hb : Base d h)
    (hn : h.hlen+d.dataOffset+d.gsoSize*d.gsoSegs ≤ d.bytes.length) (csumValid : Bool) :
    ∃ e, newSegment d csumValid = some e ∧
      Carries d.bytes h d.dataOffset (d.gsoSize*d.gsoSegs) e ∧
      KeepsFlags d.bytes h d.dataOffset (d.gsoSize*d.gsoSegs) e ∧
      e.csumValid = (csumValid || zeroCsum d.bytes h) := by
  obtain ⟨e₁,e,h₁,he,hw,hm,hbytes⟩ := addFrags_segment hb hn
  have hcov := hb.packeted.covered
  rw [PacketHeaders.hlen] at hcov
  obtain ⟨e',ht,hc,hk⟩ : ∃ e', segmentTransport d e (d.ipLen+d.transLen+d.dataOffset)
      (d.gsoSize*d.gsoSegs) csumValid = some (e',csumValid || zeroCsum d.bytes h) ∧
        Carries d.bytes h d.dataOffset (d.gsoSize*d.gsoSegs) e' ∧
        KeepsFlags d.bytes h d.dataOffset (d.gsoSize*d.gsoSegs) e' := by
    cases hb.packeted.transport with
    | tcp ht hl hlt =>
      have hz : zeroCsum d.bytes h = false := by
        rw [zeroCsum,ht]
        rfl
      rw [hz,Bool.or_false]
      exact segmentTransport_tcp hb hm ht hw hbytes csumValid
    | udp ht hl =>
      have hne : ¬h.transProto = ipprotoTcp := by
        rw [ht]
        decide
      have huh := readHeader hb.wf d.ipLen 8 (by rw [hb.ipLen]; omega)
      refine ⟨e,?_,⟨hw,hbytes,fun hh => absurd hh hne,fun hh => absurd hh hne⟩,
        fun hh => absurd hh hne⟩
      rw [segmentTransport,hb.transProto,if_neg hne,if_pos ht,huh,Option.map_some,
        be16_slice (by omega),hb.ipLen,hb.ipProto,zeroCsum,ht]
      rfl
  simp only [newSegment,h₁,he,ht]
  rw [segmentNetwork]
  split_ifs with h4
  · have h20 : 20 ≤ d.bytes.length := by
      cases hb.packeted.ip with
      | ipv4 _ hl _ _ _ _ => exact hl
      | ipv6 _ _ hp _ _ => rw [hb.ipProto,hp] at h4; cases h4
    rw [readHeader hb.wf 0 20 (by omega)]
    exact ⟨_,rfl,⟨⟨hc.wf.fits,hc.wf.len⟩,hc.bytes,hc.tcpSeq,hc.cleared⟩,hk,rfl⟩
  · exact ⟨_,rfl,⟨⟨hc.wf.fits,hc.wf.len⟩,hc.bytes,hc.tcpSeq,hc.cleared⟩,hk,rfl⟩

/-! ## The loops -/

/-- How a segment carries its packets when the frame is cut up. -/
structure Segment (bs : List UInt8) (h : PacketHeaders) (start : ℕ) (g : List Packet)
    (e : FragDescriptor) : Prop where
  carries : Carries bs h start (sizes g) e
  flags : KeepsFlags bs h start (sizes g) e
  nlo : OneNlo g
  status : OneStatus (zeroCsum bs h) g e

/-- Where the loops stand: `groups` is cut off, `pending` are the good packets of the
present NLO that wait to be cut off. -/
structure Standing (base : FragDescriptor) (h : PacketHeaders) (list : List FragDescriptor)
    (groups : List (List Packet)) (pending : List Packet) (s : Segmenting) : Prop where
  positioned : Positioned base s.coalDesc
  dataOffset : s.coalDesc.dataOffset = sizes groups.flatten
  gsoSegs : s.coalDesc.gsoSegs = pending.length
  good : ∃ nlo, ∀ p ∈ pending, p = ⟨nlo,false,s.coalDesc.gsoSize⟩
  cut : ∃ ds, s.list = list++ds ∧ Cut (Segment base.bytes h) groups ds

/-- The packet length and the mask stay as they are while a segment is cut off. -/
def SameLoop (s s' : Segmenting) : Prop :=
  s'.coalDesc.gsoSize = s.coalDesc.gsoSize ∧ s'.nloErrMask = s.nloErrMask

section Loops

variable {base : FragDescriptor} {h : PacketHeaders} {list : List FragDescriptor}

theorem Standing.sizes_pending {groups : List (List Packet)} {pending : List Packet}
    {s : Segmenting} (hs : Standing base h list groups pending s) :
    sizes pending = s.coalDesc.gsoSize*s.coalDesc.gsoSegs := by
  obtain ⟨nlo,hg⟩ := hs.good
  rw [hs.gsoSegs]
  exact sizes_const fun p hp => by rw [hg p hp]

/-- Cutting off the packets `g` that `gsoSegs` and `gsoSize` describe. -/
theorem segmentData_standing (hb : Base base h) {groups : List (List Packet)}
    {g : List Packet} {s : Segmenting} {csumValid : Bool} {pktId : ℕ}
    (hp : Positioned base s.coalDesc) (ho : s.coalDesc.dataOffset = sizes groups.flatten)
    (hg : sizes g = s.coalDesc.gsoSize*s.coalDesc.gsoSegs)
    (hl : h.hlen+sizes groups.flatten+sizes g ≤ base.bytes.length)
    (hn : OneNlo g) (he : ∀ p ∈ g, p.csumErr = !csumValid)
    (hc : ∃ ds, s.list = list++ds ∧ Cut (Segment base.bytes h) groups ds) :
    Standing base h list (groups++[g]) [] (segmentData s pktId csumValid) ∧
      SameLoop s (segmentData s pktId csumValid) := by
  obtain ⟨hbd,hbytes⟩ := hb.positioned hp
  have hshort := hb.packeted.short
  obtain ⟨e,hnew,hcar,hk,hcsum⟩ := newSegment_spec hbd (by rw [hbytes,ho,← hg]; exact hl)
    csumValid
  rw [hbytes,ho,← hg] at hcar hk
  rw [hbytes] at hcsum
  obtain ⟨ds,hlist,hcut⟩ := hc
  have hseg : Segment base.bytes h (sizes groups.flatten) g e :=
    ⟨hcar,hk,hn,!csumValid,he,by rw [hcsum,Bool.not_not]⟩
  simp only [segmentData,hnew]
  refine ⟨⟨?_,?_,rfl,⟨0,by simp⟩,ds++[e],?_,.snoc hcut hseg⟩,rfl,rfl⟩
  · unfold Positioned at hp ⊢
    rw [hp]
  · simp only [← hg,ho,List.flatten_append,List.flatten_cons,List.flatten_nil,List.append_nil,
      sizes_append]
    exact Nat.mod_eq_of_lt (by omega)
  · simp [hlist]

/-- After a flush nothing is pending. -/
theorem flushSegs_standing (hb : Base base h) {groups : List (List Packet)}
    {pending : List Packet} {s : Segmenting} (hs : Standing base h list groups pending s)
    (hl : h.hlen+sizes (groups.flatten++pending) ≤ base.bytes.length) :
    ∃ groups', groups'.flatten = groups.flatten++pending ∧
      Standing base h list groups' [] (flushSegs s) ∧ SameLoop s (flushSegs s) := by
  rw [flushSegs]
  split_ifs with h0
  · obtain ⟨nlo,hg⟩ := hs.good
    rw [sizes_append] at hl
    exact ⟨groups++[pending],by simp,segmentData_standing hb hs.positioned hs.dataOffset
      hs.sizes_pending (by omega) ⟨nlo,fun p hp => by rw [hg p hp]⟩
      (fun p hp => by rw [hg p hp]; rfl) hs.cut⟩
  · have hp : pending = [] := List.eq_nil_of_length_eq_zero (by rw [← hs.gsoSegs]; omega)
    subst hp
    exact ⟨groups,by simp,hs,rfl,rfl⟩

/-- A single packet cut off when nothing is pending. -/
theorem segmentOne_standing (hb : Base base h) {groups : List (List Packet)} {p : Packet}
    {s : Segmenting} (pktId : ℕ) (hs : Standing base h list groups [] s)
    (hg : p.size = s.coalDesc.gsoSize)
    (hl : h.hlen+sizes (groups.flatten++[p]) ≤ base.bytes.length) :
    Standing base h list (groups++[[p]]) [] (segmentData (s.setSegs 1) pktId (!p.csumErr)) ∧
      SameLoop s (segmentData (s.setSegs 1) pktId (!p.csumErr)) := by
  have hpos : Positioned base (s.setSegs 1).coalDesc := by
    have hh := hs.positioned
    unfold Positioned at hh
    rw [Segmenting.setSegs,hh]
    rfl
  rw [sizes_append] at hl
  exact segmentData_standing hb hpos hs.dataOffset (by simp [hg,Segmenting.setSegs])
    (by omega) ⟨p.nlo,by simp⟩ (by simp) hs.cut

/-- The packets treated so far, in groups and pending; nothing waits without GRO. -/
def Progress (base : FragDescriptor) (h : PacketHeaders) (list : List FragDescriptor)
    (mask : ℕ) (gro : Bool) (nlo : ℕ) (done : List Packet) (s : Segmenting) : Prop :=
  ∃ groups pending, groups.flatten++pending = done ∧
    Standing base h list groups pending s ∧
    (∀ p ∈ pending, p.nlo = nlo) ∧ (gro = false → pending = []) ∧
    s.nloErrMask = mask >>> done.length

/-- One packet joins those that wait, or it is cut off, with those before it first. -/
theorem takePacket_standing (hb : Base base h) {gro : Bool} {nlo : ℕ}
    {groups : List (List Packet)} {pending : List Packet} {s : Segmenting}
    (hs : Standing base h list groups pending s) (hn : ∀ p ∈ pending, p.nlo = nlo)
    (hgro : gro = false → pending = []) (hlt : pending.length < 2^16-1) {p : Packet}
    (hp : p = ⟨nlo,s.nloErrMask.testBit 0,s.coalDesc.gsoSize⟩)
    (hl : h.hlen+sizes (groups.flatten++pending++[p]) ≤ base.bytes.length) :
    ∃ groups' pending', groups'.flatten++pending' = groups.flatten++pending++[p] ∧
      Standing base h list groups' pending' (takePacket gro s) ∧
      (∀ q ∈ pending', q.nlo = nlo) ∧ (gro = false → pending' = []) ∧
      SameLoop s (takePacket gro s) := by
  have hsize : p.size = s.coalDesc.gsoSize := by rw [hp]
  have herr : p.csumErr = s.nloErrMask.testBit 0 := by rw [hp]
  have hl' : h.hlen+sizes (groups.flatten++pending) ≤ base.bytes.length := by
    rw [sizes_append] at hl
    omega
  rw [takePacket]
  split_ifs with hg he
  · rw [hgro hg,List.append_nil] at hl ⊢
    rw [hgro hg] at hs
    rw [← herr]
    obtain ⟨hs',hsame⟩ := segmentOne_standing hb s.totalPkt hs hsize hl
    exact ⟨groups++[[p]],[],by simp,hs',by simp,fun _ => rfl,hsame⟩
  · obtain ⟨groups₁,hf,hs₁,hsz,hm⟩ := flushSegs_standing hb hs hl'
    rw [← hf] at hl ⊢
    have hh := segmentOne_standing hb s.totalPkt hs₁ (hsize.trans hsz.symm) hl
    rw [herr,he,Bool.not_true] at hh
    obtain ⟨hs',hsz',hm'⟩ := hh
    exact ⟨groups₁++[[p]],[],by simp,hs',by simp,fun _ => rfl,hsz'.trans hsz,hm'.trans hm⟩
  · refine ⟨groups,pending++[p],by simp,⟨?_,hs.dataOffset,?_,⟨nlo,?_⟩,hs.cut⟩,?_,
      fun hh => absurd hh hg,rfl,rfl⟩
    · have hh := hs.positioned
      unfold Positioned at hh
      rw [Segmenting.setSegs,hh]
      rfl
    · simp only [Segmenting.setSegs,List.length_append,List.length_singleton,hs.gsoSegs]
      exact Nat.mod_eq_of_lt (by omega)
    · obtain ⟨nlo',hgood⟩ := hs.good
      intro q hq
      rcases List.mem_append.mp hq with hq|hq
      · have hqn := hn q hq
        have hqe := hgood q hq
        rw [hqe] at hqn
        rw [hqe,← hqn]
        rfl
      · rw [List.mem_singleton.mp hq,hp]
        simp only [Bool.not_eq_true] at he
        rw [he]
        rfl
    · intro q hq
      rcases List.mem_append.mp hq with hq|hq
      · exact hn q hq
      · rw [List.mem_singleton.mp hq,hp]

/-- One turn of the loop treats one more packet. -/
theorem Progress.takePacket (hb : Base base h) {mask : ℕ} {gro : Bool} {nlo size : ℕ}
    {done : List Packet} {s : Segmenting} (hs : Progress base h list mask gro nlo done s)
    (hsize : s.coalDesc.gsoSize = size) (hn : done.length < 2^16-1)
    (hl : h.hlen+sizes done+size ≤ base.bytes.length) :
    Progress base h list mask gro nlo (done++[⟨nlo,mask.testBit done.length,size⟩])
        { takePacket gro s with
          totalPkt := ((takePacket gro s).totalPkt+1)%2^8
          nloErrMask := (takePacket gro s).nloErrMask >>> 1 } ∧
      (takePacket gro s).coalDesc.gsoSize = size := by
  obtain ⟨groups,pending,hdone,hst,hpn,hgro,hmask⟩ := hs
  have hbit : s.nloErrMask.testBit 0 = mask.testBit done.length := by
    rw [hmask,Nat.testBit_shiftRight,Nat.add_zero]
  have hpl : pending.length ≤ done.length := by simp [← hdone]
  obtain ⟨groups',pending',hdone',hst',hpn',hgro',hsz,hm⟩ :=
    takePacket_standing hb hst hpn hgro (by omega) rfl
      (by simp only [hdone,sizes_append,sizes_singleton,hsize]; omega)
  rw [hdone,hbit,hsize] at hdone'
  refine ⟨⟨groups',pending',hdone',⟨hst'.positioned,hst'.dataOffset,hst'.gsoSegs,hst'.good,
    hst'.cut⟩,hpn',hgro',?_⟩,hsz.trans hsize⟩
  rw [List.length_append,List.length_singleton,Nat.shiftRight_add,← hmask,← hm]

/-- The loop over the packets of an NLO treats them one after the other. -/
theorem takePackets_progress (hb : Base base h) {mask : ℕ} {gro : Bool} {nlo size : ℕ}
    (n : ℕ) {done : List Packet} {s : Segmenting} (hs : Progress base h list mask gro nlo done s)
    (hsize : s.coalDesc.gsoSize = size) (hn : done.length+n < 2^16)
    (hl : h.hlen+sizes done+size*n ≤ base.bytes.length) :
    Progress base h list mask gro nlo
      (done++(List.range n).map fun i => ⟨nlo,mask.testBit (done.length+i),size⟩)
      (takePackets gro n s) := by
  induction n generalizing done s with
  | zero => simpa [takePackets] using hs
  | succ n ih =>
    rw [Nat.mul_succ] at hl
    obtain ⟨hpr,hsz⟩ := hs.takePacket hb hsize (by omega) (by omega)
    have hih := ih hpr hsz (by simp; omega) (by simp; omega)
    rw [List.range_succ_eq_map]
    simpa [takePackets,Nat.add_assoc,Nat.add_comm 1,Function.comp_def] using hih

/-- The packets treated so far are all cut off. -/
def Clean (base : FragDescriptor) (h : PacketHeaders) (list : List FragDescriptor)
    (mask : ℕ) (done : List Packet) (s : Segmenting) : Prop :=
  ∃ groups, groups.flatten = done ∧ Standing base h list groups [] s ∧
    s.nloErrMask = mask >>> done.length

theorem gsoSizeOf_eq {d : FragDescriptor} (hb : Base d h) {p : NlPair}
    (hp : h.hlen ≤ p.pktLen) (hlt : p.pktLen < 2^16) : gsoSizeOf d p = p.pktLen-h.hlen := by
  have hh : d.ipLen+d.transLen = h.hlen := by rw [hb.ipLen,hb.transLen,PacketHeaders.hlen]
  rw [gsoSizeOf,hh]
  omega

/-- A whole NLO is treated and nothing of it stays behind. -/
theorem takeNlo_clean (hb : Base base h) {mask : ℕ} (gro : Bool) (nlo : ℕ) {p : NlPair}
    {done : List Packet} {s : Segmenting} (hs : Clean base h list mask done s)
    (hp : h.hlen ≤ p.pktLen) (hlt : p.pktLen < 2^16) (hn : done.length+p.numPackets < 2^16)
    (hl : h.hlen+sizes done+(p.pktLen-h.hlen)*p.numPackets ≤ base.bytes.length) :
    Clean base h list mask (done++nloPackets h.hlen mask nlo done.length p)
      (takeNlo gro s p) := by
  obtain ⟨groups,hdone,hst,hmask⟩ := hs
  have hsize := gsoSizeOf_eq (hb.positioned hst.positioned).1 hp hlt
  have hpr : Progress base h list mask gro nlo done
      { s with coalDesc := { s.coalDesc with gsoSize := gsoSizeOf s.coalDesc p } } := by
    refine ⟨groups,[],by simp [hdone],⟨?_,hst.dataOffset,hst.gsoSegs,⟨0,by simp⟩,hst.cut⟩,
      by simp,fun _ => rfl,hmask⟩
    have hh := hst.positioned
    unfold Positioned at hh ⊢
    rw [hh]
  obtain ⟨groups₁,pending,hdone₁,hst₁,-,-,hmask₁⟩ :=
    takePackets_progress hb p.numPackets hpr hsize hn hl
  have hsizes : sizes (groups₁.flatten++pending) =
      sizes done+(p.pktLen-h.hlen)*p.numPackets := by
    rw [hdone₁,sizes_append]
    exact congrArg _ (sizes_nloPackets h.hlen mask nlo done.length p)
  obtain ⟨groups₂,hdone₂,hst₂,-,hmask₂⟩ := flushSegs_standing hb hst₁ (by rw [hsizes]; omega)
  exact ⟨groups₂,hdone₂.trans hdone₁,hst₂,hmask₂.trans hmask₁⟩

/-- All NLOs are treated, one after the other. -/
theorem takeNlos_clean (hb : Base base h) {mask : ℕ} (gro : Bool) (ps : List NlPair)
    (nlo : ℕ) {done : List Packet} {s : Segmenting} (hs : Clean base h list mask done s)
    (hp : ∀ p ∈ ps, h.hlen ≤ p.pktLen ∧ p.pktLen < 2^16)
    (hn : done.length+(ps.map NlPair.numPackets).sum < 2^16)
    (hl : h.hlen+sizes done+(ps.map fun p => (p.pktLen-h.hlen)*p.numPackets).sum ≤
      base.bytes.length) :
    Clean base h list mask (done++packetsFrom h.hlen mask nlo done.length ps)
      (ps.foldl (takeNlo gro) s) := by
  induction ps generalizing nlo done s with
  | nil => simpa [packetsFrom] using hs
  | cons p ps ih =>
    simp only [List.map_cons,List.sum_cons] at hn hl
    have hpp := hp p (by simp)
    have hs₁ := takeNlo_clean hb gro nlo hs hpp.1 hpp.2 (by omega) (by omega)
    have hih := ih (nlo+1) hs₁ (fun q hq => hp q (by simp [hq])) (by simp; omega)
      (by rw [sizes_append,sizes_nloPackets]; omega)
    rw [List.length_append,length_nloPackets,List.append_assoc] at hih
    exact hih

end Loops

/-! ## The whole frame -/

/-- The coalescing header of a frame. -/
def frameHeader (d : FragDescriptor) : CoalHeader :=
  coalHeader ((d.bytes.drop mapHeaderSize).take v5CoalHeaderSize)

/-- The coalesced packet behind the QMAP headers. -/
def framePacket (d : FragDescriptor) : List UInt8 :=
  d.bytes.drop (mapHeaderSize+v5CoalHeaderSize)

/-- A frame whose header and packet lengths agree: none is shorter than the headers, and all
together are the payload. -/
structure Framed (d : FragDescriptor) (h : PacketHeaders) : Prop where
  wf : d.Wf
  solid : Solid d
  fresh : SameMeta { priority := d.priority } d
  packeted : Packeted (framePacket d) h
  nlos : 1 ≤ (frameHeader d).numNlos ∧ (frameHeader d).numNlos ≤ maxNlos
  pktLens : ∀ p ∈ (frameHeader d).pairs, h.hlen ≤ p.pktLen
  cover : h.hlen+((frameHeader d).pairs.map fun p => (p.pktLen-h.hlen)*p.numPackets).sum =
    (framePacket d).length

/-- A coalesced frame as it comes from deaggregation: one to six NLOs, at most 48 packets,
none shorter than the headers, all together the payload. -/
structure Coalesced (d : FragDescriptor) (h : PacketHeaders) : Prop where
  wf : d.Wf
  solid : Solid d
  fresh : SameMeta { priority := d.priority } d
  packeted : Packeted (framePacket d) h
  nlos : 1 ≤ (frameHeader d).numNlos ∧ (frameHeader d).numNlos ≤ maxNlos
  pktLens : ∀ p ∈ (frameHeader d).pairs, h.hlen ≤ p.pktLen
  packets : ((frameHeader d).pairs.map NlPair.numPackets).sum ≤ 48
  cover : h.hlen+((frameHeader d).pairs.map fun p => (p.pktLen-h.hlen)*p.numPackets).sum =
    (framePacket d).length

theorem Coalesced.framed {d : FragDescriptor} {h : PacketHeaders} (hc : Coalesced d h) :
    Framed d h :=
  ⟨hc.wf,hc.solid,hc.fresh,hc.packeted,hc.nlos,hc.pktLens,hc.cover⟩

theorem be16_lt (bs : List UInt8) (k : ℕ) : be16 bs k < 2^16 := by
  have h₁ : (bs.getD k 0).toNat < 2^8 := UInt8.toNat_lt _
  have h₂ : (bs.getD (k+1) 0).toNat < 2^8 := UInt8.toNat_lt _
  rw [be16]
  omega

theorem be32_lt (bs : List UInt8) (k : ℕ) : be32 bs k < 2^32 := by
  have h₁ := be16_lt bs k
  have h₂ := be16_lt bs (k+2)
  rw [be32]
  omega

theorem pktLen_lt {bs : List UInt8} {p : NlPair} (hp : p ∈ (coalHeader bs).pairs) :
    p.pktLen < 2^16 := by
  obtain ⟨i,-,rfl⟩ := List.mem_map.mp (List.mem_of_mem_take hp)
  exact be16_lt _ _

theorem pullLoop_solid {fs : List Fragment} (h : ∀ f ∈ fs, 0 < f.size) (n : ℕ) :
    ∀ f ∈ (pullLoop fs n).1, 0 < f.size := by
  induction fs generalizing n with
  | nil => simp [pullLoop]
  | cons f fs ih =>
    have hfs : ∀ g ∈ fs, 0 < g.size := fun g hg => h g (by simp [hg])
    simp only [pullLoop]
    split_ifs with h0 h1
    · exact h
    · exact ih hfs _
    · intro g hg
      rcases List.mem_cons.mp hg with rfl|hg
      · change 0 < f.size-n
        omega
      · exact hfs g hg

theorem pull_solid {d e : FragDescriptor} {n : ℕ} (h : pull d n = some e) (hs : Solid d) :
    Solid e := by
  rw [pull] at h
  split_ifs at h
  rw [← Option.some.inj h]
  exact pullLoop_solid hs n

/-- What the header walk leaves of a coalesced frame. -/
theorem Framed.base {d : FragDescriptor} {h : PacketHeaders} (hc : Framed d h) :
    copyData d mapHeaderSize v5CoalHeaderSize =
        some ((d.bytes.drop mapHeaderSize).take v5CoalHeaderSize) ∧
      ∃ e, pull d (mapHeaderSize+v5CoalHeaderSize) = some e ∧
        (withHeaders e h).bytes = framePacket d ∧ SameMeta d e ∧
        Base (withHeaders e h) h ∧
        ∀ gro, walkHeaders e gro =
          some ⟨withHeaders e h,gro && h.plain,zeroCsum (framePacket d) h⟩ := by
  have hlen := hc.wf.length_bytes
  have hcov := hc.packeted.covered
  have htl : 0 < h.hlen := by
    rw [PacketHeaders.hlen]
    cases hc.packeted.transport with
    | tcp _ _ hm => omega
    | udp _ hl => omega
  rw [framePacket,List.length_drop] at hcov
  refine ⟨copyData_eq hc.wf (by omega),?_⟩
  obtain ⟨e,hpull,hbytes,hw,hm⟩ :=
    pull_spec hc.wf (show mapHeaderSize+v5CoalHeaderSize < d.len by omega)
  have hpk : Packeted e.bytes h := by
    rw [hbytes]
    exact hc.packeted
  have hm' : SameMeta { priority := d.priority } e := hc.fresh.trans hm
  refine ⟨e,hpull,hbytes,hm,⟨⟨hw.fits,hw.len⟩,hpk,rfl,rfl,rfl,rfl,?_,?_⟩,?_⟩
  · change e.tcpSeqSet = false
    rw [hm']
  · change e.tcpFlagsSet = false
    rw [hm']
  · intro gro
    rw [walkHeaders_eq hw (pull_solid hpull hc.solid) hpk gro,hbytes]
    rfl

theorem sizes_coalPackets {d : FragDescriptor} {h : PacketHeaders} (hc : Coalesced d h)
    (mask : ℕ) : h.hlen+sizes (coalPackets (frameHeader d) h.hlen mask) =
      (framePacket d).length := by
  rw [coalPackets,sizes_packetsFrom,hc.cover]

/-- A frame passed on as it is carries all its packets. -/
theorem whole_carries {base e : FragDescriptor} {h : PacketHeaders} (hb : Base base h)
    (he : e.frags = base.frags) (hl : e.len = base.len) (hi : e.ipLen = h.ipLen)
    (hs : e.tcpSeqSet = false) (hf : e.tcpFlagsSet = false) {n : ℕ}
    (hn : h.hlen+n = base.bytes.length) :
    Carries base.bytes h 0 n e ∧ KeepsFlags base.bytes h 0 n e := by
  have hbytes : e.bytes = base.bytes := by rw [bytes,he]; rfl
  refine ⟨⟨⟨?_,?_⟩,?_,?_,fun _ hlt => by omega⟩,?_⟩
  · rw [he]
    exact hb.wf.fits
  · rw [he,hl]
    exact hb.wf.len
  · have hrest : (base.bytes.drop h.hlen).take n = base.bytes.drop h.hlen :=
      List.take_of_length_le (by rw [List.length_drop]; omega)
    rw [hbytes,Nat.add_zero,hrest,List.take_append_drop]
  · intro _
    have hlt := be32_lt base.bytes (h.ipLen+4)
    simp only [tcpSeqOf,hs,hi,hbytes,Bool.false_eq_true,if_false]
    omega
  · intro _ _
    simp [tcpFlagsOf,hf,hi,hbytes]

/-- The hardware's checksum verdict on the frame is not to be trusted. -/
def Doubted (d : FragDescriptor) (h : PacketHeaders) : Bool :=
  csumBuggy (frameHeader d) && !zeroCsum (framePacket d) h

/-- The hardware vouches for all packets of the frame, and GRO may have it as it is. -/
def Vouched (d : FragDescriptor) (h : PacketHeaders) (gro : Bool) : Bool :=
  gro && h.plain && (frameHeader d).numNlos == 1 && (frameHeader d).csumValid

theorem oneNlo_coalPackets {hdr : CoalHeader} (hlen mask : ℕ) (h : hdr.numNlos = 1) :
    OneNlo (coalPackets hdr hlen mask) := by
  have hp : hdr.pairs = [] ∨ ∃ p, hdr.pairs = [p] := by
    rw [CoalHeader.pairs,h]
    cases hdr.nlPairs with
    | nil => exact .inl rfl
    | cons p ps => exact .inr ⟨p,rfl⟩
  refine ⟨0,?_⟩
  rcases hp with hp|⟨p,hp⟩
  · simp [coalPackets,hp,packetsFrom]
  · intro q hq
    simp only [coalPackets,hp,packetsFrom,List.append_nil] at hq
    obtain ⟨i,-,rfl⟩ := List.mem_map.mp hq
    rfl

theorem numNlos_doubted {d : FragDescriptor} {h : PacketHeaders} (hd : Doubted d h = true) :
    (frameHeader d).numNlos = 1 := by
  by_contra hne
  simp [Doubted,csumBuggy,hne] at hd

theorem numNlos_vouched {d : FragDescriptor} {h : PacketHeaders} {gro : Bool}
    (hd : Vouched d h gro = true) : (frameHeader d).numNlos = 1 := by
  simp only [Vouched,Bool.and_eq_true,beq_iff_eq] at hd
  exact hd.1.2

/-- `rmnet_frag_segment_coal_data` on a coalesced frame, its header walk done. -/
theorem segmentCoalData_eq {d e : FragDescriptor} {h : PacketHeaders}
    (hcopy : copyData d mapHeaderSize v5CoalHeaderSize =
      some ((d.bytes.drop mapHeaderSize).take v5CoalHeaderSize))
    (hpull : pull d (mapHeaderSize+v5CoalHeaderSize) = some e) {gro : Bool}
    (hwalk : walkHeaders e gro =
      some ⟨withHeaders e h,gro && h.plain,zeroCsum (framePacket d) h⟩)
    (mask : ℕ) (port : Port) (list : List FragDescriptor) :
    segmentCoalData d mask port list gro =
      let s : Segmenting := ⟨withHeaders e h,port,list,0,mask⟩
      if Doubted d h then
        passWhole s (frameHeader d) (e.csumValid || validateCsum (withHeaders e h))
      else if Vouched d h gro then passWhole s (frameHeader d) true
      else (frameHeader d).pairs.foldl (takeNlo (gro && h.plain)) s := by
  simp only [segmentCoalData,hcopy,hpull,hwalk]
  rfl

/-- What every way through the code has in common. -/
structure Delivered (bs : List UInt8) (h : PacketHeaders) (packets : List Packet)
    (groups : List (List Packet)) (ds : List FragDescriptor) : Prop where
  packets : groups.flatten = packets
  cut : Cut (fun start g e => Carries bs h start (sizes g) e ∧ OneNlo g) groups ds
  pieces : (ds.map (piece h)).flatten = bs.drop h.hlen
  last : ∀ e, ds.getLast? = some e → h.transProto = ipprotoTcp →
    tcpFlagsOf e = be16 bs (h.ipLen+12)

theorem Cut.delivered {bs : List UInt8} {h : PacketHeaders} {packets : List Packet}
    {groups : List (List Packet)} {ds : List FragDescriptor}
    (hc : Cut (fun start g e => Carries bs h start (sizes g) e ∧
      KeepsFlags bs h start (sizes g) e ∧ OneNlo g) groups ds)
    (hp : groups.flatten = packets) (hs : h.hlen+sizes packets = bs.length) :
    Delivered bs h packets groups ds where
  packets := hp
  cut := hc.imp fun _ _ _ hr => ⟨hr.1,hr.2.2⟩
  pieces := by
    have hcar := hc.imp fun _ _ _ hr => hr.1
    rw [hcar.pieces (by omega),hp,List.take_of_length_le (by rw [List.length_drop]; omega)]
  last e he ht := by
    obtain ⟨start,g,hsum,hr⟩ := hc.last he
    rw [hp] at hsum
    exact hr.2.1 ht (by omega)

/-- A frame of one NLO that is passed on as it is. -/
theorem passWhole_delivered {base : FragDescriptor} {h : PacketHeaders} (hb : Base base h)
    {hdr : CoalHeader} (h1 : hdr.numNlos = 1) {mask : ℕ}
    (hsz : h.hlen+sizes (coalPackets hdr h.hlen mask) = base.bytes.length) (port : Port)
    (list : List FragDescriptor) (csumValid : Bool) :
    ∃ e, (passWhole ⟨base,port,list,0,mask⟩ hdr csumValid).list = list++[e] ∧
      e.csumValid = csumValid ∧ validateCsum e = validateCsum base ∧
      Delivered base.bytes h (coalPackets hdr h.hlen mask) [coalPackets hdr h.hlen mask] [e] := by
  obtain ⟨hcar,hk⟩ := whole_carries hb (e := { base with
    csumValid := csumValid
    gsoSize := gsoSizeOf base (hdr.nlPairs.getD 0 ⟨0,0⟩)
    gsoSegs := (hdr.nlPairs.getD 0 ⟨0,0⟩).numPackets }) rfl rfl hb.ipLen hb.tcpSeqSet
      hb.tcpFlagsSet hsz
  refine ⟨_,rfl,rfl,rfl,Cut.delivered (Cut.snoc .nil ⟨hcar,hk,?_⟩) (by simp) hsz⟩
  exact oneNlo_coalPackets h.hlen mask h1

/-- Segmenting loses and reorders nothing. Every segment has the headers of the packet in
front of a contiguous piece of the payload; the pieces in order are the payload. The
checksum status is per packet, except for frames that are passed on as they are. -/
theorem segmentCoalData_delivers {d : FragDescriptor} {h : PacketHeaders} (hc : Coalesced d h)
    (nloErrMask : ℕ) (port : Port) (list : List FragDescriptor) (gro : Bool) :
    ∃ groups ds, (segmentCoalData d nloErrMask port list gro).list = list++ds ∧
      Delivered (framePacket d) h (coalPackets (frameHeader d) h.hlen nloErrMask) groups ds ∧
      (if Doubted d h then ∃ e, ds = [e] ∧ e.csumValid = validateCsum e
        else if Vouched d h gro then ∃ e, ds = [e] ∧ e.csumValid = true
        else Cut (fun _ g e => OneStatus (zeroCsum (framePacket d) h) g e) groups ds) := by
  obtain ⟨hcopy,e,hpull,hbytes,hm,hb,hwalk⟩ := hc.framed.base
  have hsz := sizes_coalPackets hc nloErrMask
  have hfresh : SameMeta { priority := d.priority } e := hc.fresh.trans hm
  have hvalid : e.csumValid = false := by rw [hfresh]
  rw [segmentCoalData_eq hcopy hpull (hwalk gro) nloErrMask port list,← hbytes]
  rw [← hbytes] at hsz
  dsimp only
  by_cases hd : Doubted d h = true
  · obtain ⟨e',hlist,hv,hsw,hdel⟩ := passWhole_delivered hb (numNlos_doubted hd) hsz port list
      (e.csumValid || validateCsum (withHeaders e h))
    simp only [if_pos hd]
    exact ⟨_,_,hlist,hdel,e',rfl,by rw [hv,hsw,hvalid,Bool.false_or]⟩
  simp only [if_neg hd]
  by_cases hv : Vouched d h gro = true
  · obtain ⟨e',hlist,hval,-,hdel⟩ := passWhole_delivered hb (numNlos_vouched hv) hsz port list true
    simp only [if_pos hv]
    exact ⟨_,_,hlist,hdel,e',rfl,hval⟩
  simp only [if_neg hv]
  have hstart : Clean (withHeaders e h) h list nloErrMask []
      ⟨withHeaders e h,port,list,0,nloErrMask⟩ := by
    refine ⟨[],rfl,⟨rfl,?_,?_,⟨0,by simp⟩,[],by simp,.nil⟩,by simp⟩
    · change e.dataOffset = 0
      rw [hfresh]
    · change e.gsoSegs = 0
      rw [hfresh]
  obtain ⟨groups,hpk,hst,-⟩ := takeNlos_clean hb (gro && h.plain) (frameHeader d).pairs 0 hstart
    (fun p hp => ⟨hc.pktLens p hp,pktLen_lt hp⟩)
    (by have hh := hc.packets; simp only [List.length_nil]; omega)
    (by rw [hbytes,← hc.cover]; simp)
  obtain ⟨ds,hlist,hcut⟩ := hst.cut
  rw [List.nil_append] at hpk
  exact ⟨groups,ds,hlist,
    (hcut.imp fun _ _ _ hs => ⟨hs.carries,hs.flags,hs.nlo⟩).delivered hpk hsz,
    hcut.imp fun _ _ _ hs => hs.status⟩

/-- QMAP and coalescing headers for two TCP packets of two bytes and one of one byte, and
the packet headers with PSH set; the page ends within the TCP header. -/
def twoNloFrame : FragDescriptor where
  frags := [⟨[0,0,0,0]++[2,0x20,3,0]++[0,42,0,2]++[0,41,0,1]++List.replicate 16 0++
      [0x45,0,0,45,0,7,0,0,64,6,0,0,10,0,0,1,10,0,0,2]++[0,80,0,81],0,56⟩,
    ⟨[0,0,0,9,0,0,0,0,0x50,0x18,1,1,0,0,0,0]++[1,2,3,4,5],0,21⟩]
  len := 77

def tcpHeaders : PacketHeaders := ⟨4,20,6,20,true⟩

theorem coalesced_twoNloFrame : Coalesced twoNloFrame tcpHeaders where
  wf := ⟨by decide,by decide⟩
  solid := by decide
  fresh := rfl
  packeted := ⟨.ipv4 (by decide) (by decide) rfl (by decide) (by decide) (by decide),
    .tcp rfl (by decide) (by decide),by decide,by decide⟩
  nlos := by decide
  pktLens := by decide
  packets := by decide
  cover := by decide

theorem segmentCoalData_twoNlos :
    ∃ groups ds, (segmentCoalData twoNloFrame 2 cksumv5Port [] true).list = []++ds ∧
      Delivered (framePacket twoNloFrame) tcpHeaders
        (coalPackets (frameHeader twoNloFrame) tcpHeaders.hlen 2) groups ds ∧
      (if Doubted twoNloFrame tcpHeaders then ∃ e, ds = [e] ∧ e.csumValid = validateCsum e
        else if Vouched twoNloFrame tcpHeaders true then ∃ e, ds = [e] ∧ e.csumValid = true
        else Cut (fun _ g e =>
          OneStatus (zeroCsum (framePacket twoNloFrame) tcpHeaders) g e) groups ds) :=
  segmentCoalData_delivers coalesced_twoNloFrame 2 cksumv5Port [] true

example : (segmentCoalData twoNloFrame 2 cksumv5Port [] true).list.map
    (fun e => (piece tcpHeaders e,tcpSeqOf e,psh (tcpFlagsOf e),e.csumValid)) =
      [([1,2],9,false,true),([3,4],11,false,false),([5],13,true,true)] := by decide

/-- One UDP packet, closed for a reason that makes the hardware's verdict doubtful, with a
checksum that does not check out. -/
def doubtedFrame : FragDescriptor where
  frags := [⟨[0,0,0,0]++[2,0x10,4,0]++[0,30,0,1]++List.replicate 20 0++
    [0x45,0,0,30,0,7,0,0,64,17,0,0,10,0,0,1,10,0,0,2]++[0,53,0,54,0,10,18,52,1,2],0,62⟩]
  len := 62

def udpHeaders : PacketHeaders := ⟨4,20,17,8,true⟩

/-- No error bit is set, and the only segment is marked as invalid. -/
theorem segmentCoalData_doubted : Coalesced doubtedFrame udpHeaders ∧
    coalPackets (frameHeader doubtedFrame) udpHeaders.hlen 0 = [⟨0,false,2⟩] ∧
    zeroCsum (framePacket doubtedFrame) udpHeaders = false ∧
    (segmentCoalData doubtedFrame 0 cksumv5Port [] true).list.map
      (fun e => (piece udpHeaders e,e.csumValid)) = [([1,2],false)] := by
  refine ⟨⟨⟨by decide,by decide⟩,by decide,rfl,⟨.ipv4 (by decide) (by decide) rfl (by decide)
    (by decide) (by decide),.udp rfl rfl,by decide,by decide⟩,by decide,by decide,by decide,
    by decide⟩,by decide,by decide,by decide⟩

end Rmnet
end MarbleModules
