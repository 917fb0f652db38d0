import MarbleModules.RmnetIpId
import MarbleModules.RmnetMapSegment

/-! The ids on the skb path, and those of both paths together. -/
namespace MarbleModules
namespace Rmnet

open FragDescriptor

/-! ## Writing a field -/

theorem be16_setBe16 {bs : List UInt8} {k v : ℕ} (hk : k+1 < bs.length) (hv : v < 2^16) :
    be16 (setBe16 bs k v) k = v := by
  have hhigh : (UInt8.ofNat (v/256)).toNat = v/256 := by
    rw [UInt8.toNat_ofNat']
    omega
  have hlow : (UInt8.ofNat v).toNat = v%256 := UInt8.toNat_ofNat'
  rw [be16,setBe16]
  simp only [List.getD_eq_getElem?_getD,List.getElem?_set,List.length_set]
  rw [if_neg (by omega),if_pos trivial,if_pos (by omega),if_pos trivial,if_pos hk]
  simp only [Option.getD_some,hhigh,hlow]
  omega

theorem be16_setBe16_of_ne {bs : List UInt8} {k k' : ℕ} (v : ℕ) (h : k'+1 < k ∨ k+1 < k') :
    be16 (setBe16 bs k v) k' = be16 bs k' := by
  rw [be16,be16,setBe16]
  simp only [List.getD_eq_getElem?_getD,List.getElem?_set]
  rw [if_neg (by omega),if_neg (by omega),if_neg (by omega),if_neg (by omega)]

theorem drop_setBe16 {bs : List UInt8} {k n : ℕ} (v : ℕ) (h : k+1 < n) :
    (setBe16 bs k v).drop n = bs.drop n := by
  rw [setBe16,List.drop_set_of_lt (by omega),List.drop_set_of_lt (by omega)]

theorem drop_setBe32 {bs : List UInt8} {k n : ℕ} (v : ℕ) (h : k+3 < n) :
    (setBe32 bs k v).drop n = bs.drop n := by
  rw [setBe32,drop_setBe16 _ (by omega),drop_setBe16 _ (by omega)]

/-! ## One segment -/

/-- The metadata of an IPv4 packet whose headers lie in front of the payload. -/
structure MetaOf (coalSkb : MapSkb) (m : CoalMetadata) : Prop where
  ipHeader : m.ipHeader = coalSkb.data
  transHeader : m.transHeader = coalSkb.data.drop m.ipLen
  ipProto : m.ipProto = 4
  ipLen : 20 ≤ m.ipLen
  transProto : m.transProto = ipprotoTcp ∧ 20 ≤ m.transLen ∨
    m.transProto = ipprotoUdp ∧ 8 ≤ m.transLen
  covered : m.hlen ≤ coalSkb.data.length

variable {coalSkb : MapSkb} {m : CoalMetadata}

theorem MetaOf.checkOffset_lt (hm : MetaOf coalSkb m) :
    m.ipLen+checkOffset m.transProto+1 < m.hlen := by
  rw [CoalMetadata.hlen]
  rcases hm.transProto with ⟨ht,hl⟩|⟨ht,hl⟩
  · have hc : checkOffset m.transProto = 16 := by
      rw [ht]
      rfl
    omega
  · have hc : checkOffset m.transProto = 6 := by
      rw [ht]
      rfl
    omega

/-- The payload stands behind the transport header, whatever is written into that. -/
theorem pushTransport_drop (hm : MetaOf coalSkb m) :
    (pushTransport coalSkb m).1.drop m.transLen = nonlinearCopy coalSkb m := by
  have hlen : (m.transHeader.take m.transLen).length = m.transLen := by
    have hcov := hm.covered
    rw [CoalMetadata.hlen] at hcov
    rw [hm.transHeader,List.length_take,List.length_drop]
    omega
  have hdrop : (m.transHeader.take m.transLen++nonlinearCopy coalSkb m).drop m.transLen =
      nonlinearCopy coalSkb m := List.drop_left' hlen
  rw [pushTransport]
  dsimp only
  rcases hm.transProto with ⟨ht,hl⟩|⟨ht,hl⟩
  · rw [if_pos ht]
    split_ifs
    · rw [List.drop_set_of_lt (by omega),drop_setBe32 _ (by omega),hdrop]
    · rw [drop_setBe32 _ (by omega),hdrop]
  · have hne : ¬ m.transProto = ipprotoTcp := by
      rw [ht]
      decide
    rw [if_neg hne,if_pos ht,drop_setBe16 _ (by omega),hdrop]

/-- The IP header gets the frame's id and the packet counter, and the rest stays behind it. -/
theorem pushNetwork_spec (hm : MetaOf coalSkb m) (bs : List UInt8) :
    be16 (pushNetwork m bs) 4 = (be16 coalSkb.data 4+m.pktId)%2^16 ∧
      (pushNetwork m bs).drop m.ipLen = bs := by
  have hip := hm.ipLen
  have hcov := hm.covered
  rw [CoalMetadata.hlen] at hcov
  have hlen : (m.ipHeader.take m.ipLen).length = m.ipLen := by
    rw [hm.ipHeader,List.length_take]
    omega
  have hid : be16 (m.ipHeader.take m.ipLen++bs) 4 = be16 coalSkb.data 4 := by
    rw [hm.ipHeader,be16_header (by omega) (by omega)]
  rw [pushNetwork]
  dsimp only
  rw [if_pos hm.ipProto]
  constructor
  · rw [be16_setBe16_of_ne _ (by omega),be16_setBe16_of_ne _ (by omega),
      be16_setBe16_of_ne _ (by omega),be16_setBe16 (by rw [List.length_append]; omega)
        (Nat.mod_lt _ (by decide)),hid]
  · rw [drop_setBe16 _ (by omega),drop_setBe16 _ (by omega),drop_setBe16 _ (by omega),
      drop_setBe16 _ (by omega),List.drop_left' hlen]

/-- What is in the skb of a segment. -/
theorem newSegmentSkb_spec (hm : MetaOf coalSkb m) (csumValid : Bool) :
    be16 (newSegmentSkb coalSkb m csumValid).data 4 = (be16 coalSkb.data 4+m.pktId)%2^16 ∧
      ((newSegmentSkb coalSkb m csumValid).data.take
        (newSegmentSkb coalSkb m csumValid).len).drop m.hlen = nonlinearCopy coalSkb m ∧
      (newSegmentSkb coalSkb m csumValid).len = m.hlen+m.dlen ∧
      (newSegmentSkb coalSkb m csumValid).gsoSegs = if 1 < m.pktCount then m.pktCount else 0 := by
  obtain ⟨hid,hdrop⟩ := pushNetwork_spec hm (pushTransport coalSkb m).1
  have hpay : (pushNetwork m (pushTransport coalSkb m).1).drop m.hlen =
      nonlinearCopy coalSkb m := by
    rw [CoalMetadata.hlen,← List.drop_drop,hdrop,pushTransport_drop hm]
  have htake (bs : List UInt8) (hbs : bs.drop m.hlen = nonlinearCopy coalSkb m) :
      (bs.take (m.hlen+m.dlen)).drop m.hlen = nonlinearCopy coalSkb m := by
    rw [List.drop_take,hbs,Nat.add_sub_cancel_left,nonlinearCopy,List.take_take,Nat.min_self]
  have hck := hm.checkOffset_lt
  have hip := hm.ipLen
  have hproto : m.transProto = ipprotoTcp ∨ m.transProto = ipprotoUdp :=
    hm.transProto.imp And.left And.left
  -- the checksum is written behind the id and in front of the payload
  have hset (v : ℕ) (bs : List UInt8) :
      be16 (setBe16 bs (m.ipLen+checkOffset m.transProto) v) 4 = be16 bs 4 ∧
        (setBe16 bs (m.ipLen+checkOffset m.transProto) v).drop m.hlen = bs.drop m.hlen :=
    ⟨be16_setBe16_of_ne v (by omega),drop_setBe16 v hck⟩
  rw [newSegmentSkb]
  dsimp only
  split_ifs
  · exact ⟨(hset ..).1.trans hid,htake _ ((hset ..).2.trans hpay),rfl,rfl⟩
  · exact ⟨(hset ..).1.trans hid,htake _ ((hset ..).2.trans hpay),rfl,rfl⟩
  · exact ⟨(hset ..).1.trans hid,htake _ ((hset ..).2.trans hpay),rfl,rfl⟩
  · exact ⟨(hset ..).1.trans hid,htake _ ((hset ..).2.trans hpay),rfl,rfl⟩

/-! ## The loops -/

/-- A single packet leaves without GSO information. -/
def sentSkb (e : MapSkb) : Sent := ⟨be16 e.data 4,max 1 e.gsoSegs⟩

/-- The skb has the packets of the piece, from the payload at `offset` on. -/
structure CarriesSkb (bs : List UInt8) (hlen offset : ℕ) (x : Piece) (e : MapSkb) : Prop where
  gsoSegs : e.gsoSegs = if 1 < x.packets then x.packets else 0
  payload : (e.data.take e.len).drop hlen = (bs.drop (hlen+offset)).take (x.size*x.packets)
  len : e.len = hlen+x.size*x.packets

/-- The metadata with the place that the cutter has reached. -/
def CoalMetadata.placed (m : CoalMetadata) (c : Cutter) : CoalMetadata :=
  { m with
    dataOffset := c.dataOffset%2^16
    dataLen := c.size
    pktId := c.pktId
    pktCount := c.segs }

theorem MetaOf.placed (hm : MetaOf coalSkb m) (c : Cutter) : MetaOf coalSkb (m.placed c) :=
  ⟨hm.ipHeader,hm.transHeader,hm.ipProto,hm.ipLen,hm.transProto,hm.covered⟩

/-- The cutter has done what the loops have done. -/
structure SkbMirrors (coalSkb : MapSkb) (m : CoalMetadata) (list : List MapSkb)
    (s : SkbSegmenting) (c : Cutter) : Prop where
  frame : s.coalSkb = coalSkb
  placed : s.coalMeta = m.placed c
  totalPkt : s.totalPkt = c.totalPkt
  carried : ∃ ds, s.list = list++ds ∧ List.Forall₂ (fun x e =>
    sentSkb e = x.sent (be16 coalSkb.data 4) ∧
      CarriesSkb coalSkb.data m.hlen (x.offset%2^16) x e) c.out ds

section Loops

variable {allocSkb : ℕ → Bool} {list : List MapSkb} {s : SkbSegmenting} {c : Cutter}

theorem segmentSkb_mirrors (halloc : ∀ n, allocSkb n = true) (hm : MetaOf coalSkb m)
    (hs : SkbMirrors coalSkb m list s c) (h0 : c.segs ≠ 0) (csumValid : Bool) :
    SkbMirrors coalSkb m list (segmentSkb allocSkb s s.totalPkt csumValid)
      (c.cut c.totalPkt) := by
  obtain ⟨hid,hpay,hlen,hgso⟩ := newSegmentSkb_spec (hm.placed c) csumValid
  have hsent : sentSkb (newSegmentSkb coalSkb (m.placed c) csumValid) =
      ⟨(be16 coalSkb.data 4+c.pktId)%2^16,c.segs⟩ := by
    rw [sentSkb,hid,hgso]
    change Sent.mk _ (max 1 (if 1 < c.segs then c.segs else 0)) = Sent.mk _ c.segs
    congr 1
    split_ifs <;> omega
  obtain ⟨ds,hlist,hds⟩ := hs.carried
  rw [segmentSkb,if_neg (by rw [halloc]; decide),hs.frame,hs.placed]
  refine ⟨rfl,?_,hs.totalPkt,ds++[newSegmentSkb coalSkb (m.placed c) csumValid],?_,
    List.rel_append hds (.cons ⟨hsent,hgso,hpay,hlen⟩ .nil)⟩
  · have hoff : (c.dataOffset%2^16+c.size*c.segs)%2^16 = (c.dataOffset+c.size*c.segs)%2^16 :=
      Nat.mod_add_mod ..
    dsimp only [CoalMetadata.placed,CoalMetadata.dlen,Cutter.cut]
    rw [hoff,hs.totalPkt]
  · rw [hlist,List.append_assoc]

@[simp] theorem segmentSkb_totalPkt (s : SkbSegmenting) (pktId : ℕ) (csumValid : Bool) :
    (segmentSkb allocSkb s pktId csumValid).totalPkt = s.totalPkt := by
  rw [segmentSkb]
  split_ifs <;> rfl

@[simp] theorem segmentSkb_nloErrMask (s : SkbSegmenting) (pktId : ℕ) (csumValid : Bool) :
    (segmentSkb allocSkb s pktId csumValid).nloErrMask = s.nloErrMask := by
  rw [segmentSkb]
  split_ifs <;> rfl

theorem flushSkbSegs_frame (allocSkb : ℕ → Bool) (s : SkbSegmenting) :
    (flushSkbSegs allocSkb s).totalPkt = s.totalPkt ∧
      (flushSkbSegs allocSkb s).nloErrMask = s.nloErrMask := by
  rw [flushSkbSegs]
  split_ifs
  · exact ⟨segmentSkb_totalPkt ..,segmentSkb_nloErrMask ..⟩
  · exact ⟨rfl,rfl⟩

theorem flushSkbSegs_mirrors (halloc : ∀ n, allocSkb n = true) (hm : MetaOf coalSkb m)
    (hs : SkbMirrors coalSkb m list s c) :
    SkbMirrors coalSkb m list (flushSkbSegs allocSkb s) c.flush := by
  have hcount : s.coalMeta.pktCount = c.segs := by
    rw [hs.placed]
    rfl
  rw [flushSkbSegs,Cutter.flush,hcount]
  split_ifs with h0
  · exact segmentSkb_mirrors halloc hm hs h0 true
  · exact hs

theorem SkbMirrors.setCount (hs : SkbMirrors coalSkb m list s c) (n : ℕ) :
    SkbMirrors coalSkb m list (s.setCount n) (c.setSegs n) where
  frame := hs.frame
  placed := by
    rw [SkbSegmenting.setCount,hs.placed]
    rfl
  totalPkt := hs.totalPkt
  carried := hs.carried

theorem takeSkbPacket_mirrors (halloc : ∀ n, allocSkb n = true) (hm : MetaOf coalSkb m)
    (hs : SkbMirrors coalSkb m list s c) (gro : Bool) (p : Packet)
    (hp : p.csumErr = s.nloErrMask.testBit 0) (hlt : c.segs+1 < 2^8) :
    SkbMirrors coalSkb m list (takeSkbPacket allocSkb gro s) (c.takePacket gro p) ∧
      (takeSkbPacket allocSkb gro s).nloErrMask = s.nloErrMask := by
  rw [takeSkbPacket,Cutter.takePacket,hp]
  by_cases hg : gro = false
  · rw [if_pos hg,if_pos hg]
    exact ⟨segmentSkb_mirrors halloc hm (hs.setCount 1) Nat.one_ne_zero _,
      segmentSkb_nloErrMask ..⟩
  rw [if_neg hg,if_neg hg]
  obtain ⟨htotal,hmask⟩ := flushSkbSegs_frame allocSkb s
  by_cases he : s.nloErrMask.testBit 0 = true
  · rw [if_pos he,if_pos he]
    have hflush := (flushSkbSegs_mirrors halloc hm hs).setCount 1
    have hone := segmentSkb_mirrors halloc hm hflush Nat.one_ne_zero false
    refine ⟨?_,(segmentSkb_nloErrMask ..).trans hmask⟩
    have ht : ((flushSkbSegs allocSkb s).setCount 1).totalPkt = s.totalPkt := htotal
    have hc : (c.flush.setSegs 1).totalPkt = c.totalPkt := c.flush_totalPkt
    rwa [ht,hc] at hone
  · rw [if_neg he,if_neg he]
    have hcount : (s.coalMeta.pktCount+1)%2^8 = c.segs+1 := by
      rw [hs.placed]
      exact Nat.mod_eq_of_lt hlt
    rw [hcount]
    exact ⟨hs.setCount _,rfl⟩

theorem takeSkbPackets_mirrors (halloc : ∀ n, allocSkb n = true) (hm : MetaOf coalSkb m)
    (gro : Bool) (mask nlo size n k : ℕ) (hs : SkbMirrors coalSkb m list s c)
    (hmask : s.nloErrMask = mask >>> k) (hlt : c.segs+n < 2^8) :
    SkbMirrors coalSkb m list (takeSkbPackets allocSkb gro n s)
        (c.takePackets gro ((List.range n).map fun i => ⟨nlo,mask.testBit (k+i),size⟩)) ∧
      (takeSkbPackets allocSkb gro n s).nloErrMask = mask >>> (k+n) := by
  induction n generalizing k s c with
  | zero => exact ⟨hs,hmask⟩
  | succ n ih =>
    have hbit : mask.testBit k = s.nloErrMask.testBit 0 := by
      rw [hmask,Nat.testBit_shiftRight,Nat.add_zero]
    obtain ⟨hone,hkeep⟩ := takeSkbPacket_mirrors halloc hm hs gro
      ⟨nlo,mask.testBit k,size⟩ hbit (by omega)
    have hnext : SkbMirrors coalSkb m list
        { takeSkbPacket allocSkb gro s with
          totalPkt := ((takeSkbPacket allocSkb gro s).totalPkt+1)%2^8
          nloErrMask := (takeSkbPacket allocSkb gro s).nloErrMask >>> 1 }
        (c.takePacket gro ⟨nlo,mask.testBit k,size⟩).next :=
      ⟨hone.frame,hone.placed,congrArg (fun k => (k+1)%2^8) hone.totalPkt,hone.carried⟩
    have hsegs : (c.takePacket gro ⟨nlo,mask.testBit k,size⟩).segs ≤ c.segs+1 :=
      c.takePacket_segs_le gro _
    have hsegs' : (c.takePacket gro ⟨nlo,mask.testBit k,size⟩).next.segs+n < 2^8 := by
      change (c.takePacket gro ⟨nlo,mask.testBit k,size⟩).segs+n < 2^8
      omega
    have hshift : (takeSkbPacket allocSkb gro s).nloErrMask >>> 1 = mask >>> (k+1) := by
      rw [hkeep,hmask,Nat.shiftRight_add]
    have hih := ih (k+1) hnext hshift hsegs'
    rw [List.range_succ_eq_map]
    simpa [takeSkbPackets,Cutter.takePackets,Nat.add_assoc,Nat.add_comm 1,Function.comp_def]
      using hih

theorem dataLenOf_eq {p : NlPair} (hp : m.hlen ≤ p.pktLen) (hlt : p.pktLen < 2^16) :
    dataLenOf m p = p.pktLen-m.hlen := by
  rw [dataLenOf]
  omega

theorem takeSkbNlo_mirrors (halloc : ∀ n, allocSkb n = true) (hm : MetaOf coalSkb m)
    (mask : ℕ) (gro : Bool) (nlo k : ℕ) {p : NlPair} (hs : SkbMirrors coalSkb m list s c)
    (h0 : c.segs = 0) (hmask : s.nloErrMask = mask >>> k) (hp : m.hlen ≤ p.pktLen)
    (hlt : p.pktLen < 2^16) (hn : p.numPackets < 2^8) :
    SkbMirrors coalSkb m list (takeSkbNlo allocSkb gro s p)
        (c.takeNlo gro (p.pktLen-m.hlen) (nloPackets m.hlen mask nlo k p)) ∧
      (takeSkbNlo allocSkb gro s p).nloErrMask = mask >>> (k+p.numPackets) := by
  have hlen : dataLenOf s.coalMeta p = p.pktLen-m.hlen := by
    rw [hs.placed]
    exact dataLenOf_eq hp hlt
  have hset : SkbMirrors coalSkb m list
      { s with coalMeta := { s.coalMeta with dataLen := dataLenOf s.coalMeta p } }
      (c.setSize (p.pktLen-m.hlen)) := by
    refine ⟨hs.frame,?_,hs.totalPkt,hs.carried⟩
    rw [hlen,hs.placed]
    rfl
  have hsegs : (c.setSize (p.pktLen-m.hlen)).segs+p.numPackets < 2^8 := by
    change c.segs+p.numPackets < 2^8
    omega
  obtain ⟨hpackets,hmask'⟩ := takeSkbPackets_mirrors halloc hm gro mask nlo
    (p.pktLen-m.hlen) p.numPackets k hset hmask hsegs
  exact ⟨flushSkbSegs_mirrors halloc hm hpackets,(flushSkbSegs_frame allocSkb _).2.trans hmask'⟩

theorem takeSkbNlos_mirrors (halloc : ∀ n, allocSkb n = true) (hm : MetaOf coalSkb m)
    (mask : ℕ) (gro : Bool) (ps : List NlPair) (nlo k : ℕ) (hs : SkbMirrors coalSkb m list s c)
    (h0 : c.segs = 0) (hmask : s.nloErrMask = mask >>> k)
    (hp : ∀ p ∈ ps, m.hlen ≤ p.pktLen ∧ p.pktLen < 2^16 ∧ p.numPackets < 2^8) :
    SkbMirrors coalSkb m list (ps.foldl (takeSkbNlo allocSkb gro) s)
      (c.takeNlos gro m.hlen mask nlo k ps) := by
  induction ps generalizing nlo k s c with
  | nil => exact hs
  | cons p ps ih =>
    obtain ⟨hle,hlt,hn⟩ := hp p (by simp)
    obtain ⟨hone,hmask'⟩ := takeSkbNlo_mirrors halloc hm mask gro nlo k hs h0 hmask hle hlt hn
    exact ih (nlo+1) _ hone (Cutter.flush_segs _) hmask' fun q hq => hp q (by simp [hq])

end Loops

/-! ## A whole frame -/

/-- The skb holds the frame that the descriptor holds. -/
structure SameFrame (skb : MapSkb) (d : FragDescriptor) : Prop where
  data : skb.data.take skb.len = d.bytes
  len : skb.len = d.bytes.length
  fresh : skb.gsoSegs = 0

/-- An IPv4 packet; its header has no fewer than five words. -/
structure IsIpv4 (h : PacketHeaders) : Prop where
  ipProto : h.ipProto = 4
  ipLen : 20 ≤ h.ipLen

theorem version_four {b : UInt8} (h : b &&& 0xF0 = 0x40) : b.toNat/16 = 4 := by
  have hlt : b.toNat < 2^8 := UInt8.toNat_lt _
  have hand : b.toNat &&& 0xF0 = 0x40 := by
    have := congrArg UInt8.toNat h
    rwa [UInt8.toNat_and] at this
  have hshift : (b.toNat &&& 0xF0) >>> 4 = b.toNat >>> 4 % 2^4 := by
    rw [Nat.shiftRight_and_distrib,← Nat.and_two_pow_sub_one_eq_mod]
    rfl
  rw [hand,Nat.shiftRight_eq_div_pow,Nat.shiftRight_eq_div_pow] at hshift
  omega

/-- The header is read from its 28 bytes. -/
theorem coalHeader_take (bs : List UInt8) :
    coalHeader (bs.take v5CoalHeaderSize) = coalHeader bs := by
  have hget {k : ℕ} (hk : k < 28) : (bs.take v5CoalHeaderSize).getD k 0 = bs.getD k 0 :=
    getD_take hk
  have hpair : ∀ i ∈ List.range maxNlos, nlPair (bs.take v5CoalHeaderSize) i = nlPair bs i := by
    intro i hi
    have hlt : i < 6 := List.mem_range.mp hi
    rw [nlPair,nlPair,be16,be16,hget (by omega),hget (by omega),hget (by omega)]
  rw [coalHeader,coalHeader,hget (by omega),hget (by omega),List.map_congr_left hpair]

/-- Behind its headers the skb has the packet of the frame, and perhaps more of its page. -/
theorem SameFrame.pulled {skb : MapSkb} {d : FragDescriptor} (hsame : SameFrame skb d)
    {h : PacketHeaders} (hc : Framed d h) :
    ∃ rest, pskbPull (pskbPull skb mapHeaderSize) v5CoalHeaderSize =
        { skb with data := framePacket d++rest, len := (framePacket d).length } ∧
      coalHeader (pskbPull skb mapHeaderSize).data = frameHeader d := by
  have hpos : 0 < h.hlen := by
    rw [PacketHeaders.hlen]
    cases hc.packeted.transport with
    | tcp _ _ hm => omega
    | udp _ hl => omega
  have hcov := hc.packeted.covered
  rw [framePacket,List.length_drop] at hcov
  have hlen := hsame.len
  have hone : pskbPull skb mapHeaderSize =
      { skb with data := skb.data.drop mapHeaderSize, len := skb.len-mapHeaderSize } := by
    rw [pskbPull,if_pos (by omega)]
  refine ⟨skb.data.drop skb.len,?_,?_⟩
  · have hpkt : skb.data.drop (mapHeaderSize+v5CoalHeaderSize) =
        framePacket d++skb.data.drop skb.len := by
      rw [framePacket,← hsame.data,List.drop_take]
      have hsplit := List.take_append_drop (skb.len-(mapHeaderSize+v5CoalHeaderSize))
        (skb.data.drop (mapHeaderSize+v5CoalHeaderSize))
      rw [List.drop_drop,Nat.add_sub_cancel' (by omega)] at hsplit
      exact hsplit.symm
    rw [hone,pskbPull,if_pos (by change v5CoalHeaderSize ≤ skb.len-mapHeaderSize; omega)]
    congr 1
    · rw [← hpkt]
      exact List.drop_drop
    · change skb.len-mapHeaderSize-v5CoalHeaderSize = (framePacket d).length
      rw [framePacket,List.length_drop]
      omega
  · rw [hone,frameHeader,← hsame.data,List.drop_take,coalHeader_take]
    change coalHeader (skb.data.drop mapHeaderSize) = _
    rw [← coalHeader_take (skb.data.drop mapHeaderSize),
      ← coalHeader_take ((skb.data.drop mapHeaderSize).take (skb.len-mapHeaderSize)),
      List.take_take,Nat.min_eq_left (by omega)]

/-- The metadata of the packet. -/
def frameMeta (h : PacketHeaders) (data : List UInt8) : CoalMetadata :=
  { ipHeader := data
    transHeader := data.drop h.ipLen
    ipLen := h.ipLen
    transLen := h.transLen
    ipProto := h.ipProto
    transProto := h.transProto }

variable {ipv6SkipExthdr : MapSkb → ℕ → ℕ → ℤ × ℕ × ℕ} {h : PacketHeaders} {bs : List UInt8}

theorem networkMeta_eq (hp : Packeted bs h) (h4 : IsIpv4 h) {skb : MapSkb} {rest : List UInt8}
    (hdata : skb.data = bs++rest) (gro : Bool) :
    networkMeta ipv6SkipExthdr skb gro =
      some ({
        ipProto := h.ipProto
        ipLen := h.ipLen
        transProto := h.transProto
        ipHeader := skb.data },gro && h.plain) := by
  cases hp.ip with
  | ipv4 hv hl hpr hi ht hs =>
    have hbyte {k : ℕ} (hk : k < 20) : byteAt skb.data k = byteAt bs k := by
      rw [byteAt,hdata,getD_append rest (by omega),byteAt]
    have hver : byteAt bs 0/16 = 4 := version_four hv
    rw [networkMeta]
    dsimp only
    rw [hbyte (by omega),hbyte (by omega),if_pos hver,hpr,hi,ht,hs]
    rfl
  | ipv6 hv hl hpr hc hs =>
    rw [h4.ipProto] at hpr
    cases hpr

theorem transportMeta_eq (hp : Packeted bs h) {skb : MapSkb} {rest : List UInt8}
    (hdata : skb.data = bs++rest) :
    transportMeta skb {
        ipProto := h.ipProto
        ipLen := h.ipLen
        transProto := h.transProto
        ipHeader := skb.data } = some (frameMeta h skb.data,zeroCsum bs h) := by
  have hcov := hp.covered
  rw [PacketHeaders.hlen] at hcov
  have hbyte {k : ℕ} (hk : h.ipLen+k < bs.length) :
      (skb.data.drop h.ipLen).getD k 0 = bs.getD (h.ipLen+k) 0 := by
    rw [getD_drop,hdata,getD_append rest hk]
  rw [transportMeta]
  dsimp only
  cases hp.transport with
  | tcp ht hl hm =>
    rw [if_pos ht,zeroCsum,ht,byteAt,hbyte (by omega),frameMeta,hl]
    simp [byteAt,ipprotoTcp,ipprotoUdp,ht]
  | udp ht hl =>
    have hne : ¬ h.transProto = ipprotoTcp := by
      rw [ht]
      decide
    rw [if_neg hne,if_pos ht,zeroCsum,be16,hbyte (by omega),hbyte (by omega),frameMeta,hl,ht]
    simp [be16,Nat.add_assoc]

/-- The segments that the skb path appends to the list. -/
def skbSegments (allocSkb : ℕ → Bool) (ipv6SkipExthdr : MapSkb → ℕ → ℕ → ℤ × ℕ × ℕ)
    (skb : MapSkb) (nloErrMask : ℕ) (list : List MapSkb) (gro : Bool) : List MapSkb :=
  (segmentCoalSkb allocSkb ipv6SkipExthdr skb nloErrMask list gro).drop list.length

/-- `rmnet_map_segment_coal_skb` on a frame, its header walk done. -/
theorem segmentCoalSkb_eq {skb : MapSkb} {d : FragDescriptor} (hsame : SameFrame skb d)
    (hc : Framed d h) (h4 : IsIpv4 h) (allocSkb : ℕ → Bool)
    (ipv6SkipExthdr : MapSkb → ℕ → ℕ → ℤ × ℕ × ℕ) (nloErrMask : ℕ) (list : List MapSkb)
    (gro : Bool) :
    ∃ rest, ∀ s : SkbSegmenting,
      s = ⟨{ skb with data := framePacket d++rest, len := (framePacket d).length },
        frameMeta h (framePacket d++rest),list,0,nloErrMask,0⟩ →
      segmentCoalSkb allocSkb ipv6SkipExthdr skb nloErrMask list gro =
        if Doubted d h then (passDoubted s).list
        else if Vouched d h gro then (passVouched s (frameHeader d)).list
        else ((frameHeader d).pairs.foldl (takeSkbNlo allocSkb (gro && h.plain)) s).list := by
  obtain ⟨rest,hpull,hhdr⟩ := hsame.pulled hc
  refine ⟨rest,fun s hs => ?_⟩
  rw [segmentCoalSkb]
  simp only [hpull,hhdr]
  rw [networkMeta_eq hc.packeted h4 rfl gro]
  dsimp only
  rw [transportMeta_eq hc.packeted rfl,hs]
  rfl

theorem Holds.bound {done : List Packet} {xs : List Piece} (hh : Holds done xs) :
    ∀ x ∈ xs, x.offset+x.size*x.packets ≤ sizes done := by
  induction hh with
  | nil => simp
  | snoc hd hn ho hs ih =>
    intro y hy
    rw [sizes_append]
    rcases List.mem_append.mp hy with hy|hy
    · have := ih y hy
      omega
    · rw [List.mem_singleton.mp hy,ho,hs]

/-- A piece of the packet, the offset being in 16 bits and more of the page behind it. -/
theorem CarriesSkb.inPacket {rest : List UInt8} {hlen : ℕ} {x : Piece} {e : MapSkb}
    (hx : CarriesSkb (bs++rest) hlen (x.offset%2^16) x e)
    (hfit : hlen+x.offset+x.size*x.packets ≤ bs.length) (hlt : x.offset < 2^16) :
    CarriesSkb bs hlen x.offset x e where
  gsoSegs := hx.gsoSegs
  payload := by
    rw [hx.payload,Nat.mod_eq_of_lt hlt,List.drop_append_of_le_length (by omega),
      List.take_append_of_le_length (by rw [List.length_drop]; omega)]
  len := hx.len

theorem frameMeta_metaOf {skb : MapSkb} {rest : List UInt8} (hp : Packeted bs h)
    (h4 : IsIpv4 h) (hdata : skb.data = bs++rest) : MetaOf skb (frameMeta h (bs++rest)) where
  ipHeader := hdata.symm
  transHeader := by
    rw [hdata]
    rfl
  ipProto := h4.ipProto
  ipLen := h4.ipLen
  transProto := by
    cases hp.transport with
    | tcp ht hl hm => exact .inl ⟨ht,hm⟩
    | udp ht hl => exact .inr ⟨ht,hl.ge⟩
  covered := by
    rw [hdata,List.length_append]
    exact hp.covered.trans (Nat.le_add_right _ _)

/-- A frame that is passed on as it is keeps its id. -/
theorem passedSkb_sequenced {d : FragDescriptor} (hc : Framed d h)
    (h1 : (frameHeader d).numNlos = 1) (mask : ℕ) {e : MapSkb}
    (hid : be16 e.data 4 = be16 (framePacket d) 4)
    (hlen : e.len = (framePacket d).length)
    (hpay : (e.data.take e.len).drop h.hlen = (framePacket d).drop h.hlen)
    (hgso : e.gsoSegs = if 1 < ((frameHeader d).nlPairs.getD 0 ⟨0,0⟩).numPackets then
      ((frameHeader d).nlPairs.getD 0 ⟨0,0⟩).numPackets else 0) :
    Sequenced (be16 (framePacket d) 4) sentSkb
      (fun x e => CarriesSkb (framePacket d) h.hlen x.offset x e)
      (coalPackets (frameHeader d) h.hlen mask) [e] := by
  obtain ⟨size,hholds,hsize⟩ := holds_whole h1 h.hlen mask
  have hsz : h.hlen+sizes (coalPackets (frameHeader d) h.hlen mask) = (framePacket d).length := by
    rw [coalPackets,sizes_packetsFrom,hc.cover]
  refine ⟨⟨_,hholds,.cons ⟨hgso,?_,?_⟩ .nil⟩,?_,trivial⟩
  · rw [hpay]
    refine (List.take_of_length_le ?_).symm
    rw [List.length_drop]
    exact (by omega : (framePacket d).length-(h.hlen+0) ≤
      sizes (coalPackets (frameHeader d) h.hlen mask)).trans hsize.ge
  · exact hlen.trans (hsz.symm.trans (congrArg (h.hlen+·) hsize.symm))
  · rw [sentSkb,hid,Nat.add_zero,Nat.mod_eq_of_lt (be16_lt _ _)]

theorem numPackets_doubted {d : FragDescriptor} (hd : Doubted d h = true) :
    ((frameHeader d).nlPairs.getD 0 ⟨0,0⟩).numPackets = 1 := by
  by_contra hne
  rw [Doubted,csumBuggy,if_pos (Or.inr hne)] at hd
  cases hd

/-- The skb path, its buffers allocated, counts the packets of a frame exactly when it passes the
frame on as it is or all packets are linked. -/
theorem segmentCoalSkb_sequenced_iff {skb : MapSkb} {d : FragDescriptor}
    (hsame : SameFrame skb d) (hc : Framed d h) (h4 : IsIpv4 h) {allocSkb : ℕ → Bool}
    (halloc : ∀ n, allocSkb n = true) (nloErrMask : ℕ) (list : List MapSkb) (gro : Bool) :
    Sequenced (be16 (framePacket d) 4) sentSkb
        (fun x e => CarriesSkb (framePacket d) h.hlen x.offset x e)
        (coalPackets (frameHeader d) h.hlen nloErrMask)
        (skbSegments allocSkb ipv6SkipExthdr skb nloErrMask list gro) ↔
      Passed d h gro ∨
        Linked (gro && h.plain) (coalPackets (frameHeader d) h.hlen nloErrMask) := by
  obtain ⟨rest,heq⟩ :=
    segmentCoalSkb_eq hsame hc h4 allocSkb ipv6SkipExthdr nloErrMask list gro
  rw [skbSegments,heq _ rfl]
  have hshort := hc.packeted.short
  have hm : MetaOf { skb with data := framePacket d++rest, len := (framePacket d).length }
      (frameMeta h (framePacket d++rest)) := frameMeta_metaOf hc.packeted h4 rfl
  have h20 : 20 ≤ (framePacket d).length := by
    have hcov := hc.packeted.covered
    have hip := h4.ipLen
    rw [PacketHeaders.hlen] at hcov
    omega
  have hid : be16 (framePacket d++rest) 4 = be16 (framePacket d) 4 := by
    rw [be16,be16,getD_append rest (by omega),getD_append rest (by omega)]
  have hwhole : (framePacket d++rest).take (framePacket d).length = framePacket d :=
    List.take_left
  by_cases hd : Doubted d h = true
  · rw [if_pos hd]
    have hone := numPackets_doubted hd
    refine iff_of_true ?_ (.inl (.inl hd))
    rw [passDoubted]
    dsimp only
    rw [List.drop_left]
    refine passedSkb_sequenced hc (numNlos_doubted hd) nloErrMask ?_ ?_ ?_ ?_
    · split_ifs <;> exact hid
    · split_ifs <;> rfl
    · split_ifs <;> exact congrArg (List.drop h.hlen) hwhole
    · rw [hone,if_neg (Nat.lt_irrefl 1)]
      split_ifs <;> exact hsame.fresh
  rw [if_neg hd]
  by_cases hv : Vouched d h gro = true
  · rw [if_pos hv]
    refine iff_of_true ?_ (.inl (.inr hv))
    rw [passVouched]
    dsimp only
    rw [List.drop_left]
    have hck : h.ipLen+checkOffset h.transProto+1 < h.hlen := hm.checkOffset_lt
    -- the checksum is written behind the id and in front of the payload
    have hset (v : ℕ) :
        be16 (setBe16 (framePacket d++rest) (h.ipLen+checkOffset h.transProto) v) 4 =
            be16 (framePacket d) 4 ∧
          ((setBe16 (framePacket d++rest) (h.ipLen+checkOffset h.transProto) v).take
            (framePacket d).length).drop h.hlen = (framePacket d).drop h.hlen := by
      refine ⟨(be16_setBe16_of_ne v (.inl (by
        have := h4.ipLen
        omega))).trans hid,?_⟩
      rw [List.drop_take,drop_setBe16 v hck,← List.drop_take,hwhole]
    refine passedSkb_sequenced hc (numNlos_vouched hv) nloErrMask ?_ ?_ ?_ ?_
    · split_ifs
      · exact (hset _).1
      · exact hid
    · split_ifs <;> rfl
    · split_ifs
      · exact (hset _).2
      · exact congrArg (List.drop h.hlen) hwhole
    · split_ifs
      · rfl
      · exact hsame.fresh
  rw [if_neg hv]
  have hnot : ¬ Passed d h gro := fun hh => hh.elim hd hv
  have hstart : SkbMirrors
      { skb with data := framePacket d++rest, len := (framePacket d).length }
      (frameMeta h (framePacket d++rest)) list
      ⟨{ skb with data := framePacket d++rest, len := (framePacket d).length },
        frameMeta h (framePacket d++rest),list,0,nloErrMask,0⟩ {} :=
    ⟨rfl,rfl,rfl,[],(List.append_nil _).symm,.nil⟩
  have hmir := takeSkbNlos_mirrors halloc hm nloErrMask (gro && h.plain)
    (frameHeader d).pairs 0 0 hstart rfl rfl
    fun p hp => ⟨hc.pktLens p hp,pktLen_lt hp,numPackets_lt hp⟩
  obtain ⟨ds,hlist,hds⟩ := hmir.carried
  rw [hlist,List.drop_left,or_iff_right hnot]
  have hsent : ds.map sentSkb =
      (cutFrame (frameHeader d) h.hlen nloErrMask (gro && h.plain)).out.map
        (Piece.sent (be16 (framePacket d) 4)) := by
    rw [← hid,← List.forall₂_eq_eq_eq,List.forall₂_map_left_iff,List.forall₂_map_right_iff]
    exact hds.flip.imp fun _ _ hh => hh.1
  have hholds := (cutFrame_settled (frameHeader d) h.hlen nloErrMask (gro && h.plain)).holds
  have hsz : h.hlen+sizes (coalPackets (frameHeader d) h.hlen nloErrMask) =
      (framePacket d).length := by
    rw [coalPackets,sizes_packetsFrom,hc.cover]
  refine Iff.trans ?_ (cutFrame_idsCount_iff _ (be16 (framePacket d) 4) ..)
  rw [Sequenced,hsent]
  refine and_iff_right ⟨_,hholds,?_⟩
  have hbound := hholds.bound
  refine ((List.forall₂_and_left _ _).mpr ⟨hbound,hds⟩).imp fun x e hh => ?_
  have hin : CarriesSkb (framePacket d++rest) h.hlen (x.offset%2^16) x e := hh.2.2
  exact hin.inPacket (by omega) (by omega)

/-- On both paths the segments of a frame hold its packets one after the other, each with the
frame's id and the number of packets in front of it. -/
def BothSequenced (allocSkb : ℕ → Bool) (ipv6SkipExthdr : MapSkb → ℕ → ℕ → ℤ × ℕ × ℕ)
    (d : FragDescriptor) (skb : MapSkb) (h : PacketHeaders) (nloErrMask : ℕ) (port : Port)
    (list : List FragDescriptor) (skbs : List MapSkb) (gro : Bool) : Prop :=
  Sequenced (be16 (framePacket d) 4) sentDesc (CarriesDesc (framePacket d) h)
      (coalPackets (frameHeader d) h.hlen nloErrMask)
      (descSegments d nloErrMask port list gro) ∧
    Sequenced (be16 (framePacket d) 4) sentSkb
      (fun x e => CarriesSkb (framePacket d) h.hlen x.offset x e)
      (coalPackets (frameHeader d) h.hlen nloErrMask)
      (skbSegments allocSkb ipv6SkipExthdr skb nloErrMask skbs gro)

/-- The ids of a frame are right exactly when it is passed on as it is, or when no piece that
held, or might have held, several packets has another piece behind it. -/
theorem bothSequenced_iff {d : FragDescriptor} {skb : MapSkb} (hc : Framed d h) (h4 : IsIpv4 h)
    (hsame : SameFrame skb d) {allocSkb : ℕ → Bool} (halloc : ∀ n, allocSkb n = true)
    (ipv6SkipExthdr : MapSkb → ℕ → ℕ → ℤ × ℕ × ℕ) (nloErrMask : ℕ) (port : Port)
    (list : List FragDescriptor) (skbs : List MapSkb) (gro : Bool) :
    BothSequenced allocSkb ipv6SkipExthdr d skb h nloErrMask port list skbs gro ↔
      Passed d h gro ∨
        Linked (gro && h.plain) (coalPackets (frameHeader d) h.hlen nloErrMask) := by
  rw [BothSequenced,segmentCoalData_sequenced_iff hc h4.ipProto nloErrMask port list gro,
    segmentCoalSkb_sequenced_iff hsame hc h4 halloc nloErrMask skbs gro,and_self_iff]

/-- The frame of two NLOs in an skb. -/
def twoNloSkb : MapSkb := { data := twoNloFrame.bytes, len := 77 }

theorem sameFrame_twoNlos : SameFrame twoNloSkb twoNloFrame := ⟨by decide,by decide,rfl⟩

theorem bothSequenced_iff_twoNlos :
    BothSequenced (fun _ => true) (fun _ _ _ => (-1,0,0)) twoNloFrame twoNloSkb tcpHeaders 3
        cksumv5Port [] [] true ↔
      Passed twoNloFrame tcpHeaders true ∨ Linked (true && tcpHeaders.plain)
        (coalPackets (frameHeader twoNloFrame) tcpHeaders.hlen 3) :=
  bothSequenced_iff coalesced_twoNloFrame.framed ⟨rfl,by decide⟩ sameFrame_twoNlos
    (fun _ => rfl) _ 3 cksumv5Port [] [] true

/-- Two good packets in one NLO leave as one segment; the packet behind them, the third of the
frame, is sent with the id of a fourth, on both paths. -/
theorem not_sequenced_twoNlos :
    Coalesced twoNloFrame tcpHeaders ∧ SameFrame twoNloSkb twoNloFrame ∧
      be16 (framePacket twoNloFrame) 4 = 7 ∧
      (descSegments twoNloFrame 0 cksumv5Port [] true).map sentDesc = [⟨7,2⟩,⟨10,1⟩] ∧
      (skbSegments (fun _ => true) (fun _ _ _ => (-1,0,0)) twoNloSkb 0 [] true).map sentSkb =
        [⟨7,2⟩,⟨10,1⟩] ∧
      ¬ BothSequenced (fun _ => true) (fun _ _ _ => (-1,0,0)) twoNloFrame twoNloSkb tcpHeaders 0
        cksumv5Port [] [] true := by
  have hdesc : (descSegments twoNloFrame 0 cksumv5Port [] true).map sentDesc =
      [⟨7,2⟩,⟨10,1⟩] := by decide
  refine ⟨coalesced_twoNloFrame,sameFrame_twoNlos,by decide,hdesc,by decide,?_⟩
  rintro ⟨⟨-,hids⟩,-⟩
  rw [hdesc] at hids
  revert hids
  decide

end Rmnet
end MarbleModules
