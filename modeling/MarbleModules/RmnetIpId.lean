import MarbleModules.RmnetCutter

/-! The IP ids of the segments of an IPv4 frame: how they follow from the packet counters of the
pieces, and when these count the packets of the frame. -/
namespace MarbleModules
namespace Rmnet

open FragDescriptor

/-- The id that leaves with a segment and the number of packets in it. -/
structure Sent where
  ipId : ℕ
  packets : ℕ
  deriving DecidableEq

/-- Each id is the frame's own and the number of packets in front of the segment. -/
def IdsCount (id : ℕ) : ℕ → List Sent → Prop
  | _,[] => True
  | k,x::xs => x.ipId = (id+k)%2^16 ∧ IdsCount id (k+x.packets) xs

instance decidableIdsCount (id : ℕ) : ∀ k xs, Decidable (IdsCount id k xs)
  | _,[] => isTrue trivial
  | k,x::xs =>
    haveI := decidableIdsCount id (k+x.packets) xs
    inferInstanceAs (Decidable (_ ∧ _))

/-- What is sent for a piece. -/
def Piece.sent (id : ℕ) (x : Piece) : Sent := ⟨(id+x.pktId)%2^16,x.packets⟩

/-- The ids count the packets exactly when the counters do. -/
theorem idsCount_iff (id : ℕ) {k : ℕ} {xs : List Piece} (hk : k+packetsOf xs < 2^16)
    (hs : ∀ x ∈ xs, x.pktId < 2^16) :
    IdsCount id k (xs.map (Piece.sent id)) ↔ InOrder k xs := by
  induction xs generalizing k with
  | nil => exact Iff.rfl
  | cons x xs ih =>
    have hx := hs x (by simp)
    rw [packetsOf,List.map_cons,List.sum_cons] at hk
    have hrest := ih (k := k+x.packets) (by rw [packetsOf]; omega) fun y hy => hs y (by simp [hy])
    change (id+x.pktId)%2^16 = (id+k)%2^16 ∧ IdsCount id (k+x.packets) _ ↔ x.pktId = k ∧ _
    rw [hrest]
    refine and_congr_left fun _ => ?_
    omega

/-! ## The descriptor path -/

/-- The id that leaves with the packet: the header's, unless it is set. -/
def ipIdOf (e : FragDescriptor) : ℕ := if e.ipIdSet then e.ipId else be16 e.bytes 4

def sentDesc (e : FragDescriptor) : Sent := ⟨ipIdOf e,e.gsoSegs⟩

theorem segmentTransport_meta {d e e' : FragDescriptor} {offset dlen : ℕ} {csumValid v : Bool}
    (h : segmentTransport d e offset dlen csumValid = some (e',v)) : e'.gsoSegs = e.gsoSegs := by
  unfold segmentTransport at h
  split_ifs at h
  · obtain ⟨th,-,heq⟩ := Option.map_eq_some_iff.mp h
    dsimp only at heq
    split_ifs at heq
    · rw [← (Prod.mk.inj heq).1]
    · rw [← (Prod.mk.inj heq).1]
  · obtain ⟨uh,-,heq⟩ := Option.map_eq_some_iff.mp h
    rw [← (Prod.mk.inj heq).1]
  · rw [← (Prod.mk.inj (Option.some.inj h)).1]

theorem addFragsFrom_sameMeta {dst source d : FragDescriptor} {off len : ℕ} (hd : dst.Wf)
    (hs : source.Wf) (h : addFragsFrom dst source off len = some d) : SameMeta dst d ∧ d.Wf := by
  have hfit : off+len ≤ source.len := by
    by_contra hlt
    rw [addFragsFrom,if_pos (by omega)] at h
    cases h
  obtain ⟨d',hd',-,hw,hm⟩ := addFragsFrom_spec hd hs hfit
  rw [h] at hd'
  obtain rfl := Option.some.inj hd'
  exact ⟨hm,hw⟩

/-- An IPv4 segment gets the frame's id and the packet counter. -/
theorem newSegment_sent {d e : FragDescriptor} {h : PacketHeaders} (hb : Base d h)
    (h4 : h.ipProto = 4) {csumValid : Bool} (he : newSegment d csumValid = some e) :
    sentDesc e = ⟨(be16 d.bytes 4+d.pktId)%2^16,d.gsoSegs⟩ := by
  unfold newSegment at he
  dsimp only at he
  split at he
  · cases he
  · next e₁ h₁ =>
    have hempty : Wf { d with frags := [], len := 0 } := wf_empty _ rfl rfl
    obtain ⟨hm₁,hw₁⟩ := addFragsFrom_sameMeta hempty hb.wf h₁
    split at he
    · cases he
    · next e₂ h₂ =>
      obtain ⟨hm₂,-⟩ := addFragsFrom_sameMeta hw₁ hb.wf h₂
      split at he
      · cases he
      · next e₃ v h₃ =>
        have hsegs : e₃.gsoSegs = d.gsoSegs := by
          rw [segmentTransport_meta h₃,hm₂,hm₁]
        have h20 : 20 ≤ d.bytes.length := by
          cases hb.packeted.ip with
          | ipv4 _ hl _ _ _ _ => exact hl
          | ipv6 _ _ hp _ _ =>
            rw [h4] at hp
            cases hp
        rw [segmentNetwork,if_pos (hb.ipProto.trans h4),readHeader hb.wf 0 20 (by omega)] at he
        obtain rfl := Option.some.inj he
        change Sent.mk ((be16 ((d.bytes.drop 0).take 20) 4+d.pktId)%2^16) e₃.gsoSegs = _
        rw [be16_slice (by omega),hsegs]

/-- The segment is sent with the counter of the piece and carries its packets. -/
structure Carried (bs : List UInt8) (h : PacketHeaders) (x : Piece) (e : FragDescriptor) :
    Prop where
  sent : sentDesc e = x.sent (be16 bs 4)
  carries : Carries bs h x.offset (x.size*x.packets) e

/-- The cutter has done what the loops have done. -/
structure Mirrors (bs : List UInt8) (h : PacketHeaders) (list : List FragDescriptor)
    (s : Segmenting) (c : Cutter) : Prop where
  pktId : s.coalDesc.pktId = c.pktId
  dataOffset : s.coalDesc.dataOffset = c.dataOffset
  gsoSize : s.coalDesc.gsoSize = c.size
  gsoSegs : s.coalDesc.gsoSegs = c.segs
  totalPkt : s.totalPkt = c.totalPkt
  carried : ∃ ds, s.list = list++ds ∧ List.Forall₂ (Carried bs h) c.out ds

section Loops

variable {base : FragDescriptor} {h : PacketHeaders} {list : List FragDescriptor}
  {s : Segmenting} {c : Cutter}

theorem segmentData_mirrors (hb : Base base h) (h4 : h.ipProto = 4)
    (hp : Positioned base s.coalDesc)
    (hl : h.hlen+s.coalDesc.dataOffset+s.coalDesc.gsoSize*s.coalDesc.gsoSegs ≤
      base.bytes.length)
    (hm : Mirrors base.bytes h list s c) (csumValid : Bool) :
    Mirrors base.bytes h list (segmentData s s.totalPkt csumValid) (c.cut c.totalPkt) := by
  obtain ⟨hbd,hbytes⟩ := hb.positioned hp
  obtain ⟨e,hnew,hcar,-⟩ := newSegment_spec hbd (by rw [hbytes]; exact hl) csumValid
  have hsent := newSegment_sent hbd h4 hnew
  rw [hbytes,hm.pktId,hm.gsoSegs] at hsent
  rw [hbytes,hm.dataOffset,hm.gsoSize,hm.gsoSegs] at hcar
  have hshort := hb.packeted.short
  obtain ⟨ds,hlist,hds⟩ := hm.carried
  have hone : List.Forall₂ (Carried base.bytes h)
      [⟨c.pktId,c.segs,c.dataOffset,c.size⟩] [e] := .cons ⟨hsent,hcar⟩ .nil
  simp only [segmentData,hnew]
  refine ⟨by rw [hm.totalPkt]; rfl,?_,hm.gsoSize,rfl,hm.totalPkt,ds++[e],by simp [hlist],
    List.rel_append hds hone⟩
  change (s.coalDesc.dataOffset+s.coalDesc.gsoSize*s.coalDesc.gsoSegs)%2^16 =
    c.dataOffset+c.size*c.segs
  rw [← hm.dataOffset,← hm.gsoSize,← hm.gsoSegs]
  exact Nat.mod_eq_of_lt (by omega)

@[simp] theorem segmentData_totalPkt (s : Segmenting) (pktId : ℕ) (csumValid : Bool) :
    (segmentData s pktId csumValid).totalPkt = s.totalPkt := by
  unfold segmentData
  dsimp only
  split <;> rfl

theorem flushSegs_mirrors (hb : Base base h) (h4 : h.ipProto = 4)
    {groups : List (List Packet)} {pending : List Packet}
    (hs : Standing base h list groups pending s)
    (hl : h.hlen+sizes (groups.flatten++pending) ≤ base.bytes.length)
    (hm : Mirrors base.bytes h list s c) :
    Mirrors base.bytes h list (flushSegs s) c.flush := by
  rw [flushSegs,Cutter.flush,← hm.gsoSegs]
  split_ifs with h0
  · rw [sizes_append] at hl
    have hsz := hs.sizes_pending
    have ho := hs.dataOffset
    exact segmentData_mirrors hb h4 hs.positioned (by omega) hm true
  · exact hm

@[simp] theorem flushSegs_totalPkt (s : Segmenting) : (flushSegs s).totalPkt = s.totalPkt := by
  rw [flushSegs]
  split_ifs
  · exact segmentData_totalPkt ..
  · rfl

/-- A single packet when nothing waits. -/
theorem segmentOne_mirrors (hb : Base base h) (h4 : h.ipProto = 4)
    {groups : List (List Packet)} (hs : Standing base h list groups [] s)
    (hl : h.hlen+sizes groups.flatten+s.coalDesc.gsoSize ≤ base.bytes.length)
    (hm : Mirrors base.bytes h list s c) (csumValid : Bool) :
    Mirrors base.bytes h list (segmentData (s.setSegs 1) s.totalPkt csumValid)
      ((c.setSegs 1).cut c.totalPkt) := by
  have hpos : Positioned base (s.setSegs 1).coalDesc := by
    have hh := hs.positioned
    unfold Positioned at hh
    rw [Segmenting.setSegs,hh]
    rfl
  have hm' : Mirrors base.bytes h list (s.setSegs 1) (c.setSegs 1) :=
    ⟨hm.pktId,hm.dataOffset,hm.gsoSize,rfl,hm.totalPkt,hm.carried⟩
  refine segmentData_mirrors hb h4 hpos ?_ hm' csumValid
  change h.hlen+s.coalDesc.dataOffset+s.coalDesc.gsoSize*1 ≤ _
  rw [hs.dataOffset]
  omega

theorem takePacket_mirrors (hb : Base base h) (h4 : h.ipProto = 4) {gro : Bool}
    {groups : List (List Packet)} {pending : List Packet}
    (hs : Standing base h list groups pending s) (hgro : gro = false → pending = [])
    (hlt : c.segs+1 < 2^16) {p : Packet} (hp : p.csumErr = s.nloErrMask.testBit 0)
    (hl : h.hlen+sizes (groups.flatten++pending)+s.coalDesc.gsoSize ≤ base.bytes.length)
    (hm : Mirrors base.bytes h list s c) :
    Mirrors base.bytes h list (takePacket gro s) (c.takePacket gro p) := by
  rw [takePacket,Cutter.takePacket,hp]
  by_cases hg : gro = false
  · rw [if_pos hg,if_pos hg]
    rw [hgro hg] at hs hl
    rw [List.append_nil] at hl
    exact segmentOne_mirrors hb h4 hs hl hm _
  rw [if_neg hg,if_neg hg]
  by_cases he : s.nloErrMask.testBit 0 = true
  · rw [if_pos he,if_pos he]
    obtain ⟨groups₁,hf,hs₁,hsz,-⟩ := flushSegs_standing hb hs (by omega)
    have hm₁ := flushSegs_mirrors hb h4 hs (by omega) hm
    rw [← hf,← hsz] at hl
    have hone := segmentOne_mirrors hb h4 hs₁ hl hm₁ false
    rwa [flushSegs_totalPkt,Cutter.flush_totalPkt] at hone
  · rw [if_neg he,if_neg he]
    refine ⟨hm.pktId,hm.dataOffset,hm.gsoSize,?_,hm.totalPkt,hm.carried⟩
    change (s.coalDesc.gsoSegs+1)%2^16 = c.segs+1
    rw [hm.gsoSegs]
    exact Nat.mod_eq_of_lt hlt

@[simp] theorem takePacket_totalPkt (gro : Bool) (s : Segmenting) :
    (takePacket gro s).totalPkt = s.totalPkt := by
  rw [takePacket]
  split_ifs
  · exact segmentData_totalPkt ..
  · exact (segmentData_totalPkt ..).trans (flushSegs_totalPkt s)
  · rfl

theorem takePackets_mirrors (hb : Base base h) (h4 : h.ipProto = 4) {mask : ℕ} {gro : Bool}
    {nlo size : ℕ} (n : ℕ) {done : List Packet}
    (hs : Progress base h list mask gro nlo done s) (hsize : s.coalDesc.gsoSize = size)
    (hn : done.length+n < 2^16) (hlt : c.segs+n < 2^16)
    (hl : h.hlen+sizes done+size*n ≤ base.bytes.length)
    (hm : Mirrors base.bytes h list s c) :
    Mirrors base.bytes h list (takePackets gro n s)
      (c.takePackets gro
        ((List.range n).map fun i => ⟨nlo,mask.testBit (done.length+i),size⟩)) := by
  induction n generalizing done s c with
  | zero => exact hm
  | succ n ih =>
    rw [Nat.mul_succ] at hl
    obtain ⟨hpr,hsz⟩ := hs.takePacket hb hsize (by omega) (by omega)
    obtain ⟨groups,pending,hdone,hst,-,hgro,hmask⟩ := hs
    have hbit : mask.testBit done.length = s.nloErrMask.testBit 0 := by
      rw [hmask,Nat.testBit_shiftRight,Nat.add_zero]
    have hone : Mirrors base.bytes h list (takePacket gro s)
        (c.takePacket gro ⟨nlo,mask.testBit done.length,size⟩) :=
      takePacket_mirrors hb h4 hst hgro (by omega) hbit (by rw [hdone,hsize]; omega) hm
    have hnext : Mirrors base.bytes h list
        { takePacket gro s with
          totalPkt := ((takePacket gro s).totalPkt+1)%2^8
          nloErrMask := (takePacket gro s).nloErrMask >>> 1 }
        (c.takePacket gro ⟨nlo,mask.testBit done.length,size⟩).next :=
      ⟨hone.pktId,hone.dataOffset,hone.gsoSize,hone.gsoSegs,
        congrArg (fun k => (k+1)%2^8) hone.totalPkt,hone.carried⟩
    have hsegs : (c.takePacket gro ⟨nlo,mask.testBit done.length,size⟩).segs ≤ c.segs+1 :=
      c.takePacket_segs_le gro _
    have hsegs' : (c.takePacket gro ⟨nlo,mask.testBit done.length,size⟩).next.segs+n < 2^16 := by
      change (c.takePacket gro ⟨nlo,mask.testBit done.length,size⟩).segs+n < 2^16
      omega
    have hih := ih hpr hsz (by simp; omega) hsegs' (by simp; omega) hnext
    rw [List.range_succ_eq_map]
    simpa [takePackets,Cutter.takePackets,Nat.add_assoc,Nat.add_comm 1,Function.comp_def]
      using hih

theorem takeNlo_mirrors (hb : Base base h) (h4 : h.ipProto = 4) {mask : ℕ} (gro : Bool)
    (nlo : ℕ) {p : NlPair} {done : List Packet} (hs : Clean base h list mask done s)
    (hp : h.hlen ≤ p.pktLen) (hlt : p.pktLen < 2^16) (hn : done.length+p.numPackets < 2^16)
    (hl : h.hlen+sizes done+(p.pktLen-h.hlen)*p.numPackets ≤ base.bytes.length)
    (hm : Mirrors base.bytes h list s c) :
    Mirrors base.bytes h list (takeNlo gro s p)
      (c.takeNlo gro (p.pktLen-h.hlen) (nloPackets h.hlen mask nlo done.length p)) := by
  obtain ⟨groups,hdone,hst,hmask⟩ := hs
  have hsize := gsoSizeOf_eq (hb.positioned hst.positioned).1 hp hlt
  have hpr : Progress base h list mask gro nlo done
      { s with coalDesc := { s.coalDesc with gsoSize := gsoSizeOf s.coalDesc p } } := by
    refine ⟨groups,[],by simp [hdone],⟨?_,hst.dataOffset,hst.gsoSegs,⟨0,by simp⟩,hst.cut⟩,
      by simp,fun _ => rfl,hmask⟩
    have hh := hst.positioned
    unfold Positioned at hh ⊢
    rw [hh]
  have hm' : Mirrors base.bytes h list
      { s with coalDesc := { s.coalDesc with gsoSize := gsoSizeOf s.coalDesc p } }
      (c.setSize (p.pktLen-h.hlen)) :=
    ⟨hm.pktId,hm.dataOffset,hsize,hm.gsoSegs,hm.totalPkt,hm.carried⟩
  have hsegs : (c.setSize (p.pktLen-h.hlen)).segs = 0 := hm.gsoSegs.symm.trans hst.gsoSegs
  have hpackets := takePackets_mirrors hb h4 p.numPackets hpr hsize hn (by omega) hl hm'
  obtain ⟨groups₁,pending,hdone₁,hst₁,-⟩ := takePackets_progress hb p.numPackets hpr hsize hn hl
  have hsizes : sizes (groups₁.flatten++pending) =
      sizes done+(p.pktLen-h.hlen)*p.numPackets := by
    rw [hdone₁,sizes_append]
    exact congrArg _ (sizes_nloPackets h.hlen mask nlo done.length p)
  exact flushSegs_mirrors hb h4 hst₁ (by rw [hsizes]; omega) hpackets

theorem takeNlos_mirrors (hb : Base base h) (h4 : h.ipProto = 4) {mask : ℕ} (gro : Bool)
    (ps : List NlPair) (nlo : ℕ) {done : List Packet} (hs : Clean base h list mask done s)
    (hp : ∀ p ∈ ps, h.hlen ≤ p.pktLen ∧ p.pktLen < 2^16)
    (hn : done.length+(ps.map NlPair.numPackets).sum < 2^16)
    (hl : h.hlen+sizes done+(ps.map fun p => (p.pktLen-h.hlen)*p.numPackets).sum ≤
      base.bytes.length)
    (hm : Mirrors base.bytes h list s c) :
    Mirrors base.bytes h list (ps.foldl (takeNlo gro) s)
      (c.takeNlos gro h.hlen mask nlo done.length ps) := by
  induction ps generalizing nlo done s c with
  | nil => exact hm
  | cons p ps ih =>
    simp only [List.map_cons,List.sum_cons] at hn hl
    have hpp := hp p (by simp)
    have hs₁ := takeNlo_clean hb gro nlo hs hpp.1 hpp.2 (by omega) (by omega)
    have hm₁ := takeNlo_mirrors hb h4 gro nlo hs hpp.1 hpp.2 (by omega) (by omega) hm
    have hih := ih (nlo+1) hs₁ (fun q hq => hp q (by simp [hq])) (by simp; omega)
      (by rw [sizes_append,sizes_nloPackets]; omega) hm₁
    rw [List.length_append,length_nloPackets] at hih
    exact hih

end Loops

/-! ## A whole frame -/

/-- The segments hold the packets one after the other, and the ids count them. -/
def Sequenced {α : Type} (id : ℕ) (sent : α → Sent) (Carries : Piece → α → Prop)
    (packets : List Packet) (ds : List α) : Prop :=
  (∃ xs, Holds packets xs ∧ List.Forall₂ Carries xs ds) ∧ IdsCount id 0 (ds.map sent)

/-- What a segment of the descriptor path carries. -/
def CarriesDesc (bs : List UInt8) (h : PacketHeaders) (x : Piece) (e : FragDescriptor) : Prop :=
  e.gsoSegs = x.packets ∧ Carries bs h x.offset (x.size*x.packets) e

theorem numPackets_lt {bs : List UInt8} {p : NlPair} (hp : p ∈ (coalHeader bs).pairs) :
    p.numPackets < 2^8 := by
  obtain ⟨i,-,rfl⟩ := List.mem_map.mp (List.mem_of_mem_take hp)
  exact UInt8.toNat_lt _

theorem sum_numPackets_le (bs : List UInt8) :
    ((coalHeader bs).pairs.map NlPair.numPackets).sum ≤ 6*255 := by
  have hlen : (coalHeader bs).pairs.length ≤ 6 := by
    rw [CoalHeader.pairs,List.length_take]
    simp [coalHeader,maxNlos]
  have hsum := List.sum_le_card_nsmul ((coalHeader bs).pairs.map NlPair.numPackets) 255 (by
    intro n hn
    obtain ⟨p,hp,rfl⟩ := List.mem_map.mp hn
    have := numPackets_lt hp
    omega)
  rw [List.length_map,smul_eq_mul] at hsum
  exact hsum.trans (Nat.mul_le_mul_right _ hlen)

@[simp] theorem length_packetsFrom (hlen mask nlo k : ℕ) (ps : List NlPair) :
    (packetsFrom hlen mask nlo k ps).length = (ps.map NlPair.numPackets).sum := by
  induction ps generalizing nlo k with
  | nil => rfl
  | cons p ps ih => simp [packetsFrom,ih]

/-- The frame's packets, counted. -/
theorem length_coalPackets_le (bs : List UInt8) (hlen mask : ℕ) :
    (coalPackets (coalHeader bs) hlen mask).length ≤ 6*255 := by
  rw [coalPackets,length_packetsFrom]
  exact sum_numPackets_le bs

/-- The pieces that the loops cut a frame into. -/
def cutFrame (hdr : CoalHeader) (hlen mask : ℕ) (gro : Bool) : Cutter :=
  Cutter.takeNlos gro hlen mask 0 0 hdr.pairs {}

theorem cutFrame_settled (hdr : CoalHeader) (hlen mask : ℕ) (gro : Bool) :
    Settled gro (coalPackets hdr hlen mask) (cutFrame hdr hlen mask gro) := by
  have h := (settled_start gro).takeNlos hlen mask hdr.pairs 0 (by simp)
  rwa [List.nil_append] at h

/-- The ids of the pieces count the packets exactly when all packets are linked. -/
theorem cutFrame_idsCount_iff (bs : List UInt8) (id hlen mask : ℕ) (gro : Bool) :
    IdsCount id 0 ((cutFrame (coalHeader bs) hlen mask gro).out.map (Piece.sent id)) ↔
      Linked gro (coalPackets (coalHeader bs) hlen mask) := by
  have hset := cutFrame_settled (coalHeader bs) hlen mask gro
  have hlen := length_coalPackets_le bs hlen mask
  rw [← hset.right]
  exact idsCount_iff id (by rw [hset.holds.count]; omega) fun x hx =>
    (hset.small x hx).trans (by decide)

/-- The frame is not cut up. -/
def Passed (d : FragDescriptor) (h : PacketHeaders) (gro : Bool) : Prop :=
  Doubted d h = true ∨ Vouched d h gro = true

instance (d : FragDescriptor) (h : PacketHeaders) (gro : Bool) : Decidable (Passed d h gro) :=
  inferInstanceAs (Decidable (_ ∨ _))

/-- The segments that the descriptor path appends to the list. -/
def descSegments (d : FragDescriptor) (nloErrMask : ℕ) (port : Port)
    (list : List FragDescriptor) (gro : Bool) : List FragDescriptor :=
  (segmentCoalData d nloErrMask port list gro).list.drop list.length

theorem pairs_of_numNlos {bs : List UInt8} (h : (coalHeader bs).numNlos = 1) :
    (coalHeader bs).pairs = [(coalHeader bs).nlPairs.getD 0 ⟨0,0⟩] := by
  rw [CoalHeader.pairs,h]
  rfl

/-- A single piece holds the packets of the only NLO. -/
theorem holds_whole {bs : List UInt8} (h : (coalHeader bs).numNlos = 1) (hlen mask : ℕ) :
    ∃ size, Holds (coalPackets (coalHeader bs) hlen mask)
        [⟨0,((coalHeader bs).nlPairs.getD 0 ⟨0,0⟩).numPackets,0,size⟩] ∧
      size*((coalHeader bs).nlPairs.getD 0 ⟨0,0⟩).numPackets =
        sizes (coalPackets (coalHeader bs) hlen mask) := by
  have hpk : coalPackets (coalHeader bs) hlen mask =
      nloPackets hlen mask 0 0 ((coalHeader bs).nlPairs.getD 0 ⟨0,0⟩) := by
    rw [coalPackets,pairs_of_numNlos h]
    exact List.append_nil _
  rw [hpk]
  have hsz := (sizes_nloPackets hlen mask 0 0 ((coalHeader bs).nlPairs.getD 0 ⟨0,0⟩)).symm
  exact ⟨_,Holds.nil.snoc (length_nloPackets ..).symm rfl hsz,hsz⟩

/-- A frame that is passed on as it is keeps its id. -/
theorem passWhole_sequenced {base : FragDescriptor} {h : PacketHeaders} (hb : Base base h)
    (hid : base.ipIdSet = false) {bs : List UInt8} (h1 : (coalHeader bs).numNlos = 1) {mask : ℕ}
    (hsz : h.hlen+sizes (coalPackets (coalHeader bs) h.hlen mask) = base.bytes.length)
    (port : Port) (list : List FragDescriptor) (csumValid : Bool) :
    Sequenced (be16 base.bytes 4) sentDesc (CarriesDesc base.bytes h)
      (coalPackets (coalHeader bs) h.hlen mask)
      ((passWhole ⟨base,port,list,0,mask⟩ (coalHeader bs) csumValid).list.drop list.length) := by
  obtain ⟨size,hholds,hsize⟩ := holds_whole h1 h.hlen mask
  obtain ⟨hcar,-⟩ := whole_carries hb (e := { base with
    csumValid := csumValid
    gsoSize := gsoSizeOf base ((coalHeader bs).nlPairs.getD 0 ⟨0,0⟩)
    gsoSegs := ((coalHeader bs).nlPairs.getD 0 ⟨0,0⟩).numPackets }) rfl rfl hb.ipLen
      hb.tcpSeqSet hb.tcpFlagsSet hsz
  rw [← hsize] at hcar
  rw [passWhole]
  dsimp only
  rw [List.drop_left]
  refine ⟨⟨_,hholds,.cons ⟨rfl,hcar⟩ .nil⟩,?_,trivial⟩
  rw [sentDesc,ipIdOf]
  simp only [hid,Bool.false_eq_true,if_false]
  rw [Nat.add_zero,Nat.mod_eq_of_lt (be16_lt _ _)]
  rfl

/-- The descriptor path counts the packets of a frame exactly when it passes the frame on as it
is or all packets are linked. -/
theorem segmentCoalData_sequenced_iff {d : FragDescriptor} {h : PacketHeaders}
    (hc : Framed d h) (h4 : h.ipProto = 4) (nloErrMask : ℕ) (port : Port)
    (list : List FragDescriptor) (gro : Bool) :
    Sequenced (be16 (framePacket d) 4) sentDesc (CarriesDesc (framePacket d) h)
        (coalPackets (frameHeader d) h.hlen nloErrMask)
        (descSegments d nloErrMask port list gro) ↔
      Passed d h gro ∨ Linked (gro && h.plain) (coalPackets (frameHeader d) h.hlen nloErrMask) := by
  obtain ⟨hcopy,e,hpull,hbytes,hm,hb,hwalk⟩ := hc.base
  have hfresh : SameMeta { priority := d.priority } e := hc.fresh.trans hm
  have hid : (withHeaders e h).ipIdSet = false := by
    change e.ipIdSet = false
    rw [hfresh]
  have hsz : h.hlen+sizes (coalPackets (frameHeader d) h.hlen nloErrMask) =
      (withHeaders e h).bytes.length := by
    rw [coalPackets,sizes_packetsFrom,hc.cover,hbytes]
  rw [descSegments,segmentCoalData_eq hcopy hpull (hwalk gro) nloErrMask port list,← hbytes]
  dsimp only
  by_cases hd : Doubted d h = true
  · rw [if_pos hd]
    exact iff_of_true (passWhole_sequenced hb hid (numNlos_doubted hd) hsz port list _)
      (.inl (.inl hd))
  rw [if_neg hd]
  by_cases hv : Vouched d h gro = true
  · rw [if_pos hv]
    exact iff_of_true (passWhole_sequenced hb hid (numNlos_vouched hv) hsz port list true)
      (.inl (.inr hv))
  rw [if_neg hv]
  have hnot : ¬ Passed d h gro := fun hh => hh.elim hd hv
  have hclean : Clean (withHeaders e h) h list nloErrMask []
      ⟨withHeaders e h,port,list,0,nloErrMask⟩ := by
    refine ⟨[],rfl,⟨rfl,?_,?_,⟨0,by simp⟩,[],by simp,.nil⟩,by simp⟩
    · change e.dataOffset = 0
      rw [hfresh]
    · change e.gsoSegs = 0
      rw [hfresh]
  have hstart : Mirrors (withHeaders e h).bytes h list
      ⟨withHeaders e h,port,list,0,nloErrMask⟩ {} := by
    refine ⟨?_,?_,?_,?_,rfl,[],by simp,.nil⟩
    · change e.pktId = 0
      rw [hfresh]
    · change e.dataOffset = 0
      rw [hfresh]
    · change e.gsoSize = 0
      rw [hfresh]
    · change e.gsoSegs = 0
      rw [hfresh]
  have hcount := sum_numPackets_le ((d.bytes.drop mapHeaderSize).take v5CoalHeaderSize)
  have hmir := takeNlos_mirrors hb h4 (gro && h.plain) (frameHeader d).pairs 0 hclean
    (fun p hp => ⟨hc.pktLens p hp,pktLen_lt hp⟩)
    (by rw [frameHeader,List.length_nil]; omega)
    (by rw [hbytes,← hc.cover]; simp) hstart
  obtain ⟨ds,hlist,hds⟩ := hmir.carried
  rw [hlist,List.drop_left,or_iff_right hnot]
  have hsent : ds.map sentDesc =
      (cutFrame (frameHeader d) h.hlen nloErrMask (gro && h.plain)).out.map
        (Piece.sent (be16 (withHeaders e h).bytes 4)) := by
    rw [← List.forall₂_eq_eq_eq,List.forall₂_map_left_iff,List.forall₂_map_right_iff]
    exact hds.flip.imp fun _ _ hh => hh.sent
  refine Iff.trans ?_ (cutFrame_idsCount_iff _ (be16 (withHeaders e h).bytes 4) ..)
  rw [Sequenced,hsent]
  refine and_iff_right ⟨_,(cutFrame_settled ..).holds,hds.imp fun x e hh => ⟨?_,hh.carries⟩⟩
  exact congrArg Sent.packets hh.sent

end Rmnet
end MarbleModules
