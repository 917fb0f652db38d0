import MarbleModules.RmnetIngressSegments

/-! The receive path puts every descriptor back exactly once, and uses none after that, for
the skbs without four kinds of frames: one cut short behind its header, a checksum packet that
is nothing but padding, a coalescing frame without a packet, and one handed on whole whose
headers are longer than the packet. -/
namespace MarbleModules
namespace Rmnet

open Lifetimes PrefixFraming FragDescriptor

/-! ## The frames that go wrong -/

/-- The frame goes to the handler of the second header, for this device. -/
structure TakesNextHdr (port : IngressPort) (bs : List UInt8) (dev : EgressDev) : Prop where
  data : mapCdBit bs = false
  muxId : mapMuxId bs < maxLogicalEp
  endpoint : port.endpoint (mapMuxId bs) = some dev
  nextHdr : mapNextHdr bs = true
  format : hasFlags port.dataFormat (flagsIngressCoalesce ||| privFlagsIngressMapCksumv5) = true

/-- A coalescing header that passes its check. -/
structure CoalFrame (d : FragDescriptor) : Prop where
  type : headerType (d.bytes.drop mapHeaderSize) = mapHeaderTypeCoalescing
  check : ∃ nloErrMask pkts, fragDataCheckCoalHeader d = .ok nloErrMask pkts

/-- A coalesced packet that is doubted, or vouched for, is handed on whole. -/
def passesWhole (hdr : CoalHeader) (w : Walked) : Bool :=
  csumBuggy hdr && !w.zeroCsum || w.gro && hdr.numNlos == 1 && hdr.csumValid

/-- The frame is handed on whole, with these headers. -/
structure PassedWhole (d : FragDescriptor) (gro : Bool) (w : Walked) : Prop where
  walk : ∃ e, d.pull (mapHeaderSize+v5CoalHeaderSize) = some e ∧ walkHeaders e gro = some w
  passes : passesWhole (frameHeader d) w = true

/-- The second header leads to a descriptor that is recycled twice. -/
inductive NextHdrFault (dev : EgressDev) (d : FragDescriptor) : Prop
  | padding (ht : headerType (d.bytes.drop mapHeaderSize) = mapHeaderTypeCsumOffload)
      (hl : mapDataLen d.bytes = 0)
  | noPacket (hc : CoalFrame d) (hl : d.len = mapHeaderSize+v5CoalHeaderSize)
  | shortPacket {w : Walked} (hc : CoalFrame d) (hw : PassedWhole d dev.groHw w)
      (hl : w.coalDesc.len < hdrLen w.coalDesc)

/-- A frame whose descriptor is recycled twice. -/
def Mishandled (port : IngressPort) (d : FragDescriptor) : Prop :=
  ∃ dev, TakesNextHdr port d.bytes dev ∧ NextHdrFault dev d

/-- The skb has no frame of these kinds. -/
structure CleanSkb (port : IngressPort) (rx : RxSkb) : Prop where
  frames : ∀ d, FrameFrom port.dataFormat rx 0 d → ¬Mishandled port d
  complete : ¬CutShortFrom port.dataFormat rx 0

/-- A descriptor as deaggregation leaves it. -/
structure Arrived (dataFormat : BitVec 32) (d : FragDescriptor) : Prop where
  wf : d.Wf
  frame : IsQmapFrame dataFormat d.bytes
  plain : d.hdrsValid = false

theorem FrameFrom.arrived {dataFormat : BitVec 32} {rx : RxSkb} {start : ℕ}
    {d : FragDescriptor} (h : FrameFrom dataFormat rx start d) : Arrived dataFormat d := by
  obtain ⟨stop,n,-,hn,rfl⟩ := h
  obtain ⟨hw,hb⟩ := frameAt_wf hn
  have hlen := (frameSize_some.mp hn).2.2.1
  have htake : frameSize dataFormat ((rx.skb.bytes.drop stop).take n) = some n :=
    (qmap dataFormat).size_take hn
  refine ⟨hw,isFrame_qmap.mp ?_,rfl⟩
  rw [hb]
  change frameSize dataFormat _ = some _
  rw [htake,List.length_take,Nat.min_eq_left hlen]

section Arrived

variable {dataFormat : BitVec 32} {d : FragDescriptor} (h : Arrived dataFormat d)

include h

theorem Arrived.len : d.len = mapHeaderSize+mapPktLen d.bytes+overhead dataFormat d.bytes := by
  rw [← h.wf.length_bytes]
  exact h.frame.length

theorem Arrived.len_gt : mapHeaderSize < d.len := by
  have hp := h.frame.pktLen
  rw [h.len]
  omega

/-- The QMAP header as the handler reads it. -/
theorem Arrived.qmap : d.headerPtr 0 mapHeaderSize = some (d.bytes.take mapHeaderSize) := by
  have hlt := h.len_gt
  rw [headerPtr_eq h.wf (by omega),List.drop_zero]

end Arrived

theorem byteAt_take {bs : List UInt8} {n k : ℕ} (h : k < n) :
    byteAt (bs.take n) k = byteAt bs k := by
  rw [byteAt,byteAt,getD_take h]

theorem mapPadLen_take (bs : List UInt8) : mapPadLen (bs.take mapHeaderSize) = mapPadLen bs := by
  rw [mapPadLen,mapPadLen,byteAt_take (by decide)]

theorem mapDataLen_take (bs : List UInt8) :
    mapDataLen (bs.take mapHeaderSize) = mapDataLen bs := by
  rw [mapDataLen,mapDataLen,mapPadLen_take,
    mapPktLen_congr fun k hk => getD_take (show k < mapHeaderSize from hk)]

theorem mapCdBit_take (bs : List UInt8) : mapCdBit (bs.take mapHeaderSize) = mapCdBit bs := by
  rw [mapCdBit,mapCdBit,getD_take (by decide)]

theorem mapMuxId_take (bs : List UInt8) : mapMuxId (bs.take mapHeaderSize) = mapMuxId bs :=
  byteAt_take (by decide)

theorem mapNextHdr_take (bs : List UInt8) :
    mapNextHdr (bs.take mapHeaderSize) = mapNextHdr bs := by
  rw [mapNextHdr,mapNextHdr,byteAt_take (by decide)]

/-- The trim to the length of the data fails exactly when there is no data. -/
theorem ofNat_mapDataLen (bs : List UInt8) :
    BitVec.ofNat 32 (mapDataLen bs) = 0 ↔ mapDataLen bs = 0 := by
  have hlt : mapDataLen bs < 2^16 := Nat.mod_lt _ (by decide)
  constructor
  · intro h
    have hnat := congrArg BitVec.toNat h
    rw [BitVec.toNat_ofNat,Nat.mod_eq_of_lt (by omega)] at hnat
    exact hnat
  · intro h
    rw [h]
    rfl

/-- The type without its lowest bit, as deaggregation reads it. -/
theorem type_div_two (type : UInt8) : (type &&& 0xFE).toNat/2 = type.toNat/2 := by
  have hlt : type.toNat < 2^8 := type.toNat_lt
  rw [UInt8.toNat_and]
  change (type.toNat &&& 254)/2 = type.toNat/2
  rw [Nat.and_div_two]
  change type.toNat/2 &&& 2^7-1 = type.toNat/2
  rw [Nat.and_two_pow_sub_one_eq_mod,Nat.mod_eq_of_lt (by omega)]

/-- A checksum packet is longer than its two headers. -/
theorem Arrived.csum_len {port : IngressPort} {d : FragDescriptor} {dev : EgressDev}
    (h : Arrived port.dataFormat d) (ht : TakesNextHdr port d.bytes dev)
    (htype : headerType (d.bytes.drop mapHeaderSize) = mapHeaderTypeCsumOffload) :
    mapHeaderSize+v5CsumHeaderSize < d.len := by
  have hp := h.frame.pktLen
  have hfmt : hasFlags port.dataFormat (privFlagsIngressMapCksumv5 ||| flagsIngressCoalesce) =
      true := by
    rw [BitVec.or_comm]
    exact ht.format
  have hbyte : (d.bytes.getD mapHeaderSize 0).toNat/2 = mapHeaderTypeCsumOffload := by
    rw [headerType,byteAt,getD_drop,Nat.add_zero] at htype
    exact htype
  have hover : v5CsumHeaderSize ≤ overhead port.dataFormat d.bytes := by
    rw [overhead,hfmt,ht.data]
    split_ifs with h4 h5
    · decide
    · rw [v5HeaderSize,type_div_two,hbyte,if_neg (by decide),if_pos rfl]
    · simp at h5
  rw [h.len]
  omega

/-! ## Coalescing frames -/

theorem networkHeader_frags {d e : FragDescriptor} {gro g : Bool}
    (h : networkHeader d gro = some (e,g)) : e.frags = d.frags ∧ e.len = d.len := by
  unfold networkHeader at h
  split at h
  · cases h
  split_ifs at h
  · split at h
    · cases h
    · obtain ⟨rfl,-⟩ := Prod.mk.inj (Option.some.inj h)
      exact ⟨rfl,rfl⟩
  · split at h
    · cases h
    · split at h
      · cases h
      · split_ifs at h
        obtain ⟨rfl,-⟩ := Prod.mk.inj (Option.some.inj h)
        exact ⟨rfl,rfl⟩

theorem transportHeader_frags {d e : FragDescriptor} {z : Bool}
    (h : transportHeader d = some (e,z)) : e.frags = d.frags ∧ e.len = d.len := by
  unfold transportHeader at h
  split_ifs at h
  · obtain ⟨th,-,heq⟩ := Option.map_eq_some_iff.mp h
    rw [← (Prod.mk.inj heq).1]
    exact ⟨rfl,rfl⟩
  · obtain ⟨uh,-,heq⟩ := Option.map_eq_some_iff.mp h
    rw [← (Prod.mk.inj heq).1]
    exact ⟨rfl,rfl⟩

/-- The walk writes metadata only. -/
theorem walkHeaders_frags {d : FragDescriptor} {gro : Bool} {w : Walked}
    (h : walkHeaders d gro = some w) :
    w.coalDesc.frags = d.frags ∧ w.coalDesc.len = d.len ∧ w.coalDesc.hdrsValid = true := by
  unfold walkHeaders at h
  split at h
  · cases h
  · rename_i e g hn
    split at h
    · cases h
    · rename_i e' z ht
      obtain ⟨hf,hl⟩ := networkHeader_frags hn
      obtain ⟨hf',hl'⟩ := transportHeader_frags ht
      rw [← Option.some.inj h]
      exact ⟨hf'.trans hf,hl'.trans hl,rfl⟩

theorem CoalFrame.len {d : FragDescriptor} (h : CoalFrame d) :
    mapHeaderSize+v5CoalHeaderSize ≤ d.len := by
  obtain ⟨nloErrMask,pkts,hc⟩ := h.check
  unfold fragDataCheckCoalHeader at hc
  split at hc
  · cases hc
  · rename_i bs hbs
    exact headerPtr_fits hbs

namespace Ingress

variable {skbCopyBits : Skb → ℕ → ℕ → Option (List UInt8)}
variable {checksumPkt : FragDescriptor → CsumPkt} {alloc : ℕ → Bool} {held : Finset ℕ}

section Coal

variable {o : Owned} (ho : o.id ∈ held) (hw : o.desc.Wf)

include ho hw

/-- Pulling the headers of a frame without a packet recycles its descriptor. -/
theorem segmentCoalData_noPacket (hl : o.desc.len = mapHeaderSize+v5CoalHeaderSize)
    (nloErrMask : ℕ) (gro : Bool) :
    Leaves DescPool.Sound held (segmentCoalData alloc o nloErrMask gro) fun list held' =>
      list = [] ∧ held' = held.erase o.id := by
  refine (use_leaves ho).bind ?_
  rintro _ _ rfl
  rw [copyData_eq hw hl.ge]
  refine (fragPull_short ho hl.le).bind ?_
  rintro _ _ ⟨rfl,rfl⟩
  exact .pure ⟨rfl,rfl⟩

/-- Otherwise the frame is handed on whole, or its descriptor stays beside the segments. -/
theorem segmentCoalData_leaves (hl : mapHeaderSize+v5CoalHeaderSize < o.desc.len)
    (nloErrMask : ℕ) (gro : Bool) :
    Leaves DescPool.Sound held (segmentCoalData alloc o nloErrMask gro) fun list held' =>
      (∃ w e, PassedWhole o.desc gro w ∧ held' = held ∧ list = [⟨o.id,e⟩] ∧
        SameLengths w.coalDesc e ∧ e.hdrsValid = true) ∨
      ((∀ w, ¬PassedWhole o.desc gro w) ∧ HandsBack held (list.map Owned.id) held' ∧
        ∀ o ∈ list, hdrLen o.desc ≤ o.desc.len) := by
  refine (use_leaves ho).bind ?_
  rintro _ _ rfl
  rw [copyData_eq hw hl.le]
  refine (fragPull_leaves ho hl).bind ?_
  rintro _ _ ⟨rfl,e,rfl,he⟩
  refine (use_leaves ho).bind ?_
  rintro _ held' rfl
  cases hwalk : walkHeaders e gro with
  | none =>
    refine .pure (.inr ⟨?_,rfl,by simp⟩)
    rintro w ⟨⟨e',he',hw'⟩,-⟩
    obtain rfl := Option.some.inj (he.symm.trans he')
    simp [hwalk] at hw'
  | some w =>
    obtain ⟨hfrags,hlen,hv⟩ := walkHeaders_frags hwalk
    obtain ⟨e₂,he₂,-,hwf,-⟩ := pull_spec hw hl
    obtain rfl := Option.some.inj (he.symm.trans he₂)
    have hwhole : passesWhole (frameHeader o.desc) w = true → PassedWhole o.desc gro w :=
      fun h => ⟨⟨e,he,hwalk⟩,h⟩
    have hnot : passesWhole (frameHeader o.desc) w = false → ∀ w', ¬PassedWhole o.desc gro w' := by
      rintro h w' ⟨⟨e',he',hw'⟩,hp⟩
      obtain rfl := Option.some.inj (he.symm.trans he')
      obtain rfl := Option.some.inj (hwalk.symm.trans hw')
      simp [h] at hp
    rw [passesWhole] at hwhole hnot
    change Leaves _ _ (if (csumBuggy (frameHeader o.desc) && !w.zeroCsum) = true then _ else
      if (w.gro && (frameHeader o.desc).numNlos == 1 && (frameHeader o.desc).csumValid) = true
      then _ else _) _
    split_ifs with h1 h2
    · exact .pure (.inl ⟨w,_,hwhole (by simp [h1]),rfl,rfl,⟨rfl,rfl,rfl⟩,hv⟩)
    · exact .pure (.inl ⟨w,_,hwhole (by simp [h2]),rfl,rfl,⟨rfl,rfl,rfl⟩,hv⟩)
    · have hstart : CutsFrom o.id held' ⟨⟨o.id,w.coalDesc⟩,[],0,nloErrMask⟩ held' :=
        ⟨rfl,⟨hfrags ▸ hwf.fits,by rw [hlen,hfrags,hwf.len]⟩,rfl,by simp⟩
      refine (takeNlos_leaves ho w.gro _ hstart).bind ?_
      intro s held'' hs
      exact .pure (.inr ⟨hnot (by simp [h1,h2]),hs.list,hs.sends⟩)

end Coal

/-! ## The second header -/

theorem pull_hdrsValid {d e : FragDescriptor} {n : ℕ} (h : d.pull n = some e) :
    e.hdrsValid = d.hdrsValid := by
  rw [FragDescriptor.pull] at h
  split_ifs at h
  rw [← Option.some.inj h]

theorem fragTrim_hdrsValid {d e : FragDescriptor} {n : BitVec 32}
    (h : d.fragTrim n = some e) : e.hdrsValid = d.hdrsValid := by
  rw [FragDescriptor.fragTrim] at h
  split_ifs at h
  · rw [← Option.some.inj h]
  · rw [← Option.some.inj h]

theorem csumOffloadDesc_same (checksumPkt : FragDescriptor → CsumPkt) (dev : EgressDev) (csumHdr : List UInt8) (d : FragDescriptor) :
    (csumOffloadDesc checksumPkt dev csumHdr d).len = d.len ∧
      (csumOffloadDesc checksumPkt dev csumHdr d).hdrsValid = d.hdrsValid := by
  unfold csumOffloadDesc
  split_ifs
  · exact ⟨rfl,rfl⟩
  · exact ⟨rfl,rfl⟩
  · exact ⟨rfl,rfl⟩

theorem headerType_take (bs : List UInt8) :
    headerType (bs.take v5CsumHeaderSize) = headerType bs := by
  rw [headerType,headerType,byteAt_take (by decide)]

section NextHdr

variable {o : Owned} (ho : o.id ∈ held) {port : IngressPort} {dev : EgressDev}
variable (h : Arrived port.dataFormat o.desc) (ht : TakesNextHdr port o.desc.bytes dev)

include ho h ht

/-- The packet behind a checksum header, which the pull leaves with something. -/
theorem csumPacket_pull (csumHdr : List UInt8)
    (htype : headerType (o.desc.bytes.drop mapHeaderSize) = mapHeaderTypeCsumOffload) :
    Leaves DescPool.Sound held
      (fragPull ⟨o.id,csumOffloadDesc checksumPkt dev csumHdr o.desc⟩
        (mapHeaderSize+v5CsumHeaderSize)) fun r held' =>
      held' = held ∧ ∃ d, r = some ⟨o.id,d⟩ ∧ d.hdrsValid = false := by
  obtain ⟨hlen,hv⟩ := csumOffloadDesc_same checksumPkt dev csumHdr o.desc
  have hlt := h.csum_len ht htype
  rw [← hlen] at hlt
  refine (fragPull_leaves (o := ⟨o.id,csumOffloadDesc checksumPkt dev csumHdr o.desc⟩) ho
    hlt).imp ?_
  rintro _ _ ⟨rfl,d,rfl,hd⟩
  exact ⟨rfl,d,rfl,(pull_hdrsValid hd).trans (hv.trans h.plain)⟩

theorem processNextHdrPacket_leaves (hok : ¬NextHdrFault dev o.desc) :
    Leaves DescPool.Sound held
      (processNextHdrPacket checksumPkt alloc dev o (mapDataLen o.desc.bytes)) fun r held' =>
      r = none ∧ held' = held ∨
      ∃ segs, r = some segs ∧ HandsBack (held.erase o.id) (segs.map Owned.id) held' ∧
        ∀ seg ∈ segs, Sendable seg.desc := by
  refine (use_leaves ho).bind ?_
  rintro _ held rfl
  cases hcs : o.desc.headerPtr mapHeaderSize v5CsumHeaderSize with
  | none => exact .pure (.inl ⟨rfl,rfl⟩)
  | some csumHdr =>
    have hhdr : headerType csumHdr = headerType (o.desc.bytes.drop mapHeaderSize) := by
      rw [headerPtr_eq h.wf (headerPtr_fits hcs)] at hcs
      rw [← Option.some.inj hcs,headerType_take]
    dsimp only
    rw [hhdr]
    split_ifs with hcoal hcsum
    · cases hc : fragDataCheckCoalHeader o.desc with
      | noHeader => exact .pure (.inl ⟨rfl,rfl⟩)
      | nloErr => exact .pure (.inl ⟨rfl,rfl⟩)
      | pktErr => exact .pure (.inl ⟨rfl,rfl⟩)
      | ok nloErrMask pkts =>
        have hframe : CoalFrame o.desc := ⟨hcoal,nloErrMask,pkts,hc⟩
        have hge := hframe.len
        have hne : o.desc.len ≠ mapHeaderSize+v5CoalHeaderSize :=
          fun hl => hok (.noPacket hframe hl)
        refine (segmentCoalData_leaves ho h.wf (by omega) nloErrMask.toNat dev.groHw).bind ?_
        rintro list held' (⟨w,e,hwhole,rfl,rfl,hsame,-⟩|⟨-,hback,hsends⟩)
        · rw [if_pos (by simp)]
          refine .pure (.inr ⟨_,rfl,⟨ho,rfl⟩,?_⟩)
          intro seg hseg _
          rw [List.mem_singleton.mp hseg]
          have hle : ¬w.coalDesc.len < hdrLen w.coalDesc :=
            fun hl => hok (.shortPacket hframe hwhole hl)
          rw [hdrLen,hsame.len,hsame.ipLen,hsame.transLen]
          exact not_lt.mp hle
        · have hhead : list.head?.map Owned.id ≠ some o.id := by
            intro heq
            obtain ⟨seg,hseg,hid⟩ := Option.map_eq_some_iff.mp heq
            refine hback.notMem o.id ?_ ho
            exact hid ▸ List.mem_map_of_mem (List.mem_of_mem_head? hseg)
          rw [if_neg hhead]
          refine (recycle_pure_leaves (hback.subset ho) _).imp ?_
          rintro _ _ ⟨rfl,rfl⟩
          refine .inr ⟨_,rfl,?_,fun seg hseg _ => hsends seg hseg⟩
          rw [← Finset.insert_erase ho] at hback
          exact hback.release (Finset.notMem_erase o.id held)
    · refine (csumPacket_pull ho h ht csumHdr hcsum).bind ?_
      rintro _ _ ⟨rfl,d,rfl,hv⟩
      have hne : BitVec.ofNat 32 (mapDataLen o.desc.bytes) ≠ 0 :=
        fun hz => hok (.padding hcsum ((ofNat_mapDataLen _).mp hz))
      refine (fragTrim_leaves (o := ⟨o.id,d⟩) ho hne).bind ?_
      rintro _ _ ⟨rfl,e,rfl,he⟩
      refine .pure (.inr ⟨_,rfl,⟨ho,rfl⟩,?_⟩)
      intro seg hseg hvalid
      rw [List.mem_singleton.mp hseg] at hvalid
      rw [fragTrim_hdrsValid he,hv] at hvalid
      cases hvalid
    · exact .pure (.inl ⟨rfl,rfl⟩)

/-- What the handler does with the second header. -/
theorem nextHdr_leaves (hok : ¬NextHdrFault dev o.desc) :
    Leaves DescPool.Sound held (do
      match ← processNextHdrPacket checksumPkt alloc dev o (mapDataLen o.desc.bytes) with
      | none => recycleFragDescriptor o.id
      | some segs => deliverAll alloc segs) fun _ held' => held' = held.erase o.id := by
  refine (processNextHdrPacket_leaves ho h ht hok).bind ?_
  rintro _ held' (⟨rfl,rfl⟩|⟨segs,rfl,hback,hsend⟩)
  · exact recycleFragDescriptor_leaves ho
  · exact deliverAll_leaves segs hback hsend

/-- A fault recycles the descriptor a second time. -/
theorem nextHdr_breaks (ha : ∀ k, alloc k = true) (hf : NextHdrFault dev o.desc) :
    Breaks DescPool.Sound held (do
      match ← processNextHdrPacket checksumPkt alloc dev o (mapDataLen o.desc.bytes) with
      | none => recycleFragDescriptor o.id
      | some segs => deliverAll alloc segs) := by
  have hread (hl : mapHeaderSize+v5CsumHeaderSize ≤ o.desc.len) := headerPtr_eq h.wf hl
  cases hf with
  | padding htype hl =>
    have hrun : Leaves DescPool.Sound held
        (processNextHdrPacket checksumPkt alloc dev o (mapDataLen o.desc.bytes)) fun r held' =>
        r = none ∧ held' = held.erase o.id := by
      refine (use_leaves ho).bind ?_
      rintro _ _ rfl
      rw [hread (h.csum_len ht htype).le]
      dsimp only
      rw [headerType_take,htype,if_neg (by decide),if_pos rfl]
      refine (csumPacket_pull ho h ht _ htype).bind ?_
      rintro _ _ ⟨rfl,d,rfl,-⟩
      have hz := (ofNat_mapDataLen o.desc.bytes).mpr hl
      refine (fragTrim_zero (o := ⟨o.id,d⟩) ho hz).bind ?_
      rintro _ _ ⟨rfl,rfl⟩
      exact .pure ⟨rfl,rfl⟩
    refine hrun.breaks ?_
    rintro _ _ ⟨rfl,rfl⟩
    exact recycleFragDescriptor_breaks (Finset.notMem_erase o.id held)
  | noPacket hc hl =>
    obtain ⟨nloErrMask,pkts,hok⟩ := hc.check
    refine Breaks.bind ?_ _
    refine (use_leaves ho).breaks ?_
    rintro _ _ rfl
    rw [hread (le_trans (by decide) hc.len)]
    dsimp only
    rw [headerType_take,hc.type,if_pos rfl,hok]
    dsimp only
    refine (segmentCoalData_noPacket ho h.wf hl _ _).breaks ?_
    rintro _ _ ⟨rfl,rfl⟩
    rw [if_neg (by simp)]
    exact (recycleFragDescriptor_breaks (Finset.notMem_erase o.id _)).bind _
  | @shortPacket w hc hwhole hl =>
    obtain ⟨nloErrMask,pkts,hok⟩ := hc.check
    have hge := hc.len
    have hlt : mapHeaderSize+v5CoalHeaderSize < o.desc.len := by
      obtain ⟨⟨e,he,-⟩,-⟩ := hwhole
      by_contra hle
      rw [FragDescriptor.pull,if_pos (by omega)] at he
      cases he
    have hrun : Leaves DescPool.Sound held
        (processNextHdrPacket checksumPkt alloc dev o (mapDataLen o.desc.bytes)) fun r held' =>
        held' = held ∧ ∃ e : FragDescriptor, r = some [⟨o.id,e⟩] ∧ e.hdrsValid = true ∧
          e.len < hdrLen e := by
      refine (use_leaves ho).bind ?_
      rintro _ _ rfl
      rw [hread (le_trans (by decide) hc.len)]
      dsimp only
      rw [headerType_take,hc.type,if_pos rfl,hok]
      dsimp only
      refine (segmentCoalData_leaves ho h.wf hlt nloErrMask.toNat dev.groHw).bind ?_
      rintro _ _ (⟨w',e,⟨⟨e₁,he₁,hw₁⟩,-⟩,rfl,rfl,hsame,hv⟩|⟨hnot,-⟩)
      · obtain ⟨⟨e₂,he₂,hw₂⟩,-⟩ := hwhole
        obtain rfl := Option.some.inj (he₁.symm.trans he₂)
        obtain rfl := Option.some.inj (hw₁.symm.trans hw₂)
        rw [if_pos (by simp)]
        refine .pure ⟨rfl,e,rfl,hv,?_⟩
        rw [hdrLen,hsame.len,hsame.ipLen,hsame.transLen]
        exact hl
      · exact absurd hwhole (hnot w)
    refine hrun.breaks ?_
    rintro _ _ ⟨rfl,e,rfl,hv,hlen⟩
    exact (fragDeliver_breaks (o := ⟨o.id,e⟩) ho ha hv hlen).bind _

end NextHdr

/-! ## One frame -/

theorem takesNextHdr_of {port : IngressPort} {bs : List UInt8} {dev : EgressDev}
    (hcd : mapCdBit bs = false) (hmux : ¬maxLogicalEp ≤ mapMuxId bs)
    (hep : port.endpoint (mapMuxId bs) = some dev)
    (hnext : (mapNextHdr bs && hasFlags port.dataFormat
      (flagsIngressCoalesce ||| privFlagsIngressMapCksumv5)) = true) :
    TakesNextHdr port bs dev := by
  rw [Bool.and_eq_true] at hnext
  exact ⟨hcd,not_le.mp hmux,hep,hnext.1,hnext.2⟩

section Frame

variable {o : Owned} (ho : o.id ∈ held) {port : IngressPort}
variable (h : Arrived port.dataFormat o.desc)

include ho h

/-- A frame that is not one of the four kinds gives its descriptor back. -/
theorem ingressFrame_leaves (hok : ¬Mishandled port o.desc) :
    Leaves DescPool.Sound held (ingressFrame checksumPkt alloc port o) fun _ held' =>
      held' = held.erase o.id := by
  refine (use_leaves ho).bind ?_
  rintro _ held rfl
  rw [h.qmap]
  dsimp only
  rw [mapCdBit_take,mapMuxId_take,mapNextHdr_take,mapDataLen_take]
  have hback := recycleFragDescriptor_leaves ho
  split_ifs with hcd hflags hmux hnext
  · refine (use_leaves ho).bind ?_
    rintro _ _ rfl
    exact hback
  · exact hback
  · exact hback
  · cases hep : port.endpoint (mapMuxId o.desc.bytes) with
    | none => exact hback
    | some dev =>
      have ht := takesNextHdr_of (Bool.eq_false_of_not_eq_true hcd) hmux hep hnext
      exact nextHdr_leaves ho h ht fun hf => hok ⟨dev,ht,hf⟩
  · cases port.endpoint (mapMuxId o.desc.bytes) with
    | none => exact hback
    | some dev =>
      refine (fragPull_leaves ho h.len_gt).bind ?_
      rintro _ _ ⟨rfl,d,rfl,hd⟩
      dsimp only
      by_cases hz : BitVec.ofNat 32 (mapDataLen o.desc.bytes) = 0
      · refine (fragTrim_zero (o := ⟨o.id,d⟩) ho hz).bind ?_
        rintro _ _ ⟨rfl,rfl⟩
        exact .pure rfl
      · refine (fragTrim_leaves (o := ⟨o.id,d⟩) ho hz).bind ?_
        rintro _ _ ⟨rfl,e,rfl,he⟩
        have hv : e.hdrsValid = false :=
          (fragTrim_hdrsValid he).trans ((pull_hdrsValid hd).trans h.plain)
        refine deliverAll_leaves [⟨o.id,e⟩] ⟨ho,rfl⟩ ?_
        intro seg hseg hvalid
        rw [List.mem_singleton.mp hseg] at hvalid
        simp [hv] at hvalid

theorem ingressFrame_breaks (ha : ∀ k, alloc k = true) (hf : Mishandled port o.desc) :
    Breaks DescPool.Sound held (ingressFrame checksumPkt alloc port o) := by
  obtain ⟨dev,ht,hf⟩ := hf
  refine (use_leaves ho).breaks ?_
  rintro _ _ rfl
  rw [h.qmap]
  dsimp only
  rw [mapCdBit_take,mapMuxId_take,mapNextHdr_take,mapDataLen_take,ht.data,ht.endpoint,
    ht.nextHdr,ht.format,if_neg (by decide),if_neg (not_le.mpr ht.muxId)]
  exact nextHdr_breaks ho h ht ha hf

end Frame

theorem ingressFrames_leaves {port : IngressPort} {rest : Finset ℕ} (os : List Owned)
    (hback : HandsBack rest (os.map Owned.id) held)
    (h : ∀ o ∈ os, Arrived port.dataFormat o.desc ∧ ¬Mishandled port o.desc) :
    Leaves DescPool.Sound held (ingressFrames checksumPkt alloc port os) fun _ held' =>
      held' = rest := by
  induction os generalizing held with
  | nil => exact .pure hback
  | cons o os ih =>
    obtain ⟨harr,hok⟩ := h o (by simp)
    refine (ingressFrame_leaves hback.1 harr hok).bind ?_
    rintro _ _ rfl
    exact ih hback.2 fun o ho => h o (by simp [ho])

theorem ingressFrames_breaks {port : IngressPort} {rest : Finset ℕ} (os : List Owned)
    (hback : HandsBack rest (os.map Owned.id) held)
    (h : ∀ o ∈ os, Arrived port.dataFormat o.desc) (ha : ∀ k, alloc k = true)
    (hf : ∃ o ∈ os, Mishandled port o.desc) :
    Breaks DescPool.Sound held (ingressFrames checksumPkt alloc port os) := by
  induction os generalizing held with
  | nil => simp at hf
  | cons o os ih =>
    have harr := h o (by simp)
    by_cases ho : Mishandled port o.desc
    · exact (ingressFrame_breaks hback.1 harr ha ho).bind _
    · refine (ingressFrame_leaves hback.1 harr ho).breaks ?_
      rintro _ _ rfl
      refine ih hback.2 (fun o ho => h o (by simp [ho])) ?_
      obtain ⟨o',ho',hf⟩ := hf
      rcases List.mem_cons.mp ho' with rfl|ho'
      · exact absurd hf ho
      · exact ⟨o',ho',hf⟩

/-! ## The whole run -/

section Run

variable (hcopy : CopiesBits skbCopyBits) {port : IngressPort}

include hcopy

/-- Skbs without frames of the four kinds leave nothing held, whatever the allocator does. -/
theorem fragIngressHandler_leaves (chain : List RxSkb) (h : ∀ rx ∈ chain, CleanSkb port rx) :
    Leaves DescPool.Sound held (fragIngressHandler skbCopyBits checksumPkt alloc port chain)
      fun r held' => r = some () ∧ held' = held := by
  induction chain with
  | nil => exact .pure ⟨rfl,rfl⟩
  | cons rx chain ih =>
    have hrx := h rx (by simp)
    refine (deaggregate_leaves hcopy port.dataFormat rx).bind ?_
    rintro _ held' ⟨os,rest,rfl,hback,hall⟩
    obtain rfl : rest = held := hall.kept.resolve_right fun hc => hrx.complete hc.1
    refine (ingressFrames_leaves os hback fun o ho => ?_).bind ?_
    · have hfrom := hall.frames o ho
      exact ⟨hfrom.arrived,hrx.frames o.desc hfrom⟩
    · rintro _ _ rfl
      exact ih fun rx hm => h rx (by simp [hm])

/-- With memory for everything, a frame of the four kinds is never made good. -/
theorem fragIngressHandler_loses (chain : List RxSkb) (ha : ∀ k, alloc k = true)
    (h : ∃ rx ∈ chain, ¬CleanSkb port rx) :
    Loses DescPool.Sound held held
      (fragIngressHandler skbCopyBits checksumPkt alloc port chain) := by
  induction chain generalizing held with
  | nil => simp at h
  | cons rx chain ih =>
    refine (deaggregate_leaves hcopy port.dataFormat rx).bind_loses ?_
    rintro _ held' ⟨os,rest,rfl,hback,hall⟩
    have hsub : held ⊆ rest := by
      rcases hall.kept with rfl|⟨-,id,-,rfl⟩
      · exact subset_rfl
      · exact Finset.subset_insert id held
    have harr : ∀ o ∈ os, Arrived port.dataFormat o.desc :=
      fun o ho => (hall.frames o ho).arrived
    by_cases hf : ∃ o ∈ os, Mishandled port o.desc
    · exact ((ingressFrames_breaks os hback harr ha hf).bind _).loses
    · refine (ingressFrames_leaves os hback fun o ho =>
        ⟨harr o ho,fun hm => hf ⟨o,ho,hm⟩⟩).bind_loses ?_
      rintro _ rest rfl
      by_cases hrest : ∃ rx ∈ chain, ¬CleanSkb port rx
      · exact (ih hrest).mono hsub
      · -- then this skb is cut short, and what it lost stays lost
        have hclean : ∀ rx ∈ chain, CleanSkb port rx :=
          fun rx hm => not_not.mp fun hc => hrest ⟨rx,hm,hc⟩
        have hcut : CutShortFrom port.dataFormat rx 0 := by
          by_contra hc
          obtain ⟨rx',hm,hnot⟩ := h
          rcases List.mem_cons.mp hm with rfl|hm
          · refine hnot ⟨fun d hd hmis => hf ?_,hc⟩
            obtain ⟨o,ho,hod⟩ := (hall.all ha).1 d hd
            exact ⟨o,ho,hod ▸ hmis⟩
          · exact hnot (hclean rx' hm)
        have hne : rest ≠ held := (hall.all ha).2 hcut
        refine (fragIngressHandler_leaves hcopy chain hclean).loses ?_
        rintro _ _ ⟨-,rfl⟩
        exact hsub.ssubset_of_ne hne.symm

end Run

/-- Every descriptor is put back exactly once and not used after that, however allocation
goes, when and only when the skbs have no frames of the four kinds. -/
theorem fragIngressHandler_disposes_iff (hcopy : CopiesBits skbCopyBits)
    (checksumPkt : FragDescriptor → CsumPkt) (port : IngressPort) (chain : List RxSkb) :
    (∀ (alloc : ℕ → Bool) (pool : DescPool), pool.Sound ∅ →
      (fragIngressHandler skbCopyBits checksumPkt alloc port chain pool).val = some () ∧
      Disposed (fragIngressHandler skbCopyBits checksumPkt alloc port chain pool).log) ↔
      ∀ rx ∈ chain, CleanSkb port rx := by
  constructor
  · intro h
    by_contra hc
    have hex : ∃ rx ∈ chain, ¬CleanSkb port rx := by simpa using hc
    have hsound : DescPool.Sound ⟨[],0,0⟩ ∅ := ⟨by simp,by simp,by simp⟩
    have hlose : Loses DescPool.Sound ∅ ∅
        (fragIngressHandler skbCopyBits checksumPkt (fun _ => true) port chain) :=
      fragIngressHandler_loses hcopy chain (fun _ => rfl) hex
    exact hlose.not_disposed hsound (h _ _ hsound).2
  · intro h alloc pool hsound
    have hrun : Leaves DescPool.Sound ∅
        (fragIngressHandler skbCopyBits checksumPkt alloc port chain)
        fun r held' => r = some () ∧ held' = ∅ := fragIngressHandler_leaves hcopy chain h
    obtain ⟨-,-,-,hval,-⟩ := hrun pool hsound
    exact ⟨hval,(hrun.imp fun _ _ hq => hq.2).disposed hsound⟩

/-- A port in the v5 checksum format with an endpoint for every mux id. -/
def cksumv5Ingress : IngressPort := ⟨privFlagsIngressMapCksumv5,fun _ => some ⟨false,true⟩⟩

theorem fragIngressHandler_disposes_iff_straddling :
    (∀ (alloc : ℕ → Bool) (pool : DescPool), pool.Sound ∅ →
      (fragIngressHandler walkCopyBits (fun _ => ⟨0,0,0,false⟩) alloc cksumv5Ingress
        [⟨straddlingSkb,0⟩] pool).val = some () ∧
      Disposed (fragIngressHandler walkCopyBits (fun _ => ⟨0,0,0,false⟩) alloc cksumv5Ingress
        [⟨straddlingSkb,0⟩] pool).log) ↔
      ∀ rx ∈ [⟨straddlingSkb,0⟩], CleanSkb cksumv5Ingress rx :=
  fragIngressHandler_disposes_iff copiesBits_walkCopyBits _ cksumv5Ingress [⟨straddlingSkb,0⟩]

/-- A checksum packet of one byte, which is padding. -/
def paddingSkb : Skb where
  frags := [⟨[0x41,0,0,1,4,0,0,0,7],0,9⟩]
  fits := by decide

/-- A QMAP header of a packet of one byte, and nothing behind it. -/
def headerOnlySkb : Skb where
  frags := [⟨[0,0,0,1],0,4⟩]
  fits := by decide

/-- The one descriptor is recycled twice; the other is never recycled. -/
theorem not_disposed_padding : DescPool.Sound ⟨[],0,0⟩ ∅ ∧
    ¬Disposed (fragIngressHandler walkCopyBits (fun _ => ⟨0,0,0,false⟩) (fun _ => true)
      cksumv5Ingress [⟨paddingSkb,0⟩] ⟨[],0,0⟩).log ∧
    ¬Disposed (fragIngressHandler walkCopyBits (fun _ => ⟨0,0,0,false⟩) (fun _ => true)
      cksumv5Ingress [⟨headerOnlySkb,0⟩] ⟨[],0,0⟩).log := by
  rw [disposed_iff_track,disposed_iff_track]
  exact ⟨⟨by simp,by simp,by simp⟩,by decide,by decide⟩

end Ingress
end Rmnet
end MarbleModules
