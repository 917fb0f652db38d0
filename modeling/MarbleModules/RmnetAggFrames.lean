import MarbleModules.RmnetAggBuffer
import MarbleModules.RmnetDeaggregateFrames

/-! What an aggregated buffer means: the headers that a frame gets on its way out, and the cutting
of a linear buffer into its frames, which gives back what has been copied into it. -/
namespace MarbleModules
namespace RmnetAgg

open Runs Rmnet AggregationState

variable {w : AggregationState} {dataFormat peer : BitVec 32}

/-! ## Cutting -/

/-- What one call of `rmnet_map_deaggregate` returns: nothing, the skb itself, or a new skb with
what is left of the old one. -/
inductive Cut
  | done
  | same
  | packet (skbn rest : List UInt8)

/-- The bytes that belong to the packet at the front -/
def packetLen (dataFormat : BitVec 32) (maph : List UInt8) : ℕ :=
  let packetLen := mapPktLen maph+mapHeaderSize
  if hasFlags dataFormat flagsIngressMapCksumv4 then packetLen+dlCsumTrailerSize
  else if hasFlags dataFormat privFlagsIngressMapCksumv5 ∧ mapCdBit maph = false then
    packetLen+v5CsumHeaderSize
  else packetLen

/-- The packet has a second header, and that is one for coalescing. -/
def isCoalescing (dataFormat : BitVec 32) (maph : List UInt8) : Bool :=
  !hasFlags dataFormat flagsIngressMapCksumv4 && hasFlags dataFormat privFlagsIngressMapCksumv5 &&
    !mapCdBit maph && (maph.getD mapHeaderSize 0).toNat/2 == mapHeaderTypeCoalescing

/-- `rmnet_map_deaggregate`, where memory is found -/
def mapDeaggregate (dataFormat : BitVec 32) (skb : List UInt8) : Cut :=
  if skb.length = 0 then .done
  else if skb.length < packetLen dataFormat skb then .done
  else if mapPktLen skb = 0 then .done
  else if isCoalescing dataFormat skb then .same
  else .packet (skb.take (packetLen dataFormat skb)) (skb.drop (packetLen dataFormat skb))

theorem packetLen_pos (dataFormat : BitVec 32) (maph : List UInt8) :
    0 < packetLen dataFormat maph := by
  unfold packetLen
  extract_lets n
  have hn : 0 < n := Nat.add_pos_right _ (by decide)
  split
  · omega
  split <;> omega

theorem mapDeaggregate_lt {skb skbn rest : List UInt8} :
    mapDeaggregate dataFormat skb = .packet skbn rest → rest.length < skb.length := by
  fun_cases mapDeaggregate with
  | case1 h0 => exact fun h => Cut.noConfusion h
  | case2 h0 hlen => exact fun h => Cut.noConfusion h
  | case3 h0 hlen hpkt => exact fun h => Cut.noConfusion h
  | case4 h0 hlen hpkt hcoal => exact fun h => Cut.noConfusion h
  | case5 h0 hlen hpkt hcoal =>
    intro h
    injection h with _ hrest
    have := packetLen_pos dataFormat skb
    rw [← hrest,List.length_drop]
    omega

/-- The loop of `rmnet_map_ingress_handler` over one skb: what it hands on. -/
def mapIngress (dataFormat : BitVec 32) (skb : List UInt8) : List (List UInt8) :=
  match _h : mapDeaggregate dataFormat skb with
  | .done => []
  | .same => [skb]
  | .packet skbn rest => skbn::mapIngress dataFormat rest
termination_by skb.length
decreasing_by exact mapDeaggregate_lt _h

theorem mapIngress_done {skb : List UInt8} (h : mapDeaggregate dataFormat skb = .done) :
    mapIngress dataFormat skb = [] := by
  rw [mapIngress]
  split
  · rfl
  · simp_all
  · simp_all

theorem mapIngress_packet {skb skbn rest : List UInt8}
    (h : mapDeaggregate dataFormat skb = .packet skbn rest) :
    mapIngress dataFormat skb = skbn::mapIngress dataFormat rest := by
  rw [mapIngress]
  split
  · simp_all
  · simp_all
  · next skbn' rest' h' =>
    rw [h] at h'
    injection h' with hskbn hrest
    rw [hskbn,hrest]

/-- The bytes are one packet, whatever comes behind them. -/
def Framed (dataFormat : BitVec 32) (bytes : List UInt8) : Prop :=
  ∀ rest, mapDeaggregate dataFormat (bytes++rest) = .packet bytes rest

/-- Packets that have been put one behind the other are cut apart again. -/
theorem mapIngress_flatten {packets : List (List UInt8)}
    (h : ∀ bytes ∈ packets, Framed dataFormat bytes) :
    mapIngress dataFormat packets.flatten = packets := by
  induction packets with
  | nil => exact mapIngress_done rfl
  | cons bytes packets ih =>
    rw [List.forall_mem_cons] at h
    rw [List.flatten_cons,mapIngress_packet (h.1 packets.flatten),ih h.2]

theorem framed_of_length {bytes : List UInt8} (h5 : mapHeaderSize < bytes.length)
    (hlen : packetLen dataFormat bytes = bytes.length) (hpkt : mapPktLen bytes ≠ 0)
    (hcoal : isCoalescing dataFormat bytes = false) : Framed dataFormat bytes := by
  intro rest
  have hget : ∀ k < 5, (bytes++rest).getD k 0 = bytes.getD k 0 := fun k hk =>
    getD_append rest (by simp only [mapHeaderSize] at h5; omega)
  have hpkt' : mapPktLen (bytes++rest) = mapPktLen bytes :=
    mapPktLen_congr fun k hk => hget k (by omega)
  have hcd : mapCdBit (bytes++rest) = mapCdBit bytes := by
    rw [mapCdBit,mapCdBit,hget 0 (by decide)]
  have hlen' : packetLen dataFormat (bytes++rest) = bytes.length := by
    rw [← hlen,packetLen,packetLen,hpkt',hcd]
  have hcoal' : isCoalescing dataFormat (bytes++rest) = false := by
    rw [← hcoal,isCoalescing,isCoalescing,hcd,hget mapHeaderSize (by decide)]
  have h0 : ¬(bytes++rest).length = 0 := by
    rw [List.length_append]
    omega
  have hle : ¬(bytes++rest).length < bytes.length := by
    rw [List.length_append]
    omega
  rw [mapDeaggregate,if_neg h0,hlen',if_neg hle,hpkt',if_neg hpkt,hcoal',if_neg Bool.false_ne_true,
    List.take_left' rfl,List.drop_left' rfl]

/-! ## Headers -/

/-- A packet that is to be sent: what the headers are made from, and its bytes. `gso` is the size
of its segments and whether they keep the IP id. -/
structure Packet where
  muxId : UInt8
  protocol : ℕ
  llm : Bool
  apsLlb : Bool
  checksumPartial : Bool
  gso : Option (ℕ × Bool)
  payload : List UInt8

/-- `rmnet_map_get_csum_field` finds the checksum of TCP and UDP. -/
def hasCsumField (p : Packet) : Bool :=
  let proto := fun k => (p.payload.getD k 0).toNat
  let known := fun k => proto k = 6 ∨ proto k = 17
  if p.protocol = 0x0800 then known 9 else if p.protocol = 0x86DD then known 6 else false

def bitIf (b : Bool) (value : UInt8) : UInt8 := if b then value else 0

/-- `rmnet_map_v5_checksum_uplink_packet` -/
def v5CsumHeader (dataFormat : BitVec 32) (p : Packet) : List UInt8 :=
  let prio := hasFlags dataFormat egressFormatPriority
  let csum := hasFlags dataFormat privFlagsEgressMapCksumv5 && p.checksumPartial && hasCsumField p
  [UInt8.ofNat (mapHeaderTypeCsumOffload*2),
    bitIf (prio && p.apsLlb) 0x10+bitIf (prio && p.llm) 0x20+bitIf csum 0x80,0,0]

/-- `rmnet_map_add_tso_header` -/
def v5TsoHeader (dataFormat : BitVec 32) (p : Packet) (gsoSize : ℕ) (fixedId : Bool) :
    List UInt8 :=
  let prio := hasFlags dataFormat egressFormatPriority
  [6,bitIf (prio && p.llm) 0x20+bitIf fixedId 0x80,UInt8.ofNat (gsoSize/2^8),UInt8.ofNat gsoSize]

/-- `rmnet_map_add_map_header`; `none` is when there is no room for the padding. -/
def addMapHeader (dataFormat : BitVec 32) (skb : List UInt8) (hdrlen : ℕ) (pad : Bool)
    (tailroom : ℕ) : Option (List UInt8) :=
  let mapDatalen := skb.length-hdrlen
  let nextHdr := bitIf (hasFlags dataFormat privFlagsEgressMapCksumv5) 0x40
  let header := fun padLen pktLen =>
    [UInt8.ofNat (padLen%64)+nextHdr,0,UInt8.ofNat (pktLen/2^8),UInt8.ofNat pktLen]
  let padding := (4-mapDatalen%4)%4
  if pad = false then some (header 0 mapDatalen++skb)
  else if padding = 0 ∨ padding ≤ tailroom then
    some (header padding (mapDatalen+padding)++skb++List.replicate padding 0)
  else none

/-- The second header that `rmnet_map_egress_handler` has put in front, without the one of the v4
checksum format -/
def ulHeader (dataFormat : BitVec 32) (p : Packet) : List UInt8 :=
  if hasFlags dataFormat (privFlagsEgressMapCksumv5 ||| egressFormatPriority) then
    match p.gso with
    | some (gsoSize,fixedId) => v5TsoHeader dataFormat p gsoSize fixedId
    | none => v5CsumHeader dataFormat p
  else []

/-- The bytes that `rmnet_map_egress_handler` makes of a packet -/
def egressBytes (dataFormat : BitVec 32) (p : Packet) : Option (List UInt8) :=
  let header := ulHeader dataFormat p
  (addMapHeader dataFormat (header++p.payload) header.length false 0).map (·.set 1 p.muxId)

/-- What `__rmnet_map_ingress_handler` delivers of a packet that has no coalescing header -/
def ingressPayload (dataFormat : BitVec 32) (skb : List UInt8) : Option (List UInt8) :=
  let qmap := (skb.getD 0 0).toNat
  let len := (mapPktLen skb+2^16-qmap%64)%2^16
  if mapCdBit skb then none
  else if qmap.testBit 6 ∧
      hasFlags dataFormat (flagsIngressCoalesce ||| privFlagsIngressMapCksumv5) then
    if (skb.getD mapHeaderSize 0).toNat/2 = mapHeaderTypeCsumOffload then
      some ((skb.drop (mapHeaderSize+v5CsumHeaderSize)).take len)
    else none
  else some ((skb.drop mapHeaderSize).take len)

/-- The two ends have the same checksum format, v5 or none, and packets have a priority in v5
only. -/
structure SameFormat (dataFormat peer : BitVec 32) : Prop where
  ingress_v4 : hasFlags peer flagsIngressMapCksumv4 = false
  v5 : hasFlags peer privFlagsIngressMapCksumv5 = hasFlags dataFormat privFlagsEgressMapCksumv5
  priority : hasFlags dataFormat egressFormatPriority = true →
    hasFlags dataFormat privFlagsEgressMapCksumv5 = true

/-- A packet that `pkt_len` can count, not segmented by the hardware -/
structure Sendable (p : Packet) : Prop where
  nonempty : p.payload ≠ []
  length_lt : p.payload.length < 2^16
  gso : p.gso = none

section Egress

variable {p : Packet}

/-- The bytes of a packet that the hardware does not segment -/
def sentBytes (dataFormat : BitVec 32) (p : Packet) : List UInt8 :=
  let v5 := hasFlags dataFormat privFlagsEgressMapCksumv5
  [bitIf v5 0x40,p.muxId,UInt8.ofNat (p.payload.length/2^8),UInt8.ofNat p.payload.length]++
    (if v5 then v5CsumHeader dataFormat p else [])++p.payload

theorem hasFlags_or (flags flags' : BitVec 32) : hasFlags dataFormat (flags ||| flags') =
    (hasFlags dataFormat flags || hasFlags dataFormat flags') := by
  unfold hasFlags
  grind

theorem ulHeader_eq (hformat : SameFormat dataFormat peer) (hp : Sendable p) :
    ulHeader dataFormat p = if hasFlags dataFormat privFlagsEgressMapCksumv5 then
      v5CsumHeader dataFormat p else [] := by
  rw [ulHeader,hp.gso,hasFlags_or]
  cases hv5 : hasFlags dataFormat privFlagsEgressMapCksumv5 with
  | true => rfl
  | false =>
    have hprio : hasFlags dataFormat egressFormatPriority = false := by
      by_contra hno
      rw [Bool.not_eq_false] at hno
      exact absurd (hformat.priority hno) (Bool.eq_false_iff.mp hv5)
    rw [hprio]
    rfl

theorem egressBytes_eq (hformat : SameFormat dataFormat peer) (hp : Sendable p) :
    egressBytes dataFormat p = some (sentBytes dataFormat p) := by
  rw [egressBytes,ulHeader_eq hformat hp,addMapHeader]
  simp [sentBytes]

theorem toNat_pktLen {n : ℕ} (hn : n < 2^16) :
    (UInt8.ofNat (n/2^8)).toNat*256+(UInt8.ofNat n).toNat = n := by
  rw [UInt8.toNat_ofNat',UInt8.toNat_ofNat']
  omega

theorem mapPktLen_sentBytes (hp : Sendable p) :
    mapPktLen (sentBytes dataFormat p) = p.payload.length := by
  have h2 : (sentBytes dataFormat p).getD 2 0 = UInt8.ofNat (p.payload.length/2^8) := rfl
  have h3 : (sentBytes dataFormat p).getD 3 0 = UInt8.ofNat p.payload.length := rfl
  rw [mapPktLen,h2,h3,toNat_pktLen hp.length_lt]

theorem qmap_sentBytes : ((sentBytes dataFormat p).getD 0 0).toNat =
    if hasFlags dataFormat privFlagsEgressMapCksumv5 then 64 else 0 := by
  have h0 : (sentBytes dataFormat p).getD 0 0 =
      bitIf (hasFlags dataFormat privFlagsEgressMapCksumv5) 0x40 := rfl
  rw [h0,bitIf]
  split <;> rfl

theorem mapCdBit_sentBytes : mapCdBit (sentBytes dataFormat p) = false := by
  rw [mapCdBit,qmap_sentBytes]
  split <;> rfl

theorem type_sentBytes (hv5 : hasFlags dataFormat privFlagsEgressMapCksumv5 = true) :
    ((sentBytes dataFormat p).getD mapHeaderSize 0).toNat/2 = mapHeaderTypeCsumOffload := by
  simp [sentBytes,hv5,v5CsumHeader,mapHeaderSize,mapHeaderTypeCsumOffload]

theorem length_sentBytes : (sentBytes dataFormat p).length = p.payload.length+mapHeaderSize+
    if hasFlags dataFormat privFlagsEgressMapCksumv5 then v5CsumHeaderSize else 0 := by
  simp only [sentBytes,mapHeaderSize,v5CsumHeaderSize,v5CsumHeader]
  split <;> simp

theorem framed_sentBytes (hformat : SameFormat dataFormat peer) (hp : Sendable p) :
    Framed peer (sentBytes dataFormat p) := by
  have hpos : 0 < p.payload.length := List.length_pos_of_ne_nil hp.nonempty
  refine framed_of_length ?_ ?_ ?_ ?_
  · rw [length_sentBytes]
    omega
  · rw [packetLen,hformat.ingress_v4,hformat.v5,mapPktLen_sentBytes hp,mapCdBit_sentBytes,
      length_sentBytes]
    simp only [and_true,Bool.false_eq_true,if_false]
    split <;> rfl
  · rw [mapPktLen_sentBytes hp]
    omega
  · rw [isCoalescing,hformat.v5]
    cases hv5 : hasFlags dataFormat privFlagsEgressMapCksumv5 with
    | true =>
      rw [type_sentBytes hv5]
      simp [mapHeaderTypeCsumOffload,mapHeaderTypeCoalescing]
    | false => simp

theorem drop_sentBytes (dataFormat : BitVec 32) (p : Packet) : (sentBytes dataFormat p).drop (if
    hasFlags dataFormat privFlagsEgressMapCksumv5 then mapHeaderSize+v5CsumHeaderSize
    else mapHeaderSize) = p.payload := by
  cases hv5 : hasFlags dataFormat privFlagsEgressMapCksumv5 <;>
    simp [sentBytes,hv5,v5CsumHeader,mapHeaderSize,v5CsumHeaderSize]

theorem ingressPayload_sentBytes (hformat : SameFormat dataFormat peer) (hp : Sendable p) :
    ingressPayload peer (sentBytes dataFormat p) = some p.payload := by
  have hlen : (p.payload.length+2^16-0)%2^16 = p.payload.length := by
    have := hp.length_lt
    omega
  have hdrop := drop_sentBytes dataFormat p
  rw [ingressPayload,mapCdBit_sentBytes,qmap_sentBytes,mapPktLen_sentBytes hp,hasFlags_or,
    hformat.v5]
  cases hv5 : hasFlags dataFormat privFlagsEgressMapCksumv5 with
  | true =>
    have hbit : (64 : ℕ).testBit 6 = true := by decide
    rw [hv5,if_pos rfl] at hdrop
    rw [type_sentBytes hv5,hdrop]
    simp only [if_true,Bool.or_true,hbit,and_self,Nat.mod_self,Bool.false_eq_true,if_false,hlen,
      List.take_length]
  | false =>
    rw [hv5,if_neg Bool.false_ne_true] at hdrop
    rw [hdrop]
    simp only [Bool.false_eq_true,if_false,Nat.zero_testBit,false_and,Nat.zero_mod,hlen,
      List.take_length]

end Egress

/-! ## The whole way -/

/-- The frame has been made of such a packet. -/
def FromPacket (dataFormat : BitVec 32) (f : Frame) : Prop :=
  ∃ p, Sendable p ∧ egressBytes dataFormat p = some f.bytes

theorem step_fromPacket {op : Op} (hw : Ledger w)
    (hall : ∀ f ∈ w.submitted, FromPacket dataFormat f)
    (hop : ∀ f, incoming op = some f → FromPacket dataFormat f) :
    ∀ f ∈ (step w op).submitted, FromPacket dataFormat f := by
  intro f hf
  cases step_moves hw.own op with
  | keeps hlisted hsubmitted hheld => exact hall f (hsubmitted ▸ hf)
  | comes f' hidle hnr hin hlisted hsubmitted hheld =>
    rw [hsubmitted,List.mem_append,List.mem_singleton] at hf
    rcases hf with hf | rfl
    · exact hall f hf
    · obtain ⟨g,hg,hbytes⟩ := hin
      obtain ⟨p,hp,hsent⟩ := hop g hg
      exact ⟨p,hp,hbytes ▸ hsent⟩
  | appends f' hold hlisted hsubmitted hheld => exact hall f (hsubmitted ▸ hf)
  | passes f' hold hpass hlisted hsubmitted hheld => exact hall f (hsubmitted ▸ hf)

theorem sent_submitted {frames : List Frame} {f : Frame} (hw : Ledger w) (hframes : frames ∈ w.sent)
    (hf : f ∈ frames) : f ∈ w.submitted := by
  refine (List.mem_filter.mp ((hw.once f.sender).mem_iff.mp (List.mem_filter.mpr ⟨?_,?_⟩))).1
  · exact List.mem_append_left _ (List.mem_append_left _ (List.mem_flatten_of_mem hframes hf))
  · exact decide_eq_true rfl

def v5Format : BitVec 32 := egressFormatAggregation ||| privFlagsEgressMapCksumv5

def packetOf (payload : List UInt8) : Packet := ⟨3,0x0800,false,false,true,none,payload⟩

def frameOf (sender : ℕ) (payload : List UInt8) : Frame :=
  ⟨sender,0,0x0800,false,false,sentBytes v5Format (packetOf payload)⟩

def pairOps : List Op :=
  [.egress (frameOf 0 [1,2,3]),.egress (frameOf 1 [4,5]),.turn 0 0 true,.turn 1 500 true,
    .timerFires,.workStart,.workFlush]

/-- What the timer sends -/
def pairFrames : List Frame := [frameOf 0 [1,2,3],{ frameOf 1 [4,5] with nr := 1 }]

theorem sent_pairOps : (run step (txAggregateInit v5Format) pairOps).sent = [pairFrames] := by
  decide

end RmnetAgg
end MarbleModules
