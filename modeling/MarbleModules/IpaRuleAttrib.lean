import Mathlib.Data.Finset.Basic
import MarbleModules.IpaRuleEq

/-! Rules from attributes: the generator that writes the body of a rule while it goes through the
attributes one after another. -/
namespace MarbleModules
namespace IpaRule
open TwoCursors

/-- `enum ipa_ip_type` -/
inductive IpType
  | v4
  | v6
  | max
deriving DecidableEq

/-- The bits `IPA_FLT_*` of `attrib_mask`; the generator looks at no other ones. -/
inductive Flt
  | TOS
  | PROTOCOL
  | SRC_ADDR
  | DST_ADDR
  | SRC_PORT_RANGE
  | DST_PORT_RANGE
  | TYPE
  | CODE
  | SPI
  | SRC_PORT
  | DST_PORT
  | TC
  | FLOW_LABEL
  | NEXT_HDR
  | META_DATA
  | FRAGMENT
  | TOS_MASKED
  | MAC_SRC_ADDR_ETHER_II
  | MAC_DST_ADDR_ETHER_II
  | MAC_SRC_ADDR_802_3
  | MAC_DST_ADDR_802_3
  | MAC_SRC_ADDR_802_1Q
  | MAC_DST_ADDR_802_1Q
  | MAC_ETHER_TYPE
  | MAC_DST_ADDR_L2TP
  | TCP_SYN
  | TCP_SYN_L2TP
  | L2TP_INNER_IP_TYPE
  | L2TP_INNER_IPV4_DST_ADDR
  | IS_PURE_ACK
  | VLAN_ID
  | L2TP_UDP_INNER_MAC_DST_ADDR
  | other (bit : ℕ)
deriving DecidableEq

/-- The bits `IPA_FLT_EXT_*` of `ext_attrib_mask`. -/
inductive FltExt
  | L2TP_UDP_INNER_ETHER_TYPE
  | MTU
  | L2TP_UDP_TCP_SYN
  | L2TP_UDP_INNER_NEXT_HDR
  | NEXT_HDR
  | other (bit : ℕ)
deriving DecidableEq

/-- `u8 mac[ETH_ALEN]` -/
abbrev Mac := Fin 6 → UInt8

/-- `u.v4` of the attributes -/
structure AttribV4 where
  tos : UInt8
  protocol : UInt8
  srcAddr : UInt32
  srcAddrMask : UInt32
  dstAddr : UInt32
  dstAddrMask : UInt32

/-- `u.v6` of the attributes -/
structure AttribV6 where
  tc : UInt8
  nextHdr : UInt8
  flowLabel : UInt32
  srcAddr : Fin 4 → UInt32
  srcAddrMask : Fin 4 → UInt32
  dstAddr : Fin 4 → UInt32
  dstAddrMask : Fin 4 → UInt32

/-- `struct ipa_rule_attrib`, the two views of the union side by side. -/
structure RuleAttrib where
  attribMask : Finset Flt
  extAttribMask : Finset FltExt
  srcPortLo : UInt16
  srcPortHi : UInt16
  dstPortLo : UInt16
  dstPortHi : UInt16
  type : UInt8
  code : UInt8
  tosValue : UInt8
  tosMask : UInt8
  spi : UInt32
  srcPort : UInt16
  dstPort : UInt16
  metaData : UInt32
  metaDataMask : UInt32
  srcMacAddr : Mac
  srcMacAddrMask : Mac
  dstMacAddr : Mac
  dstMacAddrMask : Mac
  etherType : UInt16
  v4 : AttribV4
  v6 : AttribV6
  vlanId : UInt16
  payloadLength : UInt16
  l2tpUdpNextHdr : UInt8

/-- `attrib->attrib_mask & IPA_FLT_*` -/
def RuleAttrib.has (a : RuleAttrib) (f : Flt) : Bool := f ∈ a.attribMask

/-- `attrib->ext_attrib_mask & IPA_FLT_EXT_*` -/
def RuleAttrib.hasExt (a : RuleAttrib) (f : FltExt) : Bool := f ∈ a.extAttribMask

/-- `ipa_fltrt_rule_generation_err_check`: true if the rule is refused. -/
def ruleGenerationErrCheck (ipt : IpType) (a : RuleAttrib) : Bool :=
  match ipt with
  | .v4 => a.has .NEXT_HDR || a.has .TC || a.has .FLOW_LABEL
  | .v6 => a.has .TOS || a.has .PROTOCOL
  | .max => true

section Values

/-- A 32-bit word written as four bytes, the lowest first. -/
def bytes32 (b0 b1 b2 b3 : UInt8) : UInt32 := UInt32.ofNat (leVal [b0,b1,b2,b3])

/-- A 32-bit word written as two half-words, the lower first. -/
def halves32 (lo hi : UInt16) : UInt32 := UInt32.ofNat (lo.toNat+65536*hi.toNat)

/-- `htons` on a little-endian processor -/
def htons (w : UInt16) : UInt16 := (w <<< 8) ||| (w >>> 8)

/-- Sixteen bytes written as four words, the first at the lowest address. -/
def words128 (w0 w1 w2 w3 : UInt32) : Bytes16 :=
  ⟨leBytes 4 w0.toNat++(leBytes 4 w1.toNat++(leBytes 4 w2.toNat++leBytes 4 w3.toNat)),by simp⟩

/-- A MAC address in the upper bytes, its first byte at the highest address. -/
def mac128 (m : Mac) : Bytes16 :=
  ⟨List.replicate 10 0++[m 5,m 4,m 3,m 2,m 1,m 0],by simp⟩

end Values

section Equations

/-- The equations of which the hardware has two. -/
inductive Kind
  | ofstMeq128
  | ofstMeq32
  | ihlOfstMeq32
  | ihlOfstRng16
deriving DecidableEq

/-- The arrays `ipa3_0_ofst_meq128`, `ipa3_0_ofst_meq32`, `ipa3_0_ihl_ofst_meq32` and
`ipa3_0_ihl_ofst_rng16`. -/
def Kind.slot : Kind → ℕ → Equation
  | .ofstMeq128,0 => .OFFSET_MEQ128_0
  | .ofstMeq128,_ => .OFFSET_MEQ128_1
  | .ofstMeq32,0 => .OFFSET_MEQ32_0
  | .ofstMeq32,_ => .OFFSET_MEQ32_1
  | .ihlOfstMeq32,0 => .IHL_OFFSET_MEQ32_0
  | .ihlOfstMeq32,_ => .IHL_OFFSET_MEQ32_1
  | .ihlOfstRng16,0 => .IHL_OFFSET_RANGE16_0
  | .ihlOfstRng16,_ => .IHL_OFFSET_RANGE16_1

/-- One equation with the parameters that an attribute gives it; `stray` is a byte among the extra
words that belongs to no equation. -/
inductive Eqn
  | pureAck
  | tos (v : UInt8)
  | protocol (v : UInt8)
  | tc (v : UInt8)
  | ofstMeq128 (e : MaskEq128)
  | ofstMeq32 (e : MaskEq32)
  | ihlOfstMeq32 (e : MaskEq32)
  | metaData (mask value : UInt32)
  | ihlOfstRng16 (e : RangeEq16)
  | fl (v : UInt32)
  | frag
  | stray (b : UInt8)

def Eqn.kind : Eqn → Option Kind
  | .ofstMeq128 _ => some .ofstMeq128
  | .ofstMeq32 _ => some .ofstMeq32
  | .ihlOfstMeq32 _ => some .ihlOfstMeq32
  | .ihlOfstRng16 _ => some .ihlOfstRng16
  | _ => none

/-- The equation of which the hardware has one. -/
def Eqn.single : Eqn → Option Equation
  | .pureAck => some .IS_PURE_ACK
  | .tos _ => some .TOS_EQ
  | .protocol _ => some .PROTOCOL_EQ
  | .tc _ => some .TC_EQ
  | .metaData _ _ => some .METADATA_COMPARE
  | .fl _ => some .FL_EQ
  | .frag => some .IS_FRAG
  | _ => none

/-- The equation whose bit is set, with `used` slots given out so far. -/
def Eqn.equation (used : Kind → ℕ) (e : Eqn) : Option Equation :=
  match e.kind with
  | some k => some (k.slot (used k))
  | none => e.single

/-- The writes for an equation. -/
def Eqn.puts : Eqn → List Put
  | .pureAck => [.extra 0]
  | .tos v => [.extra v]
  | .protocol v => [.extra v]
  | .tc v => [.extra v]
  | .ofstMeq128 e => putMeq128 e
  | .ofstMeq32 e => putMeq32 e
  | .ihlOfstMeq32 e => putMeq32 e
  | .metaData mask value => [put32 mask,put32 value]
  | .ihlOfstRng16 e => putRange16 e
  | .fl v => [put32 (v &&& 0xFFFFF)]
  | .frag => []
  | .stray b => [.extra b]

/-- The generator at work: `en_rule`, the counters of the used slots, `tos_done` and what it has
written, equation by equation. -/
structure Gen where
  enRule : ℕ
  used : Kind → ℕ
  tosDone : Bool
  out : List Eqn

def Gen.start : Gen := ⟨0,fun _ => 0,false,[]⟩

/-- `IPA_IS_RULE_EQ_VALID`, which only the equations that a version lacks fail, and
`IPA_IS_RAN_OUT_OF_EQ` for those that take a slot. -/
def Gen.takes (hw : HwType) (s : Gen) (e : Eqn) : Bool :=
  match e.kind with
  | some k => s.used k < 2
  | none =>
    match e.single with
    | some q => isRuleEqValid hw q
    | none => true

/-- One equation: its bit, its parameters, and one slot less. -/
def Gen.add (hw : HwType) (s : Gen) (e : Eqn) : Gen where
  enRule := match e.equation s.used with
    | some q => s.enRule ||| 2^eqBitfield hw q
    | none => s.enRule
  used := match e.kind with
    | some k => Function.update s.used k (s.used k+1)
    | none => s.used
  tosDone := s.tosDone
  out := s.out++[e]

/-- What stands under an `if (attrib->attrib_mask & ..)`: a check of the attribute, an equation
without which the rule is refused, or an equation for the type of service, which another one may
take the place of. -/
inductive Block
  | check (ok : Bool)
  | eqn (e : Eqn)
  | tos (e : Eqn)
  | tosFound

def Gen.block (hw : HwType) (s : Gen) : Block → Option Gen
  | .check ok => if ok then some s else none
  | .eqn e => if s.takes hw e then some (s.add hw e) else none
  | .tos e =>
    if s.tosDone = false ∧ s.takes hw e = true then some {s.add hw e with tosDone := true}
    else some s
  | .tosFound => if s.tosDone then some s else none

def Gen.run (hw : HwType) : List Block → Gen → Option Gen
  | [],s => some s
  | b::bs,s =>
    match s.block hw b with
    | none => none
    | some s => Gen.run hw bs s

/-- The blocks whose attribute is given. -/
def given (branches : List (Bool × List Block)) : List Block :=
  branches.flatMap fun b => if b.1 then b.2 else []

end Equations

section Branches
variable (a : RuleAttrib)

/-- `ipa_fltrt_generate_mac_hw_rule_bdy` with the addresses of `ipa_fltrt_get_mac_data` -/
def macBranches : List (Bool × List Block) :=
  [(a.has .MAC_DST_ADDR_ETHER_II,
      [.eqn (.ofstMeq128 ⟨-14,mac128 a.dstMacAddrMask,mac128 a.dstMacAddr⟩)]),
    (a.has .MAC_SRC_ADDR_ETHER_II,
      [.eqn (.ofstMeq128 ⟨-8,mac128 a.srcMacAddrMask,mac128 a.srcMacAddr⟩)]),
    (a.has .MAC_DST_ADDR_802_3,
      [.eqn (.ofstMeq128 ⟨-22,mac128 a.dstMacAddrMask,mac128 a.dstMacAddr⟩)]),
    (a.has .MAC_SRC_ADDR_802_3,
      [.eqn (.ofstMeq128 ⟨-16,mac128 a.srcMacAddrMask,mac128 a.srcMacAddr⟩)]),
    (a.has .MAC_DST_ADDR_802_1Q,
      [.eqn (.ofstMeq128 ⟨-18,mac128 a.dstMacAddrMask,mac128 a.dstMacAddr⟩)]),
    (a.has .MAC_SRC_ADDR_802_1Q,
      [.eqn (.ofstMeq128 ⟨-10,mac128 a.srcMacAddrMask,mac128 a.srcMacAddr⟩)])]

def etherTypeBranch : Bool × List Block :=
  (a.has .MAC_ETHER_TYPE,
    [.eqn (.ofstMeq32 ⟨-2,halves32 0 (htons a.etherType),halves32 0 (htons a.etherType)⟩)])

/-- `ipa_fltrt_generate_vlan_hw_rule_bdy` -/
def vlanBranch : Bool × List Block :=
  (a.has .VLAN_ID,
    [.eqn (.ofstMeq32 ⟨-6,0xFFFF0FFF,0x81000000 ||| (a.vlanId &&& 0xFFF).toUInt32⟩)])

/-- A destination MAC address over two equations, its upper four bytes at `offset`. -/
def macOverTwo (offset offset' : UInt8) : List Block :=
  [.eqn (.ihlOfstMeq32 ⟨offset,
      bytes32 (a.dstMacAddrMask 3) (a.dstMacAddrMask 2) (a.dstMacAddrMask 1) (a.dstMacAddrMask 0),
      bytes32 (a.dstMacAddr 3) (a.dstMacAddr 2) (a.dstMacAddr 1) (a.dstMacAddr 0)⟩),
    .eqn (.ihlOfstMeq32 ⟨offset',bytes32 0 0 (a.dstMacAddrMask 5) (a.dstMacAddrMask 4),
      bytes32 0 0 (a.dstMacAddr 5) (a.dstMacAddr 4)⟩)]

/-- From the ICMP type to the MAC address in L2TP over UDP, which both IP versions have alike. -/
def ihlBranches : List (Bool × List Block) :=
  [(a.has .TYPE,[.eqn (.ihlOfstMeq32 ⟨0,0xFF,a.type.toUInt32⟩)]),
    (a.has .CODE,[.eqn (.ihlOfstMeq32 ⟨1,0xFF,a.code.toUInt32⟩)]),
    (a.has .SPI,[.eqn (.ihlOfstMeq32 ⟨0,0xFFFFFFFF,a.spi⟩)]),
    (a.has .MAC_DST_ADDR_L2TP,macOverTwo a 8 12),
    (a.has .L2TP_UDP_INNER_MAC_DST_ADDR,macOverTwo a 24 28)]

/-- The ether type in L2TP over UDP. -/
def innerEtherEq : MaskEq32 := ⟨76,halves32 0 a.etherType,halves32 0 a.etherType⟩

def innerEtherBranch : Bool × List Block :=
  (a.hasExt .L2TP_UDP_INNER_ETHER_TYPE,[.eqn (.ofstMeq32 (innerEtherEq a))])

def tcpSynBranch : Bool × List Block :=
  (a.has .TCP_SYN,[.eqn (.ihlOfstMeq32 ⟨12,0x20000,0x20000⟩)])

def metaDataBranch : Bool × List Block :=
  (a.has .META_DATA,[.eqn (.metaData a.metaDataMask a.metaData)])

/-- The two branches for port ranges. -/
def portRangeBranches : List (Bool × List Block) :=
  [(a.has .SRC_PORT_RANGE,[.check (!(a.srcPortHi < a.srcPortLo)),
      .eqn (.ihlOfstRng16 ⟨0,a.srcPortHi,a.srcPortLo⟩)]),
    (a.has .DST_PORT_RANGE,[.check (!(a.dstPortHi < a.dstPortLo)),
      .eqn (.ihlOfstRng16 ⟨2,a.dstPortHi,a.dstPortLo⟩)])]

/-- The two branches for single ports. -/
def portBranches : List (Bool × List Block) :=
  [(a.has .SRC_PORT,[.eqn (.ihlOfstRng16 ⟨0,a.srcPort,a.srcPort⟩)]),
    (a.has .DST_PORT,[.eqn (.ihlOfstRng16 ⟨2,a.dstPort,a.dstPort⟩)])]

def fragBranch : Bool × List Block := (a.has .FRAGMENT,[.eqn .frag])

/-- `ipa_fltrt_generate_hw_rule_bdy_ip4` up to the VLAN -/
def ip4Head : List (Bool × List Block) :=
  [(a.has .IS_PURE_ACK,[.eqn .pureAck]),
    (a.has .TOS,[.tos (.tos a.v4.tos)]),
    (a.has .PROTOCOL,[.eqn (.protocol a.v4.protocol)])]++macBranches a++
  [(a.has .TOS_MASKED,
      [.eqn (.ofstMeq32 ⟨0,a.tosMask.toUInt32 <<< 16,a.tosValue.toUInt32 <<< 16⟩)]),
    (a.has .SRC_ADDR,[.eqn (.ofstMeq32 ⟨12,a.v4.srcAddrMask,a.v4.srcAddr⟩)]),
    (a.has .DST_ADDR,[.eqn (.ofstMeq32 ⟨16,a.v4.dstAddrMask,a.v4.dstAddr⟩)]),
    etherTypeBranch a,
    (a.has .TOS,[.tos (.ofstMeq32 ⟨0,0xFF0000,a.v4.tos.toUInt32 <<< 16⟩)]),
    vlanBranch a]

/-- `ipa_fltrt_generate_hw_rule_bdy_ip4` from the TCP flag on -/
def ip4Tail : List (Bool × List Block) :=
  [tcpSynBranch a,
    -- the upper bit of the offset makes it count from the IP header
    (a.has .TOS,[.tos (.ihlOfstMeq32 ⟨0x80,0xFF0000,a.v4.tos.toUInt32 <<< 16⟩)]),
    metaDataBranch a,
    (a.hasExt .MTU,[.eqn (.ihlOfstRng16 ⟨130,a.payloadLength,0⟩)])]++
  portRangeBranches a++portBranches a++[fragBranch a,(a.has .TOS,[.tosFound])]

/-- `ipa_fltrt_generate_hw_rule_bdy_ip4` -/
def ip4Branches : List (Bool × List Block) :=
  ip4Head a++ihlBranches a++[innerEtherBranch a]++ip4Tail a

/-- The protocol and the flag of TCP inside L2TP, at offsets that depend on the inner IP version. -/
def tcpSynInside (ipv4Proto ipv6Proto ipv4Syn ipv6Syn : UInt8) : List Block :=
  if a.etherType = 0x0800 then
    [.eqn (.ihlOfstMeq32 ⟨ipv4Proto,0xFF0000,0x60000⟩),
      .eqn (.ihlOfstMeq32 ⟨ipv4Syn,0x20000,0x20000⟩)]
  else
    [.eqn (.ihlOfstMeq32 ⟨ipv6Proto,0xFF00,0x600⟩),
      .eqn (.ihlOfstMeq32 ⟨ipv6Syn,0x20000,0x20000⟩)]

/-- The next header after the IPv6 header, whose value is written to the extra words once more. -/
def extNextHdrBranch : Bool × List Block :=
  (a.hasExt .NEXT_HDR,
    [.eqn (.ihlOfstMeq32 ⟨134,0xFF000000,a.v6.nextHdr.toUInt32 <<< 24⟩),
      .eqn (.stray a.v6.nextHdr)])

/-- `ipa_fltrt_generate_hw_rule_bdy_ip6` from the traffic class to the VLAN -/
def ip6Head : List (Bool × List Block) :=
  [(a.has .TC,[.eqn (.tc a.v6.tc)]),
    (a.has .SRC_ADDR,[.eqn (.ofstMeq128 ⟨8,
      words128 (a.v6.srcAddrMask 3) (a.v6.srcAddrMask 2) (a.v6.srcAddrMask 1) (a.v6.srcAddrMask 0),
      words128 (a.v6.srcAddr 3) (a.v6.srcAddr 2) (a.v6.srcAddr 1) (a.v6.srcAddr 0)⟩)]),
    (a.has .DST_ADDR,[.eqn (.ofstMeq128 ⟨24,
      words128 (a.v6.dstAddrMask 3) (a.v6.dstAddrMask 2) (a.v6.dstAddrMask 1) (a.v6.dstAddrMask 0),
      words128 (a.v6.dstAddr 3) (a.v6.dstAddr 2) (a.v6.dstAddr 1) (a.v6.dstAddr 0)⟩)]),
    (a.has .TOS_MASKED,[.eqn (.ofstMeq128 ⟨0,words128 0 0 0 (a.tosMask.toUInt32 <<< 20),
      words128 0 0 0 (a.tosValue.toUInt32 <<< 20)⟩)])]++
  macBranches a++[etherTypeBranch a,vlanBranch a]

/-- `ipa_fltrt_generate_hw_rule_bdy_ip6` after the ether type in L2TP over UDP -/
def ip6Tail : List (Bool × List Block) :=
  [(a.hasExt .L2TP_UDP_TCP_SYN,tcpSynInside a 46 42 70 90),
    (a.hasExt .L2TP_UDP_INNER_NEXT_HDR,
      [.eqn (.ihlOfstMeq32 (if a.etherType = 0x0800 then
          ⟨46,0xFF0000,a.l2tpUdpNextHdr.toUInt32 <<< 16⟩
        else ⟨42,0xFF00,a.l2tpUdpNextHdr.toUInt32 <<< 8⟩))]),
    tcpSynBranch a,
    (a.has .TCP_SYN_L2TP,tcpSynInside a 30 26 54 74),
    (a.has .L2TP_INNER_IP_TYPE,
      [.eqn (.ihlOfstMeq32 ⟨22,0xF0000000,if a.type = 0x40 then 0x40000000 else 0x60000000⟩)]),
    (a.has .L2TP_INNER_IPV4_DST_ADDR,
      [.eqn (.ihlOfstMeq32 ⟨38,a.v4.dstAddrMask,a.v4.dstAddr⟩)]),
    metaDataBranch a]++portBranches a++portRangeBranches a++
  [(a.has .TCP_SYN_L2TP,
      [.eqn (.ihlOfstRng16 (if a.etherType = 0x0800 then ⟨21,0x0045,0x0045⟩
        else ⟨20,a.etherType,a.etherType⟩))]),
    (a.has .FLOW_LABEL,[.eqn (.fl a.v6.flowLabel)]),
    fragBranch a]

/-- `ipa_fltrt_generate_hw_rule_bdy_ip6` -/
def ip6Branches : List (Bool × List Block) :=
  [(a.has .IS_PURE_ACK,[.eqn .pureAck]),
    (a.has .NEXT_HDR,[.eqn (.protocol a.v6.nextHdr)]),
    extNextHdrBranch a]++ip6Head a++ihlBranches a++[innerEtherBranch a]++ip6Tail a

end Branches

section Body

/-- The default rule: the first equation of 32 bits, whether it is in use or not. -/
def Gen.addDefault (hw : HwType) (s : Gen) : Gen :=
  {s with
    enRule := s.enRule ||| 2^eqBitfield hw (Kind.ofstMeq32.slot 0)
    out := s.out++[.ofstMeq32 .zero]}

/-- The branches of an IP version. -/
def branches (ipt : IpType) (a : RuleAttrib) : List (Bool × List Block) :=
  match ipt with
  | .v4 => ip4Branches a
  | .v6 => ip6Branches a
  | .max => []

/-- What `ipa_fltrt_generate_hw_rule_bdy` has written when it accepts the attributes. -/
def genBdy (hw : HwType) (ipt : IpType) (a : RuleAttrib) : Option Gen :=
  if ruleGenerationErrCheck ipt a then none
  else
    match Gen.run hw (given (branches ipt a)) Gen.start with
    | none => none
    | some s => if a.attribMask = ∅ then some (s.addDefault hw) else some s

def Gen.puts (s : Gen) : List Put := s.out.flatMap Eqn.puts

/-- `ipa_pad_to_64` of a buffer that starts at a multiple of 8. -/
def pad64 (bs : List UInt8) : List UInt8 := bs++List.replicate ((8-bs.length % 8) % 8) 0

/-- The two buffers, one after the other. -/
def Gen.body (s : Gen) : List UInt8 := pad64 (extras s.puts)++pad64 (rests s.puts)

/-- `ipa_fltrt_generate_hw_rule_bdy`: the memory, the end of the body and `en_rule`. -/
def generateHwRuleBdy (hw : HwType) (ipt : IpType) (a : RuleAttrib) (mem : Mem) (buf : ℕ) :
    Except ℤ (Mem × ℕ × ℕ) :=
  match genBdy hw ipt a with
  | none => .error EPERM
  | some s => .ok (write mem buf s.body,buf+s.body.length,s.enRule)

end Body

end IpaRule
end MarbleModules
