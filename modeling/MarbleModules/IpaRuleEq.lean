import MarbleModules.LeBytes
import MarbleModules.TwoCursors

/-! Filter and routing rules in the format of the hardware: the equations of a rule, the bytes that
stand for them, and the functions that write and read these. -/
namespace MarbleModules
namespace IpaRule
open TwoCursors

/-- `-EPERM` -/
def EPERM : ℤ := -1

def IPA3_0_HW_TBL_HDR_WIDTH : ℕ := 8

/-- The versions with a row of their own in `ipahal_fltrt_objs`; any other version takes the row of
the one before it. -/
inductive HwType
  | v3_0
  | v4_0
  | v4_2
  | v4_5
  | v5_0
deriving DecidableEq

/-- `enum ipa_fltrt_equations` -/
inductive Equation
  | TOS_EQ
  | PROTOCOL_EQ
  | TC_EQ
  | OFFSET_MEQ128_0
  | OFFSET_MEQ128_1
  | OFFSET_MEQ32_0
  | OFFSET_MEQ32_1
  | IHL_OFFSET_MEQ32_0
  | IHL_OFFSET_MEQ32_1
  | METADATA_COMPARE
  | IHL_OFFSET_RANGE16_0
  | IHL_OFFSET_RANGE16_1
  | IHL_OFFSET_EQ_32
  | IHL_OFFSET_EQ_16
  | FL_EQ
  | IS_FRAG
  | IS_PURE_ACK
deriving DecidableEq

/-- `eq_bitfield` of `ipahal_fltrt_objs`; 0xFF is an equation that the version does not have. -/
def eqBitfield (hw : HwType) : Equation → ℕ
  | .TOS_EQ => match hw with | .v3_0 | .v4_0 | .v4_2 => 0 | .v4_5 | .v5_0 => 0xFF
  | .PROTOCOL_EQ => 1
  | .TC_EQ => 2
  | .OFFSET_MEQ128_0 => 3
  | .OFFSET_MEQ128_1 => 4
  | .OFFSET_MEQ32_0 => 5
  | .OFFSET_MEQ32_1 => 6
  | .IHL_OFFSET_MEQ32_0 => 7
  | .IHL_OFFSET_MEQ32_1 => 8
  | .METADATA_COMPARE => 9
  | .IHL_OFFSET_RANGE16_0 => 10
  | .IHL_OFFSET_RANGE16_1 => 11
  | .IHL_OFFSET_EQ_32 => 12
  | .IHL_OFFSET_EQ_16 => 13
  | .FL_EQ => 14
  | .IS_FRAG => 15
  | .IS_PURE_ACK => match hw with | .v3_0 | .v4_0 | .v4_2 => 0xFF | .v4_5 | .v5_0 => 0

/-- `IPA_IS_RULE_EQ_VALID` -/
def isRuleEqValid (hw : HwType) (eq : Equation) : Bool := eqBitfield hw eq ≠ 0xFF

/-- The bit of an equation in a bitmap, `bitmap & IPA_GET_RULE_EQ_BIT_PTRN(eq)`. -/
def hasEq (hw : HwType) (bitmap : ℕ) (eq : Equation) : Bool := bitmap.testBit (eqBitfield hw eq)

/-- An array of sixteen bytes. -/
abbrev Bytes16 := {l : List UInt8 // l.length = 16}

/-- Sixteen bytes that have been read one after another. -/
def Bytes16.ofList (l : List UInt8) : Bytes16 :=
  if h : l.length = 16 then ⟨l,h⟩ else ⟨List.replicate 16 0,List.length_replicate⟩

/-- `struct ipa_ipfltr_mask_eq_128` -/
structure MaskEq128 where
  offset : UInt8
  mask : Bytes16
  value : Bytes16

/-- `struct ipa_ipfltr_mask_eq_32` -/
structure MaskEq32 where
  offset : UInt8
  mask : UInt32
  value : UInt32

/-- `struct ipa_ipfltr_range_eq_16` -/
structure RangeEq16 where
  offset : UInt8
  rangeHigh : UInt16
  rangeLow : UInt16

/-- `struct ipa_ipfltr_eq_32` -/
structure Eq32 where
  offset : UInt8
  value : UInt32

/-- `struct ipa_ipfltr_eq_16` -/
structure Eq16 where
  offset : UInt8
  value : UInt16

/-- `struct ipa_ipfltri_rule_eq`, the arrays of two slots as pairs. -/
structure RuleEq where
  ruleEqBitmap : ℕ
  tosEqPresent : Bool
  tosEq : UInt8
  protocolEqPresent : Bool
  protocolEq : UInt8
  tcEqPresent : Bool
  tcEq : UInt8
  numOffsetMeq128 : ℕ
  offsetMeq128 : MaskEq128 × MaskEq128
  numOffsetMeq32 : ℕ
  offsetMeq32 : MaskEq32 × MaskEq32
  numIhlOffsetMeq32 : ℕ
  ihlOffsetMeq32 : MaskEq32 × MaskEq32
  metadataMeq32Present : Bool
  metadataMeq32 : MaskEq32
  numIhlOffsetRange16 : ℕ
  ihlOffsetRange16 : RangeEq16 × RangeEq16
  ihlOffsetEq32Present : Bool
  ihlOffsetEq32 : Eq32
  ihlOffsetEq16Present : Bool
  ihlOffsetEq16 : Eq16
  flEqPresent : Bool
  flEq : UInt32
  ipv4FragEqPresent : Bool

/-- Sixteen zero bytes. -/
def Bytes16.zero : Bytes16 := ⟨List.replicate 16 0,List.length_replicate⟩

def MaskEq128.zero : MaskEq128 := ⟨0,Bytes16.zero,Bytes16.zero⟩
def MaskEq32.zero : MaskEq32 := ⟨0,0,0⟩
def RangeEq16.zero : RangeEq16 := ⟨0,0,0⟩
def Eq32.zero : Eq32 := ⟨0,0⟩
def Eq16.zero : Eq16 := ⟨0,0⟩

/-- A zeroed structure with a bitmap. -/
def RuleEq.zeroed (bitmap : ℕ) : RuleEq where
  ruleEqBitmap := bitmap
  tosEqPresent := false
  tosEq := 0
  protocolEqPresent := false
  protocolEq := 0
  tcEqPresent := false
  tcEq := 0
  numOffsetMeq128 := 0
  offsetMeq128 := (.zero,.zero)
  numOffsetMeq32 := 0
  offsetMeq32 := (.zero,.zero)
  numIhlOffsetMeq32 := 0
  ihlOffsetMeq32 := (.zero,.zero)
  metadataMeq32Present := false
  metadataMeq32 := .zero
  numIhlOffsetRange16 := 0
  ihlOffsetRange16 := (.zero,.zero)
  ihlOffsetEq32Present := false
  ihlOffsetEq32 := .zero
  ihlOffsetEq16Present := false
  ihlOffsetEq16 := .zero
  flEqPresent := false
  flEq := 0
  ipv4FragEqPresent := false

/-- `ipa_fltrt_calc_extra_wrd_bytes` -/
def calcExtraWrdBytes (a : RuleEq) : ℕ :=
  a.tosEqPresent.toNat+a.protocolEqPresent.toNat+a.tcEqPresent.toNat+a.numOffsetMeq128+
    a.numOffsetMeq32+a.numIhlOffsetMeq32+a.numIhlOffsetRange16+a.ihlOffsetEq32Present.toNat+
    a.ihlOffsetEq16Present.toNat

/-- `ipa_write_16` -/
def put16 (w : UInt16) : Put := .rest (leBytes 2 w.toNat)
/-- `ipa_write_32` -/
def put32 (w : UInt32) : Put := .rest (leBytes 4 w.toNat)

/-- The writes for one mask equation of 128 bits. -/
def putMeq128 (e : MaskEq128) : List Put :=
  [.extra e.offset,.rest (e.mask.1.take 8),.rest (e.value.1.take 8),.rest (e.mask.1.drop 8),
    .rest (e.value.1.drop 8)]

def putMeq32 (e : MaskEq32) : List Put := [.extra e.offset,put32 e.mask,put32 e.value]

def putRange16 (e : RangeEq16) : List Put := [.extra e.offset,put16 e.rangeHigh,put16 e.rangeLow]

/-- The writes of `ipa_fltrt_generate_hw_rule_bdy_from_eq`, in their order. -/
def bdyPuts (hw : HwType) (a : RuleEq) : List Put :=
  List.flatten [
    putIf a.tosEqPresent [.extra (if isRuleEqValid hw .IS_PURE_ACK then 0 else a.tosEq)],
    putIf a.protocolEqPresent [.extra a.protocolEq],
    putIf a.tcEqPresent [.extra a.tcEq],
    putIf (0 < a.numOffsetMeq128) (putMeq128 a.offsetMeq128.1),
    putIf (1 < a.numOffsetMeq128) (putMeq128 a.offsetMeq128.2),
    putIf (0 < a.numOffsetMeq32) (putMeq32 a.offsetMeq32.1),
    putIf (1 < a.numOffsetMeq32) (putMeq32 a.offsetMeq32.2),
    putIf (0 < a.numIhlOffsetMeq32) (putMeq32 a.ihlOffsetMeq32.1),
    putIf (1 < a.numIhlOffsetMeq32) (putMeq32 a.ihlOffsetMeq32.2),
    putIf a.metadataMeq32Present [put32 a.metadataMeq32.mask,put32 a.metadataMeq32.value],
    putIf (0 < a.numIhlOffsetRange16) (putRange16 a.ihlOffsetRange16.1),
    putIf (1 < a.numIhlOffsetRange16) (putRange16 a.ihlOffsetRange16.2),
    putIf a.ihlOffsetEq32Present [.extra a.ihlOffsetEq32.offset,put32 a.ihlOffsetEq32.value],
    putIf a.ihlOffsetEq16Present
      [.extra a.ihlOffsetEq16.offset,put16 a.ihlOffsetEq16.value,put16 0],
    putIf a.flEqPresent [put32 (a.flEq &&& 0xFFFFF)]]

/-- `ipa_pad_to_64` -/
def padTo64 (mem : Mem) (dest : ℕ) : Mem × ℕ :=
  if dest % 8 ≠ 0 then (write mem dest (List.replicate (8-dest % 8) 0),dest+(8-dest % 8))
  else (mem,dest)

/-- Where the extra words and what follows them begin; no pointer to extra words if there are
none. -/
def bdyStart (n buf : ℕ) : Option ℕ × ℕ :=
  if IPA3_0_HW_TBL_HDR_WIDTH < n then (some buf,buf+IPA3_0_HW_TBL_HDR_WIDTH*2)
  else if 0 < n then (some buf,buf+IPA3_0_HW_TBL_HDR_WIDTH)
  else (none,buf)

/-- `ipa_fltrt_generate_hw_rule_bdy_from_eq`: the memory and the end of the body. -/
def generateHwRuleBdyFromEq (hw : HwType) (a : RuleEq) (mem : Mem) (buf : ℕ) :
    Except ℤ (Mem × ℕ) :=
  let n := calcExtraWrdBytes a
  if 13 < n then .error EPERM
  else if a.tosEqPresent ∧ isRuleEqValid hw .IS_PURE_ACK = false ∧
      isRuleEqValid hw .TOS_EQ = false then .error EPERM
  else
    let w := (bdyPuts hw a).foldl Put.run ⟨mem,(bdyStart n buf).1,(bdyStart n buf).2⟩
    let mem := match w.extra with
      | some e => (padTo64 w.mem e).1
      | none => w.mem
    .ok (padTo64 mem w.rest)

/-- What `ipa_fltrt_parse_hw_rule_eq` takes from the bitmap: flags are set and counts go up. -/
def presentFromBitmap (hw : HwType) (a : RuleEq) : RuleEq :=
  let has := hasEq hw a.ruleEqBitmap
  {a with
    tosEqPresent := a.tosEqPresent || (isRuleEqValid hw .IS_PURE_ACK && has .IS_PURE_ACK) ||
      (isRuleEqValid hw .TOS_EQ && has .TOS_EQ)
    protocolEqPresent := a.protocolEqPresent || has .PROTOCOL_EQ
    tcEqPresent := a.tcEqPresent || has .TC_EQ
    numOffsetMeq128 :=
      a.numOffsetMeq128+(has .OFFSET_MEQ128_0).toNat+(has .OFFSET_MEQ128_1).toNat
    numOffsetMeq32 := a.numOffsetMeq32+(has .OFFSET_MEQ32_0).toNat+(has .OFFSET_MEQ32_1).toNat
    numIhlOffsetMeq32 :=
      a.numIhlOffsetMeq32+(has .IHL_OFFSET_MEQ32_0).toNat+(has .IHL_OFFSET_MEQ32_1).toNat
    metadataMeq32Present := a.metadataMeq32Present || has .METADATA_COMPARE
    numIhlOffsetRange16 :=
      a.numIhlOffsetRange16+(has .IHL_OFFSET_RANGE16_0).toNat+(has .IHL_OFFSET_RANGE16_1).toNat
    ihlOffsetEq32Present := a.ihlOffsetEq32Present || has .IHL_OFFSET_EQ_32
    ihlOffsetEq16Present := a.ihlOffsetEq16Present || has .IHL_OFFSET_EQ_16
    flEqPresent := a.flEqPresent || has .FL_EQ
    ipv4FragEqPresent := a.ipv4FragEqPresent || has .IS_FRAG}

/-- `*((u16 *)rest)` -/
def get16 : Get UInt16 := do
  let bs ← getRest 2
  pure (UInt16.ofNat (leVal bs))

/-- `*((u32 *)rest)` -/
def get32 : Get UInt32 := do
  let bs ← getRest 4
  pure (UInt32.ofNat (leVal bs))

def getMeq128 : Get MaskEq128 := do
  let offset ← getExtra
  let mask ← getRest 8
  let value ← getRest 8
  let mask' ← getRest 8
  let value' ← getRest 8
  pure ⟨offset,Bytes16.ofList (mask++mask'),Bytes16.ofList (value++value')⟩

def getMeq32 : Get MaskEq32 := do
  let offset ← getExtra
  let mask ← get32
  let value ← get32
  pure ⟨offset,mask,value⟩

/-- The metadata equation has no offset of its own. -/
def getMetadata (offset : UInt8) : Get MaskEq32 := do
  let mask ← get32
  let value ← get32
  pure ⟨offset,mask,value⟩

def getRange16 : Get RangeEq16 := do
  let offset ← getExtra
  let high ← get16
  let low ← get16
  pure ⟨offset,high,low⟩

def getEq32 : Get Eq32 := do
  let offset ← getExtra
  let value ← get32
  pure ⟨offset,value⟩

/-- The value takes four bytes, of which the last two are skipped. -/
def getEq16 : Get Eq16 := do
  let offset ← getExtra
  let value ← get16
  let _ ← getRest 2
  pure ⟨offset,value⟩

def getFl : Get UInt32 := do
  let fl ← get32
  pure (fl &&& 0xFFFFF)

/-- The parameters of `ipa_fltrt_parse_hw_rule_eq`, in their order. -/
def readEqs (hw : HwType) (a : RuleEq) : Get RuleEq := do
  let tos ← getIf (isRuleEqValid hw .TOS_EQ && a.tosEqPresent) getExtra a.tosEq
  let tos ← getIf (isRuleEqValid hw .IS_PURE_ACK && a.tosEqPresent) (do let _ ← getExtra; pure 0) tos
  let protocol ← getIf a.protocolEqPresent getExtra a.protocolEq
  let tc ← getIf a.tcEqPresent getExtra a.tcEq
  let m128 ← getIf (0 < a.numOffsetMeq128) getMeq128 a.offsetMeq128.1
  let m128' ← getIf (1 < a.numOffsetMeq128) getMeq128 a.offsetMeq128.2
  let m32 ← getIf (0 < a.numOffsetMeq32) getMeq32 a.offsetMeq32.1
  let m32' ← getIf (1 < a.numOffsetMeq32) getMeq32 a.offsetMeq32.2
  let i32 ← getIf (0 < a.numIhlOffsetMeq32) getMeq32 a.ihlOffsetMeq32.1
  let i32' ← getIf (1 < a.numIhlOffsetMeq32) getMeq32 a.ihlOffsetMeq32.2
  let metadata ← getIf a.metadataMeq32Present (getMetadata a.metadataMeq32.offset) a.metadataMeq32
  let r16 ← getIf (0 < a.numIhlOffsetRange16) getRange16 a.ihlOffsetRange16.1
  let r16' ← getIf (1 < a.numIhlOffsetRange16) getRange16 a.ihlOffsetRange16.2
  let e32 ← getIf a.ihlOffsetEq32Present getEq32 a.ihlOffsetEq32
  let e16 ← getIf a.ihlOffsetEq16Present getEq16 a.ihlOffsetEq16
  let fl ← getIf a.flEqPresent getFl a.flEq
  pure {a with
    tosEq := tos,protocolEq := protocol,tcEq := tc,offsetMeq128 := (m128,m128')
    offsetMeq32 := (m32,m32'),ihlOffsetMeq32 := (i32,i32'),metadataMeq32 := metadata
    ihlOffsetRange16 := (r16,r16'),ihlOffsetEq32 := e32,ihlOffsetEq16 := e16,flEq := fl}

/-- `(rest + IPA3_0_HW_RULE_START_ALIGNMENT) & ~IPA3_0_HW_RULE_START_ALIGNMENT` -/
def alignRule (rest : ℕ) : ℕ := (rest+7)/8*8

/-- `ipa_fltrt_parse_hw_rule_eq` of the rule at `addr`: the equations and the size of the rule. -/
def parseHwRuleEq (hw : HwType) (mem : Mem) (addr hdrSz : ℕ) (a : RuleEq) :
    Except ℤ (RuleEq × ℕ) :=
  let a := presentFromBitmap hw a
  let n := calcExtraWrdBytes a
  if 13 < n then .error EPERM
  else
    -- without extra words the first cursor stands at a dummy that nothing reads
    let r := readEqs hw a mem ⟨(bdyStart n (addr+hdrSz)).1.getD 0,(bdyStart n (addr+hdrSz)).2⟩
    .ok (r.1,alignRule r.2.rest-addr)

/-- The word of a rule header, whose low 16 bits are `en_rule`. -/
def readHdr (mem : Mem) (addr : ℕ) : ℕ := leVal (read mem addr 8)

/-- The part of `ipa_flt_parse_hw_rule` and of `ipa_rt_parse_hw_rule` that is the same for every
header: a zero word ends the table. -/
def parseHwRule (hw : HwType) (mem : Mem) (addr : ℕ) : Except ℤ (Option ((ℕ × RuleEq) × ℕ)) :=
  let word := readHdr mem addr
  if word = 0 then .ok none
  else
    match parseHwRuleEq hw mem addr 8 (RuleEq.zeroed (word % 2^16)) with
    | .error e => .error e
    | .ok r => .ok (some ((word,r.1),r.2))

/-- The loop of the readers of a table, for at most `num` entries. -/
def readTable (hw : HwType) (mem : Mem) : ℕ → ℕ → Except ℤ (List (ℕ × RuleEq))
  | 0,_ => .ok []
  | num+1,addr =>
    match parseHwRule hw mem addr with
    | .error e => .error e
    | .ok none => .ok []
    | .ok (some (rule,size)) =>
      match readTable hw mem num (addr+size) with
      | .error e => .error e
      | .ok rules => .ok (rule::rules)

/-- The part of `ipa_flt_gen_hw_rule` that is the same for every header: the body, then the word of
the header. -/
def genHwRule (hw : HwType) (rule : ℕ × RuleEq) (mem : Mem) (addr : ℕ) : Except ℤ (Mem × ℕ) :=
  match generateHwRuleBdyFromEq hw rule.2 mem (addr+8) with
  | .error e => .error e
  | .ok r => .ok (write r.1 addr (leBytes 8 rule.1),r.2)

/-- Rules one after another from `addr`. -/
def genTable (hw : HwType) : List (ℕ × RuleEq) → Mem → ℕ → Except ℤ (Mem × ℕ)
  | [],mem,addr => .ok (mem,addr)
  | rule::rules,mem,addr =>
    match genHwRule hw rule mem addr with
    | .error e => .error e
    | .ok r => genTable hw rules r.1 r.2

end IpaRule
end MarbleModules
