import Mathlib.Data.BitVec
import MarbleModules.IpaTable

/-! The IPv6 connection tracking table (`ipa_ipv6ct.c`): one chained table in DDR, whose
previous indices are kept in the records and whose insertions may reject the client's
direction settings. -/
namespace MarbleModules
namespace IpaIpv6ct

open IpaTable

/-- `IPA_IPV6CT_INVALID_PROTO_FIELD_CMP`, the protocol of a dead head -/
def invalidProtoFieldCmp : BitVec 8 := 0xFF

/-- `ipa_ipv6_ct_direction_settings_type`; a client may pass any other value. -/
inductive DirectionSettings
  | denyAll | allowOut | allowIn | allowAll
  | other (value : ℕ)
  deriving DecidableEq

/-- `ipa_ipv6ct_rule` -/
structure Ipv6ctRule where
  srcIpv6Lsb : BitVec 64
  srcIpv6Msb : BitVec 64
  destIpv6Lsb : BitVec 64
  destIpv6Msb : BitVec 64
  directionSettings : DirectionSettings
  ucp : Bool
  s : Bool
  ucActivationIndex : BitVec 16
  srcPort : BitVec 16
  destPort : BitVec 16
  protocol : BitVec 8
  deriving DecidableEq

/-- `ipa_ipv6ct_hw_entry`, less the reserved bits no write reaches; `rsvd` holds the upper 14
bits of `rsvd1`, which share a half-word with the flags. -/
structure HwEntry where
  srcIpv6Lsb : BitVec 64
  srcIpv6Msb : BitVec 64
  destIpv6Lsb : BitVec 64
  destIpv6Msb : BitVec 64
  ucActivationIndex : BitVec 13
  s : BitVec 1
  rsvd : BitVec 14
  redirect : BitVec 1
  enable : BitVec 1
  timeStamp : BitVec 24
  protocol : BitVec 8
  nextIndex : ℕ
  destPort : BitVec 16
  srcPort : BitVec 16
  ucp : BitVec 1
  outAllowed : BitVec 1
  inAllowed : BitVec 1
  prevIndex : ℕ
  deriving DecidableEq

def zeroEntry : HwEntry where
  srcIpv6Lsb := 0
  srcIpv6Msb := 0
  destIpv6Lsb := 0
  destIpv6Msb := 0
  ucActivationIndex := 0
  s := 0
  rsvd := 0
  redirect := 0
  enable := 0
  timeStamp := 0
  protocol := 0
  nextIndex := 0
  destPort := 0
  srcPort := 0
  ucp := 0
  outAllowed := 0
  inAllowed := 0
  prevIndex := 0

/-- `IPA_IPV6CT_RULE_*_FIELD_OFFSET` -/
def ruleFlagFieldOffset : ℕ := 34
def ruleNextFieldOffset : ℕ := 40
def ruleProtoFieldOffset : ℕ := 38

/-- A 16-bit write into a record at one of the three offsets the driver addresses: the next
index, the flags half-word (`ipa_ipv6ct_flags`), or the top byte of the time stamp together
with the protocol. -/
def writeEntry (e : HwEntry) (offset : ℕ) (data : BitVec 16) : HwEntry :=
  if offset = ruleNextFieldOffset then { e with nextIndex := data.toNat }
  else if offset = ruleFlagFieldOffset then
    { e with
      rsvd := data.extractLsb' 0 14
      redirect := data.extractLsb' 14 1
      enable := data.extractLsb' 15 1 }
  else if offset = ruleProtoFieldOffset then
    { e with
      timeStamp := data.extractLsb' 0 8 ++ e.timeStamp.extractLsb' 0 16
      protocol := data.extractLsb' 8 8 }
  else e

instance : RecordLayout HwEntry := ⟨64,zeroEntry,writeEntry⟩

def boolBit (b : Bool) : BitVec 1 := if b then 1 else 0

/-- `table_entry_copy_from_user`: the record as it is left, and the return code. -/
def tableEntryCopyFromUser (e : HwEntry) (rule : Ipv6ctRule) : HwEntry × ℤ :=
  let e' := { e with
    srcIpv6Lsb := rule.srcIpv6Lsb
    srcIpv6Msb := rule.srcIpv6Msb
    destIpv6Lsb := rule.destIpv6Lsb
    destIpv6Msb := rule.destIpv6Msb
    protocol := rule.protocol
    srcPort := rule.srcPort
    destPort := rule.destPort
    ucp := boolBit rule.ucp
    ucActivationIndex := rule.ucActivationIndex.setWidth 13
    s := boolBit rule.s }
  match rule.directionSettings with
  | .denyAll => (e',0)
  | .allowOut => ({ e' with outAllowed := 1 },0)
  | .allowIn => ({ e' with inAllowed := 1 },0)
  | .allowAll => ({ e' with outAllowed := 1, inAllowed := 1 },0)
  | .other _ => (e',-einval)

/-- `ipa_ipv6ct_flags` with nothing but the enable bit -/
def enableFlags : BitVec 16 := 0x8000

/-- `table_entry_head_insert` -/
def tableEntryHeadInsert (e : HwEntry) (rule : Ipv6ctRule) : HwEntry × ℤ × BitVec 16 :=
  match tableEntryCopyFromUser e rule with
  | (e',ret) => if ret ≠ 0 then (e',ret,0) else (e',0,enableFlags)

/-- `table_entry_tail_insert` -/
def tableEntryTailInsert (e : HwEntry) (rule : Ipv6ctRule) : HwEntry × ℤ :=
  match tableEntryCopyFromUser e rule with
  | (e',ret) => if ret ≠ 0 then (e',ret) else ({ e' with enable := 1 },0)

def entryInterface : EntryInterface HwEntry Ipv6ctRule where
  entryIsValid := fun e => decide (e.enable ≠ 0)
  entryGetNextIndex := fun e => e.nextIndex
  entryGetPrevIndex := fun e _ _ _ => e.prevIndex
  entrySetPrevIndex := fun e _ prev m _ => ({ e with prevIndex := prev },m)
  entryHeadInsert := tableEntryHeadInsert
  entryTailInsert := tableEntryTailInsert
  entryGetDeleteHeadDmaCommandData := fun _ _ => 0xFF00

/-- The helpers `ipa_ipv6ct_create_table_dma_cmd_helpers` attaches to the table. -/
def dmaHelp (tableIndx : ℕ) : DmaHelp → DmaCmdHelper
  | .updateHead => ⟨ruleFlagFieldOffset,.ipv6ctBaseTbl,.ipv6ctExpnTbl,tableIndx⟩
  | .updateEntry => ⟨ruleNextFieldOffset,.ipv6ctBaseTbl,.ipv6ctExpnTbl,tableIndx⟩
  | .deleteHead => ⟨ruleProtoFieldOffset,.ipv6ctBaseTbl,.ipv6ctExpnTbl,tableIndx⟩

abbrev CtTable := Table HwEntry Ipv6ctRule

/-- `ipa_ipv6ct_create_table` -/
def createTable (numberOfEntries : ℕ) : Option CtTable :=
  (calculateEntriesNum numberOfEntries .ddr).map fun sizes =>
    { nmi := .ddr, tableEntries := sizes.1, expnTableEntries := sizes.2,
      totTblEnts := sizes.1+sizes.2, recs := fun _ => zeroEntry, curTblCnt := 0,
      curExpnTblCnt := 0, entryInterface := entryInterface, dmaHelp := dmaHelp 0,
      hasMeta := false, metaPrev := fun _ => 0 }

/-- The hardware applies one DMA command. -/
def applyDma (t : CtTable) (d : DmaOne) : CtTable :=
  match d.baseAddr with
  | .ipv6ctBaseTbl => t.dmaWrite false d.offset d.data
  | .ipv6ctExpnTbl => t.dmaWrite true d.offset d.data
  | _ => t

/-- `ipa_ipv6ct_post_dma_cmd`: the commands are applied in order when the ioctl succeeds. -/
def postDmaCmd (t : CtTable) (cmd : List DmaOne) (ioctl : Bool) : CtTable × Bool :=
  if ioctl then (cmd.foldl applyDma t,true) else (t,false)

/-- The loop of `ipa_ipv6ct_xor_segments`; four iterations shift out a `uint64_t`. -/
def xorSegmentsLoop : ℕ → BitVec 64 → BitVec 16 → BitVec 16
  | 0, _, ret => ret
  | fuel+1, num, ret =>
    if num = 0 then ret else xorSegmentsLoop fuel (num >>> 16) (ret ^^^ num.extractLsb' 0 16)

/-- `ipa_ipv6ct_xor_segments` -/
def xorSegments (num : BitVec 64) : BitVec 16 := xorSegmentsLoop 4 num 0

/-- `ipa_ipv6ct_hash`; `size` is the base size minus one. -/
def ipv6ctHash (rule : Ipv6ctRule) (size : ℕ) : ℕ :=
  let hash := xorSegments rule.srcIpv6Lsb ^^^ xorSegments rule.srcIpv6Msb ^^^
    xorSegments rule.destIpv6Lsb ^^^ xorSegments rule.destIpv6Msb ^^^ rule.srcPort ^^^
    rule.destPort ^^^ rule.protocol.setWidth 16
  if hash.toNat &&& size = 0 then size else hash.toNat &&& size

/-- `ipa_ipv6ct_add_rule` on an initialised table: table, return code and the handle of the
new rule. -/
def addRule (t : CtTable) (rule : Ipv6ctRule) (ioctl : Bool) : CtTable × ℤ × ℕ :=
  if rule.protocol = invalidProtoFieldCmp then (t,-einval,0)
  else
    match ipaTableAddEntry t rule (ipv6ctHash rule (t.tableEntries-1)) [] with
    | (t₁,ret,cmd,newEntry) =>
      if ret ≠ 0 then (t₁,ret,0)
      else
        match postDmaCmd t₁ cmd ioctl with
        | (t₂,true) => (t₂,0,makeEntryHdl t₁ newEntry)
        | (t₂,false) => (ipaTableEraseEntry t₂ newEntry,-5,0)

/-- `is_prev_empty` of `ipa_ipv6ct_del_rule`: the previous rule is a dead head. -/
def isPrevEmpty (t : CtTable) (it : Iterator) : Bool :=
  match it.prevEntry with
  | none => false
  | some p => decide ((t.recs p).protocol = invalidProtoFieldCmp)

/-- `ipa_ipv6ct_del_rule` on an initialised table -/
def delRule (t : CtTable) (hdl : ℕ) (ioctl : Bool) : CtTable × ℤ :=
  if hdl = invalidEntry then (t,-einval)
  else
    match ipaTableGetEntry t hdl with
    | none => (t,-einval)
    | some i =>
      match ipaTableIteratorInit t i with
      | .error e => (t,e)
      | .ok it =>
        match postDmaCmd t (ipaTableCreateDeleteCommand t it []) ioctl with
        | (t₁,true) =>
          if iteratorIsHeadWithTail it then (t₁,0)
          else (ipaTableDeleteEntry t₁ it (isPrevEmpty t₁ it),0)
        | (t₁,false) => (t₁,-5)

/-- `ipa_ipv6ct_query_timestamp` on an initialised table -/
def queryTimestamp (t : CtTable) (hdl : ℕ) : Option (BitVec 24) :=
  if hdl = invalidEntry then none
  else (ipaTableGetEntry t hdl).map fun i => (t.recs i).timeStamp

/-- A packet hits the rule at slot `i`: the hardware refreshes its time stamp and may raise
its redirect bit. -/
def hardwareTouch (t : CtTable) (i : ℕ) (timeStamp : BitVec 24) (redirect : BitVec 1) :
    CtTable :=
  let e := t.recs i
  if e.enable ≠ 0 ∧ e.protocol ≠ invalidProtoFieldCmp then
    t.setRec i { e with timeStamp := timeStamp, redirect := redirect }
  else t

end IpaIpv6ct
end MarbleModules
