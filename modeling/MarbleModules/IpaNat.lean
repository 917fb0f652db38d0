import Mathlib.Data.BitVec
import MarbleModules.IpaTable

/-! The IPv4 NAT table and its index table (`ipa_nat_drvi.c`): record layouts, entry
interfaces, the two hashes, and adding, deleting and clearing rules. Indices and handles
are naturals; every other record field has its width. -/
namespace MarbleModules
namespace IpaNat

open IpaTable

/-- `IPAHAL_NAT_INVALID_PROTOCOL`, the protocol of a dead head -/
def invalidProtocol : BitVec 8 := 0xFF

/-- `ipa_nat_ipv4_rule` -/
structure Ipv4Rule where
  targetIp : BitVec 32
  privateIp : BitVec 32
  targetPort : BitVec 16
  privatePort : BitVec 16
  publicPort : BitVec 16
  protocol : BitVec 8
  pdnIndex : BitVec 8
  redirect : BitVec 8
  enable : BitVec 8
  timeStamp : BitVec 32
  ucActivationIndex : BitVec 16
  s : Bool
  ucp : Bool
  dstOnly : Bool
  srcOnly : Bool
  deriving DecidableEq

/-- `struct ipa_nat_rule` -/
structure NatRule where
  privateIp : BitVec 32
  targetIp : BitVec 32
  nextIndex : ℕ
  publicPort : BitVec 16
  privatePort : BitVec 16
  targetPort : BitVec 16
  ipChksum : BitVec 16
  ucActivationIndex : BitVec 13
  s : BitVec 1
  redirect : BitVec 1
  enable : BitVec 1
  timeStamp : BitVec 24
  protocol : BitVec 8
  prevIndex : ℕ
  indxTblEntry : ℕ
  dstOnly : BitVec 1
  srcOnly : BitVec 1
  ucp : BitVec 1
  pdnIndex : BitVec 4
  tcpUdpChksum : BitVec 16
  deriving DecidableEq

def zeroRule : NatRule where
  privateIp := 0
  targetIp := 0
  nextIndex := 0
  publicPort := 0
  privatePort := 0
  targetPort := 0
  ipChksum := 0
  ucActivationIndex := 0
  s := 0
  redirect := 0
  enable := 0
  timeStamp := 0
  protocol := 0
  prevIndex := 0
  indxTblEntry := 0
  dstOnly := 0
  srcOnly := 0
  ucp := 0
  pdnIndex := 0
  tcpUdpChksum := 0

/-- `struct ipa_nat_indx_tbl_rule` -/
structure IndxRule where
  tblEntry : ℕ
  nextIndex : ℕ
  deriving DecidableEq

/-- `IPA_NAT_RULE_*_FIELD_OFFSET` and `IPA_NAT_INDEX_RULE_*_FIELD_OFFSET` -/
def ruleFlagFieldOffset : ℕ := 18
def ruleNextFieldOffset : ℕ := 8
def ruleProtoFieldOffset : ℕ := 22
def indexRuleNextFieldOffset : ℕ := 2
def indexRuleNatIndexFieldOffset : ℕ := 0

/-- A 16-bit write into a NAT record at one of the three offsets the driver addresses:
the next index, the flags half-word (`ipa_nat_flags`), or the top byte of the time stamp
together with the protocol. -/
def writeRule (r : NatRule) (offset : ℕ) (data : BitVec 16) : NatRule :=
  if offset = ruleNextFieldOffset then { r with nextIndex := data.toNat }
  else if offset = ruleFlagFieldOffset then
    { r with
      ucActivationIndex := data.extractLsb' 0 13
      s := data.extractLsb' 13 1
      redirect := data.extractLsb' 14 1
      enable := data.extractLsb' 15 1 }
  else if offset = ruleProtoFieldOffset then
    { r with
      timeStamp := data.extractLsb' 0 8 ++ r.timeStamp.extractLsb' 0 16
      protocol := data.extractLsb' 8 8 }
  else r

/-- A 16-bit write into an index record. -/
def writeIndxRule (r : IndxRule) (offset : ℕ) (data : BitVec 16) : IndxRule :=
  if offset = indexRuleNatIndexFieldOffset then { r with tblEntry := data.toNat }
  else if offset = indexRuleNextFieldOffset then { r with nextIndex := data.toNat }
  else r

instance : RecordLayout NatRule := ⟨32,zeroRule,writeRule⟩

instance : RecordLayout IndxRule := ⟨4,⟨0,0⟩,writeIndxRule⟩

/-- `ipa_nat_flags` as the half-word a DMA command carries -/
def natFlags (enable redirect s : BitVec 1) (ucActivationIndex : BitVec 13) : BitVec 16 :=
  enable ++ redirect ++ s ++ ucActivationIndex

/-- Add 16 bits to a running checksum and fold the carry once. -/
def addFold (cksum : BitVec 32) (x : BitVec 16) : BitVec 32 :=
  let c := cksum + x.setWidth 32
  if c >>> 16 ≠ 0 then (c &&& 0xFFFF) + 1 else c

/-- `ipa_nati_calc_ip_cksum` -/
def calcIpCksum (pubIpAddr privIpAddr : BitVec 32) : BitVec 16 :=
  let c₀ := addFold ((pubIpAddr &&& 0xFFFF)) (pubIpAddr.extractLsb' 16 16)
  let c₁ := addFold c₀ ((~~~privIpAddr).extractLsb' 0 16)
  (addFold c₁ ((~~~privIpAddr).extractLsb' 16 16)).setWidth 16

/-- `ipa_nati_calc_tcp_udp_cksum` -/
def calcTcpUdpCksum (pubIpAddr : BitVec 32) (pubPort : BitVec 16) (privIpAddr : BitVec 32)
    (privPort : BitVec 16) : BitVec 16 :=
  let c₀ := addFold ((pubIpAddr &&& 0xFFFF)) (pubIpAddr.extractLsb' 16 16)
  let c₁ := addFold c₀ pubPort
  let c₂ := addFold c₁ ((~~~privIpAddr).extractLsb' 0 16)
  let c₃ := addFold c₂ ((~~~privIpAddr).extractLsb' 16 16)
  (addFold c₃ (~~~privPort)).setWidth 16

/-- What the NAT entry interface receives: the client's rule and the public address the
global PDN table holds for its `pdn_index`. -/
structure UserRule where
  rule : Ipv4Rule
  pubIpAddr : BitVec 32

def boolBit (b : Bool) : BitVec 1 := if b then 1 else 0

/-- `table_entry_copy_from_user` -/
def tableEntryCopyFromUser (r : NatRule) (u : UserRule) : NatRule :=
  { r with
    privateIp := u.rule.privateIp
    privatePort := u.rule.privatePort
    protocol := u.rule.protocol
    publicPort := u.rule.publicPort
    targetIp := u.rule.targetIp
    targetPort := u.rule.targetPort
    pdnIndex := u.rule.pdnIndex.setWidth 4
    ucActivationIndex := u.rule.ucActivationIndex.setWidth 13
    s := boolBit u.rule.s
    ucp := boolBit u.rule.ucp
    dstOnly := boolBit u.rule.dstOnly
    srcOnly := boolBit u.rule.srcOnly
    ipChksum := calcIpCksum u.pubIpAddr u.rule.privateIp
    tcpUdpChksum :=
      if u.rule.protocol = 6 ∨ u.rule.protocol = 17 then
        calcTcpUdpCksum u.pubIpAddr u.rule.publicPort u.rule.privateIp u.rule.privatePort
      else r.tcpUdpChksum }

/-- `table_entry_head_insert`: the enable flag travels in the DMA data only, and with it
a zero redirect bit. -/
def tableEntryHeadInsert (r : NatRule) (u : UserRule) : NatRule × ℤ × BitVec 16 :=
  let r' := tableEntryCopyFromUser r u
  (r',0,natFlags 1 0 r'.s r'.ucActivationIndex)

/-- `table_entry_tail_insert` -/
def tableEntryTailInsert (r : NatRule) (u : UserRule) : NatRule × ℤ :=
  ({ tableEntryCopyFromUser r u with enable := 1 },0)

def entryInterface : EntryInterface NatRule UserRule where
  entryIsValid := fun r => decide (r.enable ≠ 0)
  entryGetNextIndex := fun r => r.nextIndex
  entryGetPrevIndex := fun r _ _ _ => r.prevIndex
  entrySetPrevIndex := fun r _ prev m _ => ({ r with prevIndex := prev },m)
  entryHeadInsert := tableEntryHeadInsert
  entryTailInsert := tableEntryTailInsert
  entryGetDeleteHeadDmaCommandData := fun _ _ => 0xFF00

/-- The previous index of an index record lives in the meta array, for expansion records
only. The user data is the NAT index to store. -/
def indexEntryInterface : EntryInterface IndxRule ℕ where
  entryIsValid := fun r => decide (r.tblEntry ≠ 0)
  entryGetNextIndex := fun r => r.nextIndex
  entryGetPrevIndex := fun _ i m base => if base ≤ i then m (i-base) else 0
  entrySetPrevIndex := fun r i prev m base =>
    (r,if base ≤ i then Function.update m (i-base) prev else m)
  entryHeadInsert := fun r u => (r,0,BitVec.ofNat 16 u)
  entryTailInsert := fun r u => ({ r with tblEntry := u },0)
  entryGetDeleteHeadDmaCommandData := fun _ next => BitVec.ofNat 16 next.tblEntry

/-- The helpers `ipa_nati_create_table_dma_cmd_helpers` attaches to the NAT table. -/
def natDmaHelp (tableIndx : ℕ) : DmaHelp → DmaCmdHelper
  | .updateHead => ⟨ruleFlagFieldOffset,.natBaseTbl,.natExpnTbl,tableIndx⟩
  | .updateEntry => ⟨ruleNextFieldOffset,.natBaseTbl,.natExpnTbl,tableIndx⟩
  | .deleteHead => ⟨ruleProtoFieldOffset,.natBaseTbl,.natExpnTbl,tableIndx⟩

/-- The helpers `ipa_nati_create_table_dma_cmd_helpers` attaches to the index table. -/
def indexDmaHelp (tableIndx : ℕ) : DmaHelp → DmaCmdHelper
  | .updateHead => ⟨indexRuleNatIndexFieldOffset,.natIndxTbl,.natIndexExpnTbl,tableIndx⟩
  | .updateEntry => ⟨indexRuleNextFieldOffset,.natIndxTbl,.natIndexExpnTbl,tableIndx⟩
  | .deleteHead => ⟨indexRuleNatIndexFieldOffset,.natIndxTbl,.natIndexExpnTbl,tableIndx⟩

/-- `struct ipa_nat_ip4_table_cache` -/
structure NatTable where
  table : Table NatRule UserRule
  indexTable : Table IndxRule ℕ

/-- `ipa_nati_create_table` -/
def createTable (nmi : MemIn) (numberOfEntries : ℕ) : Option NatTable :=
  (calculateEntriesNum numberOfEntries nmi).map fun sizes =>
    { table :=
        { nmi := nmi, tableEntries := sizes.1, expnTableEntries := sizes.2,
          totTblEnts := sizes.1+sizes.2, recs := fun _ => zeroRule, curTblCnt := 0,
          curExpnTblCnt := 0, entryInterface := entryInterface, dmaHelp := natDmaHelp 0,
          hasMeta := false, metaPrev := fun _ => 0 }
      indexTable :=
        { nmi := nmi, tableEntries := sizes.1, expnTableEntries := sizes.2,
          totTblEnts := sizes.1+sizes.2, recs := fun _ => ⟨0,0⟩, curTblCnt := 0,
          curExpnTblCnt := 0, entryInterface := indexEntryInterface,
          dmaHelp := indexDmaHelp 0, hasMeta := true, metaPrev := fun _ => 0 } }

/-- The hardware applies one DMA command. -/
def applyDma (n : NatTable) (d : DmaOne) : NatTable :=
  match d.baseAddr with
  | .natBaseTbl => { n with table := n.table.dmaWrite false d.offset d.data }
  | .natExpnTbl => { n with table := n.table.dmaWrite true d.offset d.data }
  | .natIndxTbl => { n with indexTable := n.indexTable.dmaWrite false d.offset d.data }
  | .natIndexExpnTbl => { n with indexTable := n.indexTable.dmaWrite true d.offset d.data }
  | _ => n

/-- `ipa_nati_post_ipv4_dma_cmd`: the commands are applied in order when the ioctl
succeeds, and not at all when it fails. -/
def postIpv4DmaCmd (n : NatTable) (cmd : List DmaOne) (ioctl : Bool) : NatTable × Bool :=
  if ioctl then (cmd.foldl applyDma n,true) else (n,false)

/-- `dst_hash`; `size` is the base size minus one, `ver4` the test for IPA 4.0. -/
def dstHash (ver4 : Bool) (publicIp trgtIp : BitVec 32) (trgtPort publicPort : BitVec 16)
    (proto : BitVec 8) (size : ℕ) : ℕ :=
  let hash := trgtIp.extractLsb' 0 16 ^^^ trgtIp.extractLsb' 16 16 ^^^ trgtPort ^^^
    publicPort ^^^ proto.setWidth 16
  let hash := if ver4 then
      hash ^^^ (publicIp.extractLsb' 0 16 ^^^ publicIp.extractLsb' 16 16)
    else hash
  if hash.toNat &&& size = 0 then size else hash.toNat &&& size

/-- `src_hash` -/
def srcHash (privIp : BitVec 32) (privPort : BitVec 16) (trgtIp : BitVec 32)
    (trgtPort : BitVec 16) (proto : BitVec 8) (size : ℕ) : ℕ :=
  let hash := privIp.extractLsb' 0 16 ^^^ privIp.extractLsb' 16 16 ^^^ privPort ^^^
    trgtIp.extractLsb' 0 16 ^^^ trgtIp.extractLsb' 16 16 ^^^ trgtPort ^^^ proto.setWidth 16
  if hash.toNat &&& size = 0 then size else hash.toNat &&& size

/-- The `src_only` / `dst_only` detour of `ipa_NATI_add_ipv4_rule`: spread by the token. -/
def spread (hash token tableEntries : ℕ) : ℕ :=
  let i := (hash + token) % 65536 &&& (tableEntries-1)
  if i = 0 then tableEntries-1 else i

/-- The globals of `ipa_nat_drvi.c` outside the tables: PDN public addresses, their
number, the hash token, and whether the hardware is IPA 4.0 or later. -/
structure Globals where
  pdns : ℕ → BitVec 32
  maxPdnNum : ℕ
  hashToken : ℕ
  ver4 : Bool

/-- The base slot of the NAT table for a rule. -/
def natSlot (g : Globals) (tableEntries : ℕ) (rule : Ipv4Rule) : ℕ :=
  let hash := dstHash g.ver4 (g.pdns rule.pdnIndex.toNat) rule.targetIp rule.targetPort
    rule.publicPort rule.protocol (tableEntries-1)
  if rule.srcOnly then spread hash g.hashToken tableEntries else hash

/-- The base slot of the index table for a rule. -/
def indexSlot (g : Globals) (tableEntries : ℕ) (rule : Ipv4Rule) : ℕ :=
  let hash := srcHash rule.privateIp rule.privatePort rule.targetIp rule.targetPort
    rule.protocol (tableEntries-1)
  if rule.dstOnly then spread hash g.hashToken tableEntries else hash

def bumpToken (g : Globals) (b : Bool) : Globals :=
  if b then { g with hashToken := g.hashToken+1 } else g

/-- `ipa_NATI_add_ipv4_rule` on an initialised table: table, globals, return code and
the handle of the new rule. -/
def addIpv4Rule (n : NatTable) (g : Globals) (rule : Ipv4Rule) (ioctl : Bool) :
    NatTable × Globals × ℤ × ℕ :=
  if rule.protocol = invalidProtocol then (n,g,-einval,0)
  else if g.maxPdnNum ≤ rule.pdnIndex.toNat ∨ g.pdns rule.pdnIndex.toNat = 0 then
    (n,g,-einval,0)
  else
    let slot := natSlot g n.table.tableEntries rule
    let g₁ := bumpToken g rule.srcOnly
    match ipaTableAddEntry n.table ⟨rule,g.pdns rule.pdnIndex.toNat⟩ slot [] with
    | (t₁,ret₁,cmd₁,newEntry) =>
      if ret₁ ≠ 0 then ({ n with table := t₁ },g₁,ret₁,0)
      else
        let newHandle := makeEntryHdl t₁ newEntry
        let islot := indexSlot g₁ n.table.tableEntries rule
        let g₂ := bumpToken g₁ rule.dstOnly
        match ipaTableAddEntry n.indexTable newEntry islot cmd₁ with
        | (x₁,ret₂,cmd₂,newIndexEntry) =>
          if ret₂ ≠ 0 then
            ({ table := ipaTableEraseEntry t₁ newEntry, indexTable := x₁ },g₂,ret₂,0)
          else
            match ipaTableGetEntryByIndex t₁ newEntry with
            | none =>
              ({ table := ipaTableEraseEntry t₁ newEntry,
                 indexTable := ipaTableEraseEntry x₁ newIndexEntry },g₂,-eperm,0)
            | some i =>
              let t₂ := t₁.setRec i
                { t₁.recs i with
                  indxTblEntry := newIndexEntry
                  redirect := rule.redirect.setWidth 1
                  enable := rule.enable.setWidth 1
                  timeStamp := rule.timeStamp.setWidth 24 }
              match postIpv4DmaCmd ⟨t₂,x₁⟩ cmd₂ ioctl with
              | (n',true) => (n',g₂,0,newHandle)
              | (n',false) =>
                ({ table := ipaTableEraseEntry n'.table newEntry,
                   indexTable := ipaTableEraseEntry n'.indexTable newIndexEntry },
                  g₂,-5,0)

/-- `ipa_nati_copy_second_index_entry_to_head`: the CPU rewrites the back pointer of the
rule whose index entry moves. -/
def copySecondIndexEntryToHead (n : NatTable) (it : Iterator) (cmd : List DmaOne) :
    NatTable × List DmaOne :=
  let second := n.indexTable.recs it.nextIndex
  let cmd' := ipaTableAddDmaCmd n.indexTable .updateEntry it.currIndex
    (BitVec.ofNat 16 second.nextIndex) cmd
  let rule := { n.table.recs second.tblEntry with indxTblEntry := it.currIndex }
  ({ n with table := n.table.setRec second.tblEntry rule },cmd')

/-- `is_prev_empty` of `ipa_NATI_del_ipv4_rule`: the previous rule is a dead head. -/
def isPrevEmpty (table : Table NatRule UserRule) (it : Iterator) : Bool :=
  match it.prevEntry with
  | none => false
  | some p => decide ((table.recs p).protocol = invalidProtocol)

/-- The part of `ipa_NATI_del_ipv4_rule` after the DMA commands have been applied. -/
def finishDelete (n : NatTable) (tit iit : Iterator) : NatTable :=
  let table :=
    if iteratorIsHeadWithTail tit then n.table
    else ipaTableDeleteEntry n.table tit (isPrevEmpty n.table tit)
  let x := ipaTableDeleteEntry n.indexTable iit false
  { table := table
    indexTable :=
      if x.tableEntries ≤ iit.currIndex then
        { x with metaPrev := Function.update x.metaPrev (iit.currIndex - x.tableEntries) 0 }
      else x }

/-- `ipa_NATI_del_ipv4_rule` on an initialised table -/
def delIpv4Rule (n : NatTable) (hdl : ℕ) (ioctl : Bool) : NatTable × ℤ :=
  match ipaTableGetEntry n.table hdl with
  | none => (n,-einval)
  | some i =>
    match ipaTableIteratorInit n.table i with
    | .error e => (n,e)
    | .ok tit =>
      match ipaTableGetEntryByIndex n.indexTable (n.table.recs i).indxTblEntry with
      | none => (n,-eperm)
      | some x =>
        match ipaTableIteratorInit n.indexTable x with
        | .error e => (n,e)
        | .ok iit =>
          let cmd₁ := ipaTableCreateDeleteCommand n.indexTable iit []
          if iteratorIsHeadWithTail iit then
            match copySecondIndexEntryToHead n iit cmd₁ with
            | (n₁,cmd₂) =>
              match ipaTableIteratorNext n₁.indexTable iit with
              | .error e => (n₁,e)
              | .ok iit' =>
                match postIpv4DmaCmd n₁ (ipaTableCreateDeleteCommand n₁.table tit cmd₂)
                    ioctl with
                | (n₂,true) => (finishDelete n₂ tit iit',0)
                | (n₂,false) => (n₂,-5)
          else
            match postIpv4DmaCmd n (ipaTableCreateDeleteCommand n.table tit cmd₁) ioctl with
            | (n₂,true) => (finishDelete n₂ tit iit,0)
            | (n₂,false) => (n₂,-5)

/-- `ipa_NATI_clear_ipv4_tbl` on an initialised table; the meta array is not cleared. -/
def clearIpv4Tbl (n : NatTable) : NatTable where
  table := { ipaTableReset n.table with curTblCnt := 0, curExpnTblCnt := 0 }
  indexTable := { ipaTableReset n.indexTable with curTblCnt := 0, curExpnTblCnt := 0 }

/-- `ipa_NATI_query_timestamp_redirect` on an initialised table -/
def queryTimestampRedirect (n : NatTable) (hdl : ℕ) : Option (BitVec 24 × BitVec 1) :=
  (ipaTableGetEntry n.table hdl).map fun i =>
    ((n.table.recs i).timeStamp,(n.table.recs i).redirect)

/-- `ipa_nati_modify_pdn`, once its ioctl has succeeded -/
def modifyPdn (g : Globals) (pdnIndex : ℕ) (publicIp : BitVec 32) : Globals :=
  { g with pdns := Function.update g.pdns pdnIndex publicIp }

/-- A packet hits the rule at slot `i`: the hardware refreshes its time stamp and may raise
its redirect bit. -/
def hardwareTouch (n : NatTable) (i : ℕ) (timeStamp : BitVec 24) (redirect : BitVec 1) :
    NatTable :=
  let r := n.table.recs i
  if r.enable ≠ 0 ∧ r.protocol ≠ invalidProtocol then
    { n with table := n.table.setRec i { r with timeStamp := timeStamp, redirect := redirect } }
  else n

end IpaNat
end MarbleModules
