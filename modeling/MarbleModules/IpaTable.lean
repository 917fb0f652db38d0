import Mathlib.Logic.Function.Basic
import Mathlib.Data.Int.Basic
import Mathlib.Data.Nat.Bitwise

/-! The generic chained hash table of the IPA user-space library (`ipa_table.c`): a base
table, an expansion table behind it, and an entry interface through which every record
is read and written. Record fields the hardware owns change through DMA commands only. -/
namespace MarbleModules
namespace IpaTable

/-- `IPA_TABLE_INVALID_ENTRY` -/
def invalidEntry : ℕ := 0

/-- `IPA_TABLE_MAX_ENTRIES` -/
def maxEntries : ℕ := 5120

def einval : ℤ := 22
def eperm : ℤ := 1

/-- `enum ipa3_nat_mem_in` -/
inductive MemIn
  | ddr | sram
  deriving DecidableEq

def MemIn.toNat : MemIn → ℕ
  | .ddr => 0
  | .sram => 1

/-- `ipa_table_dma_type` -/
inductive DmaType
  | natBaseTbl | natExpnTbl | natIndxTbl | natIndexExpnTbl | ipv6ctBaseTbl | ipv6ctExpnTbl
  deriving DecidableEq

/-- `dma_help_type` -/
inductive DmaHelp
  | updateHead | updateEntry | deleteHead
  deriving DecidableEq

/-- `struct ipa_ioc_nat_dma_one`: a 16-bit write at a byte offset of one table. -/
structure DmaOne where
  tableIndex : ℕ
  baseAddr : DmaType
  offset : ℕ
  data : BitVec 16
  deriving DecidableEq

/-- `ipa_table_dma_cmd_helper`; `offset` is the field's offset in a record. -/
structure DmaCmdHelper where
  offset : ℕ
  tableType : DmaType
  expnTableType : DmaType
  tableIndx : ℕ

/-- The memory layout of a record type: its size, the record of zero bytes, and the
effect of a 16-bit write at a byte offset. -/
class RecordLayout (R : Type) where
  entrySize : ℕ
  zero : R
  write16 : R → ℕ → BitVec 16 → R

/-- `ipa_table_entry_interface`. The meta array is passed as a function; setters return
the record and the meta array, inserters also their return code and DMA data. -/
structure EntryInterface (R U : Type) where
  entryIsValid : R → Bool
  entryGetNextIndex : R → ℕ
  entryGetPrevIndex : R → ℕ → (ℕ → ℕ) → ℕ → ℕ
  entrySetPrevIndex : R → ℕ → ℕ → (ℕ → ℕ) → ℕ → R × (ℕ → ℕ)
  entryHeadInsert : R → U → R × ℤ × BitVec 16
  entryTailInsert : R → U → R × ℤ
  entryGetDeleteHeadDmaCommandData : R → R → BitVec 16

/-- `ipa_table`. `recs` is the memory from `table_addr` on, the expansion table following
the base table; `hasMeta` tells whether a meta array is attached. -/
structure Table (R U : Type) where
  nmi : MemIn
  tableEntries : ℕ
  expnTableEntries : ℕ
  totTblEnts : ℕ
  recs : ℕ → R
  curTblCnt : ℕ
  curExpnTblCnt : ℕ
  entryInterface : EntryInterface R U
  dmaHelp : DmaHelp → DmaCmdHelper
  hasMeta : Bool
  metaPrev : ℕ → ℕ

/-- `ipa_table_iterator`. An entry pointer is the index of the record it points to. -/
structure Iterator where
  prevIndex : ℕ
  prevEntry : Option ℕ
  currIndex : ℕ
  nextIndex : ℕ
  nextEntry : Option ℕ
  deriving DecidableEq

variable {R U : Type} [RecordLayout R]

namespace Table

def setRec (t : Table R U) (i : ℕ) (r : R) : Table R U :=
  { t with recs := Function.update t.recs i r }

/-- `entry_is_valid` of the record at an index -/
def occupied (t : Table R U) (i : ℕ) : Bool := t.entryInterface.entryIsValid (t.recs i)

def nextIndex (t : Table R U) (i : ℕ) : ℕ := t.entryInterface.entryGetNextIndex (t.recs i)

def prevIndex (t : Table R U) (i : ℕ) : ℕ :=
  t.entryInterface.entryGetPrevIndex (t.recs i) i t.metaPrev t.tableEntries

end Table

/-- `--` on a `uint16_t` -/
def dec16 (n : ℕ) : ℕ := (n + 65535) % 65536

/-- The loop of `Get2PowerTightUpperBound`; 16 iterations shift out a `uint16_t`. -/
def get2PowerLoop : ℕ → ℕ → ℕ → ℕ → ℕ × ℕ
  | 0, _, prev, curr => (prev,curr)
  | fuel+1, tmp, prev, curr =>
    if tmp = 1 then (prev,curr) else get2PowerLoop fuel (tmp/2) curr (2*curr)

/-- `Get2PowerTightUpperBound` -/
def get2PowerTightUpperBound (num : ℕ) : ℕ :=
  if num = 0 then 2
  else
    let r := get2PowerLoop 16 num 0 2
    if num = r.1 then r.1 else r.2

/-- `GetEvenTightUpperBound` -/
def getEvenTightUpperBound (num : ℕ) : ℕ :=
  if num = 0 then 2 else if num % 2 = 1 then num+1 else num

/-- `ipa_table_calculate_entries_num`: the base and expansion sizes, `none` on failure.
The float percentages (1.00 and .43 for SRAM, .8 and .2 for DDR) truncate to these
quotients for every count up to the maximum. -/
def calculateEntriesNum (numberOfEntries : ℕ) (nmi : MemIn) : Option (ℕ × ℕ) :=
  if maxEntries < numberOfEntries then none
  else
    let base := get2PowerTightUpperBound (match nmi with
      | .sram => numberOfEntries
      | .ddr => numberOfEntries*4/5)
    let expn := getEvenTightUpperBound (match nmi with
      | .sram => numberOfEntries*43/100
      | .ddr => numberOfEntries/5)
    if maxEntries < base+expn then none else some (base,expn)

/-- `ipa_table_reset` -/
def ipaTableReset (t : Table R U) : Table R U :=
  { t with recs := fun _ => RecordLayout.zero }

/-- `MakeEntryHdl` -/
def makeEntryHdl (t : Table R U) (tblEntry : ℕ) : ℕ :=
  (if t.tableEntries ≤ tblEntry then ((tblEntry - t.tableEntries) <<< 1) ||| 1
    else tblEntry <<< 1) % 65536 ||| t.nmi.toNat <<< 15

/-- `BREAK_RULE_HDL`: the record index of a handle -/
def breakRuleHdl (t : Table R U) (hdl : ℕ) : ℕ :=
  ((hdl >>> 1) &&& 4095) + if hdl &&& 1 ≠ 0 then t.tableEntries else 0

/-- `ipa_table_get_entry` -/
def ipaTableGetEntry (t : Table R U) (hdl : ℕ) : Option ℕ :=
  if t.totTblEnts ≤ breakRuleHdl t hdl then none else some (breakRuleHdl t hdl)

/-- `ipa_table_get_entry_by_index` -/
def ipaTableGetEntryByIndex (t : Table R U) (i : ℕ) : Option ℕ :=
  if i = 0 ∨ t.totTblEnts ≤ i then none else some i

/-- `ipa_table_add_dma_cmd` with `ipa_table_dma_cmd_generate` -/
def ipaTableAddDmaCmd (t : Table R U) (help : DmaHelp) (recIndex : ℕ) (data : BitVec 16)
    (cmd : List DmaOne) : List DmaOne :=
  if t.tableEntries + t.expnTableEntries ≤ recIndex then cmd
  else
    let helper := t.dmaHelp help
    let isExpn := t.tableEntries ≤ recIndex
    cmd ++ [{
      tableIndex := helper.tableIndx
      baseAddr := if isExpn then helper.expnTableType else helper.tableType
      offset := helper.offset +
        RecordLayout.entrySize R * (if isExpn then recIndex - t.tableEntries else recIndex)
      data := data }]

/-- The hardware's side of a command: write into the addressed record. -/
def Table.dmaWrite (t : Table R U) (isExpn : Bool) (offset : ℕ) (data : BitVec 16) :
    Table R U :=
  let i := offset / RecordLayout.entrySize R + if isExpn then t.tableEntries else 0
  t.setRec i (RecordLayout.write16 (t.recs i) (offset % RecordLayout.entrySize R) data)

/-- `When2Callback` -/
inductive When2Callback
  | slotEmpty | slotFilled
  deriving DecidableEq

/-- The loop of `ipa_table_walk` over `n` records from `i` on. The callback may change
the caller's state but not the table it walks. -/
def walkLoop {σ : Type} (t : Table R U) (when2cb : When2Callback)
    (walkCb : σ → ℕ → ℕ → R → σ × ℤ) : ℕ → ℕ → σ → σ × ℤ
  | _, 0, s => (s,0)
  | i, n+1, s =>
    if t.occupied i = decide (when2cb = .slotFilled) then
      match walkCb s (makeEntryHdl t i) i (t.recs i) with
      | (s',ret) => if ret ≠ 0 then (s',ret) else walkLoop t when2cb walkCb (i+1) n s'
    else walkLoop t when2cb walkCb (i+1) n s

/-- `ipa_table_walk` -/
def ipaTableWalk {σ : Type} (t : Table R U) (startIndex : ℕ) (when2cb : When2Callback)
    (walkCb : σ → ℕ → ℕ → R → σ × ℤ) (s : σ) : σ × ℤ :=
  let tot := t.tableEntries + t.expnTableEntries
  if tot ≤ startIndex then (s,-einval)
  else walkLoop t when2cb walkCb startIndex (tot - startIndex) s

/-- `FindExpnTblFreeEntry`, whose callback `mt_slot` returns the record index. -/
def findExpnTblFreeEntry (t : Table R U) : Option ℕ :=
  let ret := (ipaTableWalk t t.tableEntries .slotEmpty
    (fun (_ : Unit) _ i _ => ((),(i : ℤ))) ()).2
  if 0 < ret then some ret.toNat else none

/-- The loop of `ipa_table_iterator_end` from record `i`: `none` while the fuel lasts no
longer, `some none` for its error exit, else the last record of the chain. -/
def iteratorEndLoop (t : Table R U) : ℕ → ℕ → Option (Option ℕ)
  | 0, _ => none
  | fuel+1, i =>
    let next := t.nextIndex i
    if next = invalidEntry then some (some i)
    else if next = i then some none
    else iteratorEndLoop t fuel next

/-- `ipa_table_iterator_end`; a chain cannot be longer than the table. -/
def ipaTableIteratorEnd (t : Table R U) (recIndex : ℕ) : Option (Option ℕ) :=
  iteratorEndLoop t (t.totTblEnts+1) recIndex

/-- `ipa_table_iterator_init` -/
def ipaTableIteratorInit (t : Table R U) (currIndex : ℕ) : Except ℤ Iterator :=
  if t.occupied currIndex = false then .error (-einval)
  else
    let prev := t.prevIndex currIndex
    let next := t.nextIndex currIndex
    let prevEntry := if prev = invalidEntry then none else ipaTableGetEntryByIndex t prev
    let nextEntry := if next = invalidEntry then none else ipaTableGetEntryByIndex t next
    if prev ≠ invalidEntry ∧ prevEntry = none then .error (-eperm)
    else if next ≠ invalidEntry ∧ nextEntry = none then .error (-eperm)
    else .ok ⟨prev,prevEntry,currIndex,next,nextEntry⟩

/-- `ipa_table_iterator_next` -/
def ipaTableIteratorNext (t : Table R U) (it : Iterator) : Except ℤ Iterator :=
  let next := t.nextIndex it.nextIndex
  if next = invalidEntry then
    .ok ⟨it.currIndex,some it.currIndex,it.nextIndex,next,none⟩
  else
    match ipaTableGetEntryByIndex t next with
    | none => .error (-eperm)
    | some e => .ok ⟨it.currIndex,some it.currIndex,it.nextIndex,next,some e⟩

/-- `ipa_table_iterator_is_head_with_tail` -/
def iteratorIsHeadWithTail (it : Iterator) : Bool :=
  decide (it.nextIndex ≠ invalidEntry) && decide (it.prevIndex = invalidEntry)

/-- `InsertHead` -/
def insertHead (t : Table R U) (recIndex : ℕ) (userData : U) (cmd : List DmaOne) :
    Table R U × ℤ × List DmaOne :=
  match t.entryInterface.entryHeadInsert (t.recs recIndex) userData with
  | (r,ret,enableData) =>
    let t₁ := t.setRec recIndex r
    if ret ≠ 0 then (t₁,ret,cmd)
    else
      ({ t₁ with curTblCnt := t.curTblCnt+1 },0,
        ipaTableAddDmaCmd t₁ .updateHead recIndex enableData cmd)

/-- The copy step of `InsertTail`: record, return code and DMA data of the free slot. -/
def tailInsertEntry (t : Table R U) (r : R) (userData : U) : R × ℤ × BitVec 16 :=
  if t.hasMeta then
    let ins := t.entryInterface.entryTailInsert r userData
    (ins.1,ins.2,0)
  else t.entryInterface.entryHeadInsert r userData

/-- `InsertTail`; the last result is the index the entry was stored at. -/
def insertTail (t : Table R U) (recIndex : ℕ) (userData : U) (cmd : List DmaOne) :
    Table R U × ℤ × List DmaOne × ℕ :=
  match ipaTableIteratorEnd t recIndex with
  | some (some last) =>
    match findExpnTblFreeEntry t with
    | none => (t,-1,cmd,recIndex)
    | some free =>
      match tailInsertEntry t (t.recs free) userData with
      | (r,ret,enableData) =>
        if ret ≠ 0 then (t.setRec free r,ret,cmd,recIndex)
        else
          let set := t.entryInterface.entrySetPrevIndex r free last t.metaPrev t.tableEntries
          let t₁ := { t.setRec free set.1 with metaPrev := set.2 }
          let cmd₁ := if t.hasMeta then cmd
            else ipaTableAddDmaCmd t₁ .updateHead free enableData cmd
          ({ t₁ with curExpnTblCnt := t.curExpnTblCnt+1 },0,
            ipaTableAddDmaCmd t₁ .updateEntry last (BitVec.ofNat 16 free) cmd₁,free)
  | _ => (t,-1,cmd,recIndex)

/-- `ipa_table_add_entry`: table, return code, commands and the index of the new entry. -/
def ipaTableAddEntry (t : Table R U) (userData : U) (recIndex : ℕ) (cmd : List DmaOne) :
    Table R U × ℤ × List DmaOne × ℕ :=
  if t.occupied recIndex = false then
    match insertHead t recIndex userData cmd with
    | (t',ret,cmd') => (t',ret,cmd',recIndex)
  else insertTail t recIndex userData cmd

/-- `ipa_table_create_delete_command` -/
def ipaTableCreateDeleteCommand (t : Table R U) (it : Iterator) (cmd : List DmaOne) :
    List DmaOne :=
  if it.prevIndex = invalidEntry then
    if it.nextIndex = invalidEntry then
      ipaTableAddDmaCmd t .updateHead it.currIndex 0 cmd
    else
      ipaTableAddDmaCmd t .deleteHead it.currIndex
        (t.entryInterface.entryGetDeleteHeadDmaCommandData (t.recs it.currIndex)
          (t.recs it.nextIndex)) cmd
  else ipaTableAddDmaCmd t .updateEntry it.prevIndex (BitVec.ofNat 16 it.nextIndex) cmd

/-- `ipa_table_erase_entry` -/
def ipaTableEraseEntry (t : Table R U) (i : ℕ) : Table R U :=
  let t₁ := t.setRec i RecordLayout.zero
  if i < t.tableEntries then { t₁ with curTblCnt := dec16 t.curTblCnt }
  else { t₁ with curExpnTblCnt := dec16 t.curExpnTblCnt }

/-- `ipa_table_delete_entry` -/
def ipaTableDeleteEntry (t : Table R U) (it : Iterator) (isPrevEmpty : Bool) : Table R U :=
  let t₁ :=
    if it.nextIndex ≠ invalidEntry then
      let set := t.entryInterface.entrySetPrevIndex (t.recs it.nextIndex) it.nextIndex
        it.prevIndex t.metaPrev t.tableEntries
      { t.setRec it.nextIndex set.1 with metaPrev := set.2 }
    else if isPrevEmpty then
      match it.prevEntry with
      | none => t
      -- the dead head goes once the last entry of its tail goes
      | some p => { t.setRec p RecordLayout.zero with curTblCnt := dec16 t.curTblCnt }
    else t
  ipaTableEraseEntry t₁ it.currIndex

end IpaTable
end MarbleModules
