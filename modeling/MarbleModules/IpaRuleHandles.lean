import MarbleModules.IpaTableChains
import MarbleModules.IpaIpv6ct

/-! Rule handles of the IPA tables: sixteen bits for the memory type, the index in the base or
the expansion table, and which of the two it is. -/
namespace MarbleModules
namespace IpaTable

variable {R U : Type} {t : Table R U}

/-- What `BREAK_RULE_HDL` takes out of a handle: the memory type, the expansion flag and the
index of the record in the whole table. -/
structure RuleParts where
  mt : ℕ
  iet : ℕ
  indx : ℕ
  deriving DecidableEq

/-- `BREAK_RULE_HDL` -/
def breakRuleParts (t : Table R U) (hdl : ℕ) : RuleParts :=
  let mt := (hdl >>> 15) &&& 1
  let iet := hdl &&& 1
  let indx := (hdl >>> 1) &&& 4095
  ⟨mt,iet,indx+if iet ≠ 0 then t.tableEntries else 0⟩

theorem breakRuleParts_indx (t : Table R U) (hdl : ℕ) :
    (breakRuleParts t hdl).indx = breakRuleHdl t hdl := rfl

/-- The layout of a handle. -/
structure RuleHdl where
  nmi : MemIn
  isExpn : Bool
  index : ℕ
  index_lt : index < 4096

def RuleHdl.pack (h : RuleHdl) : ℕ := 32768*h.nmi.toNat+2*h.index+h.isExpn.toNat

theorem MemIn.toNat_lt (m : MemIn) : m.toNat < 2 := by cases m <;> decide

theorem RuleHdl.pack_lt (h : RuleHdl) : h.pack < 65536 := by
  have hm := h.nmi.toNat_lt
  have hi := h.index_lt
  have hb := h.isExpn.toNat_lt
  rw [pack]
  omega

/-- Breaking a packed handle gives its parts back. -/
theorem breakRuleParts_pack (t : Table R U) (h : RuleHdl) :
    breakRuleParts t h.pack =
      ⟨h.nmi.toNat,h.isExpn.toNat,h.index+if h.isExpn then t.tableEntries else 0⟩ := by
  have hm := h.nmi.toNat_lt
  have hi := h.index_lt
  have hb := h.isExpn.toNat_lt
  have hand : ∀ x, x &&& 4095 = x % 4096 := fun x => Nat.and_two_pow_sub_one_eq_mod x 12
  have hone : ∀ x, x &&& 1 = x % 2 := fun x => Nat.and_two_pow_sub_one_eq_mod x 1
  have hmem : h.pack/2^15 % 2 = h.nmi.toNat := by rw [RuleHdl.pack]; omega
  have hflag : h.pack % 2 = h.isExpn.toNat := by rw [RuleHdl.pack]; omega
  have hindex : h.pack/2^1 % 4096 = h.index := by rw [RuleHdl.pack]; omega
  rw [breakRuleParts]
  simp only [hand,hone,Nat.shiftRight_eq_div_pow,hmem,hflag,hindex]
  cases h.isExpn <;> simp

/-- The layout of the handle of a record. -/
def Table.ruleHdl (t : Table R U) (hs : Sizes t.tableEntries t.expnTableEntries)
    (i : Fin (t.tableEntries+t.expnTableEntries)) : RuleHdl where
  nmi := t.nmi
  isExpn := decide (t.tableEntries ≤ i)
  index := if t.tableEntries ≤ i then i-t.tableEntries else i
  index_lt := by
    have hb := hs.base_le
    have he := hs.expn_le
    split_ifs <;> omega

theorem makeEntryHdl_eq_pack (hs : Sizes t.tableEntries t.expnTableEntries)
    (i : Fin (t.tableEntries+t.expnTableEntries)) :
    makeEntryHdl t i = (t.ruleHdl hs i).pack := by
  have hb := hs.base_le
  have he := hs.expn_le
  rw [RuleHdl.pack,Table.ruleHdl]
  dsimp only
  by_cases hi : t.tableEntries ≤ i
  · rw [makeEntryHdl_expn hi (by omega),decide_eq_true hi,if_pos hi,Bool.toNat_true]
    omega
  · rw [makeEntryHdl_base (Nat.lt_of_not_le hi) hb,decide_eq_false hi,if_neg hi,
      Bool.toNat_false]
    omega

/-- A table of accepted sizes: handles take the record, its table and the memory type back, and
tell the records apart. -/
theorem makeEntryHdl_round_trip (t : Table R U) (num : ℕ) (nmi : MemIn)
    (hsizes : calculateEntriesNum num nmi = some (t.tableEntries,t.expnTableEntries))
    (htot : t.totTblEnts = t.tableEntries+t.expnTableEntries) :
    (∀ i < t.totTblEnts,
      breakRuleParts t (makeEntryHdl t i) =
          ⟨t.nmi.toNat,if t.tableEntries ≤ i then 1 else 0,i⟩ ∧
        ipaTableGetEntry t (makeEntryHdl t i) = some i ∧
        makeEntryHdl t i < 65536 ∧ (i ≠ 0 → makeEntryHdl t i ≠ invalidEntry)) ∧
      ∀ i < t.totTblEnts, ∀ j < t.totTblEnts, i ≠ j → makeEntryHdl t i ≠ makeEntryHdl t j := by
  have hs := calculateEntriesNum_sizes hsizes
  rw [htot]
  refine ⟨fun i hi => ?_,fun i hi j hj hne h => hne (makeEntryHdl_injective hs hi hj h)⟩
  have hpack := makeEntryHdl_eq_pack hs ⟨i,hi⟩
  have hbreak : breakRuleParts t (makeEntryHdl t i) =
      ⟨t.nmi.toNat,if t.tableEntries ≤ i then 1 else 0,i⟩ := by
    rw [hpack,breakRuleParts_pack,Table.ruleHdl]
    by_cases hb : t.tableEntries ≤ i
    · simp [hb]
    · simp [hb]
  refine ⟨hbreak,?_,hpack ▸ RuleHdl.pack_lt _,fun h0 hzero => ?_⟩
  · rw [ipaTableGetEntry,← breakRuleParts_indx,hbreak,if_neg (by dsimp only; omega)]
  · -- the handle 0 is that of record 0
    rw [hzero] at hbreak
    have hindx := congrArg RuleParts.indx hbreak
    exact h0 (by simpa [breakRuleParts,invalidEntry] using hindx.symm)

/-- The IPv6 connection tracking table for 20 entries. -/
def twentyEntries : IpaIpv6ct.CtTable where
  nmi := .ddr
  tableEntries := 16
  expnTableEntries := 4
  totTblEnts := 20
  recs := fun _ => IpaIpv6ct.zeroEntry
  curTblCnt := 0
  curExpnTblCnt := 0
  entryInterface := IpaIpv6ct.entryInterface
  dmaHelp := IpaIpv6ct.dmaHelp 0
  hasMeta := false
  metaPrev := fun _ => 0

theorem makeEntryHdl_round_trip_twenty :
    IpaIpv6ct.createTable 20 = some twentyEntries ∧
      ipaTableGetEntry twentyEntries (makeEntryHdl twentyEntries 17) = some 17 ∧
      makeEntryHdl twentyEntries 17 ≠ makeEntryHdl twentyEntries 1 := by
  have h := makeEntryHdl_round_trip twentyEntries 20 .ddr (by decide) rfl
  exact ⟨by rfl,(h.1 17 (by decide)).2.1,h.2 17 (by decide) 1 (by decide) (by decide)⟩

end IpaTable
end MarbleModules
