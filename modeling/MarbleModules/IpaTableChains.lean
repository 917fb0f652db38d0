import Mathlib.Data.Nat.Bitwise
import MarbleModules.PointerChains
import MarbleModules.IpaTable

/-! The generic table as a store of pointer chains: its link view, the sizes and handles,
the two searches along a chain and through the expansion table, and the effect of DMA
commands on records. -/
namespace MarbleModules
namespace IpaTable

open PointerChains

variable {R U : Type}

section Sizes

/-- What `ipa_table_calculate_entries_num` guarantees of the sizes. -/
structure Sizes (base expn : ℕ) : Prop where
  pow : ∃ k, base = 2^(k+1)
  base_le : base ≤ 4096
  expn_pos : 0 < expn
  expn_le : expn ≤ 4096

theorem get2PowerLoop_pow (fuel tmp prev curr : ℕ) (hc : ∃ k, curr = 2^(k+1))
    (hp : prev = 0 ∨ ∃ k, prev = 2^(k+1)) :
    (∃ k, (get2PowerLoop fuel tmp prev curr).2 = 2^(k+1)) ∧
      ((get2PowerLoop fuel tmp prev curr).1 = 0 ∨
        ∃ k, (get2PowerLoop fuel tmp prev curr).1 = 2^(k+1)) := by
  induction fuel generalizing tmp prev curr with
  | zero => exact ⟨hc,hp⟩
  | succ fuel ih =>
    rw [get2PowerLoop]
    by_cases htmp : tmp = 1
    · simpa [htmp] using ⟨hc,hp⟩
    · rw [if_neg htmp]
      obtain ⟨k,rfl⟩ := hc
      exact ih _ _ _ ⟨k+1,by ring⟩ (Or.inr ⟨k,rfl⟩)

theorem get2PowerTightUpperBound_pow (num : ℕ) :
    ∃ k, get2PowerTightUpperBound num = 2^(k+1) := by
  unfold get2PowerTightUpperBound
  by_cases h0 : num = 0
  · exact ⟨0,by simp [h0]⟩
  · obtain ⟨h2,h1⟩ := get2PowerLoop_pow 16 num 0 2 ⟨0,rfl⟩ (Or.inl rfl)
    simp only [h0,if_false]
    by_cases hnum : num = (get2PowerLoop 16 num 0 2).1
    · rw [if_pos hnum]
      exact h1.resolve_left fun h => h0 (hnum.trans h)
    · rw [if_neg hnum]
      exact h2

theorem getEvenTightUpperBound_bounds (num : ℕ) :
    0 < getEvenTightUpperBound num ∧ getEvenTightUpperBound num ≤ num+2 := by
  unfold getEvenTightUpperBound
  split
  · omega
  · split <;> omega

theorem two_pow_le_of_le {k : ℕ} (h : 2^(k+1) ≤ maxEntries) : 2^(k+1) ≤ 4096 := by
  have hk : k+1 < 13 := by
    by_contra hge
    have hle : 2^13 ≤ 2^(k+1) := Nat.pow_le_pow_right (by norm_num) (by omega)
    unfold maxEntries at h
    omega
  calc 2^(k+1) ≤ 2^12 := Nat.pow_le_pow_right (by norm_num) (by omega)
    _ = 4096 := by norm_num

theorem sizes_of_bounds {b e : ℕ} (he : e ≤ 4000)
    (hmax : get2PowerTightUpperBound b + getEvenTightUpperBound e ≤ maxEntries) :
    Sizes (get2PowerTightUpperBound b) (getEvenTightUpperBound e) := by
  obtain ⟨k,hk⟩ := get2PowerTightUpperBound_pow b
  obtain ⟨hpos,hle⟩ := getEvenTightUpperBound_bounds e
  refine ⟨⟨k,hk⟩,?_,hpos,by omega⟩
  rw [hk] at hmax ⊢
  exact two_pow_le_of_le (by omega)

theorem calculateEntriesNum_sizes {num : ℕ} {nmi : MemIn} {sizes : ℕ × ℕ}
    (h : calculateEntriesNum num nmi = some sizes) : Sizes sizes.1 sizes.2 := by
  unfold calculateEntriesNum at h
  by_cases hnum : maxEntries < num
  · simp [hnum] at h
  · have hle : num ≤ 5120 := Nat.not_lt.mp hnum
    rw [if_neg hnum] at h
    dsimp only at h
    split_ifs at h with hmax
    obtain rfl := Option.some.inj h
    rw [Nat.not_lt] at hmax
    cases nmi with
    | ddr => exact sizes_of_bounds (by dsimp only; omega) hmax
    | sram => exact sizes_of_bounds (by dsimp only; omega) hmax

end Sizes

/-- An index as a link; `IPA_TABLE_INVALID_ENTRY` is no link. -/
def link (i : ℕ) : Option ℕ := if i = invalidEntry then none else some i

/-- Slots read as a store of linked cells. -/
def linksOf (occ : ℕ → Bool) (nx pv : ℕ → ℕ) : Links ℕ where
  occ i := occ i = true
  next i := if occ i then link (nx i) else none
  prev i := if occ i then link (pv i) else none

@[simp] theorem link_zero : link 0 = none := rfl

theorem link_of_ne_zero {i : ℕ} (hi : i ≠ 0) : link i = some i := if_neg hi

@[simp] theorem link_eq_none {i : ℕ} : link i = none ↔ i = 0 := by
  unfold link invalidEntry
  split <;> simp_all

@[simp] theorem link_eq_some {i j : ℕ} : link i = some j ↔ i = j ∧ j ≠ 0 := by
  unfold link invalidEntry
  split
  · next h =>
    simp only [reduceCtorEq,false_iff,not_and_not_right]
    omega
  · next h =>
    simp only [Option.some.injEq,iff_self_and]
    rintro rfl
    exact h

theorem linksOf_next {occ : ℕ → Bool} {nx pv : ℕ → ℕ} {i : ℕ} (hi : occ i = true) :
    (linksOf occ nx pv).next i = link (nx i) := if_pos hi

theorem linksOf_prev {occ : ℕ → Bool} {nx pv : ℕ → ℕ} {i : ℕ} (hi : occ i = true) :
    (linksOf occ nx pv).prev i = link (pv i) := if_pos hi

namespace Table

/-- The table read as a store of linked cells. -/
def links (t : Table R U) : Links ℕ := linksOf t.occupied t.nextIndex t.prevIndex

@[simp] theorem setRec_recs (t : Table R U) (i : ℕ) (r : R) :
    (t.setRec i r).recs = Function.update t.recs i r := rfl

@[simp] theorem setRec_tableEntries (t : Table R U) (i : ℕ) (r : R) :
    (t.setRec i r).tableEntries = t.tableEntries := rfl

@[simp] theorem setRec_expnTableEntries (t : Table R U) (i : ℕ) (r : R) :
    (t.setRec i r).expnTableEntries = t.expnTableEntries := rfl

@[simp] theorem setRec_totTblEnts (t : Table R U) (i : ℕ) (r : R) :
    (t.setRec i r).totTblEnts = t.totTblEnts := rfl

@[simp] theorem setRec_entryInterface (t : Table R U) (i : ℕ) (r : R) :
    (t.setRec i r).entryInterface = t.entryInterface := rfl

@[simp] theorem setRec_dmaHelp (t : Table R U) (i : ℕ) (r : R) :
    (t.setRec i r).dmaHelp = t.dmaHelp := rfl

@[simp] theorem setRec_metaPrev (t : Table R U) (i : ℕ) (r : R) :
    (t.setRec i r).metaPrev = t.metaPrev := rfl

@[simp] theorem setRec_hasMeta (t : Table R U) (i : ℕ) (r : R) :
    (t.setRec i r).hasMeta = t.hasMeta := rfl

@[simp] theorem setRec_nmi (t : Table R U) (i : ℕ) (r : R) :
    (t.setRec i r).nmi = t.nmi := rfl

@[simp] theorem setRec_curTblCnt (t : Table R U) (i : ℕ) (r : R) :
    (t.setRec i r).curTblCnt = t.curTblCnt := rfl

@[simp] theorem setRec_curExpnTblCnt (t : Table R U) (i : ℕ) (r : R) :
    (t.setRec i r).curExpnTblCnt = t.curExpnTblCnt := rfl

theorem setRec_self (t : Table R U) (i : ℕ) : t.setRec i (t.recs i) = t := by
  simp [setRec]

end Table

section Handles

variable {t : Table R U}

theorem makeEntryHdl_base {i : ℕ} (hi : i < t.tableEntries) (hb : t.tableEntries ≤ 4096) :
    makeEntryHdl t i = 2*i + 32768*t.nmi.toNat := by
  have hnot : ¬ t.tableEntries ≤ i := by omega
  have hlt : 2*i < 2^15 := by omega
  have hmod : 2*i % 65536 = 2*i := Nat.mod_eq_of_lt (by omega)
  have hshift : i <<< 1 = 2*i := by rw [Nat.shiftLeft_eq]; ring
  have hor := Nat.shiftLeft_add_eq_or_of_lt hlt t.nmi.toNat
  unfold makeEntryHdl
  rw [if_neg hnot,hshift,hmod,Nat.or_comm,← hor,Nat.shiftLeft_eq]
  ring

theorem makeEntryHdl_expn {i : ℕ} (hi : t.tableEntries ≤ i) (he : i - t.tableEntries < 4096) :
    makeEntryHdl t i = 2*(i - t.tableEntries) + 1 + 32768*t.nmi.toNat := by
  have hlt : 2*(i - t.tableEntries) + 1 < 2^15 := by omega
  have hmod : (2*(i - t.tableEntries) + 1) % 65536 = 2*(i - t.tableEntries) + 1 :=
    Nat.mod_eq_of_lt (by omega)
  have hshift : (i - t.tableEntries) <<< 1 ||| 1 = 2*(i - t.tableEntries) + 1 := by
    rw [← Nat.shiftLeft_add_eq_or_of_lt (by norm_num : 1 < 2^1),Nat.shiftLeft_eq]
    ring
  have hor := Nat.shiftLeft_add_eq_or_of_lt hlt t.nmi.toNat
  unfold makeEntryHdl
  rw [if_pos hi,hshift,hmod,Nat.or_comm,← hor,Nat.shiftLeft_eq]
  ring

/-- A handle leads back to the record it was made for. -/
theorem breakRuleHdl_makeEntryHdl {i : ℕ} (hs : Sizes t.tableEntries t.expnTableEntries)
    (hi : i < t.tableEntries + t.expnTableEntries) :
    breakRuleHdl t (makeEntryHdl t i) = i := by
  have hb := hs.base_le
  have he := hs.expn_le
  have hand : ∀ x, x &&& 4095 = x % 4096 := fun x => Nat.and_two_pow_sub_one_eq_mod x 12
  have hone : ∀ x, x &&& 1 = x % 2 := fun x => Nat.and_two_pow_sub_one_eq_mod x 1
  unfold breakRuleHdl
  rw [hand,hone,Nat.shiftRight_eq_div_pow]
  rcases Nat.lt_or_ge i t.tableEntries with hlt | hge
  · rw [makeEntryHdl_base hlt hb]
    rw [if_neg (by omega)]
    omega
  · rw [makeEntryHdl_expn hge (by omega)]
    rw [if_pos (by omega)]
    omega

theorem makeEntryHdl_injective {i j : ℕ} (hs : Sizes t.tableEntries t.expnTableEntries)
    (hi : i < t.tableEntries + t.expnTableEntries)
    (hj : j < t.tableEntries + t.expnTableEntries)
    (h : makeEntryHdl t i = makeEntryHdl t j) : i = j := by
  rw [← breakRuleHdl_makeEntryHdl hs hi,h,breakRuleHdl_makeEntryHdl hs hj]

end Handles

section FreeEntry

variable {t : Table R U}

/-- The walk of `FindExpnTblFreeEntry` stops at the first empty slot. -/
theorem walkLoop_mtSlot (n i : ℕ) (hi : 0 < i) :
    let ret := (walkLoop t .slotEmpty (fun (_ : Unit) _ k _ => ((),(k : ℤ))) i n ()).2
    (∃ j : ℕ, ret = j ∧ i ≤ j ∧ j < i+n ∧ t.occupied j = false ∧
        ∀ k, i ≤ k → k < j → t.occupied k = true) ∨
      (ret = 0 ∧ ∀ k, i ≤ k → k < i+n → t.occupied k = true) := by
  induction n generalizing i with
  | zero =>
    refine Or.inr ⟨rfl,fun k h1 h2 => ?_⟩
    omega
  | succ n ih =>
    rw [walkLoop]
    cases hocc : t.occupied i with
    | false =>
      have hne : (i : ℤ) ≠ 0 := by omega
      simp only [reduceCtorEq,decide_false,if_true,hne,ne_eq,not_false_eq_true]
      refine Or.inl ⟨i,rfl,le_rfl,by omega,hocc,fun k h1 h2 => ?_⟩
      omega
    | true =>
      simp only [reduceCtorEq,decide_false,Bool.true_eq_false,if_false]
      have hext : ∀ {m}, (∀ k, i+1 ≤ k → k < m → t.occupied k = true) →
          ∀ k, i ≤ k → k < m → t.occupied k = true := by
        intro m h k h1 h2
        rcases Nat.eq_or_lt_of_le h1 with rfl | hlt
        · exact hocc
        · exact h k hlt h2
      rcases ih (i+1) (by omega) with ⟨j,hj,h1,h2,h3,h4⟩ | ⟨h0,hall⟩
      · exact Or.inl ⟨j,hj,by omega,by omega,h3,hext h4⟩
      · refine Or.inr ⟨h0,hext fun k h1 h2 => hall k h1 (by omega)⟩

theorem findExpnTblFreeEntry_some {j : ℕ} (hb : 0 < t.tableEntries)
    (h : findExpnTblFreeEntry t = some j) :
    t.tableEntries ≤ j ∧ j < t.tableEntries + t.expnTableEntries ∧ t.occupied j = false ∧
      ∀ k, t.tableEntries ≤ k → k < j → t.occupied k = true := by
  unfold findExpnTblFreeEntry ipaTableWalk at h
  by_cases hexpn : t.tableEntries + t.expnTableEntries ≤ t.tableEntries
  · simp [hexpn,einval] at h
  · simp only [if_neg hexpn] at h
    rcases walkLoop_mtSlot (t := t) (t.tableEntries + t.expnTableEntries - t.tableEntries)
      t.tableEntries hb with ⟨i,hi,h1,h2,h3,h4⟩ | ⟨h0,_⟩
    · rw [hi] at h
      have hpos : (0 : ℤ) < i := by omega
      rw [if_pos hpos,Int.toNat_natCast] at h
      obtain rfl := Option.some.inj h
      exact ⟨h1,by omega,h3,h4⟩
    · rw [h0] at h
      simp at h

end FreeEntry

section IteratorEnd

variable {t : Table R U} {head : ℕ → Prop} {own : ℕ → ℕ}

/-- The end of the list is the last record of the chain, wherever on it the search starts. -/
theorem iteratorEndLoop_chain (h : Chained head t.links own) {i : ℕ} {l : List ℕ}
    (hl : Chain t.links.next i l) (hi : t.occupied i = true) (fuel : ℕ) (hfuel : l.length ≤ fuel) :
    ∃ last ∈ l, iteratorEndLoop t fuel i = some (some last) ∧ t.nextIndex last = 0 := by
  induction hl generalizing fuel with
  | @last i hn =>
    rw [Table.links,linksOf_next hi,link_eq_none] at hn
    cases fuel with
    | zero => simp at hfuel
    | succ fuel => exact ⟨i,by simp,by simp [iteratorEndLoop,hn,invalidEntry],hn⟩
  | @cons i j l hn ht ih =>
    have hne := h.next_ne hi hn
    have hj := (h.next_occ hi hn).1
    rw [Table.links,linksOf_next hi,link_eq_some] at hn
    obtain ⟨hnext,h0⟩ := hn
    cases fuel with
    | zero => simp at hfuel
    | succ fuel =>
      obtain ⟨last,hmem,hend,hlast⟩ := ih hj fuel (by simpa using hfuel)
      refine ⟨last,List.mem_cons_of_mem _ hmem,?_,hlast⟩
      simp [iteratorEndLoop,hnext,invalidEntry,h0,hne,hend]

/-- `ipa_table_iterator_end` finds the end of the list from every occupied record. -/
theorem ipaTableIteratorEnd_chain (h : Chained head t.links own)
    (hlt : ∀ j, t.occupied j = true → j < t.totTblEnts) {i : ℕ} (hi : t.occupied i = true) :
    ∃ last, ipaTableIteratorEnd t i = some (some last) ∧ t.occupied last = true ∧
      t.nextIndex last = 0 ∧ own last = own i := by
  obtain ⟨l,hl⟩ := h.exists_chain hi
  have hlen : l.length ≤ t.totTblEnts := by
    have hsub : l ⊆ List.range t.totTblEnts := by
      intro c hc
      exact List.mem_range.mpr (hlt c (h.occ_of_mem hi hl c hc))
    simpa using (List.subperm_of_subset (h.nodup hi hl) hsub).length_le
  obtain ⟨last,hmem,hend,hlast⟩ := iteratorEndLoop_chain h hl hi (t.totTblEnts+1) (by omega)
  exact ⟨last,hend,h.occ_of_mem hi hl last hmem,hlast,h.own_of_mem hi hl last hmem⟩

end IteratorEnd

end IpaTable
end MarbleModules
