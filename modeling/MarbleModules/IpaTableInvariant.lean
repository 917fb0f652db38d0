import Mathlib.Data.Finset.Card
import Mathlib.Order.Interval.Finset.Nat
import MarbleModules.IpaTableChains

/-! The invariant of a chained table, first of its slots alone (which are occupied, where
they point, the two counters) and then of a table of a given kind, with what inserting,
unlinking and removing a slot does to it. -/
namespace MarbleModules
namespace IpaTable

open PointerChains

section Counting

/-- The number of occupied slots of a range. -/
def countOcc (occ : ℕ → Bool) (lo hi : ℕ) : ℕ :=
  ((Finset.Ico lo hi).filter fun i => occ i = true).card

theorem countOcc_le (occ : ℕ → Bool) (lo hi : ℕ) : countOcc occ lo hi ≤ hi - lo := by
  simpa [countOcc] using Finset.card_filter_le (Finset.Ico lo hi) fun i => occ i = true

theorem countOcc_congr {occ occ' : ℕ → Bool} {lo hi : ℕ}
    (h : ∀ i, lo ≤ i → i < hi → occ' i = occ i) : countOcc occ' lo hi = countOcc occ lo hi := by
  unfold countOcc
  congr 1
  apply Finset.filter_congr
  intro i hi'
  rw [Finset.mem_Ico] at hi'
  rw [h i hi'.1 hi'.2]

theorem countOcc_insert {occ occ' : ℕ → Bool} {lo hi c : ℕ} (hlo : lo ≤ c) (hhi : c < hi)
    (hc : occ c = false) (h : ∀ i, occ' i = if i = c then true else occ i) :
    countOcc occ' lo hi = countOcc occ lo hi + 1 := by
  have hins : (Finset.Ico lo hi).filter (fun i => occ' i = true) =
      insert c ((Finset.Ico lo hi).filter fun i => occ i = true) := by
    ext i
    simp only [Finset.mem_filter,Finset.mem_insert,Finset.mem_Ico,h]
    by_cases hic : i = c
    · simp [hic,hlo,hhi]
    · simp [hic]
  unfold countOcc
  rw [hins,Finset.card_insert_of_notMem]
  simp [hc]

theorem countOcc_erase {occ occ' : ℕ → Bool} {lo hi c : ℕ} (hlo : lo ≤ c) (hhi : c < hi)
    (hc : occ c = true) (h : ∀ i, occ' i = if i = c then false else occ i) :
    countOcc occ lo hi = countOcc occ' lo hi + 1 := by
  apply countOcc_insert hlo hhi (by simp [h])
  intro i
  by_cases hic : i = c
  · simp [hic,hc]
  · simp [hic,h]

theorem dec16_succ {n : ℕ} (h : n < 65536) : dec16 (n+1) = n := by
  unfold dec16
  omega

end Counting

/-- The chain invariant of the slots of a table with `base` base slots and `tot` slots in
all: `occ` says which are occupied, `nx` and `pv` are the stored indices, `own` names the
base slot each belongs to. -/
structure SlotInv (base tot : ℕ) (occ : ℕ → Bool) (nx pv : ℕ → ℕ) (cnt expnCnt : ℕ)
    (own : ℕ → ℕ) : Prop where
  chained : Chained (· < base) (linksOf occ nx pv) own
  occ_lt : ∀ i, occ i = true → i < tot
  free_zero : occ 0 = false
  free_next : ∀ i, occ i = false → nx i = 0
  free_prev : ∀ i, i < base → occ i = false → pv i = 0
  cnt_eq : cnt = countOcc occ 0 base
  expnCnt_eq : expnCnt = countOcc occ base tot

namespace SlotInv

variable {base tot cnt expnCnt : ℕ} {occ : ℕ → Bool} {nx pv own : ℕ → ℕ}

theorem initial : SlotInv base tot (fun _ => false) (fun _ => 0) pv 0 0 own ↔
    ∀ i < base, pv i = 0 := by
  have hlinks : linksOf (fun _ => false) (fun _ => 0) pv = PointerChains.empty := by
    refine Links.ext_cells (fun i => ?_) (fun i => ?_) (fun i => ?_) <;>
      simp [linksOf,PointerChains.empty]
  constructor
  · exact fun h i hi => h.free_prev i hi rfl
  · intro h
    refine ⟨hlinks ▸ chained_empty,by simp,rfl,by simp,fun i hi _ => h i hi,?_,?_⟩
    · simp [countOcc]
    · simp [countOcc]

section Reading

variable (h : SlotInv base tot occ nx pv cnt expnCnt own)
include h

theorem ne_zero {i : ℕ} (hi : occ i = true) : i ≠ 0 := by
  rintro rfl
  simp [h.free_zero] at hi

theorem next_occ {i : ℕ} (hi : occ i = true) (hn : nx i ≠ 0) :
    occ (nx i) = true ∧ base ≤ nx i ∧ pv (nx i) = i ∧ nx i ≠ i ∧ own (nx i) = own i := by
  have hlink : (linksOf occ nx pv).next i = some (nx i) := by
    rw [linksOf_next hi,link_eq_some]
    exact ⟨rfl,hn⟩
  obtain ⟨h1,h2,h3⟩ := h.chained.next_occ hi hlink
  rw [linksOf_prev h1,link_eq_some] at h3
  have hprev : (linksOf occ nx pv).prev (nx i) = some i := by
    rw [linksOf_prev h1,link_eq_some]
    exact h3
  exact ⟨h1,Nat.not_lt.mp h2,h3.1,h.chained.next_ne hi hlink,
    (h.chained.prev_occ h1 hprev).2.2.2⟩

theorem prev_occ {i : ℕ} (hi : occ i = true) (hp : pv i ≠ 0) :
    occ (pv i) = true ∧ nx (pv i) = i ∧ base ≤ i ∧ own i = own (pv i) := by
  have hlink : (linksOf occ nx pv).prev i = some (pv i) := by
    rw [linksOf_prev hi,link_eq_some]
    exact ⟨rfl,hp⟩
  obtain ⟨h1,h2,h3,h4⟩ := h.chained.prev_occ hi hlink
  rw [linksOf_next h1,link_eq_some] at h2
  exact ⟨h1,h2.1,Nat.not_lt.mp h3,h4⟩

theorem prev_ne_self {i : ℕ} (hi : occ i = true) (hp : pv i ≠ 0) : pv i ≠ i := by
  intro he
  obtain ⟨hpo,hpn,_⟩ := h.prev_occ hi hp
  have hne := (h.next_occ hpo (by rw [hpn]; exact h.ne_zero hi)).2.2.2.1
  exact hne (hpn.trans he.symm)

theorem next_ne_prev {i : ℕ} (hi : occ i = true) (hn : nx i ≠ 0) (hp : pv i ≠ 0) :
    nx i ≠ pv i := by
  obtain ⟨hpo,hpn,_⟩ := h.prev_occ hi hp
  refine h.chained.next_next_ne hpo (b := i) ?_ ?_
  · rw [linksOf_next hpo,link_eq_some]
    exact ⟨hpn,h.ne_zero hi⟩
  · rw [linksOf_next hi,link_eq_some]
    exact ⟨rfl,hn⟩

theorem prev_eq_zero_iff {i : ℕ} (hi : occ i = true) : pv i = 0 ↔ i < base := by
  constructor
  · intro hp
    by_contra hge
    obtain ⟨a,ha⟩ := h.chained.prev_of_not_head hi hge
    rw [linksOf_prev hi,link_eq_some] at ha
    exact ha.2 (ha.1.symm.trans hp)
  · intro hlt
    by_contra hp
    have hge := (h.prev_occ hi hp).2.2.1
    omega

theorem own_base {i : ℕ} (hi : occ i = true) (hb : i < base) : own i = i :=
  h.chained.head_own hi hb

theorem cnt_lt (hb : base ≤ 4096) : cnt ≤ 4096 := by
  have hle := countOcc_le occ 0 base
  rw [h.cnt_eq]
  omega

theorem expnCnt_lt (he : tot - base ≤ 4096) : expnCnt ≤ 4096 := by
  have hle := countOcc_le occ base tot
  rw [h.expnCnt_eq]
  omega

end Reading

/-- The invariant reads the links of occupied slots only. -/
theorem congr (h : SlotInv base tot occ nx pv cnt expnCnt own) {occ' : ℕ → Bool}
    {nx' pv' own' : ℕ → ℕ} (hocc : ∀ i, occ' i = occ i) (hnx : ∀ i, nx' i = nx i)
    (hpv : ∀ i, occ i = true ∨ i < base → pv' i = pv i)
    (hown : ∀ i, occ i = true → own' i = own i) :
    SlotInv base tot occ' nx' pv' cnt expnCnt own' := by
  obtain rfl := funext hocc
  obtain rfl := funext hnx
  have hlinks : linksOf occ' nx' pv' = linksOf occ' nx' pv := by
    refine Links.ext_cells (fun i => ?_) (fun i => ?_) (fun i => ?_)
    · rfl
    · rfl
    · simp only [linksOf]
      by_cases hi : occ' i = true
      · rw [hpv i (Or.inl hi)]
      · simp [hi]
  refine ⟨?_,h.occ_lt,h.free_zero,h.free_next,?_,h.cnt_eq,h.expnCnt_eq⟩
  · rw [hlinks]
    exact h.chained.congr_own hown
  · intro i hi hf
    rw [hpv i (Or.inr hi)]
    exact h.free_prev i hi hf

/-- A free base slot is occupied: a new chain. -/
theorem pushHead (h : SlotInv base tot occ nx pv cnt expnCnt own) (hle : base ≤ tot) {c : ℕ}
    (hb : c < base) (h0 : c ≠ 0) (hc : occ c = false) {occ' : ℕ → Bool} {nx' pv' : ℕ → ℕ}
    (hocc : ∀ i, occ' i = if i = c then true else occ i) (hnx : ∀ i, nx' i = nx i)
    (hpv : ∀ i, pv' i = pv i) :
    SlotInv base tot occ' nx' pv' (cnt+1) expnCnt (Function.update own c c) := by
  obtain rfl := funext hnx
  obtain rfl := funext hpv
  have hlinks : linksOf occ' nx' pv' = PointerChains.pushHead (linksOf occ nx' pv') c := by
    refine Links.ext_cells (fun i => ?_) (fun i => ?_) (fun i => ?_)
    · simp only [linksOf,PointerChains.pushHead,hocc]
      by_cases hic : i = c <;> simp [hic]
    · by_cases hic : i = c
      · subst hic
        simp [linksOf,PointerChains.pushHead,hocc,h.free_next i hc]
      · simp [linksOf,PointerChains.pushHead,hocc,hic]
    · by_cases hic : i = c
      · subst hic
        simp [linksOf,PointerChains.pushHead,hocc,h.free_prev i hb hc]
      · simp [linksOf,PointerChains.pushHead,hocc,hic]
  refine ⟨?_,?_,?_,?_,?_,?_,?_⟩
  · rw [hlinks]
    exact h.chained.pushHead (by simp [linksOf,hc]) hb
  · intro i hi
    rw [hocc] at hi
    by_cases hic : i = c
    · omega
    · exact h.occ_lt i (by simpa [hic] using hi)
  · simp [hocc,h0.symm,h.free_zero]
  · intro i hi
    rw [hocc] at hi
    by_cases hic : i = c
    · simp [hic] at hi
    · exact h.free_next i (by simpa [hic] using hi)
  · intro i hib hi
    rw [hocc] at hi
    by_cases hic : i = c
    · simp [hic] at hi
    · exact h.free_prev i hib (by simpa [hic] using hi)
  · rw [countOcc_insert (Nat.zero_le c) hb hc hocc,h.cnt_eq]
  · rw [h.expnCnt_eq]
    refine (countOcc_congr fun i hi _ => ?_).symm
    rw [hocc,if_neg (by omega)]

/-- A free expansion slot is linked behind the last slot of a chain. -/
theorem append (h : SlotInv base tot occ nx pv cnt expnCnt own) {last c : ℕ}
    (hl : occ last = true) (hlast : nx last = 0) (hb : base ≤ c) (ht : c < tot) (h0 : 0 < base)
    (hc : occ c = false) {occ' : ℕ → Bool} {nx' pv' : ℕ → ℕ}
    (hocc : ∀ i, occ' i = if i = c then true else occ i)
    (hnx : ∀ i, nx' i = if i = last then c else nx i)
    (hpv : ∀ i, pv' i = if i = c then last else pv i) :
    SlotInv base tot occ' nx' pv' cnt (expnCnt+1) (Function.update own c (own last)) := by
  have hne : last ≠ c := by
    rintro rfl
    simp [hl] at hc
  have hl0 := h.ne_zero hl
  have hlinks : linksOf occ' nx' pv' = PointerChains.append (linksOf occ nx pv) last c := by
    refine Links.ext_cells (fun i => ?_) (fun i => ?_) (fun i => ?_)
    · simp only [linksOf,PointerChains.append,hocc]
      by_cases hic : i = c <;> simp [hic]
    · by_cases hic : i = c
      · subst hic
        simp [linksOf,PointerChains.append,hocc,hnx,hne.symm,h.free_next i hc]
      · by_cases hil : i = last
        · subst hil
          simp only [linksOf,PointerChains.append,hocc,hnx,hl,if_true,ite_self,
            Function.update_self]
          exact link_of_ne_zero (by omega)
        · simp [linksOf,PointerChains.append,hocc,hnx,hic,hil]
    · by_cases hic : i = c
      · subst hic
        simp [linksOf,PointerChains.append,hocc,hpv,hl0]
      · simp [linksOf,PointerChains.append,hocc,hpv,hic]
  refine ⟨?_,?_,?_,?_,?_,?_,?_⟩
  · rw [hlinks]
    refine h.chained.append hl ?_ (by simp [linksOf,hc]) (by omega)
    rw [linksOf_next hl,link_eq_none]
    exact hlast
  · intro i hi
    rw [hocc] at hi
    by_cases hic : i = c
    · omega
    · exact h.occ_lt i (by simpa [hic] using hi)
  · rw [hocc,if_neg (by omega)]
    exact h.free_zero
  · intro i hi
    rw [hocc] at hi
    by_cases hic : i = c
    · simp [hic] at hi
    · have hf : occ i = false := by simpa [hic] using hi
      have hil : i ≠ last := by
        rintro rfl
        simp [hl] at hf
      rw [hnx,if_neg hil]
      exact h.free_next i hf
  · intro i hib hi
    rw [hocc,if_neg (by omega)] at hi
    rw [hpv,if_neg (by omega)]
    exact h.free_prev i hib hi
  · rw [h.cnt_eq]
    refine (countOcc_congr fun i _ hi => ?_).symm
    rw [hocc,if_neg (by omega)]
  · rw [countOcc_insert hb ht hc hocc,h.expnCnt_eq]

/-- The slot `c` behind `p` is freed and its neighbours are linked to each other. -/
theorem unlink (h : SlotInv base tot occ nx pv cnt expnCnt own) (htot : tot - base ≤ 4096)
    {p c : ℕ} (hc : occ c = true) (hp : pv c = p) (hp0 : p ≠ 0) {occ' : ℕ → Bool}
    {nx' pv' : ℕ → ℕ} (hocc : ∀ i, occ' i = if i = c then false else occ i)
    (hnx : ∀ i, nx' i = if i = c then 0 else if i = p then nx c else nx i)
    (hpv : ∀ i, i ≠ c → pv' i = if i ≠ 0 ∧ i = nx c then p else pv i) :
    SlotInv base tot occ' nx' pv' cnt (dec16 expnCnt) own := by
  subst hp
  obtain ⟨hpo,hpn,hcb,_⟩ := h.prev_occ hc hp0
  have hcp := h.prev_ne_self hc hp0
  have hlinks : linksOf occ' nx' pv' = PointerChains.unlink (linksOf occ nx pv) (pv c) c := by
    refine Links.ext_cells (fun i => ?_) (fun i => ?_) (fun i => ?_)
    · simp only [linksOf,PointerChains.unlink,hocc]
      by_cases hic : i = c <;> simp [hic]
    · by_cases hic : i = c
      · subst hic
        simp [linksOf,PointerChains.unlink,hocc]
      · by_cases hip : i = pv c
        · subst hip
          simp [linksOf,PointerChains.unlink,hocc,hnx,hic,hpo,hc]
        · simp [linksOf,PointerChains.unlink,hocc,hnx,hic,hip]
    · by_cases hic : i = c
      · subst hic
        simp [linksOf,PointerChains.unlink,hocc]
      · by_cases hin : i ≠ 0 ∧ i = nx c
        · obtain ⟨hi0,rfl⟩ := hin
          have ho := (h.next_occ hc hi0).1
          simp [linksOf,PointerChains.unlink,hocc,hpv _ hic,hic,hi0,ho,hc,hp0]
        · have hnl : ¬ (nx c = i ∧ i ≠ 0) := fun hh => hin ⟨hh.2,hh.1.symm⟩
          simp only [linksOf,PointerChains.unlink,hocc,hpv i hic,hic,if_false,hin,hc,if_true,
            link_eq_some,hnl]
  refine ⟨?_,?_,?_,?_,?_,?_,?_⟩
  · rw [hlinks]
    refine h.chained.unlink hc ?_
    rw [linksOf_prev hc,link_eq_some]
    exact ⟨rfl,hp0⟩
  · intro i hi
    rw [hocc] at hi
    exact h.occ_lt i (by_contra fun hf => by simp_all)
  · rw [hocc]
    split
    · rfl
    · exact h.free_zero
  · intro i hi
    rw [hnx]
    by_cases hic : i = c
    · simp [hic]
    · have hf : occ i = false := by simpa [hocc,hic] using hi
      have hip : i ≠ pv c := by
        rintro rfl
        simp [hpo] at hf
      simp only [hic,hip,if_false]
      exact h.free_next i hf
  · intro i hib hi
    have hic : i ≠ c := by omega
    have hf : occ i = false := by simpa [hocc,hic] using hi
    have hin : ¬ (i ≠ 0 ∧ i = nx c) := by
      rintro ⟨hi0,rfl⟩
      have hge := (h.next_occ hc hi0).2.1
      omega
    rw [hpv i hic,if_neg hin]
    exact h.free_prev i hib hf
  · rw [h.cnt_eq]
    refine (countOcc_congr fun i _ hi => ?_).symm
    rw [hocc,if_neg (by omega)]
  · have hcount := countOcc_erase hcb (h.occ_lt c hc) hc hocc
    have hle := countOcc_le occ' base tot
    rw [h.expnCnt_eq,hcount,dec16_succ (by omega)]

/-- A base slot that is a chain of its own is freed. -/
theorem remove (h : SlotInv base tot occ nx pv cnt expnCnt own) (hbase : base ≤ 4096) {c : ℕ}
    (hc : occ c = true) (hb : c < base) (hn : nx c = 0) {occ' : ℕ → Bool} {nx' pv' : ℕ → ℕ}
    (hocc : ∀ i, occ' i = if i = c then false else occ i)
    (hnx : ∀ i, nx' i = nx i) (hpv : ∀ i, pv' i = pv i) :
    SlotInv base tot occ' nx' pv' (dec16 cnt) expnCnt own := by
  obtain rfl := funext hnx
  obtain rfl := funext hpv
  have hlinks : linksOf occ' nx' pv' = PointerChains.remove (linksOf occ nx' pv') c := by
    refine Links.ext_cells (fun i => ?_) (fun i => ?_) (fun i => ?_)
    · simp only [linksOf,PointerChains.remove,hocc]
      by_cases hic : i = c <;> simp [hic]
    · by_cases hic : i = c
      · subst hic
        simp [linksOf,PointerChains.remove,hocc]
      · simp [linksOf,PointerChains.remove,hocc,hic]
    · by_cases hic : i = c
      · subst hic
        simp [linksOf,PointerChains.remove,hocc]
      · simp [linksOf,PointerChains.remove,hocc,hic]
  refine ⟨?_,?_,?_,?_,?_,?_,?_⟩
  · rw [hlinks]
    refine h.chained.remove hc hb ?_
    rw [linksOf_next hc,link_eq_none]
    exact hn
  · intro i hi
    rw [hocc] at hi
    exact h.occ_lt i (by_contra fun hf => by simp_all)
  · rw [hocc]
    split
    · rfl
    · exact h.free_zero
  · intro i hi
    by_cases hic : i = c
    · rw [hic]
      exact hn
    · exact h.free_next i (by simpa [hocc,hic] using hi)
  · intro i hib hi
    by_cases hic : i = c
    · rw [hic]
      exact (h.prev_eq_zero_iff hc).mpr hb
    · exact h.free_prev i hib (by simpa [hocc,hic] using hi)
  · have hcount := countOcc_erase (Nat.zero_le c) hb hc hocc
    have hle := countOcc_le occ' 0 base
    rw [h.cnt_eq,hcount,dec16_succ (by omega)]
  · rw [h.expnCnt_eq]
    refine (countOcc_congr fun i hi _ => ?_).symm
    rw [hocc,if_neg (by omega)]

end SlotInv

variable {R U : Type} [RecordLayout R]

section Kinds

/-- What distinguishes the tables of one kind: the entry interface, whether previous
indices are kept in a meta array, and where DMA commands address the records. -/
structure Kind (R U : Type) where
  iface : EntryInterface R U
  hasMeta : Bool
  baseType : DmaType
  expnType : DmaType
  offset : DmaHelp → ℕ

/-- The laws of an entry interface and its DMA helpers that the chains rest on. -/
structure Kind.Lawful (K : Kind R U) : Prop where
  types : K.baseType ≠ K.expnType
  offset_lt : ∀ help, K.offset help < RecordLayout.entrySize R
  valid_zero : K.iface.entryIsValid RecordLayout.zero = false
  next_zero : K.iface.entryGetNextIndex RecordLayout.zero = 0
  prev_zero : ∀ i m b, i < b → K.iface.entryGetPrevIndex RecordLayout.zero i m b = 0
  valid_update : ∀ r d, K.iface.entryIsValid
    (RecordLayout.write16 r (K.offset .updateEntry) d) = K.iface.entryIsValid r
  next_update : ∀ r d, K.iface.entryGetNextIndex
    (RecordLayout.write16 r (K.offset .updateEntry) d) = d.toNat
  prev_update : ∀ r d i m b, K.iface.entryGetPrevIndex
    (RecordLayout.write16 r (K.offset .updateEntry) d) i m b = K.iface.entryGetPrevIndex r i m b
  next_delete : ∀ r d, K.iface.entryGetNextIndex
    (RecordLayout.write16 r (K.offset .deleteHead) d) = K.iface.entryGetNextIndex r
  prev_delete : ∀ r d i m b, K.iface.entryGetPrevIndex
    (RecordLayout.write16 r (K.offset .deleteHead) d) i m b = K.iface.entryGetPrevIndex r i m b
  valid_setPrev : ∀ r i p m b,
    K.iface.entryIsValid (K.iface.entrySetPrevIndex r i p m b).1 = K.iface.entryIsValid r
  next_setPrev : ∀ r i p m b, K.iface.entryGetNextIndex
    (K.iface.entrySetPrevIndex r i p m b).1 = K.iface.entryGetNextIndex r
  prev_setPrev : ∀ r i p m b, b ≤ i → K.iface.entryGetPrevIndex
    (K.iface.entrySetPrevIndex r i p m b).1 i (K.iface.entrySetPrevIndex r i p m b).2 b = p
  meta_setPrev : ∀ r r' i p m b,
    (K.iface.entrySetPrevIndex r i p m b).2 = (K.iface.entrySetPrevIndex r' i p m b).2
  prev_setPrev_other : ∀ r r' i j p m b, b ≤ i → j ≠ i → K.iface.entryGetPrevIndex r' j
    (K.iface.entrySetPrevIndex r i p m b).2 b = K.iface.entryGetPrevIndex r' j m b

/-- `t` is a table of kind `K` with sizes the library computes. -/
structure Table.IsOf (t : Table R U) (K : Kind R U) : Prop where
  sizes : Sizes t.tableEntries t.expnTableEntries
  tot : t.totTblEnts = t.tableEntries + t.expnTableEntries
  iface : t.entryInterface = K.iface
  hasMeta : t.hasMeta = K.hasMeta
  dmaHelp : t.dmaHelp = fun help => ⟨K.offset help,K.baseType,K.expnType,0⟩

/-- The chain invariant of a table. -/
def Table.Inv (t : Table R U) (own : ℕ → ℕ) : Prop :=
  SlotInv t.tableEntries t.totTblEnts t.occupied t.nextIndex t.prevIndex t.curTblCnt
    t.curExpnTblCnt own

variable {t : Table R U} {K : Kind R U}

theorem Sizes.base_pos {base expn : ℕ} (h : Sizes base expn) : 0 < base := by
  obtain ⟨k,rfl⟩ := h.pow
  positivity

omit [RecordLayout R] in
theorem Table.IsOf.expn_eq (h : t.IsOf K) : t.totTblEnts - t.tableEntries ≤ 4096 := by
  have hle := h.sizes.expn_le
  rw [h.tot]
  omega

omit [RecordLayout R] in
theorem Table.IsOf.lt_65536 (h : t.IsOf K) {i : ℕ} (hi : i < t.totTblEnts) : i < 65536 := by
  have hb := h.sizes.base_le
  have he := h.sizes.expn_le
  rw [h.tot] at hi
  omega

omit [RecordLayout R] in
theorem toNat_ofNat_of_lt (h : t.IsOf K) {i : ℕ} (hi : i < t.totTblEnts) :
    (BitVec.ofNat 16 i).toNat = i := by
  rw [BitVec.toNat_ofNat]
  exact Nat.mod_eq_of_lt (h.lt_65536 hi)

end Kinds

section Dma

variable {t : Table R U} {K : Kind R U}

/-- The command a helper generates for a record of a table with `base` base slots. -/
def Kind.cmd (K : Kind R U) (base : ℕ) (help : DmaHelp) (i : ℕ) (data : BitVec 16) : DmaOne where
  tableIndex := 0
  baseAddr := if base ≤ i then K.expnType else K.baseType
  offset := K.offset help + RecordLayout.entrySize R * (if base ≤ i then i - base else i)
  data := data

theorem Kind.cmd_own (K : Kind R U) (base : ℕ) (help : DmaHelp) (i : ℕ) (data : BitVec 16) :
    (K.cmd base help i data).baseAddr = K.baseType ∨
      (K.cmd base help i data).baseAddr = K.expnType := by
  unfold Kind.cmd
  dsimp only
  split
  · exact Or.inr rfl
  · exact Or.inl rfl

/-- What the hardware does to a table of kind `K` on a command. -/
def Table.applyDma (K : Kind R U) (t : Table R U) (d : DmaOne) : Table R U :=
  if d.baseAddr = K.baseType then t.dmaWrite false d.offset d.data
  else if d.baseAddr = K.expnType then t.dmaWrite true d.offset d.data
  else t

theorem ipaTableAddDmaCmd_eq (h : t.IsOf K) {t₁ : Table R U}
    (hbase : t₁.tableEntries = t.tableEntries)
    (hexpn : t₁.expnTableEntries = t.expnTableEntries) (hhelp : t₁.dmaHelp = t.dmaHelp) {i : ℕ}
    (hi : i < t.totTblEnts) (help : DmaHelp) (data : BitVec 16) (cmd : List DmaOne) :
    ipaTableAddDmaCmd t₁ help i data cmd = cmd ++ [K.cmd t.tableEntries help i data] := by
  rw [h.tot] at hi
  unfold ipaTableAddDmaCmd Kind.cmd
  rw [hbase,hexpn,hhelp,if_neg (by omega),h.dmaHelp]

/-- A command of the table's own kind writes into the record it was generated for. -/
theorem Table.applyDma_cmd (hK : K.Lawful) {t : Table R U} {base : ℕ}
    (hbase : t.tableEntries = base) (help : DmaHelp) (i : ℕ) (data : BitVec 16) :
    t.applyDma K (K.cmd base help i data) =
      t.setRec i (RecordLayout.write16 (t.recs i) (K.offset help) data) := by
  subst hbase
  have hlt := hK.offset_lt help
  have hpos : 0 < RecordLayout.entrySize R := by omega
  have hdiv : ∀ k, (K.offset help + RecordLayout.entrySize R * k) /
      RecordLayout.entrySize R = k := by
    intro k
    rw [Nat.add_mul_div_left _ _ hpos,Nat.div_eq_of_lt hlt,Nat.zero_add]
  have hmod : ∀ k, (K.offset help + RecordLayout.entrySize R * k) %
      RecordLayout.entrySize R = K.offset help := by
    intro k
    rw [Nat.add_mul_mod_self_left,Nat.mod_eq_of_lt hlt]
  unfold Table.applyDma Kind.cmd Table.dmaWrite
  by_cases hge : t.tableEntries ≤ i
  · have hsub : i - t.tableEntries + t.tableEntries = i := by omega
    simp [hge,hdiv,hmod,hsub,hK.types.symm]
  · simp [hge,hdiv,hmod]

@[simp] theorem Table.applyDma_tableEntries (K : Kind R U) (t : Table R U) (d : DmaOne) :
    (t.applyDma K d).tableEntries = t.tableEntries := by
  unfold Table.applyDma
  split
  · rfl
  · split <;> rfl

/-- A command addressed to other table types leaves the table alone. -/
theorem Table.applyDma_of_ne (t : Table R U) {d : DmaOne} (hb : d.baseAddr ≠ K.baseType)
    (he : d.baseAddr ≠ K.expnType) : t.applyDma K d = t := by
  simp [Table.applyDma,hb,he]

end Dma

section Storing

/-- The effect of adding a record at the base slot `slot` once its commands are applied:
the slot used and the table. `mk` gives the stored record from its previous index. -/
inductive Stored (K : Kind R U) (t : Table R U) (mk : ℕ → R) (slot : ℕ) :
    ℕ → Table R U → Prop
  | head (hocc : t.occupied slot = false) :
    Stored K t mk slot slot { t.setRec slot (mk 0) with curTblCnt := t.curTblCnt+1 }
  | tail {last free : ℕ} (hocc : t.occupied slot = true)
    (hend : ipaTableIteratorEnd t slot = some (some last))
    (hfree : findExpnTblFreeEntry t = some free) :
    Stored K t mk slot free
      { (t.setRec free (mk last)).setRec last
          (RecordLayout.write16 (t.recs last) (K.offset .updateEntry) (BitVec.ofNat 16 free)) with
        metaPrev := (K.iface.entrySetPrevIndex (mk last) free last t.metaPrev t.tableEntries).2
        curExpnTblCnt := t.curExpnTblCnt+1 }

variable {t t' : Table R U} {K : Kind R U} {mk : ℕ → R} {slot new : ℕ} {own : ℕ → ℕ}

/-- Everything of a table but its records, meta array and counters is fixed. -/
theorem Table.IsOf.stored (h : t.IsOf K) (hs : Stored K t mk slot new t') :
    t'.IsOf K ∧ t'.tableEntries = t.tableEntries ∧ t'.expnTableEntries = t.expnTableEntries ∧
      t'.nmi = t.nmi := by
  cases hs with
  | head => exact ⟨⟨h.sizes,h.tot,h.iface,h.hasMeta,h.dmaHelp⟩,rfl,rfl,rfl⟩
  | tail => exact ⟨⟨h.sizes,h.tot,h.iface,h.hasMeta,h.dmaHelp⟩,rfl,rfl,rfl⟩

/-- The slot used was free, and is a slot of the table. -/
theorem Stored.free (hs : Stored K t mk slot new t') (h : t.IsOf K)
    (hslot : slot < t.tableEntries) (h0 : slot ≠ 0) :
    t.occupied new = false ∧ new ≠ 0 ∧ new < t.totTblEnts := by
  have hpos := h.sizes.base_pos
  rw [h.tot]
  cases hs with
  | head hocc => exact ⟨hocc,h0,by omega⟩
  | tail hocc hend hfree =>
    obtain ⟨h1,h2,h3,_⟩ := findExpnTblFreeEntry_some hpos hfree
    exact ⟨h3,by omega,h2⟩

/-- Storing a record changes one other record at most, and only its next index. -/
theorem Stored.recs (hs : Stored K t mk slot new t') (h : t.IsOf K) (hinv : t.Inv own) :
    (∃ p, t'.recs new = mk p) ∧ ∀ j, j ≠ new → t'.recs j = t.recs j ∨ t.nextIndex j = 0 ∧
      ∃ d, t'.recs j = RecordLayout.write16 (t.recs j) (K.offset .updateEntry) d := by
  cases hs with
  | head hocc =>
    refine ⟨⟨0,by simp⟩,fun j hj => Or.inl ?_⟩
    simp [hj]
  | @tail last _ hocc hend hfree =>
    obtain ⟨last',hend',hlast,hnext,_⟩ :=
      ipaTableIteratorEnd_chain hinv.chained hinv.occ_lt hocc
    obtain rfl : last = last' := by simpa [hend] using hend'
    have hff := (findExpnTblFreeEntry_some h.sizes.base_pos hfree).2.2.1
    have hne : new ≠ last := by
      rintro rfl
      simp [hlast] at hff
    refine ⟨⟨last,by simp [hne]⟩,fun j hj => ?_⟩
    by_cases hjl : j = last
    · exact Or.inr ⟨hjl ▸ hnext,BitVec.ofNat 16 new,by simp [hjl]⟩
    · exact Or.inl (by simp [hj,hjl])

/-- The chain invariant after a record has been stored: the new slot joins the chain of the
base slot it was added at. -/
theorem Stored.inv (hs : Stored K t mk slot new t') (hK : K.Lawful) (h : t.IsOf K)
    (hinv : t.Inv own) (hslot : slot < t.tableEntries) (h0 : slot ≠ 0)
    (hvalid : ∀ p, K.iface.entryIsValid (mk p) = true)
    (hnext : ∀ p, K.iface.entryGetNextIndex (mk p) = 0)
    (hprev : ∀ m, K.iface.entryGetPrevIndex (mk 0) slot m t.tableEntries = 0)
    (hset : ∀ c p m, (K.iface.entrySetPrevIndex (mk p) c p m t.tableEntries).1 = mk p) :
    t'.Inv (Function.update own new slot) := by
  have hiface := h.iface
  cases hs with
  | head hocc =>
    have hnx := hinv.free_next slot hocc
    have hpv := hinv.free_prev slot hslot hocc
    simp only [Table.nextIndex,Table.prevIndex,hiface] at hnx hpv
    refine SlotInv.pushHead hinv (by rw [h.tot]; omega) hslot h0 hocc
      (fun i => ?_) (fun i => ?_) (fun i => ?_)
    · by_cases hi : i = slot
      · subst hi
        simp [Table.occupied,hiface,hvalid]
      · simp [Table.occupied,hi]
    · by_cases hi : i = slot
      · subst hi
        simp [Table.nextIndex,hiface,hnext,hnx]
      · simp [Table.nextIndex,hi]
    · by_cases hi : i = slot
      · subst hi
        simp [Table.prevIndex,hiface,hprev,hpv]
      · simp [Table.prevIndex,hi]
  | @tail last _ hocc hend hfree =>
    obtain ⟨last',hend',hlast,hnlast,hown⟩ :=
      ipaTableIteratorEnd_chain hinv.chained hinv.occ_lt hocc
    obtain rfl : last' = last := by simpa [hend] using hend'.symm
    obtain ⟨hge,hlt,hff,_⟩ := findExpnTblFreeEntry_some h.sizes.base_pos hfree
    have hne : new ≠ last' := by
      rintro rfl
      simp [hlast] at hff
    have hnew16 := toNat_ofNat_of_lt h (show new < t.totTblEnts by rw [h.tot]; exact hlt)
    have hown' : own last' = slot := hown.trans (hinv.own_base hocc hslot)
    have hself := hK.prev_setPrev (mk last') new last' t.metaPrev t.tableEntries hge
    rw [hset] at hself
    have hvl : K.iface.entryIsValid (t.recs last') = true := by
      rw [← hiface]
      exact hlast
    rw [← hown']
    refine SlotInv.append hinv hlast hnlast hge (by rw [h.tot]; exact hlt) h.sizes.base_pos hff
      (fun i => ?_) (fun i => ?_) (fun i => ?_)
    · by_cases hil : i = last'
      · subst hil
        simp [Table.occupied,hiface,hK.valid_update,hne.symm,hvl]
      · by_cases hif : i = new
        · subst hif
          simp [Table.occupied,hiface,hvalid,hil]
        · simp [Table.occupied,hil,hif]
    · by_cases hil : i = last'
      · subst hil
        simp [Table.nextIndex,hiface,hK.next_update,hnew16]
      · by_cases hif : i = new
        · subst hif
          have hnf := hinv.free_next i hff
          simp only [Table.nextIndex,hiface] at hnf
          simp [Table.nextIndex,hiface,hil,hnext,hnf]
        · simp [Table.nextIndex,hil,hif]
    · by_cases hil : i = last'
      · subst hil
        simp [Table.prevIndex,hiface,hK.prev_update,hne.symm,
          hK.prev_setPrev_other _ _ _ _ _ _ _ hge hne.symm]
      · by_cases hif : i = new
        · subst hif
          simp [Table.prevIndex,hiface,hil,hself]
        · simp [Table.prevIndex,hiface,hil,hif,hK.prev_setPrev_other _ _ _ _ _ _ _ hge hif]

/-- The slot at which an entry added at base slot `slot` is stored, `none` when the
expansion table is full. -/
def Table.targetSlot (t : Table R U) (slot : ℕ) : Option ℕ :=
  if t.occupied slot = false then some slot else findExpnTblFreeEntry t

variable {u : U} {cmd : List DmaOne}

theorem addEntry_free (h : t.IsOf K) (hocc : t.occupied slot = false)
    (hlt : slot < t.totTblEnts) {r : R} {d : BitVec 16}
    (hins : K.iface.entryHeadInsert (t.recs slot) u = (r,0,d)) :
    ipaTableAddEntry t u slot cmd =
      ({ t.setRec slot r with curTblCnt := t.curTblCnt+1 },0,
        cmd ++ [K.cmd t.tableEntries .updateHead slot d],slot) := by
  have hcmd : ipaTableAddDmaCmd (t.setRec slot r) .updateHead slot d cmd = _ :=
    ipaTableAddDmaCmd_eq h rfl rfl rfl hlt .updateHead d cmd
  simp [ipaTableAddEntry,hocc,insertHead,h.iface,hins,hcmd]

theorem addEntry_occupied (h : t.IsOf K) (hocc : t.occupied slot = true) {last free : ℕ}
    (hend : ipaTableIteratorEnd t slot = some (some last)) (hlast : last < t.totTblEnts)
    (hfree : findExpnTblFreeEntry t = some free) {r : R} {d : BitVec 16}
    (hins : tailInsertEntry t (t.recs free) u = (r,0,d)) :
    ipaTableAddEntry t u slot cmd =
      ({ t.setRec free (K.iface.entrySetPrevIndex r free last t.metaPrev t.tableEntries).1 with
          metaPrev := (K.iface.entrySetPrevIndex r free last t.metaPrev t.tableEntries).2
          curExpnTblCnt := t.curExpnTblCnt+1 },0,
        cmd ++ ((if K.hasMeta then [] else [K.cmd t.tableEntries .updateHead free d]) ++
          [K.cmd t.tableEntries .updateEntry last (BitVec.ofNat 16 free)]),free) := by
  have hlt : free < t.totTblEnts := by
    rw [h.tot]
    exact (findExpnTblFreeEntry_some h.sizes.base_pos hfree).2.1
  simp only [ipaTableAddEntry,hocc,Bool.true_eq_false,if_false,insertTail,hend,hfree,hins,
    h.iface,h.hasMeta]
  cases K.hasMeta
  · simp [ipaTableAddDmaCmd_eq h,hlt,hlast]
  · simp [ipaTableAddDmaCmd_eq h,hlast]

theorem addEntry_full (u : U) (cmd : List DmaOne) (hinv : t.Inv own) (h : t.targetSlot slot = none) :
    ipaTableAddEntry t u slot cmd = (t,-1,cmd,slot) := by
  unfold Table.targetSlot at h
  split_ifs at h with hocc
  rw [Bool.not_eq_false] at hocc
  obtain ⟨last,hend,_⟩ := ipaTableIteratorEnd_chain hinv.chained hinv.occ_lt hocc
  simp [ipaTableAddEntry,hocc,insertTail,hend,h]

/-- What an insertion makes of the free record `r`: `f` stands for the CPU's writes between
the insertion and the DMA commands, `mk` gives the result from the previous index. -/
structure Insertion (K : Kind R U) (r : R) (u : U) (f : R → R) (mk : ℕ → R) : Prop where
  head : RecordLayout.write16 (f (K.iface.entryHeadInsert r u).1) (K.offset .updateHead)
    (K.iface.entryHeadInsert r u).2.2 = mk 0
  tail : K.hasMeta = false → ∀ c p m b, RecordLayout.write16
    (f (K.iface.entrySetPrevIndex (K.iface.entryHeadInsert r u).1 c p m b).1)
    (K.offset .updateHead) (K.iface.entryHeadInsert r u).2.2 = mk p
  tailMeta : K.hasMeta = true → ∀ c p m b,
    f (K.iface.entrySetPrevIndex (K.iface.entryTailInsert r u).1 c p m b).1 = mk p

/-- What `ipa_table_add_entry` leaves behind before its commands are posted: they complete
the insertion, and erasing the entry undoes it. -/
structure Pending (K : Kind R U) (t : Table R U) (u : U) (slot new : ℕ) (t₁ : Table R U)
    (cmds : List DmaOne) : Prop where
  tableEntries : t₁.tableEntries = t.tableEntries
  expnTableEntries : t₁.expnTableEntries = t.expnTableEntries
  totTblEnts : t₁.totTblEnts = t.totTblEnts
  nmi : t₁.nmi = t.nmi
  complete : ∀ f mk, Insertion K (t.recs new) u f mk →
    Stored K t mk slot new
      (cmds.foldl (Table.applyDma K) (t₁.setRec new (f (t₁.recs new))))
  own : ∀ d ∈ cmds, d.baseAddr = K.baseType ∨ d.baseAddr = K.expnType
  erase : ∃ m, ipaTableEraseEntry t₁ new =
      { t.setRec new RecordLayout.zero with metaPrev := m } ∧
    (m = t.metaPrev ∨ t.tableEntries ≤ new ∧
      ∃ r p, m = (K.iface.entrySetPrevIndex r new p t.metaPrev t.tableEntries).2)

/-- Both insertions succeed on this record. -/
structure Insertable (K : Kind R U) (r : R) (u : U) : Prop where
  head : (K.iface.entryHeadInsert r u).2.1 = 0
  tail : (K.iface.entryTailInsert r u).2 = 0

theorem addEntry_pending_free (hK : K.Lawful) (h : t.IsOf K) (hinv : t.Inv own)
    (hslot : slot < t.tableEntries) (hocc : t.occupied slot = false)
    (hins : Insertable K (t.recs slot) u) :
    ∃ t₁ cmds, Pending K t u slot slot t₁ cmds ∧
      ∀ cmd, ipaTableAddEntry t u slot cmd = (t₁,0,cmd++cmds,slot) := by
  have hlt : slot < t.totTblEnts := by rw [h.tot]; omega
  rcases hr : K.iface.entryHeadInsert (t.recs slot) u with ⟨r,ret,d⟩
  obtain rfl : ret = 0 := by simpa [hr] using hins.head
  refine ⟨_,_,?_,fun cmd => addEntry_free h hocc hlt hr⟩
  refine ⟨rfl,rfl,rfl,rfl,fun f mk hf => ?_,fun d' hd => ?_,t.metaPrev,?_,Or.inl rfl⟩
  · have hmk := hf.head
    rw [hr] at hmk
    have hhead : Stored K t mk slot slot _ := .head hocc
    simp only [List.foldl_cons,List.foldl_nil]
    rw [Table.applyDma_cmd hK]
    · simpa [Table.setRec,hmk] using hhead
    · rfl
  · obtain rfl := List.mem_singleton.mp hd
    exact K.cmd_own _ _ _ _
  · have hcnt := hinv.cnt_lt h.sizes.base_le
    simp [ipaTableEraseEntry,Table.setRec,hslot,dec16_succ (show t.curTblCnt < 65536 by omega)]

theorem addEntry_pending_occupied (hK : K.Lawful) (h : t.IsOf K) (hinv : t.Inv own)
    (hocc : t.occupied slot = true) (hfree : findExpnTblFreeEntry t = some new)
    (hins : Insertable K (t.recs new) u) :
    ∃ t₁ cmds, Pending K t u slot new t₁ cmds ∧
      ∀ cmd, ipaTableAddEntry t u slot cmd = (t₁,0,cmd++cmds,new) := by
  obtain ⟨last,hend,hlast,_⟩ := ipaTableIteratorEnd_chain hinv.chained hinv.occ_lt hocc
  obtain ⟨hge,_,hff,_⟩ := findExpnTblFreeEntry_some h.sizes.base_pos hfree
  have hne : last ≠ new := by
    rintro rfl
    simp [hlast] at hff
  have hcnt := hinv.expnCnt_lt h.expn_eq
  cases hmeta : K.hasMeta with
  | false =>
    rcases hr : K.iface.entryHeadInsert (t.recs new) u with ⟨r,ret,d⟩
    obtain rfl : ret = 0 := by simpa [hr] using hins.head
    have hti : tailInsertEntry t (t.recs new) u = (r,0,d) := by
      simp [tailInsertEntry,h.hasMeta,hmeta,h.iface,hr]
    refine ⟨_,_,?_,fun cmd => addEntry_occupied h hocc hend (hinv.occ_lt last hlast) hfree hti⟩
    refine ⟨rfl,rfl,rfl,rfl,fun f mk hf => ?_,fun d' hd => ?_,_,?_,Or.inr ⟨hge,r,last,rfl⟩⟩
    · have hmk := hf.tail hmeta new last t.metaPrev t.tableEntries
      rw [hr] at hmk
      have htail : Stored K t mk slot new _ := .tail hocc hend hfree
      rw [hK.meta_setPrev _ r] at htail
      simp only [hmeta,Bool.false_eq_true,if_false,List.singleton_append,List.foldl_cons,
        List.foldl_nil]
      rw [Table.applyDma_cmd hK,Table.applyDma_cmd hK]
      · simpa [Table.setRec,hmk,hne] using htail
      · rfl
      · exact Table.applyDma_tableEntries _ _ _
    · simp only [hmeta,Bool.false_eq_true,if_false,List.singleton_append,List.mem_cons,
        List.not_mem_nil,or_false] at hd
      rcases hd with rfl | rfl
      · exact K.cmd_own _ _ _ _
      · exact K.cmd_own _ _ _ _
    · have hnl : ¬ new < t.tableEntries := by omega
      simp [ipaTableEraseEntry,Table.setRec,hnl,
        dec16_succ (show t.curExpnTblCnt < 65536 by omega)]
  | true =>
    rcases hr : K.iface.entryTailInsert (t.recs new) u with ⟨r,ret⟩
    obtain rfl : ret = 0 := by simpa [hr] using hins.tail
    have hti : tailInsertEntry t (t.recs new) u = (r,0,0) := by
      simp [tailInsertEntry,h.hasMeta,hmeta,h.iface,hr]
    refine ⟨_,_,?_,fun cmd => addEntry_occupied h hocc hend (hinv.occ_lt last hlast) hfree hti⟩
    refine ⟨rfl,rfl,rfl,rfl,fun f mk hf => ?_,fun d' hd => ?_,_,?_,Or.inr ⟨hge,r,last,rfl⟩⟩
    · have hmk := hf.tailMeta hmeta new last t.metaPrev t.tableEntries
      rw [hr] at hmk
      have htail : Stored K t mk slot new _ := .tail hocc hend hfree
      rw [hK.meta_setPrev _ r] at htail
      simp only [hmeta,if_true,List.nil_append,List.foldl_cons,List.foldl_nil]
      rw [Table.applyDma_cmd hK]
      · simpa [Table.setRec,hmk,hne] using htail
      · rfl
    · simp only [hmeta,if_true,List.nil_append,List.mem_singleton] at hd
      rw [hd]
      exact K.cmd_own _ _ _ _
    · have hnl : ¬ new < t.tableEntries := by omega
      simp [ipaTableEraseEntry,Table.setRec,hnl,
        dec16_succ (show t.curExpnTblCnt < 65536 by omega)]

/-- Adding an entry succeeds when there is a slot for it. -/
theorem addEntry_pending (hK : K.Lawful) (h : t.IsOf K) (hinv : t.Inv own)
    (hslot : slot < t.tableEntries) (htarget : t.targetSlot slot = some new)
    (hins : Insertable K (t.recs new) u) :
    ∃ t₁ cmds, Pending K t u slot new t₁ cmds ∧
      ∀ cmd, ipaTableAddEntry t u slot cmd = (t₁,0,cmd++cmds,new) := by
  unfold Table.targetSlot at htarget
  split_ifs at htarget with hocc
  · obtain rfl := Option.some.inj htarget
    exact addEntry_pending_free hK h hinv hslot hocc hins
  · rw [Bool.not_eq_false] at hocc
    exact addEntry_pending_occupied hK h hinv hocc htarget hins

end Storing

section Deleting

/-- The effect of deleting the entry at slot `i` once the commands are applied. A head with
a tail is only marked; `emptied` says that the previous slot is a dead head. -/
inductive Deleted (K : Kind R U) (t : Table R U) (emptied : Bool) (i : ℕ) : Table R U → Prop
  | lone (hp : t.prevIndex i = 0) (hn : t.nextIndex i = 0) :
    Deleted K t emptied i
      { t.setRec i RecordLayout.zero with curTblCnt := dec16 t.curTblCnt }
  | marked (hp : t.prevIndex i = 0) (hn : t.nextIndex i ≠ 0) :
    Deleted K t emptied i
      (t.setRec i (RecordLayout.write16 (t.recs i) (K.offset .deleteHead)
        (K.iface.entryGetDeleteHeadDmaCommandData (t.recs i) (t.recs (t.nextIndex i)))))
  | middle {p n : ℕ} (hp : t.prevIndex i = p) (hp0 : p ≠ 0) (hn : t.nextIndex i = n)
    (hn0 : n ≠ 0) :
    Deleted K t emptied i
      { ((t.setRec p (RecordLayout.write16 (t.recs p) (K.offset .updateEntry)
          (BitVec.ofNat 16 n))).setRec n
          (K.iface.entrySetPrevIndex (t.recs n) n p t.metaPrev t.tableEntries).1).setRec i
          RecordLayout.zero with
        metaPrev := (K.iface.entrySetPrevIndex (t.recs n) n p t.metaPrev t.tableEntries).2
        curExpnTblCnt := dec16 t.curExpnTblCnt }
  | last {p : ℕ} (he : emptied = false) (hp : t.prevIndex i = p) (hp0 : p ≠ 0)
    (hn : t.nextIndex i = 0) :
    Deleted K t emptied i
      { (t.setRec p (RecordLayout.write16 (t.recs p) (K.offset .updateEntry) 0)).setRec i
          RecordLayout.zero with
        curExpnTblCnt := dec16 t.curExpnTblCnt }
  | lastDead {p : ℕ} (he : emptied = true) (hp : t.prevIndex i = p) (hp0 : p ≠ 0)
    (hn : t.nextIndex i = 0) :
    Deleted K t emptied i
      { (t.setRec p RecordLayout.zero).setRec i RecordLayout.zero with
        curTblCnt := dec16 t.curTblCnt
        curExpnTblCnt := dec16 t.curExpnTblCnt }

variable {t t' : Table R U} {K : Kind R U} {own : ℕ → ℕ} {i : ℕ} {emptied : Bool}

theorem Table.IsOf.deleted (h : t.IsOf K) (hd : Deleted K t emptied i t') :
    t'.IsOf K ∧ t'.tableEntries = t.tableEntries ∧ t'.expnTableEntries = t.expnTableEntries ∧
      t'.nmi = t.nmi := by
  cases hd <;> exact ⟨⟨h.sizes,h.tot,h.iface,h.hasMeta,h.dmaHelp⟩,rfl,rfl,rfl⟩

/-- The iterator `ipa_table_iterator_init` builds at an occupied slot. -/
def Table.iteratorAt (t : Table R U) (i : ℕ) : Iterator :=
  ⟨t.prevIndex i,link (t.prevIndex i),i,t.nextIndex i,link (t.nextIndex i)⟩

omit [RecordLayout R] in
theorem getEntryByIndex_link (hinv : t.Inv own) (hi : t.occupied i = true) :
    ipaTableGetEntryByIndex t i = some i := by
  have h0 := hinv.ne_zero hi
  have hlt := hinv.occ_lt i hi
  unfold ipaTableGetEntryByIndex
  rw [if_neg]
  omega

omit [RecordLayout R] in
theorem ipaTableIteratorInit_eq (hinv : t.Inv own) (hi : t.occupied i = true) :
    ipaTableIteratorInit t i = .ok (t.iteratorAt i) := by
  have hprev : (if t.prevIndex i = invalidEntry then none
      else ipaTableGetEntryByIndex t (t.prevIndex i)) = link (t.prevIndex i) := by
    unfold link
    split
    · rfl
    · next hp => exact getEntryByIndex_link hinv (hinv.prev_occ hi hp).1
  have hnext : (if t.nextIndex i = invalidEntry then none
      else ipaTableGetEntryByIndex t (t.nextIndex i)) = link (t.nextIndex i) := by
    unfold link
    split
    · rfl
    · next hn => exact getEntryByIndex_link hinv (hinv.next_occ hi hn).1
  have hlink : ∀ k, ¬ (k ≠ invalidEntry ∧ link k = none) := by
    intro k hk
    exact hk.1 (link_eq_none.mp hk.2)
  unfold ipaTableIteratorInit
  simp only [hi,Bool.true_eq_false,if_false,hprev,hnext,if_neg (hlink _)]
  rfl

/-- The command that deletes the entry at slot `i`. -/
def Table.deleteCmd (K : Kind R U) (t : Table R U) (i : ℕ) : DmaOne :=
  if t.prevIndex i = 0 then
    if t.nextIndex i = 0 then K.cmd t.tableEntries .updateHead i 0
    else K.cmd t.tableEntries .deleteHead i
      (K.iface.entryGetDeleteHeadDmaCommandData (t.recs i) (t.recs (t.nextIndex i)))
  else K.cmd t.tableEntries .updateEntry (t.prevIndex i) (BitVec.ofNat 16 (t.nextIndex i))

theorem Table.deleteCmd_own (K : Kind R U) (t : Table R U) (i : ℕ) :
    (t.deleteCmd K i).baseAddr = K.baseType ∨ (t.deleteCmd K i).baseAddr = K.expnType := by
  unfold Table.deleteCmd
  split
  · split
    · exact K.cmd_own _ _ _ _
    · exact K.cmd_own _ _ _ _
  · exact K.cmd_own _ _ _ _

omit [RecordLayout R] in
theorem isHeadWithTail_iff (t : Table R U) (i : ℕ) :
    iteratorIsHeadWithTail (t.iteratorAt i) = true ↔
      t.prevIndex i = 0 ∧ t.nextIndex i ≠ 0 := by
  unfold iteratorIsHeadWithTail Table.iteratorAt invalidEntry
  rw [Bool.and_eq_true,decide_eq_true_eq,decide_eq_true_eq,and_comm]

theorem createDeleteCommand_eq (h : t.IsOf K) (hinv : t.Inv own) (hi : t.occupied i = true)
    (cmd : List DmaOne) :
    ipaTableCreateDeleteCommand t (t.iteratorAt i) cmd = cmd ++ [t.deleteCmd K i] := by
  have hlt := hinv.occ_lt i hi
  have hcmd := ipaTableAddDmaCmd_eq h rfl rfl rfl hlt
  unfold ipaTableCreateDeleteCommand Table.deleteCmd Table.iteratorAt invalidEntry
  dsimp only
  split
  · split
    · exact hcmd _ _ _
    · rw [h.iface]
      exact hcmd _ _ _
  · next hp =>
    have hplt := hinv.occ_lt _ (hinv.prev_occ hi hp).1
    exact ipaTableAddDmaCmd_eq h rfl rfl rfl hplt _ _ _

/-- What deleting an entry leaves, once its command has been applied. -/
theorem deleteEntry_deleted (hK : K.Lawful) (h : t.IsOf K) (hinv : t.Inv own)
    (hi : t.occupied i = true) (emptied : Bool) :
    let t₂ := t.applyDma K (t.deleteCmd K i)
    Deleted K t emptied i
      (if iteratorIsHeadWithTail (t.iteratorAt i) then t₂
        else ipaTableDeleteEntry t₂ (t.iteratorAt i) emptied) := by
  have hbase := hinv.prev_eq_zero_iff hi
  by_cases hp : t.prevIndex i = 0
  · have hib : i < t.tableEntries := hbase.mp hp
    by_cases hn : t.nextIndex i = 0
    · have hd : Deleted K t emptied i _ := .lone hp hn
      have hcmd : t.deleteCmd K i = K.cmd t.tableEntries .updateHead i 0 := by
        simp [Table.deleteCmd,hp,hn]
      dsimp only
      rw [hcmd,Table.applyDma_cmd hK rfl]
      simp only [iteratorIsHeadWithTail,Table.iteratorAt,hn,hp,invalidEntry,ne_eq,
        not_true_eq_false,decide_false,Bool.false_and,Bool.false_eq_true,if_false,
        ipaTableDeleteEntry,link_zero,ite_self]
      simpa [ipaTableEraseEntry,hib,Table.setRec] using hd
    · have hd : Deleted K t emptied i _ := .marked hp hn
      have hcmd : t.deleteCmd K i = K.cmd t.tableEntries .deleteHead i
          (K.iface.entryGetDeleteHeadDmaCommandData (t.recs i) (t.recs (t.nextIndex i))) := by
        simp [Table.deleteCmd,hp,hn]
      dsimp only
      rw [hcmd,Table.applyDma_cmd hK rfl]
      simpa [iteratorIsHeadWithTail,Table.iteratorAt,hn,hp,invalidEntry] using hd
  · obtain ⟨hpo,hpn,hib,_⟩ := hinv.prev_occ hi hp
    have hnb : ¬ i < t.tableEntries := by omega
    have hpi := hinv.prev_ne_self hi hp
    have hcmd : t.deleteCmd K i = K.cmd t.tableEntries .updateEntry (t.prevIndex i)
        (BitVec.ofNat 16 (t.nextIndex i)) := by
      simp [Table.deleteCmd,hp]
    dsimp only
    rw [hcmd,Table.applyDma_cmd hK rfl]
    by_cases hn : t.nextIndex i = 0
    · cases emptied with
      | false =>
        have hd := Deleted.last (K := K) rfl rfl hp hn
        simpa [iteratorIsHeadWithTail,Table.iteratorAt,hn,invalidEntry,ipaTableDeleteEntry,
          ipaTableEraseEntry,hnb,Table.setRec] using hd
      | true =>
        have hd := Deleted.lastDead (K := K) rfl rfl hp hn
        simpa [iteratorIsHeadWithTail,Table.iteratorAt,hn,invalidEntry,ipaTableDeleteEntry,
          ipaTableEraseEntry,hnb,Table.setRec,link_of_ne_zero hp] using hd
    · have hd : Deleted K t emptied i _ := .middle rfl hp rfl hn
      have hni := (hinv.next_occ hi hn).2.2.2.1
      have hnp := hinv.next_ne_prev hi hn hp
      simpa [iteratorIsHeadWithTail,Table.iteratorAt,hn,hp,invalidEntry,ipaTableDeleteEntry,
        ipaTableEraseEntry,hnb,Table.setRec,h.iface,hnp] using hd

/-- The chain invariant after a deletion. A marked head stays a valid record; only a dead
head may count as emptied, and dead heads are base slots. -/
theorem Deleted.inv (hd : Deleted K t emptied i t') (hK : K.Lawful) (h : t.IsOf K)
    (hinv : t.Inv own) (hi : t.occupied i = true)
    (hmark : t.prevIndex i = 0 → t.nextIndex i ≠ 0 → K.iface.entryIsValid
      (RecordLayout.write16 (t.recs i) (K.offset .deleteHead)
        (K.iface.entryGetDeleteHeadDmaCommandData (t.recs i) (t.recs (t.nextIndex i)))) = true)
    (hdead : emptied = true → t.prevIndex i < t.tableEntries) : t'.Inv own := by
  have hiface := h.iface
  have hb := h.sizes.base_le
  cases hd with
  | lone hp hn =>
    have hib := (hinv.prev_eq_zero_iff hi).mp hp
    refine SlotInv.remove hinv hb hi hib hn (fun j => ?_) (fun j => ?_) (fun j => ?_)
    · by_cases hj : j = i
      · subst hj
        simp [Table.occupied,hiface,hK.valid_zero]
      · simp [Table.occupied,hj]
    · by_cases hj : j = i
      · subst hj
        rw [hn]
        simp [Table.nextIndex,hiface,hK.next_zero]
      · simp [Table.nextIndex,hj]
    · by_cases hj : j = i
      · subst hj
        rw [hp]
        simp [Table.prevIndex,hiface,hK.prev_zero _ _ _ hib]
      · simp [Table.prevIndex,hj]
  | marked hp hn =>
    refine SlotInv.congr hinv (fun j => ?_) (fun j => ?_) (fun j _ => ?_) (fun _ _ => rfl)
    · by_cases hj : j = i
      · subst hj
        rw [hi]
        simpa [Table.occupied,hiface] using hmark hp hn
      · simp [Table.occupied,hj]
    · by_cases hj : j = i
      · subst hj
        simp [Table.nextIndex,hiface,hK.next_delete]
      · simp [Table.nextIndex,hj]
    · by_cases hj : j = i
      · subst hj
        simp [Table.prevIndex,hiface,hK.prev_delete]
      · simp [Table.prevIndex,hj]
  | @middle p n hp hp0 hn hn0 =>
    obtain ⟨hpo,_,hib,_⟩ := hinv.prev_occ hi (by rwa [hp])
    obtain ⟨hno,hnb,_,hni,_⟩ := hinv.next_occ hi (by rwa [hn])
    have hpi := hinv.prev_ne_self hi (by rwa [hp])
    have hnp := hinv.next_ne_prev hi (by rwa [hn]) (by rwa [hp])
    have hn16 := toNat_ofNat_of_lt h (hinv.occ_lt _ hno)
    rw [hp] at hpo hpi hnp
    rw [hn] at hno hnb hni hnp hn16
    refine SlotInv.unlink hinv h.expn_eq hi hp hp0 (fun j => ?_) (fun j => ?_) (fun j hji => ?_)
    · by_cases hj : j = i
      · subst hj
        simp [Table.occupied,hiface,hK.valid_zero]
      · by_cases hjn : j = n
        · simp [Table.occupied,hiface,hjn,hK.valid_setPrev,hni]
        · by_cases hjp : j = p
          · simp [Table.occupied,hiface,hjp,hK.valid_update,hpi,hnp.symm]
          · simp [Table.occupied,hj,hjn,hjp]
    · rw [hn]
      by_cases hj : j = i
      · subst hj
        simp [Table.nextIndex,hiface,hK.next_zero]
      · by_cases hjn : j = n
        · simp [Table.nextIndex,hiface,hjn,hni,hnp,hK.next_setPrev]
        · by_cases hjp : j = p
          · simp [Table.nextIndex,hiface,hjp,hpi,hnp.symm,hK.next_update,hn16]
          · simp [Table.nextIndex,hj,hjn,hjp]
    · rw [hn]
      have hother := fun r hjn => hK.prev_setPrev_other (t.recs n) r n j p t.metaPrev
        t.tableEntries hnb hjn
      by_cases hjn : j = n
      · have hself := hK.prev_setPrev (t.recs n) n p t.metaPrev t.tableEntries hnb
        subst hjn
        simp [Table.prevIndex,hiface,hni,hself,hn0]
      · by_cases hjp : j = p
        · subst hjp
          simp [Table.prevIndex,hiface,hji,hjn,hother,hK.prev_update]
        · simp [Table.prevIndex,hiface,hji,hjn,hjp,hother]
  | @last p he hp hp0 hn =>
    have hpi := hinv.prev_ne_self hi (by rwa [hp])
    rw [hp] at hpi
    refine SlotInv.unlink hinv h.expn_eq hi hp hp0 (fun j => ?_) (fun j => ?_) (fun j hji => ?_)
    · by_cases hj : j = i
      · subst hj
        simp [Table.occupied,hiface,hK.valid_zero]
      · by_cases hjp : j = p
        · simp [Table.occupied,hiface,hjp,hK.valid_update,hpi]
        · simp [Table.occupied,hj,hjp]
    · rw [hn]
      by_cases hj : j = i
      · subst hj
        simp [Table.nextIndex,hiface,hK.next_zero]
      · by_cases hjp : j = p
        · simp [Table.nextIndex,hiface,hjp,hpi,hK.next_update]
        · simp [Table.nextIndex,hj,hjp]
    · rw [hn,if_neg fun hh => hh.1 hh.2]
      by_cases hjp : j = p
      · subst hjp
        simp [Table.prevIndex,hiface,hji,hK.prev_update]
      · simp [Table.prevIndex,hji,hjp]
  | @lastDead p he hp hp0 hn =>
    have hpi := hinv.prev_ne_self hi (by rwa [hp])
    have hpo := (hinv.prev_occ hi (by rwa [hp])).1
    have hpb := hdead he
    rw [hp] at hpi hpo hpb
    have hpv := (hinv.prev_eq_zero_iff hpo).mpr hpb
    -- the slot leaves the chain of the dead head, which then is a chain of its own
    have hone : SlotInv t.tableEntries t.totTblEnts
        (fun j => if j = i then false else t.occupied j)
        (fun j => if j = i then 0 else if j = p then 0 else t.nextIndex j)
        ((t.setRec p RecordLayout.zero).setRec i RecordLayout.zero).prevIndex
        t.curTblCnt (dec16 t.curExpnTblCnt) own := by
      refine SlotInv.unlink hinv h.expn_eq hi hp hp0 (fun _ => rfl) (fun j => ?_)
        (fun j hji => ?_)
      · rw [hn]
      · rw [hn,if_neg fun hh => hh.1 hh.2]
        by_cases hjp : j = p
        · rw [hjp,hpv]
          simp [Table.prevIndex,hiface,hpi,hK.prev_zero _ _ _ hpb]
        · simp [Table.prevIndex,hji,hjp]
    refine SlotInv.remove hone hb (c := p) (by simpa [hpi] using hpo) hpb (by simp)
      (fun j => ?_) (fun j => ?_) (fun j => ?_)
    · by_cases hj : j = i
      · simp [Table.occupied,hiface,hj,hK.valid_zero]
      · by_cases hjp : j = p
        · simp [Table.occupied,hiface,hjp,hpi,hK.valid_zero]
        · simp [Table.occupied,hj,hjp]
    · by_cases hj : j = i
      · simp [Table.nextIndex,hiface,hj,hK.next_zero]
      · by_cases hjp : j = p
        · simp [Table.nextIndex,hiface,hjp,hpi,hK.next_zero]
        · simp [Table.nextIndex,hj,hjp]
    · simp only [Table.prevIndex,Table.setRec]

end Deleting

section Chains

/-- The records met from record `i` on by following the next indices. -/
def Table.ChainFrom (t : Table R U) (i : ℕ) (l : List ℕ) : Prop :=
  Chain (fun j => link (t.nextIndex j)) i l

/-- What the chains of a table look like. `dead` tells the records with the invalid protocol,
`hashed` the base slot that the hash of the entry in a slot selected when it was added. -/
structure ChainInvariant (t : Table R U) (dead : R → Prop) (hashed : ℕ → ℕ) : Prop where
  chain : ∀ b < t.tableEntries, t.occupied b = true → ∃ l, t.ChainFrom b l ∧ l.head? = some b ∧
    l.Nodup ∧ ∀ c ∈ l.tail, t.tableEntries ≤ c ∧ c < t.totTblEnts ∧ t.occupied c = true
  disjoint : ∀ b b' l l', b < t.tableEntries → b' < t.tableEntries → b ≠ b' →
    t.occupied b = true → t.occupied b' = true → t.ChainFrom b l → t.ChainFrom b' l' →
    l.Disjoint l'
  cover : ∀ c, t.tableEntries ≤ c → t.occupied c = true →
    ∃ b < t.tableEntries, t.occupied b = true ∧ ∃ l, t.ChainFrom b l ∧ c ∈ l
  prev_next : ∀ i, t.occupied i = true → t.nextIndex i ≠ invalidEntry →
    t.prevIndex (t.nextIndex i) = i
  next_prev : ∀ i, t.occupied i = true → t.prevIndex i ≠ invalidEntry →
    t.occupied (t.prevIndex i) = true ∧ t.nextIndex (t.prevIndex i) = i
  prev_head : ∀ i, t.occupied i = true → (t.prevIndex i = invalidEntry ↔ i < t.tableEntries)
  live : ∀ i, t.occupied i = true → ¬ dead (t.recs i) →
    hashed i < t.tableEntries ∧ t.occupied (hashed i) = true ∧
      ∃ l, t.ChainFrom (hashed i) l ∧ i ∈ l
  dead_head : ∀ i, t.occupied i = true → dead (t.recs i) →
    i < t.tableEntries ∧ t.nextIndex i ≠ invalidEntry ∧ t.occupied (t.nextIndex i) = true
  curTblCnt : t.curTblCnt = countOcc t.occupied 0 t.tableEntries
  curExpnTblCnt : t.curExpnTblCnt = countOcc t.occupied t.tableEntries t.totTblEnts
  iteratorEnd : ∀ i, t.occupied i = true → ∃ last, ipaTableIteratorEnd t i = some (some last)

variable {t : Table R U} {own : ℕ → ℕ}

omit [RecordLayout R] in
theorem chainFrom_iff (hinv : t.Inv own) {i : ℕ} (hi : t.occupied i = true) (l : List ℕ) :
    t.ChainFrom i l ↔ Chain t.links.next i l := by
  have hto : ∀ {m}, Chain t.links.next i m → t.ChainFrom i m := by
    intro m hm
    exact hm.congr fun b hb =>
      (linksOf_next (hinv.chained.occ_of_mem hi hm b hb)).symm
  refine ⟨fun hl => ?_,hto⟩
  obtain ⟨m,hm⟩ := hinv.chained.exists_chain hi
  rw [hl.unique (hto hm)]
  exact hm

omit [RecordLayout R] in
/-- The chain invariant of a table in plain terms. -/
theorem Table.Inv.chainInvariant (hinv : t.Inv own) {dead : R → Prop} {hashed : ℕ → ℕ}
    (hdead : ∀ i, t.occupied i = true → dead (t.recs i) →
      i < t.tableEntries ∧ t.nextIndex i ≠ 0)
    (hhashed : ∀ i, t.occupied i = true → ¬ dead (t.recs i) → own i = hashed i) :
    ChainInvariant t dead hashed := by
  have hown : ∀ i, t.occupied i = true → own i < t.tableEntries ∧ t.occupied (own i) = true ∧
      ∃ l, t.ChainFrom (own i) l ∧ i ∈ l := by
    intro i hi
    obtain ⟨ho,hb,l,hl,hmem⟩ := hinv.chained.mem_own_chain hi
    exact ⟨hb,ho,l,(chainFrom_iff hinv ho l).mpr hl,hmem⟩
  refine ⟨fun b _ hb => ?_,fun b b' l l' hbt hbt' hne hb hb' hl hl' => ?_,fun c _ hc => ?_,
    fun i hi hn => (hinv.next_occ hi hn).2.2.1,fun i hi hp => ?_,
    fun i hi => hinv.prev_eq_zero_iff hi,fun i hi hl => ?_,fun i hi hd => ?_,hinv.cnt_eq,
    hinv.expnCnt_eq,fun i hi => ?_⟩
  · obtain ⟨l,hl⟩ := hinv.chained.exists_chain hb
    obtain ⟨tl,rfl⟩ := hl.head_eq
    refine ⟨_,(chainFrom_iff hinv hb _).mpr hl,rfl,hinv.chained.nodup hb hl,fun c hc => ?_⟩
    have hco := hinv.chained.occ_of_mem hb hl c (List.mem_of_mem_tail hc)
    have hch := hinv.chained.not_head_of_mem_tail hb hl c hc
    exact ⟨Nat.not_lt.mp hch,hinv.occ_lt c hco,hco⟩
  · exact hinv.chained.disjoint hb hbt hb' hbt' ((chainFrom_iff hinv hb l).mp hl)
      ((chainFrom_iff hinv hb' l').mp hl') hne
  · obtain ⟨h1,h2,h3⟩ := hown c hc
    exact ⟨own c,h1,h2,h3⟩
  · obtain ⟨h1,h2,_⟩ := hinv.prev_occ hi hp
    exact ⟨h1,h2⟩
  · rw [← hhashed i hi hl]
    exact hown i hi
  · obtain ⟨h1,h2⟩ := hdead i hi hd
    exact ⟨h1,h2,(hinv.next_occ hi h2).1⟩
  · obtain ⟨last,hlast,_⟩ := ipaTableIteratorEnd_chain hinv.chained hinv.occ_lt hi
    exact ⟨last,hlast⟩

end Chains

end IpaTable
end MarbleModules
