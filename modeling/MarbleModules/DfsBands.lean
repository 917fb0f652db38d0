import Mathlib.Data.List.GetD
import MarbleModules.DfsRandomChan

/-! The bitmaps as sets of free channels: which bands they call free, and what the three
searches over the free bands come to. -/
namespace MarbleModules
namespace Dfs

/-- The 20 MHz channels of the 5 and 6 GHz bands. -/
def channels20 : List ℕ :=
  block 5180 8++block 5500 12++block 5745 8++5935::block 5955 59

/-- The 40 MHz channels, by their first 20 MHz channel. -/
def starts40 : List ℕ := bandStarts.flatMap fun s => [s,s+40]

/-- All channels of the block are in the list. -/
def freeBlock (freqLst : List ℕ) (n start : ℕ) : Bool :=
  (block start n).all (freqLst.contains ·)

/-- The 80 MHz bands whose channels are all in the list. -/
def freeBands (freqLst : List ℕ) : List ℕ := bandStarts.filter (freeBlock freqLst 4)

/-- The 40 MHz channels whose halves are both in the list. -/
def freePairs (freqLst : List ℕ) : List ℕ := starts40.filter (freeBlock freqLst 2)

@[simp] theorem mem_block {start n freq : ℕ} :
    freq ∈ block start n ↔ ∃ i < n, start+20*i = freq := by simp [block]

theorem freeBlock_iff {freqLst : List ℕ} {n start : ℕ} :
    freeBlock freqLst n start = true ↔ ∀ g ∈ block start n, g ∈ freqLst := by
  simp [freeBlock]

theorem mem_freeBands {freqLst : List ℕ} {s : ℕ} :
    s ∈ freeBands freqLst ↔ s ∈ bandStarts ∧ ∀ g ∈ block s 4, g ∈ freqLst := by
  rw [freeBands,List.mem_filter,freeBlock_iff]

theorem bandStarts_separated : bandStarts.Pairwise (fun s s' => s+80 ≤ s') := by decide

theorem freeBands_separated (freqLst : List ℕ) :
    (freeBands freqLst).Pairwise (fun s s' => s+80 ≤ s') :=
  bandStarts_separated.filter _

/-! ## The bitmaps -/

/-- In every band the bits of exactly the channels in `marked` are set. -/
def Marks (marked : List ℕ) (bitmap : List ChanBondingInfo) : Prop :=
  ∀ b ∈ bitmap, b.chanMap < 16 ∧
    ∀ j < 4, b.chanMap.testBit j = true ↔ b.startChanFreq+20*j ∈ marked

/-- Within a band the frequency is that of one of its four channels. -/
def OnRaster (freq : ℕ) : Prop :=
  ∀ s ∈ bandStarts, s ≤ freq → freq ≤ s+60 → ∃ j < 4, freq = s+20*j

theorem onRaster_channels20 : ∀ freq ∈ 0::channels20, OnRaster freq := by
  unfold OnRaster
  decide +kernel

theorem starts_setBitmap (bitmap : List ChanBondingInfo) (freq : ℕ) :
    (setBitmap bitmap freq).map ChanBondingInfo.startChanFreq =
      bitmap.map ChanBondingInfo.startChanFreq := by
  induction bitmap with
  | nil => rfl
  | cons b bs ih =>
    simp only [setBitmap]
    split_ifs <;> simp [ih]

/-- Setting a bit of a four-bit map. -/
theorem or_bit {m j : ℕ} (hm : m < 16) (hj : j < 4) :
    m ||| 1 <<< j < 16 ∧
      ∀ i < 4, (m ||| 1 <<< j).testBit i = true ↔ m.testBit i = true ∨ i = j := by
  refine ⟨?_,fun i _ => ?_⟩
  · have hb : 1 <<< j < 2^4 := by
      interval_cases j <;> decide
    exact Nat.or_lt_two_pow (n := 4) hm hb
  · rw [Nat.testBit_or,Nat.shiftLeft_eq,Nat.one_mul,Nat.testBit_two_pow]
    simp only [Bool.or_eq_true,decide_eq_true_eq]
    exact or_congr_right eq_comm

/-- Marking a channel marks that channel and no other. -/
theorem setBitmap_marks {marked : List ℕ} {bitmap : List ChanBondingInfo} {freq : ℕ}
    (hm : Marks marked bitmap)
    (hr : ∀ b ∈ bitmap, b.startChanFreq ≤ freq → freq ≤ b.startChanFreq+60 →
      ∃ j < 4, freq = b.startChanFreq+20*j)
    (hs : (bitmap.map ChanBondingInfo.startChanFreq).Pairwise (fun s s' => s+80 ≤ s')) :
    Marks (marked++[freq]) (setBitmap bitmap freq) := by
  induction bitmap with
  | nil => simp [Marks,setBitmap]
  | cons b bs ih =>
    rw [List.map_cons,List.pairwise_cons] at hs
    have hb := hm b (by simp)
    have htail : ∀ b' ∈ bs, b'.chanMap < 16 ∧
        ∀ j < 4, b'.chanMap.testBit j = true ↔ b'.startChanFreq+20*j ∈ marked :=
      fun b' hb' => hm b' (by simp [hb'])
    simp only [setBitmap]
    split_ifs with hin
    · obtain ⟨j,hj,hf⟩ := hr b (by simp) hin.1 hin.2
      intro b' hb'
      rcases List.mem_cons.mp hb' with rfl|hb'
      · have hidx : (freq-b.startChanFreq)/20 = j := by omega
        obtain ⟨hlt,hbits⟩ := or_bit hb.1 hj
        dsimp only
        rw [hidx]
        refine ⟨hlt,fun i hi => ?_⟩
        rw [hbits i hi,hb.2 i hi,List.mem_append,List.mem_singleton,hf]
        exact or_congr_right ⟨fun h => by rw [h],fun h => by omega⟩
      · have hge := hs.1 b'.startChanFreq (List.mem_map_of_mem hb')
        refine ⟨(htail b' hb').1,fun i hi => ?_⟩
        rw [(htail b' hb').2 i hi,List.mem_append,List.mem_singleton]
        exact ⟨.inl,fun h => h.resolve_right (by omega)⟩
    · intro b' hb'
      rcases List.mem_cons.mp hb' with rfl|hb'
      · refine ⟨hb.1,fun i hi => ?_⟩
        rw [hb.2 i hi,List.mem_append,List.mem_singleton]
        exact ⟨.inl,fun h => h.resolve_right (by omega)⟩
      · exact ih htail (fun b'' hb'' => hr b'' (by simp [hb''])) hs.2 b' hb'

/-- The bitmap after all channels of the list are marked. -/
theorem foldl_setBitmap {freqLst : List ℕ} (h : ∀ f ∈ freqLst, OnRaster f) :
    Marks freqLst (freqLst.foldl setBitmap emptyMap) ∧
      (freqLst.foldl setBitmap emptyMap).map ChanBondingInfo.startChanFreq = bandStarts := by
  induction freqLst using List.reverseRecOn with
  | nil =>
    refine ⟨fun b hb => ?_,by simp [emptyMap,Function.comp_def]⟩
    obtain ⟨s,-,rfl⟩ := List.mem_map.mp hb
    simp
  | append_singleton l f ih =>
    obtain ⟨ih₁,ih₂⟩ := ih fun g hg => h g (by simp [hg])
    rw [List.foldl_append,List.foldl_cons,List.foldl_nil]
    refine ⟨setBitmap_marks ih₁ ?_ (by rw [ih₂]; exact bandStarts_separated),by
      rw [starts_setBitmap,ih₂]⟩
    intro b hb hle hle'
    have hmem : b.startChanFreq ∈ bandStarts := by
      rw [← ih₂]
      exact List.mem_map_of_mem hb
    exact h f (by simp) _ hmem hle hle'

/-- A four-bit map is full when its four bits are set, and so are its halves. -/
theorem full_map : ∀ m < 16,
    (m = 0x0F ↔ ∀ j < 4, m.testBit j = true) ∧
    (m &&& 0x03 = 0x03 ↔ ∀ j < 2, m.testBit j = true) ∧
    (m &&& 0x0C = 0x0C ↔ ∀ j < 2, m.testBit (j+2) = true) := by decide

theorem freeBlock_marks {marked : List ℕ} {b : ChanBondingInfo} {n k : ℕ}
    (hb : ∀ j < 4, b.chanMap.testBit j = true ↔ b.startChanFreq+20*j ∈ marked)
    (hn : k+n ≤ 4) :
    (∀ j < n, b.chanMap.testBit (j+k) = true) ↔
      freeBlock marked n (b.startChanFreq+20*k) = true := by
  simp only [freeBlock_iff,mem_block,forall_exists_index,and_imp,forall_apply_eq_imp_iff₂]
  refine forall₂_congr fun j hj => ?_
  rw [hb (j+k) (by omega),show b.startChanFreq+20*(j+k) = b.startChanFreq+20*k+20*j by ring]

/-- The channels of the free 80 MHz bands. -/
theorem populate80_eq {marked : List ℕ} {bitmap : List ChanBondingInfo}
    (hm : Marks marked bitmap) :
    populate80 bitmap = ((bitmap.map ChanBondingInfo.startChanFreq).filter
      (freeBlock marked 4)).flatMap (block · 4) := by
  induction bitmap with
  | nil => rfl
  | cons b bs ih =>
    have hb := hm b (by simp)
    have hih := ih fun b' hb' => hm b' (by simp [hb'])
    have hfull : b.chanMap = 0x0F ↔ freeBlock marked 4 b.startChanFreq = true := by
      rw [(full_map _ hb.1).1]
      exact freeBlock_marks (k := 0) hb.2 (by omega)
    rw [populate80,List.flatMap_cons,← populate80,hih,List.map_cons,List.filter_cons]
    by_cases hf : b.chanMap = 0x0F
    · rw [if_pos hf,if_pos (hfull.mp hf),List.flatMap_cons]
    · rw [if_neg hf,if_neg (mt hfull.mpr hf),List.nil_append]

/-- The channels of the free 40 MHz pairs. -/
theorem populate40_eq {marked : List ℕ} {bitmap : List ChanBondingInfo}
    (hm : Marks marked bitmap) :
    populate40 bitmap = (((bitmap.map ChanBondingInfo.startChanFreq).flatMap
      fun s => [s,s+40]).filter (freeBlock marked 2)).flatMap (block · 2) := by
  induction bitmap with
  | nil => rfl
  | cons b bs ih =>
    have hb := hm b (by simp)
    have hih := ih fun b' hb' => hm b' (by simp [hb'])
    have hlow : b.chanMap &&& 0x03 = 0x03 ↔ freeBlock marked 2 b.startChanFreq = true := by
      rw [(full_map _ hb.1).2.1]
      exact freeBlock_marks (k := 0) hb.2 (by omega)
    have hhigh : b.chanMap &&& 0x0C = 0x0C ↔ freeBlock marked 2 (b.startChanFreq+40) = true := by
      rw [(full_map _ hb.1).2.2]
      exact freeBlock_marks (k := 2) hb.2 (by omega)
    rw [populate40,List.flatMap_cons,← populate40,hih,List.map_cons,List.flatMap_cons]
    rw [List.filter_append,List.flatMap_append]
    congr 1
    simp only [hlow,hhigh,List.filter_cons,List.filter_nil]
    split_ifs <;> simp

/-! ## The searches -/

@[simp] theorem length_block (start n : ℕ) : (block start n).length = n := by simp [block]

theorem length_flatMap_block (bands : List ℕ) (n : ℕ) :
    (bands.flatMap (block · n)).length = n*bands.length := by
  induction bands with
  | nil => simp
  | cons s bands ih =>
    rw [List.flatMap_cons,List.length_append,ih,length_block,List.length_cons,Nat.mul_succ,
      Nat.add_comm]

/-- Channel `j` of band `k`. -/
theorem getD_flatMap_block (bands : List ℕ) {n k j : ℕ} (hk : k < bands.length)
    (hj : j < n) : (bands.flatMap (block · n)).getD (k*n+j) 0 = bands.getD k 0+20*j := by
  induction bands generalizing k with
  | nil => simp at hk
  | cons s bands ih =>
    rw [List.flatMap_cons]
    cases k with
    | zero =>
      rw [Nat.zero_mul,Nat.zero_add,List.getD_append _ _ _ _ (by simpa using hj)]
      simp [block,hj]
    | succ k =>
      rw [List.getD_append_right _ _ _ _ (by simp [Nat.succ_mul]; omega),length_block]
      rw [show (k+1)*n+j-n = k*n+j by rw [Nat.succ_mul]; omega,ih (by simpa using hk)]
      simp

/-- The lowest two free bands next to each other. -/
def firstPair : List ℕ → Option ℕ
  | s::s'::bands => if s' = s+80 then some s else firstPair (s'::bands)
  | _ => none

theorem firstPair_spec {bands : List ℕ} {s : ℕ} (h : firstPair bands = some s) :
    s ∈ bands ∧ s+80 ∈ bands := by
  induction bands with
  | nil => simp [firstPair] at h
  | cons a bands ih =>
    cases bands with
    | nil => simp [firstPair] at h
    | cons b bands =>
      rw [firstPair] at h
      split_ifs at h with hb
      · rw [← Option.some.inj h]
        simp [hb]
      · obtain ⟨h₁,h₂⟩ := ih h
        exact ⟨.tail _ h₁,.tail _ h₂⟩

/-- No two bands are next to each other when there is no pair. -/
theorem firstPair_none {bands : List ℕ} (hs : bands.Pairwise (fun s s' => s+80 ≤ s'))
    (h : firstPair bands = none) : ∀ s ∈ bands, s+80 ∉ bands := by
  induction bands with
  | nil => simp
  | cons a bands ih =>
    rw [List.pairwise_cons] at hs
    cases bands with
    | nil => simp
    | cons b bands =>
      rw [firstPair] at h
      split_ifs at h with hb
      have hih := ih hs.2 h
      have hab := hs.1 b (by simp)
      have hsb := (List.pairwise_cons.mp hs.2).1
      intro s hmem hmem'
      rcases List.mem_cons.mp hmem with rfl|hmem
      · rcases List.mem_cons.mp hmem' with heq|hmem'
        · omega
        · rcases List.mem_cons.mp hmem' with heq|hmem'
          · omega
          · have hh := hsb _ hmem'
            omega
      · have hge := hs.1 s hmem
        rcases List.mem_cons.mp hmem' with heq|hmem'
        · omega
        · exact hih s hmem hmem'

/-- Over the free bands the loop finds the lowest pair: it counts three within each band,
and goes on counting into the next one only if that one is adjacent. -/
theorem find160_bands (finalLst : List ℕ) (before bands : List ℕ) (s : ℕ)
    (hl : finalLst = (before++s::bands).flatMap (block · 4))
    (hs : (s::bands).Pairwise (fun s s' => s+80 ≤ s')) :
    find160 finalLst (bands.flatMap (block · 4)) (s+60) (4*before.length+4) 3 =
      firstPair (s::bands) := by
  induction bands generalizing before s with
  | nil => rfl
  | cons b bands ih =>
    have hsep := (List.pairwise_cons.mp hs).1 b (by simp)
    rw [List.flatMap_cons,firstPair,show block b 4 = [b,b+20,b+40,b+60] from rfl]
    simp only [List.cons_append,List.nil_append,find160]
    by_cases hb : b = s+80
    · have hget : finalLst.getD (4*before.length) 0 = s := by
        have hh := getD_flatMap_block (before++s::b::bands) (n := 4)
          (k := before.length) (j := 0) (by simp) (by omega)
        rw [← hl] at hh
        simpa [Nat.mul_comm] using hh
      rw [List.getD_eq_getElem?_getD] at hget
      simp [hb,hget]
    · have hne : ¬b = s+60+20 := by omega
      have hih := ih (before++[s]) b (by simpa using hl) (List.pairwise_cons.mp hs).2
      rw [if_neg hb]
      simp only [if_neg hne,List.length_append,List.length_singleton] at hih ⊢
      simpa [Nat.mul_add,Nat.add_assoc] using hih

/-- The search for 160 MHz over the channels of the free bands. -/
theorem find160_eq {bands : List ℕ} (hs : bands.Pairwise (fun s s' => s+80 ≤ s'))
    (hn : bands ≠ []) :
    find160 (bands.flatMap (block · 4)) (bands.flatMap (block · 4)).tail
      ((bands.flatMap (block · 4)).headD 0) 1 0 = firstPair bands := by
  obtain ⟨s,bands,rfl⟩ := List.exists_cons_of_ne_nil hn
  have hh := find160_bands _ [] bands s rfl hs
  rw [← hh]
  simp [show block s 4 = [s,s+20,s+40,s+60] from rfl,find160]

/-- Two bands that 80+80 MHz may combine: they are not next to each other. -/
def Apart (s s' : ℕ) : Prop := s+80 < s' ∨ s'+80 < s

instance (s s' : ℕ) : Decidable (Apart s s') := inferInstanceAs (Decidable (_ ∨ _))

theorem getD_mem {bands : List ℕ} {k : ℕ} (hk : k < bands.length) :
    bands.getD k 0 ∈ bands := by
  rw [List.getD_eq_getElem _ _ hk]
  exact List.getElem_mem hk

/-- The first channel of each band, the primary one being reset. -/
theorem getD_reset {bands : List ℕ} {k i : ℕ} (hk : k < bands.length)
    (hi : i < bands.length) :
    ((bands.flatMap (block · 4)).take (k*4)++List.replicate 4 0++
      (bands.flatMap (block · 4)).drop (k*4+4)).getD (i*4) 0 =
        if i = k then 0 else bands.getD i 0 := by
  have hlen := length_flatMap_block bands 4
  have hget := getD_flatMap_block bands (n := 4) (j := 0) hi (by omega)
  rw [Nat.add_zero,Nat.mul_zero,Nat.add_zero] at hget
  have htake : ((bands.flatMap (block · 4)).take (k*4)).length = k*4 := by
    rw [List.length_take]
    omega
  rcases Nat.lt_trichotomy i k with hlt|rfl|hgt
  · rw [if_neg (by omega),List.append_assoc,List.getD_append _ _ _ _ (by omega),← hget]
    simp only [List.getD_eq_getElem?_getD,List.getElem?_take]
    rw [if_pos (by omega)]
  · rw [if_pos rfl,List.append_assoc,List.getD_append_right _ _ _ _ (by omega),htake,Nat.sub_self]
    rfl
  · rw [if_neg (by omega),List.getD_append_right _ _ _ _ (by simp; omega),← hget]
    simp only [List.length_append,htake,List.length_replicate,List.getD_eq_getElem?_getD,
      List.getElem?_drop]
    congr 2
    omega

/-- The search for the second segment ends at a free band apart from the primary one, if
there is any. -/
theorem findSecSeg_spec {bands : List ℕ} {k : ℕ} (hk : k < bands.length)
    (hpos : ∀ s ∈ bands, s ≠ 0) {lst : List ℕ}
    (hl : ∀ i < bands.length, lst.getD (i*4) 0 = if i = k then 0 else bands.getD i 0) :
    (∀ sec, findSecSeg lst (bands.getD k 0) (List.range bands.length) = some sec →
      ∃ s' ∈ bands, sec = s'+30 ∧ Apart (bands.getD k 0) s') ∧
    (findSecSeg lst (bands.getD k 0) (List.range bands.length) = none →
      ∀ s' ∈ bands, ¬Apart (bands.getD k 0) s') := by
  constructor
  · intro sec hsec
    obtain ⟨i,hi,rfl⟩ := Option.map_eq_some_iff.mp hsec
    have hlt := List.mem_range.mp (List.mem_of_find?_eq_some hi)
    have hp := List.find?_some hi
    rw [hl i hlt] at hp ⊢
    by_cases hik : i = k
    · simp [hik] at hp
    · rw [if_neg hik] at hp ⊢
      refine ⟨_,getD_mem hlt,rfl,?_⟩
      simp only [Bool.and_eq_true,Bool.or_eq_true,decide_eq_true_eq] at hp
      exact hp.2
  · intro hnone s' hs' hap
    obtain ⟨i,hi,rfl⟩ := List.getElem_of_mem hs'
    have hn := List.find?_eq_none.mp (Option.map_eq_none_iff.mp hnone) i (List.mem_range.mpr hi)
    rw [← List.getD_eq_getElem _ 0 hi] at hap
    rw [hl i hi] at hn
    by_cases hik : i = k
    · subst hik
      unfold Apart at hap
      omega
    · rw [if_neg hik] at hn
      have h0 := hpos _ (getD_mem hi)
      apply hn
      unfold Apart at hap
      simp only [Bool.and_eq_true,Bool.or_eq_true,decide_eq_true_eq,bne_iff_ne]
      exact ⟨h0,hap⟩

/-- A channel of a free band; with it a second segment apart from that band, or none when
no free band is apart from it. -/
theorem find80p80_spec {bands : List ℕ} (hn : bands ≠ []) (hpos : ∀ s ∈ bands, s ≠ 0)
    (rand : ℕ) :
    ∃ s ∈ bands, ∃ j < 4,
      (∃ s' ∈ bands, Apart s s' ∧
        find80p80 (bands.flatMap (block · 4)) rand = ⟨s+20*j,.mhz80p80,some (s'+30)⟩) ∨
      ((∀ s' ∈ bands, ¬Apart s s') ∧
        find80p80 (bands.flatMap (block · 4)) rand =
          ⟨s+20*j,if bands.length = 2 then .mhz160 else .mhz80,some 0⟩) := by
  have hlen := length_flatMap_block bands 4
  have hp : 0 < bands.length := List.length_pos_of_ne_nil hn
  obtain ⟨k,j,hk,hj,hidx⟩ : ∃ k j, k < bands.length ∧ j < 4 ∧
      rand%(bands.flatMap (block · 4)).length = k*4+j := by
    have hlt := Nat.mod_lt rand (show 0 < (bands.flatMap (block · 4)).length by omega)
    exact ⟨_/4,_%4,by omega,Nat.mod_lt _ (by omega),(Nat.div_add_mod' _ 4).symm⟩
  have hstart : k*4+j-(k*4+j)%4 = k*4 := by omega
  have hprim := getD_flatMap_block bands (n := 4) (j := 0) hk (by omega)
  rw [Nat.add_zero,Nat.mul_zero,Nat.add_zero] at hprim
  obtain ⟨hsome,hnone⟩ := findSecSeg_spec hk hpos fun i hi => getD_reset hk hi
  have hdiv : (bands.flatMap (block · 4)).length/4 = bands.length := by omega
  refine ⟨bands.getD k 0,getD_mem hk,j,hj,?_⟩
  simp only [find80p80,hidx,hstart,hprim,hdiv,getD_flatMap_block bands hk hj]
  split
  · rename_i sec hsec
    obtain ⟨s',hs',rfl,hap⟩ := hsome sec hsec
    exact .inl ⟨s',hs',hap,rfl⟩
  · rename_i hsec
    refine .inr ⟨hnone hsec,?_⟩
    have hiff : (bands.flatMap (block · 4)).length = 8 ↔ bands.length = 2 := by omega
    simp only [hiff]
    split_ifs <;> rfl

end Dfs
end MarbleModules
