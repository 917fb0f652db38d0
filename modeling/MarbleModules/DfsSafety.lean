import MarbleModules.DfsBands

/-! No move to spectrum under radar: whatever is drawn lies in a channel of the final width
that the rules leave as a whole, and the width falls back only when there is none. -/
namespace MarbleModules
namespace Dfs

/-- The first channels of the 160 MHz channels: 36-64 and 100-128, and those of 6 GHz. -/
def starts160 : List ℕ := [5180,5500,5955,6115,6275,6435,6595,6755,6915]

/-- The 40 MHz channels of the bands and the one above them, 225 and 229. -/
def standard40 : List ℕ := starts40++[7075]

/-- The channel made of `n` channels of 20 MHz that contains the frequency. -/
def blockOf (starts : List ℕ) (n freq : ℕ) : Option (List ℕ) :=
  (starts.find? fun s => decide (freq ∈ block s n)).map fun s => block s n

/-- The 80 MHz band with this centre. -/
def centredAt (center : ℕ) : Option (List ℕ) :=
  (bandStarts.find? fun s => s+30 == center).map fun s => block s 4

/-- The standard channel of a width that contains the frequency; for 80+80 MHz the band of
the frequency and the band centred at the second segment. -/
def channelOf (chWidth : ChWidth) (freq seg1 : ℕ) : Option (List ℕ) :=
  match chWidth with
  | .mhz20 => if freq ∈ channels20 then some [freq] else none
  | .mhz40 => blockOf standard40 2 freq
  | .mhz80 => blockOf bandStarts 4 freq
  | .mhz160 => blockOf starts160 8 freq
  | .mhz80p80 =>
    match blockOf bandStarts 4 freq,centredAt seg1 with
    | some c,some c' => some (c++c')
    | _,_ => none
  | _ => none

/-- The starts of a family of channels that do not overlap determine the channel. -/
theorem blockOf_eq {starts : List ℕ} {n s freq : ℕ}
    (hu : ∀ s ∈ starts, ∀ s' ∈ starts, ∀ g ∈ block s n, g ∈ block s' n → s = s')
    (hs : s ∈ starts) (hf : freq ∈ block s n) : blockOf starts n freq = some (block s n) := by
  rw [blockOf]
  cases h : starts.find? fun s => decide (freq ∈ block s n) with
  | none =>
    have hh := List.find?_eq_none.mp h s hs
    simp only [decide_eq_true_eq] at hh
    exact absurd hf hh
  | some s' =>
    have hmem := List.mem_of_find?_eq_some h
    have hp := List.find?_some h
    simp only [decide_eq_true_eq] at hp
    rw [hu s hs s' hmem freq hf hp,Option.map_some]

theorem disjoint_standard40 : ∀ s ∈ standard40, ∀ s' ∈ standard40, ∀ g ∈ block s 2,
    g ∈ block s' 2 → s = s' := by decide +kernel

theorem disjoint_bandStarts : ∀ s ∈ bandStarts, ∀ s' ∈ bandStarts, ∀ g ∈ block s 4,
    g ∈ block s' 4 → s = s' := by decide +kernel

theorem disjoint_starts160 : ∀ s ∈ starts160, ∀ s' ∈ starts160, ∀ g ∈ block s 8,
    g ∈ block s' 8 → s = s' := by decide +kernel

/-! ## One search -/

/-- No two free bands are apart: there is no 80+80 MHz channel. -/
def No80p80 (freqLst : List ℕ) : Prop :=
  ∀ s ∈ freeBands freqLst, ∀ s' ∈ freeBands freqLst, ¬Apart s s'

section Search

variable {freqLst : List ℕ}

theorem populate_eq (h : ∀ f ∈ freqLst, OnRaster f) :
    populate (freqLst.foldl setBitmap emptyMap) .mhz40 =
        (freePairs freqLst).flatMap (block · 2) ∧
      populate (freqLst.foldl setBitmap emptyMap) .mhz80 =
        (freeBands freqLst).flatMap (block · 4) ∧
      populate (freqLst.foldl setBitmap emptyMap) .mhz160 =
        (freeBands freqLst).flatMap (block · 4) ∧
      populate (freqLst.foldl setBitmap emptyMap) .mhz80p80 =
        (freeBands freqLst).flatMap (block · 4) := by
  obtain ⟨hm,hst⟩ := foldl_setBitmap h
  have h80 := populate80_eq hm
  have h40 := populate40_eq hm
  rw [hst] at h80 h40
  exact ⟨h40,h80,h80,h80⟩

/-- Drawing from the channels of some blocks. -/
theorem getRandFromLst_blocks {starts : List ℕ} {n : ℕ} (hn : 0 < n) (hs : starts ≠ [])
    (rand : ℕ) :
    ∃ s ∈ starts, ∃ j < n, getRandFromLst (starts.flatMap (block · n)) rand = s+20*j := by
  have hlen := length_flatMap_block starts n
  have hp : 0 < n*starts.length := Nat.mul_pos hn (List.length_pos_of_ne_nil hs)
  have hlt : rand%(starts.flatMap (block · n)).length < n*starts.length := by
    rw [hlen]
    exact Nat.mod_lt rand hp
  have hk : rand%(starts.flatMap (block · n)).length/n < starts.length :=
    Nat.div_lt_of_lt_mul hlt
  have hj : rand%(starts.flatMap (block · n)).length%n < n := Nat.mod_lt _ hn
  refine ⟨_,getD_mem hk,_,hj,?_⟩
  rw [getRandFromLst,if_neg (by intro h0; rw [h0,List.length_nil] at hlen; omega)]
  rw [← getD_flatMap_block starts hk hj,Nat.div_add_mod']

theorem find40_cases (h : ∀ f ∈ freqLst, OnRaster f) (rand : ℕ) :
    (freePairs freqLst = [] ∧ findChWithFallback .mhz40 freqLst rand = ⟨0,.mhz20,none⟩) ∨
    ∃ s ∈ freePairs freqLst, ∃ j < 2,
      findChWithFallback .mhz40 freqLst rand = ⟨s+20*j,.mhz40,none⟩ := by
  have hlen := length_flatMap_block (freePairs freqLst) 2
  simp only [findChWithFallback,(populate_eq h).1]
  by_cases h0 : freePairs freqLst = []
  · exact .inl ⟨h0,by simp [h0,fallbackWidth]⟩
  · obtain ⟨s,hs,j,hj,heq⟩ := getRandFromLst_blocks (n := 2) (by omega) h0 rand
    have hp := List.length_pos_of_ne_nil h0
    refine .inr ⟨s,hs,j,hj,?_⟩
    rw [if_neg (by omega),if_neg (by simp),if_neg (by simp),if_neg (by simp),heq]

theorem find80_cases (h : ∀ f ∈ freqLst, OnRaster f) (rand : ℕ) :
    (freeBands freqLst = [] ∧ findChWithFallback .mhz80 freqLst rand = ⟨0,.mhz40,none⟩) ∨
    ∃ s ∈ freeBands freqLst, ∃ j < 4,
      findChWithFallback .mhz80 freqLst rand = ⟨s+20*j,.mhz80,none⟩ := by
  have hlen := length_flatMap_block (freeBands freqLst) 4
  simp only [findChWithFallback,(populate_eq h).2.1]
  by_cases h0 : freeBands freqLst = []
  · exact .inl ⟨h0,by simp [h0,fallbackWidth]⟩
  · obtain ⟨s,hs,j,hj,heq⟩ := getRandFromLst_blocks (n := 4) (by omega) h0 rand
    have hp := List.length_pos_of_ne_nil h0
    refine .inr ⟨s,hs,j,hj,?_⟩
    rw [if_neg (by omega),if_neg (by simp),if_neg (by simp),if_neg (by simp),heq]

/-- With fewer than two free bands there is no pair of them. -/
theorem firstPair_short {bands : List ℕ} (h : bands.length < 2) : firstPair bands = none := by
  match bands,h with
  | [],_ => rfl
  | [_],_ => rfl

theorem find160_cases (h : ∀ f ∈ freqLst, OnRaster f) (rand : ℕ) :
    (freeBands freqLst = [] ∧ findChWithFallback .mhz160 freqLst rand = ⟨0,.mhz40,none⟩) ∨
    (firstPair (freeBands freqLst) = none ∧
      findChWithFallback .mhz160 freqLst rand = ⟨0,.mhz80,none⟩) ∨
    ∃ s, firstPair (freeBands freqLst) = some s ∧ ∃ j < 8,
      findChWithFallback .mhz160 freqLst rand = ⟨s+20*j,.mhz160,none⟩ := by
  have hlen := length_flatMap_block (freeBands freqLst) 4
  simp only [findChWithFallback,(populate_eq h).2.2.1]
  by_cases h0 : freeBands freqLst = []
  · exact .inl ⟨h0,by simp [h0,fallbackWidth]⟩
  have hp := List.length_pos_of_ne_nil h0
  rw [if_neg (by omega)]
  by_cases h2 : (freeBands freqLst).length < 2
  · exact .inr (.inl ⟨firstPair_short h2,by rw [if_pos ⟨.inl trivial,by omega⟩]⟩)
  rw [if_neg (by omega),if_pos trivial,find160_eq (freeBands_separated freqLst) h0]
  cases hf : firstPair (freeBands freqLst) with
  | none => exact .inr (.inl ⟨rfl,rfl⟩)
  | some s => exact .inr (.inr ⟨s,rfl,rand%8,Nat.mod_lt _ (by omega),by rw [Nat.mul_comm]⟩)

theorem no80p80_short (h : (freeBands freqLst).length < 2) : No80p80 freqLst := by
  intro s hs s' hs' hap
  obtain ⟨b,hb⟩ : ∃ b, freeBands freqLst = [b] := by
    match hf : freeBands freqLst,h with
    | [],_ => rw [hf] at hs; cases hs
    | [b],_ => exact ⟨b,rfl⟩
  rw [hb,List.mem_singleton] at hs hs'
  unfold Apart at hap
  omega

theorem bandStarts_pos : ∀ s ∈ bandStarts, s ≠ 0 := by decide

theorem find80p80_cases (h : ∀ f ∈ freqLst, OnRaster f) (rand : ℕ) :
    (freeBands freqLst = [] ∧ findChWithFallback .mhz80p80 freqLst rand = ⟨0,.mhz40,none⟩) ∨
    (No80p80 freqLst ∧ findChWithFallback .mhz80p80 freqLst rand = ⟨0,.mhz80,none⟩) ∨
    2 ≤ (freeBands freqLst).length ∧ ∃ s ∈ freeBands freqLst, ∃ j < 4,
      (∃ s' ∈ freeBands freqLst, Apart s s' ∧
        findChWithFallback .mhz80p80 freqLst rand = ⟨s+20*j,.mhz80p80,some (s'+30)⟩) ∨
      ((∀ s' ∈ freeBands freqLst, ¬Apart s s') ∧
        findChWithFallback .mhz80p80 freqLst rand =
          ⟨s+20*j,if (freeBands freqLst).length = 2 then .mhz160 else .mhz80,some 0⟩) := by
  have hlen := length_flatMap_block (freeBands freqLst) 4
  simp only [findChWithFallback,(populate_eq h).2.2.2]
  by_cases h0 : freeBands freqLst = []
  · exact .inl ⟨h0,by simp [h0,fallbackWidth]⟩
  have hp := List.length_pos_of_ne_nil h0
  rw [if_neg (by omega)]
  by_cases h2 : (freeBands freqLst).length < 2
  · exact .inr (.inl ⟨no80p80_short h2,by rw [if_pos ⟨.inr trivial,by omega⟩]⟩)
  rw [if_neg (by omega)]
  rw [if_neg (by simp),if_pos trivial]
  exact .inr (.inr ⟨by omega,find80p80_spec h0
    (fun s hs => bandStarts_pos s (mem_freeBands.mp hs).1) rand⟩)

end Search

/-! ## The loop -/

/-- The width fell back from `r` to `w` because there was nothing of the widths between. -/
structure FellBack (freqLst : List ℕ) (r w : ChWidth) : Prop where
  no40 : w = .mhz20 → r ≠ .mhz20 → freePairs freqLst = []
  no80 : w = .mhz20 ∨ w = .mhz40 → r ≠ .mhz20 → r ≠ .mhz40 → freeBands freqLst = []
  no160 : r = .mhz160 → w ≠ .mhz160 → firstPair (freeBands freqLst) = none
  no80p80 : r = .mhz80p80 → w ≠ .mhz80p80 → No80p80 freqLst
  narrower : w = r ∨ w = .mhz20 ∨ w = .mhz40 ∧ r ≠ .mhz20 ∨
    w = .mhz80 ∧ r ≠ .mhz20 ∧ r ≠ .mhz40

theorem FellBack.refl (freqLst : List ℕ) (r : ChWidth) : FellBack freqLst r r where
  no40 h h' := absurd h h'
  no80 h h₁ h₂ := (h.elim h₁ h₂).elim
  no160 h h' := absurd h h'
  no80p80 h h' := absurd h h'
  narrower := .inl rfl

/-- Where a frequency of the final width comes from. -/
def Drawn (freqLst : List ℕ) (w : ChWidth) (freq : ℕ) (seg1 : Option ℕ) : Prop :=
  match w with
  | .mhz40 => ∃ s ∈ freePairs freqLst, freq ∈ block s 2
  | .mhz80 => ∃ s ∈ freeBands freqLst, freq ∈ block s 4
  | .mhz160 => ∃ s, firstPair (freeBands freqLst) = some s ∧ freq ∈ block s 8
  | .mhz80p80 => ∃ s ∈ freeBands freqLst, freq ∈ block s 4 ∧
      ∃ s' ∈ freeBands freqLst, Apart s s' ∧ seg1 = some (s'+30)
  | _ => False

/-- No free band is apart from the one of the frequency. -/
def Alone (freqLst : List ℕ) (freq : ℕ) : Prop :=
  ∀ s ∈ freeBands freqLst, freq ∈ block s 4 → ∀ s' ∈ freeBands freqLst, ¬Apart s s'

theorem No80p80.alone {freqLst : List ℕ} (h : No80p80 freqLst) (freq : ℕ) :
    Alone freqLst freq := fun s hs _ => h s hs

/-- What a search of width `w` comes to: nothing, and a narrower width; a channel of that
width; or a channel of a band that has no partner for 80+80 MHz. -/
inductive Searched (freqLst : List ℕ) (r w : ChWidth) (f : Found) : Prop
  | nothing (h0 : f.targetChannel = 0) (hb : FellBack freqLst r f.chanWd)
  | same (hw : f.chanWd = w) (hd : Drawn freqLst w f.targetChannel f.centerFreqSeg1)
  | alone (hw : w = .mhz80p80) (h0 : f.targetChannel ≠ 0)
      (hf : f.chanWd = .mhz80 ∨ f.chanWd = .mhz160)
      (hd : Drawn freqLst f.chanWd f.targetChannel f.centerFreqSeg1)
      (ha : Alone freqLst f.targetChannel)
      (hl : f.chanWd = .mhz80 → 5240 < f.targetChannel)

section Loop

variable {freqLst : List ℕ} {r : ChWidth}

theorem searched40 (h : ∀ f ∈ freqLst, OnRaster f) (hb : FellBack freqLst r .mhz40)
    (rand : ℕ) : Searched freqLst r .mhz40 (findChWithFallback .mhz40 freqLst rand) := by
  rcases find40_cases h rand with ⟨h0,heq⟩|⟨s,hs,j,hj,heq⟩
  · rw [heq]
    refine .nothing rfl ⟨fun _ _ => h0,fun _ => hb.no80 (.inr rfl),?_,?_,.inr (.inl rfl)⟩
    · exact fun hr _ => hb.no160 hr (by decide)
    · exact fun hr _ => hb.no80p80 hr (by decide)
  · rw [heq]
    exact .same rfl ⟨s,hs,mem_block.mpr ⟨j,hj,rfl⟩⟩

theorem firstPair_nil {bands : List ℕ} (h : bands = []) : firstPair bands = none := by
  rw [h]
  rfl

theorem no80p80_nil (h : freeBands freqLst = []) : No80p80 freqLst :=
  no80p80_short (by rw [h]; decide)

/-- There is no free 80 MHz band: the next width is 40 MHz. -/
theorem fellBack40 {w : ChWidth} (hb : FellBack freqLst r w) (h0 : freeBands freqLst = [])
    (hw : w = .mhz80 ∨ w = .mhz160 ∨ w = .mhz80p80) : FellBack freqLst r .mhz40 where
  no40 h := by cases h
  no80 _ _ _ := h0
  no160 _ _ := firstPair_nil h0
  no80p80 _ _ := no80p80_nil h0
  narrower := by
    refine .inr (.inr (.inl ⟨rfl,?_⟩))
    rintro rfl
    rcases hb.narrower with rfl|rfl|⟨-,h⟩|⟨-,h,-⟩
    · simp at hw
    · simp at hw
    · exact h rfl
    · exact h rfl

theorem searched80 (h : ∀ f ∈ freqLst, OnRaster f) (hb : FellBack freqLst r .mhz80)
    (rand : ℕ) : Searched freqLst r .mhz80 (findChWithFallback .mhz80 freqLst rand) := by
  rcases find80_cases h rand with ⟨h0,heq⟩|⟨s,hs,j,hj,heq⟩
  · rw [heq]
    exact .nothing rfl (fellBack40 hb h0 (.inl rfl))
  · rw [heq]
    exact .same rfl ⟨s,hs,mem_block.mpr ⟨j,hj,rfl⟩⟩

theorem searched160 (h : ∀ f ∈ freqLst, OnRaster f) (hb : FellBack freqLst r .mhz160)
    (rand : ℕ) : Searched freqLst r .mhz160 (findChWithFallback .mhz160 freqLst rand) := by
  have hr : r = .mhz160 := by
    rcases hb.narrower with h|h|⟨h,-⟩|⟨h,-⟩
    · exact h.symm
    all_goals cases h
  subst hr
  rcases find160_cases h rand with ⟨h0,heq⟩|⟨h0,heq⟩|⟨s,hs,j,hj,heq⟩
  · rw [heq]
    exact .nothing rfl (fellBack40 hb h0 (.inr (.inl rfl)))
  · rw [heq]
    refine .nothing rfl ⟨?_,?_,fun _ _ => h0,?_,?_⟩
    · rintro ⟨⟩
    · rintro (⟨⟨⟩⟩|⟨⟨⟩⟩)
    · rintro ⟨⟩
    · exact .inr (.inr (.inr ⟨rfl,by decide,by decide⟩))
  · rw [heq]
    exact .same rfl ⟨s,hs,mem_block.mpr ⟨j,hj,rfl⟩⟩

/-- Without a band apart from the lowest one there are at most two. -/
theorem length_alone_lowest
    (ha : ∀ s' ∈ freeBands freqLst, ¬Apart 5180 s') : (freeBands freqLst).length ≤ 2 := by
  have hnd : (freeBands freqLst).Nodup := by
    refine (freeBands_separated freqLst).imp ?_
    intro s s' hle heq
    omega
  have hsub : freeBands freqLst ⊆ [5180,5260] := by
    intro s' hs'
    have hmem := (mem_freeBands.mp hs').1
    have hap := ha s' hs'
    unfold Apart at hap
    fin_cases hmem <;> first | decide | (exfalso; omega)
  exact (hnd.subperm hsub).length_le

theorem mem_block_unique {s s' g : ℕ} (hs : s ∈ freeBands freqLst)
    (hs' : s' ∈ freeBands freqLst) (hg : g ∈ block s 4) (hg' : g ∈ block s' 4) : s = s' :=
  disjoint_bandStarts s (mem_freeBands.mp hs).1 s' (mem_freeBands.mp hs').1 g hg hg'

/-- Two free bands that are not apart are next to each other. -/
theorem firstPair_two (hl : (freeBands freqLst).length = 2) {s : ℕ}
    (hs : s ∈ freeBands freqLst) (ha : ∀ s' ∈ freeBands freqLst, ¬Apart s s') {j : ℕ}
    (hj : j < 4) :
    ∃ a, firstPair (freeBands freqLst) = some a ∧ s+20*j ∈ block a 8 := by
  have hsep := freeBands_separated freqLst
  obtain ⟨a,b,hab⟩ := List.length_eq_two.mp hl
  rw [hab] at hs ha hsep ⊢
  have hle : a+80 ≤ b := (List.pairwise_cons.mp hsep).1 b (by simp)
  have hb : b = a+80 := by
    have h₁ := ha a (by simp)
    have h₂ := ha b (by simp)
    unfold Apart at h₁ h₂
    simp only [List.mem_cons,List.not_mem_nil,or_false] at hs
    omega
  refine ⟨a,by rw [firstPair,if_pos hb],?_⟩
  simp only [List.mem_cons,List.not_mem_nil,or_false] at hs
  rw [mem_block]
  rcases hs with rfl|rfl
  · exact ⟨j,by omega,rfl⟩
  · exact ⟨j+4,by omega,by omega⟩

theorem bandStarts_above : ∀ s ∈ bandStarts, s ≠ 5180 → 5240 < s := by decide

theorem searched80p80 (h : ∀ f ∈ freqLst, OnRaster f) (hb : FellBack freqLst r .mhz80p80)
    (rand : ℕ) : Searched freqLst r .mhz80p80 (findChWithFallback .mhz80p80 freqLst rand) := by
  have hr : r = .mhz80p80 := by
    rcases hb.narrower with h|h|⟨h,-⟩|⟨h,-⟩
    · exact h.symm
    all_goals cases h
  subst hr
  rcases find80p80_cases h rand with ⟨h0,heq⟩|⟨h0,heq⟩|⟨hl,s,hs,j,hj,hcase⟩
  · rw [heq]
    exact .nothing rfl (fellBack40 hb h0 (.inr (.inr rfl)))
  · rw [heq]
    refine .nothing rfl ⟨?_,?_,?_,fun _ _ => h0,?_⟩
    · rintro ⟨⟩
    · rintro (⟨⟨⟩⟩|⟨⟨⟩⟩)
    · rintro ⟨⟩
    · exact .inr (.inr (.inr ⟨rfl,by decide,by decide⟩))
  · have hmem : s+20*j ∈ block s 4 := mem_block.mpr ⟨j,hj,rfl⟩
    rcases hcase with ⟨s',hs',hap,heq⟩|⟨ha,heq⟩
    · rw [heq]
      exact .same rfl ⟨s,hs,hmem,s',hs',hap,rfl⟩
    · have hpos : s+20*j ≠ 0 := by
        have hs0 := bandStarts_pos s (mem_freeBands.mp hs).1
        omega
      have halone : Alone freqLst (s+20*j) := by
        intro a hsa hma
        rw [mem_block_unique hsa hs hma hmem]
        exact ha
      by_cases h2 : (freeBands freqLst).length = 2
      · rw [heq,if_pos h2]
        exact .alone rfl hpos (.inr rfl) (firstPair_two h2 hs ha hj) halone (fun hh => by cases hh)
      · rw [heq,if_neg h2]
        refine .alone rfl hpos (.inl rfl) ⟨s,hs,hmem⟩ halone fun _ => ?_
        have hne : s ≠ 5180 := by
          rintro rfl
          have hle := length_alone_lowest ha
          omega
        have hgt := bandStarts_above s (mem_freeBands.mp hs).1 hne
        change 5240 < s+20*j
        omega

/-- A search of any width that the loop gets to. -/
theorem searched (h : ∀ f ∈ freqLst, OnRaster f) {w : ChWidth} (hb : FellBack freqLst r w)
    (hr : r.invalidParam = false) (hw : w ≠ .mhz20) (rand : ℕ) :
    Searched freqLst r w (findChWithFallback w freqLst rand) := by
  cases w with
  | mhz20 => exact absurd rfl hw
  | mhz40 => exact searched40 h hb rand
  | mhz80 => exact searched80 h hb rand
  | mhz160 => exact searched160 h hb rand
  | mhz80p80 => exact searched80p80 h hb rand
  | mhz5 | mhz10 | invalid =>
    rcases hb.narrower with hh|hh|⟨hh,-⟩|⟨hh,-⟩
    · rw [← hh] at hr
      cases hr
    all_goals cases hh

/-- What the loop gives back. -/
structure Chosen (freqLst : List ℕ) (r : ChWidth) (c : Choice) : Prop where
  drawn : c.chanParams.chWidth = .mhz20 ∧ c.targetFreq ∈ freqLst ∨
    Drawn freqLst c.chanParams.chWidth c.targetFreq (some c.chanParams.mhzFreqSeg1)
  fellBack : FellBack freqLst r c.chanParams.chWidth ∨
    r = .mhz80p80 ∧ (c.chanParams.chWidth = .mhz80 ∨ c.chanParams.chWidth = .mhz160) ∧
      Alone freqLst c.targetFreq

theorem getRandFromLst_mem {l : List ℕ} {rand : ℕ} (h : getRandFromLst l rand ≠ 0) :
    getRandFromLst l rand ∈ l := by
  by_cases h0 : l = []
  · rw [getRandFromLst,if_pos h0] at h
    exact absurd rfl h
  · rw [getRandFromLst,if_neg h0]
    exact getD_mem (Nat.mod_lt _ (List.length_pos_of_ne_nil h0))

theorem Drawn.seg1 {w : ChWidth} {freq : ℕ} {seg1 : Option ℕ}
    (h : Drawn freqLst w freq seg1) (old : ℕ) : Drawn freqLst w freq (some (seg1.getD old)) := by
  cases w with
  | mhz80p80 =>
    obtain ⟨s,hs,hm,s',hs',hap,rfl⟩ := h
    exact ⟨s,hs,hm,s',hs',hap,rfl⟩
  | _ => exact h

variable {setChannelParams : ℕ → ChParams → ChParams} {flags : ℕ} {dfsRegion : Region}
  {rand : ℕ → ℕ}

/-- One search after the other, the width falls back only where it has to. -/
theorem prepareLoop_chosen (h : ∀ f ∈ freqLst, OnRaster f)
    (hoff : has flags restricted80p80Enabled = false) (hr : r.invalidParam = false) {fuel : ℕ}
    {p : ChParams} {c : Choice} (hb : FellBack freqLst r p.chWidth)
    (hrun : prepareLoop setChannelParams flags dfsRegion freqLst rand fuel p = some c)
    (hc : c.targetFreq ≠ 0) : Chosen freqLst r c := by
  induction fuel generalizing p with
  | zero => cases hrun
  | succ fuel ih =>
    rw [prepareLoop] at hrun
    by_cases h20 : p.chWidth = .mhz20
    · rw [if_pos h20] at hrun
      cases hrun
      exact ⟨.inl ⟨h20,List.mem_of_mem_filter (getRandFromLst_mem hc)⟩,.inl hb⟩
    · rw [if_neg h20] at hrun
      have hs := searched h hb hr h20 (rand (2*fuel))
      have hsearch : search setChannelParams flags freqLst p (rand (2*fuel))
          (rand (2*fuel+1)) = ⟨(findChWithFallback p.chWidth freqLst
            (rand (2*fuel))).targetChannel,(findChWithFallback p.chWidth freqLst
              (rand (2*fuel))).params p⟩ := by
        rw [search,if_neg (by simp [hoff])]
      rw [hsearch] at hrun
      generalize findChWithFallback p.chWidth freqLst (rand (2*fuel)) = f at hs hrun
      have hw : (f.params p).chWidth = f.chanWd := rfl
      have hnext (hn : FellBack freqLst r f.chanWd)
          (hh : prepareLoop setChannelParams flags dfsRegion freqLst rand fuel (f.params p) =
            some c) : Chosen freqLst r c := ih hn hh
      dsimp only at hrun
      rw [hw] at hrun
      cases hs with
      | nothing h0 hb' =>
        simp only [h0,ne_eq,not_true_eq_false,if_false] at hrun
        split_ifs at hrun
        all_goals exact hnext hb' hrun
      | same hsw hd =>
        rw [← hsw] at hb
        split_ifs at hrun
        all_goals first
          | exact hnext hb hrun
          | (cases hrun; rw [← hsw] at hd; exact ⟨.inr (hd.seg1 _),.inl hb⟩)
      | alone hsw h0 hf hd ha hl =>
        have hr8 : r = .mhz80p80 := by
          rw [hsw] at hb
          rcases hb.narrower with hh|hh|⟨hh,-⟩|⟨hh,-⟩
          · exact hh.symm
          all_goals cases hh
        rw [if_neg (by rintro ⟨-,-,-,hh⟩; rw [hh] at hf; simp at hf)] at hrun
        rw [if_neg ?_] at hrun
        · rw [if_pos h0] at hrun
          cases hrun
          exact ⟨.inr (hd.seg1 _),.inr ⟨hr8,hf,ha⟩⟩
        · rintro ⟨-,hin,-,hh⟩
          have hgt := hl hh
          simp only [within,Bool.and_eq_true,decide_eq_true_eq] at hin
          omega

end Loop

/-! ## The result -/

/-- The number of a channel. -/
def ieeeOf (freq : ℕ) : ℕ :=
  if freq = 5935 then 2 else if freq < 5935 then (freq-5000)/5 else (freq-5950)/5

/-- The list holds channels of the 5 and 6 GHz bands under their numbers. -/
def ChannelList (chanList : List DfsChannel) : Prop :=
  ∀ c ∈ chanList, c.freq ∈ channels20 ∧ c.ieee = ieeeOf c.freq

instance (chanList : List DfsChannel) : Decidable (ChannelList chanList) :=
  inferInstanceAs (Decidable (∀ c ∈ chanList, _))

section Result

variable (dfs : WlanDfs) (chanList : List DfsChannel) (flags : ℕ) (dfsRegion : Region)
  (acsInfo : Option AcsInfo)

/-- The frequency is in the channel list, passes the rules and is not under radar. -/
def Allowed (freq : ℕ) : Prop :=
  (∃ c ∈ chanList, c.freq = freq ∧ passes dfs flags dfsRegion acsInfo c = true) ∧
    freq ∉ dfs.nol

/-- One of the channels of `n` times 20 MHz is in the list as a whole. -/
def Offers (freqLst starts : List ℕ) (n : ℕ) : Prop :=
  ∃ s ∈ starts, ∀ g ∈ block s n, g ∈ freqLst

/-- The width is the one asked for, or no channel of a larger width is in the list; from
80+80 MHz, no band is free apart from the one of the frequency. -/
structure NoWider (freqLst : List ℕ) (r w : ChWidth) (freq : ℕ) : Prop where
  no40 : w = .mhz20 → r ≠ .mhz20 → ¬Offers freqLst standard40 2
  no80 : w = .mhz20 ∨ w = .mhz40 → r ≠ .mhz20 → r ≠ .mhz40 → ¬Offers freqLst bandStarts 4
  no160 : r = .mhz160 → w ≠ .mhz160 → ¬Offers freqLst starts160 8
  no80p80 : r = .mhz80p80 → w ≠ .mhz80p80 → Alone freqLst freq

variable {dfs chanList flags dfsRegion acsInfo}

theorem passes_nol {c : DfsChannel} (h : passes dfs flags dfsRegion acsInfo c = true) :
    c.freq ∉ dfs.nol := by
  simp only [passes,skips,isFreqInNol,List.all_cons,Bool.and_eq_true,Bool.not_eq_true',
    List.contains_eq_mem,decide_eq_false_iff_not] at h
  exact h.2.2.2.2.2.2.2.2.2.2.2.1

theorem passes_ieee {c : DfsChannel} (h : passes dfs flags dfsRegion acsInfo c = true) :
    c.ieee ≤ maxChannelNum := by
  simp only [passes,skips,List.all_cons,Bool.and_eq_true,Bool.not_eq_true',Bool.or_eq_false_iff,
    decide_eq_false_iff_not,not_lt] at h
  exact h.1.2

theorem allowed_of_mem {freq : ℕ}
    (h : freq ∈ applyRules dfs flags chanList dfsRegion acsInfo) :
    Allowed dfs chanList flags dfsRegion acsInfo freq := by
  obtain ⟨c,hc,rfl⟩ := List.mem_map.mp h
  obtain ⟨hmem,hp⟩ := List.mem_filter.mp hc
  exact ⟨⟨c,hmem,rfl,hp⟩,passes_nol hp⟩

/-- What is drawn from has passed the rules, but for the zeros. -/
theorem mem_drawList {r : ChWidth} {freq : ℕ}
    (h : freq ∈ drawList dfs chanList flags r dfsRegion acsInfo) :
    freq = 0 ∨ freq ∈ applyRules dfs flags chanList dfsRegion acsInfo := by
  simp only [drawList,removeSpruceSpurChannels] at h
  split_ifs at h
  · obtain ⟨g,hg,rfl⟩ := List.mem_map.mp h
    split_ifs
    · exact .inl rfl
    · exact .inr hg
  · exact .inr h

variable {r : ChWidth}

theorem drawList_allowed {freq : ℕ}
    (h : freq ∈ drawList dfs chanList flags r dfsRegion acsInfo) (h0 : freq ≠ 0) :
    Allowed dfs chanList flags dfsRegion acsInfo freq :=
  allowed_of_mem ((mem_drawList h).resolve_left h0)

theorem drawList_channels20 (hch : ChannelList chanList) {freq : ℕ}
    (h : freq ∈ drawList dfs chanList flags r dfsRegion acsInfo) : freq ∈ 0::channels20 := by
  rcases mem_drawList h with rfl|hmem
  · simp
  · obtain ⟨⟨c,hc,rfl,-⟩,-⟩ := allowed_of_mem hmem
    exact .tail _ (hch c hc).1

theorem drawList_onRaster (hch : ChannelList chanList) :
    ∀ f ∈ drawList dfs chanList flags r dfsRegion acsInfo, OnRaster f :=
  fun f hf => onRaster_channels20 f (drawList_channels20 hch hf)

/-- The rules leave no channel with a number above 184. -/
theorem drawList_top (hch : ChannelList chanList) :
    7075 ∉ drawList dfs chanList flags r dfsRegion acsInfo := by
  intro h
  obtain ⟨⟨c,hc,hf,hp⟩,-⟩ := drawList_allowed h (by decide)
  have hle := passes_ieee hp
  rw [(hch c hc).2,hf] at hle
  exact absurd hle (by decide)

theorem starts160_bands : ∀ s ∈ starts160, s ∈ bandStarts ∧ s+80 ∈ bandStarts := by decide

/-- The loop's reasons to fall back, as statements about channels. -/
theorem Chosen.noWider (hch : ChannelList chanList) {c : Choice}
    (h : Chosen (drawList dfs chanList flags r dfsRegion acsInfo) r c) :
    NoWider (drawList dfs chanList flags r dfsRegion acsInfo) r c.chanParams.chWidth
      c.targetFreq := by
  have hno40 (hp : freePairs (drawList dfs chanList flags r dfsRegion acsInfo) = []) :
      ¬Offers (drawList dfs chanList flags r dfsRegion acsInfo) standard40 2 := by
    rintro ⟨s,hs,hall⟩
    rcases List.mem_append.mp hs with hs|hs
    · have hmem := List.mem_filter.mpr ⟨hs,freeBlock_iff.mpr hall⟩
      rw [← freePairs,hp] at hmem
      cases hmem
    · rw [List.mem_singleton.mp hs] at hall
      exact drawList_top hch (hall 7075 (mem_block.mpr ⟨0,by omega,rfl⟩))
  have hno80 (hp : freeBands (drawList dfs chanList flags r dfsRegion acsInfo) = []) :
      ¬Offers (drawList dfs chanList flags r dfsRegion acsInfo) bandStarts 4 := by
    rintro ⟨s,hs,hall⟩
    have hmem := mem_freeBands.mpr ⟨hs,hall⟩
    rw [hp] at hmem
    cases hmem
  rcases h.fellBack with hb|⟨rfl,hw,ha⟩
  · refine ⟨fun h₁ h₂ => hno40 (hb.no40 h₁ h₂),fun h₁ h₂ h₃ => hno80 (hb.no80 h₁ h₂ h₃),?_,
      fun h₁ h₂ => (hb.no80p80 h₁ h₂).alone _⟩
    rintro h₁ h₂ ⟨s,hs,hall⟩
    obtain ⟨hb₁,hb₂⟩ := starts160_bands s hs
    have hnone := firstPair_none (freeBands_separated _) (hb.no160 h₁ h₂)
    refine hnone s (mem_freeBands.mpr ⟨hb₁,?_⟩) (mem_freeBands.mpr ⟨hb₂,?_⟩)
    · intro g hg
      obtain ⟨i,hi,rfl⟩ := mem_block.mp hg
      exact hall _ (mem_block.mpr ⟨i,by omega,rfl⟩)
    · intro g hg
      obtain ⟨i,hi,rfl⟩ := mem_block.mp hg
      exact hall _ (mem_block.mpr ⟨i+4,by omega,by ring⟩)
  · refine ⟨fun h₁ => ?_,fun h₁ => ?_,?_,fun _ _ => ha⟩
    · rw [h₁] at hw
      simp at hw
    · rcases hw with hw|hw <;> rw [hw] at h₁ <;> simp at h₁
    · rintro ⟨⟩

/-- A block of channels of the list lies in allowed spectrum. -/
theorem block_allowed {s n : ℕ} (hs : s ≠ 0)
    (h : ∀ g ∈ block s n, g ∈ drawList dfs chanList flags r dfsRegion acsInfo) :
    ∀ g ∈ block s n, Allowed dfs chanList flags dfsRegion acsInfo g := by
  intro g hg
  refine drawList_allowed (h g hg) ?_
  obtain ⟨i,-,rfl⟩ := mem_block.mp hg
  omega

theorem starts40_pos : ∀ s ∈ starts40, s ≠ 0 := by decide

theorem centredAt_eq {s : ℕ} (hs : s ∈ bandStarts) : centredAt (s+30) = some (block s 4) := by
  revert s
  decide

/-- The lowest pair of free bands next to each other, if there is one, is a 160 MHz
channel. -/
def Standard160 (freqLst : List ℕ) : Prop :=
  ∀ s, firstPair (freeBands freqLst) = some s → s ∈ starts160

/-- A free band is an allowed channel. -/
theorem band_allowed {s : ℕ}
    (hs : s ∈ freeBands (drawList dfs chanList flags r dfsRegion acsInfo)) :
    ∀ g ∈ block s 4, Allowed dfs chanList flags dfsRegion acsInfo g :=
  block_allowed (bandStarts_pos s (mem_freeBands.mp hs).1) (mem_freeBands.mp hs).2

/-- A pair of free bands is eight allowed channels. -/
theorem pair_allowed {s : ℕ}
    (hs : firstPair (freeBands (drawList dfs chanList flags r dfsRegion acsInfo)) = some s) :
    ∀ g ∈ block s 8, Allowed dfs chanList flags dfsRegion acsInfo g := by
  obtain ⟨h₁,h₂⟩ := firstPair_spec hs
  intro g hg
  obtain ⟨i,hi,rfl⟩ := mem_block.mp hg
  by_cases hlt : i < 4
  · exact band_allowed h₁ _ (mem_block.mpr ⟨i,hlt,rfl⟩)
  · exact band_allowed h₂ _ (mem_block.mpr ⟨i-4,by omega,by omega⟩)

/-- The channel around the chosen frequency lies in allowed spectrum. -/
theorem Chosen.channel (hch : ChannelList chanList) {c : Choice}
    (h : Chosen (drawList dfs chanList flags r dfsRegion acsInfo) r c)
    (h0 : c.targetFreq ≠ 0) :
    Allowed dfs chanList flags dfsRegion acsInfo c.targetFreq ∧
    ((c.chanParams.chWidth = .mhz160 →
        Standard160 (drawList dfs chanList flags r dfsRegion acsInfo)) →
      ∃ ch, channelOf c.chanParams.chWidth c.targetFreq c.chanParams.mhzFreqSeg1 = some ch ∧
        c.targetFreq ∈ ch ∧ ∀ g ∈ ch, Allowed dfs chanList flags dfsRegion acsInfo g) := by
  rcases h.drawn with ⟨hw,hmem⟩|hd
  · have hal := drawList_allowed hmem h0
    have hin : c.targetFreq ∈ channels20 :=
      (List.mem_cons.mp (drawList_channels20 hch hmem)).resolve_left h0
    refine ⟨hal,fun _ => ⟨[c.targetFreq],?_,by simp,fun g hg => ?_⟩⟩
    · rw [hw,channelOf,if_pos hin]
    · rw [List.mem_singleton.mp hg]
      exact hal
  generalize hw : c.chanParams.chWidth = w at hd ⊢
  cases w with
  | mhz40 =>
    obtain ⟨s,hs,hm⟩ := hd
    obtain ⟨hs40,hfree⟩ := List.mem_filter.mp hs
    have hall := block_allowed (starts40_pos s hs40) (freeBlock_iff.mp hfree)
    have hs' : s ∈ standard40 := List.mem_append_left _ hs40
    exact ⟨hall _ hm,fun _ => ⟨_,blockOf_eq disjoint_standard40 hs' hm,hm,hall⟩⟩
  | mhz80 =>
    obtain ⟨s,hs,hm⟩ := hd
    exact ⟨band_allowed hs _ hm,fun _ =>
      ⟨_,blockOf_eq disjoint_bandStarts (mem_freeBands.mp hs).1 hm,hm,band_allowed hs⟩⟩
  | mhz160 =>
    obtain ⟨s,hs,hm⟩ := hd
    have hall := pair_allowed hs
    exact ⟨hall _ hm,fun hstd =>
      ⟨_,blockOf_eq disjoint_starts160 (hstd rfl s hs) hm,hm,hall⟩⟩
  | mhz80p80 =>
    obtain ⟨s,hs,hm,s',hs',-,hseg⟩ := hd
    rw [Option.some.inj hseg]
    refine ⟨band_allowed hs _ hm,fun _ => ⟨block s 4++block s' 4,?_,
      List.mem_append_left _ hm,fun g hg => ?_⟩⟩
    · rw [channelOf,blockOf_eq disjoint_bandStarts (mem_freeBands.mp hs).1 hm,
        centredAt_eq (mem_freeBands.mp hs').1]
    · rcases List.mem_append.mp hg with hg|hg
      · exact band_allowed hs _ hg
      · exact band_allowed hs' _ hg
  | mhz20 | mhz5 | mhz10 | invalid => exact hd.elim

/-- The chosen channel lies in spectrum that the rules allow, the whole of it, and the
width falls back only when there is no channel of a larger one. -/
theorem prepareRandomChannel_safe (setChannelParams : ℕ → ChParams → ChParams)
    (chanParams : ChParams) (rand : ℕ → ℕ) (fuel : ℕ) {c : Choice}
    (hch : ChannelList chanList) (hoff : has flags restricted80p80Enabled = false)
    (hrun : prepareRandomChannel setChannelParams dfs chanList flags chanParams dfsRegion
      acsInfo rand fuel = some c) (h0 : c.targetFreq ≠ 0) :
    Allowed dfs chanList flags dfsRegion acsInfo c.targetFreq ∧
    ((c.chanParams.chWidth = .mhz160 → Standard160
        (drawList dfs chanList flags chanParams.chWidth dfsRegion acsInfo)) →
      ∃ ch, channelOf c.chanParams.chWidth c.targetFreq c.chanParams.mhzFreqSeg1 = some ch ∧
        c.targetFreq ∈ ch ∧ ∀ g ∈ ch, Allowed dfs chanList flags dfsRegion acsInfo g) ∧
    NoWider (drawList dfs chanList flags chanParams.chWidth dfsRegion acsInfo)
      chanParams.chWidth c.chanParams.chWidth c.targetFreq := by
  have hzero {p : ChParams} (hh : some ⟨0,p⟩ = some c) : False := by
    cases hh
    exact h0 rfl
  rw [prepareRandomChannel] at hrun
  by_cases h₁ : chanList = []
  · rw [if_pos h₁] at hrun
    exact (hzero hrun).elim
  rw [if_neg h₁] at hrun
  by_cases h₂ : chanParams.chWidth.invalidParam = true
  · rw [if_pos h₂] at hrun
    exact (hzero hrun).elim
  rw [if_neg h₂] at hrun
  by_cases h₃ : drawList dfs chanList flags chanParams.chWidth dfsRegion acsInfo = []
  · simp only [if_pos h₃] at hrun
    exact (hzero hrun).elim
  · simp only [if_neg h₃] at hrun
    have hc := prepareLoop_chosen (drawList_onRaster hch) hoff (by simpa using h₂)
      (FellBack.refl _ _) hrun h0
    exact ⟨(hc.channel hch h0).1,(hc.channel hch h0).2,hc.noWider hch⟩

end Result

/-- The channels of the list under their numbers, none of them a DFS channel. -/
def channels (freqs : List ℕ) : List DfsChannel := freqs.map fun f => ⟨ieeeOf f,f,false⟩

/-- Radar on channel 52, and no operating channel. -/
def radarOn52 : WlanDfs := ⟨[5260],⟨.none,0,0⟩⟩

theorem prepareRandomChannel_radarOn52 :
    Allowed radarOn52 (channels (block 5180 8)) 0 .etsi none 5220 ∧
    ((ChWidth.mhz80 = .mhz160 → Standard160
        (drawList radarOn52 (channels (block 5180 8)) 0 .mhz160 .etsi none)) →
      ∃ ch, channelOf .mhz80 5220 0 = some ch ∧
        5220 ∈ ch ∧ ∀ g ∈ ch, Allowed radarOn52 (channels (block 5180 8)) 0 .etsi none g) ∧
    NoWider (drawList radarOn52 (channels (block 5180 8)) 0 .mhz160 .etsi none)
      .mhz160 .mhz80 5220 :=
  prepareRandomChannel_safe (fun _ p => p) ⟨.mhz160,0,0⟩ (fun _ => 6) 2
    (c := ⟨5220,⟨.mhz80,0,0⟩⟩) (by decide) (by decide) (by decide) (by decide)

/-- With the flag against spurs the halves of the only 40 MHz channel do not count, and the
width falls back although both pass the rules. -/
theorem prepareRandomChannel_spur :
    ChannelList (channels [5180,5220,5240]) ∧
    has noSpruceSpurAdjCh restricted80p80Enabled = false ∧
    prepareRandomChannel (fun _ p => p) radarOn52 (channels [5180,5220,5240]) noSpruceSpurAdjCh
      ⟨.mhz40,0,0⟩ .etsi none (fun _ => 0) 2 = some ⟨5180,⟨.mhz20,0,0⟩⟩ ∧
    5220 ∈ standard40 ∧
    ∀ g ∈ block 5220 2,
      Allowed radarOn52 (channels [5180,5220,5240]) noSpruceSpurAdjCh .etsi none g := by
  refine ⟨by decide,by decide,by decide,by decide,?_⟩
  unfold Allowed
  decide

end Dfs
end MarbleModules
