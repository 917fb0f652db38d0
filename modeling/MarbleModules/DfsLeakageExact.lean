import Mathlib.Data.List.Induction
import Mathlib.Data.List.Nodup
import Mathlib.Data.List.TakeWhile
import MarbleModules.DfsLeakage

/-! When the marking of leaking channels is exact, for a NOL and each of its beginnings. -/
namespace MarbleModules
namespace DfsLeakage

section Marking

variable (band6Ghz dsrc : Bool) (chWidth : PhyChWidth) (threshold : ℕ)

/-- A column of a row for the candidate is at most the threshold. -/
def Leaks (row : List LeakInfo) (c : ℕ) : Prop :=
  ∃ col ∈ row,col.leakChanFreq = c ∧ col.leakLvl ≤ threshold

instance (row : List LeakInfo) : DecidablePred (Leaks threshold row) :=
  fun _ => inferInstanceAs (Decidable (∃ _ ∈ _,_))

/-- The entry of a channel, a candidate and a width is at most the threshold. -/
def LeaksInto (nolFreq c : ℕ) : Prop :=
  ∃ row ∈ findTargetChannel chWidth nolFreq,Leaks threshold row c

instance (nolFreq : ℕ) : DecidablePred (LeaksInto chWidth threshold nolFreq) := fun c =>
  match h : findTargetChannel chWidth nolFreq with
  | none => isFalse fun ⟨_,hrow,_⟩ => nomatch h.symm.trans hrow
  | some row => decidable_of_iff (Leaks threshold row c)
      ⟨fun hl => ⟨row,h,hl⟩,fun ⟨_,hrow,hl⟩ => Option.some.inj (h.symm.trans hrow) ▸ hl⟩

/-- The candidates with those that leak into a channel of the NOL zeroed, and no others. -/
def cleared (nol freqLst : List ℕ) : List ℕ :=
  freqLst.map fun c => if ∃ f ∈ nol,LeaksInto chWidth threshold f c then 0 else c

/-- The marking succeeds without a read outside of a row, zeroes the candidates that leak into
a channel of the NOL and leaves the others. -/
def Exact (nol freqLst : List ℕ) : Prop :=
  markLeakingChan (numChannel band6Ghz dsrc) chWidth threshold nol freqLst =
    .success (cleared chWidth threshold nol freqLst)

/-- For each channel of the NOL, of the candidates that do not leak into an earlier one, the
merge finds the column of each that leaks into the channel and, where more channels are counted
than there are columns, that of each other one as well. -/
def Clear (nol freqLst : List ℕ) : Prop :=
  ∀ pre f post,nol = pre++f::post → ∀ row ∈ findTargetChannel chWidth f,
    Meets threshold (Leaks threshold row) (numChannel band6Ghz dsrc-numColumns) row
      (cleared chWidth threshold pre freqLst)

variable {band6Ghz dsrc} {chWidth} {threshold} {nol freqLst : List ℕ}

theorem cleared_nil : cleared chWidth threshold [] freqLst = freqLst := by
  simp [cleared]

theorem cleared_append (nol' : List ℕ) : cleared chWidth threshold (nol++nol') freqLst =
    cleared chWidth threshold nol' (cleared chWidth threshold nol freqLst) := by
  rw [cleared,cleared,cleared,List.map_map]
  apply List.map_congr_left
  intro c _
  by_cases hc : ∃ f ∈ nol,LeaksInto chWidth threshold f c
  · obtain ⟨f,hf,hl⟩ := id hc
    have happ : ∃ f ∈ nol++nol',LeaksInto chWidth threshold f c :=
      ⟨f,List.mem_append_left _ hf,hl⟩
    simp only [Function.comp_apply,if_pos happ,if_pos hc,ite_self]
  · have happ : (∃ f ∈ nol++nol',LeaksInto chWidth threshold f c) ↔
        ∃ f ∈ nol',LeaksInto chWidth threshold f c := by
      simp only [List.mem_append]
      constructor
      · rintro ⟨f,hf | hf,hl⟩
        · exact absurd ⟨f,hf,hl⟩ hc
        · exact ⟨f,hf,hl⟩
      · rintro ⟨f,hf,hl⟩
        exact ⟨f,Or.inr hf,hl⟩
    simp only [happ,hc,if_false,Function.comp_apply]

theorem cleared_singleton {f : ℕ} {row : List LeakInfo}
    (hrow : findTargetChannel chWidth f = some row) :
    cleared chWidth threshold [f] freqLst =
      freqLst.map fun c => if Leaks threshold row c then 0 else c := by
  simp [cleared,LeaksInto,hrow]

theorem markLeakingChan_append (nol' : List ℕ) {freqLst' : List ℕ}
    {n : ℕ} (h : markLeakingChan n chWidth threshold nol freqLst = .success freqLst') :
    markLeakingChan n chWidth threshold (nol++nol') freqLst =
      markLeakingChan n chWidth threshold nol' freqLst' := by
  induction nol generalizing freqLst with
  | nil => rw [List.nil_append,Outcome.success.inj h]
  | cons f nol ih =>
    rw [markLeakingChan] at h
    rw [List.cons_append,markLeakingChan]
    cases hrow : findTargetChannel chWidth f with
    | none => simp [hrow] at h
    | some row =>
      cases hmark : markRow threshold freqLst row n with
      | none => simp [hrow,hmark] at h
      | some l =>
        simp only [hrow,hmark] at h ⊢
        exact ih h

theorem length_row {f : ℕ} {row : List LeakInfo}
    (hrow : findTargetChannel chWidth f = some row) : row.length = numColumns := by
  obtain ⟨m,hm,rfl⟩ := Option.map_eq_some_iff.mp hrow
  have hall : ∀ w : PhyChWidth,∀ m ∈ chanMatrix w,m.chanMatrix.length = numColumns := by
    intro w
    cases w <;> decide
  exact hall chWidth m (List.mem_of_find?_eq_some hm)

theorem numColumns_le_numChannel : numColumns ≤ numChannel band6Ghz dsrc := by
  cases band6Ghz <;> cases dsrc <;> decide

theorem exact_singleton_iff {f : ℕ} {row : List LeakInfo}
    (hrow : findTargetChannel chWidth f = some row) :
    Exact band6Ghz dsrc chWidth threshold [f] freqLst ↔
      Meets threshold (Leaks threshold row) (numChannel band6Ghz dsrc-numColumns) row freqLst := by
  have hlen : row.length+(numChannel band6Ghz dsrc-numColumns) = numChannel band6Ghz dsrc := by
    rw [length_row hrow]
    exact Nat.add_sub_cancel' numColumns_le_numChannel
  rw [← markRow_iff (fun col hcol hlvl => ⟨col,hcol,rfl,hlvl⟩),hlen,Exact,cleared_singleton hrow,
    markLeakingChan]
  simp only [hrow]
  cases markRow threshold freqLst row (numChannel band6Ghz dsrc) with
  | none => simp
  | some l => simp [markLeakingChan]

/-- After an exact beginning of the NOL, the marking is exact for one channel more just when
it is for this channel and the candidates left. -/
theorem exact_concat_iff (h : Exact band6Ghz dsrc chWidth threshold nol freqLst) (f : ℕ) :
    Exact band6Ghz dsrc chWidth threshold (nol++[f]) freqLst ↔
      Exact band6Ghz dsrc chWidth threshold [f] (cleared chWidth threshold nol freqLst) := by
  rw [Exact,Exact,cleared_append,markLeakingChan_append [f] h]

theorem clear_of_clear_append {nol' : List ℕ}
    (h : Clear band6Ghz dsrc chWidth threshold (nol++nol') freqLst) :
    Clear band6Ghz dsrc chWidth threshold nol freqLst := by
  intro pre f post hnol
  exact h pre f (post++nol') (by rw [hnol,List.append_assoc,List.cons_append])

theorem exact_of_clear (hnol : ∀ f ∈ nol,(findTargetChannel chWidth f).isSome)
    (h : Clear band6Ghz dsrc chWidth threshold nol freqLst) :
    Exact band6Ghz dsrc chWidth threshold nol freqLst := by
  induction nol using List.reverseRecOn with
  | nil => rw [Exact,cleared_nil,markLeakingChan]
  | append_singleton nol f ih =>
    have hexact := ih (fun f hf => hnol f (List.mem_append_left _ hf)) (clear_of_clear_append h)
    obtain ⟨row,hrow⟩ := Option.isSome_iff_exists.mp (hnol f (by simp))
    apply (exact_concat_iff hexact f).mpr
    apply (exact_singleton_iff hrow).mpr
    exact h nol f [] rfl row hrow

theorem clear_of_exact (h : ∀ pre,pre <+: nol → Exact band6Ghz dsrc chWidth threshold pre freqLst) :
    Clear band6Ghz dsrc chWidth threshold nol freqLst := by
  rintro pre f post rfl row hrow
  have hpre := h pre (List.prefix_append _ _)
  have hnext := h (pre++[f]) ⟨post,by rw [List.append_assoc,List.singleton_append]⟩
  exact (exact_singleton_iff hrow).mp ((exact_concat_iff hpre f).mp hnext)

end Marking

/-- The channels of the columns. -/
def columnFreqs : List ℕ :=
  [5180,5200,5220,5240,5260,5280,5300,5320,5500,5520,5540,5560,5580,5600,5620,5640,5660,5680,
    5700,5720]

/-- The candidates increase, but for those that are zero. -/
def Increasing (freqLst : List ℕ) : Prop :=
  freqLst.Pairwise fun a b => a ≠ 0 → b ≠ 0 → a < b

section Regular

variable {chWidth : PhyChWidth} {threshold : ℕ} {cols : List LeakInfo}

/-- A sorted row keeps the columns behind the one that is found. -/
theorem mem_tail_seek (hs : cols.Pairwise fun a b => a.leakChanFreq < b.leakChanFreq) {b : ℕ}
    (hb : b ∈ cols.map (·.leakChanFreq)) {col : LeakInfo} (hcol : col ∈ cols)
    (hlt : b < col.leakChanFreq) : col ∈ (seek b cols).tail := by
  induction cols with
  | nil => exact absurd hcol List.not_mem_nil
  | cons a cols ih =>
    rw [List.pairwise_cons] at hs
    by_cases ha : a.leakChanFreq = b
    · have hseek : seek b (a::cols) = a::cols := by simp [seek,ha]
      rw [hseek,List.tail_cons]
      rcases List.mem_cons.mp hcol with rfl | hcol
      · omega
      · exact hcol
    · have hseek : seek b (a::cols) = seek b cols := by simp [seek,ha]
      have hb' : b ∈ cols.map (·.leakChanFreq) := by
        rw [List.map_cons] at hb
        exact (List.mem_cons.mp hb).resolve_left (Ne.symm ha)
      obtain ⟨d,hd,rfl⟩ := List.mem_map.mp hb'
      have had := hs.1 d hd
      rw [hseek]
      rcases List.mem_cons.mp hcol with rfl | hcol
      · omega
      · exact ih hs.2 hb' hcol

theorem after_sublist (pre : List ℕ) : (after pre cols).Sublist cols := by
  induction pre generalizing cols with
  | nil => exact List.Sublist.refl _
  | cons b pre ih =>
    rw [after]
    split
    · exact ih
    · exact ih.trans ((List.tail_sublist _).trans (List.dropWhile_sublist _))

theorem mem_after (hs : cols.Pairwise fun a b => a.leakChanFreq < b.leakChanFreq)
    {pre : List ℕ} {col : LeakInfo} (hpre : Increasing pre)
    (hb : ∀ b ∈ pre,b ≠ 0 → b ∈ cols.map (·.leakChanFreq) ∧ b < col.leakChanFreq)
    (hcol : col ∈ cols) : col ∈ after pre cols := by
  induction pre generalizing cols with
  | nil => exact hcol
  | cons b pre ih =>
    obtain ⟨hhead,htail⟩ := List.pairwise_cons.mp hpre
    rw [after]
    split
    case isTrue => exact ih hs htail (fun b' hb' => hb b' (List.mem_cons_of_mem _ hb')) hcol
    case isFalse h0 =>
      obtain ⟨hmem,hlt⟩ := hb b List.mem_cons_self h0
      apply ih (hs.sublist ((List.tail_sublist _).trans (List.dropWhile_sublist _))) htail _
        (mem_tail_seek hs hmem hcol hlt)
      intro b' hb' h0'
      obtain ⟨hmem',hlt'⟩ := hb b' (List.mem_cons_of_mem _ hb') h0'
      obtain ⟨d,hd,rfl⟩ := List.mem_map.mp hmem'
      have hd' := mem_tail_seek hs hmem hd (hhead _ hb' h0 h0')
      exact ⟨List.mem_map_of_mem hd',hlt'⟩

/-- On a row with a column for each channel in order, the merge finds that of every candidate. -/
theorem found_of_regular (hrow : cols.map (·.leakChanFreq) = columnFreqs) {pre post : List ℕ}
    {col : LeakInfo} (hcol : col ∈ cols) (hinc : Increasing (pre++col.leakChanFreq::post))
    (hmem : ∀ b ∈ pre,b = 0 ∨ b ∈ columnFreqs) (h0 : col.leakChanFreq ≠ 0) :
    found pre col.leakChanFreq cols = some col := by
  have hs : cols.Pairwise fun a b => a.leakChanFreq < b.leakChanFreq := by
    have hh : columnFreqs.Pairwise (· < ·) := by decide
    rw [← hrow] at hh
    exact List.pairwise_map.mp hh
  obtain ⟨hpre,-,hlt⟩ := List.pairwise_append.mp hinc
  have hafter : col ∈ after pre cols := by
    apply mem_after hs hpre _ hcol
    intro b hb hb0
    rw [hrow]
    exact ⟨(hmem b hb).resolve_left hb0,hlt b hb _ List.mem_cons_self hb0 h0⟩
  rw [found]
  cases hhead : (seek col.leakChanFreq (after pre cols)).head? with
  | none =>
    have hnone := List.dropWhile_eq_nil_iff.mp (List.head?_eq_none_iff.mp hhead) col hafter
    simp at hnone
  | some d =>
    obtain ⟨hd,hfreq⟩ := mem_of_mem_head? (Option.mem_def.mpr hhead)
    have hnd : (cols.map (·.leakChanFreq)).Nodup := by
      rw [hrow]
      decide
    rw [List.inj_on_of_nodup_map hnd ((after_sublist pre).subset hd) hcol hfreq]

theorem increasing_cleared (chWidth : PhyChWidth) (threshold : ℕ) {freqLst : List ℕ} (h : Increasing freqLst) (nol : List ℕ) :
    Increasing (cleared chWidth threshold nol freqLst) := by
  rw [Increasing,cleared,List.pairwise_map]
  apply h.imp
  intro a b hlt ha hb
  have ha' := ite_ne_left_iff.mp ha
  have hb' := ite_ne_left_iff.mp hb
  rw [if_neg ha'.1,if_neg hb'.1]
  exact hlt (Ne.symm ha'.2) (Ne.symm hb'.2)

theorem mem_cleared {freqLst nol : List ℕ} {c : ℕ}
    (hc : c ∈ cleared chWidth threshold nol freqLst) : c = 0 ∨ c ∈ freqLst := by
  obtain ⟨b,hb,rfl⟩ := List.mem_map.mp hc
  split
  · exact Or.inl rfl
  · exact Or.inr hb

/-- Where the row of every channel of the NOL has a column for each channel in order, the
marking is exact for increasing candidates of these. -/
theorem exact_of_regular (band6Ghz dsrc : Bool) {nol freqLst : List ℕ}
    (hnol : ∀ f ∈ nol,∃ row ∈ findTargetChannel chWidth f,
      row.map (·.leakChanFreq) = columnFreqs)
    (hmem : ∀ c ∈ freqLst,c = 0 ∨ c ∈ columnFreqs) (hinc : Increasing freqLst) :
    Exact band6Ghz dsrc chWidth threshold nol freqLst := by
  apply exact_of_clear
  · intro f hf
    obtain ⟨row,hrow,-⟩ := hnol f hf
    exact Option.isSome_iff_exists.mpr ⟨row,hrow⟩
  · rintro pre f post rfl row hrow bs c cs hcs hc
    obtain ⟨row',hrow',hreg⟩ := hnol f (by simp)
    obtain rfl : row = row' := Option.some.inj (Eq.trans (Eq.symm hrow) hrow')
    have hall : ∀ b ∈ bs++c::cs,b = 0 ∨ b ∈ columnFreqs := by
      intro b hb
      rw [← hcs] at hb
      rcases mem_cleared hb with h0 | hb
      · exact Or.inl h0
      · exact hmem b hb
    have hinc' := increasing_cleared chWidth threshold hinc pre
    rw [hcs] at hinc'
    have hcol : ∀ col ∈ row,col.leakChanFreq = c → found bs c row = some col := by
      rintro col hcol rfl
      exact found_of_regular hreg hcol hinc' (fun b hb => hall b (List.mem_append_left _ hb)) hc
    have hmemc : c ∈ row.map (·.leakChanFreq) := by
      rw [hreg]
      exact (hall c (by simp)).resolve_left hc
    obtain ⟨col,hcolm,hfreq⟩ := List.mem_map.mp hmemc
    refine ⟨fun _ => ?_,fun hl => ?_⟩
    · rw [hcol col hcolm hfreq]
      exact Option.some_ne_none col
    · obtain ⟨d,hd,hdfreq,hlvl⟩ := hl
      exact ⟨d,hcol d hd hdfreq,hlvl⟩

/-- The rows that lack a column are those of 5260, 5700 and 5720 for 80 MHz. -/
theorem regular_iff : ∀ m ∈ chanMatrix chWidth,
    m.chanMatrix.map (·.leakChanFreq) = columnFreqs ↔
      ¬ (chWidth = .mhz80 ∧ m.channelFreq ∈ [5260,5700,5720]) := by
  cases chWidth <;> decide

/-- For increasing candidates among the columns the marking is exact, except at 80 MHz with 5260,
5700 or 5720 in the NOL. -/
theorem exact_unless_short (band6Ghz dsrc : Bool) {nol freqLst : List ℕ}
    (hnol : ∀ f ∈ nol,(findTargetChannel chWidth f).isSome)
    (hrows : chWidth = .mhz80 → ∀ f ∈ nol,f ∉ [5260,5700,5720])
    (hmem : ∀ c ∈ freqLst,c = 0 ∨ c ∈ columnFreqs) (hinc : Increasing freqLst) :
    Exact band6Ghz dsrc chWidth threshold nol freqLst := by
  refine exact_of_regular band6Ghz dsrc (fun f hf => ?_) hmem hinc
  obtain ⟨row,hrow⟩ := Option.isSome_iff_exists.mp (hnol f hf)
  obtain ⟨m,hm,rfl⟩ := Option.map_eq_some_iff.mp hrow
  have hfreq : f = m.channelFreq := by simpa using List.find?_some hm
  refine ⟨_,hrow,(regular_iff m (List.mem_of_find?_eq_some hm)).mpr ?_⟩
  rintro ⟨hwidth,hshort⟩
  exact hrows hwidth f hf (hfreq ▸ hshort)

theorem exact_unless_short_5300 : Exact false false .mhz80 200 [5300,5500] [5180,0,5240,5500] :=
  exact_unless_short false false (by decide) (by decide) (by decide) (by simp [Increasing])

end Regular

/-- The marking is exact for a NOL and for each of its beginnings exactly when, channel by
channel, the merge finds the column of each candidate that leaks, and no candidate is without a
column where more channels are counted than there are columns. -/
theorem exact_iff (band6Ghz dsrc : Bool) (chWidth : PhyChWidth) (threshold : ℕ)
    (nol freqLst : List ℕ) (hnol : ∀ f ∈ nol,(findTargetChannel chWidth f).isSome) :
    (∀ pre,pre <+: nol → Exact band6Ghz dsrc chWidth threshold pre freqLst) ↔
      Clear band6Ghz dsrc chWidth threshold nol freqLst := by
  refine ⟨clear_of_exact,?_⟩
  rintro h pre ⟨post,rfl⟩
  exact exact_of_clear (fun f hf => hnol f (List.mem_append_left _ hf)) (clear_of_clear_append h)

theorem exact_iff_5260 : (∀ f ∈ [5260],(findTargetChannel .mhz80 f).isSome) ∧
    ((∀ pre,pre <+: [5260] → Exact false false .mhz80 200 pre [5180,0,5240]) ↔
      Clear false false .mhz80 200 [5260] [5180,0,5240]) := by
  have hnol : ∀ f ∈ [5260],(findTargetChannel .mhz80 f).isSome := by decide
  exact ⟨hnol,exact_iff false false .mhz80 200 [5260] [5180,0,5240] hnol⟩

/-- The row of 5260 for 80 MHz has no column for 5220, so 5240 behind it is not looked at. -/
theorem exact_5220 : ¬ ∀ (band6Ghz dsrc : Bool) (chWidth : PhyChWidth) (threshold : ℕ)
    (nol freqLst : List ℕ),(∀ f ∈ nol,(findTargetChannel chWidth f).isSome) →
    (∀ c ∈ freqLst,c = 0 ∨ c ∈ columnFreqs) → Increasing freqLst →
    Exact band6Ghz dsrc chWidth threshold nol freqLst := by
  intro h
  have hexact := h false false .mhz80 200 [5260] [5220,5240] (by decide) (by decide)
    (by simp [Increasing])
  obtain ⟨row,hrow⟩ := Option.isSome_iff_exists.mp
    (show (findTargetChannel .mhz80 5260).isSome by decide)
  have hmeets := (exact_singleton_iff hrow).mp hexact
  obtain ⟨hin,hleak⟩ := hmeets [5220] 5240 [] rfl (by decide)
  rw [show row = _ from (Option.some.inj hrow).symm] at hleak
  exact absurd (hleak (by decide)) (by decide)

end DfsLeakage
end MarbleModules
