import Mathlib.Data.List.Basic
import MarbleModules.DfsLeakTable

/-! The marking of channels that leak into a channel of the NOL. The candidates and the
columns of a table's row are merged with two pointers, on the assumption that both increase. -/
namespace MarbleModules
namespace DfsLeakage

/-- `enum phy_ch_width` -/
inductive PhyChWidth
  | mhz20 | mhz40 | mhz80 | mhz160 | mhz80p80 | mhz5 | mhz10 | mhz320 | invalid | max
  deriving DecidableEq

/-- `END_CHAN_INDEX - START_CHAN_INDEX + 1`, by `CONFIG_BAND_6GHZ` and `WLAN_FEATURE_DSRC`:
with the 6 GHz band the channels up to 7115 are counted. -/
def numChannel : (band6Ghz dsrc : Bool) → ℕ
  | false,_ => numColumns
  | true,false => 88
  | true,true => 101

/-- The table for a width; others fall back to HT20. -/
def chanMatrix : PhyChWidth → List MatrixLeakInfo
  | .mhz40 => ht40Chan
  | .mhz80 => ht80Chan
  | _ => ht20Chan

/-- `dfs_find_target_channel_in_channel_matrix_for_freq` -/
def findTargetChannel (chWidth : PhyChWidth) (nolFreq : ℕ) : Option (List LeakInfo) :=
  ((chanMatrix chWidth).find? fun row => nolFreq = row.channelFreq).map (·.chanMatrix)

/-- The inner loop of `dfs_mark_leaking_chan_for_freq`, on the candidates from `j` on, the
columns from `k` on and the number of channels left from there; none when a column outside the
row is read. -/
def markRow (threshold : ℕ) : List ℕ → List LeakInfo → ℕ → Option (List ℕ)
  | [],_,_ => some []
  | c::cs,_,0 => some (c::cs)
  | c::cs,cols,n+1 =>
    if c = 0 then (markRow threshold cs cols (n+1)).map (0::·)
    else match cols with
      | [] => none
      | col::cols =>
        if col.leakChanFreq ≠ c then markRow threshold (c::cs) cols n
        else
          let c' := if col.leakLvl ≤ threshold then 0 else c
          (markRow threshold cs cols n).map (c'::·)

inductive Outcome
  | success (freqLst : List ℕ)
  | failure (freqLst : List ℕ)
  | outside
  deriving DecidableEq

/-- `dfs_mark_leaking_chan_for_freq` -/
def markLeakingChan (numChannel : ℕ) (chWidth : PhyChWidth) (threshold : ℕ) :
    List ℕ → List ℕ → Outcome
  | [],freqLst => .success freqLst
  | nolFreq::nol,freqLst =>
    match findTargetChannel chWidth nolFreq with
    | none => .failure freqLst
    | some row =>
      match markRow threshold freqLst row numChannel with
      | none => .outside
      | some freqLst => markLeakingChan numChannel chWidth threshold nol freqLst

section Row

variable (threshold : ℕ)

/-- The columns from the first for a frequency on. -/
def seek (c : ℕ) (cols : List LeakInfo) : List LeakInfo :=
  cols.dropWhile fun col => col.leakChanFreq ≠ c

/-- The columns left once the merge has passed some candidates. -/
def after : List ℕ → List LeakInfo → List LeakInfo
  | [],cols => cols
  | b::bs,cols => if b = 0 then after bs cols else after bs (seek b cols).tail

/-- The column that the merge finds for a candidate behind others. -/
def found (pre : List ℕ) (c : ℕ) (cols : List LeakInfo) : Option LeakInfo :=
  (seek c (after pre cols)).head?

/-- What becomes of a candidate for which a column was found, or none. -/
def marked (c : ℕ) (o : Option LeakInfo) : ℕ :=
  if ∃ col ∈ o,col.leakLvl ≤ threshold then 0 else c

theorem markRow_nil (cols : List LeakInfo) (n : ℕ) : markRow threshold [] cols n = some [] := by
  simp [markRow]

theorem markRow_zero (cs : List ℕ) (cols : List LeakInfo) :
    markRow threshold cs cols 0 = some cs := by
  cases cs <;> simp [markRow]

theorem markRow_zeroed (cs : List ℕ) (cols : List LeakInfo) (n : ℕ) :
    markRow threshold (0::cs) cols n = (markRow threshold cs cols n).map (0::·) := by
  cases n with
  | zero => rw [markRow_zero,markRow_zero,Option.map_some]
  | succ n =>
    rw [markRow.eq_def]
    simp

/-- With `e` more channels than columns, a candidate that has no column is read outside. -/
theorem markRow_cons {c : ℕ} (hc : c ≠ 0) (cs : List ℕ) (cols : List LeakInfo) (e : ℕ) :
    markRow threshold (c::cs) cols (cols.length+e) =
      if 0 < e ∧ (seek c cols).head? = none then none
      else (markRow threshold cs (seek c cols).tail ((seek c cols).tail.length+e)).map
        (marked threshold c (seek c cols).head?::·) := by
  induction cols with
  | nil =>
    cases e with
    | zero => simp [seek,markRow_zero,marked]
    | succ e => simp [seek,markRow,hc]
  | cons col cols ih =>
    have hlen : (col::cols).length+e = cols.length+e+1 := by
      rw [List.length_cons]
      omega
    rw [hlen,markRow,if_neg hc]
    by_cases hcol : col.leakChanFreq = c
    · have hseek : seek c (col::cols) = col::cols := by simp [seek,hcol]
      simp [hseek,hcol,marked]
    · have hseek : seek c (col::cols) = seek c cols := by simp [seek,hcol]
      simp only [hseek,hcol,ne_eq,not_false_eq_true,if_true]
      exact ih

/-- The merge treats each candidate of a list as it should: with more channels than columns it
finds one for each, and the column it finds for a candidate that leaks shows so. -/
def Meets (leaks : ℕ → Prop) (e : ℕ) (cols : List LeakInfo) (cs : List ℕ) : Prop :=
  ∀ pre c post,cs = pre++c::post → c ≠ 0 →
    (0 < e → found pre c cols ≠ none) ∧
      (leaks c → ∃ col ∈ found pre c cols,col.leakLvl ≤ threshold)

variable {threshold} {leaks : ℕ → Prop} {e : ℕ} {cols : List LeakInfo}

theorem meets_zeroed {cs : List ℕ} :
    Meets threshold leaks e cols (0::cs) ↔ Meets threshold leaks e cols cs := by
  constructor
  · intro h pre c post hcs hc
    have hh := h (0::pre) c post (by rw [hcs,List.cons_append]) hc
    simpa [found,after] using hh
  · intro h pre c post hcs hc
    cases pre with
    | nil => exact absurd (List.cons.inj hcs).1.symm hc
    | cons b pre =>
      obtain ⟨rfl,htl⟩ := List.cons.inj hcs
      simpa [found,after] using h pre c post htl hc

theorem meets_cons {c : ℕ} (hc : c ≠ 0) {cs : List ℕ} :
    Meets threshold leaks e cols (c::cs) ↔
      ((0 < e → (seek c cols).head? ≠ none) ∧
        (leaks c → ∃ col ∈ (seek c cols).head?,col.leakLvl ≤ threshold)) ∧
      Meets threshold leaks e (seek c cols).tail cs := by
  constructor
  · intro h
    refine ⟨h [] c cs rfl hc,fun pre c' post hcs hc' => ?_⟩
    have hh := h (c::pre) c' post (by rw [hcs,List.cons_append]) hc'
    simpa only [found,after,if_neg hc] using hh
  · rintro ⟨hhead,htail⟩ pre c' post hcs hc'
    cases pre with
    | nil =>
      obtain ⟨rfl,-⟩ := List.cons.inj hcs
      exact hhead
    | cons b pre =>
      obtain ⟨rfl,htl⟩ := List.cons.inj hcs
      simpa only [found,after,if_neg hc] using htail pre c' post htl hc'

theorem mem_of_mem_seek_tail {c : ℕ} {col : LeakInfo} (h : col ∈ (seek c cols).tail) :
    col ∈ cols :=
  (List.dropWhile_suffix _).subset (List.mem_of_mem_tail h)

theorem mem_of_mem_head? {c : ℕ} {col : LeakInfo} (h : col ∈ (seek c cols).head?) :
    col ∈ cols ∧ col.leakChanFreq = c := by
  have hmem := List.mem_of_mem_head? h
  refine ⟨(List.dropWhile_suffix _).subset hmem,?_⟩
  have hnot := List.head?_dropWhile_not (fun col : LeakInfo => decide (col.leakChanFreq ≠ c)) cols
  rw [Option.mem_def] at h
  simp only [seek] at h
  rw [h] at hnot
  simpa using hnot

/-- The merge turns exactly the candidates that leak to zero just when it meets each of them. -/
theorem markRow_iff [DecidablePred leaks]
    (hsound : ∀ col ∈ cols,col.leakLvl ≤ threshold → leaks col.leakChanFreq) (cs : List ℕ) :
    markRow threshold cs cols (cols.length+e) = some (cs.map fun c => if leaks c then 0 else c) ↔
      Meets threshold leaks e cols cs := by
  induction cs generalizing cols with
  | nil => simp [markRow_nil,Meets]
  | cons c cs ih =>
    by_cases hc : c = 0
    · subst hc
      rw [markRow_zeroed,meets_zeroed,← ih hsound]
      simp
    · rw [markRow_cons threshold hc,meets_cons hc,
        ← ih fun col hcol => hsound col (mem_of_mem_seek_tail hcol)]
      have hhead : marked threshold c (seek c cols).head? = (if leaks c then 0 else c) ↔
          (leaks c → ∃ col ∈ (seek c cols).head?,col.leakLvl ≤ threshold) := by
        by_cases hex : ∃ col ∈ (seek c cols).head?,col.leakLvl ≤ threshold
        · obtain ⟨col,hcol,hlvl⟩ := id hex
          obtain ⟨hmem,hfreq⟩ := mem_of_mem_head? hcol
          have hleaks : leaks c := hfreq ▸ hsound col hmem hlvl
          rw [marked,if_pos hex,if_pos hleaks]
          exact iff_of_true rfl fun _ => hex
        · rw [marked,if_neg hex]
          by_cases hleaks : leaks c
          · rw [if_pos hleaks]
            exact iff_of_false hc fun h => hex (h hleaks)
          · rw [if_neg hleaks]
            exact iff_of_true rfl fun h => absurd h hleaks
      by_cases hout : 0 < e ∧ (seek c cols).head? = none
      · rw [if_pos hout]
        exact iff_of_false (fun h => nomatch h) fun h => h.1.1 hout.1 hout.2
      · rw [if_neg hout,← hhead]
        have hin : 0 < e → (seek c cols).head? ≠ none := fun he hnone => hout ⟨he,hnone⟩
        cases markRow threshold cs (seek c cols).tail ((seek c cols).tail.length+e) with
        | none => simp
        | some l =>
          simp only [Option.map_some,List.map_cons,Option.some.injEq,List.cons.injEq]
          exact and_congr_left fun _ => (and_iff_right hin).symm

end Row

end DfsLeakage
end MarbleModules
