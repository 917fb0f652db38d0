import Mathlib.Data.List.Induction
import Mathlib.Order.Basic
import Mathlib.Data.Nat.Basic

/-! One pass over a list that remembers the best value so far, with 0 for none. -/
namespace MarbleModules
namespace ScanFold

variable {α κ : Type*} (p : α → Prop) [DecidablePred p] (d : α → ℕ) (key : α → κ)

/-- The key and the value of the last element that was better than the one before. -/
def scan (better : ℕ → ℕ → Bool) (l : List α) : Option κ × ℕ :=
  l.foldl (fun acc e => if p e ∧ better (d e) acc.2 then (some (key e),d e) else acc) (none,0)

/-- Strictly greater is better. -/
def greater (cur best : ℕ) : Bool := best < cur

/-- Strictly less is better, and anything is better than 0. -/
def lessOrFirst (cur best : ℕ) : Bool := best = 0 ∨ cur < best

variable {p d key} {better : ℕ → ℕ → Bool}

theorem scan_concat (l : List α) (e : α) :
    scan p d key better (l++[e]) =
      if p e ∧ better (d e) (scan p d key better l).2 then (some (key e),d e)
      else scan p d key better l := by
  rw [scan,List.foldl_append]
  rfl

/-- The scan for the greatest value finds it unless all values are 0. -/
theorem scan_greater (l : List α) :
    (scan p d key greater l = (none,0) ∧ ∀ e ∈ l,p e → d e = 0) ∨
      ∃ v ∈ l,p v ∧ scan p d key greater l = (some (key v),d v) ∧ ∀ e ∈ l,p e → d e ≤ d v := by
  induction l using List.reverseRecOn with
  | nil => exact Or.inl ⟨rfl,by simp⟩
  | append_singleton l e ih =>
    rw [scan_concat]
    by_cases hp : p e
    swap
    · rw [if_neg fun h => hp h.1]
      rcases ih with ⟨hs,hz⟩ | ⟨v,hv,hpv,hs,hle⟩
      · refine Or.inl ⟨hs,fun x hx hpx => ?_⟩
        rcases List.mem_append.mp hx with hx | hx
        · exact hz x hx hpx
        · rw [List.mem_singleton.mp hx] at hpx
          exact absurd hpx hp
      · refine Or.inr ⟨v,List.mem_append_left _ hv,hpv,hs,fun x hx hpx => ?_⟩
        rcases List.mem_append.mp hx with hx | hx
        · exact hle x hx hpx
        · rw [List.mem_singleton.mp hx] at hpx
          exact absurd hpx hp
    · have hmem : e ∈ l++[e] := by simp
      rcases ih with ⟨hs,hz⟩ | ⟨v,hv,hpv,hs,hle⟩
      · rw [hs]
        by_cases hd : 0 < d e
        · rw [if_pos ⟨hp,by simpa [greater] using hd⟩]
          refine Or.inr ⟨e,hmem,hp,rfl,fun x hx hpx => ?_⟩
          rcases List.mem_append.mp hx with hx | hx
          · rw [hz x hx hpx]
            exact Nat.zero_le _
          · rw [List.mem_singleton.mp hx]
        · rw [if_neg fun h => hd (by simpa [greater] using h.2)]
          refine Or.inl ⟨rfl,fun x hx hpx => ?_⟩
          rcases List.mem_append.mp hx with hx | hx
          · exact hz x hx hpx
          · rw [List.mem_singleton.mp hx]
            omega
      · rw [hs]
        by_cases hd : d v < d e
        · rw [if_pos ⟨hp,by simpa [greater] using hd⟩]
          refine Or.inr ⟨e,hmem,hp,rfl,fun x hx hpx => ?_⟩
          rcases List.mem_append.mp hx with hx | hx
          · exact (hle x hx hpx).trans hd.le
          · rw [List.mem_singleton.mp hx]
        · rw [if_neg fun h => hd (by simpa [greater] using h.2)]
          refine Or.inr ⟨v,List.mem_append_left _ hv,hpv,rfl,fun x hx hpx => ?_⟩
          rcases List.mem_append.mp hx with hx | hx
          · exact hle x hx hpx
          · rw [List.mem_singleton.mp hx]
            omega

/-- The scan for the least value finds some element. -/
theorem scan_less_mem (l : List α) :
    (scan p d key lessOrFirst l = (none,0) ∧ ∀ e ∈ l,¬ p e) ∨
      ∃ v ∈ l,p v ∧ scan p d key lessOrFirst l = (some (key v),d v) := by
  induction l using List.reverseRecOn with
  | nil => exact Or.inl ⟨rfl,by simp⟩
  | append_singleton l e ih =>
    rw [scan_concat]
    by_cases hc : p e ∧ lessOrFirst (d e) (scan p d key lessOrFirst l).2
    · rw [if_pos hc]
      exact Or.inr ⟨e,by simp,hc.1,rfl⟩
    · rw [if_neg hc]
      rcases ih with ⟨hs,hn⟩ | ⟨v,hv,hpv,hs⟩
      · refine Or.inl ⟨hs,fun x hx => ?_⟩
        rcases List.mem_append.mp hx with hx | hx
        · exact hn x hx
        · rw [List.mem_singleton.mp hx]
          intro hp
          exact hc ⟨hp,by simp [hs,lessOrFirst]⟩
      · exact Or.inr ⟨v,List.mem_append_left _ hv,hpv,hs⟩

/-- Where no value is 0 it is the least one. -/
theorem scan_less_le (l : List α) (hne : ∀ e ∈ l,p e → d e ≠ 0) :
    ∀ e ∈ l,p e → (scan p d key lessOrFirst l).2 ≤ d e := by
  induction l using List.reverseRecOn with
  | nil => simp
  | append_singleton l e ih =>
    have hl : ∀ x ∈ l,p x → d x ≠ 0 := fun x hx => hne x (List.mem_append_left _ hx)
    have hih := ih hl
    intro x hx hpx
    rw [scan_concat]
    by_cases hc : p e ∧ lessOrFirst (d e) (scan p d key lessOrFirst l).2
    · rw [if_pos hc]
      rcases List.mem_append.mp hx with hx | hx
      · have hmem := @scan_less_mem α κ p _ d key l
        rcases hmem with ⟨_,hn⟩ | ⟨v,hv,hpv,hs⟩
        · exact absurd hpx (hn x hx)
        · have hlt : d v = 0 ∨ d e < d v := by simpa [hs,lessOrFirst] using hc.2
          have hle := hih x hx hpx
          rw [hs] at hle
          exact (hlt.resolve_left (hl v hv hpv)).le.trans hle
      · rw [List.mem_singleton.mp hx]
    · rw [if_neg hc]
      rcases List.mem_append.mp hx with hx | hx
      · exact hih x hx hpx
      · rw [List.mem_singleton.mp hx] at hpx ⊢
        by_contra hlt
        exact hc ⟨hpx,by simp [lessOrFirst]; omega⟩

/-- Where the last value is 0 it is 0. -/
theorem scan_less_zero {l₁ l₂ : List α} {e : α} (hp : p e) (hd : d e = 0)
    (hlast : ∀ x ∈ l₂,¬ p x) : (scan p d key lessOrFirst (l₁++e::l₂)).2 = 0 := by
  have hkeep : ∀ l,(∀ x ∈ l,¬ p x) →
      scan p d key lessOrFirst ((l₁++[e])++l) = scan p d key lessOrFirst (l₁++[e]) := by
    intro l
    induction l using List.reverseRecOn with
    | nil => simp
    | append_singleton l x ih =>
      intro hl
      rw [← List.append_assoc,scan_concat,if_neg fun h => hl x (by simp) h.1]
      exact ih fun y hy => hl y (List.mem_append_left _ hy)
  have hsplit : l₁++e::l₂ = (l₁++[e])++l₂ := by simp
  rw [hsplit,hkeep l₂ hlast,scan_concat]
  split
  · exact hd
  · rename_i hc
    by_contra hne
    exact hc ⟨hp,by simp [lessOrFirst,hd]; omega⟩

end ScanFold
end MarbleModules
