import Mathlib.Data.Nat.ModEq
import Mathlib.Logic.Function.Basic
import Mathlib.Tactic

/-!
A window of an unbounded sequence, kept in a ring of `n` slots: position `i` of the sequence
lives in slot `i % n`. A window of at most `n` positions never meets itself, so what is written
at its end leaves the rest of it alone, and the slots of its two ends determine its length as
long as it is not full. Nothing here names a particular ring.
-/
namespace MarbleModules
namespace RingWindow

variable {α β : Type*} {n lo hi i j : ℕ}

/-- The number of steps forward from one slot to another. -/
def dist (n a b : ℕ) : ℕ := (b+(n-a))%n

theorem dist_lt (hn : 0 < n) (a b : ℕ) : dist n a b < n := Nat.mod_lt _ hn

/-- Two positions less than a ring apart that share a slot are one. -/
theorem slot_inj (hij : i ≤ j) (hlt : j < i+n) (h : i%n = j%n) : i = j := by
  have hd : n ∣ j-i := (Nat.modEq_iff_dvd' hij).mp h
  have hz : j-i = 0 := Nat.eq_zero_of_dvd_of_lt hd (by omega)
  omega

theorem slot_ne (hij : i < j) (hlt : j < i+n) : i%n ≠ j%n :=
  fun h => absurd (slot_inj (le_of_lt hij) hlt h) (ne_of_lt hij)

/-- The slots of a window's ends tell its length. -/
theorem dist_slots (hn : 0 < n) (hle : lo ≤ hi) (hlt : hi < lo+n) :
    dist n (lo%n) (hi%n) = hi-lo := by
  have hlo : lo%n < n := Nat.mod_lt _ hn
  have h1 : (hi%n+(n-lo%n)) ≡ (hi-lo) [MOD n] := by
    have h2 : hi%n+(n-lo%n)+lo%n ≡ hi-lo+lo%n [MOD n] := by
      have h3 : hi%n+(n-lo%n)+lo%n = hi%n+n := by omega
      rw [h3]
      have h4 : hi-lo+lo%n ≡ hi-lo+lo [MOD n] := Nat.ModEq.add_left _ (Nat.mod_modEq lo n)
      have h5 : hi-lo+lo = hi := by omega
      rw [h5] at h4
      have h6 : hi%n+n ≡ hi [MOD n] := by
        have h7 := (Nat.mod_modEq hi n).add (Nat.modEq_zero_iff_dvd.mpr (dvd_refl n))
        exact h7
      exact h6.trans h4.symm
    exact Nat.ModEq.add_right_cancel' _ h2
  have h8 : (hi-lo)%n = hi-lo := Nat.mod_eq_of_lt (by omega)
  rw [dist,← h8]
  exact h1

theorem dist_eq_of_le {a b : ℕ} (hab : a ≤ b) (hb : b < n) : dist n a b = b-a := by
  have h : b+(n-a) = b-a+n := by omega
  rw [dist,h,Nat.add_mod_right,Nat.mod_eq_of_lt (by omega)]

theorem dist_eq_of_lt {a b : ℕ} (hab : b < a) (ha : a ≤ n) : dist n a b = n-(a-b) := by
  have h : b+(n-a) = n-(a-b) := by omega
  rw [dist,h,Nat.mod_eq_of_lt (by omega)]

/-- The next slot, with the wrap at the end of the ring written out. -/
theorem slot_succ (hn : 0 < n) (i : ℕ) : (i+1)%n = if i%n+1 = n then 0 else i%n+1 := by
  have h := Nat.mod_lt i hn
  rw [Nat.add_mod]
  by_cases h1 : n = 1
  · subst h1
    simp [Nat.mod_one]
  rw [Nat.mod_eq_of_lt (by omega : 1 < n)]
  split_ifs with hw
  · rw [hw,Nat.mod_self]
  · exact Nat.mod_eq_of_lt (by omega)

/-- The slots hold what `R` allows for every position of the window. -/
def Holds (n : ℕ) (mem : ℕ → α) (R : ℕ → α → Prop) (lo hi : ℕ) : Prop :=
  ∀ i, lo ≤ i → i < hi → R i (mem (i%n))

namespace Holds

variable {mem : ℕ → α} {R S : ℕ → α → Prop}

theorem empty (n : ℕ) (mem : ℕ → α) (R : ℕ → α → Prop) (lo : ℕ) : Holds n mem R lo lo :=
  fun _ h h' => absurd h (not_le.mpr h')

/-- A part of the window still holds. -/
theorem mono {lo' hi' : ℕ} (h : Holds n mem R lo hi) (hlo : lo ≤ lo') (hhi : hi' ≤ hi) :
    Holds n mem R lo' hi' :=
  fun i hi1 hi2 => h i (le_trans hlo hi1) (lt_of_lt_of_le hi2 hhi)

theorem imp (h : Holds n mem R lo hi) (hRS : ∀ i a, lo ≤ i → i < hi → R i a → S i a) :
    Holds n mem S lo hi :=
  fun i hi1 hi2 => hRS i _ hi1 hi2 (h i hi1 hi2)

/-- Writing past the end of a window that is not full extends it. -/
theorem push (h : Holds n mem R lo hi) (hlt : hi < lo+n) {a : α} (ha : R hi a) :
    Holds n (Function.update mem (hi%n) a) R lo (hi+1) := by
  intro i hi1 hi2
  rcases Nat.lt_succ_iff_lt_or_eq.mp hi2 with hlt' | rfl
  · rw [Function.update_of_ne (slot_ne hlt' (by omega))]
    exact h i hi1 hlt'
  · rw [Function.update_self]
    exact ha

end Holds

end RingWindow
end MarbleModules
