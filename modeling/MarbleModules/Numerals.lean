import Mathlib.Data.Nat.Digits.Defs
import Mathlib.Data.Nat.ModEq
import Mathlib.Data.Nat.Notation

/-! Positional numerals read from their most significant digit, and an accumulator of bounded
size whose only check for overflow is that it does not drop. -/
namespace MarbleModules
namespace Numerals

/-- The value after the digits `ds` when `v` was read before them. -/
def readOn (r v : ℕ) (ds : List ℕ) : ℕ := ds.foldl (fun v d => v*r+d) v

/-- The value of a numeral. -/
def value (r : ℕ) (ds : List ℕ) : ℕ := readOn r 0 ds

@[simp] theorem readOn_nil (r v : ℕ) : readOn r v [] = v := rfl
@[simp] theorem readOn_cons (r v d : ℕ) (ds : List ℕ) :
    readOn r v (d::ds) = readOn r (v*r+d) ds := rfl

theorem readOn_eq (r v : ℕ) (ds : List ℕ) :
    readOn r v ds = v*r^ds.length+Nat.ofDigits r ds.reverse := by
  induction ds generalizing v with
  | nil => simp
  | cons d ds ih =>
    rw [readOn_cons,ih,List.reverse_cons,Nat.ofDigits_append,Nat.ofDigits_singleton,
      List.length_reverse,List.length_cons,pow_succ]
    ring

theorem value_eq_ofDigits (r : ℕ) (ds : List ℕ) : value r ds = Nat.ofDigits r ds.reverse := by
  rw [value,readOn_eq,zero_mul,zero_add]

theorem le_readOn {r : ℕ} (hr : 0 < r) (v : ℕ) (ds : List ℕ) : v ≤ readOn r v ds := by
  rw [readOn_eq]
  exact (Nat.le_mul_of_pos_right v (pow_pos hr _)).trans (Nat.le_add_right _ _)

theorem value_lt {r : ℕ} (hr : 1 < r) {ds : List ℕ} (hds : ∀ d ∈ ds, d < r) :
    value r ds < r^ds.length := by
  rw [value_eq_ofDigits,← List.length_reverse]
  exact Nat.ofDigits_lt_base_pow_length hr fun d hd => hds d (List.mem_reverse.mp hd)

/-- The accumulator modulo `m`: it gives up when a digit makes it drop. -/
def accumulate (m r : ℕ) : ℕ → List ℕ → Option ℕ
  | v,[] => some v
  | v,d::ds =>
    let next := (v*r+d) % m
    if next < v then none else accumulate m r next ds

/-- The running value modulo `m` never drops. -/
def Rising (m r v : ℕ) (ds : List ℕ) : Prop :=
  ∀ k < ds.length, readOn r v (ds.take k) % m ≤ readOn r v (ds.take (k+1)) % m

theorem rising_cons (m r v d : ℕ) (ds : List ℕ) :
    Rising m r v (d::ds) ↔ v % m ≤ (v*r+d) % m ∧ Rising m r (v*r+d) ds := by
  constructor
  · intro h
    refine ⟨by simpa using h 0 (by simp),fun k hk => ?_⟩
    simpa using h (k+1) (by simpa using hk)
  · rintro ⟨hstep,h⟩ k hk
    cases k with
    | zero => simpa using hstep
    | succ k => simpa using h k (by simpa using hk)

/-- The accumulator ends exactly when the running value never drops, and then it holds the value
modulo `m`. -/
theorem accumulate_eq_some_iff (m r v w : ℕ) (ds : List ℕ) :
    accumulate m r (v % m) ds = some w ↔ Rising m r v ds ∧ w = readOn r v ds % m := by
  induction ds generalizing v with
  | nil => simp [accumulate,Rising,eq_comm]
  | cons d ds ih =>
    have hnext : (v % m*r+d) % m = (v*r+d) % m := ((Nat.mod_modEq v m).mul_right r).add_right d
    rw [accumulate,rising_cons,readOn_cons,hnext]
    split_ifs with hdrop
    · simp [Nat.not_le.mpr hdrop]
    · rw [ih,and_assoc]
      simp [Nat.not_lt.mp hdrop]

/-- Below `m` nothing drops. -/
theorem rising_of_lt {m r v : ℕ} (hr : 0 < r) {ds : List ℕ} (h : readOn r v ds < m) :
    Rising m r v ds := by
  induction ds generalizing v with
  | nil => intro k hk; simp at hk
  | cons d ds ih =>
    rw [readOn_cons] at h
    have hnext : v*r+d < m := (le_readOn hr _ ds).trans_lt h
    have hle : v ≤ v*r+d := (Nat.le_mul_of_pos_right v hr).trans (Nat.le_add_right _ _)
    rw [rising_cons,Nat.mod_eq_of_lt hnext,Nat.mod_eq_of_lt (hle.trans_lt hnext)]
    exact ⟨hle,ih h⟩

theorem accumulate_exact {m r : ℕ} (hr : 0 < r) {ds : List ℕ} (h : value r ds < m) :
    accumulate m r 0 ds = some (value r ds) := by
  have hacc := (accumulate_eq_some_iff m r 0 (value r ds) ds).mpr
    ⟨rising_of_lt hr h,(Nat.mod_eq_of_lt h).symm⟩
  rwa [Nat.zero_mod] at hacc

end Numerals
end MarbleModules
