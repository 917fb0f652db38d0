import Mathlib.Data.Int.ModEq
import Mathlib.Algebra.BigOperators.Group.List.Basic
import Mathlib.Tactic

/-! One's-complement addition of words below a base `B`: the end-around carry, sums of lists
of words, and what becomes of a checksum when some of the words under it are replaced. -/
namespace MarbleModules
namespace OnesComplement

variable {B a x d : ℕ} {xs ys rest old new : List ℕ}

/-- Add two words and add a carry out of the top back in at the bottom. -/
def carryAdd (B a x : ℕ) : ℕ := if B ≤ a+x then a+x-B+1 else a+x

/-- The one's-complement sum of the words, from left to right. -/
def total (B : ℕ) (xs : List ℕ) : ℕ := xs.foldl (carryAdd B) 0

def complement (B x : ℕ) : ℕ := B-1-x

theorem carryAdd_lt (ha : a < B) (hx : x < B) : carryAdd B a x < B := by
  unfold carryAdd
  split_ifs with h
  · omega
  · omega

theorem carryAdd_modEq (B a x : ℕ) : (carryAdd B a x : ℤ) ≡ a+x [ZMOD B-1] := by
  unfold carryAdd
  split_ifs with h
  · rw [Int.modEq_iff_dvd]
    refine ⟨1,?_⟩
    push_cast [h]
    ring
  · push_cast
    rfl

theorem carryAdd_eq_zero_iff (hB : 0 < B) : carryAdd B a x = 0 ↔ a = 0 ∧ x = 0 := by
  rw [carryAdd]
  by_cases h : B ≤ a+x
  · rw [if_pos h]
    omega
  · rw [if_neg h]
    exact Nat.add_eq_zero_iff

theorem foldl_carryAdd_lt (ha : a < B) (hxs : ∀ x ∈ xs, x < B) :
    xs.foldl (carryAdd B) a < B := by
  induction xs generalizing a with
  | nil => exact ha
  | cons x xs ih =>
    exact ih (carryAdd_lt ha (hxs x (List.mem_cons_self ..)))
      fun y hy => hxs y (List.mem_cons_of_mem x hy)

theorem foldl_carryAdd_modEq (B a : ℕ) (xs : List ℕ) :
    ((xs.foldl (carryAdd B) a : ℕ) : ℤ) ≡ a+xs.sum [ZMOD B-1] := by
  induction xs generalizing a with
  | nil => simp
  | cons x xs ih =>
    calc ((xs.foldl (carryAdd B) (carryAdd B a x) : ℕ) : ℤ)
        ≡ carryAdd B a x+xs.sum [ZMOD B-1] := ih _
      _ ≡ a+x+xs.sum [ZMOD B-1] := (carryAdd_modEq B a x).add_right _
      _ = a+((x::xs).sum : ℕ) := by
        rw [List.sum_cons]
        push_cast
        ring

theorem foldl_carryAdd_eq_zero_iff (hB : 0 < B) :
    xs.foldl (carryAdd B) a = 0 ↔ a = 0 ∧ ∀ x ∈ xs, x = 0 := by
  induction xs generalizing a with
  | nil => simp
  | cons x xs ih =>
    rw [List.foldl_cons,ih,carryAdd_eq_zero_iff hB,List.forall_mem_cons,and_assoc]

theorem total_lt (hB : 0 < B) (hxs : ∀ x ∈ xs, x < B) : total B xs < B :=
  foldl_carryAdd_lt hB hxs

theorem total_modEq (B : ℕ) (xs : List ℕ) : (total B xs : ℤ) ≡ xs.sum [ZMOD B-1] := by
  have h := foldl_carryAdd_modEq B 0 xs
  rwa [Nat.cast_zero,zero_add] at h

/-- Only words that are all zero sum to the positive zero. -/
theorem total_eq_zero_iff (hB : 0 < B) : total B xs = 0 ↔ ∀ x ∈ xs, x = 0 := by
  rw [total,foldl_carryAdd_eq_zero_iff hB]
  exact and_iff_right rfl

/-- The sum is one of the two zeros. -/
def Zero (B s : ℕ) : Prop := s = 0 ∨ s = B-1

theorem zero_iff_modEq (hB : 1 < B) {s : ℕ} (hs : s < B) : Zero B s ↔ (s : ℤ) ≡ 0 [ZMOD B-1] := by
  have hcast : ((B : ℤ)-1) = ((B-1 : ℕ) : ℤ) := by
    push_cast [hB.le]
    rfl
  rw [hcast,Int.modEq_zero_iff_dvd,Int.natCast_dvd_natCast,Zero]
  constructor
  · rintro (rfl | rfl)
    · exact dvd_zero _
    · exact dvd_rfl
  · rintro ⟨k,rfl⟩
    rcases k with _ | _ | k
    · exact Or.inl rfl
    · exact Or.inr (by rw [zero_add,mul_one])
    · have hle : (B-1)*2 ≤ (B-1)*(k+1+1) := Nat.mul_le_mul_left _ (by omega)
      omega

theorem zero_total_iff (hB : 1 < B) (hxs : ∀ x ∈ xs, x < B) :
    Zero B (total B xs) ↔ (xs.sum : ℤ) ≡ 0 [ZMOD B-1] := by
  rw [zero_iff_modEq hB (total_lt (by omega) hxs)]
  exact ⟨(total_modEq B xs).symm.trans,(total_modEq B xs).trans⟩

theorem complement_modEq (hx : x < B) : (complement B x : ℤ) ≡ -x [ZMOD B-1] := by
  rw [Int.modEq_iff_dvd]
  refine ⟨-1,?_⟩
  have hle : x ≤ B-1 := by omega
  have hB : 1 ≤ B := by omega
  rw [complement]
  push_cast [hle,hB]
  ring

theorem complement_lt (hB : 0 < B) : complement B x < B := by
  unfold complement
  omega

/-- The checksum field for which the complement of the old one has been increased by `d`. -/
def adjust (B d c : ℕ) : ℕ := complement B (carryAdd B (complement B c) d)

theorem adjust_lt (hB : 0 < B) {c : ℕ} : adjust B d c < B := complement_lt hB

theorem adjust_modEq {c : ℕ} (hd : d < B) (hc : c < B) : (adjust B d c : ℤ) ≡ c-d [ZMOD B-1] := by
  have hlt : carryAdd B (complement B c) d < B := carryAdd_lt (complement_lt (by omega)) hd
  calc (adjust B d c : ℤ)
      ≡ -carryAdd B (complement B c) d [ZMOD B-1] := complement_modEq hlt
    _ ≡ -(complement B c+d) [ZMOD B-1] := (carryAdd_modEq B _ d).neg
    _ ≡ -(-c+d) [ZMOD B-1] := ((complement_modEq hc).add_right _).neg
    _ = c-d := by ring

/-- Words under a checksum are replaced, and the field is adjusted by the difference. -/
theorem replace_modEq {c : ℕ} (hd : d < B) (hc : c < B)
    (hdelta : (d : ℤ) ≡ new.sum-old.sum [ZMOD B-1]) (hxs : xs.Perm (old++c::rest))
    (hys : ys.Perm (new++adjust B d c::rest)) : (ys.sum : ℤ) ≡ xs.sum [ZMOD B-1] := by
  rw [hxs.sum_eq,hys.sum_eq,List.sum_append,List.sum_append,List.sum_cons,List.sum_cons]
  simp only [Nat.cast_add]
  calc (new.sum : ℤ)+(adjust B d c+rest.sum)
      ≡ new.sum+((c-d)+rest.sum) [ZMOD B-1] := ((adjust_modEq hd hc).add_right _).add_left _
    _ ≡ new.sum+((c-(new.sum-old.sum))+rest.sum) [ZMOD B-1] :=
      ((hdelta.sub_left _).add_right _).add_left _
    _ = old.sum+(c+rest.sum) := by ring

end OnesComplement
end MarbleModules
