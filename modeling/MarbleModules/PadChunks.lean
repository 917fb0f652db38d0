import Mathlib.Data.List.Basic
import Mathlib.Tactic.Ring

/-! Lists cut or filled up to a length, and lists that are put together from pieces of one length. -/
namespace MarbleModules
namespace PadChunks

variable {α β : Type*}

/-- The first `n` elements, filled up with `z`. -/
def padTo (z : α) (n : ℕ) (l : List α) : List α := (l++List.replicate n z).take n

/-- A longer list is cut. -/
theorem padTo_of_le {z : α} {n : ℕ} {l : List α} (h : n ≤ l.length) : padTo z n l = l.take n :=
  List.take_append_of_le_length h

/-- A shorter list is filled up. -/
theorem padTo_of_ge {z : α} {n : ℕ} {l : List α} (h : l.length ≤ n) :
    padTo z n l = l++List.replicate (n-l.length) z := by
  rw [padTo,List.take_append,List.take_of_length_le h,List.take_replicate,Nat.min_eq_left]
  omega

theorem length_flatMap_of_length {f : α → List β} {n : ℕ} (h : ∀ a,(f a).length = n)
    (l : List α) : (l.flatMap f).length = l.length*n := by
  induction l with
  | nil => simp
  | cons a l ih =>
    rw [List.flatMap_cons,List.length_append,h,ih,List.length_cons]
    ring

/-- Piece `i` stands at `i` times the length of a piece. -/
theorem take_drop_flatMap {f : α → List β} {n : ℕ} (h : ∀ a,(f a).length = n) {l : List α} {i : ℕ}
    {a : α} (ha : l[i]? = some a) : ((l.flatMap f).drop (i*n)).take n = f a := by
  induction l generalizing i with
  | nil => cases ha
  | cons b l ih =>
    rw [List.flatMap_cons]
    cases i with
    | zero =>
      obtain rfl : b = a := by simpa using ha
      rw [Nat.zero_mul,List.drop_zero,List.take_append_of_le_length (h b).ge,
        List.take_of_length_le (h b).le]
    | succ i =>
      rw [List.getElem?_cons_succ] at ha
      have hsum : (i+1)*n = (f b).length+i*n := by rw [h]; ring
      rw [hsum,List.drop_length_add_append]
      exact ih ha

end PadChunks
end MarbleModules
