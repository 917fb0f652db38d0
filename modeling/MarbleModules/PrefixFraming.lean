import Mathlib.Data.List.Infix
import Mathlib.Tactic

/-! Cutting a list into the complete frames at its front. What a frame is comes from a
size function that reads the head of the list; nothing here names a particular format. -/
namespace MarbleModules
namespace PrefixFraming

variable {α : Type*}

/-- A frame format: the size of the complete frame at the front of a list, if there is
one. A frame is not empty, is no longer than the list and is found by its own elements. -/
structure Framer (α : Type*) where
  size : List α → Option ℕ
  size_pos : ∀ {xs n}, size xs = some n → 0 < n
  size_le : ∀ {xs n}, size xs = some n → n ≤ xs.length
  size_take : ∀ {xs n}, size xs = some n → size (xs.take n) = some n
  size_append : ∀ {xs n} ys, size xs = some n → size (xs++ys) = some n

namespace Framer

variable (f : Framer α)

/-- The list is exactly one frame. -/
def IsFrame (xs : List α) : Prop := f.size xs = some xs.length

/-- The frames at the front of the list, cut off until none is complete. -/
def frames (xs : List α) : List (List α) :=
  match _h : f.size xs with
  | none => []
  | some n => xs.take n::frames (xs.drop n)
termination_by xs.length
decreasing_by
  have hp := f.size_pos _h
  have hl := f.size_le _h
  simp only [List.length_drop]
  omega

theorem frames_none {xs : List α} (h : f.size xs = none) : f.frames xs = [] := by
  rw [frames]
  split
  · rfl
  · simp_all

theorem frames_some {xs : List α} {n : ℕ} (h : f.size xs = some n) :
    f.frames xs = xs.take n::f.frames (xs.drop n) := by
  rw [frames]
  split
  · simp_all
  · rename_i m hm
    obtain rfl : m = n := Option.some.inj (hm.symm.trans h)
    rfl

theorem size_none_iff {xs : List α} :
    f.size xs = none ↔ ∀ ys, f.IsFrame ys → ¬ys <+: xs := by
  constructor
  · rintro h ys hy ⟨zs,rfl⟩
    simp [f.size_append zs hy] at h
  · intro h
    cases hs : f.size xs with
    | none => rfl
    | some n =>
      refine absurd (List.take_prefix n xs) (h _ ?_)
      unfold IsFrame
      rw [f.size_take hs,List.length_take,Nat.min_eq_left (f.size_le hs)]

theorem isFrame_of_mem {xs ys : List α} (hy : ys ∈ f.frames xs) : f.IsFrame ys := by
  induction xs using frames.induct f with
  | case1 xs h => simp [f.frames_none h] at hy
  | case2 xs n h ih =>
    rw [f.frames_some h,List.mem_cons] at hy
    rcases hy with rfl|hy
    · unfold IsFrame
      rw [f.size_take h,List.length_take,Nat.min_eq_left (f.size_le h)]
    · exact ih hy

/-- The frames are consecutive pieces from the front, and the first list position they
leave out is one where no complete frame begins. -/
theorem frames_partition (xs : List α) :
    ∃ rest, xs = (f.frames xs).flatten++rest ∧ ∀ ys, f.IsFrame ys → ¬ys <+: rest := by
  induction xs using frames.induct f with
  | case1 xs h => exact ⟨xs,by simp [f.frames_none h],f.size_none_iff.mp h⟩
  | case2 xs n h ih =>
    obtain ⟨rest,hr,hn⟩ := ih
    refine ⟨rest,?_,hn⟩
    rw [f.frames_some h,List.flatten_cons,List.append_assoc,← hr,List.take_append_drop]

end Framer
end PrefixFraming
end MarbleModules
