import Mathlib.Data.List.Perm.Basic
import MarbleModules.Runs

/-! Calls in progress that share a store: each call is a stack of frames, a step runs the top
frame of one call. Invariants speak of the store and of the frames in any order. Nothing here
names a particular system. -/
namespace MarbleModules
namespace Stacks

variable {δ φ : Type*}

/-- The store and one stack of frames for each call, the innermost frame first. -/
structure State (δ φ : Type*) where
  store : δ
  calls : List (List φ)

/-- The frames of all calls -/
def frames (s : State δ φ) : List φ := s.calls.flatten

/-- A new call has changed the store and left frames to be run. -/
def start (s : State δ φ) (r : δ × List φ) : State δ φ := ⟨r.1,s.calls ++ [r.2]⟩

/-- Run the top frame of a call; it is replaced by the frames it leaves. -/
def advance (run : δ → φ → δ × List φ) (s : State δ φ) (i : ℕ) : State δ φ :=
  match s.calls[i]? with
  | some (f::rest) => ⟨(run s.store f).1,s.calls.set i ((run s.store f).2 ++ rest)⟩
  | _ => s

/-- The frame on top of the call -/
def top (s : State δ φ) (i : ℕ) : Option φ := s.calls[i]?.bind List.head?

theorem start_frames (s : State δ φ) (r : δ × List φ) :
    (frames (start s r)).Perm (r.2 ++ frames s) := by
  simpa [frames,start] using List.perm_append_comm

theorem set_flatten {l : List (List φ)} {i : ℕ} {x y : List φ} (h : l[i]? = some x) :
    ∃ F, l.flatten.Perm (x ++ F) ∧ (l.set i y).flatten.Perm (y ++ F) := by
  induction l generalizing i with
  | nil => cases h
  | cons z l ih =>
    cases i with
    | zero =>
      cases h
      exact ⟨l.flatten,List.Perm.refl _,List.Perm.refl _⟩
    | succ i =>
      obtain ⟨F,h₁,h₂⟩ := ih (i := i) h
      refine ⟨z ++ F,?_,?_⟩
      · exact (h₁.append_left z).trans (List.perm_append_comm_assoc z x F)
      · exact (h₂.append_left z).trans (List.perm_append_comm_assoc z y F)

section Rules

variable {I : δ → List φ → Prop} (hperm : ∀ d F F', F.Perm F' → I d F → I d F')
include hperm

/-- What the new frames and the new store keep, a new call keeps. -/
theorem start_rule {s : State δ φ} {r : δ × List φ} (h : I r.1 (r.2 ++ frames s)) :
    I (start s r).store (frames (start s r)) :=
  hperm _ _ _ (start_frames s r).symm h

/-- What running a frame keeps among any other frames, a step keeps. -/
theorem advance_rule {run : δ → φ → δ × List φ} {s : State δ φ} {i : ℕ}
    (hrun : ∀ f F, top s i = some f → (frames s).Perm (f::F) → I s.store (f::F) →
      I (run s.store f).1 ((run s.store f).2 ++ F))
    (h : I s.store (frames s)) : I (advance run s i).store (frames (advance run s i)) := by
  rw [advance]
  cases hc : s.calls[i]? with
  | none => exact h
  | some stack =>
    cases stack with
    | nil => exact h
    | cons f rest =>
      obtain ⟨F,h₁,h₂⟩ := set_flatten (y := (run s.store f).2 ++ rest) hc
      have hh := hrun f (rest ++ F) (by rw [top,hc]; rfl) h₁ (hperm _ _ _ h₁ h)
      refine hperm _ _ _ ?_ hh
      rw [← List.append_assoc]
      exact h₂.symm

end Rules

end Stacks
end MarbleModules
