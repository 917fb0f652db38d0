import Mathlib.Logic.Function.Basic
import Mathlib.Data.List.Nodup
import Mathlib.Tactic

/-! A region that is handed out in slots of a few sizes. It grows at its top, and a slot that
comes back waits in the free list of its bin for the next one who wants that size. -/
namespace MarbleModules
namespace BinArena

structure Slot where
  offset : ℕ
  bin : ℕ
  deriving DecidableEq

structure Arena where
  taken : List Slot
  free : ℕ → List Slot
  top : ℕ

namespace Arena

variable (size : ℕ → ℕ) {a : Arena} {b : ℕ} {s s' : Slot}

def grow (a : Arena) (b : ℕ) : Arena :=
  { a with taken := ⟨a.top,b⟩::a.taken, top := a.top+size b }

def reuse (a : Arena) (s : Slot) (rest : List Slot) : Arena :=
  { a with taken := s::a.taken, free := Function.update a.free s.bin rest }

def release (a : Arena) (s : Slot) : Arena :=
  { a with
    taken := a.taken.erase s
    free := Function.update a.free s.bin (s::a.free s.bin) }

@[simp] theorem free_reuse_self (rest : List Slot) : (a.reuse s rest).free s.bin = rest := by
  simp [reuse]

@[simp] theorem free_reuse_of_ne (rest : List Slot) (h : b ≠ s.bin) :
    (a.reuse s rest).free b = a.free b := by
  simp [reuse,h]

@[simp] theorem free_release_self : (a.release s).free s.bin = s::a.free s.bin := by
  simp [release]

@[simp] theorem free_release_of_ne (h : b ≠ s.bin) : (a.release s).free b = a.free b := by
  simp [release,h]

/-- The slot is in use or in the free list of its bin. -/
def Held (a : Arena) (s : Slot) : Prop := s ∈ a.taken ∨ s ∈ a.free s.bin

/-- Two slots have no place in common. -/
def Apart (s s' : Slot) : Prop :=
  s.offset+size s.bin ≤ s'.offset ∨ s'.offset+size s'.bin ≤ s.offset

/-- Each slot is in one list, below the top and apart from the others. -/
structure Sound (a : Arena) : Prop where
  nodup_taken : a.taken.Nodup
  nodup_free : ∀ b, (a.free b).Nodup
  bin_free : ∀ b, ∀ s ∈ a.free b, s.bin = b
  taken_free : ∀ s ∈ a.taken, s ∉ a.free s.bin
  below : ∀ s, a.Held s → s.offset+size s.bin ≤ a.top
  apart : ∀ s s', a.Held s → a.Held s' → s ≠ s' → Apart size s s'

variable {size}

theorem Apart.symm (h : Apart size s s') : Apart size s' s := Or.symm h

theorem held_grow : (a.grow size b).Held s ↔ s = ⟨a.top,b⟩ ∨ a.Held s := by
  simp [Held,grow,or_assoc]

theorem sound_grow (ha : Sound size a) (hpos : 0 < size b) : Sound size (a.grow size b) := by
  have hnew : ¬a.Held ⟨a.top,b⟩ := by
    intro h
    have : a.top+size b ≤ a.top := ha.below _ h
    omega
  refine ⟨?_,ha.nodup_free,ha.bin_free,?_,?_,?_⟩
  · exact List.nodup_cons.mpr ⟨fun h => hnew (Or.inl h),ha.nodup_taken⟩
  · intro s hs
    rcases List.mem_cons.mp hs with rfl | hs
    · exact fun h => hnew (Or.inr h)
    · exact ha.taken_free s hs
  · intro s hs
    rcases held_grow.mp hs with rfl | hs
    · exact le_refl _
    · exact (ha.below s hs).trans (Nat.le_add_right _ _)
  · intro s s' hs hs' hne
    rcases held_grow.mp hs with rfl | hs <;> rcases held_grow.mp hs' with rfl | hs'
    · exact absurd rfl hne
    · exact Or.inr (ha.below s' hs')
    · exact Or.inl (ha.below s hs)
    · exact ha.apart s s' hs hs' hne

/-- Slots that have only changed lists stay sound. -/
theorem sound_of_held {a' : Arena} (ha : Sound size a) (htop : a'.top = a.top)
    (hheld : ∀ s, a'.Held s → a.Held s) (hnodup : a'.taken.Nodup)
    (hnodup_free : ∀ b, (a'.free b).Nodup) (hbin : ∀ b, ∀ s ∈ a'.free b, s.bin = b)
    (hboth : ∀ s ∈ a'.taken, s ∉ a'.free s.bin) : Sound size a' :=
  ⟨hnodup,hnodup_free,hbin,hboth,fun s h => htop ▸ ha.below s (hheld s h),
    fun s s' h h' => ha.apart s s' (hheld s h) (hheld s' h')⟩

theorem sound_reuse {rest : List Slot} (ha : Sound size a) (hfree : a.free b = s::rest) :
    Sound size (a.reuse s rest) := by
  obtain rfl : s.bin = b := ha.bin_free b s (hfree ▸ List.mem_cons_self)
  have hnodup := ha.nodup_free s.bin
  rw [hfree,List.nodup_cons] at hnodup
  have hmem : ∀ c s', s' ∈ (a.reuse s rest).free c → s' ∈ a.free c := by
    intro c s' h
    rcases eq_or_ne c s.bin with rfl | hc
    · rw [free_reuse_self] at h
      exact hfree ▸ List.mem_cons_of_mem s h
    · rwa [free_reuse_of_ne rest hc] at h
  have hs : s ∈ a.free s.bin := hfree ▸ List.mem_cons_self
  refine sound_of_held ha rfl ?_ ?_ ?_ ?_ ?_
  · rintro s' (h | h)
    · rcases List.mem_cons.mp h with rfl | h
      · exact Or.inr hs
      · exact Or.inl h
    · exact Or.inr (hmem s'.bin s' h)
  · exact List.nodup_cons.mpr ⟨fun h => ha.taken_free s h hs,ha.nodup_taken⟩
  · intro c
    rcases eq_or_ne c s.bin with rfl | hc
    · rw [free_reuse_self]
      exact hnodup.2
    · rw [free_reuse_of_ne rest hc]
      exact ha.nodup_free c
  · exact fun c s' h => ha.bin_free c s' (hmem c s' h)
  · intro s' h
    rcases List.mem_cons.mp h with rfl | h
    · rw [free_reuse_self]
      exact hnodup.1
    · exact fun hfree' => ha.taken_free s' h (hmem _ _ hfree')

theorem sound_release (ha : Sound size a) (hs : s ∈ a.taken) : Sound size (a.release s) := by
  have hmem : ∀ c s', s' ∈ (a.release s).free c → (s' = s ∧ c = s.bin) ∨ s' ∈ a.free c := by
    intro c s' h
    rcases eq_or_ne c s.bin with rfl | hc
    · rw [free_release_self,List.mem_cons] at h
      exact h.imp (fun h => ⟨h,rfl⟩) id
    · rw [free_release_of_ne hc] at h
      exact Or.inr h
  refine sound_of_held ha rfl ?_ ?_ ?_ ?_ ?_
  · rintro s' (h | h)
    · exact Or.inl (List.mem_of_mem_erase h)
    · rcases hmem _ _ h with ⟨rfl,_⟩ | h
      · exact Or.inl hs
      · exact Or.inr h
  · exact ha.nodup_taken.erase s
  · intro c
    rcases eq_or_ne c s.bin with rfl | hc
    · rw [free_release_self,List.nodup_cons]
      exact ⟨ha.taken_free s hs,ha.nodup_free s.bin⟩
    · rw [free_release_of_ne hc]
      exact ha.nodup_free c
  · intro c s' h
    rcases hmem c s' h with ⟨rfl,rfl⟩ | h
    · rfl
    · exact ha.bin_free c s' h
  · intro s' h h'
    have hne : s' ≠ s := fun heq => (List.Nodup.not_mem_erase ha.nodup_taken) (heq ▸ h)
    rcases hmem _ _ h' with ⟨heq,_⟩ | h'
    · exact hne heq
    · exact ha.taken_free s' (List.mem_of_mem_erase h) h'

/-- Only some of the slots in use are kept. -/
theorem sound_keep {kept : List Slot} {top : ℕ} (ha : Sound size a) (hkept : kept.Sublist a.taken)
    (htop : ∀ s ∈ kept, s.offset+size s.bin ≤ top) : Sound size ⟨kept,fun _ => [],top⟩ := by
  have htaken : ∀ s, Held ⟨kept,fun _ => [],top⟩ s → s ∈ kept := fun s h =>
    h.elim id fun h => absurd h List.not_mem_nil
  refine ⟨ha.nodup_taken.sublist hkept,fun _ => List.nodup_nil,fun _ s h => ?_,
    fun s _ => List.not_mem_nil,fun s h => htop s (htaken s h),fun s s' h h' => ?_⟩
  · exact absurd h List.not_mem_nil
  · exact ha.apart s s' (Or.inl (hkept.subset (htaken s h))) (Or.inl (hkept.subset (htaken s' h')))

theorem sound_empty (top : ℕ) : Sound size ⟨[],fun _ => [],top⟩ := by
  refine ⟨List.nodup_nil,fun _ => List.nodup_nil,fun _ s h => absurd h List.not_mem_nil,
    fun s h => absurd h List.not_mem_nil,?_,?_⟩
  · rintro s (h | h) <;> exact absurd h List.not_mem_nil
  · rintro s s' (h | h) <;> exact absurd h List.not_mem_nil

end Arena
end BinArena
end MarbleModules
