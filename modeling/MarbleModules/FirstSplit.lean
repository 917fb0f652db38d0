import Mathlib.Data.List.Basic
import Mathlib.Tactic

/-! A loop over a list that skips the elements without some property and stops at the first one
that has it. -/
namespace MarbleModules
namespace FirstSplit

variable {α : Type*}

/-- The first element with the property, between those before and those after it. -/
def split (p : α → Bool) : List α → Option (List α × α × List α)
  | [] => none
  | a::l => if p a then some ([],a,l) else (split p l).map fun r => (a::r.1,r.2)

variable {p : α → Bool} {l pre post : List α} {a : α}

theorem split_cons_of_neg (h : ¬p a) :
    split p (a::l) = (split p l).map fun r => (a::r.1,r.2) :=
  if_neg h

theorem split_some (h : split p l = some (pre,a,post)) :
    l = pre++a::post ∧ p a ∧ ∀ x ∈ pre,¬p x := by
  induction l generalizing pre with
  | nil => nomatch h
  | cons x l ih =>
    by_cases hx : p x
    · rw [split,if_pos hx] at h
      obtain ⟨rfl,rfl,rfl⟩ := h
      exact ⟨rfl,hx,nofun⟩
    · rw [split_cons_of_neg hx] at h
      obtain ⟨⟨pre',q⟩,hq,hh⟩ := Option.map_eq_some_iff.mp h
      obtain ⟨rfl,rfl⟩ := hh
      obtain ⟨rfl,ha,hpre⟩ := ih hq
      exact ⟨rfl,ha,List.forall_mem_cons.mpr ⟨hx,hpre⟩⟩

theorem split_none_iff : split p l = none ↔ ∀ x ∈ l,¬p x := by
  induction l with
  | nil => exact iff_of_true rfl nofun
  | cons x l ih =>
    rw [List.forall_mem_cons,← ih]
    by_cases hx : p x
    · rw [split,if_pos hx]
      exact iff_of_false nofun fun hh => hh.1 hx
    · rw [split_cons_of_neg hx,Option.map_eq_none_iff]
      exact ⟨fun hh => ⟨hx,hh⟩,And.right⟩

end FirstSplit
end MarbleModules
