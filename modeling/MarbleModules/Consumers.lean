import Mathlib.Data.List.Forall2
import Mathlib.Data.Nat.Notation

/-! Consumers: functions that take what they are for from the front of a list, and say so, or
fail. What they consume is described by a relation between values and texts. -/
namespace MarbleModules
namespace Consumers

variable {τ α : Type}

/-- What was consumed, if anything, and the cursor then. -/
abbrev Consume (τ α : Type) := List τ → Option α × List τ

/-- The consumer takes exactly the texts of `G`, given that `Ends` holds of what follows. -/
structure Reads (c : Consume τ α) (G : α → List τ → Prop) (Ends : List τ → Prop) : Prop where
  sound : ∀ {s a rest}, c s = (some a,rest) → ∃ text, G a text ∧ s = text++rest
  complete : ∀ {a text rest}, G a text → Ends rest → c (text++rest) = (some a,rest)

/-- One element that `f` takes. -/
def item (f : τ → Option α) : Consume τ α
  | [] => (none,[])
  | x::s =>
    match f x with
    | some a => (some a,s)
    | none => (none,x::s)

/-- The front of the list is no item. -/
def NoItem (f : τ → Option α) (s : List τ) : Prop := ∀ x ∈ s.head?, f x = none

theorem noItem_nil (f : τ → Option α) : NoItem f [] := by simp [NoItem]

@[simp] theorem noItem_cons (f : τ → Option α) (x : τ) (s : List τ) :
    NoItem f (x::s) ↔ f x = none := by simp [NoItem]

theorem item_of_noItem {f : τ → Option α} {s : List τ} (h : NoItem f s) :
    item f s = (none,s) := by
  cases s with
  | nil => rfl
  | cons x s => rw [item,(noItem_cons f x s).mp h]

theorem item_cons {f : τ → Option α} {x : τ} {a : α} (h : f x = some a) (s : List τ) :
    item f (x::s) = (some a,s) := by rw [item,h]

theorem item_cases (f : τ → Option α) (s : List τ) :
    NoItem f s ∨ ∃ x a t, s = x::t ∧ f x = some a := by
  cases s with
  | nil => exact Or.inl (noItem_nil f)
  | cons x s =>
    cases h : f x with
    | none => exact Or.inl ((noItem_cons f x s).mpr h)
    | some a => exact Or.inr ⟨x,a,s,rfl,h⟩

/-- Texts of `G` with `sep` between them. -/
inductive SepBy (sep : List τ) (G : α → List τ → Prop) : List α → List τ → Prop
  | nil : SepBy sep G [] []
  | one {a : α} {text : List τ} : G a text → SepBy sep G [a] text
  | cons {a b : α} {as : List α} {text s : List τ} :
      G a text → SepBy sep G (b::as) s → SepBy sep G (a::b::as) (text++(sep++s))

/-- Texts of `G` with `sep` before each. -/
inductive Each (sep : List τ) (G : α → List τ → Prop) : List α → List τ → Prop
  | nil : Each sep G [] []
  | cons {a : α} {as : List α} {text s : List τ} :
      G a text → Each sep G as s → Each sep G (a::as) (sep++(text++s))

theorem sepBy_cons_iff {sep : List τ} {G : α → List τ → Prop} {a : α} {as : List α}
    {s : List τ} : SepBy sep G (a::as) s ↔
      ∃ text t, G a text ∧ Each sep G as t ∧ s = text++t := by
  induction as generalizing a s with
  | nil =>
    constructor
    · rintro (_ | ha)
      exact ⟨s,[],ha,.nil,(List.append_nil s).symm⟩
    · rintro ⟨text,_,ha,⟨⟩,rfl⟩
      rw [List.append_nil]
      exact .one ha
  | cons b as ih =>
    constructor
    · rintro (_ | _ | ⟨ha,hs⟩)
      obtain ⟨text,t,hb,ht,rfl⟩ := ih.mp hs
      exact ⟨_,_,ha,.cons hb ht,rfl⟩
    · rintro ⟨text,_,ha,_ | ⟨hb,ht⟩,rfl⟩
      exact .cons ha (ih.mpr ⟨_,_,hb,ht,rfl⟩)

end Consumers
end MarbleModules
