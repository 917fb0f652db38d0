import Mathlib.Logic.Function.Basic

/-! Writes to a memory in order: when they leave it as it was. -/
namespace MarbleModules
namespace Overwrites

variable {κ β : Type*} [DecidableEq κ]

/-- A memory after writes in order. -/
def writes (f : κ → β) (l : List (κ × β)) : κ → β :=
  l.foldl (fun f w => Function.update f w.1 w.2) f

/-- The last write to each place writes what is there. -/
def Restores (f : κ → β) (l : List (κ × β)) : Prop :=
  ∀ pre w post,l = pre++w::post → (∀ v ∈ post,v.1 ≠ w.1) → f w.1 = w.2

variable {f : κ → β} {l : List (κ × β)} {k : κ}

theorem writes_cons (w : κ × β) : writes f (w::l) = writes (Function.update f w.1 w.2) l := rfl

theorem writes_of_forall_ne (h : ∀ v ∈ l,v.1 ≠ k) : writes f l k = f k := by
  induction l generalizing f with
  | nil => rfl
  | cons w l ih =>
    rw [writes_cons,ih fun v hv => h v (List.mem_cons_of_mem w hv)]
    exact Function.update_of_ne (h w List.mem_cons_self).symm _ _

theorem writes_last (pre post : List (κ × β)) (w : κ × β) (h : ∀ v ∈ post,v.1 ≠ w.1) :
    writes f (pre++w::post) w.1 = w.2 := by
  have happ : writes f (pre++w::post) = writes (writes f pre) (w::post) := List.foldl_append
  rw [happ,writes_cons,writes_of_forall_ne h,Function.update_self]

/-- Each place written to has a last write. -/
theorem exists_last (h : ∃ v ∈ l,v.1 = k) :
    ∃ pre w post,l = pre++w::post ∧ w.1 = k ∧ ∀ v ∈ post,v.1 ≠ k := by
  induction l with
  | nil =>
    obtain ⟨v,hv,-⟩ := h
    exact absurd hv List.not_mem_nil
  | cons a l ih =>
    by_cases hl : ∃ v ∈ l,v.1 = k
    · obtain ⟨pre,w,post,rfl,hw,hpost⟩ := ih hl
      exact ⟨a::pre,w,post,rfl,hw,hpost⟩
    · obtain ⟨v,hv,hk⟩ := h
      rcases List.mem_cons.mp hv with rfl | hv
      · exact ⟨[],v,l,rfl,hk,fun u hu huk => hl ⟨u,hu,huk⟩⟩
      · exact absurd ⟨v,hv,hk⟩ hl

theorem writes_eq_iff : writes f l = f ↔ Restores f l := by
  constructor
  · rintro h pre w post rfl hpost
    rw [← writes_last pre post w hpost,h]
  · intro h
    funext k
    by_cases hk : ∃ v ∈ l,v.1 = k
    · obtain ⟨pre,w,post,rfl,rfl,hpost⟩ := exists_last hk
      rw [writes_last pre post w hpost]
      exact (h pre w post rfl hpost).symm
    · exact writes_of_forall_ne fun v hv hvk => hk ⟨v,hv,hvk⟩

end Overwrites
end MarbleModules
