import Mathlib.Data.List.Infix
import Mathlib.Tactic

/-! Runs of a deterministic step function, and the rules that carry a property of
one step to every state a run reaches. Nothing here names a particular system. -/
namespace MarbleModules
namespace Runs

variable {σ α : Type*}

/-- The state reached by executing the operations from left to right. -/
def run (step : σ → α → σ) (s : σ) (ops : List α) : σ := ops.foldl step s

@[simp] theorem run_nil (step : σ → α → σ) (s : σ) : run step s [] = s := rfl

@[simp] theorem run_cons (step : σ → α → σ) (s : σ) (a : α) (ops : List α) :
    run step s (a::ops) = run step (step s a) ops := rfl

theorem run_append (step : σ → α → σ) (s : σ) (ops ops' : List α) :
    run step s (ops++ops') = run step (run step s ops) ops' :=
  List.foldl_append

/-- Every operation of the run satisfies `C` in the state it is applied to. -/
def Guarded (step : σ → α → σ) (C : σ → α → Prop) : σ → List α → Prop
  | _, [] => True
  | s, a::ops => C s a ∧ Guarded step C (step s a) ops

@[simp] theorem guarded_nil (step : σ → α → σ) (C : σ → α → Prop) (s : σ) :
    Guarded step C s [] := trivial

@[simp] theorem guarded_cons (step : σ → α → σ) (C : σ → α → Prop) (s : σ) (a : α)
    (ops : List α) :
    Guarded step C s (a::ops) ↔ C s a ∧ Guarded step C (step s a) ops := Iff.rfl

theorem guarded_append (step : σ → α → σ) (C : σ → α → Prop) (s : σ) (ops ops' : List α) :
    Guarded step C s (ops++ops') ↔
      Guarded step C s ops ∧ Guarded step C (run step s ops) ops' := by
  induction ops generalizing s with
  | nil => simp
  | cons a ops ih => simp [ih,and_assoc]

instance decidableGuarded (step : σ → α → σ) (C : σ → α → Prop) [∀ s a, Decidable (C s a)] :
    ∀ s ops, Decidable (Guarded step C s ops)
  | _, [] => isTrue trivial
  | s, a::ops =>
    have := decidableGuarded step C (step s a) ops
    inferInstanceAs (Decidable (C s a ∧ Guarded step C (step s a) ops))

/-- `P` holds in every state the run passes through, the first and the last included. -/
def Always (step : σ → α → σ) (P : σ → Prop) (s : σ) (ops : List α) : Prop :=
  ∀ pre, pre <+: ops → P (run step s pre)

theorem always_nil (step : σ → α → σ) (P : σ → Prop) (s : σ) :
    Always step P s [] ↔ P s := by
  simp [Always]

theorem always_cons (step : σ → α → σ) (P : σ → Prop) (s : σ) (a : α) (ops : List α) :
    Always step P s (a::ops) ↔ P s ∧ Always step P (step s a) ops := by
  constructor
  · intro h
    refine ⟨h [] (List.nil_prefix),fun pre hpre => ?_⟩
    exact h (a::pre) (List.cons_prefix_cons.mpr ⟨rfl,hpre⟩)
  · rintro ⟨h0,h⟩ pre hpre
    cases pre with
    | nil => exact h0
    | cons b pre =>
      obtain ⟨rfl,htail⟩ := List.cons_prefix_cons.mp hpre
      exact h pre htail

theorem Always.last {step : σ → α → σ} {P : σ → Prop} {s : σ} {ops : List α}
    (h : Always step P s ops) : P (run step s ops) := h ops List.prefix_rfl

/-- An invariant of every operation is an invariant of every run. -/
theorem run_invariant {step : σ → α → σ} {I : σ → Prop}
    (hstep : ∀ s a, I s → I (step s a)) {s : σ} (h : I s) (ops : List α) :
    I (run step s ops) := by
  induction ops generalizing s with
  | nil => exact h
  | cons a ops ih => exact ih (hstep s a h)

/-- An invariant of the operations that satisfy `L` is one of the runs guarded by `L`. -/
theorem guarded_invariant {step : σ → α → σ} {L : σ → α → Prop} {I : σ → Prop}
    (hstep : ∀ s a, I s → L s a → I (step s a)) {s : σ} (h : I s) (ops : List α)
    (hg : Guarded step L s ops) : I (run step s ops) := by
  induction ops generalizing s with
  | nil => exact h
  | cons a ops ih => exact ih (hstep s a h hg.1) hg.2

/-- What the invariant implies holds in every state of a guarded run. -/
theorem guarded_always {step : σ → α → σ} {L : σ → α → Prop} {I P : σ → Prop}
    (hP : ∀ s, I s → P s) (hstep : ∀ s a, I s → L s a → I (step s a))
    {s : σ} (h : I s) (ops : List α) (hg : Guarded step L s ops) :
    Always step P s ops := by
  induction ops generalizing s with
  | nil => exact (always_nil ..).mpr (hP s h)
  | cons a ops ih => exact (always_cons ..).mpr ⟨hP s h,ih (hstep s a h hg.1) hg.2⟩

theorem guarded_true (step : σ → α → σ) (s : σ) (ops : List α) :
    Guarded step (fun _ _ => True) s ops := by
  induction ops generalizing s with
  | nil => trivial
  | cons a ops ih => exact ⟨trivial,ih (step s a)⟩

theorem guarded_of_forall (step : σ → α → σ) {P : α → Prop} (s : σ) {ops : List α}
    (h : ∀ a ∈ ops, P a) : Guarded step (fun _ a => P a) s ops := by
  induction ops generalizing s with
  | nil => trivial
  | cons a ops ih =>
    exact ⟨h a (List.mem_cons_self ..),ih (step s a) fun b hb => h b (List.mem_cons_of_mem a hb)⟩

/-- Along a run guarded by `C` the invariant holds, and with it what `C` then implies. -/
theorem Guarded.imp {step : σ → α → σ} {C D : σ → α → Prop} {I : σ → Prop}
    (hstep : ∀ s a, I s → C s a → I (step s a)) (hD : ∀ s a, I s → C s a → D s a)
    {s : σ} (h : I s) (ops : List α) (hg : Guarded step C s ops) : Guarded step D s ops := by
  induction ops generalizing s with
  | nil => trivial
  | cons a ops ih => exact ⟨hD s a h hg.1,ih (hstep s a h hg.1) hg.2⟩

theorem Guarded.and {step : σ → α → σ} {C D : σ → α → Prop} {s : σ} {ops : List α}
    (hC : Guarded step C s ops) (hD : Guarded step D s ops) :
    Guarded step (fun s a => C s a ∧ D s a) s ops := by
  induction ops generalizing s with
  | nil => trivial
  | cons a ops ih => exact ⟨⟨hC.1,hD.1⟩,ih hC.2 hD.2⟩

/-- Two conditions that agree where the invariant holds guard the same runs, when one of them
keeps the invariant. -/
theorem guarded_congr {step : σ → α → σ} {L C D : σ → α → Prop} {I : σ → Prop}
    (hstep : ∀ s a, I s → L s a → C s a → I (step s a))
    (hiff : ∀ s a, I s → L s a → (C s a ↔ D s a))
    {s : σ} (h : I s) (ops : List α) (hg : Guarded step L s ops) :
    Guarded step C s ops ↔ Guarded step D s ops := by
  induction ops generalizing s with
  | nil => exact Iff.rfl
  | cons a ops ih =>
    rw [guarded_cons,guarded_cons,← hiff s a h hg.1]
    exact and_congr_right fun hc => ih (hstep s a h hg.1 hc) hg.2

/-- When the operations that meet `C` keep the invariant and each other operation leads to
a state without `P`, the runs all of whose states have `P` are those that always meet `C`. -/
theorem always_iff_guarded {step : σ → α → σ} {L C : σ → α → Prop} {I P : σ → Prop}
    (hP : ∀ s, I s → P s)
    (hgood : ∀ s a, I s → L s a → C s a → I (step s a))
    (hbad : ∀ s a, I s → L s a → ¬ C s a → ¬ P (step s a))
    {s : σ} (h : I s) (ops : List α) (hg : Guarded step L s ops) :
    Always step P s ops ↔ Guarded step C s ops := by
  induction ops generalizing s with
  | nil => simpa [always_nil] using hP s h
  | cons a ops ih =>
    rw [always_cons,guarded_cons]
    by_cases hc : C s a
    · rw [ih (hgood s a h hg.1 hc) hg.2]
      simp [hP s h,hc]
    · constructor
      · rintro ⟨_,hrest⟩
        exact absurd (hrest [] List.nil_prefix) (hbad s a h hg.1 hc)
      · exact fun hh => absurd hh.1 hc

end Runs
end MarbleModules
