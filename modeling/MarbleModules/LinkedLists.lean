import Mathlib.Data.List.Nodup
import Mathlib.Logic.Function.Basic
import Mathlib.Tactic

/-! Singly linked lists in a store of cells: the pieces that pointers run through, a list held
by its first and last cell, and the walks along it. Nothing here names a particular cell. -/
namespace MarbleModules
namespace LinkedLists

variable {α β : Type*} {next : α → Option α} {head tail stop : Option α} {a t : α}
  {l l' : List α}

/-- From `head` the links run through the cells of the list, and then to `stop`. -/
def Spans (next : α → Option α) : Option α → List α → Option α → Prop
  | head, [], stop => head = stop
  | head, a::l, stop => head = some a ∧ Spans next (next a) l stop

@[simp] theorem spans_nil : Spans next head [] stop ↔ head = stop := Iff.rfl

@[simp] theorem spans_cons :
    Spans next head (a::l) stop ↔ head = some a ∧ Spans next (next a) l stop := Iff.rfl

theorem spans_append :
    Spans next head (l++l') stop ↔ ∃ mid,Spans next head l mid ∧ Spans next mid l' stop := by
  induction l generalizing head with
  | nil => simp
  | cons a l ih =>
    simp only [List.cons_append,spans_cons,ih]
    constructor
    · rintro ⟨hh,mid,h1,h2⟩
      exact ⟨mid,⟨hh,h1⟩,h2⟩
    · rintro ⟨mid,⟨hh,h1⟩,h2⟩
      exact ⟨hh,mid,h1,h2⟩

/-- Only the links of the list's own cells matter. -/
theorem Spans.congr {next' : α → Option α} (h : Spans next head l stop)
    (heq : ∀ b ∈ l,next' b = next b) : Spans next' head l stop := by
  induction l generalizing head with
  | nil => exact h
  | cons a l ih =>
    refine ⟨h.1,?_⟩
    rw [heq a (by simp)]
    exact ih h.2 fun b hb => heq b (List.mem_cons_of_mem a hb)

theorem Spans.head_eq (h : Spans next head l stop) (hl : l ≠ []) : head = l.head? := by
  cases l with
  | nil => exact absurd rfl hl
  | cons a l => exact h.1

theorem Spans.next_last (h : Spans next head l stop) (ht : l.getLast? = some t) :
    next t = stop := by
  obtain ⟨l,rfl⟩ := List.getLast?_eq_some_iff.mp ht
  obtain ⟨mid,-,hmid⟩ := spans_append.mp h
  exact hmid.2

/-- The links decide where a list from a cell to the end goes. -/
theorem Spans.unique (h : Spans next head l none) (h' : Spans next head l' none) : l = l' := by
  induction l generalizing head l' with
  | nil =>
    cases l' with
    | nil => rfl
    | cons b l' => exact absurd (h.symm.trans h'.1) (by simp)
  | cons a l ih =>
    cases l' with
    | nil => exact absurd (h.1.symm.trans h') (by simp)
    | cons b l' =>
      have hab := Option.some.inj (h.1.symm.trans h'.1)
      subst hab
      rw [ih h.2 h'.2]

/-- The two pointers by which a list is held. -/
structure Ends (α : Type*) where
  head : Option α
  tail : Option α
  deriving DecidableEq

/-- No list. -/
def Ends.empty : Ends α := ⟨none,none⟩

/-- The pointers are those of a list; where its last cell points is left open. -/
structure Holds (next : α → Option α) (e : Ends α) (l : List α) : Prop where
  head_eq : e.head = l.head?
  tail_eq : e.tail = l.getLast?
  spans : ∃ stop,Spans next e.head l stop

theorem holds_empty : Holds next (Ends.empty : Ends α) [] :=
  ⟨rfl,rfl,none,rfl⟩

theorem Holds.head_isSome {e : Ends α} (h : Holds next e l) : e.head.isSome ↔ l ≠ [] := by
  rw [h.head_eq]
  cases l <;> simp

theorem Holds.congr {next' : α → Option α} {e : Ends α} (h : Holds next e l)
    (heq : ∀ b ∈ l,next' b = next b) : Holds next' e l := by
  obtain ⟨stop,hs⟩ := h.spans
  exact ⟨h.head_eq,h.tail_eq,stop,hs.congr heq⟩

section Links

variable [DecidableEq α]

theorem update_of_notMem (ha : a ∉ l) (v : Option α) :
    ∀ b ∈ l,Function.update next a v b = next b := by
  intro b hb
  have hba : b ≠ a := fun hba => ha (hba ▸ hb)
  simp [hba]

/-- A store outside the list does not disturb it. -/
theorem Spans.frame (h : Spans next head l stop) (ha : a ∉ l) (v : Option α) :
    Spans (Function.update next a v) head l stop :=
  h.congr (update_of_notMem ha v)

/-- A store to the last cell's link changes where the list runs to. -/
theorem Spans.relink (h : Spans next head l stop) (hnd : l.Nodup) (ht : l.getLast? = some t)
    (v : Option α) : Spans (Function.update next t v) head l v := by
  obtain ⟨l,rfl⟩ := List.getLast?_eq_some_iff.mp ht
  obtain ⟨mid,h1,h2⟩ := spans_append.mp h
  have hnot : t ∉ l := fun hmem =>
    (List.nodup_append.mp hnd).2.2 t hmem t (List.mem_singleton_self t) rfl
  exact spans_append.mpr ⟨mid,h1.frame hnot v,h2.1,by simp⟩

/-- `qdf_nbuf_set_next` style store through a pointer. -/
def setNext (next : α → Option α) (p v : Option α) : α → Option α :=
  match p with
  | some a => Function.update next a v
  | none => next

theorem setNext_of_ne {p v : Option α} (h : p ≠ some a) : setNext next p v a = next a := by
  cases p with
  | none => rfl
  | some b =>
    have hab : a ≠ b := fun hab => h (by rw [hab])
    simp [setNext,hab]

/-- Appending a list to another: the first cell becomes the head if there was none, else the
last cell is linked to it. -/
def append (next : α → Option α) (e e' : Ends α) : (α → Option α) × Ends α :=
  match e.head with
  | none => (next,e')
  | some _ => (setNext next e.tail e'.head,⟨e.head,e'.tail⟩)

/-- Cells outside the list appended to keep their links. -/
theorem append_of_notMem {e e' : Ends α} (h : Holds next e l) (ha : a ∉ l) :
    (append next e e').1 a = next a := by
  rw [append]
  split
  · rfl
  · refine setNext_of_ne fun ht => ha ?_
    rw [h.tail_eq] at ht
    exact List.mem_of_getLast? ht

theorem Holds.append {e e' : Ends α} (h : Holds next e l) (h' : Holds next e' l')
    (hl : l' ≠ []) (hnd : (l++l').Nodup) :
    Holds (append next e e').1 (append next e e').2 (l++l') := by
  obtain ⟨hnl,-,hdisj⟩ := List.nodup_append.mp hnd
  cases hlast : l.getLast? with
  | none =>
    obtain rfl := List.getLast?_eq_none_iff.mp hlast
    have hh := h.head_eq
    simp only [List.head?_nil] at hh
    simpa [LinkedLists.append,hh] using h'
  | some t =>
    have hne : l ≠ [] := fun hz => by simp [hz] at hlast
    obtain ⟨b,hb⟩ := Option.isSome_iff_exists.mp (h.head_isSome.mpr hne)
    obtain ⟨stop,hs⟩ := h.spans
    obtain ⟨stop',hs'⟩ := h'.spans
    have ht : t ∉ l' := fun hmem => hdisj t (List.mem_of_getLast? hlast) t hmem rfl
    have hhead := h.head_eq
    rw [hb] at hhead hs
    simp only [LinkedLists.append,hb,h.tail_eq,hlast,setNext]
    refine ⟨?_,?_,stop',spans_append.mpr ⟨e'.head,hs.relink hnl hlast _,hs'.frame ht _⟩⟩
    · rw [List.head?_append,← hhead]
      rfl
    · rw [h'.tail_eq,List.getLast?_append_of_ne_nil _ hl]

/-- Ending the list at its last cell. -/
theorem Holds.terminate {e : Ends α} (h : Holds next e l) (hnd : l.Nodup) :
    Spans (setNext next e.tail none) e.head l none := by
  cases hlast : l.getLast? with
  | none =>
    obtain rfl := List.getLast?_eq_none_iff.mp hlast
    exact h.head_eq
  | some t =>
    obtain ⟨stop,hs⟩ := h.spans
    rw [h.tail_eq,hlast]
    exact hs.relink hnd hlast none

end Links

/-- The cells from a pointer up to the end of the list, if that is met within the fuel. -/
def walk (next : α → Option α) : ℕ → Option α → Option (List α)
  | _, none => some []
  | 0, some _ => none
  | fuel+1, some a => (walk next fuel (next a)).map (a::·)

/-- The cells from a pointer up to the first that is to be the last, if it is met within the
fuel and before the end of the list. -/
def walkTo (next : α → Option α) (last : α → Bool) : ℕ → Option α → Option (List α)
  | _, none => none
  | 0, some _ => none
  | fuel+1, some a => if last a then some [a] else (walkTo next last fuel (next a)).map (a::·)

theorem walkTo_eq {last : α → Bool} {fuel : ℕ} (h : Spans next head (l++[t]) stop)
    (hlast : last t) (hne : ∀ b ∈ l,last b = false) (hf : l.length < fuel) :
    walkTo next last fuel head = some (l++[t]) := by
  induction l generalizing head fuel with
  | nil =>
    obtain ⟨rfl,-⟩ := h
    cases fuel with
    | zero => simp at hf
    | succ fuel => simp [walkTo,hlast]
  | cons a l ih =>
    obtain ⟨rfl,hs⟩ := h
    cases fuel with
    | zero => simp at hf
    | succ fuel =>
      have ha := hne a (by simp)
      rw [walkTo,ha,ih hs (fun b hb => hne b (List.mem_cons_of_mem a hb)) (by simpa using hf)]
      rfl

/-- The walk from the first cell of a list to its last meets all of it. -/
theorem Holds.walkTo_eq [DecidableEq α] {e : Ends α} {fuel : ℕ} (h : Holds next e l)
    (hnd : l.Nodup) (hne : l ≠ []) (hf : l.length ≤ fuel) :
    walkTo next (fun b => some b = e.tail) fuel e.head = some l := by
  obtain ⟨stop,hs⟩ := h.spans
  have htail := h.tail_eq
  obtain ⟨l,t,rfl⟩ := (List.eq_nil_or_concat' l).resolve_left hne
  rw [List.getLast?_concat] at htail
  rw [htail]
  refine LinkedLists.walkTo_eq hs (by simp) (fun b hb => ?_) (by simpa using hf)
  have hbt : b ≠ t := fun hbt => (List.nodup_append.mp hnd).2.2 b hb t (by simp) hbt
  simpa using hbt

end LinkedLists
end MarbleModules
