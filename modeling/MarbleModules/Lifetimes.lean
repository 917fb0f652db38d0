import Mathlib.Data.Finset.Insert
import Mathlib.Data.Finset.Lattice.Basic
import Mathlib.Tactic

/-! Lifetimes of resources that are acquired, used and released: what a log of such acts says
about each resource, the set of resources a log leaves held, and computations that log what
they do. Nothing here names a particular resource or the pool it comes from. -/
namespace MarbleModules
namespace Lifetimes

/-- What is done with a resource. -/
inductive Act
  | acquire | use | release
  deriving DecidableEq

structure Event (ι : Type) where
  act : Act
  id : ι
  deriving DecidableEq

/-- The acts on one resource: time after time acquired, used and released. -/
inductive Lives : List Act → Prop
  | nil : Lives []
  | life (n : ℕ) {acts : List Act} (h : Lives acts) :
      Lives (.acquire::(List.replicate n .use++.release::acts))

/-- The acts on a resource that is held to begin with. -/
def Held (acts : List Act) : Prop :=
  ∃ n rest, acts = List.replicate n .use++.release::rest ∧ Lives rest

variable {ι : Type} [DecidableEq ι]

def actsOn (id : ι) (log : List (Event ι)) : List Act :=
  (log.filter (·.id = id)).map Event.act

/-- Each resource is released exactly once each time it is acquired, and is used only in
between. -/
def Disposed (log : List (Event ι)) : Prop := ∀ id, Lives (actsOn id log)

/-! ## One resource -/

theorem lives_acquire {acts : List Act} : Lives (.acquire::acts) ↔ Held acts := by
  constructor
  · intro h
    cases h with
    | life n h => exact ⟨n,_,rfl,h⟩
  · rintro ⟨n,rest,rfl,h⟩
    exact .life n h

theorem not_lives_use {acts : List Act} : ¬Lives (.use::acts) := fun h => nomatch h

theorem not_lives_release {acts : List Act} : ¬Lives (.release::acts) := fun h => nomatch h

theorem not_held_nil : ¬Held [] := by
  rintro ⟨n,rest,h,-⟩
  simp at h

theorem not_held_acquire {acts : List Act} : ¬Held (.acquire::acts) := by
  rintro ⟨n,rest,h,-⟩
  cases n with
  | zero => simp at h
  | succ n => simp [List.replicate_succ] at h

theorem held_use {acts : List Act} : Held (.use::acts) ↔ Held acts := by
  constructor
  · rintro ⟨n,rest,h,hl⟩
    cases n with
    | zero => simp at h
    | succ n =>
      rw [List.replicate_succ,List.cons_append,List.cons_inj_right] at h
      exact ⟨n,rest,h,hl⟩
  · rintro ⟨n,rest,rfl,hl⟩
    exact ⟨n+1,rest,by rw [List.replicate_succ,List.cons_append],hl⟩

theorem held_release {acts : List Act} : Held (.release::acts) ↔ Lives acts := by
  constructor
  · rintro ⟨n,rest,h,hl⟩
    cases n with
    | zero =>
      obtain rfl : acts = rest := by simpa using h
      exact hl
    | succ n => simp [List.replicate_succ] at h
  · intro h
    exact ⟨0,acts,rfl,h⟩

/-! ## The resources that are held -/

/-- One event, from the resources held before it to those held after it. -/
def step (held : Finset ι) (e : Event ι) : Option (Finset ι) :=
  match e.act with
  | .acquire => if e.id ∈ held then none else some (insert e.id held)
  | .use => if e.id ∈ held then some held else none
  | .release => if e.id ∈ held then some (held.erase e.id) else none

/-- The resources held after a log; `none` when an event has no place in it. -/
def track (held : Finset ι) : List (Event ι) → Option (Finset ι)
  | [] => some held
  | e::es => (step held e).bind fun held => track held es

theorem track_append (held : Finset ι) (es fs : List (Event ι)) :
    track held (es++fs) = (track held es).bind fun held => track held fs := by
  induction es generalizing held with
  | nil => rfl
  | cons e es ih =>
    rw [List.cons_append,track,track]
    cases step held e with
    | none => rfl
    | some held => exact ih held

theorem actsOn_cons_self (e : Event ι) (es : List (Event ι)) :
    actsOn e.id (e::es) = e.act::actsOn e.id es := by
  simp [actsOn]

theorem actsOn_cons_ne {e : Event ι} {id : ι} (h : id ≠ e.id) (es : List (Event ι)) :
    actsOn id (e::es) = actsOn id es := by
  simp [actsOn,h.symm]

/-- What the rest of a log does with a resource, by whether it is held. -/
def Fate (held : Finset ι) (log : List (Event ι)) (id : ι) : Prop :=
  (id ∈ held → Held (actsOn id log)) ∧ (id ∉ held → Lives (actsOn id log))

theorem fate_of_mem {held : Finset ι} {id : ι} (h : id ∈ held) (log : List (Event ι)) :
    Fate held log id ↔ Held (actsOn id log) := by
  simp [Fate,h]

theorem fate_of_notMem {held : Finset ι} {id : ι} (h : id ∉ held) (log : List (Event ι)) :
    Fate held log id ↔ Lives (actsOn id log) := by
  simp [Fate,h]

/-- An event moves its own resource from one state to the next. -/
theorem fate_self (held : Finset ι) (e : Event ι) (es : List (Event ι)) :
    Fate held (e::es) e.id ↔ ∃ held', step held e = some held' ∧ Fate held' es e.id := by
  by_cases hmem : e.id ∈ held
  · rw [fate_of_mem hmem,actsOn_cons_self]
    cases ha : e.act with
    | acquire => simp [step,ha,hmem,not_held_acquire]
    | use => simp [step,ha,hmem,held_use,fate_of_mem]
    | release => simp [step,ha,hmem,held_release,fate_of_notMem]
  · rw [fate_of_notMem hmem,actsOn_cons_self]
    cases ha : e.act with
    | acquire => simp [step,ha,hmem,lives_acquire,fate_of_mem]
    | use => simp [step,ha,hmem,not_lives_use]
    | release => simp [step,ha,hmem,not_lives_release]

theorem step_mem_iff {held held' : Finset ι} {e : Event ι} (h : step held e = some held')
    {id : ι} (hne : id ≠ e.id) : id ∈ held' ↔ id ∈ held := by
  unfold step at h
  split at h <;> split_ifs at h <;> rw [← Option.some.inj h] <;> simp [hne]

/-- The other resources do not notice an event. -/
theorem fate_other {held held' : Finset ι} {e : Event ι} (h : step held e = some held')
    {id : ι} (hne : id ≠ e.id) (es : List (Event ι)) :
    Fate held (e::es) id ↔ Fate held' es id := by
  rw [Fate,Fate,actsOn_cons_ne hne,step_mem_iff h hne]

theorem fate_cons (held : Finset ι) (e : Event ι) (es : List (Event ι)) :
    (∀ id, Fate held (e::es) id) ↔
      ∃ held', step held e = some held' ∧ ∀ id, Fate held' es id := by
  constructor
  · intro h
    obtain ⟨held',hs,hself⟩ := (fate_self held e es).mp (h e.id)
    refine ⟨held',hs,fun id => ?_⟩
    by_cases hid : id = e.id
    · exact hid ▸ hself
    · exact (fate_other hs hid es).mp (h id)
  · rintro ⟨held',hs,h⟩ id
    by_cases hid : id = e.id
    · exact hid ▸ (fate_self held e es).mpr ⟨held',hs,h e.id⟩
    · exact (fate_other hs hid es).mpr (h id)

theorem track_eq_empty_iff (held : Finset ι) (log : List (Event ι)) :
    track held log = some ∅ ↔ ∀ id, Fate held log id := by
  induction log generalizing held with
  | nil =>
    simp only [track,Option.some.injEq,Fate,actsOn,List.filter_nil,List.map_nil]
    constructor
    · rintro rfl id
      exact ⟨fun h => absurd h (Finset.notMem_empty id),fun _ => .nil⟩
    · intro h
      exact Finset.eq_empty_of_forall_notMem fun id hid => not_held_nil ((h id).1 hid)
  | cons e es ih =>
    rw [fate_cons,track,Option.bind_eq_some_iff]
    exact exists_congr fun held' => and_congr_right fun _ => ih held'

/-- A log disposes of everything when, event by event, it goes from no resource held to no
resource held. -/
theorem disposed_iff_track (log : List (Event ι)) : Disposed log ↔ track ∅ log = some ∅ := by
  rw [track_eq_empty_iff]
  refine forall_congr' fun id => ?_
  simp [Fate]

/-! ## Computations -/

/-- What a computation gives, the pool afterwards, and what it did to resources. -/
structure Outcome (σ ι α : Type) where
  val : α
  pool : σ
  log : List (Event ι)

/-- A computation that takes resources from a pool and logs what it does with them. -/
def Owner (σ ι α : Type) : Type := σ → Outcome σ ι α

instance (σ ι : Type) : Monad (Owner σ ι) where
  pure a := fun s => ⟨a,s,[]⟩
  bind m f := fun s =>
    let r := m s
    let q := f r.val r.pool
    ⟨q.val,q.pool,r.log++q.log⟩

section Rules

variable {σ α β : Type} (Sound : σ → Finset ι → Prop)

/-- From every pool that goes with the held resources, the computation keeps the rules and
ends with a result and held resources as described. -/
def Leaves (held : Finset ι) (m : Owner σ ι α) (Q : α → Finset ι → Prop) : Prop :=
  ∀ s, Sound s held → ∃ held', track held (m s).log = some held' ∧
    Sound (m s).pool held' ∧ Q (m s).val held'

/-- From every such pool the computation breaks the rules. -/
def Breaks (held : Finset ι) (m : Owner σ ι α) : Prop :=
  ∀ s, Sound s held → track held (m s).log = none

variable {Sound} {held : Finset ι} {m : Owner σ ι α} {Q R : α → Finset ι → Prop}

theorem Leaves.pure {a : α} (h : Q a held) :
    Leaves Sound held (Pure.pure a : Owner σ ι α) Q :=
  fun _ hs => ⟨held,rfl,hs,h⟩

theorem Leaves.imp (h : Leaves Sound held m Q) (hQ : ∀ a held', Q a held' → R a held') :
    Leaves Sound held m R := by
  intro s hs
  obtain ⟨held',ht,hs',hq⟩ := h s hs
  exact ⟨held',ht,hs',hQ _ _ hq⟩

theorem Leaves.bind {f : α → Owner σ ι β} {S : β → Finset ι → Prop}
    (h : Leaves Sound held m Q) (hf : ∀ a held', Q a held' → Leaves Sound held' (f a) S) :
    Leaves Sound held (m >>= f) S := by
  intro s hs
  obtain ⟨held',ht,hs',hq⟩ := h s hs
  obtain ⟨held'',ht',hs'',hr⟩ := hf _ _ hq _ hs'
  refine ⟨held'',?_,hs'',hr⟩
  exact (track_append held _ _).trans (by rw [ht]; exact ht')

/-- What follows a breach does not mend it. -/
theorem Breaks.bind (h : Breaks Sound held m) (f : α → Owner σ ι β) :
    Breaks Sound held (m >>= f) := by
  intro s hs
  exact (track_append held _ _).trans (by rw [h s hs]; rfl)

theorem Leaves.breaks {f : α → Owner σ ι β} (h : Leaves Sound held m Q)
    (hf : ∀ a held', Q a held' → Breaks Sound held' (f a)) : Breaks Sound held (m >>= f) := by
  intro s hs
  obtain ⟨held',ht,hs',hq⟩ := h s hs
  exact (track_append held _ _).trans (by rw [ht]; exact hf _ _ hq _ hs')

variable (Sound) in
/-- If the computation keeps the rules it ends with more held than `base`. -/
def Loses (base held : Finset ι) (m : Owner σ ι α) : Prop :=
  ∀ s, Sound s held → ∀ held', track held (m s).log = some held' → base ⊂ held'

variable {base : Finset ι}

theorem Breaks.loses (h : Breaks Sound held m) : Loses Sound base held m := by
  intro s hs held' ht
  simp [h s hs] at ht

theorem Leaves.loses (h : Leaves Sound held m Q)
    (hQ : ∀ a held', Q a held' → base ⊂ held') : Loses Sound base held m := by
  intro s hs held' ht
  obtain ⟨_,ht',-,hq⟩ := h s hs
  obtain rfl := Option.some.inj (ht'.symm.trans ht)
  exact hQ _ _ hq

theorem Loses.mono {base' : Finset ι} (h : Loses Sound base' held m) (hb : base ⊆ base') :
    Loses Sound base held m :=
  fun s hs held' ht => hb.trans_ssubset (h s hs held' ht)

theorem Leaves.bind_loses {f : α → Owner σ ι β} (h : Leaves Sound held m Q)
    (hf : ∀ a held', Q a held' → Loses Sound base held' (f a)) :
    Loses Sound base held (m >>= f) := by
  intro s hs held'' ht
  obtain ⟨held',ht',hs',hq⟩ := h s hs
  have happ : track held ((m >>= f) s).log = _ := track_append held _ _
  rw [ht,ht'] at happ
  exact hf _ _ hq _ hs' held'' happ.symm

/-- An invariant of the turns of a loop is one of the loop. -/
theorem leaves_foldlM {I : β → Finset ι → Prop} {f : β → α → Owner σ ι β} {xs : List α}
    (hf : ∀ b, ∀ x ∈ xs, ∀ held, I b held → Leaves Sound held (f b x) I) {b : β}
    (h : I b held) : Leaves Sound held (xs.foldlM f b) I := by
  induction xs generalizing b held with
  | nil => exact .pure h
  | cons x xs ih =>
    rw [List.foldlM_cons]
    refine (hf b x (by simp) held h).bind fun b' held' h' => ?_
    exact ih (fun b y hy => hf b y (by simp [hy])) h'

/-- A computation that starts and ends with nothing held disposes of what it acquires. -/
theorem Leaves.disposed {s : σ} (h : Leaves Sound ∅ m fun _ held => held = ∅)
    (hs : Sound s ∅) : Disposed (m s).log := by
  obtain ⟨held,ht,-,rfl⟩ := h s hs
  exact (disposed_iff_track _).mpr ht

theorem Loses.not_disposed {s : σ} (h : Loses Sound ∅ ∅ m) (hs : Sound s ∅) :
    ¬Disposed (m s).log := by
  intro hd
  exact (h s hs ∅ ((disposed_iff_track _).mp hd)).ne rfl

end Rules

/-! ## Handing resources back one by one -/

/-- Giving the resources back in this order leaves `rest`. -/
def HandsBack (rest : Finset ι) : List ι → Finset ι → Prop
  | [],held => held = rest
  | id::ids,held => id ∈ held ∧ HandsBack rest ids (held.erase id)

theorem HandsBack.subset {rest held : Finset ι} {ids : List ι} (h : HandsBack rest ids held) :
    rest ⊆ held := by
  induction ids generalizing held with
  | nil => exact (Eq.symm h).subset
  | cons id ids ih => exact (ih h.2).trans (Finset.erase_subset id held)

theorem HandsBack.notMem {rest held : Finset ι} {ids : List ι} (h : HandsBack rest ids held) :
    ∀ id ∈ ids, id ∉ rest := by
  induction ids generalizing held with
  | nil => simp
  | cons id ids ih =>
    intro id' hid'
    rcases List.mem_cons.mp hid' with rfl|hid'
    · exact fun hr => Finset.notMem_erase id' held (HandsBack.subset h.2 hr)
    · exact ih h.2 id' hid'

/-- A resource acquired on top is handed back last. -/
theorem HandsBack.snoc {rest held : Finset ι} {ids : List ι} (h : HandsBack rest ids held) {id : ι}
    (hid : id ∉ held) : HandsBack rest (ids++[id]) (insert id held) := by
  induction ids generalizing held with
  | nil =>
    obtain rfl : held = rest := h
    exact ⟨Finset.mem_insert_self id held,Finset.erase_insert hid⟩
  | cons id' ids ih =>
    have hne : id ≠ id' := fun heq => hid (heq ▸ h.1)
    refine ⟨Finset.mem_insert_of_mem h.1,?_⟩
    rw [Finset.erase_insert_of_ne hne]
    exact ih h.2 fun hm => hid (Finset.mem_of_mem_erase hm)

/-- A resource that is not among those handed back stays. -/
theorem HandsBack.keep {rest held : Finset ι} {ids : List ι} (h : HandsBack rest ids held) {id : ι}
    (hid : id ∉ held) : HandsBack (insert id rest) ids (insert id held) := by
  induction ids generalizing held with
  | nil =>
    obtain rfl : held = rest := h
    rfl
  | cons id' ids ih =>
    have hne : id ≠ id' := fun heq => hid (heq ▸ h.1)
    refine ⟨Finset.mem_insert_of_mem h.1,?_⟩
    rw [Finset.erase_insert_of_ne hne]
    exact ih h.2 fun hm => hid (Finset.mem_of_mem_erase hm)

/-- Releasing one of the others does not change the order. -/
theorem HandsBack.release {rest held : Finset ι} {ids : List ι} {id : ι}
    (h : HandsBack (insert id rest) ids held) (hid : id ∉ rest) :
    HandsBack rest ids (held.erase id) := by
  induction ids generalizing held with
  | nil =>
    obtain rfl : held = insert id rest := h
    exact Finset.erase_insert hid
  | cons id' ids ih =>
    have hne : id' ≠ id := fun heq =>
      h.notMem id' (by simp) (heq ▸ Finset.mem_insert_self id rest)
    refine ⟨Finset.mem_erase.mpr ⟨hne,h.1⟩,?_⟩
    rw [Finset.erase_right_comm]
    exact ih h.2

end Lifetimes
end MarbleModules
