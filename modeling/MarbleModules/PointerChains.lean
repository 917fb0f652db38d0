import Mathlib.Data.List.Chain
import Mathlib.Data.List.Nodup
import Mathlib.Logic.Function.Basic
import Mathlib.Tactic

/-! Doubly linked chains kept in a store of cells: every occupied head cell starts a
chain, every other occupied cell lies on exactly one of them. The store is a library of
its own; a table instantiates it by reading its records as cells. -/
namespace MarbleModules
namespace PointerChains

variable {α : Type*}

/-- The occupied cells of a store and their links. -/
structure Links (α : Type*) where
  occ : α → Prop
  next : α → Option α
  prev : α → Option α

theorem Links.ext_cells {L L' : Links α} (hocc : ∀ a, L.occ a ↔ L'.occ a)
    (hnext : ∀ a, L.next a = L'.next a) (hprev : ∀ a, L.prev a = L'.prev a) : L = L' := by
  cases L
  cases L'
  congr
  · exact funext fun a => propext (hocc a)
  · exact funext hnext
  · exact funext hprev

/-- The cells met from `a` on by following `next`, when that ends. -/
inductive Chain (next : α → Option α) : α → List α → Prop
  | last {a : α} : next a = none → Chain next a [a]
  | cons {a b : α} {l : List α} : next a = some b → Chain next b l → Chain next a (a::l)

namespace Chain

variable {next : α → Option α} {a : α} {l : List α}

theorem head_mem (h : Chain next a l) : a ∈ l := by
  cases h <;> simp

theorem head_eq (h : Chain next a l) : ∃ t, l = a::t := by
  cases h with
  | last => exact ⟨[],rfl⟩
  | cons => exact ⟨_,rfl⟩

/-- The links determine the chain. -/
theorem unique (h : Chain next a l) : ∀ {l' : List α}, Chain next a l' → l = l' := by
  induction h with
  | last hn =>
    intro l' h'
    cases h' with
    | last => rfl
    | cons hn' _ => simp [hn] at hn'
  | cons hn _ ih =>
    intro l' h'
    cases h' with
    | last hn' => simp [hn] at hn'
    | cons hn' ht =>
      have hb := Option.some.inj (hn.symm.trans hn')
      subst hb
      rw [ih ht]

/-- A chain is closed under the links it follows. -/
theorem next_mem (h : Chain next a l) {b c : α} (hb : b ∈ l) (hc : next b = some c) :
    c ∈ l := by
  induction h with
  | last hn =>
    obtain rfl := List.mem_singleton.mp hb
    simp [hn] at hc
  | @cons a b' l hn ht ih =>
    rcases List.mem_cons.mp hb with rfl | hb
    · have hbc := Option.some.inj (hn.symm.trans hc)
      subst hbc
      exact List.mem_cons_of_mem _ ht.head_mem
    · exact List.mem_cons_of_mem _ (ih hb)

/-- What holds of the first cell and is passed along the links holds of the chain. -/
theorem forall_mem {P : α → Prop} (h : Chain next a l) (ha : P a)
    (hstep : ∀ b c, P b → next b = some c → P c) : ∀ c ∈ l, P c := by
  induction h with
  | last => simpa using ha
  | cons hn _ ih =>
    intro c hc
    rcases List.mem_cons.mp hc with rfl | hc
    · exact ha
    · exact ih (hstep _ _ ha hn) c hc

/-- Every cell of a chain but its first has a predecessor on it. -/
theorem mem_tail (h : Chain next a l) {c : α} (hc : c ∈ l.tail) :
    ∃ b ∈ l, next b = some c := by
  induction h with
  | last => simp at hc
  | @cons a b l hn ht ih =>
    obtain ⟨t,rfl⟩ := ht.head_eq
    simp only [List.tail_cons,List.mem_cons] at hc
    rcases hc with rfl | hc
    · exact ⟨a,by simp,hn⟩
    · obtain ⟨d,hd,hdc⟩ := ih (by simpa using hc)
      exact ⟨d,List.mem_cons_of_mem _ hd,hdc⟩

/-- A chain depends on the links of its own cells only. -/
theorem congr {next' : α → Option α} (h : Chain next a l)
    (heq : ∀ b ∈ l, next' b = next b) : Chain next' a l := by
  induction h with
  | last hn => exact .last ((heq _ (by simp)).trans hn)
  | cons hn _ ih =>
    exact .cons ((heq _ (by simp)).trans hn) (ih fun b hb => heq b (List.mem_cons_of_mem _ hb))

end Chain

/-- The links of a store whose occupied cells form chains: `own` names the head a cell
belongs to, and `rank` grows along the links. -/
structure Ranked (head : α → Prop) (L : Links α) (own : α → α) (rank : α → ℕ) : Prop where
  next_occ : ∀ {a b}, L.occ a → L.next a = some b → L.occ b ∧ ¬ head b
  next_prev : ∀ {a b}, L.occ a → L.next a = some b → L.prev b = some a
  next_own : ∀ {a b}, L.occ a → L.next a = some b → own b = own a
  next_rank : ∀ {a b}, L.occ a → L.next a = some b → rank a < rank b
  head_prev : ∀ {a}, L.occ a → head a → L.prev a = none
  head_own : ∀ {a}, L.occ a → head a → own a = a
  tail_prev : ∀ {b}, L.occ b → ¬ head b → ∃ a, L.occ a ∧ L.next a = some b
  bounded : ∃ n, ∀ a, L.occ a → rank a ≤ n

/-- The occupied cells form chains, and `own` names the head each cell belongs to. -/
def Chained (head : α → Prop) (L : Links α) (own : α → α) : Prop :=
  ∃ rank, Ranked head L own rank

section Consequences

variable {head : α → Prop} {L : Links α} {own : α → α} {rank : α → ℕ}

theorem Ranked.exists_chain (h : Ranked head L own rank) {a : α} (ha : L.occ a) :
    ∃ l, Chain L.next a l := by
  obtain ⟨n,hn⟩ := h.bounded
  -- the rank of the current cell approaches its bound
  induction hk : n - rank a using Nat.strong_induction_on generalizing a with
  | _ k ih =>
    cases hna : L.next a with
    | none => exact ⟨[a],.last hna⟩
    | some b =>
      have hb := (h.next_occ ha hna).1
      have hlt := h.next_rank ha hna
      have hle := hn b hb
      obtain ⟨l,hl⟩ := ih (n - rank b) (by omega) hb rfl
      exact ⟨a::l,.cons hna hl⟩

theorem Ranked.rank_lt_of_mem_tail (h : Ranked head L own rank) {a : α} {l : List α}
    (hl : Chain L.next a l) (ha : L.occ a) : l.Nodup ∧ ∀ c ∈ l, rank a ≤ rank c := by
  induction hl with
  | last => simp
  | @cons a b l hn _ ih =>
    have hb := (h.next_occ ha hn).1
    have hlt := h.next_rank ha hn
    obtain ⟨hnd,hge⟩ := ih hb
    refine ⟨List.nodup_cons.mpr ⟨fun hmem => ?_,hnd⟩,fun c hc => ?_⟩
    · have hh := hge a hmem
      omega
    · rcases List.mem_cons.mp hc with rfl | hc
      · exact le_rfl
      · have hh := hge c hc
        omega

variable (h : Chained head L own)
include h

theorem Chained.exists_chain {a : α} (ha : L.occ a) : ∃ l, Chain L.next a l := by
  obtain ⟨rank,hr⟩ := h
  exact hr.exists_chain ha

theorem Chained.nodup {a : α} {l : List α} (ha : L.occ a) (hl : Chain L.next a l) :
    l.Nodup := by
  obtain ⟨rank,hr⟩ := h
  exact (hr.rank_lt_of_mem_tail hl ha).1

theorem Chained.occ_of_mem {a : α} {l : List α} (ha : L.occ a) (hl : Chain L.next a l) :
    ∀ c ∈ l, L.occ c := by
  obtain ⟨rank,hr⟩ := h
  exact hl.forall_mem ha fun b c hb hc => (hr.next_occ hb hc).1

theorem Chained.own_of_mem {a : α} {l : List α} (ha : L.occ a) (hl : Chain L.next a l) :
    ∀ c ∈ l, own c = own a := by
  obtain ⟨rank,hr⟩ := h
  have hh := hl.forall_mem (P := fun c => L.occ c ∧ own c = own a) ⟨ha,rfl⟩
    fun b c hb hc => ⟨(hr.next_occ hb.1 hc).1,(hr.next_own hb.1 hc).trans hb.2⟩
  exact fun c hc => (hh c hc).2

theorem Chained.not_head_of_mem_tail {a : α} {l : List α} (ha : L.occ a)
    (hl : Chain L.next a l) : ∀ c ∈ l.tail, ¬ head c := by
  intro c hc
  obtain ⟨b,hb,hbc⟩ := hl.mem_tail hc
  have hocc := h.occ_of_mem ha hl b hb
  obtain ⟨rank,hr⟩ := h
  exact (hr.next_occ hocc hbc).2

/-- Every occupied cell lies on the chain of the occupied head `own` names. -/
theorem Chained.mem_own_chain {b : α} (hb : L.occ b) :
    L.occ (own b) ∧ head (own b) ∧ ∃ l, Chain L.next (own b) l ∧ b ∈ l := by
  obtain ⟨rank,hr⟩ := h
  induction hk : rank b using Nat.strong_induction_on generalizing b with
  | _ k ih =>
    by_cases hh : head b
    · have hown := hr.head_own hb hh
      obtain ⟨l,hl⟩ := hr.exists_chain hb
      rw [hown]
      exact ⟨hb,hh,l,hl,hl.head_mem⟩
    · obtain ⟨a,ha,hab⟩ := hr.tail_prev hb hh
      have hlt := hr.next_rank ha hab
      obtain ⟨h1,h2,l,hl,hmem⟩ := ih (rank a) (by omega) ha rfl
      rw [hr.next_own ha hab]
      exact ⟨h1,h2,l,hl,hl.next_mem hmem hab⟩

/-- The chains of distinct heads have no cell in common. -/
theorem Chained.disjoint {a b : α} {l l' : List α} (ha : L.occ a) (hha : head a)
    (hb : L.occ b) (hhb : head b) (hl : Chain L.next a l) (hl' : Chain L.next b l')
    (hne : a ≠ b) : l.Disjoint l' := by
  intro c hc hc'
  have h1 := h.own_of_mem ha hl c hc
  have h2 := h.own_of_mem hb hl' c hc'
  obtain ⟨rank,hr⟩ := h
  rw [hr.head_own ha hha] at h1
  rw [hr.head_own hb hhb] at h2
  exact hne (h1.symm.trans h2)

theorem Chained.next_occ {a b : α} (ha : L.occ a) (hn : L.next a = some b) :
    L.occ b ∧ ¬ head b ∧ L.prev b = some a := by
  obtain ⟨rank,hr⟩ := h
  exact ⟨(hr.next_occ ha hn).1,(hr.next_occ ha hn).2,hr.next_prev ha hn⟩

theorem Chained.head_own {a : α} (ha : L.occ a) (hh : head a) : own a = a := by
  obtain ⟨rank,hr⟩ := h
  exact hr.head_own ha hh

/-- `prev` inverts `next`. -/
theorem Chained.prev_occ {a b : α} (hb : L.occ b) (hp : L.prev b = some a) :
    L.occ a ∧ L.next a = some b ∧ ¬ head b ∧ own b = own a := by
  obtain ⟨rank,hr⟩ := h
  by_cases hh : head b
  · simp [hr.head_prev hb hh] at hp
  · obtain ⟨c,hc,hcb⟩ := hr.tail_prev hb hh
    have hac := Option.some.inj (hp.symm.trans (hr.next_prev hc hcb))
    subst hac
    exact ⟨hc,hcb,hh,hr.next_own hc hcb⟩

theorem Chained.prev_of_not_head {b : α} (hb : L.occ b) (hh : ¬ head b) :
    ∃ a, L.prev b = some a := by
  obtain ⟨rank,hr⟩ := h
  obtain ⟨a,ha,hab⟩ := hr.tail_prev hb hh
  exact ⟨a,hr.next_prev ha hab⟩

theorem Chained.next_ne {a b : α} (ha : L.occ a) (hn : L.next a = some b) : b ≠ a := by
  obtain ⟨rank,hr⟩ := h
  have hlt := hr.next_rank ha hn
  rintro rfl
  omega

/-- No chain turns back after two links. -/
theorem Chained.next_next_ne {a b c : α} (ha : L.occ a) (hab : L.next a = some b)
    (hbc : L.next b = some c) : c ≠ a := by
  obtain ⟨rank,hr⟩ := h
  have hlt := hr.next_rank ha hab
  have hlt' := hr.next_rank (hr.next_occ ha hab).1 hbc
  rintro rfl
  omega

omit h in
/-- Only the owners of occupied cells matter. -/
theorem Chained.congr_own {own' : α → α} (h : Chained head L own)
    (heq : ∀ a, L.occ a → own' a = own a) : Chained head L own' := by
  obtain ⟨rank,hr⟩ := h
  refine ⟨rank,⟨hr.next_occ,hr.next_prev,?_,hr.next_rank,hr.head_prev,?_,hr.tail_prev,
    hr.bounded⟩⟩
  · intro a b ha hab
    rw [heq b (hr.next_occ ha hab).1,heq a ha]
    exact hr.next_own ha hab
  · intro a ha hh
    rw [heq a ha]
    exact hr.head_own ha hh

end Consequences

section Operations

variable [DecidableEq α] {head : α → Prop} {L : Links α} {own : α → α}

/-- The store without occupied cells. -/
def empty : Links α := ⟨fun _ => False,fun _ => none,fun _ => none⟩

/-- A free head cell becomes a chain of one. -/
def pushHead (L : Links α) (a : α) : Links α where
  occ c := c = a ∨ L.occ c
  next := Function.update L.next a none
  prev := Function.update L.prev a none

/-- A free cell is linked behind the last cell of a chain. -/
def append (L : Links α) (last new : α) : Links α where
  occ c := c = new ∨ L.occ c
  next := Function.update (Function.update L.next new none) last (some new)
  prev := Function.update L.prev new (some last)

/-- The cell `c` behind `p` is taken out of its chain. -/
def unlink (L : Links α) (p c : α) : Links α where
  occ x := x ≠ c ∧ L.occ x
  next := Function.update (Function.update L.next p (L.next c)) c none
  prev := fun x => if x = c then none else if L.next c = some x then some p else L.prev x

/-- A cell that is a chain of its own is freed. -/
def remove (L : Links α) (a : α) : Links α where
  occ x := x ≠ a ∧ L.occ x
  next := Function.update L.next a none
  prev := Function.update L.prev a none

omit [DecidableEq α] in
theorem chained_empty : Chained head (empty : Links α) own :=
  ⟨fun _ => 0,
    { next_occ := fun ha => ha.elim
      next_prev := fun ha => ha.elim
      next_own := fun ha => ha.elim
      next_rank := fun ha => ha.elim
      head_prev := fun ha => ha.elim
      head_own := fun ha => ha.elim
      tail_prev := fun hb => hb.elim
      bounded := ⟨0,fun _ ha => ha.elim⟩ }⟩

theorem Chained.pushHead (h : Chained head L own) {a : α} (hfree : ¬ L.occ a)
    (hh : head a) : Chained head (pushHead L a) (Function.update own a a) := by
  obtain ⟨rank,hr⟩ := h
  -- an old cell is not `a` and never links to it
  have hold : ∀ {x y}, (PointerChains.pushHead L a).occ x →
      (PointerChains.pushHead L a).next x = some y → L.occ x ∧ L.next x = some y ∧ x ≠ a := by
    intro x y hx hxy
    by_cases hxa : x = a
    · subst hxa
      simp [PointerChains.pushHead] at hxy
    · simp only [PointerChains.pushHead,Function.update_of_ne hxa] at hxy
      exact ⟨hx.resolve_left hxa,hxy,hxa⟩
  have hne : ∀ {x y}, L.occ x → L.next x = some y → y ≠ a := by
    rintro x y hx hxy rfl
    exact hfree (hr.next_occ hx hxy).1
  refine ⟨rank,⟨?_,?_,?_,?_,?_,?_,?_,?_⟩⟩
  · intro x y hx hxy
    obtain ⟨h1,h2,h3⟩ := hold hx hxy
    exact ⟨Or.inr (hr.next_occ h1 h2).1,(hr.next_occ h1 h2).2⟩
  · intro x y hx hxy
    obtain ⟨h1,h2,h3⟩ := hold hx hxy
    simp only [PointerChains.pushHead,Function.update_of_ne (hne h1 h2)]
    exact hr.next_prev h1 h2
  · intro x y hx hxy
    obtain ⟨h1,h2,h3⟩ := hold hx hxy
    rw [Function.update_of_ne (hne h1 h2),Function.update_of_ne h3]
    exact hr.next_own h1 h2
  · intro x y hx hxy
    obtain ⟨h1,h2,h3⟩ := hold hx hxy
    exact hr.next_rank h1 h2
  · intro x hx hhx
    by_cases hxa : x = a
    · subst hxa
      simp [PointerChains.pushHead]
    · simp only [PointerChains.pushHead,Function.update_of_ne hxa]
      exact hr.head_prev (hx.resolve_left hxa) hhx
  · intro x hx hhx
    by_cases hxa : x = a
    · subst hxa
      simp
    · rw [Function.update_of_ne hxa]
      exact hr.head_own (hx.resolve_left hxa) hhx
  · intro x hx hhx
    have hxa : x ≠ a := fun he => hhx (he ▸ hh)
    obtain ⟨y,hy,hyx⟩ := hr.tail_prev (hx.resolve_left hxa) hhx
    have hya : y ≠ a := fun he => hfree (he ▸ hy)
    refine ⟨y,Or.inr hy,?_⟩
    simp only [PointerChains.pushHead,Function.update_of_ne hya]
    exact hyx
  · obtain ⟨n,hn⟩ := hr.bounded
    refine ⟨max n (rank a),fun x hx => ?_⟩
    rcases hx with rfl | hx
    · exact le_max_right _ _
    · exact (hn x hx).trans (le_max_left _ _)

theorem Chained.append (h : Chained head L own) {last new : α} (hl : L.occ last)
    (hlast : L.next last = none) (hfree : ¬ L.occ new) (hh : ¬ head new) :
    Chained head (append L last new) (Function.update own new (own last)) := by
  obtain ⟨rank,hr⟩ := h
  obtain ⟨n,hn⟩ := hr.bounded
  have hln : last ≠ new := fun he => hfree (he ▸ hl)
  have hne : ∀ {x y}, L.occ x → L.next x = some y → y ≠ new := by
    rintro x y hx hxy rfl
    exact hfree (hr.next_occ hx hxy).1
  have hxn : ∀ {x}, L.occ x → x ≠ new := fun hx he => hfree (he ▸ hx)
  have hnew : (PointerChains.append L last new).next last = some new := by
    simp [PointerChains.append]
  have hkeep : ∀ {x}, x ≠ last → x ≠ new →
      (PointerChains.append L last new).next x = L.next x := by
    intro x h1 h2
    simp [PointerChains.append,h1,h2]
  -- a link of the longer store is an old one, or the one from `last` to `new`
  have hold : ∀ {x y}, (PointerChains.append L last new).occ x →
      (PointerChains.append L last new).next x = some y →
      (L.occ x ∧ L.next x = some y) ∨ (x = last ∧ y = new) := by
    intro x y hx hxy
    by_cases hxl : x = last
    · subst hxl
      exact Or.inr ⟨rfl,Option.some.inj (hxy.symm.trans hnew)⟩
    · by_cases hxn : x = new
      · subst hxn
        simp [PointerChains.append,hxl] at hxy
      · rw [hkeep hxl hxn] at hxy
        exact Or.inl ⟨hx.resolve_left hxn,hxy⟩
  refine ⟨fun x => if x = new then n+1 else rank x,⟨?_,?_,?_,?_,?_,?_,?_,?_⟩⟩
  · intro x y hx hxy
    rcases hold hx hxy with ⟨h1,h2⟩ | ⟨rfl,rfl⟩
    · exact ⟨Or.inr (hr.next_occ h1 h2).1,(hr.next_occ h1 h2).2⟩
    · exact ⟨Or.inl rfl,hh⟩
  · intro x y hx hxy
    rcases hold hx hxy with ⟨h1,h2⟩ | ⟨rfl,rfl⟩
    · simp only [PointerChains.append,Function.update_of_ne (hne h1 h2)]
      exact hr.next_prev h1 h2
    · simp [PointerChains.append]
  · intro x y hx hxy
    rcases hold hx hxy with ⟨h1,h2⟩ | ⟨rfl,rfl⟩
    · rw [Function.update_of_ne (hne h1 h2),Function.update_of_ne (hxn h1)]
      exact hr.next_own h1 h2
    · rw [Function.update_self,Function.update_of_ne hln]
  · intro x y hx hxy
    rcases hold hx hxy with ⟨h1,h2⟩ | ⟨rfl,rfl⟩
    · simp only [hxn h1,hne h1 h2,if_false]
      exact hr.next_rank h1 h2
    · have hle := hn x hl
      simp only [hln,if_false,if_true]
      omega
  · intro x hx hhx
    have hxne : x ≠ new := fun he => hh (he ▸ hhx)
    simp only [PointerChains.append,Function.update_of_ne hxne]
    exact hr.head_prev (hx.resolve_left hxne) hhx
  · intro x hx hhx
    have hxne : x ≠ new := fun he => hh (he ▸ hhx)
    rw [Function.update_of_ne hxne]
    exact hr.head_own (hx.resolve_left hxne) hhx
  · intro x hx hhx
    rcases hx with rfl | hx
    · exact ⟨last,Or.inr hl,hnew⟩
    · obtain ⟨y,hy,hyx⟩ := hr.tail_prev hx hhx
      have hyl : y ≠ last := by
        rintro rfl
        simp [hlast] at hyx
      exact ⟨y,Or.inr hy,(hkeep hyl (hxn hy)).trans hyx⟩
  · refine ⟨n+1,fun x hx => ?_⟩
    by_cases hxn : x = new
    · simp [hxn]
    · have hle := hn x (hx.resolve_left hxn)
      simp only [hxn,if_false]
      omega

theorem Chained.unlink (h : Chained head L own) {p c : α} (hc : L.occ c)
    (hp : L.prev c = some p) : Chained head (unlink L p c) own := by
  obtain ⟨hpo,hpc,hch,hown⟩ := h.prev_occ hc hp
  have hcp := h.next_ne hpo hpc
  obtain ⟨rank,hr⟩ := h
  have hself : ∀ {x y}, L.occ x → L.next x = some y → y ≠ x := by
    rintro x y hx hxy rfl
    have hlt := hr.next_rank hx hxy
    omega
  have hto : ∀ {x}, L.occ x → L.next x = some c → x = p := by
    intro x hx hxc
    exact Option.some.inj ((hr.next_prev hx hxc).symm.trans hp)
  have hkeep : ∀ {x}, x ≠ p → x ≠ c →
      (PointerChains.unlink L p c).next x = L.next x := by
    intro x h1 h2
    simp [PointerChains.unlink,h1,h2]
  have hpn : (PointerChains.unlink L p c).next p = L.next c := by
    simp [PointerChains.unlink,hcp.symm]
  -- a link that is left is an old one, or the one from `p` around `c`
  have hold : ∀ {x y}, (PointerChains.unlink L p c).occ x →
      (PointerChains.unlink L p c).next x = some y →
      L.occ x ∧ y ≠ c ∧
        ((x ≠ p ∧ L.next x = some y ∧ L.next c ≠ some y) ∨ (x = p ∧ L.next c = some y)) := by
    rintro x y ⟨hxc,hx⟩ hxy
    by_cases hxp : x = p
    · subst hxp
      rw [hpn] at hxy
      exact ⟨hx,hself hc hxy,Or.inr ⟨rfl,hxy⟩⟩
    · rw [hkeep hxp hxc] at hxy
      have hyc : y ≠ c := by
        rintro rfl
        exact hxp (hto hx hxy)
      refine ⟨hx,hyc,Or.inl ⟨hxp,hxy,fun hcy => hxc ?_⟩⟩
      exact Option.some.inj ((hr.next_prev hx hxy).symm.trans (hr.next_prev hc hcy))
  refine ⟨rank,⟨?_,?_,?_,?_,?_,?_,?_,?_⟩⟩
  · intro x y hx hxy
    obtain ⟨hxo,hyc,⟨_,h2,_⟩ | ⟨rfl,h2⟩⟩ := hold hx hxy
    · exact ⟨⟨hyc,(hr.next_occ hxo h2).1⟩,(hr.next_occ hxo h2).2⟩
    · exact ⟨⟨hyc,(hr.next_occ hc h2).1⟩,(hr.next_occ hc h2).2⟩
  · intro x y hx hxy
    obtain ⟨hxo,hyc,⟨_,h2,h3⟩ | ⟨rfl,h2⟩⟩ := hold hx hxy
    · simp only [PointerChains.unlink,hyc,h3,if_false]
      exact hr.next_prev hxo h2
    · simp [PointerChains.unlink,hyc,h2]
  · intro x y hx hxy
    obtain ⟨hxo,hyc,⟨_,h2,_⟩ | ⟨rfl,h2⟩⟩ := hold hx hxy
    · exact hr.next_own hxo h2
    · exact (hr.next_own hc h2).trans hown
  · intro x y hx hxy
    obtain ⟨hxo,hyc,⟨_,h2,_⟩ | ⟨rfl,h2⟩⟩ := hold hx hxy
    · exact hr.next_rank hxo h2
    · exact (hr.next_rank hpo hpc).trans (hr.next_rank hc h2)
  · rintro x ⟨hxc,hx⟩ hhx
    have hcx : L.next c ≠ some x := fun he => (hr.next_occ hc he).2 hhx
    simp only [PointerChains.unlink,hxc,hcx,if_false]
    exact hr.head_prev hx hhx
  · rintro x ⟨hxc,hx⟩ hhx
    exact hr.head_own hx hhx
  · rintro x ⟨hxc,hx⟩ hhx
    obtain ⟨y,hy,hyx⟩ := hr.tail_prev hx hhx
    by_cases hyc : y = c
    · subst hyc
      exact ⟨p,⟨hcp.symm,hpo⟩,hpn.trans hyx⟩
    · have hyp : y ≠ p := by
        rintro rfl
        exact hxc (Option.some.inj (hyx.symm.trans hpc))
      exact ⟨y,⟨hyc,hy⟩,(hkeep hyp hyc).trans hyx⟩
  · obtain ⟨n,hn⟩ := hr.bounded
    exact ⟨n,fun x hx => hn x hx.2⟩

theorem Chained.remove (h : Chained head L own) {a : α} (ha : L.occ a) (hh : head a)
    (hn : L.next a = none) : Chained head (remove L a) own := by
  obtain ⟨rank,hr⟩ := h
  have hna : ∀ {x y}, L.occ x → L.next x = some y → y ≠ a := by
    rintro x y hx hxy rfl
    exact (hr.next_occ hx hxy).2 hh
  have hkeep : ∀ {x}, x ≠ a → (PointerChains.remove L a).next x = L.next x := by
    intro x hx
    simp [PointerChains.remove,hx]
  refine ⟨rank,⟨?_,?_,?_,?_,?_,?_,?_,?_⟩⟩
  · rintro x y ⟨hxa,hx⟩ hxy
    rw [hkeep hxa] at hxy
    exact ⟨⟨hna hx hxy,(hr.next_occ hx hxy).1⟩,(hr.next_occ hx hxy).2⟩
  · rintro x y ⟨hxa,hx⟩ hxy
    rw [hkeep hxa] at hxy
    simp only [PointerChains.remove,Function.update_of_ne (hna hx hxy)]
    exact hr.next_prev hx hxy
  · rintro x y ⟨hxa,hx⟩ hxy
    exact hr.next_own hx ((hkeep hxa).symm.trans hxy)
  · rintro x y ⟨hxa,hx⟩ hxy
    exact hr.next_rank hx ((hkeep hxa).symm.trans hxy)
  · rintro x ⟨hxa,hx⟩ hhx
    simp only [PointerChains.remove,Function.update_of_ne hxa]
    exact hr.head_prev hx hhx
  · rintro x ⟨hxa,hx⟩ hhx
    exact hr.head_own hx hhx
  · rintro x ⟨hxa,hx⟩ hhx
    obtain ⟨y,hy,hyx⟩ := hr.tail_prev hx hhx
    have hya : y ≠ a := by
      rintro rfl
      simp [hn] at hyx
    exact ⟨y,⟨hya,hy⟩,(hkeep hya).trans hyx⟩
  · obtain ⟨n,hb⟩ := hr.bounded
    exact ⟨n,fun x hx => hb x hx.2⟩

end Operations

end PointerChains
end MarbleModules
