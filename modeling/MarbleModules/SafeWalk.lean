import Mathlib.Algebra.BigOperators.Group.List.Basic
import Mathlib.Algebra.Order.BigOperators.Group.List
import Mathlib.Data.Finset.Card
import Mathlib.Data.Finset.Range
import Mathlib.Data.Fintype.Card
import Mathlib.Logic.Relation
import Mathlib.Tactic.Linarith

/-! Walks over a list that grows at its tail: `list_for_each_entry_safe` reads the node after the
current one before the body runs, and the body unlinks the node it was given. -/
namespace MarbleModules
namespace SafeWalk

/-- A list kept in a state, and the removal of its first node. -/
structure Head (σ α : Type*) where
  list : σ → List α
  pop : σ → σ
  list_pop : ∀ s, list (pop s) = (list s).tail

variable {σ α : Type*} (H : Head σ α) (body : α → σ → ℤ × σ)

/-- The walk: a nonzero code of the body ends it, else the node is unlinked. -/
def walk : ℕ → σ → Option (ℤ × σ)
  | 0,_ => none
  | fuel+1,s =>
    match H.list s with
    | [] => some (0,s)
    | x::rest =>
      if (body x s).1 ≠ 0 then some (body x s)
      -- the next node was read before the body ran: after the last one it is the list's head
      else if rest = [] then some (0,H.pop (body x s).2)
      else walk fuel (H.pop (body x s).2)

/-- The states in which the iterations of the walk begin. -/
def passes : ℕ → σ → List σ
  | 0,_ => []
  | fuel+1,s =>
    match H.list s with
    | [] => []
    | x::rest =>
      if (body x s).1 ≠ 0 ∨ rest = [] then [s] else s::passes fuel (H.pop (body x s).2)

/-- The nodes the body puts at the tail. -/
def Grows (new : α → σ → List α) : Prop :=
  ∀ x s, (body x s).1 = 0 → H.list (body x s).2 = H.list s++new x s

variable {H body}

theorem walk_cases {fuel : ℕ} {s t : σ} (h : walk H body (fuel+1) s = some (0,t)) :
    (H.list s = [] ∧ t = s) ∨
      ∃ x rest, H.list s = x::rest ∧ (body x s).1 = 0 ∧
        ((rest = [] ∧ t = H.pop (body x s).2) ∨
          (rest ≠ [] ∧ walk H body fuel (H.pop (body x s).2) = some (0,t))) := by
  rw [walk] at h
  cases hl : H.list s with
  | nil =>
    rw [hl] at h
    exact Or.inl ⟨rfl,by simpa using h.symm⟩
  | cons x rest =>
    rw [hl] at h
    refine Or.inr ⟨x,rest,rfl,?_⟩
    by_cases hrc : (body x s).1 = 0
    · refine ⟨hrc,?_⟩
      by_cases hr : rest = []
      · refine Or.inl ⟨hr,?_⟩
        simpa [hrc,hr] using h.symm
      · refine Or.inr ⟨hr,?_⟩
        simpa [hrc,hr] using h
    · have hh : body x s = (0,t) := by simpa [hrc] using h
      exact absurd (congrArg Prod.fst hh) hrc

theorem passes_nil {fuel : ℕ} {s : σ} (h : H.list s = []) : passes H body (fuel+1) s = [] := by
  rw [passes,h]

theorem passes_last {fuel : ℕ} {s : σ} {x : α} (h : H.list s = [x]) :
    passes H body (fuel+1) s = [s] := by
  simp [passes,h]

theorem passes_cons {fuel : ℕ} {s : σ} {x : α} {rest : List α} (h : H.list s = x::rest)
    (hrc : (body x s).1 = 0) (hr : rest ≠ []) :
    passes H body (fuel+1) s = s::passes H body fuel (H.pop (body x s).2) := by
  simp [passes,h,hrc,hr]

theorem Grows.list_pop {new : α → σ → List α} (hg : Grows H body new) {x : α} {rest : List α}
    {s : σ} (h : H.list s = x::rest) (hrc : (body x s).1 = 0) :
    H.list (H.pop (body x s).2) = rest++new x s := by
  rw [H.list_pop,hg x s hrc,h]
  rfl

/-- What every iteration keeps holds after the walk. -/
theorem walk_keeps (I : σ → Prop)
    (hstep : ∀ x rest s, H.list s = x::rest → (body x s).1 = 0 → I s → I (H.pop (body x s).2))
    {fuel : ℕ} {s t : σ} (h : walk H body fuel s = some (0,t)) (hI : I s) : I t := by
  induction fuel generalizing s with
  | zero => cases h
  | succ fuel ih =>
    rcases walk_cases h with ⟨_,rfl⟩ | ⟨x,rest,hl,hrc,⟨_,rfl⟩ | ⟨_,hw⟩⟩
    · exact hI
    · exact hstep x rest s hl hrc hI
    · exact ih hw (hstep x rest s hl hrc hI)

/-- The walk leaves the list empty unless it adds nodes while at the last one. -/
theorem walk_list_eq_nil_iff {new : α → σ → List α} (hg : Grows H body new) {fuel : ℕ} {s t : σ}
    (h : walk H body fuel s = some (0,t)) :
    H.list t = [] ↔ ∀ p ∈ passes H body fuel s,∀ x,H.list p = [x] → new x p = [] := by
  induction fuel generalizing s with
  | zero => cases h
  | succ fuel ih =>
    rcases walk_cases h with ⟨hl,rfl⟩ | ⟨x,rest,hl,hrc,⟨rfl,rfl⟩ | ⟨hr,hw⟩⟩
    · simp [passes_nil hl,hl]
    · rw [hg.list_pop hl hrc,passes_last hl]
      simp [hl]
    · rw [ih hw,passes_cons hl hrc hr]
      simp only [List.mem_cons,forall_eq_or_imp]
      refine (and_iff_right ?_).symm
      intro y hy
      rw [hl] at hy
      cases hy
      exact absurd rfl hr

/-- A walk ends when what a node adds weighs less than the node. -/
theorem walk_isSome {new : α → σ → List α} (hg : Grows H body new) (μ : α → ℕ)
    (hμ : ∀ x s,((new x s).map μ).sum < μ x) {fuel : ℕ} {s : σ}
    (h : ((H.list s).map μ).sum < fuel) : (walk H body fuel s).isSome := by
  induction fuel generalizing s with
  | zero => omega
  | succ fuel ih =>
    rw [walk]
    cases hl : H.list s with
    | nil => rfl
    | cons x rest =>
      by_cases hrc : (body x s).1 = 0
      · by_cases hr : rest = []
        · simp [hrc,hr]
        · simp only [hrc,hr,ne_eq,not_true_eq_false,if_false]
          apply ih
          rw [hg.list_pop hl hrc,List.map_append,List.sum_append]
          rw [hl,List.map_cons,List.sum_cons] at h
          have hx := hμ x s
          omega
      · simp [hrc]

section Generations
variable (spawn : α → List α)

/-- The nodes a list has given rise to after `k` rounds. -/
def generation : ℕ → List α → List α
  | 0,q => q
  | k+1,q => generation k (q.flatMap spawn)

/-- The last node is the only one with successors. -/
def LastAlone (q : List α) : Prop :=
  ∃ l x, q = l++[x] ∧ (∀ y ∈ l,spawn y = []) ∧ spawn x ≠ []

variable {spawn}

theorem generation_nil (k : ℕ) : generation spawn k [] = [] := by
  induction k with
  | zero => rfl
  | succ k ih => exact ih

theorem not_lastAlone_nil : ¬ LastAlone spawn [] := by
  rintro ⟨l,x,hq,_⟩
  exact absurd hq (by simp)

theorem lastAlone_singleton {x : α} : LastAlone spawn [x] ↔ spawn x ≠ [] := by
  constructor
  · rintro ⟨l,y,hq,_,hy⟩
    obtain ⟨rfl,rfl⟩ : l = [] ∧ x = y := by
      cases l with
      | nil => simpa using hq
      | cons a l => simp at hq
    exact hy
  · exact fun h => ⟨[],x,rfl,by simp,h⟩

theorem lastAlone_cons {x : α} {q : List α} (hq : q ≠ []) :
    LastAlone spawn (x::q) ↔ spawn x = [] ∧ LastAlone spawn q := by
  constructor
  · rintro ⟨l,y,he,hl,hy⟩
    cases l with
    | nil => simp at he; exact absurd he.2 hq
    | cons a l =>
      obtain ⟨rfl,rfl⟩ : x = a ∧ q = l++[y] := by simpa using he
      exact ⟨hl x (by simp),l,y,rfl,fun z hz => hl z (by simp [hz]),hy⟩
  · rintro ⟨hx,l,y,rfl,hl,hy⟩
    refine ⟨x::l,y,rfl,?_,hy⟩
    intro z hz
    rcases List.mem_cons.mp hz with rfl | hz
    · exact hx
    · exact hl z hz

theorem forall_generation {q : List α} :
    (∀ k,¬ LastAlone spawn (generation spawn k q)) ↔
      ¬ LastAlone spawn q ∧ ∀ k,¬ LastAlone spawn (generation spawn k (q.flatMap spawn)) := by
  constructor
  · exact fun h => ⟨h 0,fun k => h (k+1)⟩
  · rintro ⟨h0,h1⟩ k
    cases k with
    | zero => exact h0
    | succ k => exact h1 k

/-- The list of a walk is the rest of one generation, then the part of the next one that is
already there. -/
theorem passes_generation_aux (hg : Grows H body fun x _ => spawn x) {fuel : ℕ} {s t : σ}
    {cur nxt : List α} (hl : H.list s = cur++nxt) (h : walk H body fuel s = some (0,t)) :
    (∀ p ∈ passes H body fuel s,∀ x,H.list p = [x] → spawn x = []) ↔
      ¬ (nxt = [] ∧ LastAlone spawn cur) ∧
        ∀ k,¬ LastAlone spawn (generation spawn k (nxt++cur.flatMap spawn)) := by
  induction fuel generalizing s cur nxt with
  | zero => cases h
  | succ fuel ih =>
    have hcons : ∀ {x : α} {cur nxt : List α},H.list s = (x::cur)++nxt →
        ((∀ p ∈ passes H body (fuel+1) s,∀ x,H.list p = [x] → spawn x = []) ↔
          ¬ (nxt = [] ∧ LastAlone spawn (x::cur)) ∧
            ∀ k,¬ LastAlone spawn (generation spawn k (nxt++(x::cur).flatMap spawn))) := by
      intro x cur nxt hl
      rcases walk_cases h with ⟨hn,_⟩ | ⟨y,rest,hy,hrc,hh⟩
      · rw [hn] at hl
        cases hl
      obtain ⟨rfl,rfl⟩ : x = y ∧ cur++nxt = rest := by simpa [hl] using hy
      rcases hh with ⟨hr,_⟩ | ⟨hr,hw⟩
      · obtain ⟨rfl,rfl⟩ : cur = [] ∧ nxt = [] := by simpa using hr
        rw [passes_last hy]
        by_cases hs : spawn x = []
        · simp [hl,hs,lastAlone_singleton,generation_nil,not_lastAlone_nil]
        · simp [hl,hs,lastAlone_singleton]
      · have hl' : H.list (H.pop (body x s).2) = cur++(nxt++spawn x) := by
          rw [hg.list_pop hy hrc,List.append_assoc]
        rw [passes_cons hy hrc hr]
        simp only [List.mem_cons,forall_eq_or_imp]
        have hmany : ∀ z,H.list s = [z] → spawn z = [] := by
          intro z hz
          rw [hy,List.cons.injEq] at hz
          exact absurd hz.2 hr
        rw [and_iff_right hmany,ih hl' hw,List.flatMap_cons,← List.append_assoc]
        refine and_congr_left' (not_congr ?_)
        by_cases hn : nxt = []
        · subst hn
          have hc : cur ≠ [] := by simpa using hr
          simp [lastAlone_cons hc]
        · simp [hn]
    cases cur with
    | cons x cur => exact hcons hl
    | nil =>
      cases nxt with
      | nil =>
        rw [passes_nil hl]
        simp [generation_nil,not_lastAlone_nil]
      | cons x nxt =>
        have hl' : H.list s = (x::nxt)++[] := by rw [hl,List.nil_append,List.append_nil]
        rw [hcons hl']
        simp only [not_lastAlone_nil,and_false,not_false_eq_true,true_and,List.flatMap_nil,
          List.nil_append,List.append_nil]
        exact forall_generation.symm

/-- A walk adds nodes at the last one exactly when in some generation the last node is the only
one with successors. -/
theorem passes_generation (hg : Grows H body fun x _ => spawn x) {fuel : ℕ} {s t : σ}
    (h : walk H body fuel s = some (0,t)) :
    (∀ p ∈ passes H body fuel s,∀ x,H.list p = [x] → spawn x = []) ↔
      ∀ k,¬ LastAlone spawn (generation spawn k (H.list s)) := by
  have hl : H.list s = []++H.list s := (List.nil_append _).symm
  rw [passes_generation_aux hg hl h]
  simp [not_lastAlone_nil]

end Generations

section Rank
variable {edge : ℕ → List ℕ} {n : ℕ}

/-- The nodes of a finite acyclic graph have ranks that fall along its edges. -/
theorem exists_rank (hlt : ∀ p,∀ c ∈ edge p,c < n)
    (hac : ∀ c,¬ Relation.TransGen (fun p c => c ∈ edge p) c c) :
    ∃ rank : ℕ → ℕ,∀ p,∀ c ∈ edge p,rank c < rank p := by
  classical
  refine ⟨fun p => ((Finset.range n).filter
    fun d => Relation.TransGen (fun p c => c ∈ edge p) p d).card,?_⟩
  intro p c hc
  apply Finset.card_lt_card
  refine ⟨fun d hd => ?_,fun hsub => ?_⟩
  · rw [Finset.mem_filter] at hd ⊢
    exact ⟨hd.1,Relation.TransGen.head hc hd.2⟩
  · have hmem : c ∈ (Finset.range n).filter
        fun d => Relation.TransGen (fun p c => c ∈ edge p) p d :=
      Finset.mem_filter.mpr ⟨Finset.mem_range.mpr (hlt p c hc),Relation.TransGen.single hc⟩
    exact hac c (Finset.mem_filter.mp (hsub hmem)).2

/-- With at most `b` edges a node, powers of `b+1` weigh a node more than all it leads to. -/
theorem exists_weight (hlt : ∀ p,∀ c ∈ edge p,c < n) {b : ℕ} (hb : ∀ p,(edge p).length ≤ b)
    (hac : ∀ c,¬ Relation.TransGen (fun p c => c ∈ edge p) c c) :
    ∃ μ : ℕ → ℕ,(∀ p,0 < μ p) ∧ ∀ p,((edge p).map μ).sum < μ p := by
  obtain ⟨rank,hrank⟩ := exists_rank hlt hac
  refine ⟨fun p => (b+1)^rank p,fun p => by positivity,fun p => ?_⟩
  by_cases he : edge p = []
  · simp [he]
  obtain ⟨c,hc⟩ := List.exists_mem_of_ne_nil _ he
  obtain ⟨r,hr⟩ : ∃ r,rank p = r+1 := Nat.exists_eq_add_one.mpr (by have := hrank p c hc; omega)
  have hle : ((edge p).map fun c => (b+1)^rank c).sum ≤ (edge p).length*(b+1)^r := by
    have hh := List.sum_le_card_nsmul ((edge p).map fun c => (b+1)^rank c) ((b+1)^r) (by
      intro v hv
      obtain ⟨d,hd,rfl⟩ := List.mem_map.mp hv
      exact Nat.pow_le_pow_right (Nat.succ_pos b) (by have := hrank p d hd; omega))
    simpa using hh
  have hmul : (edge p).length*(b+1)^r ≤ b*(b+1)^r := Nat.mul_le_mul_right _ (hb p)
  have hpos : 0 < (b+1)^r := by positivity
  show ((edge p).map fun c => (b+1)^rank c).sum < (b+1)^rank p
  rw [hr,Nat.pow_succ]
  calc _ ≤ b*(b+1)^r := hle.trans hmul
    _ < (b+1)^r*(b+1) := by rw [Nat.mul_comm]; gcongr; omega

end Rank
end SafeWalk
end MarbleModules
