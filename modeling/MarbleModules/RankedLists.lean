import Mathlib.Data.List.Basic
import Mathlib.Data.Nat.Notation

/-! Lists whose elements have ranks, put in the order of the ranks. -/
namespace MarbleModules
namespace RankedLists

variable {α : Type} (rank : α → ℕ)

/-- The elements of rank 0, then those of rank 1 and so on below `n`, each in their old order. -/
def byRank (n : ℕ) (l : List α) : List α :=
  (List.range n).flatMap fun k => l.filter fun x => rank x = k

/-- A list without a step down. -/
def Ordered (l : List α) : Prop := l.Pairwise fun x y => rank x ≤ rank y

variable {rank}

theorem Ordered.append {l l' : List α} {n : ℕ} (h : Ordered rank l) (h' : Ordered rank l')
    (hle : ∀ x ∈ l, rank x ≤ n) (hge : ∀ x ∈ l', n ≤ rank x) : Ordered rank (l++l') :=
  List.pairwise_append.2 ⟨h,h',fun x hx y hy => Nat.le_trans (hle x hx) (hge y hy)⟩

/-- Elements of one rank are in order. -/
theorem ordered_const {l : List α} {n : ℕ} (h : ∀ x ∈ l, rank x = n) : Ordered rank l :=
  (List.pairwise_of_forall fun _ _ => trivial : l.Pairwise fun _ _ => True).imp_of_mem
    fun hx hy _ => Nat.le_of_eq ((h _ hx).trans (h _ hy).symm)

theorem byRank_succ (n : ℕ) (l : List α) :
    byRank rank (n+1) l = byRank rank n l++l.filter fun x => rank x = n := by
  simp [byRank,List.range_succ]

theorem byRank_congr {n : ℕ} {l l' : List α}
    (h : ∀ k < n, (l.filter fun x => rank x = k) = l'.filter fun x => rank x = k) :
    byRank rank n l = byRank rank n l' := by
  induction n with
  | zero => rfl
  | succ n ih =>
    rw [byRank_succ,byRank_succ,ih fun k hk => h k (Nat.lt_succ_of_lt hk),h n (Nat.lt_succ_self n)]

/-- What is left of a list below a rank, and the elements of that rank behind it. -/
theorem Ordered.split {n : ℕ} {l : List α} (h : Ordered rank l) (hle : ∀ x ∈ l, rank x ≤ n) :
    (l.filter fun x => rank x < n)++(l.filter fun x => rank x = n) = l := by
  induction l with
  | nil => rfl
  | cons x l ih =>
    obtain ⟨hx,hl⟩ := List.pairwise_cons.1 h
    have hrest := ih hl fun y hy => hle y (List.mem_cons_of_mem _ hy)
    by_cases hxn : rank x < n
    · have hne : rank x ≠ n := Nat.ne_of_lt hxn
      simpa [hxn,hne] using hrest
    · have heq : rank x = n := Nat.le_antisymm (hle x List.mem_cons_self) (Nat.le_of_not_lt hxn)
      have hnil : (l.filter fun y => rank y < n) = [] := by
        rw [List.filter_eq_nil_iff]
        intro y hy
        have hxy := hx y hy
        simp only [decide_eq_true_eq]
        omega
      rw [hnil,List.nil_append] at hrest
      rw [List.filter_cons_of_neg (by simpa using hxn),hnil,List.nil_append,
        List.filter_cons_of_pos (by simpa using heq),hrest]

/-- An ordered list stands in the order of its ranks. -/
theorem Ordered.byRank_eq {n : ℕ} {l : List α} (h : Ordered rank l) (hlt : ∀ x ∈ l, rank x < n) :
    byRank rank n l = l := by
  induction n generalizing l with
  | zero =>
    cases l with
    | nil => rfl
    | cons x l => exact absurd (hlt x List.mem_cons_self) (Nat.not_lt_zero _)
  | succ n ih =>
    have hbelow : byRank rank n l = byRank rank n (l.filter fun x => rank x < n) := by
      apply byRank_congr
      intro k hk
      rw [List.filter_filter]
      apply List.filter_congr
      intro x _
      by_cases hx : rank x = k
      · simp [hx,hk]
      · simp [hx]
    have hfirst := ih (l := l.filter fun x => rank x < n) (h.filter _) fun x hx => by
      simpa using (List.mem_filter.1 hx).2
    rw [byRank_succ,hbelow,hfirst]
    exact h.split fun x hx => Nat.le_of_lt_succ (hlt x hx)

theorem byRank_add (n m : ℕ) (l : List α) :
    ∃ rest, byRank rank (n+m) l = byRank rank n l++rest := by
  induction m with
  | zero => exact ⟨[],by simp⟩
  | succ m ih =>
    obtain ⟨rest,hrest⟩ := ih
    refine ⟨rest++l.filter fun x => rank x = n+m,?_⟩
    rw [← Nat.add_assoc,byRank_succ,hrest,List.append_assoc]

/-- An element that comes after elements of a higher rank moves before them. -/
theorem byRank_late {n : ℕ} {before between after : List α} {x : α} (h : Ordered rank before)
    (hle : ∀ y ∈ before, rank y ≤ rank x) (hbetween : ∀ y ∈ between, rank x < rank y)
    (hafter : ∀ y ∈ after, rank x < rank y) (hn : rank x < n) :
    ∃ rest, byRank rank n (before++between++x::after) = before++x::rest := by
  obtain ⟨m,rfl⟩ : ∃ m, n = rank x+1+m := ⟨n-(rank x+1),by omega⟩
  obtain ⟨rest,hrest⟩ := byRank_add (rank x+1) m (before++between++x::after)
  refine ⟨rest,?_⟩
  have hnone : ∀ l : List α, (∀ y ∈ l, rank x < rank y) → ∀ k < rank x+1,
      (l.filter fun y => rank y = k) = [] := by
    intro l hl k hk
    rw [List.filter_eq_nil_iff]
    intro y hy
    have hxy := hl y hy
    simp only [decide_eq_true_eq]
    omega
  have hfilter : byRank rank (rank x+1) (before++between++x::after) =
      byRank rank (rank x+1) (before++[x]) := by
    apply byRank_congr
    intro k hk
    have hcons : ∀ l : List α, x::l = [x]++l := fun _ => rfl
    rw [hcons,List.filter_append,List.filter_append,List.filter_append,List.filter_append,
      hnone between hbetween k hk,hnone after hafter k hk,List.append_nil,List.append_nil]
  have hordered : Ordered rank (before++[x]) := by
    apply h.append (List.pairwise_singleton _ _) hle
    intro y hy
    exact Nat.le_of_eq (congrArg rank (List.mem_singleton.1 hy).symm)
  have hlt : ∀ y ∈ before++[x], rank y < rank x+1 := by
    intro y hy
    rcases List.mem_append.1 hy with hy | hy
    · exact Nat.lt_succ_of_le (hle y hy)
    · rw [List.mem_singleton.1 hy]
      exact Nat.lt_succ_self _
  rw [hrest,hfilter,hordered.byRank_eq hlt,← List.append_cons]

end RankedLists
end MarbleModules
