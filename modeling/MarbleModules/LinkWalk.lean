import Mathlib.Data.List.Nodup
import Mathlib.Tactic

/-! Loops that follow the links of a table from one key to the next until a stop key, where a
link may leave the table or lead back to a key already met. Nothing here names a particular
table. -/
namespace MarbleModules
namespace LinkWalk

/-- How a loop that was given some number of iterations ends. -/
inductive Outcome (σ : Type*)
  | more
  | outside
  | done (s : σ)

def Outcome.bind {σ τ : Type*} (o : Outcome σ) (f : σ → Outcome τ) : Outcome τ :=
  match o with
  | .more => .more
  | .outside => .outside
  | .done s => f s

variable {σ τ κ ι : Type*}

theorem Outcome.bind_eq_done {o : Outcome σ} {f : σ → Outcome τ} {t : τ} :
    o.bind f = .done t ↔ ∃ s,o = .done s ∧ f s = .done t := by
  cases o with
  | more => exact iff_of_false nofun (fun ⟨_,h,_⟩ => nomatch h)
  | outside => exact iff_of_false nofun (fun ⟨_,h,_⟩ => nomatch h)
  | done s =>
    constructor
    · intro h
      exact ⟨s,rfl,h⟩
    · rintro ⟨_,⟨⟩,h⟩
      exact h

variable (lookup : κ → Option ι) (link : ι → κ) (stop : κ)

/-- The keys and entries met from `a` on, when the links reach the stop key. -/
inductive Path : κ → List (κ × ι) → Prop
  | stop : Path stop []
  | cons {a : κ} {i : ι} {l : List (κ × ι)} :
      a ≠ stop → lookup a = some i → Path (link i) l → Path a ((a,i)::l)

variable {lookup link stop} {a : κ} {l l' : List (κ × ι)}

theorem Path.unique (h : Path lookup link stop a l) (h' : Path lookup link stop a l') :
    l = l' := by
  induction h generalizing l' with
  | stop =>
    cases h' with
    | stop => rfl
    | cons hne => exact absurd rfl hne
  | cons hne hi _ ih =>
    cases h' with
    | stop => exact absurd rfl hne
    | cons _ hi' hp' =>
      obtain rfl : _ = _ := Option.some.inj (hi.symm.trans hi')
      rw [ih hp']

theorem Path.inv (h : Path lookup link stop a l) (ha : a ≠ stop) :
    ∃ i t,l = (a,i)::t ∧ lookup a = some i ∧ Path lookup link stop (link i) t := by
  cases h with
  | stop => exact absurd rfl ha
  | cons _ hi ht => exact ⟨_,_,rfl,hi,ht⟩

theorem Path.of_mem (h : Path lookup link stop a l) {p : κ × ι} (hp : p ∈ l) :
    ∃ m,Path lookup link stop p.1 m ∧ m.length ≤ l.length := by
  induction h with
  | stop => exact absurd hp List.not_mem_nil
  | cons hne hi ht ih =>
    rcases List.mem_cons.mp hp with rfl | hp
    · exact ⟨_,.cons hne hi ht,le_rfl⟩
    · obtain ⟨m,hm,hle⟩ := ih hp
      exact ⟨m,hm,hle.trans (Nat.le_succ _)⟩

/-- A path that ends meets no key twice: from there on it would never end. -/
theorem Path.nodup (h : Path lookup link stop a l) : (l.map Prod.fst).Nodup := by
  induction h with
  | stop => exact List.nodup_nil
  | cons hne hi ht ih =>
    refine List.nodup_cons.mpr ⟨fun hmem => ?_,ih⟩
    obtain ⟨p,hp,rfl⟩ := List.mem_map.mp hmem
    obtain ⟨m,hm,hle⟩ := ht.of_mem hp
    have hlen := congrArg List.length (hm.unique (.cons hne hi ht))
    simp only [List.length_cons] at hlen
    omega

theorem Path.lookup_of_mem (h : Path lookup link stop a l) {p : κ × ι} (hp : p ∈ l) :
    lookup p.1 = some p.2 := by
  induction h with
  | stop => exact absurd hp List.not_mem_nil
  | cons _ hi _ ih =>
    rcases List.mem_cons.mp hp with rfl | hp
    · exact hi
    · exact ih hp

variable [DecidableEq κ]

/-- The loop, with what it does at each entry. -/
def walk (lookup : κ → Option ι) (link : ι → κ) (stop : κ) (visit : κ → ι → σ → σ) :
    ℕ → κ → σ → Outcome σ
  | 0,a,s => if a = stop then .done s else .more
  | fuel+1,a,s =>
    if a = stop then .done s
    else
      match lookup a with
      | none => .outside
      | some i => walk lookup link stop visit fuel (link i) (visit a i s)

variable {visit : κ → ι → σ → σ}

theorem Path.walk_eq (h : Path lookup link stop a l) {fuel : ℕ} (hf : l.length ≤ fuel) (s : σ) :
    walk lookup link stop visit fuel a s =
      .done (l.foldl (fun s p => visit p.1 p.2 s) s) := by
  induction h generalizing fuel s with
  | stop => cases fuel <;> exact if_pos rfl
  | cons hne hi ht ih =>
    obtain ⟨fuel,rfl⟩ : ∃ f,fuel = f+1 := ⟨fuel-1,by simp only [List.length_cons] at hf; omega⟩
    rw [walk,if_neg hne,hi]
    exact ih (Nat.le_of_succ_le_succ hf) _

theorem path_of_walk {fuel : ℕ} {s t : σ}
    (h : walk lookup link stop visit fuel a s = .done t) :
    ∃ l,Path lookup link stop a l ∧ t = l.foldl (fun s p => visit p.1 p.2 s) s := by
  induction fuel generalizing a s with
  | zero =>
    by_cases ha : a = stop
    · rw [walk,if_pos ha] at h
      exact ⟨[],ha ▸ .stop,(Outcome.done.inj h).symm⟩
    · rw [walk,if_neg ha] at h
      nomatch h
  | succ fuel ih =>
    rw [walk] at h
    by_cases ha : a = stop
    · rw [if_pos ha] at h
      exact ⟨[],ha ▸ .stop,(Outcome.done.inj h).symm⟩
    · rw [if_neg ha] at h
      cases hi : lookup a with
      | none =>
        rw [hi] at h
        nomatch h
      | some i =>
        rw [hi] at h
        obtain ⟨l,hl,ht⟩ := ih h
        exact ⟨(a,i)::l,.cons ha hi hl,ht⟩

end LinkWalk
end MarbleModules
