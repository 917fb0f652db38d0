import MarbleModules.IpaRm
import Mathlib.Algebra.BigOperators.Fin
import Mathlib.Data.Fintype.BigOperators

/-!
What the manager's counters are about: which producers depend on which consumers, which of
them hold their consumers, and the bandwidth each resource declares. The ledger keeps these
and nothing else, and every account is a sum over it.
-/
namespace MarbleModules
namespace IpaRm

open Finset

variable {n : ℕ}

/-- Dependencies, with the flag of who added them, the producers that are granted or being
requested, and the bandwidths. -/
@[ext] structure Ledger (n : ℕ) where
  prodBw : Fin n → ℕ
  consBw : Fin n → ℕ
  dep : Fin n → Fin n → Option Bool
  active : Fin n → Bool

namespace Ledger

/-- The active producers that depend on a consumer. -/
def users (L : Ledger n) (c : Fin n) : Finset (Fin n) :=
  univ.filter fun p => (L.dep p c).isSome ∧ L.active p

/-- The consumers a producer depends on. -/
def suppliers (L : Ledger n) (p : Fin n) : Finset (Fin n) :=
  univ.filter fun c => (L.dep p c).isSome

/-- The bandwidth a consumer's active producers need. -/
def consNeeds (L : Ledger n) (c : Fin n) : ℕ := ∑ p ∈ L.users c, L.prodBw p

/-- The bandwidth a producer needs of its consumers. -/
def prodNeeds (L : Ledger n) (p : Fin n) : ℕ := ∑ c ∈ L.suppliers p, L.consBw c

/-- Every sum fits the `u32` it is kept in. -/
def Fits (L : Ledger n) : Prop :=
  (∀ c, L.consNeeds c < 2^32) ∧ ∀ p, L.prodNeeds p < 2^32

instance (L : Ledger n) : Decidable L.Fits :=
  inferInstanceAs (Decidable (_ ∧ _))

def setDep (p c : Fin n) (u : Option Bool) (L : Ledger n) : Ledger n :=
  {L with dep := Function.update L.dep p (Function.update (L.dep p) c u)}

def setActive (p : Fin n) (a : Bool) (L : Ledger n) : Ledger n :=
  {L with active := Function.update L.active p a}

/-- What an operation that meets no error does to the ledger. -/
def step (L : Ledger n) : Op n → Ledger n
  | .addDependency _ p c u => if (L.dep p c).isSome then L else L.setDep p c (some u)
  | .deleteDependency _ p c u => if L.dep p c = some u then L.setDep p c none else L
  | .producerRequest _ p => L.setActive p true
  | .producerRelease _ p => L.setActive p false
  | .setProdPerfProfile p bw => {L with prodBw := Function.update L.prodBw p (bw%2^32)}
  | .setConsPerfProfile c bw => {L with consBw := Function.update L.consBw c (bw%2^32)}
  | .completion _ _ => L
  | .runWork _ => L

theorem mem_users {L : Ledger n} {p c : Fin n} :
    p ∈ L.users c ↔ (L.dep p c).isSome ∧ L.active p := by
  simp [users]

theorem mem_suppliers {L : Ledger n} {p c : Fin n} :
    c ∈ L.suppliers p ↔ (L.dep p c).isSome := by
  simp [suppliers]

@[simp] theorem setDep_prodBw (p c : Fin n) (u : Option Bool) (L : Ledger n) :
    (L.setDep p c u).prodBw = L.prodBw := rfl

@[simp] theorem setDep_consBw (p c : Fin n) (u : Option Bool) (L : Ledger n) :
    (L.setDep p c u).consBw = L.consBw := rfl

@[simp] theorem setDep_active (p c : Fin n) (u : Option Bool) (L : Ledger n) :
    (L.setDep p c u).active = L.active := rfl

@[simp] theorem setActive_dep (p : Fin n) (a : Bool) (L : Ledger n) :
    (L.setActive p a).dep = L.dep := rfl

theorem setActive_active (p q : Fin n) (a : Bool) (L : Ledger n) :
    (L.setActive p a).active q = if q = p then a else L.active q := by
  by_cases hq : q = p <;> simp [setActive,hq]

theorem setActive_same (p : Fin n) (L : Ledger n) : L.setActive p (L.active p) = L := by
  simp [setActive]

theorem setDep_dep (p c q e : Fin n) (u : Option Bool) (L : Ledger n) :
    (L.setDep p c u).dep q e = if q = p ∧ e = c then u else L.dep q e := by
  by_cases hq : q = p
  · subst hq
    by_cases he : e = c
    · simp [setDep,he]
    · simp [setDep,he]
  · simp [setDep,hq]

theorem users_add {L : Ledger n} {p c : Fin n} (u : Bool) (e : Fin n) :
    (L.setDep p c (some u)).users e =
      if e = c ∧ L.active p then insert p (L.users e) else L.users e := by
  ext q
  by_cases hq : q = p <;> by_cases he : e = c <;> by_cases ha : L.active p <;>
    simp_all [mem_users,setDep_dep]

theorem users_delete {L : Ledger n} {p c : Fin n} (e : Fin n) :
    (L.setDep p c none).users e = if e = c then (L.users e).erase p else L.users e := by
  ext q
  by_cases hq : q = p <;> by_cases he : e = c <;> simp_all [mem_users,setDep_dep]

theorem suppliers_add {L : Ledger n} {p c : Fin n} (u : Bool) (q : Fin n) :
    (L.setDep p c (some u)).suppliers q =
      if q = p then insert c (L.suppliers q) else L.suppliers q := by
  ext e
  by_cases hq : q = p <;> by_cases he : e = c <;> simp_all [mem_suppliers,setDep_dep]

theorem suppliers_delete {L : Ledger n} {p c : Fin n} (q : Fin n) :
    (L.setDep p c none).suppliers q =
      if q = p then (L.suppliers q).erase c else L.suppliers q := by
  ext e
  by_cases hq : q = p <;> by_cases he : e = c <;> simp_all [mem_suppliers,setDep_dep]

theorem users_activate {L : Ledger n} {p : Fin n} (c : Fin n) :
    (L.setActive p true).users c =
      if (L.dep p c).isSome then insert p (L.users c) else L.users c := by
  ext q
  by_cases hq : q = p <;> by_cases hd : (L.dep p c).isSome <;>
    simp_all [mem_users,setActive_active]

theorem users_deactivate {L : Ledger n} {p : Fin n} (c : Fin n) :
    (L.setActive p false).users c = (L.users c).erase p := by
  ext q
  by_cases hq : q = p <;> simp_all [mem_users,setActive_active]

end Ledger

/-- A producer that is granted or being requested. -/
def ResourceState.isActive (st : ResourceState) : Bool :=
  decide (st = .granted) || decide (st = .requestInProgress)

/-- The ledger of a manager. -/
def Manager.ledger (s : Manager n) : Ledger n where
  prodBw p := (s.prods p).maxBw
  consBw c := (s.cons c).maxBw
  dep p c := (s.prods p).peers c
  active p := (s.prods p).state.isActive

/-- Every counter is the sum of the ledger it stands for. -/
def Manager.Accounted (s : Manager n) : Prop :=
  (∀ c, (s.cons c).usageCount = (s.ledger.users c).card ∧
    (s.cons c).neededBw = s.ledger.consNeeds c) ∧
  ∀ p, (s.prods p).neededBw = s.ledger.prodNeeds p

/-- No counter has gone below zero. -/
def Manager.Unwrapped (s : Manager n) : Prop :=
  s.borrowed = false ∧ (∀ c, 0 ≤ (s.cons c).usageCount) ∧
    ∀ p, 0 ≤ (s.prods p).pendingRequest ∧ 0 ≤ (s.prods p).pendingRelease

/-- A state the claim allows: nothing has wrapped, and with no deferred work outstanding the
counters are the ledger's. -/
def Manager.Sound (s : Manager n) : Prop :=
  (s.works = [] → s.Accounted) ∧ s.Unwrapped

/-- The consumer's request callback returns no error. -/
def Driver.Requests (d : Driver n) (c : Fin n) : Prop :=
  d.requestResource c = 0 ∨ d.requestResource c = -EINPROGRESS

/-- A request of the consumer made now calls its driver at once, and if it does the driver
returns no error. -/
def Driver.Serves (d : Driver n) (s : Manager n) (c : Fin n) : Prop :=
  (s.cons c).state = .released → d.incClientFails c = false → d.Requests c

/-- The callback that a deferred work calls returns no error. -/
def Work.Served (d : Driver n) : Work n → Prop
  | .resume c _ _ _ => d.Requests c
  | .suspend _ _ _ => True

/-- No request callback that the operation calls returns an error. -/
def NoRequestError (s : Manager n) : Op n → Prop
  | .addDependency d p c _ =>
    (s.prods p).peers c = none → s.ledger.active p = true → d.Serves s c
  | .producerRequest d p =>
    s.ledger.active p = false → ∀ c, ((s.prods p).peers c).isSome → d.Serves s c
  | .runWork d => ∀ w ∈ s.works.head?, w.Served d
  | .deleteDependency _ _ _ _ | .producerRelease _ _ | .setProdPerfProfile _ _
  | .setConsPerfProfile _ _ | .completion _ _ => True

instance (d : Driver n) (c : Fin n) : Decidable (d.Requests c) :=
  inferInstanceAs (Decidable (_ ∨ _))

instance (d : Driver n) (s : Manager n) (c : Fin n) : Decidable (d.Serves s c) :=
  inferInstanceAs (Decidable (_ → _ → _))

instance (d : Driver n) : DecidablePred (Work.Served d)
  | .resume c _ _ _ => inferInstanceAs (Decidable (d.Requests c))
  | .suspend _ _ _ => isTrue trivial

instance (s : Manager n) : ∀ op, Decidable (NoRequestError s op)
  | .addDependency d p c _ => inferInstanceAs (Decidable
      ((s.prods p).peers c = none → s.ledger.active p = true → d.Serves s c))
  | .producerRequest d p => inferInstanceAs (Decidable
      (s.ledger.active p = false → ∀ c, ((s.prods p).peers c).isSome → d.Serves s c))
  | .runWork d => inferInstanceAs (Decidable (∀ w ∈ s.works.head?, w.Served d))
  | .deleteDependency _ _ _ _ | .producerRelease _ _ | .setProdPerfProfile _ _
  | .setConsPerfProfile _ _ | .completion _ _ => isTrue trivial

end IpaRm
end MarbleModules
