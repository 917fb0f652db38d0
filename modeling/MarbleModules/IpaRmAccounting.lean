import MarbleModules.IpaRmLedger

/-!
While no request callback fails and every sum of bandwidths fits its `u32`, each operation of
the manager does to the counters what it does to the ledger: a consumer's counters always
stand for the set of producers that have requested it and not yet released it.
-/
namespace MarbleModules
namespace IpaRm

open Finset

variable {n : ℕ} {s t : Manager n} {c e : Fin n} {p q : Fin n}

@[simp] theorem modifyCons_prods (f : Consumer n → Consumer n) :
    (s.modifyCons c f).prods = s.prods := rfl

@[simp] theorem modifyCons_works (f : Consumer n → Consumer n) :
    (s.modifyCons c f).works = s.works := rfl

@[simp] theorem modifyCons_borrowed (f : Consumer n → Consumer n) :
    (s.modifyCons c f).borrowed = s.borrowed := rfl

@[simp] theorem modifyCons_self (f : Consumer n → Consumer n) :
    (s.modifyCons c f).cons c = f (s.cons c) := by
  simp [Manager.modifyCons]

theorem modifyCons_of_ne (f : Consumer n → Consumer n) (he : e ≠ c) :
    (s.modifyCons c f).cons e = s.cons e := by
  simp [Manager.modifyCons,he]

@[simp] theorem modifyProd_cons (f : Producer n → Producer n) :
    (s.modifyProd p f).cons = s.cons := rfl

@[simp] theorem modifyProd_works (f : Producer n → Producer n) :
    (s.modifyProd p f).works = s.works := rfl

@[simp] theorem modifyProd_borrowed (f : Producer n → Producer n) :
    (s.modifyProd p f).borrowed = s.borrowed := rfl

@[simp] theorem modifyProd_self (f : Producer n → Producer n) :
    (s.modifyProd p f).prods p = f (s.prods p) := by
  simp [Manager.modifyProd]

theorem modifyProd_of_ne (f : Producer n → Producer n) (hq : q ≠ p) :
    (s.modifyProd p f).prods q = s.prods q := by
  simp [Manager.modifyProd,hq]

/-- A suspension in the queue falls back to a state in which the consumer may be in use. -/
def Work.Sane : Work n → Prop
  | .resume _ _ _ _ => True
  | .suspend _ prevState _ => prevState = .granted ∨ prevState = .requestInProgress

/-- The counters of a consumer stand for the producers in `U`. -/
structure Consumer.Books (x : Consumer n) (U : Finset (Fin n)) (bw : Fin n → ℕ) : Prop where
  usage : x.usageCount = U.card
  needed : x.neededBw = ∑ p ∈ U, bw p
  idle : x.state = .released ∨ x.state = .releaseInProgress → U = ∅

/-- The second manager differs from the first in the state and counters of one consumer and in
works queued for it. -/
structure Touches (c : Fin n) (s t : Manager n) : Prop where
  prods : t.prods = s.prods
  others : ∀ e, e ≠ c → t.cons e = s.cons e
  peers : (t.cons c).peers = (s.cons c).peers
  maxBw : (t.cons c).maxBw = (s.cons c).maxBw
  works : ∀ w ∈ t.works, w ∈ s.works ∨ w.Sane
  borrowed : t.borrowed = s.borrowed

namespace Touches

theorem refl (c : Fin n) (s : Manager n) : Touches c s s :=
  ⟨rfl,fun _ _ => rfl,rfl,rfl,fun _ hw => Or.inl hw,rfl⟩

theorem trans {r : Manager n} (h : Touches c r s) (h' : Touches c s t) : Touches c r t where
  prods := h'.prods.trans h.prods
  others e he := (h'.others e he).trans (h.others e he)
  peers := h'.peers.trans h.peers
  maxBw := h'.maxBw.trans h.maxBw
  works w hw := by
    rcases h'.works w hw with hs | hs
    · exact h.works w hs
    · exact Or.inr hs
  borrowed := h'.borrowed.trans h.borrowed

theorem modify (f : Consumer n → Consumer n) (hp : (f (s.cons c)).peers = (s.cons c).peers)
    (hm : (f (s.cons c)).maxBw = (s.cons c).maxBw) : Touches c s (s.modifyCons c f) where
  prods := rfl
  others _ he := modifyCons_of_ne f he
  peers := by rw [modifyCons_self,hp]
  maxBw := by rw [modifyCons_self,hm]
  works _ hw := Or.inl hw
  borrowed := rfl

theorem setState (st : ResourceState) : Touches c s (s.setConsState c st) := modify _ rfl rfl

theorem addBw (bw : ℕ) : Touches c s (s.addConsBw c bw) := modify _ rfl rfl

theorem sendWork (d : Driver n) {w : Work n} (hw : w.Sane) :
    Touches c s (s.sendWork d c w) := by
  unfold Manager.sendWork
  split
  · exact refl c s
  · refine ⟨rfl,fun _ _ => rfl,rfl,rfl,fun v hv => ?_,rfl⟩
    rcases List.mem_append.mp hv with hs | hs
    · exact Or.inl hs
    · exact Or.inr (List.mem_singleton.mp hs ▸ hw)

theorem subBw {bw : ℕ} (h : bw ≤ (s.cons c).neededBw) : Touches c s (s.subConsBw c bw) where
  prods := rfl
  others e he := by simp [Manager.subConsBw,modifyCons_of_ne _ he]
  peers := by simp [Manager.subConsBw]
  maxBw := by simp [Manager.subConsBw]
  works _ hw := Or.inl hw
  borrowed := by simp [Manager.subConsBw,h]

end Touches

@[simp] theorem sendWork_cons (d : Driver n) (w : Work n) : (s.sendWork d c w).cons = s.cons := by
  unfold Manager.sendWork
  split <;> rfl

@[simp] theorem setConsState_self (st : ResourceState) :
    (s.setConsState c st).cons c = {s.cons c with state := st} := modifyCons_self _

@[simp] theorem addConsBw_self (bw : ℕ) :
    (s.addConsBw c bw).cons c = {s.cons c with neededBw := add32 (s.cons c).neededBw bw} :=
  modifyCons_self _

@[simp] theorem subConsBw_self (bw : ℕ) :
    (s.subConsBw c bw).cons c = {s.cons c with neededBw := sub32 (s.cons c).neededBw bw} := by
  simp [Manager.subConsBw]

theorem subConsBw_of_ne (bw : ℕ) (he : e ≠ c) : (s.subConsBw c bw).cons e = s.cons e := by
  simp [Manager.subConsBw,modifyCons_of_ne _ he]

@[simp] theorem subProdBw_self (bw : ℕ) :
    (s.subProdBw p bw).prods p = {s.prods p with neededBw := sub32 (s.prods p).neededBw bw} := by
  simp [Manager.subProdBw]

theorem subProdBw_of_ne (bw : ℕ) (hq : q ≠ p) : (s.subProdBw p bw).prods q = s.prods q := by
  simp [Manager.subProdBw,modifyProd_of_ne _ hq]

/-- A request to a driver without error changes nothing but the consumer's state, which is
then no longer idle. -/
theorem consumerRequestSwitch_spec {d : Driver n} (bw : ℕ) (inc : Bool)
    (hd : (s.cons c).state = .released → d.incClientFails c = false → d.Requests c) :
    ∃ st, (st = .requestInProgress ∨ st = .granted) ∧
      Touches c s (consumerRequestSwitch d c bw inc false s).1 ∧
      (consumerRequestSwitch d c bw inc false s).1.cons c = {s.cons c with state := st} ∧
      ((consumerRequestSwitch d c bw inc false s).2 = 0 ∨
        (consumerRequestSwitch d c bw inc false s).2 = -EINPROGRESS) := by
  have hqueue : ∀ prev, Touches c s
      ((s.setConsState c .requestInProgress).sendWork d c (.resume c prev bw inc)) :=
    fun prev => (Touches.setState _).trans (Touches.sendWork d trivial)
  have hkeep : ∀ st, (s.cons c).state = st → s.cons c = {s.cons c with state := st} := by
    rintro st rfl
    rfl
  rcases hst : (s.cons c).state with _ | _ | _ | _
  · by_cases hf : d.incClientFails c = true
    · refine ⟨.requestInProgress,Or.inl rfl,?_,?_,Or.inr ?_⟩
      · simpa [consumerRequestSwitch,hst,hf] using hqueue _
      · simp [consumerRequestSwitch,hst,hf]
      · simp [consumerRequestSwitch,hst,hf]
    · have hf' : d.incClientFails c = false := by simpa using hf
      rcases hd hst hf' with hr | hr
      · refine ⟨.granted,Or.inr rfl,?_,?_,Or.inl ?_⟩
        · simpa [consumerRequestSwitch,consumerRequestWork,hst,hf',hr] using
            (Touches.setState _).trans (Touches.setState _)
        · simp [consumerRequestSwitch,consumerRequestWork,hst,hf',hr]
        · simp [consumerRequestSwitch,consumerRequestWork,hst,hf',hr]
      · have hne : (-EINPROGRESS : ℤ) ≠ 0 := by decide
        refine ⟨.requestInProgress,Or.inl rfl,?_,?_,Or.inr ?_⟩
        · simpa [consumerRequestSwitch,consumerRequestWork,hst,hf',hr,hne] using
            Touches.setState _
        · simp [consumerRequestSwitch,consumerRequestWork,hst,hf',hr,hne]
        · simp [consumerRequestSwitch,consumerRequestWork,hst,hf',hr,hne]
  · refine ⟨.requestInProgress,Or.inl rfl,?_,?_,Or.inr ?_⟩
    · simpa [consumerRequestSwitch,hst] using Touches.refl c s
    · simpa [consumerRequestSwitch,hst] using hkeep _ hst
    · simp [consumerRequestSwitch,hst]
  · refine ⟨.granted,Or.inr rfl,?_,?_,Or.inl ?_⟩
    · simpa [consumerRequestSwitch,hst] using Touches.refl c s
    · simpa [consumerRequestSwitch,hst] using hkeep _ hst
    · simp [consumerRequestSwitch,hst]
  · refine ⟨.requestInProgress,Or.inl rfl,?_,?_,Or.inr ?_⟩
    · simpa [consumerRequestSwitch,hst] using hqueue _
    · simp [consumerRequestSwitch,hst]
    · simp [consumerRequestSwitch,hst]

theorem consumerRequest_spec {d : Driver n} {U : Finset (Fin n)} {bw : Fin n → ℕ}
    (h : (s.cons c).Books U bw) (hp : p ∉ U) (hfit : ∑ q ∈ insert p U, bw q < 2^32)
    (hd : d.Serves s c) :
    Touches c s (consumerRequest d c (bw p) true false s).1 ∧
      ((consumerRequest d c (bw p) true false s).1.cons c).Books (insert p U) bw ∧
      ((consumerRequest d c (bw p) true false s).2 = 0 ∨
        (consumerRequest d c (bw p) true false s).2 = -EINPROGRESS) := by
  rw [sum_insert hp] at hfit
  have hd' : ((s.addConsBw c (bw p)).cons c).state = .released →
      d.incClientFails c = false → d.Requests c := by
    rw [addConsBw_self]
    exact hd
  obtain ⟨st,hst,htouch,hcons,hres⟩ := consumerRequestSwitch_spec (bw p) true hd'
  have hadd : add32 (s.cons c).neededBw (bw p) = bw p+∑ q ∈ U, bw q := by
    rw [h.needed,add32_of_lt (by omega)]
    omega
  rw [addConsBw_self,hadd] at hcons
  refine ⟨?_,?_,hres⟩
  · have hlast : Touches c _ (consumerRequest d c (bw p) true false s).1 :=
      Touches.modify (fun x => {x with usageCount := x.usageCount+1}) rfl rfl
    exact ((Touches.addBw _).trans htouch).trans hlast
  · have hx : (consumerRequest d c (bw p) true false s).1.cons c =
        {s.cons c with
          neededBw := bw p+∑ q ∈ U, bw q
          state := st
          usageCount := (s.cons c).usageCount+1} := by
      simp [consumerRequest,hcons]
    rw [hx]
    refine ⟨?_,?_,?_⟩
    · simp only
      rw [h.usage,card_insert_of_notMem hp]
      push_cast
      rfl
    · exact (sum_insert hp).symm
    · rintro (hi | hi) <;> simp only at hi <;> rcases hst with rfl | rfl <;> cases hi

/-- A release of the last use leaves the consumer released or being released, or back in the
state it had when the driver refuses. -/
theorem consumerReleaseWork_spec {d : Driver n} (prev : ResourceState) :
    ∃ st, Touches c s (consumerReleaseWork d c prev false s).1 ∧
      (consumerReleaseWork d c prev false s).1.cons c = {s.cons c with state := st} ∧
      (st = .released ∨ st = prev) := by
  unfold consumerReleaseWork
  simp only
  split_ifs
  all_goals first
    | exact ⟨prev,Touches.setState _,setConsState_self _,Or.inr rfl⟩
    | exact ⟨.released,Touches.setState _,setConsState_self _,Or.inl rfl⟩
    | contradiction

theorem decUsage_spec (hu : 0 < (s.cons c).usageCount) :
    decUsage c true s = s.modifyCons c fun x => {x with usageCount := x.usageCount-1} := by
  simp [decUsage,hu]

theorem consumerRelease_spec {d : Driver n} {U : Finset (Fin n)} {bw : Fin n → ℕ}
    (h : (s.cons c).Books U bw) (hp : p ∈ U) (hfit : ∑ q ∈ U, bw q < 2^32) :
    Touches c s (consumerRelease d c (bw p) true s).1 ∧
      ((consumerRelease d c (bw p) true s).1.cons c).Books (U.erase p) bw := by
  have hne : U ≠ ∅ := ne_empty_of_mem hp
  have hsum : bw p+∑ q ∈ U.erase p, bw q = ∑ q ∈ U, bw q := add_sum_erase U bw hp
  have hcard : ((U.erase p).card : ℤ) = (s.cons c).usageCount-1 := by
    have hc := card_erase_add_one hp
    rw [h.usage]
    omega
  have hpos : 0 < (s.cons c).usageCount := by
    have hc := card_pos.mpr ⟨p,hp⟩
    rw [h.usage]
    omega
  have hle : bw p ≤ (s.cons c).neededBw := by
    rw [h.needed]
    omega
  have hsub : sub32 (s.cons c).neededBw (bw p) = ∑ q ∈ U.erase p, bw q := by
    rw [h.needed,sub32_of_le hfit (by omega)]
    omega
  -- the state after the two subtractions, with which every branch goes on
  set r := (s.subConsBw c (bw p)).modifyCons c
    fun x => {x with usageCount := x.usageCount-1} with hr
  have hrt : Touches c s r := (Touches.subBw hle).trans (Touches.modify _ rfl rfl)
  have hrc : r.cons c = {s.cons c with
      neededBw := ∑ q ∈ U.erase p, bw q
      usageCount := (U.erase p).card} := by
    rw [hr,modifyCons_self,subConsBw_self,hsub,hcard]
  have hdec : decUsage c true (s.subConsBw c (bw p)) = r :=
    decUsage_spec (by rw [subConsBw_self]; exact hpos)
  have hbooks : ∀ st, (st = .released ∨ st = .releaseInProgress → U.erase p = ∅) →
      ({r.cons c with state := st} : Consumer n).Books (U.erase p) bw := by
    intro st hst
    rw [hrc]
    exact ⟨rfl,rfl,hst⟩
  have hbusy : ∀ st, (s.cons c).state = st → st = .granted ∨ st = .requestInProgress →
      Touches c s (consumerRelease d c (bw p) true s).1 ∧
        ((consumerRelease d c (bw p) true s).1.cons c).Books (U.erase p) bw := by
    intro st hst hcase
    have hidle : st = .released ∨ st = .releaseInProgress → U.erase p = ∅ := by
      rcases hcase with rfl | rfl <;> rintro (hi | hi) <;> cases hi
    have hself : r.cons c = {r.cons c with state := st} := by rw [hrc,← hst]
    by_cases hzero : (r.cons c).usageCount = 0
    · have hempty : U.erase p = ∅ := by
        rw [hrc] at hzero
        simpa using hzero
      have hwork : ∀ bw', Touches c s ((r.setConsState c .releaseInProgress).sendWork d c
          (.suspend c st bw')) := fun bw' =>
        (hrt.trans (Touches.setState _)).trans (Touches.sendWork d hcase)
      obtain ⟨st',htouch,hcons,-⟩ := consumerReleaseWork_spec
        (d := d) (c := c) (s := r.setConsState c .releaseInProgress) st
      rw [setConsState_self] at hcons
      have hnow := (hrt.trans (Touches.setState _)).trans htouch
      have hlast : (({r.cons c with state := .releaseInProgress} : Consumer n)).Books
          (U.erase p) bw := hbooks _ fun _ => hempty
      rcases hcase with rfl | rfl
      · by_cases hf : d.suspendFails c = true
        · refine ⟨?_,?_⟩
          · simpa [consumerRelease,hst,hdec,hzero,hf] using hwork (bw p)
          · simpa [consumerRelease,hst,hdec,hzero,hf] using hlast
        · refine ⟨?_,?_⟩
          · simpa [consumerRelease,hst,hdec,hzero,hf] using hnow
          · simpa [consumerRelease,hst,hdec,hzero,hf,hcons] using hbooks st' fun _ => hempty
      · refine ⟨?_,?_⟩
        · simpa [consumerRelease,hst,hdec,hzero] using hwork (bw p)
        · simpa [consumerRelease,hst,hdec,hzero] using hlast
    · have hkeep := hbooks st hidle
      rw [← hself] at hkeep
      rcases hcase with rfl | rfl
      · simpa [consumerRelease,hst,hdec,hzero] using And.intro hrt hkeep
      · simpa [consumerRelease,hst,hdec,hzero] using And.intro hrt hkeep
  rcases hst : (s.cons c).state with _ | _ | _ | _
  · exact absurd (h.idle (Or.inl hst)) hne
  · exact hbusy _ hst (Or.inr rfl)
  · exact hbusy _ hst (Or.inl rfl)
  · exact absurd (h.idle (Or.inr hst)) hne

/-- Every consumer's counters stand for the producers in its set, every producer's for its
consumers, and the two sides list each other. -/
structure Booked (s : Manager n) (U : Fin n → Finset (Fin n)) : Prop where
  mirror : ∀ p c, (s.cons c).peers p = (s.prods p).peers c
  pending : ∀ p, 0 ≤ (s.prods p).pendingRequest ∧ 0 ≤ (s.prods p).pendingRelease
  needs : ∀ p, (s.prods p).neededBw = s.ledger.prodNeeds p
  books : ∀ c, (s.cons c).Books (U c) s.ledger.prodBw
  works : ∀ w ∈ s.works, w.Sane
  clean : s.borrowed = false

theorem prodNeeds_congr {K L : Ledger n} (hd : ∀ c, K.dep p c = L.dep p c)
    (hb : K.consBw = L.consBw) : K.prodNeeds p = L.prodNeeds p := by
  have hs : K.suppliers p = L.suppliers p := by
    ext c
    rw [Ledger.mem_suppliers,Ledger.mem_suppliers,hd]
  rw [Ledger.prodNeeds,Ledger.prodNeeds,hs,hb]

theorem Touches.consBw (h : Touches c s t) : t.ledger.consBw = s.ledger.consBw := by
  funext e
  by_cases he : e = c
  · rw [he]
    exact h.maxBw
  · exact congrArg Consumer.maxBw (h.others e he)

theorem Touches.ledger (h : Touches c s t) : t.ledger = s.ledger := by
  ext1
  · simp only [Manager.ledger,h.prods]
  · exact h.consBw
  · simp only [Manager.ledger,h.prods]
  · simp only [Manager.ledger,h.prods]

namespace Booked

variable {U V : Fin n → Finset (Fin n)}

theorem congr (h : Booked s U) (hU : ∀ c, U c = V c) : Booked s V :=
  funext hU ▸ h

theorem touch (h : Booked s U) (ht : Touches c s t) {u : Finset (Fin n)}
    (hb : (t.cons c).Books u s.ledger.prodBw) : Booked t (Function.update U c u) where
  mirror p e := by
    rw [ht.prods,← h.mirror]
    by_cases he : e = c
    · rw [he,ht.peers]
    · rw [ht.others e he]
  pending p := by
    rw [ht.prods]
    exact h.pending p
  needs p := by
    rw [ht.prods,ht.ledger]
    exact h.needs p
  books e := by
    rw [ht.ledger]
    by_cases he : e = c
    · rw [he,Function.update_self]
      exact hb
    · rw [Function.update_of_ne he,ht.others e he]
      exact h.books e
  works w hw := by
    rcases ht.works w hw with hs | hs
    · exact h.works w hs
    · exact hs
  clean := ht.borrowed.trans h.clean

/-- The state and the pending counts of a producer are in no account. -/
theorem modifyProd (h : Booked s U) {f : Producer n → Producer n}
    (hm : (f (s.prods p)).maxBw = (s.prods p).maxBw)
    (hn : (f (s.prods p)).neededBw = (s.prods p).neededBw)
    (hp : (f (s.prods p)).peers = (s.prods p).peers)
    (hpend : 0 ≤ (f (s.prods p)).pendingRequest ∧ 0 ≤ (f (s.prods p)).pendingRelease) :
    Booked (s.modifyProd p f) U := by
  have hdep : ∀ q, ((s.modifyProd p f).prods q).peers = (s.prods q).peers := by
    intro q
    by_cases hq : q = p
    · rw [hq,modifyProd_self,hp]
    · rw [modifyProd_of_ne f hq]
  have hbw : (s.modifyProd p f).ledger.prodBw = s.ledger.prodBw := by
    funext q
    by_cases hq : q = p
    · rw [hq]
      exact (congrArg Producer.maxBw (modifyProd_self f)).trans hm
    · exact congrArg Producer.maxBw (modifyProd_of_ne f hq)
  refine ⟨?_,?_,?_,?_,h.works,h.clean⟩
  · intro q c
    rw [hdep,modifyProd_cons]
    exact h.mirror q c
  · intro q
    by_cases hq : q = p
    · rw [hq,modifyProd_self]
      exact hpend
    · rw [modifyProd_of_ne f hq]
      exact h.pending q
  · intro q
    have hneeds : (s.modifyProd p f).ledger.prodNeeds q = s.ledger.prodNeeds q :=
      prodNeeds_congr (fun c => congrFun (hdep q) c) rfl
    rw [hneeds,← h.needs q]
    by_cases hq : q = p
    · rw [hq,modifyProd_self,hn]
    · rw [modifyProd_of_ne f hq]
  · intro c
    rw [hbw]
    exact h.books c

theorem lt (h : Booked s U) (hfit : ∀ c, ∑ q ∈ U c, s.ledger.prodBw q < 2^32) (c : Fin n) :
    (s.cons c).neededBw < 2^32 := by
  rw [(h.books c).needed]
  exact hfit c

end Booked

/-- A record of a producer that the ledger cannot tell from another. -/
structure Producer.Same (x y : Producer n) : Prop where
  maxBw : y.maxBw = x.maxBw
  neededBw : y.neededBw = x.neededBw
  peers : y.peers = x.peers
  active : y.state.isActive = x.state.isActive
  settled : y.state = .releaseInProgress → x.state = .releaseInProgress
  pending : 0 ≤ x.pendingRequest ∧ 0 ≤ x.pendingRelease →
    0 ≤ y.pendingRequest ∧ 0 ≤ y.pendingRelease

/-- The operation from `s` to `t` only moved producers between states that the ledger does
not distinguish. -/
structure Quiet (s t : Manager n) : Prop where
  same : ∀ p, (s.prods p).Same (t.prods p)
  cons : t.cons = s.cons
  works : t.works = s.works
  borrowed : t.borrowed = s.borrowed

theorem Producer.Same.refl (x : Producer n) : x.Same x := ⟨rfl,rfl,rfl,rfl,id,id⟩

theorem Producer.Same.trans {x y z : Producer n} (h : x.Same y) (h' : y.Same z) : x.Same z :=
  ⟨h'.maxBw.trans h.maxBw,h'.neededBw.trans h.neededBw,h'.peers.trans h.peers,
    h'.active.trans h.active,h.settled ∘ h'.settled,h'.pending ∘ h.pending⟩

namespace Quiet

theorem refl (s : Manager n) : Quiet s s := ⟨fun _ => .refl _,rfl,rfl,rfl⟩

theorem trans {r : Manager n} (h : Quiet r s) (h' : Quiet s t) : Quiet r t :=
  ⟨fun p => (h.same p).trans (h'.same p),h'.cons.trans h.cons,h'.works.trans h.works,
    h'.borrowed.trans h.borrowed⟩

theorem modifyProd {f : Producer n → Producer n} (hf : (s.prods p).Same (f (s.prods p))) :
    Quiet s (s.modifyProd p f) := by
  refine ⟨fun q => ?_,rfl,rfl,rfl⟩
  by_cases hq : q = p
  · rw [hq,modifyProd_self]
    exact hf
  · rw [modifyProd_of_ne f hq]
    exact .refl _

theorem ledger (h : Quiet s t) : t.ledger = s.ledger := by
  ext1
  · exact funext fun p => (h.same p).maxBw
  · simp only [Manager.ledger,h.cons]
  · exact funext fun p => (h.same p).peers
  · exact funext fun p => (h.same p).active

theorem booked (h : Quiet s t) {U : Fin n → Finset (Fin n)} (hb : Booked s U) : Booked t U where
  mirror p c := by
    rw [h.cons,(h.same p).peers]
    exact hb.mirror p c
  pending p := (h.same p).pending (hb.pending p)
  needs p := by
    rw [(h.same p).neededBw,h.ledger]
    exact hb.needs p
  books c := by
    rw [h.cons,h.ledger]
    exact hb.books c
  works := by
    rw [h.works]
    exact hb.works
  clean := h.borrowed.trans hb.clean

end Quiet

/-- The notification of a consumer moves a producer from one active state to another, or from
one inactive state to another. -/
theorem producerHandleCb_quiet (p : Fin n) (event : Event) (s : Manager n) :
    Quiet s (producerHandleCb p event s) := by
  unfold producerHandleCb
  rcases hst : (s.prods p).state with _ | _ | _ | _
  · exact Quiet.refl s
  · simp only
    split_ifs with he hpos hzero
    · exact Quiet.refl s
    · refine (Quiet.modifyProd ?_).trans (Quiet.modifyProd ?_)
      · exact ⟨rfl,rfl,rfl,rfl,id,fun hp => ⟨by simp only; omega,hp.2⟩⟩
      · refine ⟨rfl,rfl,rfl,?_,nofun,id⟩
        rw [modifyProd_self,hst]
        rfl
    · exact Quiet.modifyProd ⟨rfl,rfl,rfl,rfl,id,fun hp => ⟨by simp only; omega,hp.2⟩⟩
    · exact Quiet.refl s
  · exact Quiet.refl s
  · simp only
    split_ifs with he hpos hzero
    · exact Quiet.refl s
    · refine (Quiet.modifyProd ?_).trans (Quiet.modifyProd ?_)
      · exact ⟨rfl,rfl,rfl,rfl,id,fun hp => ⟨hp.1,by simp only; omega⟩⟩
      · refine ⟨rfl,rfl,rfl,?_,nofun,id⟩
        rw [modifyProd_self,hst]
        rfl
    · exact Quiet.modifyProd ⟨rfl,rfl,rfl,rfl,id,fun hp => ⟨hp.1,by simp only; omega⟩⟩
    · exact Quiet.refl s

theorem notifyPeers_quiet (c : Fin n) (event : Event) (s : Manager n) :
    Quiet s (notifyPeers c event s) := by
  unfold notifyPeers
  induction List.finRange n generalizing s with
  | nil => exact Quiet.refl s
  | cons p ps ih =>
    rw [List.foldl_cons]
    split
    · exact (producerHandleCb_quiet p event s).trans (ih _)
    · exact ih s

/-- What an operation keeps beside the accounts: no producer is left being released. -/
def Settled (s : Manager n) : Prop := ∀ p, (s.prods p).state ≠ .releaseInProgress

theorem Quiet.keepsSettled (h : Quiet s t) (hs : Settled s) : Settled t :=
  fun p hp => hs p ((h.same p).settled hp)

theorem Touches.keepsSettled (h : Touches c s t) (hs : Settled s) : Settled t :=
  fun p => by
    rw [h.prods]
    exact hs p

theorem Booked.setConsState {U : Fin n → Finset (Fin n)} (h : Booked s U) {st : ResourceState}
    (hst : st = .released ∨ st = .releaseInProgress →
      (s.cons c).state = .released ∨ (s.cons c).state = .releaseInProgress) :
    Booked (s.setConsState c st) U := by
  have hb : ((s.setConsState c st).cons c).Books (U c) s.ledger.prodBw := by
    rw [setConsState_self]
    exact ⟨(h.books c).usage,(h.books c).needed,fun hi => (h.books c).idle (hst hi)⟩
  exact (h.touch (Touches.setState st) hb).congr (congrFun (Function.update_eq_self c U))

/-- A consumer's completion keeps the accounts and the ledger. -/
theorem consumerHandleCb_spec {U : Fin n → Finset (Fin n)} (h : Booked s U) (c : Fin n)
    (event : Event) :
    Booked (consumerHandleCb c event s) U ∧ (consumerHandleCb c event s).ledger = s.ledger ∧
      (Settled s → Settled (consumerHandleCb c event s)) := by
  have hset : ∀ st, (st = .released ∨ st = .releaseInProgress →
      (s.cons c).state = .released ∨ (s.cons c).state = .releaseInProgress) →
      Booked (notifyPeers c event (s.setConsState c st)) U ∧
        (notifyPeers c event (s.setConsState c st)).ledger = s.ledger ∧
        (Settled s → Settled (notifyPeers c event (s.setConsState c st))) := by
    intro st hst
    have hq := notifyPeers_quiet c event (s.setConsState c st)
    have ht : Touches c s (s.setConsState c st) := Touches.setState st
    exact ⟨hq.booked (h.setConsState hst),hq.ledger.trans ht.ledger,
      fun hs => hq.keepsSettled (ht.keepsSettled hs)⟩
  unfold consumerHandleCb
  rcases hst : (s.cons c).state with _ | _ | _ | _
  · exact ⟨h,rfl,id⟩
  · simp only
    split_ifs
    · exact ⟨h,rfl,id⟩
    · exact hset .granted (by rintro (hi | hi) <;> cases hi)
  · exact ⟨h,rfl,id⟩
  · simp only
    split_ifs
    · exact ⟨h,rfl,id⟩
    · exact hset .released fun _ => Or.inr hst

/-- Between `s` and `t` a loop went over the consumers of the producer `p`: of the producers
only the pending counts of `p` changed. -/
structure Loops (p : Fin n) (s t : Manager n) : Prop where
  prod : ∃ a b, t.prods p = {s.prods p with pendingRequest := a, pendingRelease := b}
  others : ∀ q, q ≠ p → t.prods q = s.prods q
  consBw : t.ledger.consBw = s.ledger.consBw

namespace Loops

theorem refl (p : Fin n) (s : Manager n) : Loops p s s := ⟨⟨_,_,rfl⟩,fun _ _ => rfl,rfl⟩

theorem trans {r : Manager n} (h : Loops p r s) (h' : Loops p s t) : Loops p r t where
  prod := by
    obtain ⟨a,b,hab⟩ := h.prod
    obtain ⟨a',b',hab'⟩ := h'.prod
    exact ⟨a',b',by rw [hab',hab]⟩
  others q hq := (h'.others q hq).trans (h.others q hq)
  consBw := h'.consBw.trans h.consBw

theorem ofTouches (h : Touches c s t) : Loops p s t :=
  ⟨⟨_,_,congrFun h.prods p⟩,fun q _ => congrFun h.prods q,h.consBw⟩

theorem setPending (a b : ℤ) :
    Loops p s (s.modifyProd p fun x => {x with pendingRequest := a, pendingRelease := b}) :=
  ⟨⟨a,b,modifyProd_self _⟩,fun _ hq => modifyProd_of_ne _ hq,rfl⟩

theorem maxBw (h : Loops p s t) : (t.prods p).maxBw = (s.prods p).maxBw := by
  obtain ⟨a,b,hab⟩ := h.prod
  rw [hab]

theorem peers (h : Loops p s t) : (t.prods p).peers = (s.prods p).peers := by
  obtain ⟨a,b,hab⟩ := h.prod
  rw [hab]

theorem state (h : Loops p s t) : (t.prods p).state = (s.prods p).state := by
  obtain ⟨a,b,hab⟩ := h.prod
  rw [hab]

theorem ledger (h : Loops p s t) : t.ledger = s.ledger := by
  have hprod : ∀ q, (t.prods q).maxBw = (s.prods q).maxBw ∧
      (t.prods q).peers = (s.prods q).peers ∧ (t.prods q).state = (s.prods q).state := by
    intro q
    by_cases hq : q = p
    · rw [hq]
      exact ⟨h.maxBw,h.peers,h.state⟩
    · rw [h.others q hq]
      exact ⟨rfl,rfl,rfl⟩
  ext1
  · exact funext fun q => (hprod q).1
  · exact h.consBw
  · exact funext fun q => (hprod q).2.1
  · exact funext fun q => congrArg ResourceState.isActive (hprod q).2.2

end Loops

/-- The sets after `F` was applied at each consumer of the list that is depended on. -/
def along (dep : Fin n → Option Bool) (F : Finset (Fin n) → Finset (Fin n))
    (cs : List (Fin n)) (U : Fin n → Finset (Fin n)) (c : Fin n) : Finset (Fin n) :=
  if c ∈ cs ∧ (dep c).isSome then F (U c) else U c

section

variable {dep : Fin n → Option Bool} {F : Finset (Fin n) → Finset (Fin n)}
  {cs : List (Fin n)} {U : Fin n → Finset (Fin n)}

theorem along_nil : along dep F [] U = U := by
  funext c
  simp [along]

theorem along_visit (hc : c ∉ cs) (hdep : (dep c).isSome) :
    along dep F cs (Function.update U c (F (U c))) = along dep F (c::cs) U := by
  funext e
  by_cases he : e = c
  · subst he
    simp [along,hc,hdep]
  · simp [along,he]

theorem along_skip (hdep : (dep c).isSome = false) :
    along dep F cs U = along dep F (c::cs) U := by
  funext e
  by_cases he : e = c
  · subst he
    simp [along,hdep]
  · simp [along,he]

theorem along_all : along dep F (List.finRange n) U =
    fun c => if (dep c).isSome then F (U c) else U c := by
  funext c
  simp [along]

end

/-- A loop of requests that meet no error counts the producer at each of its consumers. -/
theorem requestLoop_spec {d : Driver n} (cs : List (Fin n)) (hnd : cs.Nodup) (result : ℤ)
    {U : Fin n → Finset (Fin n)} (h : Booked s U) (hnew : ∀ c ∈ cs, p ∉ U c)
    (hfit : ∀ c ∈ cs, ((s.prods p).peers c).isSome →
      ∑ q ∈ insert p (U c), s.ledger.prodBw q < 2^32)
    (hd : ∀ c ∈ cs, ((s.prods p).peers c).isSome → d.Serves s c) :
    Loops p s (requestLoop d p cs result s).1 ∧
      Booked (requestLoop d p cs result s).1 (along (s.prods p).peers (insert p) cs U) ∧
      (requestLoop d p cs result s).2.2 = false := by
  induction cs generalizing s U result with
  | nil =>
    rw [along_nil]
    exact ⟨Loops.refl p s,h,rfl⟩
  | cons c cs ih =>
    obtain ⟨hc,hcs⟩ := List.nodup_cons.mp hnd
    by_cases hdep : ((s.prods p).peers c).isSome = true
    · -- the count raised before the request, and the request itself
      set s' := s.modifyProd p fun x => {x with pendingRequest := x.pendingRequest+1} with hs'
      have hpend := h.pending p
      have hl : Loops p s s' := Loops.setPending _ _
      have hb : Booked s' U := h.modifyProd rfl rfl rfl ⟨by simp only; omega,hpend.2⟩
      have hserve : d.Serves s' c := hd c (List.mem_cons_self) hdep
      have hsum : ∑ q ∈ insert p (U c), s'.ledger.prodBw q < 2^32 := by
        rw [hl.ledger]
        exact hfit c (List.mem_cons_self) hdep
      obtain ⟨htouch,hbooks,hres⟩ := consumerRequest_spec (hb.books c)
        (hnew c (List.mem_cons_self)) hsum hserve
      set r := consumerRequest d c (s'.ledger.prodBw p) true false s' with hr
      have hb' := hb.touch htouch hbooks
      have hl' : Loops p s r.1 := hl.trans (Loops.ofTouches htouch)
      -- the rest of the loop, from a state that is `r.1` but for the pending counts
      have hrest : ∀ (t : Manager n) (res : ℤ), Loops p s t → t.cons = r.1.cons →
          Booked t (Function.update U c (insert p (U c))) →
          Loops p s (requestLoop d p cs res t).1 ∧
            Booked (requestLoop d p cs res t).1 (along (s.prods p).peers (insert p) (c::cs) U) ∧
            (requestLoop d p cs res t).2.2 = false := by
        intro t res hlt hcons hbt
        have hstay : ∀ e ∈ cs, e ≠ c := fun e he hec => hc (hec ▸ he)
        obtain ⟨h1,h2,h3⟩ := ih hcs res hbt
          (fun e he => by
            rw [Function.update_of_ne (hstay e he)]
            exact hnew e (List.mem_cons_of_mem c he))
          (fun e he hdepe => by
            rw [hlt.peers] at hdepe
            rw [Function.update_of_ne (hstay e he),hlt.ledger]
            exact hfit e (List.mem_cons_of_mem c he) hdepe)
          (fun e he hdepe => by
            rw [hlt.peers] at hdepe
            have hsame : (t.cons e).state = (s.cons e).state := by
              rw [hcons,htouch.others e (hstay e he),hs',modifyProd_cons]
            intro hst
            exact hd e (List.mem_cons_of_mem c he) hdepe (hsame ▸ hst))
        rw [hlt.peers,along_visit hc hdep] at h2
        exact ⟨hlt.trans h1,h2,h3⟩
      have hbw : (s'.prods p).maxBw = s'.ledger.prodBw p := rfl
      simp only [requestLoop,hdep,if_true,← hs',hbw,← hr]
      have hne : (0 : ℤ) ≠ -EINPROGRESS := by decide
      rcases hres with hres | hres
      · simp only [hres,hne,if_false,ne_eq,not_true]
        refine hrest _ result (hl'.trans (Loops.setPending _ _)) rfl (hb'.modifyProd rfl rfl rfl ?_)
        rw [htouch.prods,hs',modifyProd_self]
        exact ⟨by simp only; omega,hpend.2⟩
      · simp only [hres,if_true]
        exact hrest _ _ hl' rfl hb'
    · have hdep' : ((s.prods p).peers c).isSome = false := by simpa using hdep
      simp only [requestLoop,hdep',Bool.false_eq_true,if_false]
      rw [← along_skip hdep']
      exact ih hcs result h (fun e he => hnew e (List.mem_cons_of_mem c he))
        (fun e he => hfit e (List.mem_cons_of_mem c he))
        (fun e he => hd e (List.mem_cons_of_mem c he))

/-- A loop of releases takes the producer out at each of its consumers. -/
theorem releaseLoop_spec {d : Driver n} (cs : List (Fin n)) (hnd : cs.Nodup)
    {U : Fin n → Finset (Fin n)} (h : Booked s U)
    (hin : ∀ c ∈ cs, ((s.prods p).peers c).isSome → p ∈ U c)
    (hfit : ∀ c ∈ cs, ∑ q ∈ U c, s.ledger.prodBw q < 2^32) :
    Loops p s (releaseLoop d p cs s) ∧
      ((releaseLoop d p cs s).prods p).pendingRelease = (s.prods p).pendingRelease ∧
      Booked (releaseLoop d p cs s) (along (s.prods p).peers (fun u => u.erase p) cs U) := by
  induction cs generalizing s U with
  | nil =>
    rw [along_nil]
    exact ⟨Loops.refl p s,rfl,h⟩
  | cons c cs ih =>
    obtain ⟨hc,hcs⟩ := List.nodup_cons.mp hnd
    have hcons : releaseLoop d p (c::cs) s = releaseLoop d p cs
        (if ((s.prods p).peers c).isSome then
          (consumerRelease d c
            ((s.modifyProd p fun x => {x with pendingRelease := x.pendingRelease+1}).prods p).maxBw
            true (s.modifyProd p fun x =>
              {x with pendingRelease := x.pendingRelease+1})).1.modifyProd p
            fun x => {x with pendingRelease := x.pendingRelease-1}
        else s) := rfl
    rw [hcons]
    by_cases hdep : ((s.prods p).peers c).isSome = true
    · set s' := s.modifyProd p fun x => {x with pendingRelease := x.pendingRelease+1} with hs'
      have hpend := h.pending p
      have hl : Loops p s s' := Loops.setPending _ _
      have hb : Booked s' U := h.modifyProd rfl rfl rfl ⟨hpend.1,by simp only; omega⟩
      have hsum : ∑ q ∈ U c, s'.ledger.prodBw q < 2^32 := by
        rw [hl.ledger]
        exact hfit c (List.mem_cons_self)
      obtain ⟨htouch,hbooks⟩ := consumerRelease_spec (d := d) (hb.books c)
        (hin c (List.mem_cons_self) hdep) hsum
      have hbw : (s'.prods p).maxBw = s'.ledger.prodBw p := rfl
      rw [if_pos hdep,hbw]
      set r := (consumerRelease d c (s'.ledger.prodBw p) true s').1 with hr
      set t := r.modifyProd p fun x => {x with pendingRelease := x.pendingRelease-1} with ht
      have hlt : Loops p s t :=
        (hl.trans (Loops.ofTouches htouch)).trans (Loops.setPending _ _)
      have hrel : (t.prods p).pendingRelease = (s.prods p).pendingRelease := by
        rw [ht,modifyProd_self,htouch.prods,hs',modifyProd_self]
        exact add_sub_cancel_right _ 1
      have hbt : Booked t (Function.update U c ((U c).erase p)) := by
        refine (hb.touch htouch hbooks).modifyProd rfl rfl rfl ?_
        rw [htouch.prods,hs',modifyProd_self]
        exact ⟨hpend.1,by simp only; omega⟩
      have hstay : ∀ e ∈ cs, e ≠ c := fun e he hec => hc (hec ▸ he)
      obtain ⟨h1,h2,h3⟩ := ih hcs hbt
        (fun e he hdepe => by
          rw [hlt.peers] at hdepe
          rw [Function.update_of_ne (hstay e he)]
          exact hin e (List.mem_cons_of_mem c he) hdepe)
        (fun e he => by
          rw [Function.update_of_ne (hstay e he),hlt.ledger]
          exact hfit e (List.mem_cons_of_mem c he))
      rw [hlt.peers] at h3
      have hv := along_visit (F := fun u => u.erase p) (U := U) hc hdep
      exact ⟨hlt.trans h1,h2.trans hrel,hv ▸ h3⟩
    · have hdep' : ((s.prods p).peers c).isSome = false := by simpa using hdep
      rw [if_neg hdep,← along_skip hdep']
      exact ih hcs h (fun e he => hin e (List.mem_cons_of_mem c he))
        (fun e he => hfit e (List.mem_cons_of_mem c he))

end IpaRm
end MarbleModules
