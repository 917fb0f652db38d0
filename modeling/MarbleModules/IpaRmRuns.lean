import MarbleModules.IpaRmAccounting

/-!
One lemma for each operation of the manager, and from them the accounts in every state of a
run. The counters stand for the ledger throughout; in particular they do while works are
outstanding.
-/
namespace MarbleModules
namespace IpaRm

open Finset
open Runs

variable {n : ℕ} {s t : Manager n} {c e : Fin n} {p q : Fin n}

/-- The accounts of a state that a run without request error reaches. -/
structure Inv (s : Manager n) : Prop where
  booked : Booked s s.ledger.users
  settled : Settled s
  fits : s.ledger.Fits

/-- What an operation leaves behind, when `L` is what it does to the ledger. -/
structure Leaves (L : Ledger n) (t : Manager n) : Prop where
  booked : Booked t L.users
  ledger : t.ledger = L
  settled : Settled t

theorem Inv.leaves (h : Inv s) : Leaves s.ledger s := ⟨h.booked,rfl,h.settled⟩

theorem Leaves.inv {L : Ledger n} (h : Leaves L t) (hfit : L.Fits) : Inv t := by
  obtain ⟨hb,rfl,hs⟩ := h
  exact ⟨hb,hs,hfit⟩

theorem Leaves.quiet {L : Ledger n} (h : Leaves L s) (hq : Quiet s t) : Leaves L t :=
  ⟨hq.booked h.booked,hq.ledger.trans h.ledger,hq.keepsSettled h.settled⟩

theorem isActive_of_settled (h : Settled s) (p : Fin n) :
    (s.ledger.active p = true ∧
      ((s.prods p).state = .granted ∨ (s.prods p).state = .requestInProgress)) ∨
    (s.ledger.active p = false ∧ (s.prods p).state = .released) := by
  have hp := h p
  simp only [Manager.ledger]
  rcases hst : (s.prods p).state with _ | _ | _ | _
  · exact Or.inr ⟨rfl,rfl⟩
  · exact Or.inl ⟨rfl,Or.inr rfl⟩
  · exact Or.inl ⟨rfl,Or.inl rfl⟩
  · exact absurd hst hp

theorem notMem_users (h : s.ledger.active p = false) (c : Fin n) : p ∉ s.ledger.users c := by
  simp [Ledger.mem_users,h]

theorem ledger_modifyProd_state {f : Producer n → Producer n}
    (hm : (f (s.prods p)).maxBw = (s.prods p).maxBw)
    (hp : (f (s.prods p)).peers = (s.prods p).peers) :
    (s.modifyProd p f).ledger = s.ledger.setActive p (f (s.prods p)).state.isActive := by
  ext1
  · funext q
    by_cases hq : q = p
    · rw [hq]
      exact (congrArg Producer.maxBw (modifyProd_self f)).trans hm
    · exact congrArg Producer.maxBw (modifyProd_of_ne f hq)
  · rfl
  · funext q
    by_cases hq : q = p
    · rw [hq]
      exact (congrArg Producer.peers (modifyProd_self f)).trans hp
    · exact congrArg Producer.peers (modifyProd_of_ne f hq)
  · funext q
    by_cases hq : q = p
    · rw [Ledger.setActive_active,if_pos hq,hq]
      exact congrArg (fun x : Producer n => x.state.isActive) (modifyProd_self f)
    · rw [Ledger.setActive_active,if_neg hq]
      exact congrArg (fun x : Producer n => x.state.isActive) (modifyProd_of_ne f hq)

theorem producerRequest_leaves {d : Driver n} (h : Inv s)
    (hd : NoRequestError s (.producerRequest d p))
    (hfit : (s.ledger.step (.producerRequest d p)).Fits) :
    Leaves (s.ledger.step (.producerRequest d p)) (producerRequest d p s).1 := by
  rcases isActive_of_settled h.settled p with ⟨ha,hst⟩ | ⟨ha,hst⟩
  · -- a producer that holds its consumers already
    have hsame : s.ledger.step (.producerRequest d p) = s.ledger := by
      rw [Ledger.step,← ha,Ledger.setActive_same]
    have hstay : (producerRequest d p s).1 = s := by
      rcases hst with hst | hst <;> simp [producerRequest,hst]
    rw [hsame,hstay]
    exact h.leaves
  · set s' := s.modifyProd p fun x => {x with state := .requestInProgress, pendingRequest := 0}
      with hs'
    have hb : Booked s' s.ledger.users :=
      h.booked.modifyProd rfl rfl rfl ⟨le_refl 0,(h.booked.pending p).2⟩
    have hl : s'.ledger = s.ledger.step (.producerRequest d p) := ledger_modifyProd_state rfl rfl
    have hpeers : (s'.prods p).peers = (s.prods p).peers := by rw [hs',modifyProd_self]
    obtain ⟨h1,h2,h3⟩ := requestLoop_spec (d := d) (p := p) (List.finRange n)
      (List.nodup_finRange n) 0 hb (fun c _ => notMem_users ha c)
      (fun c _ hdep => by
        have hc := hfit.1 c
        rw [Ledger.consNeeds,← hl] at hc
        rw [hpeers] at hdep
        have hu : s'.ledger.users c = insert p (s.ledger.users c) := by
          rw [hl]
          exact (Ledger.users_activate c).trans (if_pos hdep)
        rwa [hu] at hc)
      (fun c _ hdep => hd ha c (hpeers ▸ hdep))
    set r := requestLoop d p (List.finRange n) 0 s' with hr
    have hleaves : Leaves (s.ledger.step (.producerRequest d p)) r.1 := by
      refine ⟨h2.congr fun c => ?_,h1.ledger.trans hl,fun q => ?_⟩
      · rw [along_all,hpeers]
        exact (Ledger.users_activate (L := s.ledger) c).symm
      · by_cases hq : q = p
        · rw [hq,h1.state,hs',modifyProd_self]
          nofun
        · rw [h1.others q hq,hs',modifyProd_of_ne _ hq]
          exact h.settled q
    have hgrant : Quiet r.1 (r.1.setProdState p .granted) := by
      refine Quiet.modifyProd ⟨rfl,rfl,rfl,?_,nofun,id⟩
      rw [h1.state,hs',modifyProd_self]
      rfl
    by_cases hzero : (r.1.prods p).pendingRequest = 0
    · have heq : (producerRequest d p s).1 = r.1.setProdState p .granted := by
        simp [producerRequest,hst,← hs',← hr,h3,hzero]
      rw [heq]
      exact hleaves.quiet hgrant
    · have heq : (producerRequest d p s).1 = r.1 := by
        simp [producerRequest,hst,← hs',← hr,h3,hzero]
      rw [heq]
      exact hleaves

theorem producerRelease_leaves {d : Driver n} (h : Inv s) :
    Leaves (s.ledger.step (.producerRelease d p)) (producerRelease d p s).1 := by
  rcases isActive_of_settled h.settled p with ⟨ha,hst⟩ | ⟨ha,hst⟩
  · set s' := s.modifyProd p fun x => {x with state := .releaseInProgress, pendingRelease := 0}
      with hs'
    have hb : Booked s' s.ledger.users :=
      h.booked.modifyProd rfl rfl rfl ⟨(h.booked.pending p).1,le_refl 0⟩
    have hl : s'.ledger = s.ledger.step (.producerRelease d p) := ledger_modifyProd_state rfl rfl
    have hbw : s'.ledger.prodBw = s.ledger.prodBw := by rw [hl]; rfl
    have hpeers : (s'.prods p).peers = (s.prods p).peers := by rw [hs',modifyProd_self]
    obtain ⟨h1,h2,h3⟩ := releaseLoop_spec (d := d) (p := p) (List.finRange n)
      (List.nodup_finRange n) hb
      (fun c _ hdep => by
        rw [hpeers] at hdep
        exact Ledger.mem_users.mpr ⟨hdep,ha⟩)
      (fun c _ => by
        rw [hbw]
        exact h.fits.1 c)
    set r := releaseLoop d p (List.finRange n) s' with hr
    have hzero : (r.prods p).pendingRelease = 0 := by rw [h2,hs',modifyProd_self]
    have heq : (producerRelease d p s).1 = r.setProdState p .released := by
      rcases hst with hst | hst <;> simp [producerRelease,hst,← hs',← hr,hzero]
    rw [heq]
    have hquiet : Quiet r (r.setProdState p .released) := by
      refine Quiet.modifyProd ⟨rfl,rfl,rfl,?_,nofun,id⟩
      rw [h1.state,hs',modifyProd_self]
      rfl
    refine ⟨(hquiet.booked h3).congr fun c => ?_,
      hquiet.ledger.trans (h1.ledger.trans hl),fun q => ?_⟩
    · rw [along_all,hpeers]
      refine Eq.trans ?_ (Ledger.users_deactivate c).symm
      by_cases hdep : ((s.prods p).peers c).isSome = true
      · exact if_pos hdep
      · refine (if_neg hdep).trans (erase_eq_of_notMem fun hm => hdep ?_).symm
        exact (Ledger.mem_users.mp hm).1
    · by_cases hq : q = p
      · rw [hq,Manager.setProdState,modifyProd_self]
        nofun
      · rw [Manager.setProdState,modifyProd_of_ne _ hq,h1.others q hq,hs',modifyProd_of_ne _ hq]
        exact h.settled q
  · have hsame : s.ledger.step (.producerRelease d p) = s.ledger := by
      rw [Ledger.step,← ha,Ledger.setActive_same]
    have hstay : (producerRelease d p s).1 = s := by simp [producerRelease,hst]
    rw [hsame,hstay]
    exact h.leaves

/-- From `s` to `t` both sides of one dependency are written, and the producer's sum is that
of the consumers it then depends on. -/
structure Relinks (p c : Fin n) (u : Option Bool) (s t : Manager n) : Prop where
  others : ∀ q, q ≠ p → t.prods q = s.prods q
  maxBw : (t.prods p).maxBw = (s.prods p).maxBw
  peers : (t.prods p).peers = Function.update (s.prods p).peers c u
  active : (t.prods p).state.isActive = (s.prods p).state.isActive
  settled : (t.prods p).state = .releaseInProgress → (s.prods p).state = .releaseInProgress
  pending : 0 ≤ (t.prods p).pendingRequest ∧ 0 ≤ (t.prods p).pendingRelease
  needed : (t.prods p).neededBw = (s.ledger.setDep p c u).prodNeeds p
  consOthers : ∀ e, e ≠ c → t.cons e = s.cons e
  cons : t.cons c = {s.cons c with peers := Function.update (s.cons c).peers p u}
  works : t.works = s.works
  borrowed : t.borrowed = s.borrowed

namespace Relinks

variable {u : Option Bool}

theorem ledger (h : Relinks p c u s t) : t.ledger = s.ledger.setDep p c u := by
  ext1
  · funext q
    by_cases hq : q = p
    · rw [hq]
      exact h.maxBw
    · exact congrArg Producer.maxBw (h.others q hq)
  · funext e
    by_cases he : e = c
    · have hc : (t.cons c).maxBw = (s.cons c).maxBw := by rw [h.cons]
      rw [he]
      exact hc
    · exact congrArg Consumer.maxBw (h.consOthers e he)
  · funext q e
    rw [Ledger.setDep_dep]
    by_cases hq : q = p
    · rw [hq]
      refine (congrFun h.peers e).trans ?_
      by_cases he : e = c
      · rw [he,Function.update_self,if_pos ⟨rfl,rfl⟩]
      · rw [Function.update_of_ne he,if_neg fun hc => he hc.2]
        rfl
    · rw [if_neg fun hc => hq hc.1]
      exact congrArg (fun x : Producer n => x.peers e) (h.others q hq)
  · funext q
    by_cases hq : q = p
    · rw [hq]
      exact h.active
    · exact congrArg (fun x : Producer n => x.state.isActive) (h.others q hq)

theorem booked (h : Relinks p c u s t) {U : Fin n → Finset (Fin n)} (hb : Booked s U) :
    Booked t U where
  mirror q e := by
    have hm := hb.mirror q e
    by_cases hq : q = p <;> by_cases he : e = c
    · rw [hq,he,h.cons,h.peers]
      simp
    · rw [hq,h.consOthers e he,h.peers,Function.update_of_ne he,← hq]
      exact hm
    · rw [he,h.cons,h.others q hq,← he,← hm]
      exact Function.update_of_ne hq _ _
    · rw [h.consOthers e he,h.others q hq]
      exact hm
  pending q := by
    by_cases hq : q = p
    · rw [hq]
      exact h.pending
    · rw [h.others q hq]
      exact hb.pending q
  needs q := by
    rw [h.ledger]
    by_cases hq : q = p
    · rw [hq]
      exact h.needed
    · rw [h.others q hq,hb.needs q]
      exact prodNeeds_congr (fun e => by simp [Ledger.setDep_dep,hq]) rfl
  books e := by
    rw [h.ledger,Ledger.setDep_prodBw]
    by_cases he : e = c
    · have hc := hb.books c
      rw [he,h.cons]
      exact ⟨hc.usage,hc.needed,hc.idle⟩
    · rw [h.consOthers e he]
      exact hb.books e
  works := by
    rw [h.works]
    exact hb.works
  clean := h.borrowed.trans hb.clean

theorem keepsSettled (h : Relinks p c u s t) (hs : Settled s) : Settled t := by
  intro q hq
  by_cases hqp : q = p
  · rw [hqp] at hq
    exact hs p (h.settled hq)
  · rw [h.others q hqp] at hq
    exact hs q hq

end Relinks

theorem checkDependency_eq (h : Inv s) (p c : Fin n) :
    checkDependency p c s = (s.prods p).peers c := by
  rw [checkDependency,h.booked.mirror]
  cases (s.prods p).peers c <;> rfl

theorem setPeers_prods_self (u : Option Bool) : (setPeers p c u s).prods p =
    {s.prods p with peers := Function.update (s.prods p).peers c u} := by
  simp [setPeers]

theorem setPeers_prods_of_ne (u : Option Bool) (hq : q ≠ p) :
    (setPeers p c u s).prods q = s.prods q := by
  simp [setPeers,modifyProd_of_ne _ hq]

theorem setPeers_cons_self (u : Option Bool) : (setPeers p c u s).cons c =
    {s.cons c with peers := Function.update (s.cons c).peers p u} := by
  simp [setPeers]

theorem setPeers_cons_of_ne (u : Option Bool) (he : e ≠ c) :
    (setPeers p c u s).cons e = s.cons e := by
  simp [setPeers,modifyCons_of_ne _ he]

theorem prodNeeds_add (L : Ledger n) (hdep : L.dep p c = none) (u : Bool) :
    (L.setDep p c (some u)).prodNeeds p = L.prodNeeds p+L.consBw c := by
  have hc : c ∉ L.suppliers p := by simp [Ledger.mem_suppliers,hdep]
  rw [Ledger.prodNeeds,Ledger.suppliers_add,if_pos rfl,Ledger.setDep_consBw,sum_insert hc,add_comm]
  rfl

theorem prodNeeds_delete (L : Ledger n) (hdep : (L.dep p c).isSome) :
    (L.setDep p c none).prodNeeds p+L.consBw c = L.prodNeeds p := by
  have hc : c ∈ L.suppliers p := Ledger.mem_suppliers.mpr hdep
  rw [Ledger.prodNeeds,Ledger.suppliers_delete,if_pos rfl,Ledger.setDep_consBw]
  exact sum_erase_add _ _ hc

/-- Both sides are linked and the consumer's bandwidth is added to the producer's. -/
theorem addDependency_relinks (h : Inv s) (hdep : (s.prods p).peers c = none) (u : Bool)
    (hfit : (s.ledger.setDep p c (some u)).Fits) :
    Relinks p c (some u) s ((setPeers p c (some u) s).addProdBw p
      ((setPeers p c (some u) s).cons c).maxBw) where
  others q hq := by rw [Manager.addProdBw,modifyProd_of_ne _ hq,setPeers_prods_of_ne _ hq]
  maxBw := by rw [Manager.addProdBw,modifyProd_self,setPeers_prods_self]
  peers := by rw [Manager.addProdBw,modifyProd_self,setPeers_prods_self]
  active := by rw [Manager.addProdBw,modifyProd_self,setPeers_prods_self]
  settled := by
    rw [Manager.addProdBw,modifyProd_self,setPeers_prods_self]
    exact id
  pending := by
    rw [Manager.addProdBw,modifyProd_self,setPeers_prods_self]
    exact h.booked.pending p
  needed := by
    have hlt := hfit.2 p
    rw [prodNeeds_add s.ledger hdep,← h.booked.needs p] at hlt ⊢
    rw [Manager.addProdBw,modifyProd_self,setPeers_prods_self,setPeers_cons_self]
    exact add32_of_lt hlt
  consOthers e he := by rw [Manager.addProdBw,modifyProd_cons,setPeers_cons_of_ne _ he]
  cons := by rw [Manager.addProdBw,modifyProd_cons,setPeers_cons_self]
  works := rfl
  borrowed := rfl

/-- The switch of `ipa_rm_resource_producer_add_dependency` over the producer's state -/
def addDependencySwitch (d : Driver n) (p c : Fin n) (s : Manager n) : Manager n × ℤ :=
  match (s.prods p).state with
  | .released | .releaseInProgress => (s,0)
  | .granted | .requestInProgress =>
    let s' := s.modifyProd p fun x =>
      {x with state := .requestInProgress, pendingRequest := x.pendingRequest+1}
    let (t,result) := consumerRequest d c (s'.prods p).maxBw true false s'
    if result ≠ -EINPROGRESS then
      (t.modifyProd p fun x =>
        {x with state := (s.prods p).state, pendingRequest := x.pendingRequest-1},result)
    else (t,result)

theorem addDependency_leaves {d : Driver n} {u : Bool} (h : Inv s)
    (hd : NoRequestError s (.addDependency d p c u))
    (hfit : (s.ledger.step (.addDependency d p c u)).Fits) :
    Leaves (s.ledger.step (.addDependency d p c u)) (addDependency d p c u s).1 := by
  have hcheck := checkDependency_eq h p c
  by_cases hdep : ((s.prods p).peers c).isSome = true
  · have hsame : s.ledger.step (.addDependency d p c u) = s.ledger := if_pos hdep
    have hstay : (addDependency d p c u s).1 = s := by simp [addDependency,hcheck,hdep]
    rw [hsame,hstay]
    exact h.leaves
  have hnone : (s.prods p).peers c = none := by simpa using hdep
  have hstep : s.ledger.step (.addDependency d p c u) = s.ledger.setDep p c (some u) :=
    if_neg hdep
  rw [hstep] at hfit ⊢
  have hrel := addDependency_relinks h hnone u hfit
  set s' := (setPeers p c (some u) s).addProdBw p ((setPeers p c (some u) s).cons c).maxBw with hs'
  have hb := hrel.booked h.booked
  have hset := hrel.keepsSettled h.settled
  have hpre : (addDependency d p c u s).1 = (addDependencySwitch d p c s').1 := by
    simp only [addDependency,hcheck,hnone,Option.isSome_none,Bool.false_eq_true,if_false,← hs']
    rfl
  rw [hpre,addDependencySwitch]
  rcases isActive_of_settled hset p with ⟨ha,hst⟩ | ⟨ha,hst⟩
  · -- the producer holds its consumers, so the new one is requested as well
    have ha0 : s.ledger.active p = true := hrel.active.symm.trans ha
    set s'' := s'.modifyProd p fun x =>
      {x with state := .requestInProgress, pendingRequest := x.pendingRequest+1} with hs''
    have hpend := hb.pending p
    have hquiet : Quiet s' s'' := by
      refine Quiet.modifyProd ⟨rfl,rfl,rfl,ha.symm,(fun h => by cases h),
        fun hp => ⟨?_,hp.2⟩⟩
      simp only
      omega
    have hbq := hquiet.booked hb
    have hlq : s''.ledger = s.ledger.setDep p c (some u) := hquiet.ledger.trans hrel.ledger
    have hnew : p ∉ s.ledger.users c := fun hm => hdep (Ledger.mem_users.mp hm).1
    have hu : ∀ e, (s.ledger.setDep p c (some u)).users e =
        Function.update s.ledger.users c (insert p (s.ledger.users c)) e := by
      intro e
      rw [Ledger.users_add]
      by_cases he : e = c
      · rw [he,if_pos ⟨rfl,ha0⟩,Function.update_self]
      · rw [if_neg fun hc => he hc.1,Function.update_of_ne he]
    have hsum : ∑ q ∈ insert p (s.ledger.users c), s''.ledger.prodBw q < 2^32 := by
      have hc := hfit.1 c
      rw [Ledger.consNeeds,hu,Function.update_self,← hlq] at hc
      exact hc
    have hserve : d.Serves s'' c := by
      intro hr
      rw [hs'',modifyProd_cons,hrel.cons] at hr
      exact hd hnone ha0 hr
    obtain ⟨htouch,hbooks,-⟩ := consumerRequest_spec (hbq.books c) hnew hsum hserve
    have hbw : (s''.prods p).maxBw = s''.ledger.prodBw p := rfl
    set r := consumerRequest d c (s''.ledger.prodBw p) true false s'' with hr
    have hleaves : Leaves (s.ledger.setDep p c (some u)) r.1 :=
      ⟨(hbq.touch htouch hbooks).congr fun e => (hu e).symm,htouch.ledger.trans hlq,
        htouch.keepsSettled (hquiet.keepsSettled hset)⟩
    have hback : Quiet r.1 (r.1.modifyProd p fun x =>
        {x with state := (s'.prods p).state, pendingRequest := x.pendingRequest-1}) := by
      refine Quiet.modifyProd ⟨rfl,rfl,rfl,?_,fun hc => absurd hc (hset p),fun hp => ⟨?_,hp.2⟩⟩
      · rw [htouch.prods,hs'',modifyProd_self]
        exact ha
      · rw [htouch.prods,hs'',modifyProd_self]
        simp only
        omega
    by_cases hres : r.2 = -EINPROGRESS
    · rcases hst with hst | hst <;> simpa [hst,← hs'',hbw,← hr,hres] using hleaves
    · have hfinal := hleaves.quiet hback
      rcases hst with hst | hst
      · rw [hst] at hfinal
        simpa [hst,← hs'',hbw,← hr,hres] using hfinal
      · rw [hst] at hfinal
        simpa [hst,← hs'',hbw,← hr,hres] using hfinal
  · have hidle : s.ledger.active p = false := hrel.active.symm.trans ha
    rw [hst]
    refine ⟨hb.congr fun e => ?_,hrel.ledger,hset⟩
    rw [Ledger.users_add,if_neg]
    simp [hidle]

/-- A removed dependency lowers the pending count it may stand in, and the producer stays as
active as it was. -/
theorem deleteDependencySwitch_quiet (p c : Fin n) (s : Manager n) :
    Quiet s (deleteDependencySwitch p c s) := by
  have hreq : Quiet s (if 0 < (s.prods p).pendingRequest then
      s.modifyProd p fun x => {x with pendingRequest := x.pendingRequest-1} else s) := by
    split_ifs with hpos
    · exact Quiet.modifyProd ⟨rfl,rfl,rfl,rfl,id,fun hp => ⟨by simp only; omega,hp.2⟩⟩
    · exact Quiet.refl s
  have hrel : Quiet s (if 0 < (s.prods p).pendingRelease then
      s.modifyProd p fun x => {x with pendingRelease := x.pendingRelease-1} else s) := by
    split_ifs with hpos
    · exact Quiet.modifyProd ⟨rfl,rfl,rfl,rfl,id,fun hp => ⟨hp.1,by simp only; omega⟩⟩
    · exact Quiet.refl s
  unfold deleteDependencySwitch
  rcases hst : (s.prods p).state with _ | _ | _ | _
  · exact Quiet.refl s
  · simp only
    have hact := (hreq.same p).active
    split_ifs at hreq hact ⊢
    all_goals first
      | exact hreq
      | refine hreq.trans (Quiet.modifyProd ⟨rfl,rfl,rfl,?_,nofun,id⟩)
        rw [hact,hst]
        rfl
  · exact Quiet.refl s
  · simp only
    have hact := (hrel.same p).active
    split_ifs at hrel hact ⊢
    all_goals first
      | exact hrel
      | refine hrel.trans (Quiet.modifyProd ⟨rfl,rfl,rfl,?_,nofun,id⟩)
        rw [hact,hst]
        rfl

theorem deleteDependencySwitch_of_ne (hq : q ≠ p) :
    (deleteDependencySwitch p c s).prods q = s.prods q := by
  unfold deleteDependencySwitch
  rcases (s.prods p).state with _ | _ | _ | _
  · rfl
  · simp only
    split_ifs <;> simp [Manager.setProdState,modifyProd_of_ne _ hq]
  · rfl
  · simp only
    split_ifs <;> simp [Manager.setProdState,modifyProd_of_ne _ hq]

/-- Both sides are unlinked and the consumer's bandwidth is taken off the producer's. -/
theorem deleteDependency_relinks (h : Inv s) (hdep : ((s.prods p).peers c).isSome) :
    Relinks p c none s
      (setPeers p c none (deleteDependencySwitch p c (s.subProdBw p (s.cons c).maxBw))) := by
  have hsum := prodNeeds_delete s.ledger (p := p) (c := c) hdep
  have hbw : s.ledger.consBw c = (s.cons c).maxBw := rfl
  rw [← h.booked.needs p,hbw] at hsum
  have hlt := h.fits.2 p
  rw [← h.booked.needs p] at hlt
  set s' := s.subProdBw p (s.cons c).maxBw with hs'
  have hself : s'.prods p = {s.prods p with
      neededBw := (s.ledger.setDep p c none).prodNeeds p} := by
    have hbwle : (s.cons c).maxBw ≤ (s.prods p).neededBw := by omega
    have hleft : (s.prods p).neededBw-(s.cons c).maxBw =
        (s.ledger.setDep p c none).prodNeeds p := by omega
    rw [hs',subProdBw_self,sub32_of_le hlt hbwle,hleft]
  have hquiet := deleteDependencySwitch_quiet p c s'
  have hother : ∀ q, q ≠ p → (deleteDependencySwitch p c s').prods q = s.prods q := by
    intro q hq
    rw [deleteDependencySwitch_of_ne hq,hs',subProdBw_of_ne _ hq]
  have hsame := hquiet.same p
  rw [hself] at hsame
  refine ⟨fun q hq => ?_,?_,?_,?_,?_,?_,?_,fun e he => ?_,?_,hquiet.works,?_⟩
  · rw [setPeers_prods_of_ne _ hq,hother q hq]
  · rw [setPeers_prods_self]
    exact hsame.maxBw
  · rw [setPeers_prods_self]
    exact congrArg (fun x => Function.update x c none) hsame.peers
  · rw [setPeers_prods_self]
    exact hsame.active
  · rw [setPeers_prods_self]
    exact hsame.settled
  · rw [setPeers_prods_self]
    exact hsame.pending (h.booked.pending p)
  · rw [setPeers_prods_self]
    exact hsame.neededBw
  · rw [setPeers_cons_of_ne _ he,hquiet.cons]
    rfl
  · rw [setPeers_cons_self,hquiet.cons]
    rfl
  · refine hquiet.borrowed.trans ?_
    have hle : ¬ (s.prods p).neededBw < (s.cons c).maxBw := by omega
    simp [hs',Manager.subProdBw,hle]

theorem deleteDependency_leaves {d : Driver n} {u : Bool} (h : Inv s) :
    Leaves (s.ledger.step (.deleteDependency d p c u)) (deleteDependency d p c u s).1 := by
  have hcheck := checkDependency_eq h p c
  by_cases hu : (s.prods p).peers c = some u
  · have hstep : s.ledger.step (.deleteDependency d p c u) = s.ledger.setDep p c none := if_pos hu
    have hdep : ((s.prods p).peers c).isSome := by rw [hu]; rfl
    have hrel := deleteDependency_relinks h hdep
    have hb := hrel.booked h.booked
    have hset := hrel.keepsSettled h.settled
    rw [hstep]
    set s' := setPeers p c none (deleteDependencySwitch p c (s.subProdBw p (s.cons c).maxBw))
      with hs'
    have hbw : (s'.prods p).maxBw = s'.ledger.prodBw p := rfl
    rcases isActive_of_settled h.settled p with ⟨ha,hst⟩ | ⟨ha,hst⟩
    · have hmem : p ∈ s.ledger.users c := Ledger.mem_users.mpr ⟨hdep,ha⟩
      have hfit : ∑ q ∈ s.ledger.users c, s'.ledger.prodBw q < 2^32 := by
        rw [hrel.ledger]
        exact h.fits.1 c
      obtain ⟨htouch,hbooks⟩ := consumerRelease_spec (d := d) (hb.books c) hmem hfit
      have heq : (deleteDependency d p c u s).1 =
          (consumerRelease d c (s'.ledger.prodBw p) true s').1 := by
        rcases hst with hst | hst <;>
          simp [deleteDependency,hcheck,hu,hst,← hs',hbw]
      rw [heq]
      refine ⟨(hb.touch htouch hbooks).congr fun e => ?_,htouch.ledger.trans hrel.ledger,
        htouch.keepsSettled hset⟩
      rw [Ledger.users_delete]
      by_cases he : e = c
      · rw [he,if_pos rfl,Function.update_self]
      · rw [if_neg he,Function.update_of_ne he]
    · have heq : (deleteDependency d p c u s).1 = s' := by
        simp [deleteDependency,hcheck,hu,hst,← hs']
      rw [heq]
      refine ⟨hb.congr fun e => ?_,hrel.ledger,hset⟩
      rw [Ledger.users_delete,erase_eq_of_notMem (notMem_users ha e),ite_self]
  · have hsame : s.ledger.step (.deleteDependency d p c u) = s.ledger := if_neg hu
    have hstay : (deleteDependency d p c u s).1 = s := by
      rcases hp : (s.prods p).peers c with _ | v
      · simp [deleteDependency,hcheck,hp]
      · have hv : v ≠ u := fun hv => hu (hv ▸ hp)
        simp [deleteDependency,hcheck,hp,hv]
    rw [hsame,hstay]
    exact h.leaves

theorem sum_update_add {U : Finset (Fin n)} (f : Fin n → ℕ) (v : ℕ) (hp : p ∈ U) :
    ∑ q ∈ U, Function.update f p v q+f p = ∑ q ∈ U, f q+v := by
  have hrest : ∑ q ∈ U.erase p, Function.update f p v q = ∑ q ∈ U.erase p, f q :=
    sum_congr rfl fun q hq => Function.update_of_ne (ne_of_mem_erase hq) _ _
  rw [← add_sum_erase U _ hp,← add_sum_erase U f hp,hrest,Function.update_self]
  omega

theorem sum_update_notMem {U : Finset (Fin n)} (f : Fin n → ℕ) (v : ℕ) (hp : p ∉ U) :
    ∑ q ∈ U, Function.update f p v q = ∑ q ∈ U, f q :=
  sum_congr rfl fun _ hq => Function.update_of_ne (ne_of_mem_of_not_mem hq hp) _ _

/-- The sum of a resource's peers after one of them changed its bandwidth, as the code
computes it. -/
theorem add32_sub32_sum {U : Finset (Fin n)} (f : Fin n → ℕ) (v : ℕ) (hp : p ∈ U)
    (hold : ∑ q ∈ U, f q < 2^32) (hnew : ∑ q ∈ U, Function.update f p v q < 2^32) :
    f p ≤ ∑ q ∈ U, f q ∧
      add32 (sub32 (∑ q ∈ U, f q) (f p)) v = ∑ q ∈ U, Function.update f p v q := by
  have hle : f p ≤ ∑ q ∈ U, f q := single_le_sum (fun _ _ => Nat.zero_le _) hp
  have hsum := sum_update_add f v hp
  refine ⟨hle,?_⟩
  rw [sub32_of_le hold hle,add32_of_lt (by omega)]
  omega

section Visit

variable {σ ι α κ : Type} [DecidableEq ι] (view : σ → ι → α) (key : σ → κ) (dep : κ → ι → Bool)
  (ok : κ → α → Prop) (upd : κ → α → α) (body : σ → ι → σ)

/-- A loop over distinct places that changes no other place than the one it is at, and nothing
that it decides by. -/
theorem foldl_visit
    (hbody : ∀ s i, dep (key s) i = true → ok (key s) (view s i) → key (body s i) = key s ∧
      view (body s i) = Function.update (view s) i (upd (key s) (view s i)))
    {l : List ι} (hnd : l.Nodup) (s : σ)
    (hok : ∀ i ∈ l, dep (key s) i = true → ok (key s) (view s i)) :
    key (l.foldl (fun s i => if dep (key s) i = true then body s i else s) s) = key s ∧
      ∀ j, view (l.foldl (fun s i => if dep (key s) i = true then body s i else s) s) j =
        if j ∈ l ∧ dep (key s) j = true then upd (key s) (view s j) else view s j := by
  induction l generalizing s with
  | nil => exact ⟨rfl,fun j => by simp⟩
  | cons i l ih =>
    obtain ⟨hi,hl⟩ := List.nodup_cons.mp hnd
    rw [List.foldl_cons]
    by_cases hdep : dep (key s) i = true
    · rw [if_pos hdep]
      obtain ⟨hkey,hview⟩ := hbody s i hdep (hok i List.mem_cons_self hdep)
      have hother : ∀ j, j ≠ i → view (body s i) j = view s j := fun j hj => by
        rw [hview,Function.update_of_ne hj]
      obtain ⟨hk,hv⟩ := ih hl (body s i) fun j hj hd => by
        rw [hkey] at hd ⊢
        rw [hother j (ne_of_mem_of_not_mem hj hi)]
        exact hok j (List.mem_cons_of_mem i hj) hd
      refine ⟨hk.trans hkey,fun j => ?_⟩
      rw [hv j,hkey]
      by_cases hj : j = i
      · subst hj
        rw [if_neg fun hm => hi hm.1,if_pos ⟨List.mem_cons_self,hdep⟩,hview,
          Function.update_self]
      · rw [hother j hj]
        simp [hj]
    · rw [if_neg hdep]
      obtain ⟨hk,hv⟩ := ih hl s fun j hj => hok j (List.mem_cons_of_mem i hj)
      refine ⟨hk,fun j => ?_⟩
      rw [hv j]
      by_cases hj : j = i
      · subst hj
        rw [if_neg fun hm => hdep hm.2,if_neg fun hm => hdep hm.2]
      · simp [hj]

end Visit

/-- The loop of `ipa_rm_resource_set_perf_profile` over a producer's consumers. -/
theorem prodPeersLoop_spec (p : Fin n) (bw : ℕ) (cs : List (Fin n)) (hnd : cs.Nodup)
    (s : Manager n)
    (hle : ∀ c ∈ cs, ((s.prods p).peers c).isSome → (s.prods p).maxBw ≤ (s.cons c).neededBw) :
    ∃ t, cs.foldl (fun s c => if ((s.prods p).peers c).isSome then
        (s.subConsBw c (s.prods p).maxBw).addConsBw c bw else s) s = t ∧
      t.prods = s.prods ∧ t.works = s.works ∧ t.borrowed = s.borrowed ∧
      ∀ c, t.cons c = if c ∈ cs ∧ ((s.prods p).peers c).isSome then
        {s.cons c with neededBw := add32 (sub32 (s.cons c).neededBw (s.prods p).maxBw) bw}
        else s.cons c := by
  have hvisit := foldl_visit Manager.cons
    (fun s : Manager n => (s.prods,s.works,s.borrowed))
    (fun k c => ((k.1 p).peers c).isSome)
    (fun k x => (k.1 p).maxBw ≤ x.neededBw)
    (fun k x => {x with neededBw := add32 (sub32 x.neededBw (k.1 p).maxBw) bw})
    (fun s c => (s.subConsBw c (s.prods p).maxBw).addConsBw c bw)
    (fun s c _ hok => by
      refine ⟨by simp [Manager.addConsBw,Manager.subConsBw,hok],funext fun e => ?_⟩
      by_cases he : e = c
      · subst he
        rw [Function.update_self,addConsBw_self,subConsBw_self]
      · rw [Function.update_of_ne he,Manager.addConsBw,modifyCons_of_ne _ he,
          subConsBw_of_ne _ he])
    hnd s hle
  obtain ⟨hkey,hcons⟩ := hvisit
  simp only [Prod.mk.injEq] at hkey
  exact ⟨_,rfl,hkey.1,hkey.2.1,hkey.2.2,hcons⟩

/-- The loop of `ipa_rm_resource_set_perf_profile` over a consumer's producers. -/
theorem consPeersLoop_spec (c : Fin n) (bw : ℕ) (ps : List (Fin n)) (hnd : ps.Nodup)
    (s : Manager n)
    (hle : ∀ p ∈ ps, ((s.cons c).peers p).isSome → (s.cons c).maxBw ≤ (s.prods p).neededBw) :
    ∃ t, ps.foldl (fun s p => if ((s.cons c).peers p).isSome then
        (s.subProdBw p (s.cons c).maxBw).addProdBw p bw else s) s = t ∧
      t.cons = s.cons ∧ t.works = s.works ∧ t.borrowed = s.borrowed ∧
      ∀ p, t.prods p = if p ∈ ps ∧ ((s.cons c).peers p).isSome then
        {s.prods p with neededBw := add32 (sub32 (s.prods p).neededBw (s.cons c).maxBw) bw}
        else s.prods p := by
  have hvisit := foldl_visit Manager.prods
    (fun s : Manager n => (s.cons,s.works,s.borrowed))
    (fun k p => ((k.1 c).peers p).isSome)
    (fun k x => (k.1 c).maxBw ≤ x.neededBw)
    (fun k x => {x with neededBw := add32 (sub32 x.neededBw (k.1 c).maxBw) bw})
    (fun s p => (s.subProdBw p (s.cons c).maxBw).addProdBw p bw)
    (fun s p _ hok => by
      refine ⟨by simp [Manager.addProdBw,Manager.subProdBw,hok],funext fun q => ?_⟩
      by_cases hq : q = p
      · subst hq
        rw [Function.update_self,Manager.addProdBw,modifyProd_self,subProdBw_self]
      · rw [Function.update_of_ne hq,Manager.addProdBw,modifyProd_of_ne _ hq,
          subProdBw_of_ne _ hq])
    hnd s hle
  obtain ⟨hkey,hprods⟩ := hvisit
  simp only [Prod.mk.injEq] at hkey
  exact ⟨_,rfl,hkey.1,hkey.2.1,hkey.2.2,hprods⟩

/-- The producer's bandwidth can be set once the books of the consumers are right for it. -/
theorem setProdBw_leaves {bw : ℕ} (h : Inv s) {t : Manager n} (hprods : t.prods = s.prods)
    (hworks : t.works = s.works) (hborrowed : t.borrowed = s.borrowed)
    (hmax : ∀ c, (t.cons c).maxBw = (s.cons c).maxBw)
    (hpeers : ∀ c, (t.cons c).peers = (s.cons c).peers)
    (hbooks : ∀ c, (t.cons c).Books (s.ledger.users c)
      (s.ledger.step (.setProdPerfProfile p bw)).prodBw) :
    Leaves (s.ledger.step (.setProdPerfProfile p bw))
      (t.modifyProd p fun x => {x with maxBw := bw%2^32}) := by
  set t' := t.modifyProd p fun x => {x with maxBw := bw%2^32} with ht'
  have hself : t'.prods p = {s.prods p with maxBw := bw%2^32} := by
    rw [ht',modifyProd_self,hprods]
  have hother : ∀ q, q ≠ p → t'.prods q = s.prods q := by
    intro q hq
    rw [ht',modifyProd_of_ne _ hq,hprods]
  have hfield : ∀ q, (t'.prods q).peers = (s.prods q).peers ∧
      (t'.prods q).state = (s.prods q).state ∧
      (t'.prods q).neededBw = (s.prods q).neededBw ∧
      (t'.prods q).pendingRequest = (s.prods q).pendingRequest ∧
      (t'.prods q).pendingRelease = (s.prods q).pendingRelease := by
    intro q
    by_cases hq : q = p
    · rw [hq,hself]
      exact ⟨rfl,rfl,rfl,rfl,rfl⟩
    · rw [hother q hq]
      exact ⟨rfl,rfl,rfl,rfl,rfl⟩
  have hledger : t'.ledger = s.ledger.step (.setProdPerfProfile p bw) := by
    have hbw : (s.ledger.step (.setProdPerfProfile p bw)).prodBw =
        Function.update s.ledger.prodBw p (bw%2^32) := rfl
    ext1
    · funext q
      rw [hbw]
      by_cases hq : q = p
      · rw [hq,Function.update_self]
        exact congrArg Producer.maxBw hself
      · rw [Function.update_of_ne hq]
        exact congrArg Producer.maxBw (hother q hq)
    · exact funext hmax
    · exact funext fun q => (hfield q).1
    · exact funext fun q => congrArg ResourceState.isActive (hfield q).2.1
  refine ⟨⟨fun q c => ?_,fun q => ?_,fun q => ?_,fun c => ?_,?_,?_⟩,hledger,fun q => ?_⟩
  · rw [ht',modifyProd_cons,hpeers,← ht',(hfield q).1]
    exact h.booked.mirror q c
  · rw [(hfield q).2.2.2.1,(hfield q).2.2.2.2]
    exact h.booked.pending q
  · rw [(hfield q).2.2.1,hledger]
    exact h.booked.needs q
  · rw [hledger]
    exact hbooks c
  · rw [ht',modifyProd_works,hworks]
    exact h.booked.works
  · exact hborrowed.trans h.booked.clean
  · rw [(hfield q).2.1]
    exact h.settled q

theorem setProdPerfProfile_leaves {bw : ℕ} (h : Inv s)
    (hfit : (s.ledger.step (.setProdPerfProfile p bw)).Fits) :
    Leaves (s.ledger.step (.setProdPerfProfile p bw)) (setProdPerfProfile p bw s) := by
  by_cases heq : bw%2^32 = (s.prods p).maxBw
  · have hsame : s.ledger.step (.setProdPerfProfile p bw) = s.ledger := by
      have hp : s.ledger.prodBw p = bw%2^32 := heq.symm
      rw [Ledger.step,← hp,Function.update_eq_self]
    have hstay : setProdPerfProfile p bw s = s := if_pos heq
    rw [hsame,hstay]
    exact h.leaves
  have hkeep : ∀ c, p ∉ s.ledger.users c → (s.cons c).Books (s.ledger.users c)
      (s.ledger.step (.setProdPerfProfile p bw)).prodBw := by
    intro c hc
    have hb := h.booked.books c
    exact ⟨hb.usage,hb.needed.trans (sum_update_notMem _ _ hc).symm,hb.idle⟩
  rcases isActive_of_settled h.settled p with ⟨ha,hst⟩ | ⟨ha,hst⟩
  · have hmem : ∀ c, ((s.prods p).peers c).isSome = true ↔ p ∈ s.ledger.users c := fun c =>
      (Ledger.mem_users.trans (and_iff_left ha)).symm
    have hnew : ∀ c, p ∈ s.ledger.users c → (s.prods p).maxBw ≤ (s.cons c).neededBw ∧
        add32 (sub32 (s.cons c).neededBw (s.prods p).maxBw) (bw%2^32) =
          ∑ q ∈ s.ledger.users c, (s.ledger.step (.setProdPerfProfile p bw)).prodBw q := by
      intro c hc
      rw [(h.booked.books c).needed]
      exact add32_sub32_sum s.ledger.prodBw (bw%2^32) hc (h.fits.1 c) (hfit.1 c)
    obtain ⟨t,ht,hprods,hworks,hborrowed,hcons⟩ := prodPeersLoop_spec p (bw%2^32)
      (List.finRange n) (List.nodup_finRange n) s
      (fun c _ hdep => (hnew c ((hmem c).mp hdep)).1)
    have hrun : setProdPerfProfile p bw s = t.modifyProd p fun x => {x with maxBw := bw%2^32} := by
      have hor : (s.prods p).state = .granted ∨ (s.prods p).state = .requestInProgress := hst
      simp only [setProdPerfProfile,heq,if_false,hor,if_true,ht]
    rw [hrun]
    refine setProdBw_leaves h hprods hworks hborrowed (fun c => ?_) (fun c => ?_) (fun c => ?_)
    · rw [hcons c]
      split_ifs <;> rfl
    · rw [hcons c]
      split_ifs <;> rfl
    · rw [hcons c]
      have hb := h.booked.books c
      split_ifs with hdep
      · exact ⟨hb.usage,(hnew c ((hmem c).mp hdep.2)).2,hb.idle⟩
      · exact hkeep c fun hm => hdep ⟨List.mem_finRange c,(hmem c).mpr hm⟩
  · have hrun : setProdPerfProfile p bw s = s.modifyProd p fun x => {x with maxBw := bw%2^32} := by
      have hor : ¬ ((s.prods p).state = .granted ∨ (s.prods p).state = .requestInProgress) := by
        rw [hst]
        decide
      simp only [setProdPerfProfile,heq,if_false,hor]
    rw [hrun]
    exact setProdBw_leaves h rfl rfl rfl (fun _ => rfl) (fun _ => rfl) fun c =>
      hkeep c (notMem_users ha c)

theorem setConsPerfProfile_leaves {bw : ℕ} (h : Inv s)
    (hfit : (s.ledger.step (.setConsPerfProfile c bw)).Fits) :
    Leaves (s.ledger.step (.setConsPerfProfile c bw)) (setConsPerfProfile c bw s) := by
  by_cases heq : bw%2^32 = (s.cons c).maxBw
  · have hsame : s.ledger.step (.setConsPerfProfile c bw) = s.ledger := by
      have hc : s.ledger.consBw c = bw%2^32 := heq.symm
      rw [Ledger.step,← hc,Function.update_eq_self]
    have hstay : setConsPerfProfile c bw s = s := if_pos heq
    rw [hsame,hstay]
    exact h.leaves
  have hmem : ∀ p, ((s.cons c).peers p).isSome = true ↔ c ∈ s.ledger.suppliers p := by
    intro p
    rw [h.booked.mirror,Ledger.mem_suppliers]
    rfl
  have hnew : ∀ p, c ∈ s.ledger.suppliers p → (s.cons c).maxBw ≤ (s.prods p).neededBw ∧
      add32 (sub32 (s.prods p).neededBw (s.cons c).maxBw) (bw%2^32) =
        (s.ledger.step (.setConsPerfProfile c bw)).prodNeeds p := by
    intro p hp
    rw [h.booked.needs]
    exact add32_sub32_sum s.ledger.consBw (bw%2^32) hp (h.fits.2 p) (hfit.2 p)
  obtain ⟨t,ht,hcons,hworks,hborrowed,hprods⟩ := consPeersLoop_spec c (bw%2^32)
    (List.finRange n) (List.nodup_finRange n) s
    (fun p _ hdep => (hnew p ((hmem p).mp hdep)).1)
  have hrun : setConsPerfProfile c bw s = t.modifyCons c fun x => {x with maxBw := bw%2^32} := by
    simp only [setConsPerfProfile,heq,if_false,ht]
  rw [hrun]
  set t' := t.modifyCons c fun x => {x with maxBw := bw%2^32} with ht'
  have hself : t'.cons c = {s.cons c with maxBw := bw%2^32} := by
    rw [ht',modifyCons_self,hcons]
  have hother : ∀ e, e ≠ c → t'.cons e = s.cons e := by
    intro e he
    rw [ht',modifyCons_of_ne _ he,hcons]
  have hfield : ∀ q, (t'.prods q).maxBw = (s.prods q).maxBw ∧
      (t'.prods q).peers = (s.prods q).peers ∧ (t'.prods q).state = (s.prods q).state ∧
      (t'.prods q).pendingRequest = (s.prods q).pendingRequest ∧
      (t'.prods q).pendingRelease = (s.prods q).pendingRelease := by
    intro q
    have hq : t'.prods q = t.prods q := rfl
    rw [hq,hprods q]
    split_ifs <;> exact ⟨rfl,rfl,rfl,rfl,rfl⟩
  have hconsField : ∀ e, (t'.cons e).peers = (s.cons e).peers ∧
      ∀ U bw, (s.cons e).Books U bw → (t'.cons e).Books U bw := by
    intro e
    by_cases he : e = c
    · rw [he,hself]
      exact ⟨rfl,fun U bw hb => ⟨hb.usage,hb.needed,hb.idle⟩⟩
    · rw [hother e he]
      exact ⟨rfl,fun U bw hb => hb⟩
  have hledger : t'.ledger = s.ledger.step (.setConsPerfProfile c bw) := by
    have hbw : (s.ledger.step (.setConsPerfProfile c bw)).consBw =
        Function.update s.ledger.consBw c (bw%2^32) := rfl
    ext1
    · exact funext fun q => (hfield q).1
    · funext e
      rw [hbw]
      by_cases he : e = c
      · rw [he,Function.update_self]
        exact congrArg Consumer.maxBw hself
      · rw [Function.update_of_ne he]
        exact congrArg Consumer.maxBw (hother e he)
    · exact funext fun q => (hfield q).2.1
    · exact funext fun q => congrArg ResourceState.isActive (hfield q).2.2.1
  refine ⟨⟨fun q e => ?_,fun q => ?_,fun q => ?_,fun e => ?_,?_,?_⟩,hledger,fun q => ?_⟩
  · rw [(hconsField e).1,(hfield q).2.1]
    exact h.booked.mirror q e
  · rw [(hfield q).2.2.2.1,(hfield q).2.2.2.2]
    exact h.booked.pending q
  · rw [hledger]
    have hq : t'.prods q = t.prods q := rfl
    rw [hq,hprods q]
    split_ifs with hdep
    · exact (hnew q ((hmem q).mp hdep.2)).2
    · have hc : c ∉ s.ledger.suppliers q := fun hm =>
        hdep ⟨List.mem_finRange q,(hmem q).mpr hm⟩
      exact (h.booked.needs q).trans (sum_update_notMem _ _ hc).symm
  · rw [hledger]
    exact (hconsField e).2 _ _ (h.booked.books e)
  · have hw : t'.works = s.works := hworks
    rw [hw]
    exact h.booked.works
  · exact hborrowed.trans h.booked.clean
  · rw [(hfield q).2.2.1]
    exact h.settled q

theorem consumerHandleCb_leaves {L : Ledger n} (h : Leaves L s) (c : Fin n) (event : Event) :
    Leaves L (consumerHandleCb c event s) := by
  obtain ⟨h1,h2,h3⟩ := consumerHandleCb_spec h.booked c event
  exact ⟨h1,h2.trans h.ledger,h3 h.settled⟩

/-- A suspension run from the queue completes the release, or restores the state it found. -/
theorem consumerReleaseWork_deferred {d : Driver n} (prev : ResourceState) :
    (consumerReleaseWork d c prev true s).1 = s.setConsState c prev ∨
      (consumerReleaseWork d c prev true s).1 = consumerHandleCb c .released s := by
  unfold consumerReleaseWork
  simp only [if_true]
  split_ifs
  all_goals first
    | exact Or.inl rfl
    | exact Or.inr rfl

theorem runWork_leaves {d : Driver n} (h : Inv s) (hd : NoRequestError s (.runWork d)) :
    Leaves s.ledger (runWork d s) := by
  unfold runWork
  rcases hw : s.works with _ | ⟨w,works⟩
  · exact h.leaves
  -- the manager with the work taken off the queue
  have hpop : Leaves s.ledger {s with works := works} := by
    refine ⟨⟨h.booked.mirror,h.booked.pending,h.booked.needs,h.booked.books,fun v hv => ?_,
      h.booked.clean⟩,rfl,h.settled⟩
    exact h.booked.works v (hw ▸ List.mem_cons_of_mem w hv)
  have hsane : w.Sane := h.booked.works w (hw ▸ List.mem_cons_self)
  have hserved : w.Served d := hd w (by rw [hw]; rfl)
  rcases w with ⟨c,prev,bw,inc⟩ | ⟨c,prev,bw⟩
  · have hne : (-EINPROGRESS : ℤ) ≠ 0 := by decide
    rcases hserved with hr | hr
    · simpa [consumerRequestWork,hr] using consumerHandleCb_leaves hpop c .granted
    · simpa [consumerRequestWork,hr,hne] using hpop
  · simp only
    rcases consumerReleaseWork_deferred (d := d) (c := c) (s := {s with works := works}) prev
      with hr | hr
    · rw [hr]
      refine ⟨hpop.booked.setConsState fun hi => ?_,?_,?_⟩
      · rcases hsane with rfl | rfl <;> rcases hi with hi | hi <;> cases hi
      · exact (Touches.setState prev).ledger
      · exact (Touches.setState prev).keepsSettled hpop.settled
    · rw [hr]
      exact consumerHandleCb_leaves hpop c .released

/-- Every operation without request error does to the manager what it does to the ledger. -/
theorem step_leaves (h : Inv s) (op : Op n) (hd : NoRequestError s op)
    (hfit : (s.ledger.step op).Fits) : Leaves (s.ledger.step op) (step s op) := by
  cases op with
  | addDependency d p c u => exact addDependency_leaves h hd hfit
  | deleteDependency d p c u => exact deleteDependency_leaves h
  | producerRequest d p => exact producerRequest_leaves h hd hfit
  | producerRelease d p => exact producerRelease_leaves h
  | setProdPerfProfile p bw => exact setProdPerfProfile_leaves h hfit
  | setConsPerfProfile c bw => exact setConsPerfProfile_leaves h hfit
  | completion c event => exact consumerHandleCb_leaves h.leaves c event
  | runWork d => exact runWork_leaves h hd

theorem created_inv : Inv (created : Manager n) := by
  have hu : ∀ c, (created : Manager n).ledger.users c = ∅ := by
    intro c
    simp [Ledger.users,Manager.ledger,created]
  have hp : ∀ p, (created : Manager n).ledger.suppliers p = ∅ := by
    intro p
    simp [Ledger.suppliers,Manager.ledger,created]
  refine ⟨⟨fun _ _ => rfl,fun _ => ⟨le_refl 0,le_refl 0⟩,fun p => ?_,fun c => ?_,
    (fun _ h => by cases h),rfl⟩,(fun _ h => by cases h),fun c => ?_,fun p => ?_⟩
  · rw [Ledger.prodNeeds,hp,sum_empty]
    rfl
  · rw [hu]
    exact ⟨rfl,rfl,fun _ => rfl⟩
  · rw [Ledger.consNeeds,hu,sum_empty]
    decide
  · rw [Ledger.prodNeeds,hp,sum_empty]
    decide

theorem Inv.sound (h : Inv s) : s.Sound := by
  refine ⟨fun _ => ⟨fun c => ?_,h.booked.needs⟩,h.booked.clean,fun c => ?_,h.booked.pending⟩
  · exact ⟨(h.booked.books c).usage,(h.booked.books c).needed⟩
  · rw [(h.booked.books c).usage]
    exact Int.natCast_nonneg _

/-- The operation calls no failing request callback, and the bandwidths it leaves requested
fit their counters. -/
def Regular (s : Manager n) (op : Op n) : Prop :=
  NoRequestError s op ∧ (s.ledger.step op).Fits

instance (s : Manager n) (op : Op n) : Decidable (Regular s op) :=
  inferInstanceAs (Decidable (_ ∧ _))

theorem step_inv (h : Inv s) (op : Op n) (hr : Regular s op) : Inv (step s op) :=
  (step_leaves h op hr.1 hr.2).inv hr.2

/-- The manager refines its ledger along every such run. -/
theorem run_ledger {ops : List (Op n)} (h : Inv s) (hg : Guarded step Regular s ops) :
    (run step s ops).ledger = run Ledger.step s.ledger ops := by
  induction ops generalizing s with
  | nil => rfl
  | cons op ops ih =>
    rw [run_cons,run_cons,ih (step_inv h op hg.1) hg.2,
      (step_leaves h op hg.1.1 hg.1.2).ledger]

/-- In a run whose operations meet no failing request callback and keep every sum within its
counter, the counters are always those of the ledger and none goes below zero. -/
theorem sound_always (ops : List (Op n)) (hg : Guarded step Regular created ops) :
    Always step Manager.Sound created ops :=
  guarded_always (I := Inv) (fun _ h => h.sound) (fun _ op h hr => step_inv h op hr)
    created_inv ops hg

/-- A driver that grants at once. -/
def granting : Driver n := ⟨fun _ => 0,fun _ => 0,fun _ => false,fun _ => false,fun _ => false⟩

/-- A driver that grants later, from a work. -/
def deferring : Driver n :=
  ⟨fun _ => -EINPROGRESS,fun _ => 0,fun _ => true,fun _ => true,fun _ => false⟩

/-- Along such a run the manager is its ledger, which sees the calls of the clients and nothing of
what the drivers and the works do; with no deferred work outstanding its counters are sums over
the ledger of the calls. -/
theorem refinesLedger_run (ops : List (Op n)) (hg : Guarded step Regular created ops) :
    (run step created ops).ledger = run Ledger.step (created : Manager n).ledger ops ∧
      ((run step created ops).works = [] →
        (∀ c, ((run step created ops).cons c).usageCount =
            ((run Ledger.step (created : Manager n).ledger ops).users c).card ∧
          ((run step created ops).cons c).neededBw =
            (run Ledger.step (created : Manager n).ledger ops).consNeeds c) ∧
        ∀ p, ((run step created ops).prods p).neededBw =
          (run Ledger.step (created : Manager n).ledger ops).prodNeeds p) := by
  have hledger := run_ledger created_inv hg
  refine ⟨hledger,fun hworks => ?_⟩
  have hinv : Inv (run step created ops) :=
    guarded_invariant (I := Inv) (fun _ op h hr => step_inv h op hr) created_inv ops hg
  rw [← hledger]
  exact hinv.sound.1 hworks

/-- A consumer that grants later -/
def deferredRun (p c : Fin n) : List (Op n) :=
  [.setProdPerfProfile p 100,.addDependency granting p c false,.producerRequest deferring p,
    .runWork deferring,.completion c .granted]

theorem refinesLedger_run_deferred :
    (run step created (deferredRun (0 : Fin 1) 0)).ledger =
      run Ledger.step created.ledger (deferredRun (0 : Fin 1) 0) :=
  (refinesLedger_run (deferredRun (0 : Fin 1) 0) (by decide +kernel)).1

/-- Two producers share a consumer, one is requested through a work and released before the
work has run, and the profile of the other changes while it is granted. -/
theorem sound_shared : Always step Manager.Sound created
    ([.setProdPerfProfile 0 100,.setProdPerfProfile 1 50,.setConsPerfProfile 0 300,
      .addDependency granting 0 0 false,.addDependency granting 1 0 true,
      .producerRequest deferring 0,.producerRequest granting 1,.producerRelease granting 0,
      .runWork deferring,.completion 0 .granted,.setProdPerfProfile 1 70,
      .deleteDependency granting 1 0 true,.runWork granting] : List (Op 2)) :=
  sound_always _ (by decide +kernel)

/-- A driver whose request fails with `-EIO`. -/
def failing : Driver n :=
  ⟨fun _ => -5,fun _ => 0,fun _ => false,fun _ => false,fun _ => false⟩

/-- The producer stays requested after its only consumer refused, and is then no user the
consumer counts. -/
theorem sound_requestError : ¬ Always step Manager.Sound created
    ([.setProdPerfProfile 0 10,.addDependency granting 0 0 false,
      .producerRequest failing 0] : List (Op 1)) := by
  intro h
  have hu := ((h.last.1 (by decide)).1 0).1
  revert hu
  decide

end IpaRm
end MarbleModules
