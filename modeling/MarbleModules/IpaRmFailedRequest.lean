import MarbleModules.IpaRmRuns

/-!
What a producer's request leaves behind when the callback of one of its consumers fails: the
consumers before it stay charged, and the producer stays requested.
-/
namespace MarbleModules
namespace IpaRm

open Runs

variable {n : ℕ} {s t : Manager n} {c e : Fin n} {p q : Fin n} {d : Driver n}

/-- `usage_count` and `needed_bw`. -/
def Consumer.account (x : Consumer n) : ℤ × ℕ := (x.usageCount,x.neededBw)

/-- The account once a producer has requested the consumer. -/
def Consumer.charged (x : Consumer n) (bw : ℕ) : ℤ × ℕ := (x.usageCount+1,add32 x.neededBw bw)

/-- The account once a producer has requested the consumer and its driver has refused. -/
def Consumer.refunded (x : Consumer n) (bw : ℕ) : ℤ × ℕ :=
  (x.usageCount,sub32 (add32 x.neededBw bw) bw)

theorem Consumer.charged_ne (x : Consumer n) (bw : ℕ) : x.charged bw ≠ x.account := by
  intro h
  have hu : x.usageCount+1 = x.usageCount := (Prod.mk.inj h).1
  omega

theorem Consumer.refunded_eq (x : Consumer n) {bw : ℕ} (hx : x.neededBw < 2^32) :
    x.refunded bw = x.account := by
  have hmod := Nat.mod_lt bw (show 0 < 2^32 by decide)
  have hbw : sub32 (add32 x.neededBw bw) bw = x.neededBw := by
    unfold sub32 add32
    omega
  rw [refunded,account,hbw]

/-- A request changes no more than the consumer and the queue. -/
structure Confined (c : Fin n) (s t : Manager n) : Prop where
  prods : t.prods = s.prods
  others : ∀ e,e ≠ c → t.cons e = s.cons e

theorem consumerRequest_serves (bw : ℕ) (hd : d.Serves s c) :
    Confined c s (consumerRequest d c bw true false s).1 ∧
      ((consumerRequest d c bw true false s).1.cons c).account = (s.cons c).charged bw ∧
      ((consumerRequest d c bw true false s).2 = 0 ∨
        (consumerRequest d c bw true false s).2 = -EINPROGRESS) := by
  have hd' : ((s.addConsBw c bw).cons c).state = .released →
      d.incClientFails c = false → d.Requests c := by
    rw [addConsBw_self]
    exact hd
  obtain ⟨st,-,htouch,hcons,hres⟩ := consumerRequestSwitch_spec bw true hd'
  rw [addConsBw_self] at hcons
  have hall := (Touches.addBw bw).trans htouch
  refine ⟨⟨?_,fun e he => ?_⟩,?_,hres⟩
  · simpa [consumerRequest] using hall.prods
  · simpa [consumerRequest,modifyCons_of_ne _ he] using hall.others e he
  · simp [consumerRequest,hcons,Consumer.account,Consumer.charged]

theorem consumerRequest_refuses (bw : ℕ) (hd : ¬ d.Serves s c) :
    Confined c s (consumerRequest d c bw true false s).1 ∧
      ((consumerRequest d c bw true false s).1.cons c).account = (s.cons c).refunded bw ∧
      ((consumerRequest d c bw true false s).1.cons c).state = (s.cons c).state ∧
      (consumerRequest d c bw true false s).2 = d.requestResource c := by
  simp only [Driver.Serves,Classical.not_imp,Driver.Requests,not_or] at hd
  obtain ⟨hst,hclk,h0,hprog⟩ := hd
  have hsw : consumerRequest d c bw true false s =
      (((((s.addConsBw c bw).setConsState c .requestInProgress).setConsState c
        .released).subConsBw c bw |>.modifyCons c fun x =>
          {x with usageCount := x.usageCount-1}).modifyCons c fun x =>
            {x with usageCount := x.usageCount+1},d.requestResource c) := by
    simp [consumerRequest,consumerRequestSwitch,consumerRequestWork,hst,hclk,h0,hprog]
  rw [hsw]
  refine ⟨⟨rfl,fun e he => ?_⟩,?_,?_,rfl⟩
  · simp only [modifyCons_of_ne _ he,subConsBw_of_ne _ he,Manager.setConsState,
      Manager.addConsBw]
  · simp [Consumer.account,Consumer.refunded]
  · simp [hst]

/-- A loop of requests has gone over the consumers of a list without error. -/
structure Visits (p : Fin n) (cs : List (Fin n)) (s t : Manager n) : Prop where
  prod : ∃ a,t.prods p = {s.prods p with pendingRequest := a}
  others : ∀ q,q ≠ p → t.prods q = s.prods q
  charged : ∀ e ∈ cs,((s.prods p).peers e).isSome →
    (t.cons e).account = (s.cons e).charged (s.prods p).maxBw
  kept : ∀ e,¬ (e ∈ cs ∧ ((s.prods p).peers e).isSome) → t.cons e = s.cons e

namespace Visits

theorem refl (p : Fin n) (s : Manager n) : Visits p [] s s :=
  ⟨⟨_,rfl⟩,fun _ _ => rfl,fun _ he => absurd he List.not_mem_nil,fun _ _ => rfl⟩

theorem peers {cs : List (Fin n)} (h : Visits p cs s t) :
    (t.prods p).peers = (s.prods p).peers := by
  obtain ⟨a,ha⟩ := h.prod
  rw [ha]

theorem maxBw {cs : List (Fin n)} (h : Visits p cs s t) :
    (t.prods p).maxBw = (s.prods p).maxBw := by
  obtain ⟨a,ha⟩ := h.prod
  rw [ha]

theorem state {cs : List (Fin n)} (h : Visits p cs s t) :
    (t.prods p).state = (s.prods p).state := by
  obtain ⟨a,ha⟩ := h.prod
  rw [ha]

theorem append {r : Manager n} {cs cs' : List (Fin n)} (h : Visits p cs r s)
    (h' : Visits p cs' s t) (hdisj : ∀ e ∈ cs,e ∉ cs') : Visits p (cs++cs') r t where
  prod := by
    obtain ⟨a,ha⟩ := h.prod
    obtain ⟨b,hb⟩ := h'.prod
    exact ⟨b,by rw [hb,ha]⟩
  others q hq := (h'.others q hq).trans (h.others q hq)
  charged e he hdep := by
    rcases List.mem_append.mp he with he | he
    · rw [h'.kept e fun hboth => hdisj e he hboth.1]
      exact h.charged e he hdep
    · have hnot : e ∉ cs := fun hmem => hdisj e hmem he
      rw [h'.charged e he (h.peers ▸ hdep),h.maxBw,h.kept e fun hboth => hnot hboth.1]
  kept e hnot := by
    have hpeers := h.peers
    rw [h'.kept e fun hboth => hnot ⟨List.mem_append_right _ hboth.1,hpeers ▸ hboth.2⟩]
    exact h.kept e fun hboth => hnot ⟨List.mem_append_left _ hboth.1,hboth.2⟩

end Visits

/-- One pass of the loop at a consumer that serves. -/
theorem requestLoop_cons (cs : List (Fin n)) (result : ℤ)
    (hd : ((s.prods p).peers c).isSome → d.Serves s c) :
    ∃ t result',requestLoop d p (c::cs) result s = requestLoop d p cs result' t ∧
      Visits p [c] s t ∧ (result' = result ∨ result' = -EINPROGRESS) := by
  by_cases hdep : ((s.prods p).peers c).isSome = true
  · set s' := s.modifyProd p fun x => {x with pendingRequest := x.pendingRequest+1} with hs'
    obtain ⟨hconf,hcharged,hres⟩ := consumerRequest_serves (s := s') (s'.prods p).maxBw (hd hdep)
    set r := consumerRequest d c (s'.prods p).maxBw true false s' with hr
    have hbw : (s'.prods p).maxBw = (s.prods p).maxBw := by rw [hs',modifyProd_self]
    have hvisits : ∀ t : Manager n,(∃ a,t.prods p = {r.1.prods p with pendingRequest := a}) →
        (∀ q,q ≠ p → t.prods q = r.1.prods q) → t.cons = r.1.cons → Visits p [c] s t := by
      rintro t ⟨a,ha⟩ hothers hcons
      refine ⟨⟨a,?_⟩,fun q hq => ?_,fun e he _ => ?_,fun e hnot => ?_⟩
      · rw [ha,hconf.prods,hs',modifyProd_self]
      · rw [hothers q hq,hconf.prods,hs',modifyProd_of_ne _ hq]
      · obtain rfl := List.mem_singleton.mp he
        rw [hcons,hcharged,hbw,hs',modifyProd_cons]
      · have hne : e ≠ c := by
          rintro rfl
          exact hnot ⟨List.mem_singleton_self _,hdep⟩
        rw [hcons,hconf.others e hne,hs',modifyProd_cons]
    have hne : (0 : ℤ) ≠ -EINPROGRESS := by decide
    rcases hres with hres | hres
    · refine ⟨r.1.modifyProd p fun x => {x with pendingRequest := x.pendingRequest-1},result,?_,
        hvisits _ ⟨_,modifyProd_self _⟩ (fun q hq => modifyProd_of_ne _ hq) rfl,Or.inl rfl⟩
      simp [requestLoop,hdep,← hs',← hr,hres,hne]
    · refine ⟨r.1,-EINPROGRESS,?_,hvisits _ ⟨_,rfl⟩ (fun _ _ => rfl) rfl,Or.inr rfl⟩
      simp [requestLoop,hdep,← hs',← hr,hres]
  · refine ⟨s,result,?_,⟨⟨_,rfl⟩,fun _ _ => rfl,fun e he hdepe => ?_,fun _ _ => rfl⟩,Or.inl rfl⟩
    · simp [requestLoop,hdep]
    · obtain rfl := List.mem_singleton.mp he
      exact absurd hdepe hdep

/-- The loop gets past consumers that serve. -/
theorem requestLoop_visits (pre cs : List (Fin n)) (hnd : pre.Nodup) (result : ℤ)
    (hd : ∀ e ∈ pre,((s.prods p).peers e).isSome → d.Serves s e) :
    ∃ t result',requestLoop d p (pre++cs) result s = requestLoop d p cs result' t ∧
      Visits p pre s t ∧ (result' = result ∨ result' = -EINPROGRESS) := by
  induction pre generalizing s result with
  | nil => exact ⟨s,result,rfl,Visits.refl p s,Or.inl rfl⟩
  | cons c pre ih =>
    obtain ⟨hc,hpre⟩ := List.nodup_cons.mp hnd
    obtain ⟨t,res,ht,hvis,hres⟩ := requestLoop_cons (pre++cs) result (hd c List.mem_cons_self)
    have hserve : ∀ e ∈ pre,((t.prods p).peers e).isSome → d.Serves t e := by
      intro e he hdep
      have hne : ¬ (e ∈ [c] ∧ ((s.prods p).peers e).isSome) := by
        rintro ⟨hmem,-⟩
        exact hc (List.mem_singleton.mp hmem ▸ he)
      rw [Driver.Serves,hvis.kept e hne]
      exact hd e (List.mem_cons_of_mem c he) (hvis.peers ▸ hdep)
    obtain ⟨u,res',hu,hvis',hres'⟩ := ih hpre res hserve
    refine ⟨u,res',ht.trans hu,hvis.append hvis' ?_,?_⟩
    · intro e he
      rwa [List.mem_singleton.mp he]
    · rcases hres' with rfl | hres'
      · exact hres
      · exact Or.inr hres'

/-- The loop stops at a consumer that refuses. -/
theorem requestLoop_refuses (cs : List (Fin n)) (result : ℤ)
    (hdep : ((s.prods p).peers c).isSome) (hd : ¬ d.Serves s c) :
    (requestLoop d p (c::cs) result s).2 = (d.requestResource c,true) ∧
      (∀ e,e ≠ c → (requestLoop d p (c::cs) result s).1.cons e = s.cons e) ∧
      ((requestLoop d p (c::cs) result s).1.prods p).state = (s.prods p).state ∧
      ((requestLoop d p (c::cs) result s).1.cons c).account =
        (s.cons c).refunded (s.prods p).maxBw := by
  set s' := s.modifyProd p fun x => {x with pendingRequest := x.pendingRequest+1} with hs'
  have hbw : (s'.prods p).maxBw = (s.prods p).maxBw := by rw [hs',modifyProd_self]
  obtain ⟨hconf,hacc,-,hres⟩ := consumerRequest_refuses (s := s') (s'.prods p).maxBw
    (show ¬ d.Serves s' c from hd)
  set r := consumerRequest d c (s'.prods p).maxBw true false s' with hr
  have hne : ¬ r.2 = 0 ∧ ¬ r.2 = -EINPROGRESS := by
    simp only [Driver.Serves,Classical.not_imp,Driver.Requests,not_or] at hd
    rw [hres]
    exact hd.2.2
  have hloop : requestLoop d p (c::cs) result s =
      (r.1.modifyProd p fun x => {x with pendingRequest := x.pendingRequest-1},r.2,true) := by
    simp [requestLoop,hdep,← hs',← hr,hne]
  rw [hloop,hres]
  refine ⟨rfl,fun e he => ?_,?_,?_⟩
  · rw [modifyProd_cons,hconf.others e he,hs',modifyProd_cons]
  · rw [modifyProd_self,hconf.prods,hs',modifyProd_self]
  · rw [modifyProd_cons,hacc,hbw,hs',modifyProd_cons]

/-- The request of the producer ends at this consumer: the producer is idle, and of the
consumers it depends on this is the first whose driver is called at once and refuses. -/
structure FailsAt (d : Driver n) (s : Manager n) (p c : Fin n) : Prop where
  idle : (s.prods p).state = .released ∨ (s.prods p).state = .releaseInProgress
  depends : ((s.prods p).peers c).isSome
  refuses : ¬ d.Serves s c
  first : ∀ e,e < c → ((s.prods p).peers e).isSome → d.Serves s e

/-- The producer as its request sets it before the loop. -/
def Manager.requested (p : Fin n) (s : Manager n) : Manager n :=
  s.modifyProd p fun x => {x with state := .requestInProgress, pendingRequest := 0}

theorem producerRequest_idle
    (h : (s.prods p).state = .released ∨ (s.prods p).state = .releaseInProgress) :
    producerRequest d p s =
      let (t,result,failed) := requestLoop d p (List.finRange n) 0 (s.requested p)
      if failed then (t,result)
      else if (t.prods p).pendingRequest = 0 then (t.setProdState p .granted,0)
      else (t,result) := by
  rcases h with h | h <;> simp only [producerRequest,h] <;> rfl

/-- The producer stays requested, the consumers before the one that refused stay charged, and
that one and those behind it are as they were. -/
theorem producerRequest_failed (h : FailsAt d s p c) :
    (producerRequest d p s).2 = d.requestResource c ∧
      ((producerRequest d p s).1.prods p).state = .requestInProgress ∧
      (∀ e,e < c → ((s.prods p).peers e).isSome →
        ((producerRequest d p s).1.cons e).account = (s.cons e).charged (s.prods p).maxBw) ∧
      ((producerRequest d p s).1.cons c).account = (s.cons c).refunded (s.prods p).maxBw ∧
      ∀ e,e ≠ c → ¬ (e < c ∧ ((s.prods p).peers e).isSome) →
        (producerRequest d p s).1.cons e = s.cons e := by
  obtain ⟨pre,post,hsplit⟩ := List.append_of_mem (List.mem_finRange c)
  have hsorted := List.pairwise_lt_finRange n
  rw [hsplit] at hsorted
  obtain ⟨hpre,hpost,hlt⟩ := List.pairwise_append.mp hsorted
  have hmem : ∀ e,e ∈ pre ↔ e < c := by
    intro e
    refine ⟨fun he => hlt e he c List.mem_cons_self,fun he => ?_⟩
    have hall := List.mem_finRange e
    rw [hsplit] at hall
    rcases List.mem_append.mp hall with hin | hin
    · exact hin
    · rcases List.mem_cons.mp hin with rfl | hin
      · exact absurd he (lt_irrefl _)
      · exact absurd ((List.pairwise_cons.mp hpost).1 e hin) he.asymm
  have hpeers : ((s.requested p).prods p).peers = (s.prods p).peers := by
    rw [Manager.requested,modifyProd_self]
  have hbw : ((s.requested p).prods p).maxBw = (s.prods p).maxBw := by
    rw [Manager.requested,modifyProd_self]
  obtain ⟨t,res,hloop,hvis,-⟩ := requestLoop_visits (d := d) (p := p) (s := s.requested p) pre
    (c::post) (hpre.imp ne_of_lt) 0
    fun e he hdep => h.first e ((hmem e).mp he) (hpeers ▸ hdep)
  have hc : t.cons c = s.cons c := hvis.kept c fun hboth => lt_irrefl c ((hmem c).mp hboth.1)
  obtain ⟨hres,hothers,hstate,hacc⟩ := requestLoop_refuses (d := d) (s := t) (p := p) (c := c)
    post res (by rw [hvis.peers,hpeers]; exact h.depends)
    (by rw [Driver.Serves,hc]; exact h.refuses)
  rw [producerRequest_idle h.idle,hsplit,hloop]
  set r := requestLoop d p (c::post) res t with hr
  have hfinal : (if r.2.2 then (r.1,r.2.1)
      else if (r.1.prods p).pendingRequest = 0 then (r.1.setProdState p .granted,0)
      else (r.1,r.2.1)) = (r.1,d.requestResource c) := by
    rw [hres,if_pos rfl]
  simp only [hfinal]
  refine ⟨trivial,?_,fun e he hdep => ?_,?_,fun e hne hnot => ?_⟩
  · rw [hstate,hvis.state,Manager.requested,modifyProd_self]
  · rw [hothers e (ne_of_lt he),hvis.charged e ((hmem e).mpr he) (hpeers ▸ hdep),hbw]
    rfl
  · rw [hacc,hc,hvis.maxBw,hbw]
  · rw [hothers e hne]
    exact hvis.kept e fun hboth => hnot ⟨(hmem e).mp hboth.1,hpeers ▸ hboth.2⟩

/-- A request that no consumer refuses returns no error. -/
theorem producerRequest_served (h : ∀ c,¬ FailsAt d s p c) :
    (producerRequest d p s).2 = 0 ∨ (producerRequest d p s).2 = -EINPROGRESS := by
  by_cases hidle : (s.prods p).state = .released ∨ (s.prods p).state = .releaseInProgress
  · have hserve : ∀ c,((s.prods p).peers c).isSome → d.Serves s c := by
      intro c
      induction c using WellFoundedLT.induction with
      | ind c ih =>
        intro hdep
        by_contra hd
        exact h c ⟨hidle,hdep,hd,ih⟩
    have hpeers : ((s.requested p).prods p).peers = (s.prods p).peers := by
      rw [Manager.requested,modifyProd_self]
    obtain ⟨t,res,hloop,-,hres⟩ := requestLoop_visits (d := d) (p := p) (s := s.requested p)
      (List.finRange n) [] (List.nodup_finRange n) 0
      fun e _ hdep => hserve e (hpeers ▸ hdep)
    rw [List.append_nil] at hloop
    rw [producerRequest_idle hidle,hloop,requestLoop]
    simp only [Bool.false_eq_true,if_false]
    split
    · exact Or.inl rfl
    · exact hres
  · cases hst : (s.prods p).state with
    | released => exact absurd (Or.inl hst) hidle
    | releaseInProgress => exact absurd (Or.inr hst) hidle
    | granted => simp [producerRequest,hst]
    | requestInProgress => simp [producerRequest,hst]

/-- A request that returns an error other than `-EINPROGRESS` leaves the state of the producer
and the accounts of its consumers as they were. -/
def LeavesNothing (d : Driver n) (s : Manager n) (p : Fin n) : Prop :=
  (producerRequest d p s).2 ≠ 0 → (producerRequest d p s).2 ≠ -EINPROGRESS →
    ((producerRequest d p s).1.prods p).state = (s.prods p).state ∧
      ∀ c,((s.prods p).peers c).isSome →
        ((producerRequest d p s).1.cons c).account = (s.cons c).account

/-- The accounts are kept where the first of the consumers is the one that refuses. -/
theorem producerRequest_accounts_iff (h : FailsAt d s p c)
    (hu : ∀ e,(s.cons e).neededBw < 2^32) :
    (∀ e,((s.prods p).peers e).isSome →
      ((producerRequest d p s).1.cons e).account = (s.cons e).account) ↔
      ∀ e,e < c → (s.prods p).peers e = none := by
  obtain ⟨-,-,hcharged,hrefunded,hkept⟩ := producerRequest_failed h
  constructor
  · intro hall e he
    by_contra hdep
    have hsome := Option.isSome_iff_ne_none.mpr hdep
    have hsame := hall e hsome
    rw [hcharged e he hsome] at hsame
    exact Consumer.charged_ne _ _ hsame
  · intro hfirst e hdep
    by_cases he : e = c
    · rw [he,hrefunded]
      exact Consumer.refunded_eq _ (hu c)
    · rw [hkept e he fun hboth => by simp [hfirst e hboth.1] at hdep]

/-- A failed request never leaves the manager as it was: it does so only for want of a
consumer that refuses. -/
theorem leavesNothing_iff (d : Driver n) (s : Manager n) (p : Fin n) :
    LeavesNothing d s p ↔ ∀ c,¬ FailsAt d s p c := by
  constructor
  · intro h c hf
    obtain ⟨hres,hstate,-⟩ := producerRequest_failed hf
    have hd := hf.refuses
    simp only [Driver.Serves,Classical.not_imp,Driver.Requests,not_or] at hd
    obtain ⟨-,-,h0,hprog⟩ := hd
    obtain ⟨hsame,-⟩ := h (hres ▸ h0) (hres ▸ hprog)
    rw [hstate] at hsame
    rcases hf.idle with hidle | hidle <;> exact absurd (hsame.trans hidle) (by decide)
  · intro h h0 hprog
    rcases producerRequest_served h with hres | hres
    · exact absurd hres h0
    · exact absurd hres hprog

/-- A driver whose second consumer refuses with `-EIO`. -/
def refusing : Driver 2 :=
  ⟨fun c => if c = 1 then -5 else 0,fun _ => 0,fun _ => false,fun _ => false,fun _ => false⟩

/-- With two consumers of which the second refuses, the first stays counted, and every later
request of the producer is answered with `-EINPROGRESS`. -/
theorem leavesNothing_refusing : ¬ ∀ (n : ℕ) (ops : List (Op n)) (d : Driver n) (p : Fin n),
    LeavesNothing d (run step created ops) p := by
  intro h
  have hh := h 2 [.addDependency granting 0 0 false,.addDependency granting 0 1 false] refusing 0
  unfold LeavesNothing at hh
  revert hh
  decide

end IpaRm
end MarbleModules
