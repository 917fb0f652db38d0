import MarbleModules.IpaNatHybridRuns

/-! Table switches of the hybrid state machine: what a successful one keeps of the rules as
the application sees them, and what a failed one does to the state and the rules. -/
namespace MarbleModules
namespace IpaNat

open IpaTable

variable {o o' o₁ o₂ : NatiObj} {op : HybridOp} {env : SwitchEnv}

/-- The application's handle of a live rule. -/
def AppHandle (o : NatiObj) (hdl : ℕ) : Prop :=
  ∃ i, (o.tbl o.memSub).Live i ∧
    (o.mapPairs o.memSub).new2orig ((o.tbl o.memSub).realHdl i) = some hdl

/-- The record the application reaches with a handle. -/
def ruleOf (o : NatiObj) (hdl : ℕ) : Option NatRule :=
  ((o.mapPairs o.memSub).orig2new hdl).bind fun new =>
    (ipaTableGetEntry (o.tbl o.memSub).table new).map (o.tbl o.memSub).table.recs

/-- The application cannot tell `o'` from `o`: the same handles reach rules with the same
contents, no rule is lost or duplicated, and there are no dead heads. -/
structure Transparent (o o' : NatiObj) : Prop where
  handles : ∀ hdl, AppHandle o' hdl ↔ AppHandle o hdl
  view : ∀ hdl, AppHandle o hdl → ∃ r r', ruleOf o hdl = some r ∧ ruleOf o' hdl = some r' ∧
    clientView r' = clientView r
  liveCount : (o'.tbl o'.memSub).liveCount = (o.tbl o.memSub).liveCount
  noDead : ∀ j, (o'.tbl o'.memSub).table.occupied j = true → (o'.tbl o'.memSub).Live j

/-- No live rule of the table in use has its redirect bit set. -/
def NoRedirect (o : NatiObj) : Prop :=
  ∀ i, (o.tbl o.memSub).Live i → ((o.tbl o.memSub).table.recs i).redirect = 0

section Transparency

/-- A live rule is reached with its handle. -/
theorem ruleOf_eq (h : o.Sound) {i hdl : ℕ} (hi : (o.tbl o.memSub).Live i)
    (hhdl : (o.mapPairs o.memSub).new2orig ((o.tbl o.memSub).realHdl i) = some hdl) :
    ruleOf o hdl = some ((o.tbl o.memSub).table.recs i) := by
  obtain ⟨own,iown,hinv⟩ := h.inv o.memSub
  have hget := getEntry_handle hinv (hinv.live_lt hi)
  simp only [ruleOf,(h.mapped.inverse _ _).mpr hhdl,Option.bind_some,NatTable.realHdl,hget,
    Option.map_some]

/-- When every rule is mapped, the rules are counted by their handles. -/
theorem liveCount_eq_handles (h : o.Sound) (hall : ∀ i, (o.tbl o.memSub).Live i →
      ∃ hdl, (o.mapPairs o.memSub).new2orig ((o.tbl o.memSub).realHdl i) = some hdl) :
    ∃ s : Finset (Option ℕ), (o.tbl o.memSub).liveCount = s.card ∧
      ∀ x, x ∈ s ↔ ∃ hdl, x = some hdl ∧ AppHandle o hdl := by
  obtain ⟨own,iown,hinv⟩ := h.inv o.memSub
  refine ⟨((Finset.range (o.tbl o.memSub).table.totTblEnts).filter (o.tbl o.memSub).Live).image
    fun i => (o.mapPairs o.memSub).new2orig ((o.tbl o.memSub).realHdl i),?_,fun x => ?_⟩
  · rw [Finset.card_image_of_injOn]
    · rfl
    · intro i hi j hj heq
      have hi' := (Finset.mem_filter.mp hi).2
      obtain ⟨k,hk⟩ := hall i hi'
      have hik := (h.mapped.inverse _ _).mpr hk
      have hjk := (h.mapped.inverse _ _).mpr (heq.symm.trans hk)
      rw [hik] at hjk
      exact hinv.realHdl_injective (hinv.live_lt hi') (Finset.mem_range.mp (Finset.mem_filter.mp hj).1)
        (Option.some.inj hjk)
  · simp only [Finset.mem_image,Finset.mem_filter,Finset.mem_range]
    constructor
    · rintro ⟨i,⟨_,hi⟩,rfl⟩
      obtain ⟨k,hk⟩ := hall i hi
      exact ⟨k,hk,i,hi,hk⟩
    · rintro ⟨hdl,rfl,i,hi,hk⟩
      exact ⟨i,⟨hinv.live_lt hi,hi⟩,hk⟩

/-- A successful switch reaches every rule with its handle; only the redirect bit is gone. -/
theorem Switched.rule (h : o.Sound) (hsw : Switched o o' 0) {hdl : ℕ} (hhdl : AppHandle o hdl) :
    ∃ r r', ruleOf o hdl = some r ∧ ruleOf o' hdl = some r' ∧
      clientView r' = { clientView r with redirect := 0 } := by
  obtain ⟨i,hi,hih⟩ := hhdl
  have hc := hsw.copied rfl
  obtain ⟨own,iown,hinv⟩ := h.inv o.memSub
  obtain ⟨k,hk,r,hr⟩ := hc.copied i (hinv.live_lt hi) hi
  obtain rfl := Option.some.inj (hk.symm.trans hih)
  have hr' := (hc.mapped.inverse _ _).mp hr
  obtain ⟨j,hj,rfl⟩ := hc.mapped.live _ _ hr'
  obtain ⟨i',_,hi',hih',hview⟩ := hc.source j k hj hr'
  have heq := ((h.mapped.inverse _ _).mpr hih').symm.trans ((h.mapped.inverse _ _).mpr hih)
  have hii := hinv.realHdl_injective (hinv.live_lt hi') (hinv.live_lt hi) (Option.some.inj heq)
  rw [hii] at hview
  exact ⟨_,_,ruleOf_eq h hi hih,ruleOf_eq hsw.sound hj hr',hview⟩

theorem Switched.handles (h : o.Sound) (hsw : Switched o o' 0) (hdl : ℕ) :
    AppHandle o' hdl ↔ AppHandle o hdl := by
  have hc := hsw.copied rfl
  obtain ⟨own,iown,hinv⟩ := h.inv o.memSub
  constructor
  · rintro ⟨j,hj,hjh⟩
    obtain ⟨i,_,hi,hih,_⟩ := hc.source j hdl hj hjh
    exact ⟨i,hi,hih⟩
  · rintro ⟨i,hi,hih⟩
    obtain ⟨k,hk,r,hr⟩ := hc.copied i (hinv.live_lt hi) hi
    obtain rfl := Option.some.inj (hk.symm.trans hih)
    have hr' := (hc.mapped.inverse _ _).mp hr
    obtain ⟨j,hj,rfl⟩ := hc.mapped.live _ _ hr'
    exact ⟨j,hj,hr'⟩

theorem Switched.liveCount (h : o.Sound) (hsw : Switched o o' 0) :
    (o'.tbl o'.memSub).liveCount = (o.tbl o.memSub).liveCount := by
  have hc := hsw.copied rfl
  obtain ⟨own,iown,hinv⟩ := h.inv o.memSub
  obtain ⟨s,hs,hmem⟩ := liveCount_eq_handles h fun i hi => by
    obtain ⟨k,hk,_⟩ := hc.copied i (hinv.live_lt hi) hi
    exact ⟨k,hk⟩
  obtain ⟨s',hs',hmem'⟩ := liveCount_eq_handles hsw.sound hsw.exact.all
  rw [hs,hs']
  congr 1
  ext x
  simp only [hmem,hmem',hsw.handles h]

/-- A successful switch is transparent if and only if there was no redirect bit to lose. -/
theorem Switched.transparent_iff (h : o.Sound) (hsw : Switched o o' 0) :
    Transparent o o' ↔ NoRedirect o := by
  have hc := hsw.copied rfl
  obtain ⟨own,iown,hinv⟩ := h.inv o.memSub
  constructor
  · intro ht i hi
    obtain ⟨hdl,hih,_⟩ := hc.copied i (hinv.live_lt hi) hi
    obtain ⟨r,r',hr,hr',hlost⟩ := hsw.rule h ⟨i,hi,hih⟩
    obtain ⟨q,q',hq,hq',hkept⟩ := ht.view hdl ⟨i,hi,hih⟩
    rw [ruleOf_eq h hi hih] at hr hq
    obtain rfl := Option.some.inj (hr'.symm.trans hq')
    have hri : clientView ((o.tbl o.memSub).table.recs i) = clientView r :=
      congrArg clientView (Option.some.inj hr)
    have hqi : clientView ((o.tbl o.memSub).table.recs i) = clientView q :=
      congrArg clientView (Option.some.inj hq)
    have hsame := (hqi.trans (hkept.symm.trans hlost)).trans (by rw [← hri])
    exact congrArg ClientView.redirect hsame
  · intro hno
    refine ⟨hsw.handles h,fun hdl hhdl => ?_,hsw.liveCount h,hc.noDead⟩
    obtain ⟨r,r',hr,hr',hview⟩ := hsw.rule h hhdl
    obtain ⟨i,hi,hih⟩ := hhdl
    refine ⟨r,r',hr,hr',?_⟩
    obtain rfl := Option.some.inj ((ruleOf_eq h hi hih).symm.trans hr)
    have hz : (clientView ((o.tbl o.memSub).table.recs i)).redirect = 0 := hno i hi
    rw [hview,← hz]

end Transparency

section SwitchPoints

/-- The operations that trigger a switch: an add that fails in SRAM, a delete that leaves few
enough rules in DDR, and an explicit switch. -/
inductive Triggers (o o₁ : NatiObj) (env : SwitchEnv) : HybridOp → Prop
  | add (rule : Ipv4Rule) (e : AddEnv) (hadd : (smAddRuleToTbl o rule e.dma).1 = o₁)
      (hret : (smAddRuleToTbl o rule e.dma).2.1 ≠ 0)
      (hsram : o₁.currState = .hybrid ∧ o₁.holdState = false) (henv : e.switch = env) :
      Triggers o o₁ env (.addRule rule e)
  | del (hdl new : ℕ) (e : DelEnv) (hnew : (o.mapPairs o.memSub).orig2new hdl = some new)
      (hdel : smDelRuleMapped o hdl new e.dma = (o₁,0)) (hback : BackToSram o₁)
      (henv : e.switch = env) : Triggers o o₁ env (.delRule hdl e)
  | explicit (nmi : MemIn) (hold : Bool) (hcompat : CompatibleNmi o nmi) (ho : o = o₁) :
      Triggers o o₁ env (.switchTo nmi hold env)

theorem triggers_of_switchPoint (hpoint : switchPoint o op = some (o₁,env)) :
    Triggers o o₁ env op := by
  cases op with
  | addRule rule e =>
    simp only [switchPoint] at hpoint
    split at hpoint
    · next hcond =>
      obtain ⟨ho,henv⟩ := Prod.mk.inj (Option.some.inj hpoint)
      exact .add rule e ho hcond.1 (ho ▸ hcond.2) henv
    · cases hpoint
  | delRule hdl e =>
    simp only [switchPoint] at hpoint
    split at hpoint
    · cases hpoint
    · next new hnew =>
      split at hpoint
      · next hcond =>
        obtain ⟨ho,henv⟩ := Prod.mk.inj (Option.some.inj hpoint)
        exact .del hdl new e hnew (Prod.ext ho hcond.1) (ho ▸ hcond.2) henv
      · cases hpoint
  | switchTo nmi hold e =>
    simp only [switchPoint] at hpoint
    split at hpoint
    · next hcond =>
      obtain ⟨ho,rfl⟩ := Prod.mk.inj (Option.some.inj hpoint)
      exact .explicit nmi hold hcond ho
    · cases hpoint
  | addTbl => cases hpoint
  | clrTbl => cases hpoint
  | modifyPdn _ _ => cases hpoint
  | hardware _ _ _ => cases hpoint

/-- The state a switch starts from is sound and exact when the operation's is. -/
theorem Triggers.spec (h : o.Sound) (ht : Triggers o o₁ env op) :
    o₁.Sound ∧ (o.Exact → o₁.Exact) := by
  cases ht with
  | add rule e hadd hret _ _ =>
    by_cases hst : Stores o rule e.dma
    · obtain ⟨o₂,hdl,_,_,hstored,_⟩ := addRule_stored h hst
      exact absurd (by rw [hstored]) hret
    · obtain ⟨o₂,ret,hdl,hrej,_,hsound,_,_,hexact⟩ := addRule_rejected h hst
      rw [hrej] at hadd
      exact hadd ▸ ⟨hsound,hexact⟩
  | del hdl new e hnew hdel _ _ =>
    cases hdma : e.dma with
    | true =>
      obtain ⟨o₂,hdel',hsound,hexact⟩ := delRule_mapped h hnew
      rw [hdma,hdel'] at hdel
      obtain ⟨rfl,_⟩ := Prod.mk.inj hdel
      exact ⟨hsound,hexact⟩
    | false =>
      obtain ⟨o₂,ret,hdel',hret,_⟩ := delRule_failed h hnew
      rw [hdma,hdel'] at hdel
      exact absurd (Prod.mk.inj hdel).2 hret
  | explicit nmi hold _ ho => exact ho ▸ ⟨h,id⟩

theorem reachable_sound {g : Globals} {publicIp : BitVec 32} {numberOfEntries totSlotsInSram : ℕ}
    (h : smFirstTbl g publicIp numberOfEntries totSlotsInSram = some o) (ops : List HybridOp)
    (hops : Runs.Guarded NatiObj.step DeletesApplied o ops) :
    (Runs.run NatiObj.step o ops).Sound := by
  have hstep : ∀ (s : NatiObj) op, s.Sound → DeletesApplied s op → (s.step op).Sound :=
    fun _ op hs hop => step_sound hs op hop
  exact Runs.guarded_invariant hstep (smFirstTbl_spec h).1 ops hops

/-- In every state a run reaches in which the commands of the deletes are applied, a
successful table switch, whatever triggers it, is transparent if and only if no live rule has
its redirect bit set. -/
theorem transparent_iff_noRedirect {g : Globals} {publicIp : BitVec 32}
    {numberOfEntries totSlotsInSram : ℕ}
    (h : smFirstTbl g publicIp numberOfEntries totSlotsInSram = some o) (ops : List HybridOp)
    (hops : Runs.Guarded NatiObj.step DeletesApplied o ops)
    (hpoint : switchPoint (Runs.run NatiObj.step o ops) op = some (o₁,env))
    (hswitch : smTblSwitch o₁ env = (o₂,0)) :
    Transparent o₁ o₂ ↔ NoRedirect o₁ := by
  obtain ⟨hs₁,_⟩ := (triggers_of_switchPoint hpoint).spec (reachable_sound h ops hops)
  obtain ⟨o',ret,hsw,hcase⟩ := smTblSwitch_spec hs₁ env
  obtain ⟨rfl,rfl⟩ := Prod.mk.inj (hsw.symm.trans hswitch)
  exact (hcase.resolve_left fun hh => hh.2 rfl).transparent_iff hs₁

end SwitchPoints

section Failure

/-- `NATI_TRIG_GOTO_DDR` or `NATI_TRIG_GOTO_SRAM`, with which a table switch begins -/
def goToOther (o : NatiObj) (init : Bool) : NatiObj × ℤ :=
  match o.currState with
  | .hybrid => smGoToDdr o init
  | _ => smGoToSram o init

/-- The switch gets as far as the copy, which fails. -/
def CopyFails (o : NatiObj) (env : SwitchEnv) : Prop :=
  (goToOther o env.init).2 = 0 ∧ (smTblSwitch o env).2 ≠ 0

/-- The machine is where it was and every handle still reaches a rule. -/
structure KeepsRules (o o' : NatiObj) : Prop where
  focus : o'.currState = o.currState
  resolvable : ∀ hdl, AppHandle o hdl → ruleOf o' hdl ≠ none

theorem walkLoop_currState (t : Table NatRule UserRule) (when2cb : When2Callback)
    {walkCb : NatiObj → ℕ → ℕ → NatRule → NatiObj × ℤ}
    (hcb : ∀ o hdl i r, (walkCb o hdl i r).1.currState = o.currState) (m : ℕ) :
    ∀ (k : ℕ) (o : NatiObj), (walkLoop t when2cb walkCb k m o).1.currState = o.currState := by
  induction m with
  | zero => exact fun _ _ => rfl
  | succ m ih =>
    intro k o
    rw [walkLoop]
    split
    · dsimp only
      split
      · exact hcb _ _ _ _
      · exact (ih _ _).trans (hcb _ _ _ _)
    · exact ih _ _

theorem mapAddPair_currState (o : NatiObj) (m : MemIn) (orig new : ℕ) :
    (mapAddPair o m orig new).1.currState = o.currState := by
  unfold mapAddPair
  dsimp only
  split
  · rfl
  · rfl

theorem migrateRule_currState (src dst : MemIn) (ioctl : ℕ → Bool) (o : NatiObj) (hdl i : ℕ)
    (r : NatRule) : (migrateRule src dst ioctl o hdl i r).1.currState = o.currState := by
  unfold migrateRule
  split
  · rfl
  · split
    · rfl
    · dsimp only
      split
      · rfl
      · exact mapAddPair_currState _ _ _ _

/-- The copy leaves the focus where the switch has put it. -/
theorem switchCopy_currState (o : NatiObj) (src dst : MemIn) (copy : ℕ → Bool) :
    (switchCopy o src dst copy).1.currState = o.currState := by
  unfold switchCopy copyIpv4Tbl ipaTableWalk
  dsimp only
  split
  · rfl
  · exact walkLoop_currState _ _ (migrateRule_currState src dst copy) _ _ _

/-- Once a switch has begun the machine is in the other state, whatever becomes of the copy. -/
theorem smTblSwitch_currState (hs : o.currState = .hybrid ∨ o.currState = .hybridDdr)
    (hgo : (goToOther o env.init).2 = 0) :
    (smTblSwitch o env).1.currState = o.currState.other := by
  rcases hs with hs | hs
  · have hddr : o.ddrTblHdl ≠ none ∧ env.init = true := by
      by_contra hne
      simp [goToOther,hs,smGoToDdr,hne] at hgo
    have hto : smGoToDdr o env.init = (o.setState .hybridDdr,0) := if_pos hddr
    simp only [smTblSwitch,hs,smSwitchFromSramToDdr,hto,ne_eq,not_true_eq_false,if_false,
      switchCopy_currState]
    rfl
  · have hsram : o.sramTblHdl ≠ none ∧ env.init = true := by
      by_contra hne
      simp [goToOther,hs,smGoToSram,hne] at hgo
    have hto : smGoToSram o env.init = (o.setState .hybrid,0) := if_pos hsram
    simp only [smTblSwitch,hs,smSwitchFromDdrToSram,hto,ne_eq,not_true_eq_false,if_false,
      switchCopy_currState]
    rfl

theorem smAddRuleToTbl_currState (o : NatiObj) (rule : Ipv4Rule) (ioctl : Bool) :
    (smAddRuleToTbl o rule ioctl).1.currState = o.currState := by
  unfold smAddRuleToTbl
  dsimp only
  split
  · rfl
  · rfl

theorem smDelRuleMapped_currState (o : NatiObj) (hdl new : ℕ) (ioctl : Bool) :
    (smDelRuleMapped o hdl new ioctl).1.currState = o.currState := by
  unfold smDelRuleMapped smDelRuleFromTbl
  dsimp only
  split
  · rfl
  · rfl

theorem Triggers.currState (ht : Triggers o o₁ env op) : o₁.currState = o.currState := by
  cases ht with
  | add rule e hadd _ _ _ => rw [← hadd,smAddRuleToTbl_currState]
  | del hdl new e _ hdel _ _ =>
    have hh := smDelRuleMapped_currState o hdl new e.dma
    rwa [hdel] at hh
  | explicit nmi hold _ ho => rw [ho]

/-- An operation whose table switch fails ends in the state the switch has left. -/
theorem Triggers.step_of_failed (ht : Triggers o o₁ env op)
    (hfail : (smTblSwitch o₁ env).2 ≠ 0) : o.step op = (smTblSwitch o₁ env).1 := by
  cases ht with
  | add rule e hadd hret hsram henv =>
    subst hadd henv
    simp only [NatiObj.step,smAddRuleHybrid]
    rw [if_neg hret,if_pos hsram,if_pos hfail]
  | del hdl new e hnew hdel hback henv =>
    subst henv
    simp only [NatiObj.step,smDelRuleHybrid,hnew,hdel]
    rw [if_pos ⟨trivial,hback⟩,if_neg hfail]
  | explicit nmi hold hcompat ho =>
    subst ho
    simp only [NatiObj.step,natSwitchTo,if_pos hcompat]
    rw [if_neg hfail]

/-- Whatever the state, the operation and the rule at which the copy fails: afterwards the
machine is not where it was. -/
theorem not_keepsRules_of_copyFails (hs : o.currState = .hybrid ∨ o.currState = .hybridDdr)
    (hpoint : switchPoint o op = some (o₁,env)) (hfails : CopyFails o₁ env) :
    ¬ KeepsRules o₁ (o.step op) := by
  intro hk
  have ht := triggers_of_switchPoint hpoint
  have hs₁ := ht.currState
  have hfocus := hk.focus
  rw [ht.step_of_failed hfails.2,
    smTblSwitch_currState (hs₁ ▸ hs) hfails.1] at hfocus
  rcases hs with hh | hh
  · rw [hs₁,hh] at hfocus
    cases hfocus
  · rw [hs₁,hh] at hfocus
    cases hfocus

/-- Besides, some rule the application had a handle of cannot be reached any more. -/
theorem failed_switch_loses_rule (h : o.Sound) (hex : o.Exact)
    (hpoint : switchPoint o op = some (o₁,env)) (hfails : CopyFails o₁ env) :
    ∃ hdl, AppHandle o₁ hdl ∧ ruleOf (o.step op) hdl = none := by
  have ht := triggers_of_switchPoint hpoint
  obtain ⟨hs₁,he₁⟩ := ht.spec h
  rw [ht.step_of_failed hfails.2]
  obtain ⟨o₂,ret,hsw,hcase⟩ := smTblSwitch_spec hs₁ env
  have hstate := smTblSwitch_currState hs₁.state hfails.1
  have hret := hfails.2
  rw [hsw] at hstate hret ⊢
  rcases hcase with ⟨rfl,_⟩ | hto
  · rcases hs₁.state with hh | hh
    · rw [hh] at hstate
      cases hstate
    · rw [hh] at hstate
      cases hstate
  · obtain ⟨i,hi,hlost⟩ := hto.lost hret
    obtain ⟨hdl,hhdl⟩ := (he₁ hex).all i hi
    refine ⟨hdl,⟨i,hi,hhdl⟩,?_⟩
    simp [ruleOf,hlost hdl hhdl]

end Failure

section Sample

open NatRun

/-- A packet has raised the redirect bit of the only rule. -/
def redirected : NatiObj :=
  Runs.run NatiObj.step smallHybrid [addPort 4,.hardware 1 7 1]

/-- The switch to DDR loses the bit. -/
theorem transparent_redirected : smFirstTbl onePdn 5 10 4 = some smallHybrid ∧
    ∃ o₂, switchPoint redirected (.switchTo .ddr false allApplied) = some (redirected,allApplied) ∧
      smTblSwitch redirected allApplied = (o₂,0) ∧ ¬ Transparent redirected o₂ := by
  refine ⟨rfl,(smTblSwitch redirected allApplied).1,rfl,rfl,fun ht => ?_⟩
  have hfacts : AppHandle redirected 32770 ∧
      (ruleOf redirected 32770).map NatRule.redirect = some 1 ∧
      (ruleOf (smTblSwitch redirected allApplied).1 32770).map NatRule.redirect = some 0 :=
    ⟨⟨1,by decide,by decide⟩,by decide,by decide⟩
  obtain ⟨happ,hold,hnew⟩ := hfacts
  obtain ⟨r,r',hr,hr',hview⟩ := ht.view 32770 happ
  rw [hr] at hold
  rw [hr'] at hnew
  have hsame : r'.redirect = r.redirect := congrArg ClientView.redirect hview
  have hone : r.redirect = 1 := Option.some.inj hold
  have hzero : r'.redirect = 0 := Option.some.inj hnew
  rw [hone,hzero] at hsame
  cases hsame

/-- Without the packet nothing is lost. -/
theorem transparent_small :
    ∃ o₂, smTblSwitch (smallHybrid.step (addPort 4)) allApplied = (o₂,0) ∧
      Transparent (smallHybrid.step (addPort 4)) o₂ := by
  have hpoint : switchPoint (Runs.run NatiObj.step smallHybrid [addPort 4])
      (.switchTo .ddr false allApplied) =
        some (smallHybrid.step (addPort 4),allApplied) := rfl
  have hsound := reachable_sound smFirstTbl_small [addPort 4] (by decide)
  obtain ⟨own,iown,hinv⟩ := hsound.inv .sram
  have hall : ∀ i < 6, ((smallHybrid.step (addPort 4)).tbl .sram).Live i →
      (((smallHybrid.step (addPort 4)).tbl .sram).table.recs i).redirect = 0 := by decide
  exact ⟨_,rfl,(transparent_iff_noRedirect smFirstTbl_small [addPort 4] (by decide) hpoint
    rfl).mpr fun i hi => hall i (hinv.live_lt hi) hi⟩

/-- Two rules in DDR, whose PDN has lost its public address. -/
def pdnGone : NatiObj :=
  Runs.run NatiObj.step smallHybrid
    [addPort 4,addPort 0,.switchTo .ddr false allApplied,.modifyPdn 0 0]

/-- The delete of the first rule leaves few enough rules for SRAM. The second cannot be added
there, the machine stays with the empty SRAM table, and the rule is lost. -/
theorem keepsRules_pdnGone : smFirstTbl onePdn 5 10 4 = some smallHybrid ∧
    ∃ o₁, switchPoint pdnGone (.delRule 32770 ⟨true,allApplied⟩) = some (o₁,allApplied) ∧
      CopyFails o₁ allApplied ∧
      ¬ KeepsRules o₁ (pdnGone.step (.delRule 32770 ⟨true,allApplied⟩)) ∧
      AppHandle o₁ 32769 ∧
      ruleOf (pdnGone.step (.delRule 32770 ⟨true,allApplied⟩)) 32769 = none := by
  have hnew : (pdnGone.mapPairs pdnGone.memSub).orig2new 32770 = some 10 := by decide +kernel
  have hcond : (smDelRuleMapped pdnGone 32770 10 true).2 = 0 ∧
      BackToSram (smDelRuleMapped pdnGone 32770 10 true).1 := by decide +kernel
  refine ⟨rfl,(smDelRuleMapped pdnGone 32770 10 true).1,?_,⟨by decide +kernel,by decide +kernel⟩,fun hk => ?_,
    ⟨1,by decide +kernel,by decide +kernel⟩,by decide +kernel⟩
  · simp only [switchPoint,hnew]
    rw [if_pos hcond]
  · have hfocus : (pdnGone.step (.delRule 32770 ⟨true,allApplied⟩)).currState ≠
        (smDelRuleMapped pdnGone 32770 10 true).1.currState := by decide +kernel
    exact hfocus hk.focus

/-- An explicit switch to DDR that fails is no better. -/
theorem not_keepsRules_switchTo :
    ¬ KeepsRules (Runs.run NatiObj.step smallHybrid [addPort 4,.modifyPdn 0 0])
      (Runs.run NatiObj.step smallHybrid
        [addPort 4,.modifyPdn 0 0,.switchTo .ddr false allApplied]) := by
  have hpoint : switchPoint (Runs.run NatiObj.step smallHybrid [addPort 4,.modifyPdn 0 0])
      (.switchTo .ddr false allApplied) =
        some (Runs.run NatiObj.step smallHybrid [addPort 4,.modifyPdn 0 0],allApplied) := rfl
  exact not_keepsRules_of_copyFails (Or.inl rfl) hpoint ⟨by decide,by decide⟩

end Sample

end IpaNat
end MarbleModules
