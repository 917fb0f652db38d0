import MarbleModules.IpaNatHybridInvariant

/-! Runs of the hybrid state machine: when the handle maps stay exact, what a successful
table switch keeps of the rules, and what a failed one does to the state. -/
namespace MarbleModules
namespace IpaNat

open IpaTable

section Operations

variable {o : NatiObj}

/-- A delete whose commands are not applied kills no rule. -/
theorem delIpv4Rule_failed {n : NatTable} {own iown : ℕ → ℕ} (h : n.Inv own iown) {i : ℕ}
    (hi : n.Live i) :
    ∃ n' ret, delIpv4Rule n (n.realHdl i) false = (n',ret) ∧ ret ≠ 0 ∧
      (∀ j, n'.Live j ↔ n.Live j) ∧ ∀ j, n'.realHdl j = n.realHdl j := by
  have hocc := h.occupied_of_live hi
  have hx := (h.xref i hi).1
  have hget := getEntry_handle h (h.natChain.occ_lt i hocc)
  unfold delIpv4Rule NatTable.realHdl
  simp only [hget,ipaTableIteratorInit_eq h.natChain hocc,getEntryByIndex_link h.indxChain hx,
    ipaTableIteratorInit_eq h.indxChain hx]
  split
  · next hhead =>
    have hnext := ((isHeadWithTail_iff _ _).mp hhead).2
    rw [copySecond_eq hx rfl hnext h]
    simp only [iteratorNext_eq hx rfl hnext h,postIpv4DmaCmd,Bool.false_eq_true,if_false]
    refine ⟨_,_,rfl,by decide,fun j => ?_,fun j => rfl⟩
    by_cases hj : j = (n.indexTable.recs (n.indexTable.nextIndex
        (n.table.recs i).indxTblEntry)).tblEntry
    · subst hj
      simp [NatTable.Live,NatTable.moved]
    · simp [NatTable.Live,NatTable.moved,hj]
  · simp only [postIpv4DmaCmd,Bool.false_eq_true,if_false]
    exact ⟨_,_,rfl,by decide,fun j => Iff.rfl,fun j => rfl⟩

/-- A rule that is not stored leaves tables, maps and state as they are. -/
theorem addRule_rejected (h : o.Sound) {rule : Ipv4Rule} {ioctl : Bool}
    (hst : ¬ Stores o rule ioctl) :
    ∃ o₁ ret hdl, smAddRuleToTbl o rule ioctl = (o₁,ret,hdl) ∧ ret ≠ 0 ∧ o₁.Sound ∧
      o₁.currState = o.currState ∧ o₁.holdState = o.holdState ∧ (o.Exact → o₁.Exact) := by
  obtain ⟨own,iown,hinv⟩ := h.inv o.memSub
  obtain ⟨n',g',ret,hadd,hret,hu⟩ := addIpv4Rule_rejected hinv hst
  have hlive : ∀ i, n'.Live i ↔ (o.tbl o.memSub).Live i := fun i => by
    simp [NatTable.Live,hu.table]
  have hreal : ∀ i, n'.realHdl i = (o.tbl o.memSub).realHdl i := fun i => by
    simp [NatTable.realHdl,hu.table]
  refine ⟨(o.setTbl o.memSub n').setGlobals g',ret,0,?_,hret,?_,rfl,rfl,fun hex => ?_⟩
  · simp only [smAddRuleToTbl,hadd,if_neg hret]
  · refine h.update (by simp) (fun k hk => by simp [hk]) ⟨own,iown,?_⟩ ?_ ?_
    · simpa using hu.inv hinv
    · simp [hu.table]
    · simpa using h.mapped.congr hlive hreal
  · have hall : MappedAll n' _ _ := MappedAll.congr hex (by rw [hu.table]) hlive hreal
    simpa [NatiObj.Exact] using hall

/-- The rule of a handle the maps know is deleted, and taken out of the maps, when the
commands are applied. -/
theorem delRule_mapped (h : o.Sound) {hdl new : ℕ}
    (hdl_new : (o.mapPairs o.memSub).orig2new hdl = some new) :
    ∃ o₁, smDelRuleMapped o hdl new true = (o₁,0) ∧ o₁.Sound ∧ (o.Exact → o₁.Exact) := by
  obtain ⟨own,iown,hinv⟩ := h.inv o.memSub
  have horig := (h.mapped.inverse _ _).mp hdl_new
  obtain ⟨i,hi,rfl⟩ := h.mapped.live _ _ horig
  obtain ⟨n',hdel,hrem⟩ := delIpv4Rule_removal hinv hi
  refine ⟨((o.setMaps o.memSub ((o.mapPairs o.memSub).erase hdl
    ((o.tbl o.memSub).realHdl i))).setTbl o.memSub n').setCntr o.memSub
      (dec32 (o.totRulesInTable o.memSub)),?_,?_,fun hex => ?_⟩
  · simp only [smDelRuleMapped,smDelRuleFromTbl,NatiObj.setMaps_memSub,NatiObj.setMaps_tbl,
      NatTable.realHdl,hdel,if_true]
    rfl
  · refine h.update (by simp) (fun k hk => by simp [hk]) ⟨own,iown,by simpa using hrem.inv⟩ ?_ ?_
    · simp [hrem.nmi]
    · simpa using h.mapped.erase hrem hinv hi horig
  · have hall := MappedAll.erase hex hrem hinv hi horig
    simpa [NatiObj.Exact] using hall

/-- Without its commands the rule stays, but the maps have forgotten it. -/
theorem delRule_failed (h : o.Sound) {hdl new : ℕ}
    (hdl_new : (o.mapPairs o.memSub).orig2new hdl = some new) :
    ∃ o₁ ret, smDelRuleMapped o hdl new false = (o₁,ret) ∧ ret ≠ 0 ∧ ¬ o₁.Exact := by
  obtain ⟨own,iown,hinv⟩ := h.inv o.memSub
  have horig := (h.mapped.inverse _ _).mp hdl_new
  obtain ⟨i,hi,rfl⟩ := h.mapped.live _ _ horig
  obtain ⟨n',ret,hdel,hret,hlive,hreal⟩ := delIpv4Rule_failed hinv hi
  refine ⟨(o.setMaps o.memSub ((o.mapPairs o.memSub).erase hdl
    ((o.tbl o.memSub).realHdl i))).setTbl o.memSub n',ret,?_,hret,fun hex => ?_⟩
  · simp only [smDelRuleMapped,smDelRuleFromTbl,NatiObj.setMaps_memSub,NatiObj.setMaps_tbl,
      hdel,if_neg hret]
    rfl
  · have hi' : n'.Live i := (hlive i).mpr hi
    have hall := hex.all i (by simpa using hi')
    simp [hreal,MapPair.erase,natMapDel] at hall

/-- Clearing the table in use leaves nothing to map. -/
theorem smClrTbl_spec (h : o.Sound) :
    (smClrTbl o o.memSub).Sound ∧ (smClrTbl o o.memSub).Exact := by
  obtain ⟨own,iown,hinv⟩ := h.inv o.memSub
  have hclear := clearIpv4Tbl_inv hinv own iown
  have hall : MappedAll (clearIpv4Tbl (o.tbl o.memSub)) .cleared 0 :=
    mappedAll_of_not_live fun i hi => hi.1 rfl
  refine ⟨h.update rfl (fun k hk => by simp [smClrTbl,hk]) ⟨own,iown,?_⟩ ?_ ?_,?_⟩
  · simpa [smClrTbl] using hclear
  · simp [smClrTbl,clearIpv4Tbl,ipaTableReset]
  · simpa [smClrTbl] using hall.toMapped
  · have hsub : (smClrTbl o o.memSub).memSub = o.memSub := rfl
    unfold NatiObj.Exact
    rw [hsub]
    simpa [smClrTbl] using hall

/-- What the hardware writes does not concern the maps. -/
theorem hardware_spec (h : o.Sound) (i : ℕ) (ts : BitVec 24) (redirect : BitVec 1) :
    (o.step (.hardware i ts redirect)).Sound ∧
      (o.Exact → (o.step (.hardware i ts redirect)).Exact) := by
  obtain ⟨own,iown,hinv⟩ := h.inv o.memSub
  have hmeta : ∀ n : NatTable, (hardwareTouch n i ts redirect).table.nmi = n.table.nmi ∧
      (hardwareTouch n i ts redirect).table.totTblEnts = n.table.totTblEnts ∧
      ∀ j, (hardwareTouch n i ts redirect).realHdl j = n.realHdl j := by
    intro n
    unfold hardwareTouch
    dsimp only
    split
    · exact ⟨rfl,rfl,fun _ => rfl⟩
    · exact ⟨rfl,rfl,fun _ => rfl⟩
  obtain ⟨hnmi,htot,hreal⟩ := hmeta (o.tbl o.memSub)
  have hlive := fun j => hardwareTouch_live (n := o.tbl o.memSub) i j ts redirect
  refine ⟨h.update rfl (fun k hk => by simp [NatiObj.step,hk]) ⟨own,iown,?_⟩ ?_ ?_,fun hex => ?_⟩
  · simpa [NatiObj.step] using hardwareTouch_inv hinv i ts redirect
  · simpa [NatiObj.step] using hnmi
  · simpa [NatiObj.step] using h.mapped.congr hlive hreal
  · have hall : MappedAll _ _ _ := MappedAll.congr hex htot hlive hreal
    simpa [NatiObj.step,NatiObj.Exact] using hall

/-- Creating the tables again in `NATI_STATE_HYBRID` forgets the rules. -/
theorem smAddTblAgain_spec (h : o.Sound) :
    (smAddTblAgain o).Sound ∧
      (o.Exact → ((smAddTblAgain o).Exact ↔
        (o.currState = .hybrid → ∀ i, ¬ (o.tbl o.memSub).Live i))) := by
  unfold smAddTblAgain
  split
  · next hs =>
    refine ⟨⟨h.state,h.inv,h.nmi,⟨fun _ _ => ?_,fun _ _ hr => ?_⟩⟩,fun _ => ⟨fun hex _ i hi => ?_,
      fun hdead => mappedAll_of_not_live (hdead hs)⟩⟩
    · simp [MapPair.cleared,natMapClear]
    · simp [MapPair.cleared,natMapClear] at hr
    · obtain ⟨k,hk⟩ := MappedAll.all hex i hi
      simp [MapPair.cleared,natMapClear] at hk
  · next hs => exact ⟨h,fun hex => ⟨fun _ hst => absurd hst hs,fun _ => hex⟩⟩

end Operations

section Exactness

variable {o : NatiObj}

/-- The state in which an operation triggers a table switch, and the outcomes of its ioctls. -/
def switchPoint (o : NatiObj) : HybridOp → Option (NatiObj × SwitchEnv)
  | .addRule rule env =>
    match smAddRuleToTbl o rule env.dma with
    | (o₁,ret,_) =>
      if ret ≠ 0 ∧ o₁.currState = .hybrid ∧ o₁.holdState = false then some (o₁,env.switch)
      else none
  | .delRule hdl env =>
    match (o.mapPairs o.memSub).orig2new hdl with
    | none => none
    | some new =>
      match smDelRuleMapped o hdl new env.dma with
      | (o₁,ret) => if ret = 0 ∧ BackToSram o₁ then some (o₁,env.switch) else none
  | .switchTo nmi _ env => if CompatibleNmi o nmi then some (o,env) else none
  | _ => none

/-- The state in which `_smAddRuleHybrid` tries again: the first attempt has failed in SRAM
and the table switch has succeeded. -/
def retryState (o : NatiObj) (rule : Ipv4Rule) (env : AddEnv) : Option NatiObj :=
  match switchPoint o (.addRule rule env) with
  | none => none
  | some (o₁,env₁) =>
    match smTblSwitch o₁ env₁ with
    | (o₂,ret) => if ret = 0 then some (o₂.setState .hybridDdr) else none

/-- One of the attempts of `_smAddRuleHybrid` stores the rule. -/
def AddStores (o : NatiObj) (rule : Ipv4Rule) (env : AddEnv) : Prop :=
  Stores o rule env.dma ∨ ∃ o', retryState o rule env = some o' ∧ Stores o' rule env.again

/-- A rule that has been stored is registered. -/
def AddRegisters (o : NatiObj) : HybridOp → Prop
  | .addRule rule env => AddStores o rule env → (smAddRuleHybrid o rule env).2 = 0
  | _ => True

/-- The commands of a delete are applied, unless there is nothing to delete. -/
def DeletesApplied (o : NatiObj) : HybridOp → Prop
  | .delRule hdl env => env.dma = true ∨ (o.mapPairs o.memSub).orig2new hdl = none
  | _ => True

instance (o : NatiObj) (op : HybridOp) : Decidable (DeletesApplied o op) :=
  match op with
  | .delRule _ _ => inferInstanceAs (Decidable (_ ∨ _))
  | .addTbl => isTrue trivial
  | .addRule _ _ => isTrue trivial
  | .clrTbl => isTrue trivial
  | .switchTo _ _ _ => isTrue trivial
  | .modifyPdn _ _ => isTrue trivial
  | .hardware _ _ _ => isTrue trivial

/-- The operation finds the handle of a slot free when it stores a rule there, deletes with
commands that are applied, and does not create the tables over live rules. -/
def KeepsHandles (o : NatiObj) : HybridOp → Prop
  | .addTbl => o.currState = .hybrid → ∀ i < (o.tbl o.memSub).table.totTblEnts,
      ¬ (o.tbl o.memSub).Live i
  | .addRule rule env => ¬ Collides o rule env.dma ∧
      ∀ o' ∈ retryState o rule env, ¬ Collides o' rule env.again
  | op => DeletesApplied o op

instance (o : NatiObj) (op : HybridOp) : Decidable (KeepsHandles o op) :=
  match op with
  | .addTbl => inferInstanceAs (Decidable (_ → ∀ i < _, ¬ _))
  | .addRule rule env => inferInstanceAs (Decidable (_ ∧ ∀ o' ∈ retryState o rule env, _))
  | .delRule hdl env => inferInstanceAs (Decidable (DeletesApplied o (.delRule hdl env)))
  | .clrTbl => isTrue trivial
  | .switchTo _ _ _ => isTrue trivial
  | .modifyPdn _ _ => isTrue trivial
  | .hardware _ _ _ => isTrue trivial

/-- One attempt to add a rule and register it. -/
theorem addAttempt_spec (h : o.Sound) (rule : Ipv4Rule) (ioctl : Bool) :
    ∃ o' ret, (match smAddRuleToTbl o rule ioctl with
        | (o₁,ret,hdl) => if ret = 0 then registerRule o₁ hdl else (o₁,ret)) = (o',ret) ∧
      o'.Sound ∧ (o.Exact → (o'.Exact ↔ ¬ Collides o rule ioctl)) ∧
      (Stores o rule ioctl → ¬ Collides o rule ioctl → ret = 0) := by
  by_cases hst : Stores o rule ioctl
  · obtain ⟨o₁,hdl,o₂,ret,hadd,hreg,hsound,_,hfree,huse⟩ := addRule_stored h hst
    have hfree' : ¬ Collides o rule ioctl → ret = 0 ∧ (o.Exact → o₂.Exact) := by
      intro hcol
      refine hfree ?_
      by_contra hne
      exact hcol ⟨hst,hne⟩
    exact ⟨o₂,ret,by simp [hadd,hreg],hsound,
      fun hex => ⟨fun hex₂ hcol => (huse hcol.2).2 hex₂,fun hcol => (hfree' hcol).2 hex⟩,
      fun _ hcol => (hfree' hcol).1⟩
  · obtain ⟨o₁,ret,hdl,hadd,hret,hsound,_,_,hexact⟩ := addRule_rejected h hst
    exact ⟨o₁,ret,by simp [hadd,hret],hsound,
      fun hex => ⟨fun _ hcol => hst hcol.1,fun _ => hexact hex⟩,fun hh => absurd hh hst⟩

theorem smAddRuleHybrid_spec (h : o.Sound) (rule : Ipv4Rule) (env : AddEnv) :
    (smAddRuleHybrid o rule env).1.Sound ∧
      (o.Exact → ((smAddRuleHybrid o rule env).1.Exact ↔ KeepsHandles o (.addRule rule env))) ∧
      (KeepsHandles o (.addRule rule env) → AddRegisters o (.addRule rule env)) := by
  by_cases hst : Stores o rule env.dma
  · obtain ⟨o₁,hdl,o₂,ret,hadd,hreg,_⟩ := addRule_stored h hst
    obtain ⟨o',ret',hatt,hsound,hexact,hret⟩ := addAttempt_spec h rule env.dma
    have hretry : retryState o rule env = none := by simp [retryState,switchPoint,hadd]
    have hres : smAddRuleHybrid o rule env = (o',ret') := by
      rw [← hatt]
      simp [smAddRuleHybrid,hadd]
    simp only [hres,KeepsHandles,AddRegisters,AddStores,hretry]
    refine ⟨hsound,fun hex => ?_,fun hk _ => hret hst hk.1⟩
    simp [hexact hex]
  · obtain ⟨o₁,ret,hdl,hadd,hret,hsound,hstate,hhold,hexact⟩ := addRule_rejected h hst
    have hcol : ¬ Collides o rule env.dma := fun hc => hst hc.1
    by_cases hsw : o₁.currState = .hybrid ∧ o₁.holdState = false
    · obtain ⟨o₂,ret₂,hswitch,hcase⟩ := smTblSwitch_spec hsound env.switch
      by_cases hr₂ : ret₂ = 0
      · -- the switch has succeeded and the rule is tried again in DDR
        have hto : Switched o₁ o₂ ret₂ := hcase.resolve_left fun hh => hh.2 hr₂
        obtain ⟨hs₂,he₂⟩ := setState_self_sound hto.sound (s := .hybridDdr)
          (by rw [hto.currState,hsw.1]; rfl)
        have hretry : retryState o rule env = some (o₂.setState .hybridDdr) := by
          simp [retryState,switchPoint,hadd,hret,hsw,hswitch,hr₂]
        obtain ⟨o',ret',hatt,hsound',hexact',hret'⟩ := addAttempt_spec hs₂ rule env.again
        have hres : smAddRuleHybrid o rule env = (o',ret') := by
          rw [← hatt]
          simp [smAddRuleHybrid,hadd,hret,hsw,hswitch,hr₂]
        simp only [hres,KeepsHandles,AddRegisters,AddStores,hretry]
        refine ⟨hsound',fun _ => ?_,fun hk hstores => ?_⟩
        · simp [hexact' (he₂ hto.exact),hcol]
        · obtain ⟨o₃,ho₃,hst₃⟩ := hstores.resolve_left hst
          obtain rfl := Option.some.inj ho₃
          exact hret' hst₃ (hk.2 _ rfl)
      · have hretry : retryState o rule env = none := by
          simp [retryState,switchPoint,hadd,hret,hsw,hswitch,hr₂]
        have hres : smAddRuleHybrid o rule env = (o₂,ret₂) := by
          simp [smAddRuleHybrid,hadd,hret,hsw,hswitch,hr₂]
        simp only [hres,KeepsHandles,AddRegisters,AddStores,hretry]
        have hsound₂ : o₂.Sound ∧ (o.Exact → o₂.Exact) := by
          rcases hcase with ⟨rfl,_⟩ | hto
          · exact ⟨hsound,hexact⟩
          · exact ⟨hto.sound,fun _ => hto.exact⟩
        refine ⟨hsound₂.1,fun hex => ?_,fun _ hstores => ?_⟩
        · simp [hsound₂.2 hex,hcol]
        · simp [hst] at hstores
    · have hpoint : switchPoint o (.addRule rule env) = none := by simp [switchPoint,hadd,hsw]
      have hretry : retryState o rule env = none := by simp [retryState,hpoint]
      have hres : smAddRuleHybrid o rule env = (o₁,ret) := by simp [smAddRuleHybrid,hadd,hret,hsw]
      simp only [hres,KeepsHandles,AddRegisters,AddStores,hretry]
      refine ⟨hsound,fun hex => ?_,fun _ hstores => ?_⟩
      · simp [hexact hex,hcol]
      · simp [hst] at hstores

/-- Every delete keeps the states sound unless its commands fail for a rule that exists. -/
theorem smDelRuleHybrid_spec (h : o.Sound) (hdl : ℕ) (env : DelEnv)
    (hk : DeletesApplied o (.delRule hdl env)) :
    (smDelRuleHybrid o hdl env).1.Sound ∧ (o.Exact → (smDelRuleHybrid o hdl env).1.Exact) := by
  cases hnew : (o.mapPairs o.memSub).orig2new hdl with
  | none =>
    have hres : smDelRuleHybrid o hdl env = (o,-1) := by simp [smDelRuleHybrid,hnew]
    rw [hres]
    exact ⟨h,id⟩
  | some new =>
    have hdma : env.dma = true := hk.resolve_right (by simp [hnew])
    obtain ⟨o₁,hdel,hsound,hexact⟩ := delRule_mapped h hnew
    by_cases hback : BackToSram o₁
    · obtain ⟨o₂,ret₂,hswitch,hcase⟩ := smTblSwitch_spec hsound env.switch
      have hres : smDelRuleHybrid o hdl env =
          (if ret₂ = 0 then o₂.setState .hybrid else o₂,0) := by
        simp [smDelRuleHybrid,hnew,hdma,hdel,hback,hswitch]
      rw [hres]
      rcases hcase with ⟨rfl,hr₂⟩ | hto
      · rw [if_neg hr₂]
        exact ⟨hsound,hexact⟩
      · obtain ⟨hs₂,he₂⟩ := setState_self_sound hto.sound (s := .hybrid)
          (by rw [hto.currState,hback.1]; rfl)
        split
        · exact ⟨hs₂,fun _ => he₂ hto.exact⟩
        · exact ⟨hto.sound,fun _ => hto.exact⟩
    · have hres : smDelRuleHybrid o hdl env = (o₁,0) := by
        simp [smDelRuleHybrid,hnew,hdma,hdel,hback]
      rw [hres]
      exact ⟨hsound,hexact⟩

theorem smDelRuleHybrid_failed (h : o.Sound) (hdl : ℕ) (env : DelEnv)
    (hk : ¬ DeletesApplied o (.delRule hdl env)) : ¬ (smDelRuleHybrid o hdl env).1.Exact := by
  obtain ⟨hdma,hne⟩ := not_or.mp hk
  obtain ⟨new,hnew⟩ := Option.ne_none_iff_exists'.mp hne
  obtain ⟨o₁,ret,hdel,hret,hexact⟩ := delRule_failed h hnew
  have hres : smDelRuleHybrid o hdl env = (o₁,ret) := by
    simp [smDelRuleHybrid,hnew,hdma,hdel,hret]
  rw [hres]
  exact hexact

theorem natSwitchTo_spec (h : o.Sound) (nmi : MemIn) (hold : Bool) (env : SwitchEnv) :
    (natSwitchTo o nmi hold env).Sound ∧ (o.Exact → (natSwitchTo o nmi hold env).Exact) := by
  have hheld : ∀ o' : NatiObj, ∀ s : NatiState, o'.Sound →
      ({ o' with holdState := hold, stateToHold := s } : NatiObj).Sound :=
    fun _ _ h' => ⟨h'.state,h'.inv,h'.nmi,h'.mapped⟩
  have hpost : ∀ (o₁ : NatiObj) (ret : ℤ),
      (if CompatibleNmi o nmi then smTblSwitch o env else (o,0)) = (o₁,ret) →
      o₁.Sound → (o.Exact → o₁.Exact) →
      (natSwitchTo o nmi hold env).Sound ∧ (o.Exact → (natSwitchTo o nmi hold env).Exact) := by
    intro o₁ ret hcase hs he
    unfold natSwitchTo
    rw [hcase]
    dsimp only
    split
    · exact ⟨hheld o₁ _ hs,he⟩
    · exact ⟨hs,he⟩
  by_cases hc : CompatibleNmi o nmi
  · obtain ⟨o₂,ret₂,hswitch,hcase⟩ := smTblSwitch_spec h env
    refine hpost o₂ ret₂ (by rw [if_pos hc,hswitch]) ?_ ?_
    · rcases hcase with ⟨rfl,_⟩ | hto
      · exact h
      · exact hto.sound
    · rcases hcase with ⟨rfl,_⟩ | hto
      · exact id
      · exact fun _ => hto.exact
  · exact hpost o 0 (if_neg hc) h id

theorem step_sound (h : o.Sound) (op : HybridOp) (hk : DeletesApplied o op) :
    (o.step op).Sound := by
  cases op with
  | addTbl => exact (smAddTblAgain_spec h).1
  | addRule rule env => exact (smAddRuleHybrid_spec h rule env).1
  | delRule hdl env => exact (smDelRuleHybrid_spec h hdl env hk).1
  | clrTbl => exact (smClrTbl_spec h).1
  | switchTo nmi hold env => exact (natSwitchTo_spec h nmi hold env).1
  | modifyPdn pdnIndex publicIp => exact ⟨h.state,h.inv,h.nmi,h.mapped⟩
  | hardware i ts redirect => exact (hardware_spec h i ts redirect).1

theorem KeepsHandles.deletesApplied {op : HybridOp} (h : KeepsHandles o op) :
    DeletesApplied o op := by
  cases op with
  | delRule hdl env => exact h
  | _ => trivial

theorem step_exact_iff (h : o.Sound) (hex : o.Exact) (op : HybridOp) :
    (o.step op).Exact ↔ KeepsHandles o op := by
  cases op with
  | addTbl =>
    refine ((smAddTblAgain_spec h).2 hex).trans ⟨fun hh hs i _ => hh hs i,fun hh hs i hi => ?_⟩
    obtain ⟨own,iown,hinv⟩ := h.inv o.memSub
    exact hh hs i (hinv.live_lt hi) hi
  | addRule rule env => exact (smAddRuleHybrid_spec h rule env).2.1 hex
  | delRule hdl env =>
    refine ⟨fun hh => ?_,fun hk => (smDelRuleHybrid_spec h hdl env hk).2 hex⟩
    by_contra hk
    exact smDelRuleHybrid_failed h hdl env hk hh
  | clrTbl => exact ⟨fun _ => trivial,fun _ => (smClrTbl_spec h).2⟩
  | switchTo nmi hold env => exact ⟨fun _ => trivial,fun _ => (natSwitchTo_spec h nmi hold env).2 hex⟩
  | modifyPdn pdnIndex publicIp => exact ⟨fun _ => trivial,fun _ => hex⟩
  | hardware i ts redirect => exact ⟨fun _ => trivial,fun _ => (hardware_spec h i ts redirect).2 hex⟩

/-- The first table creation leaves a machine without rules. -/
theorem smFirstTbl_spec {g : Globals} {publicIp : BitVec 32} {numberOfEntries totSlotsInSram : ℕ}
    (h : smFirstTbl g publicIp numberOfEntries totSlotsInSram = some o) :
    o.Sound ∧ o.Exact := by
  unfold smFirstTbl at h
  split at h
  · next sram ddr hsram hddr =>
    split at h
    · cases h
    · obtain rfl := Option.some.inj h
      have hs := createTable_not_live hsram
      have hd := createTable_not_live hddr
      refine ⟨⟨Or.inl rfl,fun m => ?_,fun m => ?_,(mappedAll_of_not_live hs).toMapped⟩,
        mappedAll_of_not_live hs⟩
      · cases m with
        | ddr => exact ⟨fun _ => 0,fun _ => 0,createTable_inv hddr _ _⟩
        | sram => exact ⟨fun _ => 0,fun _ => 0,createTable_inv hsram _ _⟩
      · cases m with
        | ddr => exact createTable_nmi hddr
        | sram => exact createTable_nmi hsram
  · cases h

/-- The handles of the table in use: original and new handles are in one-to-one
correspondence, the new handles are those of the live rules, the counter counts them, and no
two rules have the same original handle. -/
structure HandlesExact (o : NatiObj) : Prop where
  inverse : ∀ h r, (o.mapPairs o.memSub).orig2new h = some r ↔
    (o.mapPairs o.memSub).new2orig r = some h
  domain : ∀ r, (o.mapPairs o.memSub).new2orig r ≠ none ↔
    ∃ i, (o.tbl o.memSub).Live i ∧ r = (o.tbl o.memSub).realHdl i
  count : o.totRulesInTable o.memSub = (o.tbl o.memSub).liveCount
  distinct : ∀ i j, (o.tbl o.memSub).Live i → (o.tbl o.memSub).Live j →
    (o.mapPairs o.memSub).new2orig ((o.tbl o.memSub).realHdl i) =
      (o.mapPairs o.memSub).new2orig ((o.tbl o.memSub).realHdl j) → i = j

theorem HandlesExact.exact (h : HandlesExact o) : o.Exact := by
  refine ⟨⟨h.inverse,fun r k hr => ?_⟩,fun i hi => ?_,h.count⟩
  · exact (h.domain r).mp (by simp [hr])
  · exact Option.ne_none_iff_exists'.mp ((h.domain _).mpr ⟨i,hi,rfl⟩)

theorem handlesExact_of_exact (h : o.Sound) (hex : o.Exact) : HandlesExact o := by
  obtain ⟨own,iown,hinv⟩ := h.inv o.memSub
  refine ⟨hex.inverse,fun r => ⟨fun hr => ?_,?_⟩,hex.count,fun i j hi hj heq => ?_⟩
  · obtain ⟨k,hk⟩ := Option.ne_none_iff_exists'.mp hr
    exact hex.live r k hk
  · rintro ⟨i,hi,rfl⟩
    obtain ⟨k,hk⟩ := hex.all i hi
    simp [hk]
  · obtain ⟨k,hk⟩ := hex.all i hi
    have hik := (hex.inverse _ _).mpr hk
    have hjk := (hex.inverse _ _).mpr (heq.symm.trans hk)
    rw [hik] at hjk
    exact hinv.realHdl_injective (hinv.live_lt hi) (hinv.live_lt hj) (Option.some.inj hjk)

theorem keepsHandles_registers (h : o.Sound) (op : HybridOp) (hk : KeepsHandles o op) :
    AddRegisters o op := by
  cases op with
  | addRule rule env => exact (smAddRuleHybrid_spec h rule env).2.2 hk
  | _ => trivial

/-- From the first table creation on, the handles stay exact and every stored rule is
registered in just those runs whose operations meet `KeepsHandles`. -/
theorem handlesExact_always_iff {g : Globals} {publicIp : BitVec 32}
    {numberOfEntries totSlotsInSram : ℕ}
    (h : smFirstTbl g publicIp numberOfEntries totSlotsInSram = some o) (ops : List HybridOp) :
    Runs.Always NatiObj.step HandlesExact o ops ∧ Runs.Guarded NatiObj.step AddRegisters o ops ↔
      Runs.Guarded NatiObj.step KeepsHandles o ops := by
  have hP : ∀ s : NatiObj, s.Sound ∧ s.Exact → HandlesExact s :=
    fun _ hs => handlesExact_of_exact hs.1 hs.2
  have hgood : ∀ (s : NatiObj) op, s.Sound ∧ s.Exact → KeepsHandles s op →
      (s.step op).Sound ∧ (s.step op).Exact :=
    fun _ op hs hk => ⟨step_sound hs.1 op hk.deletesApplied,(step_exact_iff hs.1 hs.2 op).mpr hk⟩
  have hbad : ∀ (s : NatiObj) op, s.Sound ∧ s.Exact → True → ¬ KeepsHandles s op →
      ¬ HandlesExact (s.step op) :=
    fun _ op hs _ hk hh => hk ((step_exact_iff hs.1 hs.2 op).mp hh.exact)
  have hfirst := smFirstTbl_spec h
  have hiff := Runs.always_iff_guarded hP (fun s op hs _ hk => hgood s op hs hk) hbad hfirst ops
    (Runs.guarded_true NatiObj.step o ops)
  have hreg := Runs.Guarded.imp hgood (fun s op hs hk => keepsHandles_registers hs.1 op hk) hfirst ops
  exact ⟨fun hh => hiff.mp hh.1,fun hg => ⟨hiff.mpr hg,hreg hg⟩⟩

section Sample

open NatRun

/-- A UDP rule whose hashes depend on the public port alone. -/
def portRule (publicPort : BitVec 16) : Ipv4Rule := { udpRule 0 with publicPort := publicPort }

/-- The outcomes when no ioctl fails. -/
def allApplied : SwitchEnv := ⟨true,fun _ => true⟩

def addPort (publicPort : BitVec 16) : HybridOp :=
  .addRule (portRule publicPort) ⟨true,allApplied,true⟩

/-- A hybrid machine with four base slots in SRAM and eight in DDR. -/
def smallHybrid : NatiObj := (smFirstTbl onePdn 5 10 4).get rfl

theorem smFirstTbl_small : smFirstTbl onePdn 5 10 4 = some smallHybrid := rfl

/-- Two rules of one SRAM chain change places on the way to DDR and back. The slot the first
was added to is then the second one's, and its own becomes free. -/
def roundTrip : List HybridOp :=
  [addPort 4,addPort 0,.switchTo .ddr false allApplied,.switchTo .sram false allApplied,
    .delRule 32770 ⟨true,allApplied⟩]

/-- The rule added after the round trip is stored at slot 4, whose handle the other rule
still carries: the add fails and the rule has no entry in the maps. -/
theorem handlesExact_roundTrip : smFirstTbl onePdn 5 10 4 = some smallHybrid ∧
    ¬ (Runs.Always NatiObj.step HandlesExact smallHybrid (roundTrip++[addPort 8]) ∧
      Runs.Guarded NatiObj.step AddRegisters smallHybrid (roundTrip++[addPort 8])) := by
  refine ⟨rfl,fun hh => ?_⟩
  have hlast := hh.1.last.domain 32769
  generalize ho : Runs.run NatiObj.step smallHybrid (roundTrip++[addPort 8]) = o at hlast
  have hfacts : o.memSub = .sram ∧ (o.tbl .sram).Live 4 ∧ (o.tbl .sram).realHdl 4 = 32769 ∧
      (o.mapPairs .sram).new2orig 32769 = none := by
    rw [← ho]
    decide +kernel
  obtain ⟨hsub,hlive,hhdl,hmap⟩ := hfacts
  rw [hsub] at hlast
  exact hlast.mpr ⟨4,hlive,hhdl.symm⟩ hmap

/-- Without the round trip the handle of the slot is free. -/
theorem handlesExact_small :
    Runs.Always NatiObj.step HandlesExact smallHybrid
        [addPort 4,addPort 0,.delRule 32770 ⟨true,allApplied⟩,addPort 8] ∧
      Runs.Guarded NatiObj.step AddRegisters smallHybrid
        [addPort 4,addPort 0,.delRule 32770 ⟨true,allApplied⟩,addPort 8] :=
  (handlesExact_always_iff smFirstTbl_small _).mpr (by decide +kernel)

end Sample

end Exactness

end IpaNat
end MarbleModules
