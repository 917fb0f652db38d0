import MarbleModules.IpaNatStatemach
import MarbleModules.IpaNatMigration
import MarbleModules.Runs

/-! What a request to hold a memory type achieves: when `ipa_nat_switch_to` reports what it did
and the memory it was asked for stays in use. -/
namespace MarbleModules
namespace IpaNat

/-- Locks and clock vote work. -/
structure CallEnv.Works (env : CallEnv) : Prop where
  take : env.take = 0
  vote : env.vote = true
  give : env.give = 0

namespace Statemach

open IpaTable Runs

/-- The memory type in use -/
def memInUse (s : Statemach) : Option MemIn := s.obj.currState.mem

/-- There is a table in the memory in use. -/
def Created (s : Statemach) : Prop := ∃ nmi,s.memInUse = some nmi ∧ s.valid nmi = true

def Op.IsRule : Op → Prop
  | .addRule .. | .delRule .. => True
  | _ => False

/-- The machine uses one memory only. -/
def UsesOne (s : Statemach) : Prop :=
  s.obj.currState = .ddrOnly ∨ s.obj.currState = .sramOnly

/-- A machine that uses one memory only is asked to hold the other. -/
def Incompatible (s : Statemach) (nmi : MemIn) (hold : Bool) : Prop :=
  hold = true ∧ s.UsesOne ∧ s.memInUse ≠ some nmi

/-- The call runs a table switch. -/
def Asks (s : Statemach) (nmi : MemIn) : Prop :=
  s.obj.prevState ≠ .null ∧ InHybridState s.obj ∧ CompatibleNmi4Switch s.obj nmi

/-- What the call promises: a hold that returns 0 puts the memory into use for every later run
of rule adds and deletes, and what does not work is reported. -/
structure Honoured (s : Statemach) (nmi : MemIn) (hold : Bool) (env : SwitchToEnv) : Prop where
  held : hold = true → (s.natSwitchTo nmi hold env).2 = 0 → s.Created →
    ∀ later : List Op,(∀ op ∈ later,op.IsRule) →
      (run step (s.natSwitchTo nmi hold env).1 later).memInUse = some nmi
  reported : s.Incompatible nmi hold ∨ s.Asks nmi ∧ (smTblSwitch env.switch s).2 ≠ 0 →
    (s.natSwitchTo nmi hold env).2 ≠ 0

def Honours (s : Statemach) : Op → Prop
  | .switchTo nmi hold env => s.Honoured nmi hold env
  | _ => True

/-- The table switch meets both tables and no failure: locks, clock votes, the init command and
the copy of every rule. -/
def SwitchWorks (s : Statemach) (env : TblSwitchEnv) : Prop :=
  env.call.Works ∧ env.goto.call.Works ∧ env.goto.init = true ∧
    match s.obj.currState with
    | .hybrid => CopyWorks s .hybridDdr s.obj.sramTblHdl s.obj.ddrTblHdl .ddr env.copy
    | .hybridDdr => CopyWorks s .hybrid s.obj.ddrTblHdl s.obj.sramTblHdl .sram env.copy
    | _ => False
where
  CopyWorks (s : Statemach) (state : NatiState) (src dst : Option MemIn) (sub : MemIn)
      (copy : ℕ → Bool) : Prop :=
    ∃ m d,src = some m ∧ dst = some d ∧ s.tableCnt m = true ∧ s.tableCnt d = true ∧
      (IpaNat.copyIpv4Tbl ((((s.obj.setState state).setCntr sub 0)).setMaps sub .cleared)
        m d copy).2 = 0

/-- What has to be the case for a call to do as it promises. -/
def Suits (s : Statemach) : Op → Prop
  | .switchTo nmi hold env =>
    env.take ≠ 0 ∨ env.give ≠ 0 ∨
      if s.obj.prevState = .null then
        hold = true → s.memInUse = some nmi ∨ ¬s.Created ∧ ¬s.UsesOne
      else if InHybridState s.obj then s.memInUse = some nmi ∨ s.SwitchWorks env.switch
      else hold = true → s.memInUse = some nmi ∨ ¬s.UsesOne
  | _ => True

theorem neg_einval_ne : (-einval : ℤ) ≠ 0 := by decide

section Frames

variable {s : Statemach} {nmi : MemIn} {t : Trigger} {env : CallEnv}
  {cb : Statemach → Statemach × ℤ}

theorem statemach_keeps {P : Statemach → Prop} (h : P s) (hcb : P (cb s).1) :
    P (statemach t env cb s).1 := by
  rw [statemach]
  split
  · exact h
  · dsimp only
    split
    · exact h
    · exact hcb

theorem statemach_ok_iff (hv : VoteRequired s.obj t) :
    (statemach t env cb s).2 = 0 ↔ env.Works ∧ (cb s).2 = 0 := by
  rw [statemach]
  by_cases htake : env.take = 0
  · rw [if_neg (not_not.mpr htake)]
    cases hvote : env.vote with
    | true =>
      rw [if_neg (by simp)]
      dsimp only
      by_cases hret : (cb s).2 = 0
      · rw [if_neg (not_not.mpr hret)]
        exact ⟨fun hg => ⟨⟨htake,hvote,hg⟩,hret⟩,fun hw => hw.1.give⟩
      · rw [if_pos hret]
        exact ⟨fun hz => absurd hz hret,fun hw => hw.2⟩
    | false =>
      rw [if_pos ⟨hv,rfl⟩]
      dsimp only
      rw [if_pos neg_einval_ne]
      refine iff_of_false neg_einval_ne fun hw => ?_
      have hvote' := hw.1.vote
      rw [hvote] at hvote'
      nomatch hvote'
  · rw [if_pos htake]
    exact ⟨fun hz => absurd hz htake,fun hw => absurd hw.1.take htake⟩

theorem statemach_fst (hv : VoteRequired s.obj t) (h : (statemach t env cb s).2 = 0) :
    (statemach t env cb s).1 = (cb s).1 := by
  obtain ⟨hw,-⟩ := (statemach_ok_iff hv).mp h
  rw [statemach,if_neg (not_not.mpr hw.take),hw.vote]
  simp

theorem smAddRuleToTbl_keeps (hdl : Option MemIn) (rule : Ipv4Rule) (dma : Bool) :
    (s.smAddRuleToTbl hdl rule dma).1.obj.currState = s.obj.currState ∧
      (s.smAddRuleToTbl hdl rule dma).1.obj.holdState = s.obj.holdState := by
  cases hdl with
  | none => exact ⟨rfl,rfl⟩
  | some m =>
    rw [smAddRuleToTbl]
    dsimp only
    split
    · exact ⟨rfl,rfl⟩
    · split
      · exact ⟨rfl,rfl⟩
      · exact ⟨rfl,rfl⟩

theorem registerRule_keeps (hdl : ℕ) :
    (s.registerRule hdl).1.obj.currState = s.obj.currState ∧
      (s.registerRule hdl).1.obj.holdState = s.obj.holdState := by
  have hhold : (mapAddPair s.obj s.obj.memSub hdl hdl).1.holdState = s.obj.holdState := by
    unfold mapAddPair
    dsimp only
    split
    · rfl
    · rfl
  exact ⟨mapAddPair_currState _ _ _ _,hhold⟩

theorem addRuleOnce_keeps (hdl : Option MemIn) (rule : Ipv4Rule) (dma : Bool) :
    (s.addRuleOnce hdl rule dma).1.obj.currState = s.obj.currState ∧
      (s.addRuleOnce hdl rule dma).1.obj.holdState = s.obj.holdState := by
  obtain ⟨hcurr,hhold⟩ := smAddRuleToTbl_keeps (s := s) (s.target hdl) rule dma
  rw [addRuleOnce]
  dsimp only
  split
  · obtain ⟨hcurr',hhold'⟩ := registerRule_keeps
      (s := (s.smAddRuleToTbl (s.target hdl) rule dma).1)
      (s.smAddRuleToTbl (s.target hdl) rule dma).2.2
    exact ⟨hcurr'.trans hcurr,hhold'.trans hhold⟩
  · exact ⟨hcurr,hhold⟩

theorem smDelRuleFromTbl_keeps (hdl : Option MemIn) (ruleHdl : ℕ) (dma : Bool) :
    (s.smDelRuleFromTbl hdl ruleHdl dma).1.obj.currState = s.obj.currState ∧
      (s.smDelRuleFromTbl hdl ruleHdl dma).1.obj.holdState = s.obj.holdState := by
  cases hdl with
  | none => exact ⟨rfl,rfl⟩
  | some m =>
    rw [smDelRuleFromTbl]
    dsimp only
    split
    · exact ⟨rfl,rfl⟩
    · split
      · exact ⟨rfl,rfl⟩
      · exact ⟨rfl,rfl⟩

theorem smDelRuleMapped_keeps (hdl : Option MemIn) (orig new : ℕ) (dma : Bool) :
    (s.smDelRuleMapped hdl orig new dma).1.obj.currState = s.obj.currState ∧
      (s.smDelRuleMapped hdl orig new dma).1.obj.holdState = s.obj.holdState :=
  smDelRuleFromTbl_keeps _ _ _

end Frames

section Holding

variable {s : Statemach} {nmi : MemIn}

/-- The memory is in use, and a machine that could leave it holds it. -/
structure Held (nmi : MemIn) (s : Statemach) : Prop where
  inUse : s.memInUse = some nmi
  hold : InHybridState s.obj → s.obj.holdState = true

theorem Held.of_keeps {s' : Statemach} (h : s.Held nmi)
    (hk : s'.obj.currState = s.obj.currState ∧ s'.obj.holdState = s.obj.holdState) :
    s'.Held nmi := by
  obtain ⟨hcurr,hhold⟩ := hk
  refine ⟨?_,fun hh => ?_⟩
  · rw [memInUse,hcurr]
    exact h.inUse
  · rw [hhold]
    rw [InHybridState,hcurr] at hh
    exact h.hold hh

/-- A machine that holds its state refuses the rule instead of switching. -/
theorem Held.addRuleHybrid (h : s.Held nmi) (hh : InHybridState s.obj) (hdl : Option MemIn)
    (rule : Ipv4Rule) (env : AddRuleEnv) : (s.smAddRuleHybrid hdl rule env).1.Held nmi := by
  have hk := addRuleOnce_keeps (s := s) hdl rule env.dma
  rw [smAddRuleHybrid]
  dsimp only
  rw [if_neg]
  · exact h.of_keeps hk
  · rw [hk.2,h.hold hh]
    simp

/-- A machine that holds its state does not go back to SRAM. -/
theorem Held.delRuleHybrid (h : s.Held nmi) (hh : InHybridState s.obj) (hdl : Option MemIn)
    (ruleHdl : ℕ) (env : DelRuleEnv) : (s.smDelRuleHybrid hdl ruleHdl env).1.Held nmi := by
  rw [smDelRuleHybrid]
  split
  · exact h
  · rename_i new _
    have hk := smDelRuleMapped_keeps (s := s) hdl ruleHdl new env.dma
    dsimp only
    rw [if_neg]
    · exact h.of_keeps hk
    · rw [BackToSram,hk.2,h.hold hh]
      simp

theorem Held.step (h : s.Held nmi) (op : Op) (hop : op.IsRule) : (s.step op).Held nmi := by
  cases op with
  | addRule hdl rule env =>
    refine statemach_keeps h ?_
    cases hs : s.obj.currState with
    | null => exact h
    | ddrOnly => exact h.of_keeps (smAddRuleToTbl_keeps _ _ _)
    | sramOnly => exact h.of_keeps (smAddRuleToTbl_keeps _ _ _)
    | hybrid => exact h.addRuleHybrid (.inl hs) _ _ _
    | hybridDdr => exact h.addRuleHybrid (.inr hs) _ _ _
  | delRule hdl ruleHdl env =>
    refine statemach_keeps h ?_
    cases hs : s.obj.currState with
    | null => exact h
    | ddrOnly => exact h.of_keeps (smDelRuleFromTbl_keeps _ _ _)
    | sramOnly => exact h.of_keeps (smDelRuleFromTbl_keeps _ _ _)
    | hybrid => exact h.delRuleHybrid (.inl hs) _ _ _
    | hybridDdr => exact h.delRuleHybrid (.inr hs) _ _ _
  | _ => exact hop.elim

/-- Along a run of rule adds and deletes the memory stays in use. -/
theorem Held.run (h : s.Held nmi) (later : List Op) (hl : ∀ op ∈ later,op.IsRule) :
    (Runs.run Statemach.step s later).memInUse = some nmi := by
  induction later generalizing s with
  | nil => exact h.inUse
  | cons op later ih =>
    obtain ⟨hop,hl⟩ := List.forall_mem_cons.mp hl
    exact ih (h.step op hop) hl

end Holding

section Switch

variable {s : Statemach} {nmi : MemIn} {env : TblSwitchEnv}

theorem postIpv4InitCmd_ok_iff (hdl : Option MemIn) (init : Bool) :
    s.postIpv4InitCmd hdl init = 0 ↔ init = true ∧ ∃ d,hdl = some d ∧ s.tableCnt d = true := by
  cases hdl with
  | none => exact iff_of_false neg_einval_ne fun hh => by obtain ⟨-,d,hd,-⟩ := hh; nomatch hd
  | some d =>
    rw [postIpv4InitCmd]
    split
    · rename_i hd
      exact iff_of_true rfl ⟨hd.2,d,rfl,hd.1⟩
    · rename_i hd
      refine iff_of_false neg_einval_ne fun hh => hd ?_
      obtain ⟨hinit,d',hd',hcnt⟩ := hh
      obtain rfl := Option.some.inj hd'
      exact ⟨hcnt,hinit⟩

theorem copyIpv4Tbl_ok_iff (src dst : Option MemIn) (copy : ℕ → Bool) :
    (s.copyIpv4Tbl src dst copy).2 = 0 ↔
      ∃ m d,src = some m ∧ dst = some d ∧ s.tableCnt m = true ∧ s.tableCnt d = true ∧
        (IpaNat.copyIpv4Tbl s.obj m d copy).2 = 0 := by
  cases dst with
  | none => exact iff_of_false neg_einval_ne fun hh => by obtain ⟨_,_,-,hd,-⟩ := hh; nomatch hd
  | some d =>
    rw [copyIpv4Tbl.eq_def]
    dsimp only
    cases hd : s.tableCnt d with
    | false =>
      refine iff_of_false neg_einval_ne fun hh => ?_
      obtain ⟨_,d',-,hd',-,hcnt,-⟩ := hh
      obtain rfl := Option.some.inj hd'
      rw [hd] at hcnt
      nomatch hcnt
    | true =>
      rw [if_neg (by simp)]
      cases src with
      | none => exact iff_of_false neg_einval_ne fun hh => by obtain ⟨_,_,hm,-⟩ := hh; nomatch hm
      | some m =>
        dsimp only
        cases hm : s.tableCnt m with
        | false =>
          refine iff_of_false neg_einval_ne fun hh => ?_
          obtain ⟨m',_,hm',-,hcnt,-⟩ := hh
          obtain rfl := Option.some.inj hm'
          rw [hm] at hcnt
          nomatch hcnt
        | true =>
          rw [if_neg (by simp)]
          refine ⟨fun hz => ⟨m,d,rfl,rfl,hm,hd,hz⟩,fun hh => ?_⟩
          obtain ⟨m',d',hm',hd',-,-,hz⟩ := hh
          obtain rfl := Option.some.inj hm'
          obtain rfl := Option.some.inj hd'
          exact hz

theorem copyIpv4Tbl_currState (src dst : Option MemIn) (copy : ℕ → Bool) :
    (s.copyIpv4Tbl src dst copy).1.obj.currState = s.obj.currState := by
  cases dst with
  | none => rfl
  | some d =>
    rw [copyIpv4Tbl.eq_def]
    dsimp only
    split
    · rfl
    · cases src with
      | none => rfl
      | some m =>
        dsimp only
        split
        · rfl
        · change (IpaNat.copyIpv4Tbl s.obj m d copy).1.currState = _
          unfold IpaNat.copyIpv4Tbl ipaTableWalk
          dsimp only
          split
          · rfl
          · exact walkLoop_currState _ _ (migrateRule_currState m d copy) _ _ _

/-- What `_smGoToDdr` and `_smGoToSram` have in common. -/
def GoesTo (s : Statemach) (cb : Statemach → Statemach × ℤ) (dst : Option MemIn) (init : Bool)
    (state : NatiState) : Prop :=
  cb s = if s.postIpv4InitCmd dst init = 0 then (s.setObj (s.obj.setState state),0)
    else (s,s.postIpv4InitCmd dst init)

theorem GoesTo.ok_iff {t : Trigger} {call : CallEnv} {cb : Statemach → Statemach × ℤ}
    {dst : Option MemIn} {init : Bool} {state : NatiState} (h : s.GoesTo cb dst init state)
    (hv : VoteRequired s.obj t) :
    (statemach t call cb s).2 = 0 ↔
      call.Works ∧ init = true ∧ ∃ d,dst = some d ∧ s.tableCnt d = true := by
  have hcb : (cb s).2 = 0 ↔ s.postIpv4InitCmd dst init = 0 := by
    rw [h]
    split
    · exact iff_of_true rfl ‹_›
    · rfl
  rw [statemach_ok_iff hv,hcb,postIpv4InitCmd_ok_iff]

theorem GoesTo.fst {t : Trigger} {call : CallEnv} {cb : Statemach → Statemach × ℤ}
    {dst : Option MemIn} {init : Bool} {state : NatiState} (h : s.GoesTo cb dst init state)
    (hv : VoteRequired s.obj t) (hret : (statemach t call cb s).2 = 0) :
    (statemach t call cb s).1 = s.setObj (s.obj.setState state) := by
  have hpost := (postIpv4InitCmd_ok_iff _ _).mpr ((h.ok_iff hv).mp hret).2
  rw [statemach_fst hv hret,h,if_pos hpost]

theorem switchCopy_ok_iff (state : NatiState) (src dst : Option MemIn) (sub : MemIn)
    (copy : ℕ → Bool) :
    ((s.setObj (s.obj.setState state)).switchCopy src dst sub copy).2 = 0 ↔
      SwitchWorks.CopyWorks s state src dst sub copy :=
  copyIpv4Tbl_ok_iff _ _ _

theorem smSwitchFromSramToDdr_ok_iff (hs : s.obj.currState = .hybrid) :
    (s.smSwitchFromSramToDdr env).2 = 0 ↔ env.goto.call.Works ∧ env.goto.init = true ∧
      SwitchWorks.CopyWorks s .hybridDdr s.obj.sramTblHdl s.obj.ddrTblHdl .ddr env.copy := by
  have hv : VoteRequired s.obj .gotoDdr := ⟨.inr (.inl hs),by decide⟩
  have hgo : s.GoesTo (smGoToDdr env.goto.init) s.obj.ddrTblHdl env.goto.init .hybridDdr := rfl
  rw [smSwitchFromSramToDdr]
  dsimp only
  split
  · rename_i hret
    obtain ⟨hw,hinit,-⟩ := (hgo.ok_iff hv).mp hret
    rw [hgo.fst hv hret]
    refine (switchCopy_ok_iff _ _ _ _ _).trans ⟨fun hc => ⟨hw,hinit,hc⟩,fun hh => hh.2.2⟩
  · rename_i hret
    refine iff_of_false hret fun hh => hret ((hgo.ok_iff hv).mpr ⟨hh.1,hh.2.1,?_⟩)
    obtain ⟨-,d,-,hd,-,hcnt,-⟩ := hh.2.2
    exact ⟨d,hd,hcnt⟩

theorem smSwitchFromDdrToSram_ok_iff :
    (s.smSwitchFromDdrToSram env).2 = 0 ↔ env.goto.call.Works ∧ env.goto.init = true ∧
      SwitchWorks.CopyWorks s .hybrid s.obj.ddrTblHdl s.obj.sramTblHdl .sram env.copy := by
  have hv : VoteRequired s.obj .gotoSram := ⟨.inr (.inr (.inl rfl)),by decide⟩
  have hgo : s.GoesTo (smGoToSram env.goto.init) s.obj.sramTblHdl env.goto.init .hybrid := rfl
  rw [smSwitchFromDdrToSram]
  dsimp only
  split
  · rename_i hret
    obtain ⟨hw,hinit,-⟩ := (hgo.ok_iff hv).mp hret
    rw [hgo.fst hv hret]
    refine (switchCopy_ok_iff _ _ _ _ _).trans ⟨fun hc => ⟨hw,hinit,hc⟩,fun hh => hh.2.2⟩
  · rename_i hret
    refine iff_of_false hret fun hh => hret ((hgo.ok_iff hv).mpr ⟨hh.1,hh.2.1,?_⟩)
    obtain ⟨-,d,-,hd,-,hcnt,-⟩ := hh.2.2
    exact ⟨d,hd,hcnt⟩

/-- A table switch succeeds exactly when nothing on its way fails. -/
theorem smTblSwitch_ok_iff : (smTblSwitch env s).2 = 0 ↔ s.SwitchWorks env := by
  have hv : VoteRequired s.obj .tblSwitch := ⟨.inr (.inr (.inr rfl)),by decide⟩
  rw [smTblSwitch,statemach_ok_iff hv,SwitchWorks]
  refine and_congr_right fun _ => ?_
  cases hs : s.obj.currState with
  | hybrid => exact smSwitchFromSramToDdr_ok_iff hs
  | hybridDdr => exact smSwitchFromDdrToSram_ok_iff
  | _ => exact iff_of_false (show (-1 : ℤ) ≠ 0 by decide) fun hh => hh.2.2.elim

/-- A switch that succeeds changes the memory in use. -/
theorem smTblSwitch_memInUse (h : (smTblSwitch env s).2 = 0) (hh : InHybridState s.obj) :
    ((smTblSwitch env s).1.obj.currState = .hybridDdr ∧ s.obj.currState = .hybrid) ∨
      ((smTblSwitch env s).1.obj.currState = .hybrid ∧ s.obj.currState = .hybridDdr) := by
  have hv : VoteRequired s.obj .tblSwitch := ⟨.inr (.inr (.inr rfl)),by decide⟩
  have hret := ((statemach_ok_iff hv).mp h).2
  rw [smTblSwitch,statemach_fst hv h]
  rcases hh with hs | hs
  · have hv' : VoteRequired s.obj .gotoDdr := ⟨.inr (.inl hs),by decide⟩
    simp only [hs] at hret ⊢
    rw [smSwitchFromSramToDdr] at hret ⊢
    dsimp only at hret ⊢
    split at hret
    · rename_i hgo
      have hto : s.GoesTo (smGoToDdr env.goto.init) s.obj.ddrTblHdl env.goto.init .hybridDdr := rfl
      rw [if_pos hgo,hto.fst hv' hgo]
      exact .inl ⟨copyIpv4Tbl_currState _ _ _,trivial⟩
    · rename_i hgo
      exact absurd hret hgo
  · have hv' : VoteRequired s.obj .gotoSram := ⟨.inr (.inr (.inl rfl)),by decide⟩
    simp only [hs] at hret ⊢
    rw [smSwitchFromDdrToSram] at hret ⊢
    dsimp only at hret ⊢
    split at hret
    · rename_i hgo
      have hto : s.GoesTo (smGoToSram env.goto.init) s.obj.sramTblHdl env.goto.init .hybrid := rfl
      rw [if_pos hgo,hto.fst hv' hgo]
      exact .inr ⟨copyIpv4Tbl_currState _ _ _,trivial⟩
    · rename_i hgo
      exact absurd hret hgo

end Switch

section Request

variable {s : Statemach} {nmi : MemIn} {hold : Bool} {env : SwitchToEnv}

theorem usesOne_of_created (h : s.Created) (hh : ¬InHybridState s.obj) : s.UsesOne := by
  obtain ⟨m,hm,-⟩ := h
  rw [memInUse] at hm
  rw [InHybridState] at hh
  rw [UsesOne]
  cases hs : s.obj.currState <;> simp_all [NatiState.mem]

theorem compatible_iff_of_hybrid (hh : InHybridState s.obj) :
    CompatibleNmi4Switch s.obj nmi ↔ s.memInUse ≠ some nmi := by
  rw [CompatibleNmi4Switch,memInUse]
  rcases hh with hs | hs <;> cases nmi <;> simp [hs,NatiState.mem]

theorem compatible_of_usesOne (hone : s.UsesOne) (hm : s.memInUse = some nmi) :
    CompatibleNmi4Switch s.obj nmi := by
  rw [memInUse] at hm
  rw [CompatibleNmi4Switch]
  rcases hone with hs | hs <;> cases nmi <;> simp_all [NatiState.mem]

theorem natSwitchTo_ret_ne (h : env.take ≠ 0 ∨ env.give ≠ 0) :
    (s.natSwitchTo nmi hold env).2 ≠ 0 := by
  rw [natSwitchTo]
  by_cases htake : env.take = 0
  · rw [if_neg (not_not.mpr htake)]
    exact h.resolve_left (not_not.mpr htake)
  · rw [if_pos htake]
    exact htake

theorem natSwitchTo_eq (htake : env.take = 0) (hgive : env.give = 0) :
    s.natSwitchTo nmi hold env = ((s.switchToLocked nmi hold env.switch).1,0) := by
  rw [natSwitchTo,if_neg (not_not.mpr htake),hgive]

theorem held_of_inUse (h : s.memInUse = some nmi) (state : NatiState) :
    (s.setObj { s.obj with holdState := true, stateToHold := state }).Held nmi :=
  ⟨h,fun _ => rfl⟩

/-- Before `prev_state` is set the request is only written down. -/
theorem honoured_unstarted (hprev : s.obj.prevState = .null) (htake : env.take = 0)
    (hgive : env.give = 0) :
    s.Honoured nmi hold env ↔
      (hold = true → s.memInUse = some nmi ∨ ¬s.Created ∧ ¬s.UsesOne) := by
  have hcall : s.natSwitchTo nmi hold env = _ := natSwitchTo_eq htake hgive
  rw [switchToLocked,if_pos hprev] at hcall
  constructor
  · intro h hhold
    by_contra hnone
    obtain ⟨hm,hnone⟩ := not_or.mp hnone
    by_cases hc : s.Created
    · have hin := h.held hhold (congrArg Prod.snd hcall) hc [] (List.forall_mem_nil _)
      rw [hcall] at hin
      exact hm hin
    · have hone : s.UsesOne := by
        by_contra hone
        exact hnone ⟨hc,hone⟩
      exact h.reported (.inl ⟨hhold,hone,hm⟩) (congrArg Prod.snd hcall)
  · intro h
    constructor
    · intro hhold _ hc later hl
      have hm := (h hhold).resolve_right fun hh => hh.1 hc
      rw [hcall]
      subst hhold
      exact (held_of_inUse hm _).run later hl
    · rintro (⟨hhold,hone,hm⟩ | ⟨hasks,-⟩)
      · rcases h hhold with hin | hh
        · exact absurd hin hm
        · exact absurd hone hh.2
      · exact absurd hprev hasks.1

theorem honoured_hybrid (hprev : s.obj.prevState ≠ .null) (hh : InHybridState s.obj)
    (htake : env.take = 0) (hgive : env.give = 0) :
    s.Honoured nmi hold env ↔ s.memInUse = some nmi ∨ s.SwitchWorks env.switch := by
  have hcall : s.natSwitchTo nmi hold env = _ := natSwitchTo_eq htake hgive
  rw [switchToLocked,if_neg hprev,if_pos hh] at hcall
  have hnot : ¬s.UsesOne := by
    rcases hh with hs | hs <;> simp [UsesOne,hs]
  constructor
  · intro h
    by_contra hnone
    obtain ⟨hm,hfail⟩ := not_or.mp hnone
    have hasks : s.Asks nmi := ⟨hprev,hh,(compatible_iff_of_hybrid hh).mpr hm⟩
    exact h.reported (.inr ⟨hasks,fun hret => hfail (smTblSwitch_ok_iff.mp hret)⟩)
      (congrArg Prod.snd hcall)
  · intro h
    by_cases hm : s.memInUse = some nmi
    · have hcomp : ¬CompatibleNmi4Switch s.obj nmi := fun hcomp =>
        (compatible_iff_of_hybrid hh).mp hcomp hm
      rw [if_neg hcomp] at hcall
      constructor
      · intro hhold _ _ later hl
        rw [hcall]
        subst hhold
        exact (held_of_inUse hm _).run later hl
      · rintro (hinc | ⟨hasks,-⟩)
        · exact absurd hinc.2.1 hnot
        · exact absurd hasks.2.2 hcomp
    · have hret := smTblSwitch_ok_iff.mpr (h.resolve_left hm)
      have hcomp := (compatible_iff_of_hybrid hh).mpr hm
      rw [if_pos hcomp] at hcall
      dsimp only at hcall
      rw [if_pos hret] at hcall
      have hin : (smTblSwitch env.switch s).1.memInUse = some nmi := by
        rw [memInUse] at hm ⊢
        rcases smTblSwitch_memInUse hret hh with ⟨hs',hs⟩ | ⟨hs',hs⟩ <;>
          rw [hs] at hm <;> rw [hs'] <;> cases nmi <;> simp_all [NatiState.mem]
      constructor
      · intro hhold _ _ later hl
        rw [hcall]
        subst hhold
        exact (held_of_inUse hin _).run later hl
      · rintro (hinc | ⟨-,hfail⟩)
        · exact absurd hinc.2.1 hnot
        · exact absurd hret hfail

theorem honoured_one (hprev : s.obj.prevState ≠ .null) (hh : ¬InHybridState s.obj)
    (htake : env.take = 0) (hgive : env.give = 0) :
    s.Honoured nmi hold env ↔ (hold = true → s.memInUse = some nmi ∨ ¬s.UsesOne) := by
  have hcall : s.natSwitchTo nmi hold env = _ := natSwitchTo_eq htake hgive
  rw [switchToLocked,if_neg hprev,if_neg hh] at hcall
  constructor
  · intro h hhold
    by_contra hnone
    obtain ⟨hm,hone⟩ := not_or.mp hnone
    exact h.reported (.inl ⟨hhold,not_not.mp hone,hm⟩) (congrArg Prod.snd hcall)
  · intro h
    constructor
    · intro hhold _ hc later hl
      have hone := usesOne_of_created hc hh
      have hm := (h hhold).resolve_right (not_not.mpr hone)
      rw [if_pos hhold,if_pos (compatible_of_usesOne hone hm)] at hcall
      rw [hcall]
      subst hhold
      exact (held_of_inUse hm _).run later hl
    · rintro (⟨hhold,hone,hm⟩ | ⟨hasks,-⟩)
      · exact absurd ((h hhold).resolve_right (not_not.mpr hone)) hm
      · exact absurd hasks.2.1 hh

/-- A call does as it promises exactly when a lock fails or the request suits the state. -/
theorem honours_iff_suits (op : Op) : s.Honours op ↔ s.Suits op := by
  cases op with
  | switchTo nmi hold env =>
    rw [Honours,Suits]
    by_cases hlock : env.take ≠ 0 ∨ env.give ≠ 0
    · have hret : (s.natSwitchTo nmi hold env).2 ≠ 0 := natSwitchTo_ret_ne hlock
      exact iff_of_true ⟨fun _ hz => absurd hz hret,fun _ => hret⟩ (or_assoc.mp (.inl hlock))
    · obtain ⟨htake,hgive⟩ := not_or.mp hlock
      have htake0 := not_not.mp htake
      have hgive0 := not_not.mp hgive
      rw [or_iff_right htake,or_iff_right hgive]
      split
      · rename_i hprev
        exact honoured_unstarted hprev htake0 hgive0
      · rename_i hprev
        split
        · rename_i hh
          exact honoured_hybrid hprev hh htake0 hgive0
        · rename_i hh
          exact honoured_one hprev hh htake0 hgive0
  | _ => exact Iff.rfl

/-- In every run from the start the calls of `ipa_nat_switch_to` do as they promise exactly when
each of them meets a failing lock or suits the state it is made in. -/
theorem switchTo_honoured_iff (g : Globals) (ops : List Op) :
    Guarded step Honours (initial g) ops ↔ Guarded step Suits (initial g) ops :=
  guarded_congr (I := fun _ => True) (fun _ _ _ _ _ => trivial)
    (fun _ op _ _ => honours_iff_suits op) trivial ops (guarded_true _ _ ops)

end Request

/-- Every lock, clock vote and ioctl works. -/
def works : CallEnv := ⟨0,true,0⟩

def noPdns : Globals := ⟨fun _ => 0,5,0,true⟩

/-- A table of 16 entries is created in DDR and SRAM is asked for, to be held. -/
def ddrThenSram : List Op :=
  [.addTbl (some "DDR") 0x0a000001 16 ⟨works,works,some 16,true,fun _ => true,⟨works,true⟩⟩,
    .switchTo .sram true ⟨0,⟨works,⟨works,true⟩,fun _ => true⟩,0⟩]

theorem not_honours_ddrThenSram : ¬Guarded step Honours (initial noPdns) ddrThenSram := by
  rintro ⟨-,h,-⟩
  have hcurr : ((initial noPdns).step (.addTbl (some "DDR") 0x0a000001 16
      ⟨works,works,some 16,true,fun _ => true,⟨works,true⟩⟩)).obj.currState = .ddrOnly := by
    decide +kernel
  refine h.reported (.inl ⟨rfl,.inl hcurr,?_⟩) rfl
  rw [memInUse,hcurr]
  decide

end Statemach
end IpaNat
end MarbleModules
