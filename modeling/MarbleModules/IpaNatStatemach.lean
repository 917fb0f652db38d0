import MarbleModules.IpaNatHybrid

/-! The whole NAT state machine (`ipa_nat_statemach.c`): every state and the ways into it, with
the table handles, the driver's record of its tables, and what locks, clock votes and ioctls
return. -/
namespace MarbleModules
namespace IpaNat

open IpaTable

/-- The nati object with what `ipv4_nat_cache` says of the table in each memory. -/
structure Statemach where
  obj : NatiObj
  tableCnt : MemIn → Bool
  /-- `mem_desc.valid` -/
  valid : MemIn → Bool

/-- `ipa_nati_trigger`, without those that only read -/
inductive Trigger
  | addTable | delTable | clrTable | addRule | delRule | tblSwitch | gotoDdr | gotoSram
  deriving DecidableEq

/-- What `take_mutex`, the clock vote and `give_mutex` around a callback return. -/
structure CallEnv where
  take : ℤ
  vote : Bool
  give : ℤ

/-- A call of the state machine that only posts an init command -/
structure GotoEnv where
  call : CallEnv
  init : Bool

structure TblSwitchEnv where
  call : CallEnv
  goto : GotoEnv
  copy : ℕ → Bool

/-- Whether a table can be allocated and its init command posted, for both memories, the number
of entries `ipa_nati_get_sram_size` and `ipa_calc_num_sram_table_entries` find for SRAM, and
the clock vote there. -/
structure AddTblEnv where
  call : CallEnv
  inner : CallEnv
  sramSlots : Option ℕ
  vote : Bool
  create : MemIn → Bool
  goto : GotoEnv

structure DelTblEnv where
  call : CallEnv
  destroy : MemIn → Bool

structure AddRuleEnv where
  call : CallEnv
  dma : Bool
  switch : TblSwitchEnv
  againCall : CallEnv
  again : Bool

structure DelRuleEnv where
  call : CallEnv
  dma : Bool
  switch : TblSwitchEnv

/-- `SRAM_TO_BE_ACCESSED` and `VOTE_REQUIRED` -/
def VoteRequired (o : NatiObj) (t : Trigger) : Prop :=
  (o.currState = .sramOnly ∨ o.currState = .hybrid ∨ t = .gotoSram ∨ t = .tblSwitch) ∧
    t ≠ .addTable

instance (o : NatiObj) (t : Trigger) : Decidable (VoteRequired o t) :=
  inferInstanceAs (Decidable (_ ∧ _))

/-- `IN_HYBRID_STATE` -/
def InHybridState (o : NatiObj) : Prop := o.currState = .hybrid ∨ o.currState = .hybridDdr

instance (o : NatiObj) : Decidable (InHybridState o) := inferInstanceAs (Decidable (_ ∨ _))

/-- `mem_type_str_to_ipa_nati_state` -/
def memTypeStrToIpaNatiState : Option String → NatiState
  | none => .ddrOnly
  | some str =>
    if str.toLower = "hybrid" then .hybrid
    else if str.toLower = "sram" then .sramOnly
    else .ddrOnly

/-- A table that `memset` has cleared. -/
def noTable (nmi : MemIn) : NatTable where
  table :=
    { nmi := nmi, tableEntries := 0, expnTableEntries := 0, totTblEnts := 0,
      recs := fun _ => zeroRule, curTblCnt := 0, curExpnTblCnt := 0,
      entryInterface := entryInterface, dmaHelp := natDmaHelp 0, hasMeta := false,
      metaPrev := fun _ => 0 }
  indexTable :=
    { nmi := nmi, tableEntries := 0, expnTableEntries := 0, totTblEnts := 0,
      recs := fun _ => ⟨0,0⟩, curTblCnt := 0, curExpnTblCnt := 0,
      entryInterface := indexEntryInterface, dmaHelp := indexDmaHelp 0, hasMeta := false,
      metaPrev := fun _ => 0 }

namespace Statemach

def setObj (s : Statemach) (o : NatiObj) : Statemach := { s with obj := o }

/-- `ipa_nati_statemach` around the callback `cb` of the state and the trigger -/
def statemach (t : Trigger) (env : CallEnv) (cb : Statemach → Statemach × ℤ) (s : Statemach) :
    Statemach × ℤ :=
  if env.take ≠ 0 then (s,env.take)
  else
    let r := if VoteRequired s.obj t ∧ env.vote = false then (s,-einval) else cb s
    (r.1,if r.2 ≠ 0 then r.2 else env.give)

/-- `_smUndef` -/
def smUndef (s : Statemach) : Statemach × ℤ := (s,-1)

/-- `ipa_NATI_add_ipv4_tbl`; a handle that is not made is 0. -/
def addIpv4Tbl (s : Statemach) (nmi : MemIn) (publicIp : BitVec 32) (numberOfEntries : ℕ)
    (create : Bool) : Statemach × ℤ × Option MemIn :=
  if s.tableCnt nmi then (s,-einval,none)
  else
    match createTable nmi numberOfEntries with
    | none => (s,-einval,none)
    | some n =>
      if create then
        ({ obj := (s.obj.setTbl nmi n).setGlobals
            { s.obj.globals with pdns := Function.update s.obj.globals.pdns 0 publicIp }
           tableCnt := Function.update s.tableCnt nmi true
           valid := Function.update s.valid nmi true },0,some nmi)
      else (s.setObj (s.obj.setTbl nmi (noTable nmi)),-1,none)

/-- `ipa_NATI_del_ipv4_table`. When the descriptor cannot be deleted the table is cleared all
the same and the count stays. -/
def delIpv4Table (s : Statemach) (tblHdl : Option MemIn) (destroy : MemIn → Bool) :
    Statemach × ℤ :=
  match tblHdl with
  | none => (s,-einval)
  | some nmi =>
    if s.valid nmi = false then (s,-einval)
    else
      ({ obj := s.obj.setTbl nmi (noTable nmi)
         tableCnt := Function.update s.tableCnt nmi (!destroy nmi)
         valid := Function.update s.valid nmi false },if destroy nmi then 0 else -1)

/-- `BACK2_UNSTARTED_STATE` -/
def back2Unstarted (s : Statemach) : Statemach :=
  s.setObj { s.obj with prevState := .null, currState := .null }

/-- `_smDelTbl` -/
def smDelTbl (s : Statemach) (tblHdl : Option MemIn) (destroy : MemIn → Bool) :
    Statemach × ℤ :=
  match s.delIpv4Table tblHdl destroy with
  | (s₁,ret) =>
    if ret = 0 ∧ ¬InHybridState s₁.obj then (s₁.back2Unstarted,ret) else (s₁,ret)

/-- The clearing of both counters and all maps -/
def clearMaps (s : Statemach) : Statemach :=
  s.setObj { s.obj with totRulesInTable := fun _ => 0, mapPairs := fun _ => .cleared }

/-- `_smDelSramAndDdrTbl` -/
def smDelSramAndDdrTbl (s : Statemach) (tblHdl : Option MemIn) (destroy : MemIn → Bool) :
    Statemach × ℤ :=
  match s.clearMaps.smDelTbl tblHdl destroy with
  | (s₁,ret) =>
    if ret ≠ 0 then (s₁,ret)
    else
      match s₁.smDelTbl s₁.obj.ddrTblHdl destroy with
      | (s₂,ret₂) => if ret₂ = 0 then (s₂.back2Unstarted,ret₂) else (s₂,ret₂)

/-- `ipa_NATI_post_ipv4_init_cmd` -/
def postIpv4InitCmd (s : Statemach) (tblHdl : Option MemIn) (init : Bool) : ℤ :=
  match tblHdl with
  | none => -einval
  | some nmi => if s.tableCnt nmi = true ∧ init = true then 0 else -einval

/-- `_smGoToDdr` -/
def smGoToDdr (init : Bool) (s : Statemach) : Statemach × ℤ :=
  if s.postIpv4InitCmd s.obj.ddrTblHdl init = 0 then (s.setObj (s.obj.setState .hybridDdr),0)
  else (s,s.postIpv4InitCmd s.obj.ddrTblHdl init)

/-- `_smGoToSram` -/
def smGoToSram (init : Bool) (s : Statemach) : Statemach × ℤ :=
  if s.postIpv4InitCmd s.obj.sramTblHdl init = 0 then (s.setObj (s.obj.setState .hybrid),0)
  else (s,s.postIpv4InitCmd s.obj.sramTblHdl init)

/-- `_smAddDdrTbl` -/
def smAddDdrTbl (s : Statemach) (publicIp : BitVec 32) (numberOfEntries : ℕ)
    (env : AddTblEnv) : Statemach × ℤ :=
  match s.addIpv4Tbl .ddr publicIp numberOfEntries (env.create .ddr) with
  | (s₁,ret,hdl) => (s₁.setObj { s₁.obj with ddrTblHdl := hdl },ret)

/-- `_smAddSramTbl` -/
def smAddSramTbl (s : Statemach) (publicIp : BitVec 32) (env : AddTblEnv) : Statemach × ℤ :=
  match env.sramSlots with
  | none => (s,-1)
  | some slots =>
    let s₁ := s.setObj { s.obj with totSlotsInSram := slots, backToSramThresh := slots/4 }
    if slots = 0 then (s.setObj { s.obj with totSlotsInSram := 0 },-1)
    else if env.vote = false then (s₁,-1)
    else
      match s₁.addIpv4Tbl .sram publicIp slots (env.create .sram) with
      | (s₂,ret,hdl) => (s₂.setObj { s₂.obj with sramTblHdl := hdl },ret)

/-- `_smAddSramAndDdrTbl` -/
def smAddSramAndDdrTbl (s : Statemach) (publicIp : BitVec 32) (numberOfEntries : ℕ)
    (env : AddTblEnv) : Statemach × ℤ :=
  match s.clearMaps.smAddSramTbl publicIp env with
  | (s₁,ret) =>
    if ret = 0 then
      if numberOfEntries ≤ s₁.obj.totSlotsInSram then
        (s₁.setObj (s₁.obj.setState .sramOnly),ret)
      else
        match s₁.smAddDdrTbl publicIp numberOfEntries env with
        | (s₂,ret₂) =>
          if ret₂ = 0 then statemach .gotoSram env.goto.call (smGoToSram env.goto.init) s₂
          else (s₂,ret₂)
    else
      -- no SRAM: DDR alone has to do
      match s₁.smAddDdrTbl publicIp numberOfEntries env with
      | (s₂,ret₂) =>
        if ret₂ = 0 then (s₂.setObj (s₂.obj.setState .ddrOnly),ret₂) else (s₂,ret₂)

/-- The callbacks of `NATI_TRIG_ADD_TABLE` after the first -/
def smAddTbl (publicIp : BitVec 32) (numberOfEntries : ℕ) (env : AddTblEnv) (s : Statemach) :
    Statemach × ℤ :=
  match s.obj.currState with
  | .ddrOnly => s.smAddDdrTbl publicIp numberOfEntries env
  | .sramOnly => s.smAddSramTbl publicIp env
  | .hybrid => s.smAddSramAndDdrTbl publicIp numberOfEntries env
  | _ => s.smUndef

/-- `_smFirstTbl` -/
def smFirstTbl (s : Statemach) (memType : Option String) (publicIp : BitVec 32)
    (numberOfEntries : ℕ) (env : AddTblEnv) : Statemach × ℤ :=
  statemach .addTable env.inner (smAddTbl publicIp numberOfEntries env)
    (s.setObj (s.obj.setState
      (if s.obj.holdState = true ∧ s.obj.stateToHold ≠ .null then s.obj.stateToHold
        else memTypeStrToIpaNatiState memType)))

/-- `ipa_nati_add_ipv4_tbl` -/
def natiAddIpv4Tbl (s : Statemach) (memType : Option String) (publicIp : BitVec 32)
    (numberOfEntries : ℕ) (env : AddTblEnv) : Statemach × ℤ :=
  statemach .addTable env.call (fun s =>
    if s.obj.currState = .null then s.smFirstTbl memType publicIp numberOfEntries env
    else s.smAddTbl publicIp numberOfEntries env) s

/-- `ipa_nati_del_ipv4_table` -/
def natiDelIpv4Table (s : Statemach) (tblHdl : Option MemIn) (env : DelTblEnv) :
    Statemach × ℤ :=
  statemach .delTable env.call (fun s =>
    match s.obj.currState with
    | .ddrOnly | .sramOnly => s.smDelTbl tblHdl env.destroy
    | .hybrid | .hybridDdr => s.smDelSramAndDdrTbl tblHdl env.destroy
    | .null => s.smUndef) s

/-- The table a rule or a clear goes to: in `NATI_STATE_HYBRID_DDR` the handle of the DDR table
replaces the application's. -/
def target (s : Statemach) (tblHdl : Option MemIn) : Option MemIn :=
  if s.obj.currState = .hybridDdr then s.obj.ddrTblHdl else tblHdl

/-- `_smClrTbl` -/
def smClrTbl (s : Statemach) (tblHdl : Option MemIn) : Statemach × ℤ :=
  match tblHdl with
  | none => (s,-einval)
  | some nmi =>
    let s₁ := s.setObj ((s.obj.setCntr nmi 0).setMaps nmi .cleared)
    if s.tableCnt nmi then (s₁.setObj (s₁.obj.setTbl nmi (clearIpv4Tbl (s₁.obj.tbl nmi))),0)
    else (s₁,-einval)

/-- `ipa_nati_clear_ipv4_tbl` with `_smClrTbl` and `_smClrTblHybrid` -/
def natiClearIpv4Tbl (s : Statemach) (tblHdl : Option MemIn) (env : CallEnv) : Statemach × ℤ :=
  statemach .clrTable env (fun s =>
    if s.obj.currState = .null then s.smUndef else s.smClrTbl (s.target tblHdl)) s

/-- `ipa_nati_copy_ipv4_tbl` with `migrate_rule` -/
def copyIpv4Tbl (s : Statemach) (src dst : Option MemIn) (copy : ℕ → Bool) : Statemach × ℤ :=
  match dst with
  | none => (s,-einval)
  | some d =>
    if s.tableCnt d = false then (s,-einval)
    else
      match src with
      | none => (s.setObj (s.obj.setTbl d (clearIpv4Tbl (s.obj.tbl d))),-einval)
      | some m =>
        if s.tableCnt m = false then
          (s.setObj (s.obj.setTbl d (clearIpv4Tbl (s.obj.tbl d))),-einval)
        else
          match IpaNat.copyIpv4Tbl s.obj m d copy with
          | (o,ret) => (s.setObj o,ret)

/-- The counter and the maps of the destination are cleared and the rules copied. -/
def switchCopy (s : Statemach) (src dst : Option MemIn) (sub : MemIn) (copy : ℕ → Bool) :
    Statemach × ℤ :=
  (s.setObj ((s.obj.setCntr sub 0).setMaps sub .cleared)).copyIpv4Tbl src dst copy

/-- `_smSwitchFromDdrToSram` -/
def smSwitchFromDdrToSram (env : TblSwitchEnv) (s : Statemach) : Statemach × ℤ :=
  match statemach .gotoSram env.goto.call (smGoToSram env.goto.init) s with
  | (s₁,ret) =>
    if ret = 0 then s₁.switchCopy s₁.obj.ddrTblHdl s₁.obj.sramTblHdl .sram env.copy
    else (s₁,ret)

/-- `_smSwitchFromSramToDdr` -/
def smSwitchFromSramToDdr (env : TblSwitchEnv) (s : Statemach) : Statemach × ℤ :=
  match statemach .gotoDdr env.goto.call (smGoToDdr env.goto.init) s with
  | (s₁,ret) =>
    if ret = 0 then s₁.switchCopy s₁.obj.sramTblHdl s₁.obj.ddrTblHdl .ddr env.copy
    else (s₁,ret)

/-- `ipa_nati_statemach` on `NATI_TRIG_TBL_SWITCH` -/
def smTblSwitch (env : TblSwitchEnv) (s : Statemach) : Statemach × ℤ :=
  statemach .tblSwitch env.call (fun s =>
    match s.obj.currState with
    | .hybrid => s.smSwitchFromSramToDdr env
    | .hybridDdr => s.smSwitchFromDdrToSram env
    | _ => s.smUndef) s

/-- `_smAddRuleToTbl`; the counter is that of `CHOOSE_CNTR`, whatever the handle. -/
def smAddRuleToTbl (s : Statemach) (tblHdl : Option MemIn) (rule : Ipv4Rule) (dma : Bool) :
    Statemach × ℤ × ℕ :=
  match tblHdl with
  | none => (s,-einval,0)
  | some nmi =>
    if s.valid nmi = false then (s,-einval,0)
    else
      match addIpv4Rule (s.obj.tbl nmi) s.obj.globals (resetRule rule) dma with
      | (n,g,ret,hdl) =>
        let o := (s.obj.setTbl nmi n).setGlobals g
        if ret = 0 then
          (s.setObj (o.setCntr o.memSub (inc32 (o.totRulesInTable o.memSub))),0,hdl)
        else (s.setObj o,ret,hdl)

/-- The two calls of `ipa_nat_map_add` in `_smAddRuleHybrid` -/
def registerRule (s : Statemach) (hdl : ℕ) : Statemach × ℤ :=
  match IpaNat.registerRule s.obj hdl with
  | (o,ret) => (s.setObj o,ret)

/-- `_smAddRuleHybrid` up to the table switch: the object, the return code, and whether the rule
was refused. -/
def addRuleOnce (s : Statemach) (tblHdl : Option MemIn) (rule : Ipv4Rule) (dma : Bool) :
    Statemach × ℤ × Bool :=
  match s.smAddRuleToTbl (s.target tblHdl) rule dma with
  | (s₁,ret,hdl) =>
    if ret = 0 then ((s₁.registerRule hdl).1,(s₁.registerRule hdl).2,false) else (s₁,ret,true)

/-- `_smAddRuleHybrid`. The second attempt runs in `NATI_STATE_HYBRID_DDR`, where a refused rule
is not tried again. -/
def smAddRuleHybrid (s : Statemach) (tblHdl : Option MemIn) (rule : Ipv4Rule)
    (env : AddRuleEnv) : Statemach × ℤ :=
  match s.addRuleOnce tblHdl rule env.dma with
  | (s₁,ret,refused) =>
    if refused = true ∧ s₁.obj.currState = .hybrid ∧ s₁.obj.holdState = false then
      match smTblSwitch env.switch s₁ with
      | (s₂,ret₂) =>
        if ret₂ = 0 then
          statemach .addRule env.againCall (fun s =>
            ((s.addRuleOnce tblHdl rule env.again).1,(s.addRuleOnce tblHdl rule env.again).2.1))
            (s₂.setObj (s₂.obj.setState .hybridDdr))
        else (s₂,ret₂)
    else (s₁,ret)

/-- `ipa_nati_add_ipv4_rule` -/
def natiAddIpv4Rule (s : Statemach) (tblHdl : Option MemIn) (rule : Ipv4Rule)
    (env : AddRuleEnv) : Statemach × ℤ :=
  statemach .addRule env.call (fun s =>
    match s.obj.currState with
    | .ddrOnly | .sramOnly =>
      ((s.smAddRuleToTbl tblHdl rule env.dma).1,(s.smAddRuleToTbl tblHdl rule env.dma).2.1)
    | .hybrid | .hybridDdr => s.smAddRuleHybrid tblHdl rule env
    | .null => s.smUndef) s

/-- `_smDelRuleFromTbl` -/
def smDelRuleFromTbl (s : Statemach) (tblHdl : Option MemIn) (hdl : ℕ) (dma : Bool) :
    Statemach × ℤ :=
  match tblHdl with
  | none => (s,-einval)
  | some nmi =>
    if s.valid nmi = false then (s,-einval)
    else
      match delIpv4Rule (s.obj.tbl nmi) hdl dma with
      | (n,ret) =>
        let o := s.obj.setTbl nmi n
        if ret = 0 then
          (s.setObj (o.setCntr o.memSub (dec32 (o.totRulesInTable o.memSub))),0)
        else (s.setObj o,ret)

/-- The part of `_smDelRuleHybrid` that takes the handle out of the maps and deletes. -/
def smDelRuleMapped (s : Statemach) (tblHdl : Option MemIn) (origRuleHdl newRuleHdl : ℕ)
    (dma : Bool) : Statemach × ℤ :=
  let maps := s.obj.mapPairs s.obj.memSub
  (s.setObj (s.obj.setMaps s.obj.memSub
    ⟨natMapDel maps.orig2new origRuleHdl,natMapDel maps.new2orig newRuleHdl⟩)).smDelRuleFromTbl
    (s.target tblHdl) newRuleHdl dma

/-- `_smDelRuleHybrid` -/
def smDelRuleHybrid (s : Statemach) (tblHdl : Option MemIn) (origRuleHdl : ℕ)
    (env : DelRuleEnv) : Statemach × ℤ :=
  match (s.obj.mapPairs s.obj.memSub).orig2new origRuleHdl with
  | none => (s,-1)
  | some newRuleHdl =>
    match s.smDelRuleMapped tblHdl origRuleHdl newRuleHdl env.dma with
    | (s₁,ret) =>
      if ret = 0 ∧ BackToSram s₁.obj then
        match smTblSwitch env.switch s₁ with
        | (s₂,ret₂) => (if ret₂ = 0 then s₂.setObj (s₂.obj.setState .hybrid) else s₂,0)
      else (s₁,ret)

/-- `ipa_nati_del_ipv4_rule` -/
def natiDelIpv4Rule (s : Statemach) (tblHdl : Option MemIn) (hdl : ℕ) (env : DelRuleEnv) :
    Statemach × ℤ :=
  statemach .delRule env.call (fun s =>
    match s.obj.currState with
    | .ddrOnly | .sramOnly => s.smDelRuleFromTbl tblHdl hdl env.dma
    | .hybrid | .hybridDdr => s.smDelRuleHybrid tblHdl hdl env
    | .null => s.smUndef) s

end Statemach

/-- The memory a state uses. -/
def NatiState.mem : NatiState → Option MemIn
  | .ddrOnly | .hybridDdr => some .ddr
  | .sramOnly | .hybrid => some .sram
  | .null => none

/-- `COMPATIBLE_NMI_4SWITCH`: in a hybrid state the memory not in use, else the one in use. -/
def CompatibleNmi4Switch (o : NatiObj) (nmi : MemIn) : Prop :=
  nmi = .sram ∧ o.currState = .hybridDdr ∨ nmi = .ddr ∧ o.currState = .hybrid ∨
    nmi = .ddr ∧ o.currState = .ddrOnly ∨ nmi = .sram ∧ o.currState = .sramOnly

instance (o : NatiObj) (nmi : MemIn) : Decidable (CompatibleNmi4Switch o nmi) :=
  inferInstanceAs (Decidable (_ ∧ _ ∨ _ ∧ _ ∨ _ ∧ _ ∨ _ ∧ _))

/-- `GEN_HOLD_STATE` -/
def genHold (o : NatiObj) : NatiState :=
  if ¬InHybridState o then o.currState
  else if o.currState = .hybrid then .sramOnly
  else .ddrOnly

/-- The locks of `ipa_nat_switch_to` and the table switch it may run. -/
structure SwitchToEnv where
  take : ℤ
  switch : TblSwitchEnv
  give : ℤ

namespace Statemach

/-- `ipa_nat_switch_to` between the locks -/
def switchToLocked (s : Statemach) (nmi : MemIn) (hold : Bool) (env : TblSwitchEnv) :
    Statemach × ℤ :=
  -- `IN_UNSTARTED_STATE`
  if s.obj.prevState = .null then
    (s.setObj { s.obj with
      holdState := hold
      stateToHold := if nmi = .ddr then .ddrOnly else .sramOnly },0)
  else if InHybridState s.obj then
    match (if CompatibleNmi4Switch s.obj nmi then smTblSwitch env s else (s,0)) with
    | (s₁,ret) =>
      if ret = 0 then
        (s₁.setObj { s₁.obj with
          holdState := hold
          stateToHold := if hold then genHold s₁.obj else s₁.obj.stateToHold },ret)
      else (s₁,ret)
  else if hold then
    if CompatibleNmi4Switch s.obj nmi then
      (s.setObj { s.obj with stateToHold := genHold s.obj, holdState := hold },0)
    else (s,-1)
  else (s.setObj { s.obj with stateToHold := .null, holdState := hold },0)

/-- `ipa_nat_switch_to`, for a memory that `IPA_VALID_NAT_MEM_IN` accepts. At its label `unlock`
the result of `give_mutex` replaces the return code. -/
def natSwitchTo (s : Statemach) (nmi : MemIn) (hold : Bool) (env : SwitchToEnv) :
    Statemach × ℤ :=
  if env.take ≠ 0 then (s,env.take) else ((s.switchToLocked nmi hold env.switch).1,env.give)

/-- What the application, the hardware and the PDN configuration do. -/
inductive Op
  | addTbl (memType : Option String) (publicIp : BitVec 32) (numberOfEntries : ℕ)
      (env : AddTblEnv)
  | delTbl (tblHdl : Option MemIn) (env : DelTblEnv)
  | clrTbl (tblHdl : Option MemIn) (env : CallEnv)
  | addRule (tblHdl : Option MemIn) (rule : Ipv4Rule) (env : AddRuleEnv)
  | delRule (tblHdl : Option MemIn) (hdl : ℕ) (env : DelRuleEnv)
  | switchTo (nmi : MemIn) (hold : Bool) (env : SwitchToEnv)
  | modifyPdn (pdnIndex : ℕ) (publicIp : BitVec 32)
  | hardware (nmi : MemIn) (i : ℕ) (timeStamp : BitVec 24) (redirect : BitVec 1)

def step (s : Statemach) : Op → Statemach
  | .addTbl memType publicIp numberOfEntries env =>
    (s.natiAddIpv4Tbl memType publicIp numberOfEntries env).1
  | .delTbl tblHdl env => (s.natiDelIpv4Table tblHdl env).1
  | .clrTbl tblHdl env => (s.natiClearIpv4Tbl tblHdl env).1
  | .addRule tblHdl rule env => (s.natiAddIpv4Rule tblHdl rule env).1
  | .delRule tblHdl hdl env => (s.natiDelIpv4Rule tblHdl hdl env).1
  | .switchTo nmi hold env => (s.natSwitchTo nmi hold env).1
  | .modifyPdn pdnIndex publicIp =>
    s.setObj (s.obj.setGlobals (modifyPdn s.obj.globals pdnIndex publicIp))
  | .hardware nmi i timeStamp redirect =>
    s.setObj (s.obj.setTbl nmi (hardwareTouch (s.obj.tbl nmi) i timeStamp redirect))

/-- The static initialisers of `nati_obj` and the driver -/
def initial (g : Globals) : Statemach where
  obj :=
    { prevState := .null, currState := .null, holdState := false, stateToHold := .null,
      ddrTblHdl := none, sramTblHdl := none, totSlotsInSram := 0, backToSramThresh := 0,
      totRulesInTable := fun _ => 0, mapPairs := fun _ => .cleared, tbl := noTable,
      globals := g }
  tableCnt := fun _ => false
  valid := fun _ => false

end Statemach
end IpaNat
end MarbleModules
