import MarbleModules.IpaNat

/-! The NAT state machine in hybrid mode (`ipa_nat_statemach.c`): one table in SRAM and one
in DDR, of which one is in use, and the maps between the rule handles the application holds
and those of the rules' current slots (`ipa_nat_map.cpp`). -/
namespace MarbleModules
namespace IpaNat

open IpaTable

/-- `std::map<uint32_t, uint32_t>` of `ipa_nat_map.cpp` -/
abbrev HandleMap := ℕ → Option ℕ

/-- `ipa_nat_map_clear` -/
def natMapClear : HandleMap := fun _ => none

/-- `ipa_nat_map_add`, which fails on a key the map has: the map and the return code. -/
def natMapAdd (m : HandleMap) (key val : ℕ) : HandleMap × ℤ :=
  if (m key).isSome then (m,-1) else (Function.update m key (some val),0)

/-- `ipa_nat_map_del`; `ipa_nat_map_find` is the lookup of the key. -/
def natMapDel (m : HandleMap) (key : ℕ) : HandleMap := Function.update m key none

/-- `nati_map_pair` -/
structure MapPair where
  orig2new : HandleMap
  new2orig : HandleMap

def MapPair.cleared : MapPair := ⟨natMapClear,natMapClear⟩

/-- `ipa_nati_state` -/
inductive NatiState
  | null | ddrOnly | sramOnly | hybrid | hybridDdr
  deriving DecidableEq

/-- `ipa_nati_obj` with the two tables it drives and the globals of `ipa_nat_drvi.c`. A table
handle names the memory of the only table there; 0 is no handle. -/
structure NatiObj where
  prevState : NatiState
  currState : NatiState
  holdState : Bool
  stateToHold : NatiState
  ddrTblHdl : Option MemIn
  sramTblHdl : Option MemIn
  totSlotsInSram : ℕ
  backToSramThresh : ℕ
  totRulesInTable : MemIn → ℕ
  mapPairs : MemIn → MapPair
  tbl : MemIn → NatTable
  globals : Globals

namespace NatiObj

/-- `SET_NATIOBJ_STATE` -/
def setState (o : NatiObj) (s : NatiState) : NatiObj :=
  { o with prevState := o.currState, currState := s }

/-- `CHOOSE_MEM_SUB`. In `NATI_STATE_HYBRID` the application's table handle is that of the
SRAM table, in `NATI_STATE_HYBRID_DDR` the handle of the DDR table replaces it. -/
def memSub (o : NatiObj) : MemIn := if o.currState = .hybrid then .sram else .ddr

def setTbl (o : NatiObj) (m : MemIn) (n : NatTable) : NatiObj :=
  { o with tbl := Function.update o.tbl m n }

def setMaps (o : NatiObj) (m : MemIn) (p : MapPair) : NatiObj :=
  { o with mapPairs := Function.update o.mapPairs m p }

def setCntr (o : NatiObj) (m : MemIn) (n : ℕ) : NatiObj :=
  { o with totRulesInTable := Function.update o.totRulesInTable m n }

def setGlobals (o : NatiObj) (g : Globals) : NatiObj := { o with globals := g }

end NatiObj

/-- `--` on a `uint32_t` -/
def dec32 (n : ℕ) : ℕ := (n + 4294967295) % 4294967296

/-- `++` on a `uint32_t` -/
def inc32 (n : ℕ) : ℕ := (n + 1) % 4294967296

/-- `_smClrTbl` on the table in memory `m` -/
def smClrTbl (o : NatiObj) (m : MemIn) : NatiObj :=
  ((o.setCntr m 0).setMaps m .cleared).setTbl m (clearIpv4Tbl (o.tbl m))

/-- The client's rule as `_smAddRuleToTbl` resets it -/
def resetRule (rule : Ipv4Rule) : Ipv4Rule :=
  { rule with redirect := 0, enable := 0, timeStamp := 0 }

/-- `_smAddRuleToTbl`: the object, the return code and the handle. -/
def smAddRuleToTbl (o : NatiObj) (rule : Ipv4Rule) (ioctl : Bool) : NatiObj × ℤ × ℕ :=
  match addIpv4Rule (o.tbl o.memSub) o.globals (resetRule rule) ioctl with
  | (n,g,ret,hdl) =>
    let o₁ := (o.setTbl o.memSub n).setGlobals g
    if ret = 0 then (o₁.setCntr o.memSub (inc32 (o.totRulesInTable o.memSub)),0,hdl)
    else (o₁,ret,hdl)

/-- `_smDelRuleFromTbl` -/
def smDelRuleFromTbl (o : NatiObj) (hdl : ℕ) (ioctl : Bool) : NatiObj × ℤ :=
  match delIpv4Rule (o.tbl o.memSub) hdl ioctl with
  | (n,ret) =>
    let o₁ := o.setTbl o.memSub n
    if ret = 0 then (o₁.setCntr o.memSub (dec32 (o.totRulesInTable o.memSub)),0) else (o₁,ret)

/-- The two calls of `ipa_nat_map_add` that relate an original handle to a new one. -/
def mapAddPair (o : NatiObj) (m : MemIn) (orig new : ℕ) : NatiObj × ℤ :=
  match natMapAdd (o.mapPairs m).orig2new orig new with
  | (o2n,ret) =>
    if ret ≠ 0 then (o.setMaps m ⟨o2n,(o.mapPairs m).new2orig⟩,ret)
    else
      match natMapAdd (o.mapPairs m).new2orig new orig with
      | (n2o,ret') => (o.setMaps m ⟨o2n,n2o⟩,ret')

/-- The client rule `migrate_rule` makes of a record. -/
def clientRule (r : NatRule) : Ipv4Rule where
  targetIp := r.targetIp
  privateIp := r.privateIp
  targetPort := r.targetPort
  privatePort := r.privatePort
  publicPort := r.publicPort
  protocol := r.protocol
  pdnIndex := r.pdnIndex.setWidth 8
  redirect := r.redirect.setWidth 8
  enable := r.enable.setWidth 8
  timeStamp := r.timeStamp.setWidth 32
  ucActivationIndex := r.ucActivationIndex.setWidth 16
  s := decide (r.s ≠ 0)
  ucp := decide (r.ucp ≠ 0)
  dstOnly := decide (r.dstOnly ≠ 0)
  srcOnly := decide (r.srcOnly ≠ 0)

/-- `migrate_rule`; `ioctl` tells for each record of the source table whether the commands
that add its copy are posted. -/
def migrateRule (src dst : MemIn) (ioctl : ℕ → Bool) (o : NatiObj) (tblRuleHdl recordIndex : ℕ)
    (r : NatRule) : NatiObj × ℤ :=
  if r.protocol = invalidProtocol then (o,0)
  else
    match (o.mapPairs src).new2orig tblRuleHdl with
    | none => (o,-1)
    | some orig =>
      match addIpv4Rule (o.tbl dst) o.globals (clientRule r) (ioctl recordIndex) with
      | (n,g,ret,newRuleHdl) =>
        let o₁ := (o.setTbl dst n).setGlobals g
        if ret ≠ 0 then (o₁,ret)
        else
          mapAddPair (o₁.setCntr dst (inc32 (o.totRulesInTable dst))) dst orig newRuleHdl

/-- `ipa_nati_copy_ipv4_tbl` with `migrate_rule` -/
def copyIpv4Tbl (o : NatiObj) (src dst : MemIn) (ioctl : ℕ → Bool) : NatiObj × ℤ :=
  ipaTableWalk (o.tbl src).table 0 .slotFilled (migrateRule src dst ioctl)
    (o.setTbl dst (clearIpv4Tbl (o.tbl dst)))

/-- The outcomes of the ioctls of a table switch: the init command, and the commands that add
the copy of each record. -/
structure SwitchEnv where
  init : Bool
  copy : ℕ → Bool

/-- `_smGoToDdr`. Without a table the source would read outside its tables; the model fails. -/
def smGoToDdr (o : NatiObj) (init : Bool) : NatiObj × ℤ :=
  if o.ddrTblHdl ≠ none ∧ init = true then (o.setState .hybridDdr,0) else (o,-1)

/-- `_smGoToSram` -/
def smGoToSram (o : NatiObj) (init : Bool) : NatiObj × ℤ :=
  if o.sramTblHdl ≠ none ∧ init = true then (o.setState .hybrid,0) else (o,-1)

/-- The common part of the two switches once the focus is on `dst`: counter and maps of the
destination are cleared and the rules copied. -/
def switchCopy (o : NatiObj) (src dst : MemIn) (copy : ℕ → Bool) : NatiObj × ℤ :=
  copyIpv4Tbl ((o.setCntr dst 0).setMaps dst .cleared) src dst copy

/-- `_smSwitchFromDdrToSram` -/
def smSwitchFromDdrToSram (o : NatiObj) (env : SwitchEnv) : NatiObj × ℤ :=
  match smGoToSram o env.init with
  | (o₁,ret) => if ret ≠ 0 then (o₁,ret) else switchCopy o₁ .ddr .sram env.copy

/-- `_smSwitchFromSramToDdr` -/
def smSwitchFromSramToDdr (o : NatiObj) (env : SwitchEnv) : NatiObj × ℤ :=
  match smGoToDdr o env.init with
  | (o₁,ret) => if ret ≠ 0 then (o₁,ret) else switchCopy o₁ .sram .ddr env.copy

/-- `ipa_nati_statemach` on `NATI_TRIG_TBL_SWITCH`; the other states are undefined for it. A
failed clock vote leaves the object as it is, like a failed init command. -/
def smTblSwitch (o : NatiObj) (env : SwitchEnv) : NatiObj × ℤ :=
  match o.currState with
  | .hybrid => smSwitchFromSramToDdr o env
  | .hybridDdr => smSwitchFromDdrToSram o env
  | _ => (o,-1)

/-- The outcomes of the ioctls of an add: the commands of the first attempt, of the table
switch, and of the attempt after it. -/
structure AddEnv where
  dma : Bool
  switch : SwitchEnv
  again : Bool

/-- The part of `_smAddRuleHybrid` after the rule has been stored. -/
def registerRule (o : NatiObj) (hdl : ℕ) : NatiObj × ℤ := mapAddPair o o.memSub hdl hdl

/-- `_smAddRuleHybrid` -/
def smAddRuleHybrid (o : NatiObj) (rule : Ipv4Rule) (env : AddEnv) : NatiObj × ℤ :=
  match smAddRuleToTbl o rule env.dma with
  | (o₁,ret,hdl) =>
    if ret = 0 then registerRule o₁ hdl
    else if o₁.currState = .hybrid ∧ o₁.holdState = false then
      match smTblSwitch o₁ env.switch with
      | (o₂,ret₂) =>
        if ret₂ ≠ 0 then (o₂,ret₂)
        else
          -- the trigger runs again, in a state that tries no further switch
          match smAddRuleToTbl (o₂.setState .hybridDdr) rule env.again with
          | (o₃,ret₃,hdl₃) => if ret₃ = 0 then registerRule o₃ hdl₃ else (o₃,ret₃)
    else (o₁,ret)

/-- The outcomes of the ioctls of a delete: the delete commands, and the table switch. -/
structure DelEnv where
  dma : Bool
  switch : SwitchEnv

/-- The part of `_smDelRuleHybrid` that takes the handle out of the maps and deletes. -/
def smDelRuleMapped (o : NatiObj) (origRuleHdl newRuleHdl : ℕ) (ioctl : Bool) : NatiObj × ℤ :=
  let maps := o.mapPairs o.memSub
  smDelRuleFromTbl (o.setMaps o.memSub
    ⟨natMapDel maps.orig2new origRuleHdl,natMapDel maps.new2orig newRuleHdl⟩) newRuleHdl ioctl

/-- The condition of `_smDelRuleHybrid` for switching back to SRAM. -/
def BackToSram (o : NatiObj) : Prop :=
  o.currState = .hybridDdr ∧ o.totRulesInTable o.memSub ≤ o.backToSramThresh ∧
    o.holdState = false

instance (o : NatiObj) : Decidable (BackToSram o) :=
  inferInstanceAs (Decidable (_ ∧ _ ∧ _))

/-- `_smDelRuleHybrid` -/
def smDelRuleHybrid (o : NatiObj) (origRuleHdl : ℕ) (env : DelEnv) : NatiObj × ℤ :=
  match (o.mapPairs o.memSub).orig2new origRuleHdl with
  | none => (o,-1)
  | some newRuleHdl =>
    match smDelRuleMapped o origRuleHdl newRuleHdl env.dma with
    | (o₁,ret) =>
      if ret = 0 ∧ BackToSram o₁ then
        match smTblSwitch o₁ env.switch with
        -- a switch that fails is not reported: the next delete tries again
        | (o₂,ret₂) => (if ret₂ = 0 then o₂.setState .hybrid else o₂,0)
      else (o₁,ret)

/-- `COMPATIBLE_NMI_4SWITCH` in a hybrid state -/
def CompatibleNmi (o : NatiObj) (nmi : MemIn) : Prop :=
  nmi = .sram ∧ o.currState = .hybridDdr ∨ nmi = .ddr ∧ o.currState = .hybrid

instance (o : NatiObj) (nmi : MemIn) : Decidable (CompatibleNmi o nmi) :=
  inferInstanceAs (Decidable (_ ∧ _ ∨ _ ∧ _))

/-- `GEN_HOLD_STATE` in a hybrid state -/
def genHoldState (o : NatiObj) : NatiState :=
  if o.currState = .hybrid then .sramOnly else .ddrOnly

/-- `ipa_nat_switch_to` in a hybrid state; its return code is that of the unlock. -/
def natSwitchTo (o : NatiObj) (nmi : MemIn) (hold : Bool) (env : SwitchEnv) : NatiObj :=
  match (if CompatibleNmi o nmi then smTblSwitch o env else (o,0)) with
  | (o₁,ret) =>
    if ret = 0 then
      { o₁ with
        holdState := hold
        stateToHold := if hold then genHoldState o₁ else o₁.stateToHold }
    else o₁

/-- `_smGetTmStmpHybrid` -/
def smGetTmStmpHybrid (o : NatiObj) (origRuleHdl : ℕ) : Option (BitVec 24 × BitVec 1) :=
  match (o.mapPairs o.memSub).orig2new origRuleHdl with
  | none => none
  | some newRuleHdl => queryTimestampRedirect (o.tbl o.memSub) newRuleHdl

/-- The first `ipa_nati_add_ipv4_tbl`: `_smFirstTbl` for memory type "HYBRID" and a machine
that holds no state, with `_smAddSramAndDdrTbl`. `none` when a table cannot be created, or
when SRAM takes the requested number of entries and the machine leaves hybrid mode. -/
def smFirstTbl (g : Globals) (publicIp : BitVec 32) (numberOfEntries totSlotsInSram : ℕ) :
    Option NatiObj :=
  match createTable .sram totSlotsInSram,createTable .ddr numberOfEntries with
  | some sram, some ddr =>
    if numberOfEntries ≤ totSlotsInSram then none
    else
      some
        { prevState := .hybrid, currState := .hybrid, holdState := false, stateToHold := .null,
          ddrTblHdl := some .ddr, sramTblHdl := some .sram, totSlotsInSram := totSlotsInSram,
          backToSramThresh := totSlotsInSram/4, totRulesInTable := fun _ => 0,
          mapPairs := fun _ => .cleared,
          tbl := fun m => match m with
            | .ddr => ddr
            | .sram => sram
          globals := { g with pdns := Function.update g.pdns 0 publicIp } }
  | _, _ => none

/-- `ipa_nati_add_ipv4_tbl` while the tables exist. In `NATI_STATE_HYBRID`
`_smAddSramAndDdrTbl` clears counters and maps before both creations fail, which zeroes the
handles; in `NATI_STATE_HYBRID_DDR` the trigger is undefined. -/
def smAddTblAgain (o : NatiObj) : NatiObj :=
  if o.currState = .hybrid then
    { o with
      ddrTblHdl := none, sramTblHdl := none, totRulesInTable := fun _ => 0,
      mapPairs := fun _ => .cleared }
  else o

/-- What the application, the hardware and the PDN configuration do. -/
inductive HybridOp
  | addTbl
  | addRule (rule : Ipv4Rule) (env : AddEnv)
  | delRule (hdl : ℕ) (env : DelEnv)
  | clrTbl
  | switchTo (nmi : MemIn) (hold : Bool) (env : SwitchEnv)
  | modifyPdn (pdnIndex : ℕ) (publicIp : BitVec 32)
  | hardware (i : ℕ) (timeStamp : BitVec 24) (redirect : BitVec 1)

/-- Packets hit the rules of the table in use. -/
def NatiObj.step (o : NatiObj) : HybridOp → NatiObj
  | .addTbl => smAddTblAgain o
  | .addRule rule env => (smAddRuleHybrid o rule env).1
  | .delRule hdl env => (smDelRuleHybrid o hdl env).1
  | .clrTbl => smClrTbl o o.memSub
  | .switchTo nmi hold env => natSwitchTo o nmi hold env
  | .modifyPdn pdnIndex publicIp => o.setGlobals (modifyPdn o.globals pdnIndex publicIp)
  | .hardware i timeStamp redirect =>
    o.setTbl o.memSub (hardwareTouch (o.tbl o.memSub) i timeStamp redirect)

end IpaNat
end MarbleModules
