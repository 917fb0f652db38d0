import MarbleModules.SafeWalk

/-! The capability database of a video instance and the adjustment of its capabilities: the roots
first, then the children list, which grows at its tail while it is walked. -/
namespace MarbleModules
namespace VidcCaps
open SafeWalk

/-- `INST_CAP_NONE`, the end of a children array. -/
def INST_CAP_NONE : ℕ := 0
/-- `GOP_SIZE` of `enum msm_vidc_inst_capability_type`. -/
def GOP_SIZE : ℕ := 49
def INST_CAP_MAX : ℕ := 145
def MAX_CAP_CHILDREN : ℕ := 20

/-- `-ENOMEM` -/
def ENOMEM : ℤ := -12
/-- `-EBUSY` -/
def EBUSY : ℤ := -16
/-- `-EINVAL` -/
def EINVAL : ℤ := -22

/-- `struct msm_vidc_inst_cap` without its value. An adjust function sees the values of all
capabilities and the value of the control, and writes its own value. -/
structure InstCap where
  cap : ℕ
  v4l2Id : ℕ
  /-- `CAP_FLAG_ROOT` -/
  root : Bool
  /-- `CAP_FLAG_DYNAMIC_ALLOWED` -/
  dynamicAllowed : Bool
  children : List ℕ
  adjust : Option ((ℕ → ℤ) → Option ℤ → ℤ × ℤ)
  set : Option ((ℕ → ℤ) → ℤ)

/-- The entries of a children array that `msm_vidc_add_children` reads. -/
def InstCap.childIds (c : InstCap) : List ℕ :=
  (c.children.take MAX_CAP_CHILDREN).takeWhile (· ≠ INST_CAP_NONE)

/-- The database as `update_inst_capability` fills it: an entry bears its own id or is blank. -/
structure CapDb where
  cap : ℕ → InstCap
  cap_self : ∀ i,(cap i).cap = INST_CAP_NONE ∨ (cap i).cap = i
  blank : ∀ i,(cap i).cap = INST_CAP_NONE → (cap i).children = []
  child_lt : ∀ i,∀ c ∈ (cap i).children,c < INST_CAP_MAX

/-- The children of a capability. -/
def CapDb.childIds (db : CapDb) (i : ℕ) : List ℕ := (db.cap i).childIds

/-- One capability is adjusted: its value before and after. -/
structure Visit where
  cap : ℕ
  old : ℤ
  new : ℤ
deriving DecidableEq

/-- The instance: the values, the two lists, how often memory was asked for, and the history of
adjustments. -/
structure Inst where
  value : ℕ → ℤ
  children : List ℕ
  firmware : List ℕ
  allocs : ℕ
  log : List Visit

/-- `enum msm_vidc_ctrl_list_type` -/
inductive CtrlListType
  | CHILD_LIST
  | FW_LIST
deriving DecidableEq

/-- The next step of a function that leaves by `if (rc) goto exit`. -/
def orExit (r : ℤ × Inst) (k : Inst → ℤ × Inst) : ℤ × Inst := if r.1 ≠ 0 then r else k r.2

/-- A capability takes a value. -/
def Inst.adjustTo (s : Inst) (i : ℕ) (v : ℤ) : Inst :=
  {s with value := Function.update s.value i v,log := s.log++[⟨i,s.value i,v⟩]}

/-- `msm_vidc_free_capabililty_list` of both lists. -/
def Inst.freeLists (s : Inst) : Inst := {s with children := [],firmware := []}

/-- The code at the label `exit`. -/
def freeOnError (r : ℤ × Inst) : ℤ × Inst := if r.1 ≠ 0 then (r.1,r.2.freeLists) else r

/-- The children list with `list_del` of its first entry. -/
def childHead : Head Inst ℕ where
  list := Inst.children
  pop s := {s with children := s.children.tail}
  list_pop _ := rfl

section Code
variable (db : CapDb) (alloc : ℕ → Bool)

/-- `msm_vidc_add_capid_to_list` -/
def addCapidToList (i : ℕ) (type : CtrlListType) (s : Inst) : ℤ × Inst :=
  if type = .FW_LIST ∧ i ∈ s.firmware then (0,s)
  else if alloc s.allocs = false then (ENOMEM,{s with allocs := s.allocs+1})
  else match type with
    | .CHILD_LIST => (0,{s with allocs := s.allocs+1,children := s.children++[i]})
    | .FW_LIST => (0,{s with allocs := s.allocs+1,firmware := s.firmware++[i]})

/-- The loop of `msm_vidc_add_children`. -/
def addCapids : List ℕ → Inst → ℤ × Inst
  | [],s => (0,s)
  | c::cs,s => orExit (addCapidToList alloc c .CHILD_LIST s) (addCapids cs)

/-- `msm_vidc_add_children` -/
def addChildren (i : ℕ) (s : Inst) : ℤ × Inst := addCapids alloc (db.childIds i) s

/-- The call of the adjust function, or the write of the control's value where there is none. -/
def callAdjust (i : ℕ) (ctrl : Option ℤ) (s : Inst) : ℤ × Inst :=
  match (db.cap i).adjust with
  | some f => ((f s.value ctrl).1,s.adjustTo i (f s.value ctrl).2)
  | none => (0,s.adjustTo i (ctrl.getD (s.value i)))

/-- `msm_vidc_adjust_property` -/
def adjustProperty (i : ℕ) (s : Inst) : ℤ × Inst :=
  if (db.cap i).cap = INST_CAP_NONE then (0,s)
  else
    orExit (callAdjust db i none s) fun s =>
    orExit (addChildren db alloc i s) fun s =>
    addCapidToList alloc i .FW_LIST s

/-- `msm_vidc_adjust_dynamic_property` -/
def adjustDynamicProperty (i : ℕ) (ctrl : Option ℤ) (s : Inst) : ℤ × Inst :=
  if (db.cap i).dynamicAllowed = false then (0,s)
  else if ctrl = none ∧ (db.cap i).adjust.isNone then (EINVAL,s)
  else
    orExit (callAdjust db i ctrl s) fun s' =>
    orExit (if s'.value i ≠ s.value i then addChildren db alloc i s' else (0,s')) fun s'' =>
    -- the same GOP size is not set again: it would make the encoder start a new group
    if s''.value i = s.value i ∧ i = GOP_SIZE then (0,s'')
    else addCapidToList alloc i .FW_LIST s''

/-- The loop of `msm_vidc_adjust_v4l2_properties` over the roots. -/
def adjustRoots : List ℕ → Inst → ℤ × Inst
  | [],s => (0,s)
  | i::is,s =>
    if (db.cap i).root then orExit (adjustProperty db alloc (db.cap i).cap s) (adjustRoots is)
    else adjustRoots is s

/-- `msm_vidc_adjust_v4l2_properties` -/
def adjustV4l2Properties (fuel : ℕ) (s : Inst) : Option (ℤ × Inst) :=
  let r := adjustRoots db alloc (List.range INST_CAP_MAX) s
  if r.1 ≠ 0 then some (freeOnError r)
  else (walk childHead (adjustProperty db alloc) fuel r.2).map freeOnError

/-- `msm_vidc_get_cap_id` -/
def getCapId (id : ℕ) : ℕ :=
  match (List.range' 1 (INST_CAP_MAX-1)).find? fun i => (db.cap i).v4l2Id = id with
  | some i => (db.cap i).cap
  | none => INST_CAP_NONE

/-- The loop of `msm_vidc_set_v4l2_properties`. -/
def setCaps : List ℕ → Inst → ℤ
  | [],_ => 0
  | i::is,s =>
    match (db.cap i).set with
    | none => setCaps is s
    | some f => if f s.value ≠ 0 then f s.value else setCaps is s

/-- `msm_vidc_set_v4l2_properties` -/
def setV4l2Properties (s : Inst) : ℤ × Inst :=
  (setCaps db s.firmware s,{s with firmware := []})

/-- `msm_v4l2_op_s_ctrl` of the control `id` with the value `val`, while the output port streams.
`request` says that the control comes with a request. -/
def opSCtrl (fuel : ℕ) (request : Bool) (id : ℕ) (val : ℤ) (s : Inst) : Option (ℤ × Inst) :=
  let i := getCapId db id
  if i = INST_CAP_NONE then some (EINVAL,s)
  else if (db.cap i).dynamicAllowed = false then some (EBUSY,s)
  else
    let r := adjustDynamicProperty db alloc i (some val) s
    if r.1 ≠ 0 then some (freeOnError r)
    else
      (walk childHead (fun c => adjustDynamicProperty db alloc c none) fuel r.2).map fun r =>
        if r.1 ≠ 0 ∨ request then freeOnError r else freeOnError (setV4l2Properties db r.2)

end Code
end VidcCaps
end MarbleModules
