import Mathlib.Logic.Function.Basic
import Mathlib.Data.List.Basic
import Mathlib.Tactic

/-! The handle table of the camera request manager. A handle packs the index of its slot, its
type and a random byte; a slot keeps its old values after it was freed. An `int32_t` handle is
given by its bits. -/
namespace MarbleModules
namespace CamHandles

variable {α : Type*}

/-- `CAM_REQ_MGR_MAX_HANDLES_V2` -/
def maxHandlesV2 : ℕ := 256

inductive HdlState
  | free | active
  deriving DecidableEq

inductive HdlType
  | dev | session | link
  deriving DecidableEq

/-- The value of the enumeration, from `HDL_TYPE_DEV = 1` on. -/
def HdlType.val : HdlType → ℕ
  | .dev => 1
  | .session => 2
  | .link => 3

inductive Errno
  | einval | enosr
  deriving DecidableEq

/-- `struct handle`; pointers are to `α`. -/
structure Handle (α : Type*) where
  sessionHdl : UInt32
  hdlValue : UInt32
  type : ℕ
  state : HdlState
  devId : ℕ
  ops : Option α
  priv : Option α

/-- `struct cam_req_mgr_util_hdl_tbl`; the bitmap has as many bits as there are slots. -/
structure Table (α : Type*) where
  hdl : ℕ → Handle α
  bitmap : ℕ → Bool

/-- What `cam_create_device_hdl` and `cam_create_link_hdl` read of `struct
cam_create_dev_hdl` -/
structure CreateDevHdl (α : Type*) where
  sessionHdl : UInt32
  devId : ℕ
  ops : Option α
  priv : Option α

/-- The table of `cam_req_mgr_util_init` -/
def init : Table α := ⟨fun _ => ⟨0,0,0,.free,0,none,none⟩,fun _ => false⟩

/-- `GET_DEV_HANDLE` -/
def getDevHandle (rnd1 : UInt8) (type : HdlType) (idx : ℕ) : UInt32 :=
  rnd1.toUInt32 <<< 16 ||| (0:UInt32) <<< 12 ||| UInt32.ofNat type.val <<< 8 |||
    UInt32.ofNat idx <<< 0

/-- `CAM_REQ_MGR_GET_HDL_IDX` -/
def getHdlIdx (hdl : UInt32) : ℕ := (hdl &&& 0xff).toNat

/-- `CAM_REQ_MGR_GET_HDL_TYPE` -/
def getHdlType (hdl : UInt32) : ℕ := (hdl >>> 8 &&& 0xf).toNat

def findFirstZeroBit (bitmap : ℕ → Bool) (bits : ℕ) : ℕ :=
  ((List.range bits).find? fun i => !bitmap i).getD bits

/-- `cam_get_free_handle_index` with the slot's use by its three callers: `fill` gives the
slot's contents for the new handle. -/
def createHdl (t : Table α) (rnd : UInt8) (type : HdlType) (fill : UInt32 → Handle α) :
    Except Errno UInt32 × Table α :=
  let idx := findFirstZeroBit t.bitmap maxHandlesV2
  if maxHandlesV2 ≤ idx then (.error .enosr,t)
  else
    let handle := getDevHandle rnd type idx
    (.ok handle,⟨Function.update t.hdl idx { fill handle with
      hdlValue := handle,type := type.val,state := .active },Function.update t.bitmap idx true⟩)

/-- `CAM_CRM`, the device id of sessions -/
def camCrm : ℕ := 4

def createSessionHdl (t : Table α) (rnd : UInt8) (priv : Option α) :
    Except Errno UInt32 × Table α :=
  createHdl t rnd .session fun handle =>
    ⟨handle,handle,HdlType.session.val,.active,camCrm,none,priv⟩

/-- `cam_create_device_hdl`; the request manager has to be open. -/
def createDeviceHdl (crmActive : Bool) (t : Table α) (rnd : UInt8) (hdlData : CreateDevHdl α) :
    Except Errno UInt32 × Table α :=
  if !crmActive then (.error .einval,t)
  else createHdl t rnd .dev fun handle =>
    ⟨hdlData.sessionHdl,handle,HdlType.dev.val,.active,hdlData.devId,hdlData.ops,hdlData.priv⟩

def createLinkHdl (t : Table α) (rnd : UInt8) (hdlData : CreateDevHdl α) :
    Except Errno UInt32 × Table α :=
  createHdl t rnd .link fun handle =>
    ⟨hdlData.sessionHdl,handle,HdlType.link.val,.active,hdlData.devId,none,hdlData.priv⟩

/-- `cam_handle_validate`, whether it returns 0 -/
def handleValidate (t : Table α) (sessionHdl handle : UInt32) : Bool :=
  let idx := getHdlIdx handle
  if maxHandlesV2 ≤ idx then false
  else if (t.hdl idx).state ≠ .active then false
  else if (t.hdl idx).sessionHdl ≠ sessionHdl ∨ (t.hdl idx).hdlValue ≠ handle then false
  else true

def freeHdls (t : Table α) : Table α where
  hdl := fun i =>
    if i < maxHandlesV2 ∧ (t.hdl i).state = .active then { t.hdl i with state := .free }
    else t.hdl i
  bitmap := fun i => if i < maxHandlesV2 then false else t.bitmap i

def getPriv (t : Table α) (devHdl : UInt32) (handleType : ℤ) : Option α :=
  let idx := getHdlIdx devHdl
  if maxHandlesV2 ≤ idx then none
  else if (t.hdl idx).hdlValue ≠ devHdl then none
  else if (t.hdl idx).state ≠ .active then none
  else if (getHdlType devHdl : ℤ) ≠ handleType then none
  else (t.hdl idx).priv

def getDeviceOps (t : Table α) (devHdl : UInt32) : Option α :=
  let idx := getHdlIdx devHdl
  let type := getHdlType devHdl
  if maxHandlesV2 ≤ idx then none
  else if (t.hdl idx).state ≠ .active then none
  else if HdlType.dev.val ≠ type ∧ HdlType.session.val ≠ type ∧ HdlType.link.val ≠ type then none
  else if (t.hdl idx).hdlValue ≠ devHdl then none
  else (t.hdl idx).ops

/-- `cam_destroy_hdl` -/
def destroyHdl (t : Table α) (devHdl : UInt32) (devHdlType : ℤ) :
    Except Errno Unit × Table α :=
  let idx := getHdlIdx devHdl
  if maxHandlesV2 ≤ idx then (.error .einval,t)
  else if (t.hdl idx).state ≠ .active then (.error .einval,t)
  else if (getHdlType devHdl : ℤ) ≠ devHdlType then (.error .einval,t)
  else if (t.hdl idx).hdlValue ≠ devHdl then (.error .einval,t)
  else (.ok (),⟨Function.update t.hdl idx { t.hdl idx with
      state := .free,ops := none,priv := none },Function.update t.bitmap idx false⟩)

section Fields

variable (rnd1 : UInt8) (type : HdlType) {idx : ℕ}

theorem HdlType.val_lt : type.val < 4 := by
  cases type <;> decide

/-- Fields that do not overlap add up. -/
theorem mul_or_eq_add {i b : ℕ} (hb : b < 2^i) (a : ℕ) : a*2^i ||| b = a*2^i+b := by
  rw [← Nat.shiftLeft_eq,Nat.shiftLeft_add_eq_or_of_lt hb]

/-- A handle is its three fields side by side. -/
theorem toNat_getDevHandle (hi : idx < maxHandlesV2) :
    (getDevHandle rnd1 type idx).toNat = rnd1.toNat*2^16+type.val*2^8+idx := by
  have hr := rnd1.toNat_lt
  have ht := type.val_lt
  simp only [maxHandlesV2] at hi
  have hr' : rnd1.toNat*2^16%2^32 = rnd1.toNat*2^16 := Nat.mod_eq_of_lt (by omega)
  have ht' : type.val*2^8%2^32 = type.val*2^8 := Nat.mod_eq_of_lt (by omega)
  have hi' : idx%2^32 = idx := Nat.mod_eq_of_lt (by omega)
  have hor : (getDevHandle rnd1 type idx).toNat =
      rnd1.toNat*2^16%2^32 ||| type.val*2^8%2^32 ||| idx%2^32 := by
    simp [getDevHandle,UInt32.toNat_or,UInt32.toNat_shiftLeft,Nat.shiftLeft_eq]
  rw [hor,hr',ht',hi',Nat.or_assoc,mul_or_eq_add (i := 8) (by omega),
    mul_or_eq_add (i := 16) (by omega)]
  omega

theorem getHdlIdx_getDevHandle (hi : idx < maxHandlesV2) :
    getHdlIdx (getDevHandle rnd1 type idx) = idx := by
  have ht := toNat_getDevHandle rnd1 type hi
  simp only [maxHandlesV2] at hi
  rw [getHdlIdx,UInt32.toNat_and]
  exact (Nat.and_two_pow_sub_one_eq_mod _ 8).trans (by omega)

theorem getHdlType_getDevHandle (hi : idx < maxHandlesV2) :
    getHdlType (getDevHandle rnd1 type idx) = type.val := by
  have ht := toNat_getDevHandle rnd1 type hi
  have hv := type.val_lt
  simp only [maxHandlesV2] at hi
  have hshift : (getDevHandle rnd1 type idx >>> 8).toNat =
      (getDevHandle rnd1 type idx).toNat/2^8 := by
    simp [UInt32.toNat_shiftRight,Nat.shiftRight_eq_div_pow]
  rw [getHdlType,UInt32.toNat_and]
  refine (Nat.and_two_pow_sub_one_eq_mod _ 4).trans ?_
  rw [hshift,ht]
  omega

end Fields

end CamHandles
end MarbleModules
