import Mathlib.Data.List.Basic
import Mathlib.Tactic.Linarith

/-! The attribute lists of commands and events: each TLV of a message is packed into one word, and a
lookup walks over the words of the messages before. -/
namespace MarbleModules
namespace WmiTlv

def WMITLV_GET_ATTRIB_NUM_TLVS : ℕ := 0xFFFFFFFF
def WMITLV_ARR_SIZE_INVALID : ℕ := 0x1FE

def WMITLV_TAG_FIRST_ARRAY_ENUM : ℕ := 16
def WMITLV_TAG_ARRAY_UINT32 : ℕ := 16
def WMITLV_TAG_ARRAY_BYTE : ℕ := 17
def WMITLV_TAG_ARRAY_STRUC : ℕ := 18
def WMITLV_TAG_ARRAY_FIXED_STRUC : ℕ := 19
def WMITLV_TAG_LAST_ARRAY_ENUM : ℕ := 31

/-- `WMITLV_GET_CMDID` -/
def getCmdid (val : ℕ) : ℕ := val % 2^24
/-- `WMITLV_GET_NUM_TLVS` -/
def getNumTlvs (val : ℕ) : ℕ := val/2^24 % 2^8

/-- `wmitlv_attributes_struc` of one TLV. -/
structure Attr where
  tagId : ℕ
  structSize : ℕ
  arraySize : ℕ
  varied : Bool
deriving DecidableEq

/-- `WMITLV_GET_TAGID`, `WMITLV_GET_TAG_STRUCT_SIZE`, `WMITLV_GET_TAG_ARRAY_SIZE` and
`WMITLV_GET_TAG_VARIED`. -/
def unpackAttr (val : ℕ) : Attr where
  tagId := val % 2^12
  structSize := val/2^12 % 2^9
  arraySize := val/2^21 % 2^9
  varied := val/2^30 % 2 = 1

/-- The result of `wmitlv_get_attributes`: the number of TLVs, or the attributes of one. -/
inductive Attributes
  | numTlvs (n : ℕ)
  | attr (a : Attr)

/-- The loop of `wmitlv_get_attributes`, with the number of words that are still to be skipped. -/
def getAttributesLoop (cmdEventId currTlvOrder : ℕ) : List ℕ → ℕ → Option Attributes
  | [],_ => none
  | _::ws,skip+1 => getAttributesLoop cmdEventId currTlvOrder ws skip
  | w::ws,0 =>
    if getCmdid cmdEventId = getCmdid w then
      if currTlvOrder = WMITLV_GET_ATTRIB_NUM_TLVS then some (.numTlvs (getNumTlvs w))
      else if getNumTlvs w ≤ currTlvOrder then none
      else (ws[currTlvOrder]?).map fun val => .attr (unpackAttr val)
    else getAttributesLoop cmdEventId currTlvOrder ws (getNumTlvs w)

/-- `wmitlv_get_attributes` -/
def getAttributes (attrList : List ℕ) (cmdEventId currTlvOrder : ℕ) : Option Attributes :=
  getAttributesLoop cmdEventId currTlvOrder attrList 0

/-- A message with its TLVs. -/
structure Message where
  id : ℕ
  tlvs : List Attr

/-- `WMITLV_SET_ATTRB0` -/
def setAttrb0 (m : Message) : ℕ := m.tlvs.length*2^24+m.id % 2^24

/-- `WMITLV_SET_ATTRB1` -/
def setAttrb1 (a : Attr) : ℕ :=
  a.varied.toNat*2^30+a.arraySize % 2^9*2^21+a.structSize % 2^9*2^12+a.tagId % 2^12

/-- `WMITLV_GET_CMD_EVT_ATTRB_LIST` of every message. -/
def attrList : List Message → List ℕ
  | [] => []
  | m::ms => setAttrb0 m::(m.tlvs.map setAttrb1++attrList ms)

/-- The attributes fit into their bits. -/
structure Attr.Fits (a : Attr) : Prop where
  tagId : a.tagId < 2^12
  structSize : a.structSize < 2^9
  arraySize : a.arraySize < 2^9

/-- The message that a lookup of an id finds. -/
def lookup (ms : List Message) (id : ℕ) : Option Message :=
  ms.find? fun m => getCmdid id = getCmdid m.id

section Lookup

theorem getCmdid_setAttrb0 (m : Message) : getCmdid (setAttrb0 m) = getCmdid m.id := by
  unfold getCmdid setAttrb0
  omega

theorem getNumTlvs_setAttrb0 {m : Message} (h : m.tlvs.length < 2^8) :
    getNumTlvs (setAttrb0 m) = m.tlvs.length := by
  unfold getNumTlvs setAttrb0
  omega

theorem unpackAttr_setAttrb1 {a : Attr} (h : a.Fits) : unpackAttr (setAttrb1 a) = a := by
  obtain ⟨tagId,structSize,arraySize,varied⟩ := a
  obtain ⟨h1,h2,h3⟩ := h
  simp only at h1 h2 h3
  have hv := Bool.toNat_le varied
  simp only [unpackAttr,setAttrb1,Attr.mk.injEq]
  refine ⟨by omega,by omega,by omega,?_⟩
  cases varied with
  | false =>
    apply decide_eq_false
    rw [Bool.toNat_false]
    omega
  | true =>
    apply decide_eq_true
    rw [Bool.toNat_true]
    omega

theorem getAttributesLoop_skip (id order : ℕ) (ws ws' : List ℕ) :
    getAttributesLoop id order (ws++ws') ws.length = getAttributesLoop id order ws' 0 := by
  induction ws with
  | nil => rfl
  | cons w ws ih => exact ih

variable {ms : List Message} {id : ℕ}

/-- The number of TLVs of the message that is found. -/
theorem getAttributes_numTlvs (hlen : ∀ m ∈ ms,m.tlvs.length < 2^8) :
    getAttributes (attrList ms) id WMITLV_GET_ATTRIB_NUM_TLVS
      = (lookup ms id).map fun m => .numTlvs m.tlvs.length := by
  unfold getAttributes lookup
  induction ms with
  | nil => rfl
  | cons m ms ih =>
    have hnum := getNumTlvs_setAttrb0 (hlen m List.mem_cons_self)
    rw [attrList,getAttributesLoop,getCmdid_setAttrb0,hnum,List.find?_cons]
    by_cases hid : getCmdid id = getCmdid m.id
    · simp [hid]
    · have hskip := getAttributesLoop_skip id WMITLV_GET_ATTRIB_NUM_TLVS (m.tlvs.map setAttrb1)
        (attrList ms)
      rw [List.length_map] at hskip
      rw [if_neg hid,hskip,ih fun m' hm' => hlen m' (List.mem_cons_of_mem _ hm')]
      simp [hid]

/-- The attributes of TLV `k` of the message that is found. -/
theorem getAttributes_attr (hlen : ∀ m ∈ ms,m.tlvs.length < 2^8)
    (hfits : ∀ m ∈ ms,∀ a ∈ m.tlvs,a.Fits) {m : Message} (hm : lookup ms id = some m) {k : ℕ}
    {a : Attr} (hk : m.tlvs[k]? = some a) :
    getAttributes (attrList ms) id k = some (.attr a) := by
  unfold getAttributes
  unfold lookup at hm
  induction ms with
  | nil => cases hm
  | cons m' ms ih =>
    have hnum := getNumTlvs_setAttrb0 (hlen m' List.mem_cons_self)
    rw [attrList,getAttributesLoop,getCmdid_setAttrb0,hnum]
    rw [List.find?_cons] at hm
    by_cases hid : getCmdid id = getCmdid m'.id
    · simp only [hid,decide_true,Option.some.injEq] at hm
      subst hm
      have hlt : k < m'.tlvs.length := (List.getElem?_eq_some_iff.mp hk).1
      have hbyte := hlen m' List.mem_cons_self
      have hord : k ≠ WMITLV_GET_ATTRIB_NUM_TLVS := by
        unfold WMITLV_GET_ATTRIB_NUM_TLVS
        omega
      have ha := hfits m' List.mem_cons_self a (List.mem_of_getElem? hk)
      rw [if_pos hid,if_neg hord,if_neg (by omega),List.getElem?_append_left (by simpa using hlt),
        List.getElem?_map,hk]
      simp [unpackAttr_setAttrb1 ha]
    · have hskip := getAttributesLoop_skip id k (m'.tlvs.map setAttrb1) (attrList ms)
      rw [List.length_map] at hskip
      simp only [hid,decide_false] at hm
      rw [if_neg hid,hskip]
      exact ih (fun x hx => hlen x (List.mem_cons_of_mem _ hx))
        (fun x hx => hfits x (List.mem_cons_of_mem _ hx)) hm

end Lookup

end WmiTlv
end MarbleModules
