import MarbleModules.LeBytes
import MarbleModules.TwoCursors
import MarbleModules.WmiTlvTable

/-! The decoding of a WMI message: every TLV is presented in the size that the host expects, in place or
in a padded buffer. -/
namespace MarbleModules
namespace WmiTlv
open TwoCursors

def WMI_TLV_HDR_SIZE : ℕ := 4

/-- `WMITLV_GET_HDR` -/
def getHdr (mem : Mem) (p : ℕ) : ℕ := leVal (read mem p 4)
/-- `WMITLV_GET_TLVTAG` -/
def getTlvtag (hdr : ℕ) : ℕ := hdr/2^16
/-- `WMITLV_GET_TLVLEN` -/
def getTlvlen (hdr : ℕ) : ℕ := hdr % 2^16

/-- `NULL`, a place in the received buffer, or an allocated buffer with its contents. -/
inductive Ptr
  | null
  | buf (off : ℕ)
  | alloc (id : ℕ) (bytes : List UInt8)
deriving DecidableEq

/-- `wmitlv_cmd_param_info` -/
structure ParamInfo where
  tlvPtr : Ptr
  numElements : ℕ
  bufIsAllocated : Bool
deriving DecidableEq

def ParamInfo.zero : ParamInfo := ⟨.null,0,false⟩

/-- Whether a tag is that of an array. -/
def isArrayTag (tag : ℕ) : Bool :=
  WMITLV_TAG_FIRST_ARRAY_ENUM ≤ tag && tag ≤ WMITLV_TAG_LAST_ARRAY_ENUM

/-- `in_tlv_len`: the size of the first structure of an array. -/
def inTlvLen (mem : Mem) (p : ℕ) : ℕ := getTlvlen (getHdr mem p)+WMI_TLV_HDR_SIZE

/-- `tlv_size_diff` and `num_of_elems` of a TLV of `currTlvLen` bytes at `p`. -/
def tlvSizes (a : Attr) (mem : Mem) (p currTlvLen : ℕ) : Option (ℤ × ℕ) :=
  if a.varied = false then
    if a.arraySize = WMITLV_ARR_SIZE_INVALID then
      some ((currTlvLen : ℤ)-a.structSize,if WMI_TLV_HDR_SIZE < currTlvLen then 1 else 0)
    else some ((currTlvLen : ℤ)-(a.structSize*a.arraySize : ℕ),a.arraySize)
  else if a.tagId = WMITLV_TAG_ARRAY_STRUC then
    if currTlvLen ≠ 0 then
      if currTlvLen < inTlvLen mem p then none
      else some ((inTlvLen mem p : ℤ)-a.structSize,currTlvLen/inTlvLen mem p)
    else some (0,0)
  else if a.tagId = WMITLV_TAG_ARRAY_UINT32 ∨ a.tagId = WMITLV_TAG_ARRAY_BYTE ∨
      a.tagId = WMITLV_TAG_ARRAY_FIXED_STRUC then
    some (0,currTlvLen/a.structSize)
  else none

/-- The header of the first structure is read to find the size. -/
def sizesReads (a : Attr) (p currTlvLen : ℕ) : List (ℕ × ℕ) :=
  if a.varied ∧ a.tagId = WMITLV_TAG_ARRAY_STRUC ∧ currTlvLen ≠ 0 then [(p,WMI_TLV_HDR_SIZE)] else []

/-- An array of structures is copied structure by structure. -/
def copiesStructs (a : Attr) (diff : ℤ) : Bool := a.tagId = WMITLV_TAG_ARRAY_STRUC ∧ diff ≠ 0

/-- The bytes that are copied of each structure. -/
def copyLen (a : Attr) (mem : Mem) (p : ℕ) (diff : ℤ) : ℕ :=
  if 0 < diff then a.structSize else inTlvLen mem p

/-- The zeroed buffer after the copies. -/
def copyStructs (a : Attr) (mem : Mem) (p : ℕ) (diff : ℤ) (num : ℕ) : List UInt8 :=
  (List.range num).flatMap fun i =>
    read mem (p+i*inTlvLen mem p) (copyLen a mem p diff)++
      List.replicate (a.structSize-copyLen a mem p diff) 0

/-- Whether a buffer is allocated for the TLV. -/
def allocates (a : Attr) (diff : ℤ) : Bool :=
  if copiesStructs a diff then a.varied else diff < 0

/-- The entry of a TLV, with the buffer `id` if one is allocated; nothing on an error. -/
def present (a : Attr) (mem : Mem) (p currTlvLen : ℕ) (diff : ℤ) (num : ℕ) (alloc : Option ℕ) :
    Option ParamInfo :=
  if copiesStructs a diff then
    if a.varied = false then none
    else alloc.map fun id => ⟨.alloc id (copyStructs a mem p diff num),num,true⟩
  else if 0 ≤ diff then
    some ⟨if a.varied ∧ currTlvLen = 0 then .null else .buf p,num,false⟩
  else
    alloc.map fun id =>
      ⟨.alloc id (read mem p currTlvLen++List.replicate (-diff).toNat 0),num,true⟩

/-- What is read for the entry. -/
def presentReads (a : Attr) (mem : Mem) (p currTlvLen : ℕ) (diff : ℤ) (num : ℕ)
    (alloc : Option ℕ) : List (ℕ × ℕ) :=
  if copiesStructs a diff then
    if a.varied = false then []
    else (p,WMI_TLV_HDR_SIZE)::(if alloc.isSome then
      (List.range num).map fun i => (p+i*inTlvLen mem p,copyLen a mem p diff) else [])
  else if 0 ≤ diff then []
  else if alloc.isSome then [(p,currTlvLen)] else []

/-- The state of the loop: `buf_idx`, the entries so far, the places that have been read with their
lengths, the number of calls of the allocator, and the buffers it has given. -/
structure Dec where
  bufIdx : ℕ
  entries : List ParamInfo
  reads : List (ℕ × ℕ)
  attempts : ℕ
  allocated : List ℕ

/-- A TLV with the attributes `a`, from its sizes on. -/
def decodeTlv (allocOk : ℕ → Bool) (a : Attr) (mem : Mem) (p currTlvLen : ℕ) (d : Dec) :
    Bool × Dec :=
  let d := {d with reads := d.reads++sizesReads a p currTlvLen}
  match tlvSizes a mem p currTlvLen with
  | none => (false,d)
  | some (diff,num) =>
    let alloc := if allocOk d.attempts then some d.attempts else none
    let reads := d.reads++presentReads a mem p currTlvLen diff num alloc
    match present a mem p currTlvLen diff num alloc with
    | none => (false,{d with reads := reads})
    | some e =>
      (true,{
        bufIdx := p+currTlvLen
        entries := d.entries++[e]
        reads := reads
        attempts := d.attempts+(allocates a diff).toNat
        allocated := if allocates a diff then d.allocated++[d.attempts] else d.allocated})

/-- The loop of `wmitlv_check_and_pad_tlvs`, with the number of TLVs that are still expected. -/
def decodeLoop (allocOk : ℕ → Bool) (attrList : List ℕ) (id : ℕ) (mem : Mem) (len : ℕ) :
    ℕ → Dec → Bool × Dec
  | 0,d => (true,d)
  | remaining+1,d =>
    if len < d.bufIdx+WMI_TLV_HDR_SIZE then (true,d)
    else
      let hdr := getHdr mem d.bufIdx
      let d' := {d with reads := d.reads++[(d.bufIdx,WMI_TLV_HDR_SIZE)]}
      if len-(d.bufIdx+WMI_TLV_HDR_SIZE) < getTlvlen hdr then (false,d')
      else
        match getAttributes attrList id d.entries.length with
        | some (.attr a) =>
          if getTlvtag hdr ≠ a.tagId then (false,d')
          else
            let r := if isArrayTag (getTlvtag hdr) then
                decodeTlv allocOk a mem (d.bufIdx+WMI_TLV_HDR_SIZE) (getTlvlen hdr) d'
              else decodeTlv allocOk a mem d.bufIdx (getTlvlen hdr+WMI_TLV_HDR_SIZE) d'
            if r.1 then decodeLoop allocOk attrList id mem len remaining r.2 else r
        | _ => (false,d')

/-- The buffers that `wmitlv_free_allocated_tlvs` frees, the array of the entries last. -/
def freeAllocatedTlvs (entries : List ParamInfo) : List ℕ :=
  (entries.filterMap fun e =>
    match e.tlvPtr with
    | .alloc id _ => if e.bufIsAllocated then some id else none
    | _ => none)++[0]

/-- What `wmitlv_check_and_pad_tlvs` returns and leaves in `*wmi_cmd_struct_ptr`, what it has read,
and the buffers it has allocated and freed. -/
structure Result where
  ret : ℤ
  out : Option (List ParamInfo)
  reads : List (ℕ × ℕ)
  allocated : List ℕ
  freed : List ℕ

/-- `wmitlv_check_and_pad_tlvs` of `len` bytes; call `n` of the allocator succeeds if `allocOk n`. -/
def checkAndPadTlvs (allocOk : ℕ → Bool) (attrList : List ℕ) (id : ℕ) (mem : Mem) (len : ℕ)
    (out : Option (List ParamInfo)) : Result :=
  match getAttributes attrList id WMITLV_GET_ATTRIB_NUM_TLVS with
  | some (.numTlvs cmdNumTlv) =>
    if len < WMI_TLV_HDR_SIZE then ⟨-1,out,[],[],[]⟩
    else if allocOk 0 = false then ⟨-1,none,[],[],[]⟩
    else
      let r := decodeLoop allocOk attrList id mem len cmdNumTlv ⟨0,[],[],1,[0]⟩
      -- the array is zeroed at first, and an entry for each TLV is set
      let entries := r.2.entries++List.replicate (cmdNumTlv-r.2.entries.length) ParamInfo.zero
      if r.1 then ⟨0,some entries,r.2.reads,r.2.allocated,[]⟩
      else ⟨-1,none,r.2.reads,r.2.allocated,freeAllocatedTlvs entries⟩
  | _ => ⟨-1,out,[],[],[]⟩

end WmiTlv
end MarbleModules
