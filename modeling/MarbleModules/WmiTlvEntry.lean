import MarbleModules.PadChunks
import MarbleModules.WmiTlv

/-! What an entry says about a TLV of the buffer, and that the decoding of one TLV makes such an entry
from bytes of the buffer alone. -/
namespace MarbleModules
namespace WmiTlv
open TwoCursors PadChunks

/-- The `n` bytes at `o` behind a pointer. -/
def Ptr.view (mem : Mem) : Ptr → ℕ → ℕ → List UInt8
  | .null,_,_ => []
  | .buf off,o,n => read mem (off+o) n
  | .alloc _ bytes,o,n => (bytes.drop o).take n

/-- There are `n` bytes behind a pointer, in a buffer of `len` bytes. -/
def Ptr.Covers (len : ℕ) : Ptr → ℕ → Prop
  | .null,n => n = 0
  | .buf off,n => off+n ≤ len
  | .alloc _ bytes,n => n ≤ bytes.length

/-- A structure that is not an array. -/
structure Attr.IsStruct (a : Attr) : Prop where
  tag : isArrayTag a.tagId = false
  fixed : a.varied = false
  noSize : a.arraySize = WMITLV_ARR_SIZE_INVALID

/-- An array of a fixed size. -/
structure Attr.IsFixedArray (a : Attr) : Prop where
  tag : isArrayTag a.tagId = true
  fixed : a.varied = false
  size : a.arraySize ≠ WMITLV_ARR_SIZE_INVALID

/-- An array of any length. -/
structure Attr.IsVarArray (a : Attr) : Prop where
  tag : isArrayTag a.tagId = true
  varied : a.varied = true

/-- The attributes that a table may have. -/
structure Attr.Valid (a : Attr) : Prop where
  fits : a.Fits
  size : a.structSize ≠ 0
  kind : a.IsStruct ∨ a.IsFixedArray ∨ a.IsVarArray

/-- The size of a received element: that of the first structure, or that of the table. -/
def elemSize (a : Attr) (mem : Mem) (p : ℕ) : ℕ :=
  if a.tagId = WMITLV_TAG_ARRAY_STRUC then inTlvLen mem p else a.structSize

/-- The number of bytes behind the header of the TLV at `idx`. -/
def tlvLenAt (mem : Mem) (idx : ℕ) : ℕ := getTlvlen (getHdr mem idx)

/-- The entry `e` describes the TLV at `idx`. -/
structure Describes (mem : Mem) (len : ℕ) (a : Attr) (idx : ℕ) (e : ParamInfo) : Prop where
  tag : getTlvtag (getHdr mem idx) = a.tagId
  struct : a.IsStruct → e.tlvPtr.Covers len a.structSize ∧
    e.tlvPtr.view mem 0 a.structSize
      = padTo 0 a.structSize (read mem idx (WMI_TLV_HDR_SIZE+tlvLenAt mem idx)) ∧
    e.numElements = if 0 < tlvLenAt mem idx then 1 else 0
  fixedArray : a.IsFixedArray → e.tlvPtr.Covers len (a.structSize*a.arraySize) ∧
    e.tlvPtr.view mem 0 (a.structSize*a.arraySize)
      = padTo 0 (a.structSize*a.arraySize) (read mem (idx+WMI_TLV_HDR_SIZE) (tlvLenAt mem idx)) ∧
    e.numElements = a.arraySize
  varArray : a.IsVarArray →
    e.numElements = tlvLenAt mem idx/elemSize a mem (idx+WMI_TLV_HDR_SIZE) ∧
    e.tlvPtr.Covers len (e.numElements*a.structSize) ∧
    (tlvLenAt mem idx = 0 → e.tlvPtr = .null) ∧
    ∀ i < e.numElements,e.tlvPtr.view mem (i*a.structSize) a.structSize
      = padTo 0 a.structSize
          (read mem (idx+WMI_TLV_HDR_SIZE+i*elemSize a mem (idx+WMI_TLV_HDR_SIZE))
            (elemSize a mem (idx+WMI_TLV_HDR_SIZE)))

section Bytes

theorem take_read (mem : Mem) (p : ℕ) {k n : ℕ} (h : k ≤ n) :
    (read mem p n).take k = read mem p k := by
  unfold TwoCursors.read
  rw [← List.map_take,List.take_range,Nat.min_eq_left h]

/-- Bytes in place are those of the buffer, cut to the size of the host. -/
theorem padTo_read_of_le (mem : Mem) (p : ℕ) {k n : ℕ} (h : k ≤ n) :
    padTo 0 k (read mem p n) = read mem p k := by
  rw [padTo_of_le (by rwa [length_read]),take_read mem p h]

/-- A shorter TLV is followed by zeros. -/
theorem padTo_read_of_ge (mem : Mem) (p : ℕ) {k n : ℕ} (h : n ≤ k) :
    padTo 0 k (read mem p n) = read mem p n++List.replicate (k-n) 0 := by
  rw [padTo_of_ge (by rwa [length_read]),length_read]

end Bytes

section Present
variable {a : Attr} {mem : Mem} {p currTlvLen len : ℕ} {diff : ℤ} {num : ℕ} {alloc : Option ℕ}
  {e : ParamInfo}

variable (len) in
/-- A TLV that is copied as a whole, or stays in place, has the size `want` of the host. -/
theorem present_whole (hcopy : copiesStructs a diff = false) (hfix : a.varied = false) {want : ℕ}
    (hdiff : diff = (currTlvLen : ℤ)-want) (hlen : p+currTlvLen ≤ len)
    (he : present a mem p currTlvLen diff num alloc = some e) :
    e.tlvPtr.Covers len want ∧
      e.tlvPtr.view mem 0 want = padTo 0 want (read mem p currTlvLen) ∧ e.numElements = num := by
  unfold present at he
  rw [if_neg (by simp [hcopy])] at he
  by_cases hd : 0 ≤ diff
  · rw [if_pos hd,if_neg (by simp [hfix])] at he
    cases he
    refine ⟨show p+want ≤ len by omega,?_,rfl⟩
    rw [padTo_read_of_le mem p (by omega)]
    rfl
  · rw [if_neg hd] at he
    obtain ⟨id,_,rfl⟩ := Option.map_eq_some_iff.mp he
    have hneg : (-diff).toNat = want-currTlvLen := by omega
    have hbytes : (read mem p currTlvLen++List.replicate (-diff).toNat (0 : UInt8)).length = want := by
      rw [List.length_append,length_read,List.length_replicate]
      omega
    refine ⟨hbytes.ge,?_,rfl⟩
    show (List.drop 0 _).take want = _
    rw [List.drop_zero,List.take_of_length_le hbytes.le,hneg,padTo_read_of_ge mem p (by omega)]

theorem length_copyStruct (a : Attr) (mem : Mem) (p : ℕ) {diff : ℤ}
    (hdiff : diff = (inTlvLen mem p : ℤ)-a.structSize) (i : ℕ) :
    (read mem (p+i*inTlvLen mem p) (copyLen a mem p diff)++
      List.replicate (a.structSize-copyLen a mem p diff) (0 : UInt8)).length = a.structSize := by
  have hle : copyLen a mem p diff ≤ a.structSize := by
    unfold copyLen
    split <;> omega
  rw [List.length_append,length_read,List.length_replicate]
  omega

/-- A structure is copied up to the size of the host, and filled up to it. -/
theorem copyStruct_eq (a : Attr) (mem : Mem) (p q : ℕ) {diff : ℤ}
    (hdiff : diff = (inTlvLen mem p : ℤ)-a.structSize) :
    read mem q (copyLen a mem p diff)++List.replicate (a.structSize-copyLen a mem p diff) (0 : UInt8)
      = padTo 0 a.structSize (read mem q (inTlvLen mem p)) := by
  unfold copyLen
  split_ifs with hd
  · rw [padTo_read_of_le mem q (by omega),Nat.sub_self]
    simp
  · rw [padTo_read_of_ge mem q (by omega)]

variable (len) in
/-- The structures of a copied array. -/
theorem present_structs (hcopy : copiesStructs a diff = true)
    (hdiff : diff = (inTlvLen mem p : ℤ)-a.structSize)
    (he : present a mem p currTlvLen diff num alloc = some e) :
    e.tlvPtr.Covers len (num*a.structSize) ∧ e.numElements = num ∧
      ∀ i < num,e.tlvPtr.view mem (i*a.structSize) a.structSize
        = padTo 0 a.structSize (read mem (p+i*inTlvLen mem p) (inTlvLen mem p)) := by
  unfold present at he
  rw [if_pos hcopy] at he
  split at he
  · cases he
  · obtain ⟨id,_,rfl⟩ := Option.map_eq_some_iff.mp he
    have hlen := length_copyStruct a mem p hdiff
    refine ⟨?_,rfl,fun i hi => ?_⟩
    · show num*a.structSize ≤ (copyStructs a mem p diff num).length
      rw [copyStructs,length_flatMap_of_length hlen,List.length_range]
    · show ((copyStructs a mem p diff num).drop (i*a.structSize)).take a.structSize = _
      have hget : (List.range num)[i]? = some i := by simp [hi]
      rw [copyStructs,take_drop_flatMap hlen hget,copyStruct_eq a mem p _ hdiff]

variable (len) in
/-- An array that stays in place. -/
theorem present_inPlace (hcopy : copiesStructs a diff = false) (hvar : a.varied = true)
    (hdiff : diff = 0) (hlen : p+currTlvLen ≤ len) (hnum : num = currTlvLen/a.structSize)
    (he : present a mem p currTlvLen diff num alloc = some e) :
    e.numElements = num ∧ e.tlvPtr.Covers len (num*a.structSize) ∧
      (currTlvLen = 0 → e.tlvPtr = .null) ∧
      ∀ i < num,e.tlvPtr.view mem (i*a.structSize) a.structSize
        = padTo 0 a.structSize (read mem (p+i*a.structSize) a.structSize) := by
  have hmul : num*a.structSize ≤ currTlvLen := by
    rw [hnum]
    exact Nat.div_mul_le_self ..
  unfold present at he
  rw [if_neg (by simp [hcopy]),if_pos (by omega)] at he
  cases he
  by_cases hzero : currTlvLen = 0
  · have hptr : (if a.varied = true ∧ currTlvLen = 0 then Ptr.null else .buf p) = .null :=
      if_pos ⟨hvar,hzero⟩
    have hn : num = 0 := by rw [hnum,hzero,Nat.zero_div]
    subst hn
    rw [hptr]
    exact ⟨rfl,Nat.zero_mul _,fun _ => rfl,fun i hi => absurd hi (Nat.not_lt_zero i)⟩
  · have hptr : (if a.varied = true ∧ currTlvLen = 0 then Ptr.null else .buf p) = .buf p :=
      if_neg fun hh => hzero hh.2
    rw [hptr]
    refine ⟨rfl,show p+num*a.structSize ≤ len by omega,fun hh => absurd hh hzero,fun i _ => ?_⟩
    rw [padTo_read_of_le mem _ le_rfl]
    rfl

end Present

end WmiTlv
end MarbleModules
