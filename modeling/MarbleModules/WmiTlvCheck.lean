import MarbleModules.WmiTlvMessage

/-! The check of a message before it is sent, and that the decoder presents a message that passes it
as it stands in the buffer. -/
namespace MarbleModules
namespace WmiTlv
open TwoCursors

/-- `roundup` to a multiple of four -/
def roundup4 (n : ℕ) : ℕ := (n+3)/4*4

/-- The loop over the structures of an array: each says the size of the table. -/
def checkInner (a : Attr) (mem : Mem) : ℕ → ℕ → Bool × List (ℕ × ℕ)
  | 0,_ => (true,[])
  | n+1,p =>
    if inTlvLen mem p ≠ a.structSize then (false,[(p,WMI_TLV_HDR_SIZE)])
    else
      let r := checkInner a mem n (p+inTlvLen mem p)
      (r.1,(p,WMI_TLV_HDR_SIZE)::r.2)

/-- The length of a TLV of `tlvLen` bytes behind its header; `p` is where they begin. The places
read for it are listed. -/
def checkLength (a : Attr) (mem : Mem) (p tag tlvLen : ℕ) : Bool × List (ℕ × ℕ) :=
  if isArrayTag tag then
    if a.varied = false then
      if a.arraySize = WMITLV_ARR_SIZE_INVALID then (false,[])
      else
        let expected := if a.tagId = WMITLV_TAG_ARRAY_BYTE then roundup4 (a.arraySize*a.structSize)
          else a.arraySize*a.structSize
        (tlvLen = expected,[])
    else if a.arraySize ≠ WMITLV_ARR_SIZE_INVALID then (false,[])
    else if tlvLen ≠ 0 then
      if tlvLen % a.structSize ≠ 0 then (false,[])
      else if tag = WMITLV_TAG_ARRAY_STRUC then checkInner a mem (tlvLen/a.structSize) p
      else (tag = WMITLV_TAG_ARRAY_UINT32 ∨ tag = WMITLV_TAG_ARRAY_BYTE ∨
        tag = WMITLV_TAG_ARRAY_FIXED_STRUC,[])
    else (true,[])
  else (tlvLen+WMI_TLV_HDR_SIZE = a.structSize,[])

/-- The state of the loop: `buf_idx`, where the TLVs began that it has passed, in order, and what it
has read. -/
structure Chk where
  bufIdx : ℕ
  passed : List ℕ
  reads : List (ℕ × ℕ)

/-- The loop of `wmitlv_check_tlv_params`; nothing when `fuel` does not suffice. -/
def checkLoop (attrList : List ℕ) (id : ℕ) (mem : Mem) (len : ℕ) : ℕ → Chk → Option (Bool × Chk)
  | 0,_ => none
  | fuel+1,c =>
    if len < c.bufIdx+WMI_TLV_HDR_SIZE then some (true,c)
    else
      let hdr := getHdr mem c.bufIdx
      let c' := {c with reads := c.reads++[(c.bufIdx,WMI_TLV_HDR_SIZE)]}
      if len < c.bufIdx+WMI_TLV_HDR_SIZE+getTlvlen hdr then some (false,c')
      else
        match getAttributes attrList id c.passed.length with
        | some (.attr a) =>
          if getTlvtag hdr ≠ a.tagId then some (false,c')
          else
            let r := checkLength a mem (c.bufIdx+WMI_TLV_HDR_SIZE) (getTlvtag hdr) (getTlvlen hdr)
            let c'' := {c' with reads := c'.reads++r.2}
            if r.1 = false then some (false,c'')
            else if getTlvlen hdr % 4 ≠ 0 then some (false,c'')
            else
              checkLoop attrList id mem len fuel
                ⟨c.bufIdx+WMI_TLV_HDR_SIZE+getTlvlen hdr,c.passed++[c.bufIdx],c''.reads⟩
        | _ => some (false,c')

/-- What `wmitlv_check_tlv_params` returns, the TLVs it has passed, and what it has read. -/
structure CheckResult where
  ret : ℤ
  passed : List ℕ
  reads : List (ℕ × ℕ)

/-- `wmitlv_check_tlv_params` of `len` bytes. Each round of its loop takes at least a header. -/
def checkTlvParams (attrList : List ℕ) (id : ℕ) (mem : Mem) (len : ℕ) : Option CheckResult :=
  match getAttributes attrList id WMITLV_GET_ATTRIB_NUM_TLVS with
  | some (.numTlvs _) =>
    (checkLoop attrList id mem len (len/4+1) ⟨0,[],[]⟩).map fun r =>
      ⟨if r.1 then 0 else -1,r.2.passed,r.2.reads⟩
  | _ => some ⟨-1,[],[]⟩

/-- The tables whose arrays of structures have any length. -/
structure StrucsVary (ms : List Message) : Prop where
  varied : ∀ m ∈ ms,∀ a ∈ m.tlvs,a.tagId = WMITLV_TAG_ARRAY_STRUC → a.varied = true

/-- The variable-length arrays that the decoder handles. -/
def Attr.Handled (a : Attr) : Prop :=
  a.varied = true → a.tagId = WMITLV_TAG_ARRAY_UINT32 ∨ a.tagId = WMITLV_TAG_ARRAY_BYTE ∨
    a.tagId = WMITLV_TAG_ARRAY_STRUC ∨ a.tagId = WMITLV_TAG_ARRAY_FIXED_STRUC

/-- The elements of a TLV that passes: a structure is one if there is a byte behind its header. -/
def elements (a : Attr) (tlvLen : ℕ) : ℕ :=
  if a.varied then tlvLen/a.structSize
  else if isArrayTag a.tagId then a.arraySize
  else if 0 < tlvLen then 1
  else 0

/-- The entry of a TLV as it stands in the buffer. -/
def inPlace (mem : Mem) (a : Attr) (idx : ℕ) : ParamInfo where
  tlvPtr := if a.varied ∧ tlvLenAt mem idx = 0 then .null else .buf (startOf a idx)
  numElements := elements a (tlvLenAt mem idx)
  bufIsAllocated := false

section Tlv

variable {a : Attr} {mem : Mem} {idx len : ℕ}

/-- The structures that pass have the size of the table, which has room for a header. -/
theorem checkInner_passes {n p : ℕ} (h : (checkInner a mem n p).1 = true) :
    (n ≠ 0 → inTlvLen mem p = a.structSize) ∧
      InBounds (p+n*a.structSize) (checkInner a mem n p).2 := by
  induction n generalizing p with
  | zero => exact ⟨fun hn => absurd rfl hn,inBounds_nil _⟩
  | succ n ih =>
    rw [checkInner] at h ⊢
    by_cases hsize : inTlvLen mem p = a.structSize
    · rw [if_neg (not_not.mpr hsize)] at h ⊢
      have hle : WMI_TLV_HDR_SIZE ≤ a.structSize := by
        rw [← hsize,inTlvLen]
        exact Nat.le_add_left _ _
      refine ⟨fun _ => hsize,?_⟩
      have hrest := (ih h).2
      have hend : p+inTlvLen mem p+n*a.structSize = p+(n+1)*a.structSize := by
        rw [hsize,Nat.succ_mul]
        omega
      rw [hend] at hrest
      have hhead : p+WMI_TLV_HDR_SIZE ≤ p+(n+1)*a.structSize := by
        rw [Nat.succ_mul]
        omega
      exact inBounds_append (inBounds_singleton hhead) hrest
    · rw [if_pos hsize] at h
      cases h

/-- An array of structures that passes is empty or starts with a structure of the table's size. -/
theorem checkLength_struc (h : a.Valid) (hvar : a.varied = true)
    (htag : a.tagId = WMITLV_TAG_ARRAY_STRUC) {p tlvLen : ℕ}
    (hc : (checkLength a mem p a.tagId tlvLen).1 = true) (hne : tlvLen ≠ 0) :
    inTlvLen mem p = a.structSize ∧ a.structSize ≤ tlvLen := by
  have harr : isArrayTag a.tagId = true := by rw [htag]; rfl
  rw [checkLength,if_pos harr,if_neg (by rw [hvar]; decide)] at hc
  have hsize : a.arraySize = WMITLV_ARR_SIZE_INVALID := by
    by_contra hsize
    rw [if_pos hsize] at hc
    cases hc
  rw [if_neg (not_not.mpr hsize),if_pos hne,if_pos htag] at hc
  have hmod : tlvLen % a.structSize = 0 := by
    by_contra hmod
    rw [if_pos hmod] at hc
    cases hc
  rw [if_neg (not_not.mpr hmod)] at hc
  have hdvd : a.structSize ∣ tlvLen := Nat.dvd_of_mod_eq_zero hmod
  have hle : a.structSize ≤ tlvLen := Nat.le_of_dvd (Nat.pos_of_ne_zero hne) hdvd
  have hnum : tlvLen/a.structSize ≠ 0 :=
    (Nat.div_pos hle (Nat.pos_of_ne_zero h.size)).ne'
  exact ⟨(checkInner_passes hc).1 hnum,hle⟩

theorem inBounds_checkLength {p tag tlvLen : ℕ} (hlen : p+tlvLen ≤ len)
    (hc : (checkLength a mem p tag tlvLen).1 = true) :
    InBounds len (checkLength a mem p tag tlvLen).2 := by
  rw [checkLength] at hc ⊢
  split
  · rename_i harr
    rw [if_pos harr] at hc
    split
    · split <;> exact inBounds_nil len
    · rename_i hvar
      rw [if_neg hvar] at hc
      split
      · exact inBounds_nil len
      · rename_i hsize
        rw [if_neg hsize] at hc
        split
        · rename_i hne
          rw [if_pos hne] at hc
          split
          · exact inBounds_nil len
          · rename_i hmod
            rw [if_neg hmod] at hc
            split
            · rename_i hstruc
              rw [if_pos hstruc] at hc
              have hle : tlvLen/a.structSize*a.structSize ≤ tlvLen := Nat.div_mul_le_self ..
              intro r hr
              exact ((checkInner_passes hc).2 r hr).trans (by omega)
            · exact inBounds_nil len
        · exact inBounds_nil len
  · exact inBounds_nil len

/-- The sizes of a TLV that passes: nothing is missing, and an array of structures fits exactly. -/
theorem tlvSizes_of_passes (h : a.Valid)
    (hstruc : a.tagId = WMITLV_TAG_ARRAY_STRUC → a.varied = true) (hhandled : a.Handled)
    (hc : (checkLength a mem (idx+WMI_TLV_HDR_SIZE) a.tagId (tlvLenAt mem idx)).1 = true) :
    ∃ diff : ℤ,tlvSizes a mem (startOf a idx) (currLen a mem idx) =
        some (diff,elements a (tlvLenAt mem idx)) ∧ 0 ≤ diff ∧ copiesStructs a diff = false := by
  rcases h.kind with hk | hk | hk
  · have hne : a.tagId ≠ WMITLV_TAG_ARRAY_STRUC := by
      intro hh
      have htag := hk.tag
      rw [hh] at htag
      cases htag
    rw [checkLength,if_neg (by rw [hk.tag]; decide)] at hc
    have hsize : tlvLenAt mem idx+WMI_TLV_HDR_SIZE = a.structSize := of_decide_eq_true hc
    have hcurr : currLen a mem idx = tlvLenAt mem idx+WMI_TLV_HDR_SIZE := by
      rw [currLen,if_neg (by rw [hk.tag]; decide)]
    have helem : elements a (tlvLenAt mem idx) = if 0 < tlvLenAt mem idx then 1 else 0 := by
      rw [elements,if_neg (by rw [hk.fixed]; decide),if_neg (by rw [hk.tag]; decide)]
    refine ⟨0,?_,le_rfl,by simp [copiesStructs]⟩
    rw [tlvSizes,if_pos hk.fixed,if_pos hk.noSize,hcurr,helem,← hsize]
    simp
  · have hne : a.tagId ≠ WMITLV_TAG_ARRAY_STRUC := by
      intro hh
      have hvar := hstruc hh
      rw [hk.fixed] at hvar
      cases hvar
    have hcurr : currLen a mem idx = tlvLenAt mem idx := if_pos hk.tag
    rw [checkLength,if_pos hk.tag,if_pos hk.fixed,if_neg hk.size] at hc
    have hlen : a.structSize*a.arraySize ≤ tlvLenAt mem idx := by
      rw [of_decide_eq_true hc,Nat.mul_comm,roundup4]
      split <;> omega
    refine ⟨(tlvLenAt mem idx : ℤ)-(a.structSize*a.arraySize : ℕ),?_,by omega,?_⟩
    · rw [tlvSizes,if_pos hk.fixed,if_neg hk.size,hcurr,elements,
        if_neg (by rw [hk.fixed]; decide),if_pos hk.tag]
    · rw [copiesStructs]
      simp [hne]
  · have hfix : ¬a.varied = false := by rw [hk.varied]; decide
    have hcurr : currLen a mem idx = tlvLenAt mem idx := if_pos hk.tag
    have hstart : startOf a idx = idx+WMI_TLV_HDR_SIZE := if_pos hk.tag
    have helem : elements a (tlvLenAt mem idx) = tlvLenAt mem idx/a.structSize :=
      if_pos hk.varied
    refine ⟨0,?_,le_rfl,by simp [copiesStructs]⟩
    rw [tlvSizes,if_neg hfix,hcurr,hstart,helem]
    by_cases htag : a.tagId = WMITLV_TAG_ARRAY_STRUC
    · rw [if_pos htag]
      by_cases hzero : tlvLenAt mem idx = 0
      · rw [if_neg (not_not.mpr hzero),hzero,Nat.zero_div]
      · obtain ⟨hin,hle⟩ := checkLength_struc h hk.varied htag hc hzero
        rw [if_pos hzero,hin,if_neg (not_lt.mpr hle),sub_self]
    · have hkind : a.tagId = WMITLV_TAG_ARRAY_UINT32 ∨ a.tagId = WMITLV_TAG_ARRAY_BYTE ∨
          a.tagId = WMITLV_TAG_ARRAY_FIXED_STRUC := by
        rcases hhandled hk.varied with hh | hh | hh | hh
        · exact .inl hh
        · exact .inr (.inl hh)
        · exact absurd hh htag
        · exact .inr (.inr hh)
      rw [if_neg htag,if_pos hkind]

/-- A TLV that passes is presented where it stands, and nothing is allocated for it. -/
theorem decodeTlv_inPlace (allocOk : ℕ → Bool) (h : a.Valid)
    (hstruc : a.tagId = WMITLV_TAG_ARRAY_STRUC → a.varied = true) (hhandled : a.Handled)
    (hc : (checkLength a mem (idx+WMI_TLV_HDR_SIZE) a.tagId (tlvLenAt mem idx)).1 = true)
    (hlen : idx+WMI_TLV_HDR_SIZE+tlvLenAt mem idx ≤ len) (d : Dec) :
    ∃ reads,decodeTlv allocOk a mem (startOf a idx) (currLen a mem idx) d =
        (true,{
          bufIdx := idx+WMI_TLV_HDR_SIZE+tlvLenAt mem idx
          entries := d.entries++[inPlace mem a idx]
          reads := d.reads++reads
          attempts := d.attempts
          allocated := d.allocated}) ∧ InBounds len reads := by
  obtain ⟨diff,hsizes,hdiff,hcopy⟩ := tlvSizes_of_passes h hstruc hhandled hc
  have hend := startOf_add a mem idx
  have halloc : allocates a diff = false := by
    rw [allocates,if_neg (by rw [hcopy]; decide)]
    exact decide_eq_false (not_lt.mpr hdiff)
  have hnull : (a.varied = true ∧ currLen a mem idx = 0) ↔
      (a.varied = true ∧ tlvLenAt mem idx = 0) := by
    refine and_congr_right fun hvar => ?_
    rcases h.kind with hk | hk | hk
    · rw [hk.fixed] at hvar
      cases hvar
    · rw [hk.fixed] at hvar
      cases hvar
    · rw [currLen,if_pos hk.tag]
  have hhdr : HasHeader a (currLen a mem idx) := by
    intro hvar htag
    have harr : isArrayTag a.tagId = true := by rw [htag]; rfl
    rw [currLen,if_pos harr]
    by_cases hzero : tlvLenAt mem idx = 0
    · exact .inl hzero
    · obtain ⟨hin,hle⟩ := checkLength_struc h hvar htag hc hzero
      refine .inr (le_trans ?_ hle)
      rw [← hin,inTlvLen]
      exact Nat.le_add_left _ _
  refine ⟨sizesReads a (startOf a idx) (currLen a mem idx),?_,
    inBounds_sizesReads hhdr (hend.trans_le hlen)⟩
  simp only [decodeTlv,hsizes,present,presentReads,hcopy,hdiff,halloc,hend,hnull,inPlace,
    if_true,if_false,Bool.false_eq_true,List.append_nil,Bool.toNat_false,Nat.add_zero]

end Tlv

section Loop

variable {words : List ℕ} {id : ℕ} {mem : Mem} {len fuel : ℕ} {c c' : Chk}

/-- A round of the loop that the check survives. -/
structure Round (words : List ℕ) (id : ℕ) (mem : Mem) (len : ℕ) (c : Chk) (a : Attr) : Prop where
  attr : getAttributes words id c.passed.length = some (.attr a)
  tag : getTlvtag (getHdr mem c.bufIdx) = a.tagId
  fits : c.bufIdx+WMI_TLV_HDR_SIZE+tlvLenAt mem c.bufIdx ≤ len
  passes : (checkLength a mem (c.bufIdx+WMI_TLV_HDR_SIZE) a.tagId (tlvLenAt mem c.bufIdx)).1 = true

/-- The state after it -/
def Chk.next (c : Chk) (mem : Mem) (a : Attr) : Chk where
  bufIdx := c.bufIdx+WMI_TLV_HDR_SIZE+tlvLenAt mem c.bufIdx
  passed := c.passed++[c.bufIdx]
  reads := c.reads++[(c.bufIdx,WMI_TLV_HDR_SIZE)]++
    (checkLength a mem (c.bufIdx+WMI_TLV_HDR_SIZE) a.tagId (tlvLenAt mem c.bufIdx)).2

/-- A check that accepts ends for want of room, or survives a round. -/
theorem checkLoop_accepts (h : checkLoop words id mem len (fuel+1) c = some (true,c')) :
    (len < c.bufIdx+WMI_TLV_HDR_SIZE ∧ c' = c) ∨
      ¬len < c.bufIdx+WMI_TLV_HDR_SIZE ∧ ∃ a,Round words id mem len c a ∧
        checkLoop words id mem len fuel (c.next mem a) = some (true,c') := by
  rw [checkLoop] at h
  by_cases hroom : len < c.bufIdx+WMI_TLV_HDR_SIZE
  · rw [if_pos hroom] at h
    obtain rfl := congrArg Prod.snd (Option.some.inj h)
    exact .inl ⟨hroom,rfl⟩
  rw [if_neg hroom] at h
  refine .inr ⟨hroom,?_⟩
  dsimp only at h
  by_cases hfits : len < c.bufIdx+WMI_TLV_HDR_SIZE+getTlvlen (getHdr mem c.bufIdx)
  · rw [if_pos hfits] at h
    cases h
  rw [if_neg hfits] at h
  split at h
  · rename_i a hattr
    by_cases htag : getTlvtag (getHdr mem c.bufIdx) = a.tagId
    · rw [if_neg (not_not.mpr htag),htag] at h
      cases hpass : (checkLength a mem (c.bufIdx+WMI_TLV_HDR_SIZE) a.tagId
          (getTlvlen (getHdr mem c.bufIdx))).1 with
      | true =>
        rw [hpass,if_neg (by decide)] at h
        split at h
        · cases h
        · exact ⟨a,⟨hattr,htag,not_lt.mp hfits,hpass⟩,h⟩
      | false =>
        rw [hpass,if_pos rfl] at h
        cases h
    · rw [if_pos htag] at h
      cases h
  · cases h

/-- The loop of the decoder takes the same round. -/
theorem decodeLoop_round (allocOk : ℕ → Bool) {a : Attr} (hr : Round words id mem len c a)
    (hroom : ¬len < c.bufIdx+WMI_TLV_HDR_SIZE) {d d' : Dec} (hidx : d.bufIdx = c.bufIdx)
    (hlength : d.entries.length = c.passed.length)
    (hdec : decodeTlv allocOk a mem (startOf a c.bufIdx) (currLen a mem c.bufIdx)
      {d with reads := d.reads++[(d.bufIdx,WMI_TLV_HDR_SIZE)]} = (true,d')) (n : ℕ) :
    decodeLoop allocOk words id mem len (n+1) d = decodeLoop allocOk words id mem len n d' := by
  obtain ⟨idx,entries,reads,attempts,allocated⟩ := d
  subst hidx
  have hfits : ¬len-(c.bufIdx+WMI_TLV_HDR_SIZE) < getTlvlen (getHdr mem c.bufIdx) := by
    have hh := hr.fits
    rw [tlvLenAt] at hh
    omega
  have hattr := hr.attr
  rw [← hlength] at hattr
  rw [decodeLoop,if_neg hroom]
  dsimp only at hattr ⊢
  rw [if_neg hfits,hattr]
  dsimp only
  rw [if_neg (not_not.mpr hr.tag),hr.tag]
  have hsame : (if isArrayTag a.tagId then
      decodeTlv allocOk a mem (c.bufIdx+WMI_TLV_HDR_SIZE) (getTlvlen (getHdr mem c.bufIdx))
        ⟨c.bufIdx,entries,reads++[(c.bufIdx,WMI_TLV_HDR_SIZE)],attempts,allocated⟩
      else decodeTlv allocOk a mem c.bufIdx (getTlvlen (getHdr mem c.bufIdx)+WMI_TLV_HDR_SIZE)
        ⟨c.bufIdx,entries,reads++[(c.bufIdx,WMI_TLV_HDR_SIZE)],attempts,allocated⟩) =
      (true,d') := by
    rw [← hdec,startOf,currLen,tlvLenAt]
    split <;> rfl
  rw [hsame]
  rfl

/-- Where the check accepts, the decoder passes the same TLVs and presents them in place. -/
theorem checkLoop_decodes (allocOk : ℕ → Bool) {as : List Attr} (hvalid : ∀ a ∈ as,a.Valid)
    (hstruc : ∀ a ∈ as,a.tagId = WMITLV_TAG_ARRAY_STRUC → a.varied = true)
    (hhandled : ∀ a ∈ as,a.Handled) {d : Dec} (hidx : d.bufIdx = c.bufIdx)
    (hlength : d.entries.length = c.passed.length)
    (hattrs : AttrsFrom words id c.passed.length as)
    (hend : getAttributes words id (c.passed.length+as.length) = none)
    (hreads : InBounds len c.reads) (hreads' : InBounds len d.reads)
    (h : checkLoop words id mem len fuel c = some (true,c')) :
    ∃ idxs reads,c'.passed = c.passed++idxs ∧ idxs.length ≤ as.length ∧ InBounds len c'.reads ∧
      InBounds len reads ∧ decodeLoop allocOk words id mem len as.length d =
        (true,⟨c'.bufIdx,d.entries++List.zipWith (inPlace mem) as idxs,reads,d.attempts,
          d.allocated⟩) := by
  induction as generalizing fuel c d with
  | nil =>
    cases fuel with
    | zero => nomatch h
    | succ fuel =>
      rcases checkLoop_accepts h with ⟨-,rfl⟩ | ⟨-,a,hr,-⟩
      · refine ⟨[],d.reads,(List.append_nil _).symm,le_rfl,hreads,hreads',?_⟩
        rw [← hidx,List.zipWith_nil_left,List.append_nil]
        rfl
      · have hattr := hr.attr
        rw [List.length_nil,Nat.add_zero] at hend
        rw [hend] at hattr
        cases hattr
  | cons a as ih =>
    cases fuel with
    | zero => nomatch h
    | succ fuel =>
      rcases checkLoop_accepts h with ⟨hroom,rfl⟩ | ⟨hroom,b,hr,hnext⟩
      · refine ⟨[],d.reads,(List.append_nil _).symm,Nat.zero_le _,hreads,hreads',?_⟩
        rw [List.length_cons,decodeLoop,hidx,if_pos hroom,← hidx,List.zipWith_nil_right,
          List.append_nil]
      · have hab : b = a := by
          have hattr := hattrs 0 a rfl
          rw [Nat.add_zero,hr.attr] at hattr
          exact Attributes.attr.inj (Option.some.inj hattr)
        subst hab
        have hhead : InBounds len [(c.bufIdx,WMI_TLV_HDR_SIZE)] :=
          inBounds_singleton (not_lt.mp hroom)
        obtain ⟨reads,hdec,hin⟩ := decodeTlv_inPlace allocOk (hvalid b List.mem_cons_self)
          (hstruc b List.mem_cons_self) (hhandled b List.mem_cons_self) hr.passes hr.fits
          {d with reads := d.reads++[(d.bufIdx,WMI_TLV_HDR_SIZE)]}
        have hlen : (c.next mem b).passed.length = c.passed.length+1 := by
          rw [Chk.next,List.length_append,List.length_singleton]
        have hround := decodeLoop_round allocOk hr hroom hidx hlength hdec as.length
        have hlen' : (d.entries++[inPlace mem b c.bufIdx]).length =
            (c.next mem b).passed.length := by
          rw [hlen,List.length_append,List.length_singleton,hlength]
        have hall : InBounds len (d.reads++[(d.bufIdx,WMI_TLV_HDR_SIZE)]++reads) :=
          inBounds_append (inBounds_append hreads' (by rw [hidx]; exact hhead)) hin
        obtain ⟨idxs,reads',hpassed,hle,hcin,hdin,hrest⟩ := ih
          (fun x hx => hvalid x (List.mem_cons_of_mem _ hx))
          (fun x hx => hstruc x (List.mem_cons_of_mem _ hx))
          (fun x hx => hhandled x (List.mem_cons_of_mem _ hx))
          (c := c.next mem b) (d := ⟨c.bufIdx+WMI_TLV_HDR_SIZE+tlvLenAt mem c.bufIdx,
            d.entries++[inPlace mem b c.bufIdx],d.reads++[(d.bufIdx,WMI_TLV_HDR_SIZE)]++reads,
            d.attempts,d.allocated⟩) rfl hlen'
          (by rw [hlen]; exact hattrs.tail)
          (by rw [hlen,Nat.add_assoc,Nat.add_comm 1]; exact hend)
          (inBounds_append (inBounds_append hreads hhead)
            (inBounds_checkLength hr.fits hr.passes)) hall hnext
        refine ⟨c.bufIdx::idxs,reads',?_,Nat.succ_le_succ hle,hcin,hdin,?_⟩
        · rw [hpassed,Chk.next,List.append_assoc]
          rfl
        · rw [List.length_cons,hround,hrest,List.zipWith_cons_cons,List.append_assoc]
          rfl

/-- Each round takes at least a header, so that the fuel suffices. -/
theorem checkLoop_returns (h : len < c.bufIdx+WMI_TLV_HDR_SIZE*(fuel+1)) :
    (checkLoop words id mem len (fuel+1) c).isSome := by
  induction fuel generalizing c with
  | zero =>
    have hroom : len < c.bufIdx+WMI_TLV_HDR_SIZE := by omega
    rw [checkLoop,if_pos hroom]
    rfl
  | succ fuel ih =>
    rw [checkLoop]
    split
    · rfl
    dsimp only
    split
    · rfl
    split
    · split
      · rfl
      split
      · rfl
      split
      · rfl
      apply ih
      rw [WMI_TLV_HDR_SIZE] at h ⊢
      dsimp only
      omega
    · rfl

end Loop

section Message

variable {ms : List Message} {id : ℕ}

/-- Behind the last TLV of the message there are no attributes. -/
theorem getAttributes_none (hlen : ∀ m ∈ ms,m.tlvs.length < 2^8) {m : Message}
    (hm : lookup ms id = some m) : getAttributes (attrList ms) id m.tlvs.length = none := by
  unfold getAttributes
  unfold lookup at hm
  induction ms with
  | nil => cases hm
  | cons m' ms ih =>
    have hnum := getNumTlvs_setAttrb0 (hlen m' List.mem_cons_self)
    rw [attrList,getAttributesLoop,getCmdid_setAttrb0,hnum]
    rw [List.find?_cons] at hm
    by_cases hid : getCmdid id = getCmdid m'.id
    · simp only [hid,decide_true,Option.some.injEq] at hm
      subst hm
      have hbyte := hlen m' List.mem_cons_self
      have hord : m'.tlvs.length ≠ WMITLV_GET_ATTRIB_NUM_TLVS := by
        unfold WMITLV_GET_ATTRIB_NUM_TLVS
        omega
      rw [if_pos hid,if_neg hord,if_pos le_rfl]
    · have hskip := getAttributesLoop_skip id m.tlvs.length (m'.tlvs.map setAttrb1)
        (attrList ms)
      rw [List.length_map] at hskip
      simp only [hid,decide_false] at hm
      rw [if_neg hid,hskip]
      exact ih (fun x hx => hlen x (List.mem_cons_of_mem _ hx)) hm

/-- The check always returns. -/
theorem checkTlvParams_returns (words : List ℕ) (id : ℕ) (mem : Mem) (len : ℕ) :
    (checkTlvParams words id mem len).isSome := by
  unfold checkTlvParams
  split
  · have hfuel : len < (⟨0,[],[]⟩ : Chk).bufIdx+WMI_TLV_HDR_SIZE*(len/4+1) := by
      rw [WMI_TLV_HDR_SIZE]
      dsimp only
      omega
    rw [Option.isSome_map]
    exact checkLoop_returns hfuel
  · rfl

/-- The decoder's result `r` is the message `m` as it stands in the buffer, with the TLVs that the
check `c` has passed; the buffer suffices for both. -/
structure AsSent (m : Message) (mem : Mem) (len : ℕ) (c : CheckResult) (r : Result) : Prop where
  ret : r.ret = 0
  length : c.passed.length ≤ m.tlvs.length
  out : r.out = some (List.zipWith (inPlace mem) m.tlvs c.passed++
    List.replicate (m.tlvs.length-c.passed.length) ParamInfo.zero)
  -- the array of the entries and nothing else
  allocated : r.allocated = [0]
  freed : r.freed = []
  checkReads : InBounds len c.reads
  reads : InBounds len r.reads

/-- A message that passes the check is decoded as it has been sent. -/
theorem checked_decodes {ms : List Message} (h : ValidTable ms) (hs : StrucsVary ms)
    (hh : ∀ m ∈ ms,∀ a ∈ m.tlvs,a.Handled) (allocOk : ℕ → Bool) (halloc : allocOk 0 = true)
    (id : ℕ) (mem : Mem) {len : ℕ} (hlen : WMI_TLV_HDR_SIZE ≤ len)
    (out : Option (List ParamInfo)) :
    ∃ c,checkTlvParams (attrList ms) id mem len = some c ∧ (c.ret = 0 →
      ∃ m,lookup ms id = some m ∧
        AsSent m mem len c (checkAndPadTlvs allocOk (attrList ms) id mem len out)) := by
  obtain ⟨c,hc⟩ := Option.isSome_iff_exists.mp (checkTlvParams_returns (attrList ms) id mem len)
  refine ⟨c,hc,fun hret => ?_⟩
  have hfits : ∀ m ∈ ms,∀ a ∈ m.tlvs,a.Fits := fun m hm a ha => (h.valid m hm a ha).fits
  unfold checkTlvParams at hc
  unfold checkAndPadTlvs
  rw [getAttributes_numTlvs h.length] at hc ⊢
  cases hm : lookup ms id with
  | none =>
    rw [hm] at hc
    obtain rfl := Option.some.inj hc
    cases hret
  | some m =>
    rw [hm] at hc
    simp only [Option.map_some] at hc ⊢
    rw [if_neg (not_lt.mpr hlen),if_neg (by rw [halloc]; decide)]
    obtain ⟨r,hr,rfl⟩ := Option.map_eq_some_iff.mp hc
    have hacc : r.1 = true := by
      cases hb : r.1 with
      | true => rfl
      | false =>
        rw [hb] at hret
        cases hret
    have hmem : m ∈ ms := List.mem_of_find?_eq_some hm
    have hattrs : AttrsFrom (attrList ms) id 0 m.tlvs := fun j a ha => by
      rw [Nat.zero_add]
      exact getAttributes_attr h.length hfits hm ha
    have hend : getAttributes (attrList ms) id (0+m.tlvs.length) = none := by
      rw [Nat.zero_add]
      exact getAttributes_none h.length hm
    have hr' : checkLoop (attrList ms) id mem len (len/4+1) ⟨0,[],[]⟩ = some (true,r.2) := by
      rw [hr,← hacc]
    obtain ⟨idxs,reads,hpassed,hle,hcin,hdin,hdec⟩ := checkLoop_decodes allocOk (h.valid m hmem)
      (hs.varied m hmem) (hh m hmem) (d := ⟨0,[],[],1,[0]⟩) rfl rfl hattrs hend
      (inBounds_nil len) (inBounds_nil len) hr'
    have hidxs : r.2.passed = idxs := hpassed
    have hzip : (List.zipWith (inPlace mem) m.tlvs idxs).length = idxs.length := by
      rw [List.length_zipWith,Nat.min_eq_right hle]
    rw [hdec]
    refine ⟨m,rfl,rfl,hidxs.symm ▸ hle,?_,rfl,rfl,hcin,hdin⟩
    dsimp only
    rw [hidxs,if_pos rfl,List.nil_append,hzip]

end Message

section Examples

theorem strucsVary_sample : StrucsVary sampleTable := ⟨by decide⟩

/-- A structure of 8 bytes, and an array of two of them. -/
def sentMessage : Mem :=
  bytesAt [4,0,40,0,1,2,3,4,16,0,18,0,4,0,41,0,1,2,3,4,4,0,41,0,5,6,7,8]

theorem checked_decodes_sentMessage :
    (∃ c,checkTlvParams (attrList sampleTable) 0x1001 sentMessage 28 = some c ∧ (c.ret = 0 →
      ∃ m,lookup sampleTable 0x1001 = some m ∧ AsSent m sentMessage 28 c
        (checkAndPadTlvs (fun _ => true) (attrList sampleTable) 0x1001 sentMessage 28 none))) ∧
    (checkTlvParams (attrList sampleTable) 0x1001 sentMessage 28).map CheckResult.ret = some 0 ∧
    (checkAndPadTlvs (fun _ => true) (attrList sampleTable) 0x1001 sentMessage 28 none).out =
      some [⟨.buf 0,1,false⟩,⟨.buf 12,2,false⟩] :=
  ⟨checked_decodes validTable_sample strucsVary_sample (by unfold Attr.Handled; decide)
    (fun _ => true) rfl 0x1001 sentMessage (by decide) none,by decide,by decide⟩

/-- The check accepts what the decoder refuses. -/
def Refused (ms : List Message) (allocOk : ℕ → Bool) (id : ℕ) (mem : Mem) (len : ℕ) : Prop :=
  ValidTable ms ∧ StrucsVary ms ∧
    (checkTlvParams (attrList ms) id mem len).map CheckResult.ret = some 0 ∧
    (checkAndPadTlvs allocOk (attrList ms) id mem len none).ret ≠ 0

/-- A variable-length array with a tag that is kept for later. -/
def laterTable : List Message := [⟨0x1003,[⟨20,4,WMITLV_ARR_SIZE_INVALID,true⟩]⟩]

theorem validTable_later : ValidTable laterTable := by
  refine ⟨by decide,fun m hm a ha => ?_⟩
  rw [List.mem_singleton.mp hm] at ha
  rw [List.mem_singleton.mp ha]
  exact ⟨⟨by decide,by decide,by decide⟩,by decide,Or.inr (Or.inr ⟨rfl,rfl⟩)⟩

/-- A buffer without room for a header; no memory for the array of the entries; and an empty array
that the decoder does not handle. -/
theorem not_checked_decodes :
    Refused sampleTable (fun _ => true) 0x1001 (bytesAt []) 3 ∧
      Refused sampleTable (fun _ => false) 0x1001 sentMessage 28 ∧
      Refused laterTable (fun _ => true) 0x1003 (bytesAt [0,0,20,0]) 4 :=
  ⟨⟨validTable_sample,strucsVary_sample,by decide,by decide⟩,
    ⟨validTable_sample,strucsVary_sample,by decide,by decide⟩,
    validTable_later,⟨by decide⟩,by decide,by decide⟩

end Examples

end WmiTlv
end MarbleModules
