import MarbleModules.WmiTlvEntry

/-! The decoding of a whole message: each entry describes its TLV, nothing outside the buffer is read,
and what has been allocated is in the entries. -/
namespace MarbleModules
namespace WmiTlv
open TwoCursors PadChunks

/-- Where the bytes of a TLV begin that an entry presents: the header belongs to a structure. -/
def startOf (a : Attr) (idx : ℕ) : ℕ := if isArrayTag a.tagId then idx+WMI_TLV_HDR_SIZE else idx

/-- `curr_tlv_len` of the TLV at `idx`. -/
def currLen (a : Attr) (mem : Mem) (idx : ℕ) : ℕ :=
  if isArrayTag a.tagId then tlvLenAt mem idx else tlvLenAt mem idx+WMI_TLV_HDR_SIZE

section Tlv
variable {a : Attr} {mem : Mem} {idx len : ℕ} {diff : ℤ} {num : ℕ} {alloc : Option ℕ}
  {e : ParamInfo}

theorem startOf_add (a : Attr) (mem : Mem) (idx : ℕ) :
    startOf a idx+currLen a mem idx = idx+WMI_TLV_HDR_SIZE+tlvLenAt mem idx := by
  unfold startOf currLen
  split <;> omega

theorem describes_struct (h : a.IsStruct) (htag : getTlvtag (getHdr mem idx) = a.tagId)
    (hlen : idx+WMI_TLV_HDR_SIZE+tlvLenAt mem idx ≤ len)
    (hs : tlvSizes a mem (startOf a idx) (currLen a mem idx) = some (diff,num))
    (he : present a mem (startOf a idx) (currLen a mem idx) diff num alloc = some e) :
    Describes mem len a idx e := by
  have hstart : startOf a idx = idx := by simp [startOf,h.tag]
  have hcurr : currLen a mem idx = WMI_TLV_HDR_SIZE+tlvLenAt mem idx := by
    simp [currLen,h.tag,Nat.add_comm]
  have hcopy : copiesStructs a diff = false := by
    have hne : a.tagId ≠ WMITLV_TAG_ARRAY_STRUC := by
      intro hh
      have htag := h.tag
      rw [hh] at htag
      cases htag
    simp [copiesStructs,hne]
  rw [hstart,hcurr] at hs he
  rw [tlvSizes,if_pos h.fixed,if_pos h.noSize] at hs
  simp only [Option.some.injEq,Prod.mk.injEq] at hs
  obtain ⟨hcov,hview,hnum⟩ := present_whole len hcopy h.fixed hs.1.symm (by omega) he
  refine ⟨htag,fun _ => ⟨hcov,hview,?_⟩,fun h' => ?_,fun h' => ?_⟩
  · rw [hnum,← hs.2]
    simp
  · exact absurd h.noSize h'.size
  · exact absurd h'.varied (by simp [h.fixed])

theorem describes_fixedArray (h : a.IsFixedArray) (htag : getTlvtag (getHdr mem idx) = a.tagId)
    (hlen : idx+WMI_TLV_HDR_SIZE+tlvLenAt mem idx ≤ len)
    (hs : tlvSizes a mem (startOf a idx) (currLen a mem idx) = some (diff,num))
    (he : present a mem (startOf a idx) (currLen a mem idx) diff num alloc = some e) :
    Describes mem len a idx e := by
  have hstart : startOf a idx = idx+WMI_TLV_HDR_SIZE := by simp [startOf,h.tag]
  have hcurr : currLen a mem idx = tlvLenAt mem idx := by simp [currLen,h.tag]
  rw [hstart,hcurr] at hs he
  have hcopy : copiesStructs a diff = false := by
    by_contra hh
    rw [Bool.not_eq_false] at hh
    rw [present,if_pos hh,if_pos h.fixed] at he
    cases he
  rw [tlvSizes,if_pos h.fixed,if_neg h.size] at hs
  simp only [Option.some.injEq,Prod.mk.injEq] at hs
  obtain ⟨hcov,hview,hnum⟩ := present_whole len hcopy h.fixed hs.1.symm (by omega) he
  refine ⟨htag,fun h' => ?_,fun _ => ⟨hcov,hview,hnum.trans hs.2.symm⟩,fun h' => ?_⟩
  · exact absurd h'.noSize h.size
  · exact absurd h'.varied (by simp [h.fixed])

theorem describes_varArray (h : a.IsVarArray) (htag : getTlvtag (getHdr mem idx) = a.tagId)
    (hlen : idx+WMI_TLV_HDR_SIZE+tlvLenAt mem idx ≤ len)
    (hs : tlvSizes a mem (startOf a idx) (currLen a mem idx) = some (diff,num))
    (he : present a mem (startOf a idx) (currLen a mem idx) diff num alloc = some e) :
    Describes mem len a idx e := by
  have hstart : startOf a idx = idx+WMI_TLV_HDR_SIZE := by simp [startOf,h.tag]
  have hcurr : currLen a mem idx = tlvLenAt mem idx := by simp [currLen,h.tag]
  have hfix : ¬a.varied = false := by simp [h.varied]
  rw [hstart,hcurr] at hs he
  rw [tlvSizes,if_neg hfix] at hs
  refine ⟨htag,fun h' => absurd h'.fixed hfix,fun h' => absurd h'.fixed hfix,fun _ => ?_⟩
  by_cases hstruc : a.tagId = WMITLV_TAG_ARRAY_STRUC
  · have helem : elemSize a mem (idx+WMI_TLV_HDR_SIZE) = inTlvLen mem (idx+WMI_TLV_HDR_SIZE) :=
      if_pos hstruc
    rw [if_pos hstruc] at hs
    rw [helem]
    by_cases hzero : tlvLenAt mem idx = 0
    · rw [if_neg (not_not.mpr hzero)] at hs
      simp only [Option.some.injEq,Prod.mk.injEq] at hs
      obtain ⟨rfl,rfl⟩ := hs
      obtain ⟨hnum,hcov,hnull,_⟩ := present_inPlace len (by simp [copiesStructs]) h.varied
        rfl hlen (by rw [hzero,Nat.zero_div]) he
      refine ⟨by rw [hnum,hzero,Nat.zero_div],hnum.symm ▸ hcov,hnull,fun i hi => ?_⟩
      rw [hnum] at hi
      exact absurd hi (Nat.not_lt_zero i)
    · rw [if_pos hzero] at hs
      split at hs
      · cases hs
      · simp only [Option.some.injEq,Prod.mk.injEq] at hs
        obtain ⟨hdiff,rfl⟩ := hs
        cases hcopy : copiesStructs a diff with
        | true =>
          obtain ⟨hcov,hnum,hview⟩ := present_structs len hcopy hdiff.symm he
          exact ⟨hnum,hnum.symm ▸ hcov,fun hh => absurd hh hzero,fun i hi => hview i (hnum ▸ hi)⟩
        | false =>
          have hd : diff = 0 := by simpa [copiesStructs,hstruc] using hcopy
          have hin : inTlvLen mem (idx+WMI_TLV_HDR_SIZE) = a.structSize := by omega
          rw [hin] at he ⊢
          obtain ⟨hnum,hcov,hnull,hview⟩ := present_inPlace len hcopy h.varied hd hlen rfl he
          exact ⟨hnum,hnum.symm ▸ hcov,hnull,fun i hi => hview i (hnum ▸ hi)⟩
  · have helem : elemSize a mem (idx+WMI_TLV_HDR_SIZE) = a.structSize := if_neg hstruc
    rw [if_neg hstruc] at hs
    split at hs
    · simp only [Option.some.injEq,Prod.mk.injEq] at hs
      obtain ⟨rfl,rfl⟩ := hs
      rw [helem]
      obtain ⟨hnum,hcov,hnull,hview⟩ := present_inPlace len (by simp [copiesStructs])
        h.varied rfl hlen rfl he
      exact ⟨hnum,hnum.symm ▸ hcov,hnull,fun i hi => hview i (hnum ▸ hi)⟩
    · cases hs

/-- The entry of a decoded TLV describes it. -/
theorem describes (h : a.Valid) (htag : getTlvtag (getHdr mem idx) = a.tagId)
    (hlen : idx+WMI_TLV_HDR_SIZE+tlvLenAt mem idx ≤ len)
    (hs : tlvSizes a mem (startOf a idx) (currLen a mem idx) = some (diff,num))
    (he : present a mem (startOf a idx) (currLen a mem idx) diff num alloc = some e) :
    Describes mem len a idx e := by
  rcases h.kind with hk | hk | hk
  · exact describes_struct hk htag hlen hs he
  · exact describes_fixedArray hk htag hlen hs he
  · exact describes_varArray hk htag hlen hs he

end Tlv

section Reads
variable {a : Attr} {mem : Mem} {p currTlvLen len : ℕ} {diff : ℤ} {num : ℕ}

/-- The places lie in a buffer of `len` bytes. -/
def InBounds (len : ℕ) (reads : List (ℕ × ℕ)) : Prop := ∀ r ∈ reads,r.1+r.2 ≤ len

theorem inBounds_nil (len : ℕ) : InBounds len [] := by simp [InBounds]

theorem inBounds_append {len : ℕ} {rs rs' : List (ℕ × ℕ)} (h : InBounds len rs)
    (h' : InBounds len rs') : InBounds len (rs++rs') := by
  intro r hr
  rcases List.mem_append.mp hr with hr | hr
  · exact h r hr
  · exact h' r hr

theorem inBounds_singleton {len p n : ℕ} (h : p+n ≤ len) : InBounds len [(p,n)] := by
  intro r hr
  rw [List.mem_singleton.mp hr]
  exact h

/-- An array of structures is empty or has room for the header of its first structure. -/
def HasHeader (a : Attr) (tlvLen : ℕ) : Prop :=
  a.varied = true → a.tagId = WMITLV_TAG_ARRAY_STRUC → tlvLen = 0 ∨ WMI_TLV_HDR_SIZE ≤ tlvLen

theorem inBounds_sizesReads (hhdr : HasHeader a currTlvLen) (hlen : p+currTlvLen ≤ len) :
    InBounds len (sizesReads a p currTlvLen) := by
  unfold sizesReads
  split
  · rename_i h
    rcases hhdr h.1 h.2.1 with hzero | hle
    · exact absurd hzero h.2.2
    · exact inBounds_singleton (by omega)
  · exact inBounds_nil len

theorem inBounds_presentReads (hhdr : HasHeader a currTlvLen) (hlen : p+currTlvLen ≤ len)
    (hs : tlvSizes a mem p currTlvLen = some (diff,num)) (alloc : Option ℕ) :
    InBounds len (presentReads a mem p currTlvLen diff num alloc) := by
  unfold presentReads
  split
  · rename_i hcopy
    split
    · exact inBounds_nil len
    · rename_i hvar
      rw [Bool.not_eq_false] at hvar
      obtain ⟨hstruc,hd⟩ : a.tagId = WMITLV_TAG_ARRAY_STRUC ∧ diff ≠ 0 := by
        simpa [copiesStructs] using hcopy
      rw [tlvSizes,if_neg (by simp [hvar]),if_pos hstruc] at hs
      split at hs
      · rename_i hne
        split at hs
        · cases hs
        · simp only [Option.some.injEq,Prod.mk.injEq] at hs
          obtain ⟨hdiff,hnum⟩ := hs
          have h4 := (hhdr hvar hstruc).resolve_left hne
          have hcopyLen : copyLen a mem p diff ≤ inTlvLen mem p := by
            unfold copyLen
            split <;> omega
          have hcopies : InBounds len ((List.range num).map fun i =>
              (p+i*inTlvLen mem p,copyLen a mem p diff)) := by
            intro r hr
            obtain ⟨i,hi,rfl⟩ := List.mem_map.mp hr
            have hmul : (i+1)*inTlvLen mem p ≤ currTlvLen := by
              rw [List.mem_range] at hi
              have hle : i+1 ≤ currTlvLen/inTlvLen mem p := by omega
              exact (Nat.mul_le_mul_right _ hle).trans (Nat.div_mul_le_self ..)
            rw [Nat.add_mul,Nat.one_mul] at hmul
            show p+i*inTlvLen mem p+copyLen a mem p diff ≤ len
            omega
          have hhead : InBounds len [(p,WMI_TLV_HDR_SIZE)] := inBounds_singleton (by omega)
          cases alloc with
          | none => exact hhead
          | some _ => exact inBounds_append hhead hcopies
      · simp only [Option.some.injEq,Prod.mk.injEq] at hs
        exact absurd hs.1.symm hd
  · split
    · exact inBounds_nil len
    · split
      · exact inBounds_singleton hlen
      · exact inBounds_nil len

end Reads

section Buffers
variable {a : Attr} {mem : Mem} {p currTlvLen : ℕ} {diff : ℤ} {num : ℕ}

/-- The buffer that an entry owns. -/
def ParamInfo.owned (e : ParamInfo) : Option ℕ :=
  match e.tlvPtr with
  | .alloc id _ => if e.bufIsAllocated then some id else none
  | _ => none

theorem freeAllocatedTlvs_eq (entries : List ParamInfo) :
    freeAllocatedTlvs entries = entries.filterMap ParamInfo.owned++[0] := rfl

/-- An entry owns the buffer that has been allocated for it. -/
theorem owned_present {alloc : Option ℕ} {e : ParamInfo}
    (he : present a mem p currTlvLen diff num alloc = some e) :
    if allocates a diff then ∃ id,alloc = some id ∧ e.owned = some id else e.owned = none := by
  unfold present at he
  unfold allocates
  by_cases hcopy : copiesStructs a diff = true
  · rw [if_pos hcopy] at he ⊢
    split at he
    · cases he
    · rename_i hvar
      rw [if_pos (by simpa using hvar)]
      obtain ⟨id,rfl,rfl⟩ := Option.map_eq_some_iff.mp he
      exact ⟨id,rfl,rfl⟩
  · rw [if_neg hcopy] at he ⊢
    by_cases hd : 0 ≤ diff
    · rw [if_pos hd] at he
      rw [if_neg (by simpa using hd)]
      cases he
      unfold ParamInfo.owned
      split <;> rfl
    · rw [if_neg hd] at he
      rw [if_pos (by simpa using hd)]
      obtain ⟨id,rfl,rfl⟩ := Option.map_eq_some_iff.mp he
      exact ⟨id,rfl,rfl⟩

/-- Every buffer that has been allocated is owned by one entry, or is the array of the entries. -/
structure Books (d : Dec) : Prop where
  perm : List.Perm (freeAllocatedTlvs d.entries) d.allocated
  nodup : d.allocated.Nodup
  lt : ∀ id ∈ d.allocated,id < d.attempts

theorem books_step {d : Dec} (h : Books d) {e : ParamInfo} {b : Bool}
    (he : e.owned = if b then some d.attempts else none) (bufIdx : ℕ) (reads : List (ℕ × ℕ)) :
    Books {
      bufIdx := bufIdx
      entries := d.entries++[e]
      reads := reads
      attempts := d.attempts+b.toNat
      allocated := if b then d.allocated++[d.attempts] else d.allocated} := by
  have hperm := h.perm
  rw [freeAllocatedTlvs_eq] at hperm
  cases b with
  | false =>
    refine ⟨?_,h.nodup,fun id hid => h.lt id hid⟩
    rw [freeAllocatedTlvs_eq,List.filterMap_append]
    simpa [List.filterMap_cons,he] using hperm
  | true =>
    refine ⟨?_,?_,fun id hid => ?_⟩
    · rw [freeAllocatedTlvs_eq,List.filterMap_append]
      simp only [if_true] at he ⊢
      have hsingle : [e].filterMap ParamInfo.owned = [d.attempts] := by simp [he]
      rw [hsingle,List.append_assoc]
      refine List.Perm.trans ?_ (hperm.append_right _)
      rw [List.append_assoc]
      exact List.Perm.append_left _ List.perm_append_comm
    · refine List.nodup_append.mpr ⟨h.nodup,List.nodup_singleton _,fun x hx y hy => ?_⟩
      rw [List.mem_singleton.mp hy]
      exact (h.lt x hx).ne
    · have hlt := h.lt id
      rcases List.mem_append.mp hid with hid | hid
      · exact (hlt hid).trans_le (Nat.le_add_right ..)
      · rw [List.mem_singleton.mp hid]
        exact Nat.lt_succ_self _

/-- Entries that are still zero own nothing. -/
theorem freeAllocatedTlvs_zeros (entries : List ParamInfo) (n : ℕ) :
    freeAllocatedTlvs (entries++List.replicate n ParamInfo.zero) = freeAllocatedTlvs entries := by
  have hnone : (List.replicate n ParamInfo.zero).filterMap ParamInfo.owned = [] := by
    rw [List.filterMap_eq_nil_iff]
    intro e he
    rw [List.eq_of_mem_replicate he]
    rfl
  rw [freeAllocatedTlvs_eq,List.filterMap_append,hnone,List.append_nil,freeAllocatedTlvs_eq]

end Buffers

end WmiTlv
end MarbleModules
