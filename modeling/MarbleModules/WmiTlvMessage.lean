import MarbleModules.WmiTlvDecode

/-! The result of a message: on success an entry for each TLV of the table, on failure nothing that is
still allocated. -/
namespace MarbleModules
namespace WmiTlv
open TwoCursors

/-- Entry by entry, a TLV of the buffer and its attributes; where the buffer has no more TLVs, the
entries are zero. -/
def DescribesAll (mem : Mem) (len : ℕ) : List Attr → ℕ → List ParamInfo → Prop
  | [],_,es => es = []
  | a::as,idx,es =>
    if idx+WMI_TLV_HDR_SIZE ≤ len then
      ∃ e es',es = e::es' ∧ Describes mem len a idx e ∧
        DescribesAll mem len as (idx+WMI_TLV_HDR_SIZE+tlvLenAt mem idx) es'
    else es = List.replicate (as.length+1) ParamInfo.zero

/-- Every array of structures in the buffer is empty or has room for the header of its first
structure. -/
def HeadersFit (mem : Mem) (len : ℕ) : List Attr → ℕ → Prop
  | [],_ => True
  | a::as,idx => idx+WMI_TLV_HDR_SIZE ≤ len → HasHeader a (tlvLenAt mem idx) ∧
      HeadersFit mem len as (idx+WMI_TLV_HDR_SIZE+tlvLenAt mem idx)

section Loop
variable {allocOk : ℕ → Bool} {words : List ℕ} {id : ℕ} {mem : Mem} {len : ℕ}

/-- What one step of the decoding, and with it the whole of it, keeps. -/
structure Keeps (len : ℕ) (fits : Prop) (d d' : Dec) : Prop where
  books : Books d → Books d'
  reads : fits → InBounds len d.reads → InBounds len d'.reads

variable (allocOk) in
theorem decodeTlv_spec {a : Attr} (h : a.Valid) {d : Dec}
    (htag : getTlvtag (getHdr mem d.bufIdx) = a.tagId)
    (hlen : d.bufIdx+WMI_TLV_HDR_SIZE+tlvLenAt mem d.bufIdx ≤ len) :
    let r := decodeTlv allocOk a mem (startOf a d.bufIdx) (currLen a mem d.bufIdx) d
    (r.1 = true → ∃ e,r.2.entries = d.entries++[e] ∧ Describes mem len a d.bufIdx e ∧
      r.2.bufIdx = d.bufIdx+WMI_TLV_HDR_SIZE+tlvLenAt mem d.bufIdx) ∧
    Keeps len (HasHeader a (tlvLenAt mem d.bufIdx)) d r.2 := by
  have hend := startOf_add a mem d.bufIdx
  have hhdr : HasHeader a (tlvLenAt mem d.bufIdx) → HasHeader a (currLen a mem d.bufIdx) := by
    intro hh hvar hstruc
    have harr : isArrayTag a.tagId = true := by rw [hstruc]; rfl
    rw [currLen,if_pos harr]
    exact hh hvar hstruc
  have hsizes := fun hh => inBounds_sizesReads (a := a) (hhdr hh) (hend.trans_le hlen)
  intro r
  cases hs : tlvSizes a mem (startOf a d.bufIdx) (currLen a mem d.bufIdx) with
  | none =>
    have hr : r = (false,{d with
        reads := d.reads++sizesReads a (startOf a d.bufIdx) (currLen a mem d.bufIdx)}) := by
      simp only [r,decodeTlv,hs]
    rw [hr]
    refine ⟨fun hh => absurd hh Bool.false_ne_true,fun hb => ⟨hb.perm,hb.nodup,hb.lt⟩,?_⟩
    exact fun hh hin => inBounds_append hin (hsizes hh)
  | some s =>
    obtain ⟨diff,num⟩ := s
    generalize hal : (if allocOk d.attempts then some d.attempts else none) = alloc
    have hreads := fun hh => inBounds_presentReads (hhdr hh) (hend.trans_le hlen) hs alloc
    have hall : HasHeader a (tlvLenAt mem d.bufIdx) → InBounds len d.reads →
        InBounds len (d.reads++sizesReads a (startOf a d.bufIdx) (currLen a mem d.bufIdx)++
          presentReads a mem (startOf a d.bufIdx) (currLen a mem d.bufIdx) diff num alloc) :=
      fun hh hin => inBounds_append (inBounds_append hin (hsizes hh)) (hreads hh)
    cases he : present a mem (startOf a d.bufIdx) (currLen a mem d.bufIdx) diff num alloc with
    | none =>
      have hr : r = (false,{d with
          reads := d.reads++sizesReads a (startOf a d.bufIdx) (currLen a mem d.bufIdx)++
            presentReads a mem (startOf a d.bufIdx) (currLen a mem d.bufIdx) diff num alloc}) := by
        simp only [r,decodeTlv,hs,hal,he]
      rw [hr]
      exact ⟨fun hh => absurd hh Bool.false_ne_true,fun hb => ⟨hb.perm,hb.nodup,hb.lt⟩,hall⟩
    | some e =>
      have howned := owned_present he
      have hr : r = (true,{
          bufIdx := startOf a d.bufIdx+currLen a mem d.bufIdx
          entries := d.entries++[e]
          reads := d.reads++sizesReads a (startOf a d.bufIdx) (currLen a mem d.bufIdx)++
            presentReads a mem (startOf a d.bufIdx) (currLen a mem d.bufIdx) diff num alloc
          attempts := d.attempts+(allocates a diff).toNat
          allocated := if allocates a diff then d.allocated++[d.attempts]
            else d.allocated}) := by
        simp only [r,decodeTlv,hs,hal,he]
      rw [hr]
      refine ⟨fun _ => ⟨e,rfl,describes h htag hlen hs he,hend⟩,fun hb => ?_,hall⟩
      refine books_step hb ?_ _ _
      split at howned
      · rename_i hall'
        obtain ⟨id,hid,hown⟩ := howned
        rw [hid] at hal
        split at hal
        · rw [if_pos hall',hown,← hal]
        · cases hal
      · rename_i hall'
        rw [if_neg hall',howned]

/-- The attributes of the TLVs from `k` on, as the lookup gives them. -/
def AttrsFrom (words : List ℕ) (id k : ℕ) (as : List Attr) : Prop :=
  ∀ j a,as[j]? = some a → getAttributes words id (k+j) = some (.attr a)

theorem AttrsFrom.tail {k : ℕ} {a : Attr} {as : List Attr} (h : AttrsFrom words id k (a::as)) :
    AttrsFrom words id (k+1) as := by
  intro j b hb
  rw [show k+1+j = k+(j+1) by omega]
  exact h (j+1) b hb

theorem Keeps.trans {fits fits' : Prop} {d d' d'' : Dec} (h : Keeps len fits d d')
    (h' : Keeps len fits' d' d'') : Keeps len (fits ∧ fits') d d'' :=
  ⟨fun hb => h'.books (h.books hb),fun hf hin => h'.reads hf.2 (h.reads hf.1 hin)⟩

theorem Keeps.imp {fits fits' : Prop} {d d' : Dec} (h : Keeps len fits d d')
    (himp : fits' → fits) : Keeps len fits' d d' :=
  ⟨h.books,fun hf => h.reads (himp hf)⟩

/-- The read of a header in the buffer. -/
theorem keeps_header {d : Dec} (h : d.bufIdx+WMI_TLV_HDR_SIZE ≤ len) :
    Keeps len True d {d with reads := d.reads++[(d.bufIdx,WMI_TLV_HDR_SIZE)]} :=
  ⟨fun hb => ⟨hb.perm,hb.nodup,hb.lt⟩,fun _ hin => inBounds_append hin (inBounds_singleton h)⟩

variable (allocOk mem len) in
/-- The loop describes the TLVs that are still expected. -/
theorem decodeLoop_spec {as : List Attr} (hvalid : ∀ a ∈ as,a.Valid) {d : Dec}
    (hattrs : AttrsFrom words id d.entries.length as) :
    let r := decodeLoop allocOk words id mem len as.length d
    (r.1 = true → ∃ es,r.2.entries = d.entries++es ∧ es.length ≤ as.length ∧
      DescribesAll mem len as d.bufIdx
        (es++List.replicate (as.length-es.length) ParamInfo.zero)) ∧
    Keeps len (HeadersFit mem len as d.bufIdx) d r.2 := by
  induction as generalizing d with
  | nil =>
    exact ⟨fun _ => ⟨[],(List.append_nil _).symm,le_rfl,rfl⟩,fun hb => hb,fun _ hin => hin⟩
  | cons a as ih =>
    intro r
    by_cases hroom : len < d.bufIdx+WMI_TLV_HDR_SIZE
    · have hr : r = (true,d) := by simp only [r,List.length_cons,decodeLoop,if_pos hroom]
      rw [hr]
      refine ⟨fun _ => ⟨[],(List.append_nil _).symm,Nat.zero_le _,?_⟩,fun hb => hb,fun _ hin => hin⟩
      rw [DescribesAll,if_neg (by omega)]
      rfl
    · have hhead := keeps_header (not_lt.mp hroom)
      generalize hd' : ({d with reads := d.reads++[(d.bufIdx,WMI_TLV_HDR_SIZE)]} : Dec) = d'
        at hhead
      have hidx : d'.bufIdx = d.bufIdx := by rw [← hd']
      have hent : d'.entries = d.entries := by rw [← hd']
      have hfail : r = (false,d') → (r.1 = true → ∃ es,r.2.entries = d.entries++es ∧
          es.length ≤ (a::as).length ∧ DescribesAll mem len (a::as) d.bufIdx
            (es++List.replicate ((a::as).length-es.length) ParamInfo.zero)) ∧
          Keeps len (HeadersFit mem len (a::as) d.bufIdx) d r.2 := by
        intro hr
        rw [hr]
        exact ⟨fun hh => absurd hh Bool.false_ne_true,hhead.imp fun _ => trivial⟩
      have hattr : getAttributes words id d.entries.length = some (.attr a) := hattrs 0 a rfl
      by_cases hover : len-(d.bufIdx+WMI_TLV_HDR_SIZE) < getTlvlen (getHdr mem d.bufIdx)
      · exact hfail (by simp only [r,List.length_cons,decodeLoop,if_neg hroom,if_pos hover,hd'])
      by_cases htag : getTlvtag (getHdr mem d.bufIdx) = a.tagId
      · have hlen : d'.bufIdx+WMI_TLV_HDR_SIZE+tlvLenAt mem d'.bufIdx ≤ len := by
          rw [hidx,tlvLenAt]
          omega
        have hstep := decodeTlv_spec allocOk (hvalid a List.mem_cons_self) (d := d')
          (by rw [hidx]; exact htag) hlen
        have hr : ∀ t,decodeTlv allocOk a mem (startOf a d'.bufIdx) (currLen a mem d'.bufIdx) d'
            = t → r = if t.1 then decodeLoop allocOk words id mem len as.length t.2 else t := by
          rintro t rfl
          simp only [r,List.length_cons,decodeLoop,if_neg hroom,if_neg hover,hd',hattr]
          rw [if_neg (not_not.mpr htag),htag,hidx]
          unfold startOf currLen tlvLenAt
          cases isArrayTag a.tagId <;> rfl
        have hr := hr _ rfl
        generalize decodeTlv allocOk a mem (startOf a d'.bufIdx) (currLen a mem d'.bufIdx) d' = t
          at hstep hr
        obtain ⟨hdesc,hkeep⟩ := hstep
        rw [hidx] at hdesc hkeep
        have hfits : HeadersFit mem len (a::as) d.bufIdx →
            HasHeader a (tlvLenAt mem d.bufIdx) ∧
              HeadersFit mem len as (d.bufIdx+WMI_TLV_HDR_SIZE+tlvLenAt mem d.bufIdx) :=
          fun hh => hh (not_lt.mp hroom)
        cases ht : t.1 with
        | false =>
          rw [ht,if_neg Bool.false_ne_true] at hr
          rw [hr]
          refine ⟨fun hh => absurd hh (by rw [ht]; exact Bool.false_ne_true),?_⟩
          exact (hhead.trans hkeep).imp fun hh => ⟨trivial,(hfits hh).1⟩
        | true =>
          obtain ⟨e,hentries,he,hnext⟩ := hdesc ht
          have hlength : t.2.entries.length = d.entries.length+1 := by
            rw [hentries,hent,List.length_append,List.length_singleton]
          rw [ht,if_pos rfl] at hr
          obtain ⟨hrest,hkeep'⟩ := ih (fun b hb => hvalid b (List.mem_cons_of_mem _ hb)) (d := t.2)
            (by rw [hlength]; exact hattrs.tail)
          rw [hnext] at hrest hkeep'
          rw [hr]
          refine ⟨fun hh => ?_,((hhead.trans hkeep).trans hkeep').imp fun hh =>
            ⟨⟨trivial,(hfits hh).1⟩,(hfits hh).2⟩⟩
          obtain ⟨es,hes,hle,hall⟩ := hrest hh
          refine ⟨e::es,?_,by simpa using hle,?_⟩
          · rw [hes,hentries,hent,List.append_assoc]
            rfl
          · rw [DescribesAll,if_pos (not_lt.mp hroom)]
            refine ⟨e,_,?_,he,hall⟩
            rw [List.length_cons,List.length_cons,Nat.add_sub_add_right]
            rfl
      · refine hfail ?_
        simp only [r,List.length_cons,decodeLoop,if_neg hroom,if_neg hover,hd',hattr]
        rw [if_pos htag]

end Loop

section Message

/-- The tables that a message may come from. -/
structure ValidTable (ms : List Message) : Prop where
  length : ∀ m ∈ ms,m.tlvs.length < 2^8
  valid : ∀ m ∈ ms,∀ a ∈ m.tlvs,a.Valid

/-- A failure frees each buffer that has been allocated once, and leaves no entries; a message without
attributes or without a header is refused before the output pointer `out` is touched. -/
structure CleanFailure (ms : List Message) (id len : ℕ) (out : Option (List ParamInfo))
    (r : Result) : Prop where
  ret : r.ret = -1
  out : r.out = if lookup ms id = none ∨ len < WMI_TLV_HDR_SIZE then out else none
  perm : List.Perm r.freed r.allocated
  nodup : r.allocated.Nodup

/-- A success describes the TLVs of the message. -/
structure DescribedMessage (ms : List Message) (id : ℕ) (mem : Mem) (len : ℕ) (r : Result) :
    Prop where
  ret : r.ret = 0
  described : ∃ m es,lookup ms id = some m ∧ r.out = some es ∧ DescribesAll mem len m.tlvs 0 es
  freed : r.freed = []

/-- Every message is described or fails without a trace, from bytes of the buffer as long as arrays of
structures have room for a header. -/
theorem checkAndPadTlvs_spec {ms : List Message} (h : ValidTable ms) (allocOk : ℕ → Bool) (id : ℕ)
    (mem : Mem) (len : ℕ) (out : Option (List ParamInfo)) :
    (DescribedMessage ms id mem len (checkAndPadTlvs allocOk (attrList ms) id mem len out) ∨
      CleanFailure ms id len out (checkAndPadTlvs allocOk (attrList ms) id mem len out)) ∧
    ((∀ m,lookup ms id = some m → HeadersFit mem len m.tlvs 0) →
      InBounds len (checkAndPadTlvs allocOk (attrList ms) id mem len out).reads) := by
  have hfits : ∀ m ∈ ms,∀ a ∈ m.tlvs,a.Fits := fun m hm a ha => (h.valid m hm a ha).fits
  unfold checkAndPadTlvs
  rw [getAttributes_numTlvs h.length]
  cases hm : lookup ms id with
  | none =>
    exact ⟨Or.inr ⟨rfl,(if_pos (Or.inl hm)).symm,List.Perm.refl _,List.nodup_nil⟩,
      fun _ => inBounds_nil len⟩
  | some m =>
    simp only [Option.map_some]
    by_cases hlen : len < WMI_TLV_HDR_SIZE
    · rw [if_pos hlen]
      exact ⟨Or.inr ⟨rfl,(if_pos (Or.inr hlen)).symm,List.Perm.refl _,List.nodup_nil⟩,
        fun _ => inBounds_nil len⟩
    rw [if_neg hlen]
    have hout : ¬(lookup ms id = none ∨ len < WMI_TLV_HDR_SIZE) := by simp [hm,hlen]
    by_cases hbase : allocOk 0 = false
    · rw [if_pos hbase]
      exact ⟨Or.inr ⟨rfl,(if_neg hout).symm,List.Perm.refl _,List.nodup_nil⟩,
        fun _ => inBounds_nil len⟩
    rw [if_neg hbase]
    have hmem : m ∈ ms := List.mem_of_find?_eq_some hm
    have hattrs : AttrsFrom (attrList ms) id 0 m.tlvs := fun j a ha => by
      rw [Nat.zero_add]
      exact getAttributes_attr h.length hfits hm ha
    have hbooks : Books ⟨0,[],[],1,[0]⟩ :=
      ⟨List.Perm.refl _,List.nodup_singleton 0,fun x hx => by
        rw [List.mem_singleton.mp hx]
        exact Nat.one_pos⟩
    obtain ⟨hdesc,hkeep⟩ := decodeLoop_spec allocOk mem len
      (h.valid m hmem) (d := ⟨0,[],[],1,[0]⟩) hattrs
    generalize decodeLoop allocOk (attrList ms) id mem len m.tlvs.length ⟨0,[],[],1,[0]⟩ = r
      at hdesc hkeep
    have hreads : (∀ m',some m = some m' → HeadersFit mem len m'.tlvs 0) → InBounds len r.2.reads :=
      fun hh => hkeep.reads (hh m rfl) (inBounds_nil len)
    cases hr : r.1 with
    | true =>
      obtain ⟨es,hes,_,hall⟩ := hdesc hr
      rw [List.nil_append] at hes
      refine ⟨Or.inl ⟨rfl,⟨m,_,hm,rfl,?_⟩,rfl⟩,hreads⟩
      rw [hes]
      exact hall
    | false =>
      have hb := hkeep.books hbooks
      refine ⟨Or.inr ⟨rfl,(if_neg hout).symm,?_,hb.nodup⟩,hreads⟩
      show List.Perm (freeAllocatedTlvs _) r.2.allocated
      rw [freeAllocatedTlvs_zeros]
      exact hb.perm

end Message

section Examples

/-- A message of a structure of 8 bytes and an array of structures of 8 bytes, and one of a fixed array
of four words. -/
def sampleTable : List Message :=
  [⟨0x1001,[⟨40,8,WMITLV_ARR_SIZE_INVALID,false⟩,
      ⟨WMITLV_TAG_ARRAY_STRUC,8,WMITLV_ARR_SIZE_INVALID,true⟩]⟩,
    ⟨0x1002,[⟨WMITLV_TAG_ARRAY_UINT32,4,4,false⟩]⟩]

theorem validTable_sample : ValidTable sampleTable := by
  refine ⟨by decide,fun m hm a ha => ?_⟩
  simp only [sampleTable,List.mem_cons,List.not_mem_nil,or_false] at hm
  rcases hm with rfl | rfl
  · simp only [List.mem_cons,List.not_mem_nil,or_false] at ha
    rcases ha with rfl | rfl
    · exact ⟨⟨by decide,by decide,by decide⟩,by decide,Or.inl ⟨rfl,rfl,rfl⟩⟩
    · exact ⟨⟨by decide,by decide,by decide⟩,by decide,Or.inr (Or.inr ⟨rfl,rfl⟩)⟩
  · rw [List.mem_singleton.mp ha]
    exact ⟨⟨by decide,by decide,by decide⟩,by decide,Or.inr (Or.inl ⟨rfl,rfl,by decide⟩)⟩

/-- A buffer with the given bytes first. -/
def bytesAt (bs : List UInt8) : Mem := fun i => bs.getD i 0

/-- A structure of an older sender without its second word, and two structures of 6 bytes. -/
def olderMessage : Mem :=
  bytesAt [0,0,40,0,12,0,18,0,2,0,41,0,1,2,2,0,41,0,3,4]

theorem checkAndPadTlvs_spec_olderMessage :
    (DescribedMessage sampleTable 0x1001 olderMessage 20
        (checkAndPadTlvs (fun _ => true) (attrList sampleTable) 0x1001 olderMessage 20 none) ∨
      CleanFailure sampleTable 0x1001 20 none
        (checkAndPadTlvs (fun _ => true) (attrList sampleTable) 0x1001 olderMessage 20 none)) ∧
    (checkAndPadTlvs (fun _ => true) (attrList sampleTable) 0x1001 olderMessage 20 none).out =
      some [⟨.alloc 1 [0,0,40,0,0,0,0,0],0,true⟩,
        ⟨.alloc 2 [2,0,41,0,1,2,0,0,2,0,41,0,3,4,0,0],2,true⟩] :=
  ⟨(checkAndPadTlvs_spec validTable_sample (fun _ => true) 0x1001 olderMessage 20
    none).1,by decide⟩

/-- Two words of a fixed array of four: the entry has four elements. A buffer without a header: the
output pointer stays. And one byte of an array of structures: the header of a structure is read behind
the end of the buffer. -/
theorem not_numElements_received :
    (∃ e,(checkAndPadTlvs (fun _ => true) (attrList sampleTable) 0x1002
        (bytesAt [8,0,16,0,1,0,0,0,2,0,0,0]) 12 none).out = some [e] ∧
      e.numElements ≠ tlvLenAt (bytesAt [8,0,16,0,1,0,0,0,2,0,0,0]) 0/4) ∧
    (checkAndPadTlvs (fun _ => true) (attrList sampleTable) 0x1002 (bytesAt []) 3 (some [])).out ≠
      none ∧
    ¬InBounds 9 (checkAndPadTlvs (fun _ => true) (attrList sampleTable) 0x1001
      (bytesAt [0,0,40,0,1,0,18,0,1]) 9 none).reads := by
  refine ⟨⟨⟨.alloc 1 [1,0,0,0,2,0,0,0,0,0,0,0,0,0,0,0],4,true⟩,by decide,by decide⟩,by decide,
    fun h => ?_⟩
  exact absurd (h (8,4) (by decide)) (by decide)

end Examples

end WmiTlv
end MarbleModules
