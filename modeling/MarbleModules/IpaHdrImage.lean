import MarbleModules.IpaHdrSpace

/-! The image for the hardware: it holds each header where its offset says, as long as the places
do not overlap. -/
namespace MarbleModules
namespace IpaHdr

open Runs BinArena BinArena.Arena Ctx

variable {cfg : Config} {c : Ctx} {loc : Bool} {e x : HdrEntry}

/-! ## The image -/

def hwTblSize (t : Tbl HdrEntry) : ℕ := if t.top = 0 then hdrBinSz 0 else t.top

/-- The image has each header at its offset, and is no larger than the part of the memory it is
for. -/
structure Imaged (size : ℕ) (t : Tbl HdrEntry) : Prop where
  size_le : hwTblSize t ≤ max 8 size
  fits : ∀ e ∈ t.entries, e.slot.offset+e.hdr.length ≤ hwTblSize t
  holds : ∀ e ∈ t.entries, ((hdrHwTbl t).drop e.slot.offset).take e.hdr.length = e.hdr

/-- The place of a byte in the image is one of a header's. -/
def Covers (e : HdrEntry) (k : ℕ) : Prop := e.slot.offset ≤ k ∧ k < e.slot.offset+e.hdr.length

theorem length_copyTo {mem : List UInt8} (h : e.slot.offset+e.hdr.length ≤ mem.length) :
    (copyTo mem e).length = mem.length := by
  simp only [copyTo,List.length_append,List.length_take,List.length_drop]
  omega

theorem getElem?_copyTo_of_not {mem : List UInt8} {k : ℕ}
    (h : e.slot.offset+e.hdr.length ≤ mem.length) (hk : ¬Covers e k) :
    (copyTo mem e)[k]? = mem[k]? := by
  simp only [Covers,not_and,not_lt] at hk
  rw [copyTo,List.getElem?_append,List.getElem?_append]
  simp only [List.length_append,List.length_take]
  split_ifs with h1 h2
  · exact List.getElem?_take_of_lt (by omega)
  · omega
  · rw [List.getElem?_drop]
    congr 1
    omega

theorem getElem?_copyTo_inside {mem : List UInt8} {k : ℕ}
    (h : e.slot.offset+e.hdr.length ≤ mem.length) (hk : k < e.hdr.length) :
    (copyTo mem e)[e.slot.offset+k]? = e.hdr[k]? := by
  rw [copyTo,List.getElem?_append,List.getElem?_append]
  simp only [List.length_append,List.length_take]
  split_ifs with h1 h2
  · omega
  · congr 1
    omega
  · omega

theorem foldl_copyTo_of_not {l : List HdrEntry} {mem : List UInt8} {k : ℕ}
    (h : ∀ e ∈ l, e.slot.offset+e.hdr.length ≤ mem.length) (hk : ∀ e ∈ l, ¬Covers e k) :
    (l.foldl copyTo mem)[k]? = mem[k]? := by
  induction l generalizing mem with
  | nil => rfl
  | cons e l ih =>
    rw [List.forall_mem_cons] at h hk
    rw [List.foldl_cons,ih (length_copyTo h.1 ▸ h.2) hk.2,getElem?_copyTo_of_not h.1 hk.1]

/-- Headers that have no place in common stay as they were copied. -/
theorem foldl_copyTo_inside {l : List HdrEntry} {mem : List UInt8}
    (h : ∀ e ∈ l, e.slot.offset+e.hdr.length ≤ mem.length)
    (hapart : l.Pairwise fun e x => ∀ k, Covers e k → ¬Covers x k) (he : e ∈ l) {k : ℕ}
    (hk : k < e.hdr.length) : (l.foldl copyTo mem)[e.slot.offset+k]? = e.hdr[k]? := by
  induction l generalizing mem with
  | nil => exact absurd he List.not_mem_nil
  | cons x l ih =>
    rw [List.forall_mem_cons] at h
    rw [List.pairwise_cons] at hapart
    have hlen := length_copyTo h.1
    rcases List.mem_cons.mp he with rfl | he
    · rw [List.foldl_cons,foldl_copyTo_of_not (hlen ▸ h.2) fun y hy => ?_,
        getElem?_copyTo_inside h.1 hk]
      exact hapart.1 y hy _ ⟨Nat.le_add_right _ _,Nat.add_lt_add_left hk _⟩
    · exact ih (hlen ▸ h.2) hapart.2 he

theorem Ok.apart (hc : Ok cfg c) (loc : Bool) :
    (c.tbl loc).entries.Pairwise fun e x => ∀ k, Covers e k → ¬Covers x k := by
  have hslots := (hc.hdrSound loc).nodup_taken
  have hpair : (c.tbl loc).entries.Pairwise fun e x => e.slot ≠ x.slot := List.pairwise_map.mp hslots
  refine hpair.imp_of_mem fun {e x} he hx hne k hk hk' => ?_
  have hapart := (hc.hdrSound loc).apart e.slot x.slot (Or.inl (List.mem_map_of_mem he))
    (Or.inl (List.mem_map_of_mem hx)) hne
  have hle := hdrBin_le (hc.hdrOk loc e he).bin
  have hle' := hdrBin_le (hc.hdrOk loc x hx).bin
  obtain ⟨h1,h2⟩ := hk
  obtain ⟨h3,h4⟩ := hk'
  rcases hapart with h | h <;> omega

theorem Ok.imaged (hc : Ok cfg c) (loc : Bool) : Imaged (hdrSize cfg loc) (c.tbl loc) := by
  have hfits : ∀ e ∈ (c.tbl loc).entries, e.slot.offset+e.hdr.length ≤ hwTblSize (c.tbl loc) := by
    intro e he
    have hbelow := (hc.hdrSound loc).below e.slot (Or.inl (List.mem_map_of_mem he))
    have hle := hdrBin_le (hc.hdrOk loc e he).bin
    have htop : e.slot.offset+hdrBinSz e.slot.bin ≤ (c.tbl loc).top := hbelow
    have := hdrBinSz_pos e.slot.bin
    rw [hwTblSize,if_neg (by omega)]
    omega
  refine ⟨?_,hfits,fun e he => ?_⟩
  · rw [hwTblSize]
    split
    · exact le_max_left _ _
    · exact hc.hdrTop loc
  · have hmem : ∀ x ∈ (c.tbl loc).entries, x.slot.offset+x.hdr.length ≤
        (List.replicate (hwTblSize (c.tbl loc)) (0 : UInt8)).length := by
      rwa [List.length_replicate]
    refine List.ext_getElem? fun k => ?_
    rcases lt_or_ge k e.hdr.length with hk | hk
    · rw [List.getElem?_take_of_lt hk,List.getElem?_drop]
      exact foldl_copyTo_inside hmem (hc.apart loc) he hk
    · rw [List.getElem?_eq_none hk,List.getElem?_eq_none]
      exact (List.length_take_le _ _).trans hk

/-- What a commit needs: the images, and contexts that do not overlap and fit into their memory -/
structure Committable (cfg : Config) (c : Ctx) : Prop where
  hdrs : ∀ loc, Imaged (hdrSize cfg loc) (c.tbl loc)
  procApart : (c.proc.entries.map ProcCtxEntry.slot).Pairwise (Apart hdrProcCtxBinSz)
  procFits : ∀ p ∈ c.proc.entries,
    p.slot.offset+hdrProcCtxBinSz p.slot.bin ≤ cfg.hdrProcCtxSize

theorem Ok.committable (hc : Ok cfg c) : Committable cfg c := by
  refine ⟨hc.imaged,hc.procSound.nodup_taken.imp_of_mem fun {s s'} hs hs' hne => ?_,fun p hp => ?_⟩
  · exact hc.procSound.apart s s' (Or.inl hs) (Or.inl hs') hne
  · exact (hc.procSound.below p.slot (Or.inl (List.mem_map_of_mem hp))).trans hc.procTop

/-! ## A default header that is too long -/

theorem foldl_resetOne_keeps (l : List HdrEntry) {c : Ctx} (hx : x ∈ (c.tbl loc).entries)
    (hnot : x.obj ∉ l.map HdrEntry.obj) :
    x ∈ ((l.foldl (fun c e => c.resetOne loc e) c).tbl loc).entries := by
  induction l generalizing c with
  | nil => exact hx
  | cons e l ih =>
    rw [List.map_cons,List.mem_cons,not_or] at hnot
    obtain ⟨v,hreset,htbl,_⟩ := resetOne_eq c loc e
    have hin : x ∈ ((c.resetOne loc e).tbl loc).entries := by
      rw [hreset]
      simpa [Ctx.freeHdr,Ctx.setTbl,htbl,hx] using hnot.1
    exact ih hin hnot.2

theorem resetTbl_keeps (hobjs : ((c.tbl loc).entries.map HdrEntry.obj).Nodup)
    (he : e ∈ (c.tbl loc).entries) (hdef : isDefault e = true) :
    e ∈ ((c.resetTbl false loc).tbl loc).entries ∧ ((c.resetTbl false loc).tbl loc).top = 8 := by
  unfold Ctx.resetTbl
  extract_lets gone v
  have hv : e ∈ (v.tbl loc).entries := by
    refine foldl_resetOne_keeps gone he fun hmem => ?_
    obtain ⟨x,hx,hobj⟩ := List.mem_map.mp hmem
    obtain ⟨hxin,hgone⟩ := List.mem_filter.mp hx
    rw [List.inj_on_of_nodup_map hobjs hxin he hobj] at hgone
    simp [hdef] at hgone
  rw [if_neg Bool.false_ne_true,tbl_setTbl_self]
  exact ⟨hv,rfl⟩

theorem tbl_resetTbl_of_ne (c : Ctx) (userOnly : Bool) {loc loc' : Bool} (h : loc' ≠ loc) :
    (c.resetTbl userOnly loc).tbl loc' = c.tbl loc' := by
  have hfold : ∀ (l : List HdrEntry) (c : Ctx),
      (l.foldl (fun c e => c.resetOne loc e) c).tbl loc' = c.tbl loc' := by
    intro l
    induction l with
    | nil => exact fun c => rfl
    | cons e l ih =>
      intro c
      obtain ⟨v,hreset,htbl,_⟩ := resetOne_eq c loc e
      rw [List.foldl_cons,ih,hreset,tbl_freeHdr_of_ne h,htbl]
  unfold Ctx.resetTbl
  extract_lets gone v
  split
  · exact hfold gone c
  · rw [tbl_setTbl_of_ne h]
    exact hfold gone c

theorem tbl_resetProc (c : Ctx) (userOnly : Bool) : (c.resetProc userOnly).tbl = c.tbl := by
  have hfold : ∀ (l : List ProcCtxEntry) (c : Ctx),
      (l.foldl (fun c p => c.freeProc p) c).tbl = c.tbl := by
    intro l
    induction l with
    | nil => exact fun c => rfl
    | cons p l ih => exact fun c => ih (c.freeProc p)
  unfold Ctx.resetProc
  extract_lets gone v
  split <;> exact hfold gone c

/-- A default header stays where it is, in a table that ends behind its first eight bytes. -/
theorem resetHdr_keeps (hc : Ok cfg c) (he : e ∈ (c.tbl loc).entries) (hdef : isDefault e = true) :
    e ∈ ((c.resetHdr false).tbl loc).entries ∧ ((c.resetHdr false).tbl loc).top = 8 := by
  rw [resetHdr,tbl_resetProc]
  cases loc with
  | true =>
    rw [tbl_resetTbl_of_ne _ _ (Bool.false_ne_true).symm]
    exact resetTbl_keeps (hc.nodup_obj true) he hdef
  | false =>
    have htbl := tbl_resetTbl_of_ne c false Bool.false_ne_true
    refine resetTbl_keeps ?_ ?_ hdef
    · rw [htbl]
      exact hc.nodup_obj false
    · rwa [htbl]

theorem leavesLong_breaks {op : Op} (hc : Ok cfg c) (hop : LeavesLong c op) :
    ¬Committable cfg (step cfg c op) := by
  cases op with
  | resetHdr userOnly =>
    obtain ⟨rfl,loc,hlong⟩ := hop
    simp only [DefaultShort,not_forall,not_le] at hlong
    obtain ⟨e,he,hdef,hlen⟩ := hlong
    obtain ⟨hmem,htop⟩ := resetHdr_keeps hc he hdef
    intro himaged
    have hfits : e.slot.offset+e.hdr.length ≤ hwTblSize ((c.resetHdr false).tbl loc) :=
      (himaged.hdrs loc).fits e hmem
    rw [hwTblSize,htop] at hfits
    simp only [OfNat.ofNat_ne_zero,if_false] at hfits
    omega
  | addHdr h user m => exact absurd hop id
  | addHdrProcCtx hdl neededLen user m => exact absurd hop id
  | addHpcHdr h user m m' => exact absurd hop id
  | delHdr hdl byUser => exact absurd hop id
  | delHdrProcCtx hdl byUser => exact absurd hop id
  | delHdrHpc hdl byUser => exact absurd hop id
  | rtTakeHdr hdl => exact absurd hop id
  | rtTakeProc hdl => exact absurd hop id
  | rtReleaseHdr hdl => exact absurd hop id
  | rtReleaseProc hdl => exact absurd hop id

end IpaHdr
end MarbleModules
