import MarbleModules.IpaHdr

/-! The places of the headers and contexts: through all operations no two of them overlap, unless
a reset leaves less space than it leaves headers. -/
namespace MarbleModules
namespace IpaHdr

open Runs BinArena BinArena.Arena Ctx

variable {cfg : Config} {c c' : Ctx} {loc : Bool} {e x : HdrEntry} {p y : ProcCtxEntry}
  {obj hdl : ℕ} {byUser : Bool}

/-! ## What a table is made of -/

def hdrArena (t : Tbl HdrEntry) : Arena := ⟨t.entries.map HdrEntry.slot,t.free,t.top⟩
def procArena (t : Tbl ProcCtxEntry) : Arena := ⟨t.entries.map ProcCtxEntry.slot,t.free,t.top⟩

/-- A header stands in its own table and has the bin of its length. -/
structure HdrOk (loc : Bool) (e : HdrEntry) : Prop where
  isLcl : e.isLcl = loc
  bin : hdrBin true e.hdr.length = some e.slot.bin

/-- The addresses and handles are unique, and each table has given out its slots soundly, within
its part of the memory. -/
structure Ok (cfg : Config) (c : Ctx) : Prop where
  hdrSound : ∀ loc, Sound hdrBinSz (hdrArena (c.tbl loc))
  procSound : Sound hdrProcCtxBinSz (procArena c.proc)
  hdrObj : (c.hdrs.map HdrEntry.obj).Nodup
  hdrId : (c.hdrs.map HdrEntry.id).Nodup
  procObj : (c.proc.entries.map ProcCtxEntry.obj).Nodup
  procId : (c.proc.entries.map ProcCtxEntry.id).Nodup
  hdrLt : ∀ e ∈ c.hdrs, e.obj < c.nextObj
  procLt : ∀ p ∈ c.proc.entries, p.obj < c.nextObj
  hdrOk : ∀ loc, ∀ e ∈ (c.tbl loc).entries, HdrOk loc e
  hdrTop : ∀ loc, (c.tbl loc).top ≤ max 8 (hdrSize cfg loc)
  procTop : c.proc.top ≤ cfg.hdrProcCtxSize

theorem mem_hdrs : e ∈ c.hdrs ↔ ∃ loc, e ∈ (c.tbl loc).entries := by
  simp [hdrs,or_comm]

/-! ## Lookups -/

theorem findHdr_some (h : c.findHdr hdl = some e) : e ∈ c.hdrs ∧ e.id = hdl :=
  ⟨List.mem_of_find?_eq_some h,by simpa using List.find?_some h⟩

theorem hdrAt_some (h : c.hdrAt obj = some e) : e ∈ c.hdrs ∧ e.obj = obj :=
  ⟨List.mem_of_find?_eq_some h,by simpa using List.find?_some h⟩

theorem findProc_some (h : c.findProc hdl = some p) : p ∈ c.proc.entries ∧ p.id = hdl :=
  ⟨List.mem_of_find?_eq_some h,by simpa using List.find?_some h⟩

theorem procAt_some (h : c.procAt obj = some p) : p ∈ c.proc.entries ∧ p.obj = obj :=
  ⟨List.mem_of_find?_eq_some h,by simpa using List.find?_some h⟩

theorem Ok.proc_of_id (hc : Ok cfg c) (hp : p ∈ c.proc.entries) (hy : y ∈ c.proc.entries)
    (h : p.id = y.id) : p = y := List.inj_on_of_nodup_map hc.procId hp hy h

theorem Ok.hdr_of_id (hc : Ok cfg c) (he : e ∈ c.hdrs) (hx : x ∈ c.hdrs) (h : e.id = x.id) : e = x :=
  List.inj_on_of_nodup_map hc.hdrId he hx h

/-! ## Changes that keep the places -/

/-- A change of a header that is not about its place -/
structure KeepsHdr (f : HdrEntry → HdrEntry) : Prop where
  obj : ∀ e, (f e).obj = e.obj
  id : ∀ e, (f e).id = e.id
  slot : ∀ e, (f e).slot = e.slot
  hdr : ∀ e, (f e).hdr = e.hdr
  isLcl : ∀ e, (f e).isLcl = e.isLcl

structure KeepsProc (f : ProcCtxEntry → ProcCtxEntry) : Prop where
  obj : ∀ p, (f p).obj = p.obj
  id : ∀ p, (f p).id = p.id
  slot : ∀ p, (f p).slot = p.slot

theorem map_if {α β : Type} {l : List α} {f : α → α} {q : α → Prop} [DecidablePred q] {g : α → β}
    (h : ∀ a, g (f a) = g a) : (l.map fun a => if q a then f a else a).map g = l.map g := by
  rw [List.map_map]
  refine List.map_congr_left fun a _ => ?_
  rw [Function.comp_apply]
  split
  · exact h a
  · rfl

theorem hdrs_modHdr (f : HdrEntry → HdrEntry) : (c.modHdr obj f).hdrs =
    c.hdrs.map fun e => if e.obj = obj then f e else e := by
  simp [hdrs,modHdr]

theorem Ok.modHdr {f : HdrEntry → HdrEntry} (hc : Ok cfg c) (hf : KeepsHdr f) (obj : ℕ) :
    Ok cfg (c.modHdr obj f) := by
  refine ⟨fun loc => ?_,hc.procSound,?_,?_,hc.procObj,hc.procId,?_,hc.procLt,?_,hc.hdrTop,
    hc.procTop⟩
  · have := hc.hdrSound loc
    rwa [hdrArena,← map_if (q := fun e => e.obj = obj) hf.slot] at this
  · rw [hdrs_modHdr,map_if hf.obj]
    exact hc.hdrObj
  · rw [hdrs_modHdr,map_if hf.id]
    exact hc.hdrId
  · intro e he
    rw [hdrs_modHdr,List.mem_map] at he
    obtain ⟨x,hx,rfl⟩ := he
    split
    · exact hf.obj x ▸ hc.hdrLt x hx
    · exact hc.hdrLt x hx
  · intro loc e he
    obtain ⟨x,hx,rfl⟩ := List.mem_map.mp he
    have hok := hc.hdrOk loc x hx
    split
    · exact ⟨(hf.isLcl x).trans hok.isLcl,by rw [hf.hdr,hf.slot]; exact hok.bin⟩
    · exact hok

theorem Ok.modProc {f : ProcCtxEntry → ProcCtxEntry} (hc : Ok cfg c) (hf : KeepsProc f) (obj : ℕ) :
    Ok cfg (c.modProc obj f) := by
  refine ⟨hc.hdrSound,?_,hc.hdrObj,hc.hdrId,?_,?_,hc.hdrLt,?_,hc.hdrOk,hc.hdrTop,hc.procTop⟩
  · have := hc.procSound
    rwa [procArena,← map_if (q := fun p => p.obj = obj) hf.slot] at this
  · have := hc.procObj
    rwa [← map_if (q := fun p => p.obj = obj) hf.obj] at this
  · have := hc.procId
    rwa [← map_if (q := fun p => p.obj = obj) hf.id] at this
  · intro p hp
    obtain ⟨y,hy,rfl⟩ := List.mem_map.mp hp
    split
    · exact hf.obj y ▸ hc.procLt y hy
    · exact hc.procLt y hy

theorem Ok.goStale (hc : Ok cfg c) : Ok cfg c.goStale :=
  ⟨hc.hdrSound,hc.procSound,hc.hdrObj,hc.hdrId,hc.procObj,hc.procId,hc.hdrLt,hc.procLt,hc.hdrOk,
    hc.hdrTop,hc.procTop⟩

/-! ## A place is given back -/

/-- To take the entry of one address away is to take its slot away. -/
theorem map_filter_erase {ε : Type} {obj : ε → ℕ} {slot : ε → Slot} {l : List ε} {a : ε}
    (hobj : (l.map obj).Nodup) (hslot : (l.map slot).Nodup) (ha : a ∈ l) :
    (l.filter fun b => obj b ≠ obj a).map slot = (l.map slot).erase (slot a) := by
  rw [hslot.erase_eq_filter,List.filter_map]
  congr 1
  refine List.filter_congr fun b hb => ?_
  have hiff : obj b = obj a ↔ slot b = slot a :=
    ⟨fun h => congrArg slot (List.inj_on_of_nodup_map hobj hb ha h),
      fun h => congrArg obj (List.inj_on_of_nodup_map hslot hb ha h)⟩
  simp only [ne_eq,decide_not,hiff,Function.comp_apply,bne]
  rfl

/-- The entry of a header is in a table, with its slot. -/
def HasHdr (c : Ctx) (loc : Bool) (e : HdrEntry) : Prop :=
  ∃ x ∈ (c.tbl loc).entries, x.obj = e.obj ∧ x.slot = e.slot

def HasProc (c : Ctx) (p : ProcCtxEntry) : Prop :=
  ∃ y ∈ c.proc.entries, y.obj = p.obj ∧ y.slot = p.slot

theorem sublist_nodup_map {α β : Type} {l l' : List α} {g : α → β} (h : l'.Sublist l)
    (hl : (l.map g).Nodup) : (l'.map g).Nodup := hl.sublist (h.map g)

theorem Ok.nodup_obj (hc : Ok cfg c) (loc : Bool) :
    ((c.tbl loc).entries.map HdrEntry.obj).Nodup := by
  refine sublist_nodup_map ?_ hc.hdrObj
  cases loc
  · exact List.sublist_append_right _ _
  · exact List.sublist_append_left _ _

theorem tbl_freeHdr_of_ne {loc' : Bool} (h : loc' ≠ loc) :
    (c.freeHdr loc e).tbl loc' = c.tbl loc' := by
  simp [freeHdr,setTbl,h]

theorem top_freeHdr (loc loc' : Bool) : ((c.freeHdr loc e).tbl loc').top = (c.tbl loc').top := by
  rcases eq_or_ne loc' loc with rfl | h
  · simp [freeHdr,setTbl,Tbl.putFree,Tbl.setFree]
  · rw [tbl_freeHdr_of_ne h]

theorem entries_freeHdr (loc' : Bool) : ((c.freeHdr loc e).tbl loc').entries.Sublist
    (c.tbl loc').entries := by
  rcases eq_or_ne loc' loc with rfl | h
  · simp [freeHdr,setTbl]
  · rw [tbl_freeHdr_of_ne h]

theorem hdrs_freeHdr : (c.freeHdr loc e).hdrs.Sublist c.hdrs :=
  (entries_freeHdr true).append (entries_freeHdr false)

theorem Ok.freeHdr (hc : Ok cfg c) (he : HasHdr c loc e) : Ok cfg (c.freeHdr loc e) := by
  obtain ⟨x,hx,hobj,hslot⟩ := he
  refine ⟨fun loc' => ?_,hc.procSound,sublist_nodup_map hdrs_freeHdr hc.hdrObj,
    sublist_nodup_map hdrs_freeHdr hc.hdrId,hc.procObj,hc.procId,
    fun e' he' => hc.hdrLt e' (hdrs_freeHdr.subset he'),hc.procLt,
    fun loc' e' he' => hc.hdrOk loc' e' ((entries_freeHdr loc').subset he'),
    fun loc' => (top_freeHdr loc loc').le.trans (hc.hdrTop loc'),hc.procTop⟩
  rcases eq_or_ne loc' loc with rfl | h
  · have herase := map_filter_erase (hc.nodup_obj loc') (hc.hdrSound loc').nodup_taken hx
    have hrelease := sound_release (hc.hdrSound loc') (List.mem_map_of_mem hx)
    rw [hslot] at hrelease
    rw [hslot,hobj] at herase
    have hentries : ((c.freeHdr loc' e).tbl loc').entries.map HdrEntry.slot =
        ((c.tbl loc').entries.map HdrEntry.slot).erase e.slot := by
      rw [← herase]
      simp [Ctx.freeHdr,setTbl]
    rw [hdrArena,hentries]
    simpa [hdrArena,Ctx.freeHdr,setTbl,Tbl.putFree,Tbl.setFree,release] using hrelease
  · rw [tbl_freeHdr_of_ne h]
    exact hc.hdrSound loc'

theorem entries_freeProc : (c.freeProc p).proc.entries.Sublist c.proc.entries :=
  List.filter_sublist

theorem Ok.freeProc (hc : Ok cfg c) (hp : HasProc c p) : Ok cfg (c.freeProc p) := by
  obtain ⟨y,hy,hobj,hslot⟩ := hp
  refine ⟨hc.hdrSound,?_,hc.hdrObj,hc.hdrId,sublist_nodup_map entries_freeProc hc.procObj,
    sublist_nodup_map entries_freeProc hc.procId,hc.hdrLt,
    fun p' hp' => hc.procLt p' (entries_freeProc.subset hp'),hc.hdrOk,hc.hdrTop,hc.procTop⟩
  have herase := map_filter_erase hc.procObj hc.procSound.nodup_taken hy
  have hrelease := sound_release hc.procSound (List.mem_map_of_mem hy)
  rw [hslot] at hrelease
  rw [hslot,hobj] at herase
  rw [release,procArena,← herase] at hrelease
  exact hrelease

/-! ## Deletion -/

theorem HasHdr.modHdr {f : HdrEntry → HdrEntry} (h : HasHdr c loc e) (hf : KeepsHdr f) (obj : ℕ) :
    HasHdr (c.modHdr obj f) loc e := by
  obtain ⟨x,hx,hobj,hslot⟩ := h
  refine ⟨_,List.mem_map_of_mem hx,?_,?_⟩
  · split
    · exact (hf.obj x).trans hobj
    · exact hobj
  · split
    · exact (hf.slot x).trans hslot
    · exact hslot

theorem HasProc.modProc {f : ProcCtxEntry → ProcCtxEntry} (h : HasProc c p) (hf : KeepsProc f)
    (obj : ℕ) : HasProc (c.modProc obj f) p := by
  obtain ⟨y,hy,hobj,hslot⟩ := h
  refine ⟨_,List.mem_map_of_mem hy,?_,?_⟩
  · split
    · exact (hf.obj y).trans hobj
    · exact hobj
  · split
    · exact (hf.slot y).trans hslot
    · exact hslot

theorem HasProc.freeProc (h : HasProc c p) (hne : y.obj ≠ p.obj) : HasProc (c.freeProc y) p := by
  obtain ⟨z,hz,hobj,hslot⟩ := h
  refine ⟨z,List.mem_filter.mpr ⟨hz,?_⟩,hobj,hslot⟩
  simpa [hobj] using hne.symm

theorem keepsHdr_of {u : HdrEntry → Bool} {r : HdrEntry → ℕ} {o : HdrEntry → Option ℕ} :
    KeepsHdr fun x => { x with userDeleted := u x, refCnt := r x, procCtx := o x } :=
  ⟨fun _ => rfl,fun _ => rfl,fun _ => rfl,fun _ => rfl,fun _ => rfl⟩

theorem keepsProc_of {o : ProcCtxEntry → Option ℕ} {u : ProcCtxEntry → Bool}
    {r : ProcCtxEntry → ℕ} :
    KeepsProc fun x => { x with hdr := o x, userDeleted := u x, refCnt := r x } :=
  ⟨fun _ => rfl,fun _ => rfl,fun _ => rfl⟩

theorem Ok.unlinkProc (hc : Ok cfg c) (p : ProcCtxEntry) : Ok cfg (c.unlinkProc p) := by
  fun_cases Ctx.unlinkProc with
  | case1 h => exact hc
  | case2 h hp hat => exact hc.goStale
  | case3 h hp x hat hx => exact hc.modHdr keepsHdr_of h
  | case4 h hp x hat hx => exact hc

theorem proc_unlinkProc (p : ProcCtxEntry) : (c.unlinkProc p).proc = c.proc := by
  fun_cases Ctx.unlinkProc <;> rfl

theorem HasHdr.unlinkProc (h : HasHdr c loc e) (p : ProcCtxEntry) :
    HasHdr (c.unlinkProc p) loc e := by
  fun_cases Ctx.unlinkProc with
  | case1 _ => exact h
  | case2 _ _ _ => exact h
  | case3 o _ x _ _ => exact h.modHdr keepsHdr_of o
  | case4 _ _ x _ _ => exact h

theorem hasProc_of_mem (h : p ∈ c.proc.entries) : HasProc c p := ⟨p,h,rfl,rfl⟩

theorem hasHdr_of_mem (h : e ∈ (c.tbl loc).entries) : HasHdr c loc e := ⟨e,h,rfl,rfl⟩

theorem Ok.delHdrProcCtx (hc : Ok cfg c) (hdl : ℕ) (byUser : Bool) :
    Ok cfg (c.delHdrProcCtx hdl byUser) := by
  fun_cases Ctx.delHdrProcCtx with
  | case1 h => exact hc
  | case2 e h hdel => exact hc
  | case3 e h hdel v href => exact hc.modProc keepsProc_of e.obj
  | case4 e h hdel v href =>
    have hv : Ok cfg v := hc.modProc keepsProc_of e.obj
    refine (hv.unlinkProc e).freeProc ?_
    have he : HasProc v e := (hasProc_of_mem (findProc_some h).1).modProc keepsProc_of _
    simpa only [HasProc,proc_unlinkProc] using he

theorem HasHdr.delHdrProcCtx (hh : HasHdr c loc x) (hdl : ℕ) (byUser : Bool) :
    HasHdr (c.delHdrProcCtx hdl byUser) loc x := by
  fun_cases Ctx.delHdrProcCtx with
  | case1 h => exact hh
  | case2 e h hdel => exact hh
  | case3 e h hdel v href => exact hh
  | case4 e h hdel v href =>
    have hv : HasHdr v loc x := hh
    exact hv.unlinkProc e

theorem HasProc.delHdrProcCtx (hp : HasProc c p)
    (hne : ∀ e, c.findProc hdl = some e → e.obj ≠ p.obj) :
    HasProc (c.delHdrProcCtx hdl byUser) p := by
  fun_cases Ctx.delHdrProcCtx with
  | case1 h => exact hp
  | case2 e h hdel => exact hp
  | case3 e h hdel v href => exact hp.modProc keepsProc_of e.obj
  | case4 e h hdel v href =>
    have hv : HasProc v p := hp.modProc keepsProc_of e.obj
    have hu : HasProc (v.unlinkProc e) p := by simpa only [HasProc,proc_unlinkProc] using hv
    exact hu.freeProc (hne e h)

theorem Ok.unlinkHdr (hc : Ok cfg c) (e : HdrEntry) : Ok cfg (c.unlinkHdr e) := by
  fun_cases Ctx.unlinkHdr with
  | case1 h => exact hc
  | case2 o h hat => exact hc.goStale
  | case3 o h x hat v =>
    refine Ok.delHdrProcCtx ?_ x.id false
    change Ok cfg (if x.hdr = some e.obj then _ else _)
    split
    · exact hc.modProc keepsProc_of o
    · exact hc

theorem HasHdr.unlinkHdr (hh : HasHdr c loc x) (e : HdrEntry) : HasHdr (c.unlinkHdr e) loc x := by
  fun_cases Ctx.unlinkHdr with
  | case1 h => exact hh
  | case2 o h hat => exact hh
  | case3 o h y hat v =>
    refine HasHdr.delHdrProcCtx ?_ y.id false
    change HasHdr (if y.hdr = some e.obj then _ else _) loc x
    split <;> exact hh

theorem Ok.delHdr (hc : Ok cfg c) (hdl : ℕ) (byUser : Bool) : Ok cfg (c.delHdr hdl byUser) := by
  fun_cases Ctx.delHdr with
  | case1 h => exact hc
  | case2 e h hdel => exact hc
  | case3 e h hdel hdef => exact hc
  | case4 e h hdel hdef v href => exact hc.modHdr keepsHdr_of e.obj
  | case5 e h hdel hdef v href =>
    have hv : Ok cfg v := hc.modHdr keepsHdr_of e.obj
    obtain ⟨loc,he⟩ := mem_hdrs.mp (findHdr_some h).1
    have hloc : e.isLcl = loc := (hc.hdrOk loc e he).isLcl
    refine (hv.unlinkHdr e).freeHdr (HasHdr.unlinkHdr ?_ e)
    exact (hasHdr_of_mem (hloc ▸ he)).modHdr keepsHdr_of _

theorem HasProc.unlinkHdr (hc : Ok cfg c) (hp : HasProc c p) (hne : e.procCtx ≠ some p.obj) :
    HasProc (c.unlinkHdr e) p := by
  fun_cases Ctx.unlinkHdr with
  | case1 h => exact hp
  | case2 o h hat => exact hp
  | case3 o h x hat v =>
    obtain ⟨hx,hobj⟩ := procAt_some hat
    have hxp : x.obj ≠ p.obj := fun heq => hne (by rw [h,← hobj,heq])
    have hv : Ok cfg v ∧ HasProc v p ∧ ∃ y ∈ v.proc.entries, y.id = x.id ∧ y.obj = x.obj := by
      simp only [v]
      split
      · refine ⟨hc.modProc keepsProc_of o,hp.modProc keepsProc_of o,_,
          List.mem_map_of_mem hx,?_,?_⟩ <;> split <;> rfl
      · exact ⟨hc,hp,x,hx,rfl,rfl⟩
    obtain ⟨hok,hpv,y,hy,hid,hyobj⟩ := hv
    refine hpv.delHdrProcCtx fun z hz => ?_
    obtain ⟨hzmem,hzid⟩ := findProc_some hz
    rw [hok.proc_of_id hzmem hy (hzid.trans hid.symm),hyobj]
    exact hxp

theorem HasProc.delHdr (hc : Ok cfg c) (hp : HasProc c p)
    (hne : ∀ e, c.findHdr hdl = some e → e.procCtx ≠ some p.obj) :
    HasProc (c.delHdr hdl byUser) p := by
  fun_cases Ctx.delHdr with
  | case1 h => exact hp
  | case2 e h hdel => exact hp
  | case3 e h hdel hdef => exact hp
  | case4 e h hdel hdef v href => exact hp
  | case5 e h hdel hdef v href =>
    have hv : Ok cfg v := hc.modHdr keepsHdr_of e.obj
    have hpv : HasProc v p := hp
    exact hpv.unlinkHdr hv (hne e h)

/-- The header of a context that has been unlinked has another context or none. -/
theorem hdrAt_unlinkProc {o : ℕ} (ho : p.hdr = some o)
    (hx : (c.unlinkProc p).hdrAt o = some x) : x.procCtx ≠ some p.obj := by
  revert hx
  fun_cases Ctx.unlinkProc with
  | case1 h => exact absurd (h.symm.trans ho) (Option.some_ne_none o).symm
  | case2 o' h hat =>
    intro hx
    obtain rfl : o' = o := Option.some.inj (h.symm.trans ho)
    exact absurd (hat.symm.trans hx) (Option.some_ne_none x).symm
  | case3 o' h x' hat hlink =>
    intro hx
    obtain rfl : o' = o := Option.some.inj (h.symm.trans ho)
    obtain ⟨hmem,hobj⟩ := hdrAt_some hx
    rw [hdrs_modHdr,List.mem_map] at hmem
    obtain ⟨z,hz,rfl⟩ := hmem
    split at hobj
    · next heq =>
      rw [if_pos heq]
      exact (Option.some_ne_none p.obj).symm
    · next hneq => exact absurd hobj hneq
  | case4 o' h x' hat hlink =>
    intro hx
    obtain rfl : o' = o := Option.some.inj (h.symm.trans ho)
    rwa [← Option.some.inj (hat.symm.trans hx)]

theorem Ok.releaseHdrProcCtx (hc : Ok cfg c) (hdl : ℕ) (byUser : Bool) :
    Ok cfg (c.releaseHdrProcCtx hdl byUser) := by
  fun_cases Ctx.releaseHdrProcCtx with
  | case1 h => exact hc
  | case2 e h hdel => exact hc
  | case3 e h hdel v href => exact hc.modProc keepsProc_of e.obj
  | case4 e h hdel v href u t =>
    have hv : Ok cfg v := hc.modProc keepsProc_of e.obj
    have hu : Ok cfg u := hv.unlinkProc e
    have he : HasProc v e := (hasProc_of_mem (findProc_some h).1).modProc keepsProc_of _
    have heu : HasProc u e := by simpa only [u,HasProc,proc_unlinkProc] using he
    have ht : Ok cfg t ∧ HasProc t e := by
      simp only [t]
      split
      · exact ⟨hu,heu⟩
      · next o ho =>
        split
        · exact ⟨hu.goStale,heu⟩
        · next x hat =>
          refine ⟨hu.delHdr x.id false,heu.delHdr hu fun z hz => ?_⟩
          obtain ⟨hzmem,hzid⟩ := findHdr_some hz
          rw [hu.hdr_of_id hzmem (hdrAt_some hat).1 hzid]
          exact hdrAt_unlinkProc ho hat
    exact ht.1.freeProc ht.2

/-! ## A place is taken -/

section Places

variable {ε : Type} {t : Tbl ε} {size : ℕ → ℕ} {slot : ε → Slot} {bin memSize : ℕ}
  {offsetMem : Bool} {q : Tbl.Placed ε}

/-- A table gives a place: new space at its top, or the first slot of a free list. -/
inductive GivesPlace (size : ℕ → ℕ) (memSize : ℕ) (t : Tbl ε) (bin : ℕ) (q : Tbl.Placed ε) : Prop
  | grows (hroom : t.top+size bin ≤ memSize) (htbl : q.tbl = t.grow (size bin))
    (hslot : q.slot = ⟨t.top,bin⟩)
  | reuses (rest : List Slot) (hfree : t.free bin = q.slot::rest) (htbl : q.tbl = t.setFree bin rest)

theorem place_gives (h : t.place size memSize bin offsetMem = some q) :
    GivesPlace size memSize t bin q := by
  revert h
  fun_cases Tbl.place with
  | case1 slot rest hfree => exact fun h => .reuses rest (by cases h; exact hfree) (by cases h; rfl)
  | case2 hfree hfull => exact fun h => absurd h (Option.some_ne_none q).symm
  | case3 hfree hfull hmem => exact fun h => by cases h; exact .grows (not_lt.mp hfull) rfl rfl
  | case4 hfree hfull hmem => exact fun h => absurd h (Option.some_ne_none q).symm

theorem placeSpilled_gives (h : t.placeSpilled size memSize bin offsetMem = some q) :
    GivesPlace size memSize t bin q := by
  revert h
  fun_cases Tbl.placeSpilled with
  | case1 hfull slot rest hfree => exact fun h => .reuses rest (by cases h; exact hfree) (by cases h; rfl)
  | case2 hfull hfree => exact fun h => absurd h (Option.some_ne_none q).symm
  | case3 hfull hmem => exact fun h => by cases h; exact .grows (not_lt.mp hfull) rfl rfl
  | case4 hfull hmem => exact fun h => absurd h (Option.some_ne_none q).symm

theorem GivesPlace.entries (h : GivesPlace size memSize t bin q) : q.tbl.entries = t.entries := by
  cases h with
  | grows hroom htbl hslot => rw [htbl]; rfl
  | reuses rest hfree htbl => rw [htbl]; rfl

theorem GivesPlace.top_le (h : GivesPlace size memSize t bin q) :
    q.tbl.top ≤ max t.top memSize := by
  cases h with
  | grows hroom htbl hslot =>
    rw [htbl]
    exact hroom.trans (le_max_right _ _)
  | reuses rest hfree htbl =>
    rw [htbl]
    exact le_max_left _ _

theorem GivesPlace.bin_eq (h : GivesPlace size memSize t bin q)
    (ht : Sound size ⟨t.entries.map slot,t.free,t.top⟩) : q.slot.bin = bin := by
  cases h with
  | grows hroom htbl hslot => rw [hslot]
  | reuses rest hfree htbl =>
    have hmem : q.slot ∈ t.free bin := hfree ▸ List.mem_cons_self
    exact ht.bin_free bin _ hmem

theorem GivesPlace.sound (h : GivesPlace size memSize t bin q) (hpos : ∀ b, 0 < size b)
    (ht : Sound size ⟨t.entries.map slot,t.free,t.top⟩) :
    Sound size ⟨q.slot::t.entries.map slot,q.tbl.free,q.tbl.top⟩ := by
  have hbin := h.bin_eq ht
  cases h with
  | grows hroom htbl hslot =>
    rw [htbl,hslot]
    exact sound_grow ht (hpos bin)
  | reuses rest hfree htbl =>
    have := sound_reuse (s := q.slot) ht hfree
    rw [reuse,hbin] at this
    rw [htbl]
    exact this

/-- The place is given back at once. -/
theorem GivesPlace.sound_putFree (h : GivesPlace size memSize t bin q) (hpos : ∀ b, 0 < size b)
    (ht : Sound size ⟨t.entries.map slot,t.free,t.top⟩) :
    Sound size ⟨t.entries.map slot,(q.tbl.putFree q.slot).free,q.tbl.top⟩ := by
  have := sound_release (h.sound hpos ht) (s := q.slot) List.mem_cons_self
  rw [release,List.erase_cons_head] at this
  exact this

end Places

theorem hdrBinSz_pos (b : ℕ) : 0 < hdrBinSz b := by
  unfold hdrBinSz
  split <;> decide

theorem hdrProcCtxBinSz_pos (b : ℕ) : 0 < hdrProcCtxBinSz b := by
  unfold hdrProcCtxBinSz
  split <;> decide

theorem hdrBin_mono {v : Bool} {len bin : ℕ} (h : hdrBin v len = some bin) :
    hdrBin true len = some bin := by
  unfold hdrBin at h ⊢
  grind

theorem hdrBin_le {v : Bool} {len bin : ℕ} (h : hdrBin v len = some bin) : len ≤ hdrBinSz bin := by
  unfold hdrBin at h
  grind

theorem hdrBin_zero_iff {len bin : ℕ} (h : hdrBin true len = some bin) : bin = 0 ↔ len ≤ 8 := by
  simp only [hdrBin,hdrBinSz] at h
  grind

theorem findHdr_none {id : ℕ} (h : c.findHdr id = none) : id ∉ c.hdrs.map HdrEntry.id := by
  intro hmem
  obtain ⟨e,he,rfl⟩ := List.mem_map.mp hmem
  exact absurd (List.find?_eq_none.mp h e he) (by simp)

theorem findProc_none {id : ℕ} (h : c.findProc id = none) :
    id ∉ c.proc.entries.map ProcCtxEntry.id := by
  intro hmem
  obtain ⟨p,hp,rfl⟩ := List.mem_map.mp hmem
  exact absurd (List.find?_eq_none.mp h p hp) (by simp)

theorem tbl_setTbl_self (t : Tbl HdrEntry) : (c.setTbl loc t).tbl loc = t := by simp [setTbl]

theorem tbl_setTbl_of_ne {loc' : Bool} (h : loc' ≠ loc) (t : Tbl HdrEntry) :
    (c.setTbl loc t).tbl loc' = c.tbl loc' := by simp [setTbl,h]

/-- Only the free lists and the top of a table change. -/
theorem Ok.setTbl {t : Tbl HdrEntry} (hc : Ok cfg c) (hentries : t.entries = (c.tbl loc).entries)
    (hsound : Sound hdrBinSz (hdrArena t)) (htop : t.top ≤ max 8 (hdrSize cfg loc)) :
    Ok cfg (c.setTbl loc t) := by
  have hall : ∀ loc', ((c.setTbl loc t).tbl loc').entries = (c.tbl loc').entries := by
    intro loc'
    rcases eq_or_ne loc' loc with rfl | h
    · rw [tbl_setTbl_self,hentries]
    · rw [tbl_setTbl_of_ne h]
  have hhdrs : (c.setTbl loc t).hdrs = c.hdrs := by rw [hdrs,hdrs,hall,hall]
  refine ⟨fun loc' => ?_,hc.procSound,hhdrs ▸ hc.hdrObj,hhdrs ▸ hc.hdrId,hc.procObj,hc.procId,
    hhdrs ▸ hc.hdrLt,hc.procLt,fun loc' e he => hc.hdrOk loc' e (hall loc' ▸ he),fun loc' => ?_,
    hc.procTop⟩
  · rcases eq_or_ne loc' loc with rfl | h
    · rwa [tbl_setTbl_self]
    · rw [tbl_setTbl_of_ne h]
      exact hc.hdrSound loc'
  · rcases eq_or_ne loc' loc with rfl | h
    · rwa [tbl_setTbl_self]
    · rw [tbl_setTbl_of_ne h]
      exact hc.hdrTop loc'

theorem Ok.setProc {t : Tbl ProcCtxEntry} (hc : Ok cfg c) (hentries : t.entries = c.proc.entries)
    (hsound : Sound hdrProcCtxBinSz (procArena t)) (htop : t.top ≤ cfg.hdrProcCtxSize) :
    Ok cfg (c.setProc t) := by
  refine ⟨hc.hdrSound,hsound,hc.hdrObj,hc.hdrId,?_,?_,hc.hdrLt,?_,hc.hdrOk,hc.hdrTop,htop⟩
  · exact (congrArg (List.map ProcCtxEntry.obj) hentries).symm ▸ hc.procObj
  · exact (congrArg (List.map ProcCtxEntry.id) hentries).symm ▸ hc.procId
  · exact fun p hp => hc.procLt p (hentries ▸ hp)

theorem placeHdr_gives {isLcl offsetMem : Bool} {bin : ℕ} {q : Tbl.Placed HdrEntry}
    (h : c.placeHdr cfg isLcl bin offsetMem = some (loc,q)) :
    GivesPlace hdrBinSz (hdrSize cfg loc) (c.tbl loc) bin q := by
  revert h
  fun_cases Ctx.placeHdr with
  | case1 t hspill =>
    intro h
    obtain ⟨q',hq,heq⟩ := Option.map_eq_some_iff.mp h
    obtain ⟨rfl,rfl⟩ := Prod.mk.inj heq
    exact placeSpilled_gives hq
  | case2 t hspill =>
    intro h
    obtain ⟨q',hq,heq⟩ := Option.map_eq_some_iff.mp h
    obtain ⟨rfl,rfl⟩ := Prod.mk.inj heq
    exact place_gives hq

theorem idFree_of_filter {id : ℕ} {o : Option ℕ} (h : o.filter c.idFree = some id) :
    c.findHdr id = none ∧ c.findProc id = none := by
  have hfree : c.idFree id = true := (Option.filter_eq_some_iff.mp h).2
  simpa [idFree] using hfree

/-- One more header -/
theorem hdrs_setTbl_insert {t : Tbl HdrEntry} (hentries : t.entries = (c.tbl loc).entries)
    (e : HdrEntry) : ((c.setTbl loc (t.insert e)).hdrs).Perm (e::c.hdrs) := by
  cases loc
  · have : (c.setTbl false (t.insert e)).hdrs = (c.tbl true).entries++e::(c.tbl false).entries := by
      simp [hdrs,Ctx.setTbl,Tbl.insert,hentries]
    rw [this]
    exact List.perm_middle
  · have : (c.setTbl true (t.insert e)).hdrs = e::c.hdrs := by
      simp [hdrs,Ctx.setTbl,Tbl.insert,hentries]
    rw [this]

theorem Ok.insertHdr {h : HdrAdd} {user : Bool} {q : Tbl.Placed HdrEntry} {bin : ℕ} (hc : Ok cfg c)
    (hq : GivesPlace hdrBinSz (hdrSize cfg loc) (c.tbl loc) bin q)
    (hbin : hdrBin true h.hdr.length = some bin)
    (id : Option ℕ) : Ok cfg (c.insertHdr h user loc q id).1 := by
  have ht : Sound hdrBinSz ⟨(c.tbl loc).entries.map HdrEntry.slot,(c.tbl loc).free,
      (c.tbl loc).top⟩ := hc.hdrSound loc
  have htop : q.tbl.top ≤ max 8 (hdrSize cfg loc) :=
    hq.top_le.trans (max_le (hc.hdrTop loc) (le_max_right _ _))
  fun_cases Ctx.insertHdr with
  | case1 hid =>
    refine hc.setTbl hq.entries ?_ htop
    rw [hdrArena]
    change Sound hdrBinSz ⟨q.tbl.entries.map HdrEntry.slot,(q.tbl.putFree q.slot).free,q.tbl.top⟩
    rw [hq.entries]
    exact hq.sound_putFree hdrBinSz_pos ht
  | case2 id' hid =>
    have hperm := hdrs_setTbl_insert hq.entries
      (⟨c.nextObj,id',h.hdr,h.name,loc,user,false,1,none,q.slot⟩ : HdrEntry)
    refine ⟨fun loc' => ?_,hc.procSound,?_,?_,hc.procObj,hc.procId,?_,?_,?_,fun loc' => ?_,
      hc.procTop⟩
    · rcases eq_or_ne loc' loc with rfl | hne
      · have := hq.sound hdrBinSz_pos ht
        simpa [hdrArena,Ctx.setTbl,Tbl.insert,hq.entries] using this
      · simpa [Ctx.setTbl,hne] using hc.hdrSound loc'
    · refine (hperm.map HdrEntry.obj).nodup_iff.mpr (List.nodup_cons.mpr ⟨?_,hc.hdrObj⟩)
      intro hmem
      obtain ⟨e,he,heq⟩ := List.mem_map.mp hmem
      exact absurd heq (hc.hdrLt e he).ne
    · exact (hperm.map HdrEntry.id).nodup_iff.mpr
        (List.nodup_cons.mpr ⟨findHdr_none (idFree_of_filter hid).1,hc.hdrId⟩)
    · intro e he
      rcases List.mem_cons.mp (hperm.mem_iff.mp he) with rfl | he
      · exact Nat.lt_succ_self _
      · exact (hc.hdrLt e he).trans (Nat.lt_succ_self _)
    · exact fun p hp => (hc.procLt p hp).trans (Nat.lt_succ_self _)
    · intro loc' e he
      rcases eq_or_ne loc' loc with rfl | hne
      · simp only [tbl_setTbl_self,Tbl.insert,hq.entries,List.mem_cons] at he
        rcases he with rfl | he
        · exact ⟨rfl,hbin.trans (congrArg some (hq.bin_eq ht).symm)⟩
        · exact hc.hdrOk loc' e he
      · simp only [tbl_setTbl_of_ne hne] at he
        exact hc.hdrOk loc' e he
    · rcases eq_or_ne loc' loc with rfl | hne
      · simpa [Ctx.setTbl,Tbl.insert] using htop
      · simpa [Ctx.setTbl,hne] using hc.hdrTop loc'

theorem Ok.addHdr (hc : Ok cfg c) (h : HdrAdd) (user : Bool) (m : Mem) :
    Ok cfg (c.addHdr cfg h user m).1 := by
  fun_cases Ctx.addHdr with
  | case1 hbad => exact hc
  | case2 hbad e hdup => exact hc
  | case3 hbad hdup hbin => exact hc
  | case4 hbad hdup bin hbin hplace => exact hc
  | case5 hbad hdup bin hbin loc q hplace =>
    exact hc.insertHdr (placeHdr_gives hplace) (hdrBin_mono hbin) m.id

theorem Ok.insertProc {user : Bool} {q : Tbl.Placed ProcCtxEntry} {bin : ℕ} (hc : Ok cfg c)
    (hq : GivesPlace hdrProcCtxBinSz cfg.hdrProcCtxSize c.proc bin q) (e : HdrEntry) (id : Option ℕ) :
    Ok cfg (c.insertProc e user q id).1 := by
  have ht : Sound hdrProcCtxBinSz ⟨c.proc.entries.map ProcCtxEntry.slot,c.proc.free,
      c.proc.top⟩ := hc.procSound
  have htop : q.tbl.top ≤ cfg.hdrProcCtxSize := hq.top_le.trans (max_le hc.procTop (le_refl _))
  fun_cases Ctx.insertProc with
  | case1 hid =>
    refine hc.setProc hq.entries ?_ htop
    rw [procArena]
    change Sound hdrProcCtxBinSz
      ⟨q.tbl.entries.map ProcCtxEntry.slot,(q.tbl.putFree q.slot).free,q.tbl.top⟩
    rw [hq.entries]
    exact hq.sound_putFree hdrProcCtxBinSz_pos ht
  | case2 id' hid =>
    refine Ok.modHdr (c := { c.setProc (q.tbl.insert
      ⟨c.nextObj,id',some e.obj,user,false,1,q.slot⟩) with nextObj := c.nextObj+1 }) ?_
      keepsHdr_of e.obj
    refine ⟨hc.hdrSound,?_,hc.hdrObj,hc.hdrId,?_,?_,?_,?_,hc.hdrOk,hc.hdrTop,htop⟩
    · have := hq.sound hdrProcCtxBinSz_pos ht
      simpa [procArena,Ctx.setProc,Tbl.insert,hq.entries] using this
    · simp only [Ctx.setProc,Tbl.insert,hq.entries,List.map_cons,List.nodup_cons]
      refine ⟨fun hmem => ?_,hc.procObj⟩
      obtain ⟨p,hp,heq⟩ := List.mem_map.mp hmem
      exact absurd heq (hc.procLt p hp).ne
    · simp only [Ctx.setProc,Tbl.insert,hq.entries,List.map_cons,List.nodup_cons]
      exact ⟨findProc_none (idFree_of_filter hid).2,hc.procId⟩
    · exact fun x hx => (hc.hdrLt x hx).trans (Nat.lt_succ_self _)
    · intro p hp
      simp only [Ctx.setProc,Tbl.insert,hq.entries,List.mem_cons] at hp
      rcases hp with rfl | hp
      · exact Nat.lt_succ_self _
      · exact (hc.procLt p hp).trans (Nat.lt_succ_self _)

theorem Ok.addHdrProcCtx (hc : Ok cfg c) (hdl : ℕ) (neededLen : Option ℕ) (user : Bool) (m : Mem) :
    Ok cfg (c.addHdrProcCtx cfg hdl neededLen user m).1 := by
  fun_cases Ctx.addHdrProcCtx with
  | case1 bin e hbin hfind hmem hplace => exact hc
  | case2 bin e hbin hfind hmem q hplace => exact hc.insertProc (place_gives hplace) e m.id
  | case3 bin e hbin hfind hmem => exact hc
  | case4 h => exact hc

theorem Ok.addHpcHdr (hc : Ok cfg c) (h : HdrAdd) (user : Bool) (m m' : Mem) :
    Ok cfg (c.addHpcHdr cfg h user m m') := by
  unfold Ctx.addHpcHdr
  have hadd := hc.addHdr { h with toDdr := true } user m
  split
  · next c₁ heq =>
    rw [heq] at hadd
    exact hadd
  · next c₁ o heq =>
    rw [heq] at hadd
    split
    · exact hadd
    · next e hat =>
      have hproc := Ok.addHdrProcCtx hadd e.id (some procNoneLen) user m'
      split
      · next c₂ heq₂ =>
        rw [heq₂] at hproc
        exact hproc.delHdr e.id user
      · next c₂ o₂ heq₂ =>
        rw [heq₂] at hproc
        exact (hproc.modHdr keepsHdr_of o).modProc keepsProc_of o₂

theorem Ok.delHdrHpc (hc : Ok cfg c) (hdl : ℕ) (byUser : Bool) : Ok cfg (c.delHdrHpc hdl byUser) := by
  fun_cases Ctx.delHdrHpc with
  | case1 h => exact hc
  | case2 e h v u hp => exact (hc.modHdr keepsHdr_of e.obj).delHdr hdl byUser
  | case3 e h v u o hp hat =>
    exact ((hc.modHdr keepsHdr_of e.obj).delHdr hdl byUser).goStale
  | case4 e h v u o hp x hat =>
    have hu : Ok cfg u := (hc.modHdr keepsHdr_of e.obj).delHdr hdl byUser
    exact (hu.modProc keepsProc_of o).delHdrProcCtx x.id false

theorem Ok.rtTakeHdr (hc : Ok cfg c) (hdl : ℕ) : Ok cfg (c.rtTakeHdr hdl) := by
  fun_cases Ctx.rtTakeHdr with
  | case1 h => exact hc
  | case2 e h => exact hc.modHdr keepsHdr_of e.obj

theorem Ok.rtTakeProc (hc : Ok cfg c) (hdl : ℕ) : Ok cfg (c.rtTakeProc hdl) := by
  fun_cases Ctx.rtTakeProc with
  | case1 h => exact hc
  | case2 e h => exact hc.modProc keepsProc_of e.obj

/-! ## Reset -/

theorem HasHdr.freeHdr (h : HasHdr c loc x) (hne : e.obj ≠ x.obj) : HasHdr (c.freeHdr loc e) loc x := by
  obtain ⟨z,hz,hobj,hslot⟩ := h
  refine ⟨z,?_,hobj,hslot⟩
  simpa [Ctx.freeHdr,Ctx.setTbl,hz,hobj] using hne.symm

/-- What `resetOne` does before the header is freed -/
theorem resetOne_eq (c : Ctx) (loc : Bool) (e : HdrEntry) :
    ∃ v : Ctx, c.resetOne loc e = v.freeHdr loc e ∧ v.tbl = c.tbl ∧ ∀ cfg, Ok cfg c → Ok cfg v := by
  fun_cases Ctx.resetOne with
  | case1 v =>
    refine ⟨v,rfl,?_,fun cfg hc => ?_⟩
    · simp only [v]
      split
      · rfl
      · split <;> rfl
    · simp only [v]
      split
      · exact hc
      · next o ho =>
        split
        · exact hc.modProc keepsProc_of o
        · exact hc.goStale

theorem hasHdr_congr (h : c'.tbl = c.tbl) (hh : HasHdr c loc e) : HasHdr c' loc e := by
  rwa [HasHdr,h]

theorem foldl_resetOne_spec (l : List HdrEntry) {c : Ctx} (hc : Ok cfg c)
    (hl : ∀ e ∈ l, HasHdr c loc e) (hnodup : (l.map HdrEntry.obj).Nodup) :
    Ok cfg (l.foldl (fun c e => c.resetOne loc e) c) ∧
      (∀ x ∈ ((l.foldl (fun c e => c.resetOne loc e) c).tbl loc).entries,
        x ∈ (c.tbl loc).entries ∧ x.obj ∉ l.map HdrEntry.obj) ∧
      ∀ loc', loc' ≠ loc → (l.foldl (fun c e => c.resetOne loc e) c).tbl loc' = c.tbl loc' := by
  induction l generalizing c with
  | nil => exact ⟨hc,fun x hx => ⟨hx,List.not_mem_nil⟩,fun _ _ => rfl⟩
  | cons e l ih =>
    obtain ⟨v,hreset,htbl,hok⟩ := resetOne_eq c loc e
    rw [List.map_cons,List.nodup_cons] at hnodup
    rw [List.forall_mem_cons] at hl
    have hv : HasHdr v loc e := hasHdr_congr htbl hl.1
    have hc' : Ok cfg (c.resetOne loc e) := hreset ▸ (hok cfg hc).freeHdr hv
    have hl' : ∀ x ∈ l, HasHdr (c.resetOne loc e) loc x := by
      intro x hx
      rw [hreset]
      refine (hasHdr_congr htbl (hl.2 x hx)).freeHdr fun heq => hnodup.1 ?_
      exact heq ▸ List.mem_map_of_mem hx
    obtain ⟨hfold,hmem,hother⟩ := ih hc' hl' hnodup.2
    refine ⟨hfold,fun x hx => ?_,fun loc' h => ?_⟩
    · obtain ⟨hx,hnot⟩ := hmem x hx
      rw [hreset] at hx
      have hfilter : x ∈ (v.tbl loc).entries ∧ x.obj ≠ e.obj := by
        simpa [Ctx.freeHdr,Ctx.setTbl] using hx
      refine ⟨htbl ▸ hfilter.1,?_⟩
      rw [List.map_cons,List.mem_cons,not_or]
      exact ⟨hfilter.2,hnot⟩
    · rw [List.foldl_cons,hother loc' h,hreset,tbl_freeHdr_of_ne h,htbl]

/-- A default header that a reset leaves must not be longer than the space it leaves for it. -/
def DefaultShort (c : Ctx) (loc : Bool) : Prop :=
  ∀ e ∈ (c.tbl loc).entries, isDefault e = true → e.hdr.length ≤ 8

theorem slots_below {t : Tbl HdrEntry} (hok : ∀ e ∈ t.entries, HdrOk loc e)
    (hdefault : ∀ e ∈ t.entries, isDefault e = true ∧ e.hdr.length ≤ 8) :
    ∀ s ∈ t.entries.map HdrEntry.slot, s.offset+hdrBinSz s.bin ≤ 8 := by
  intro s hs
  obtain ⟨e,he,rfl⟩ := List.mem_map.mp hs
  obtain ⟨hdef,hlen⟩ := hdefault e he
  have hoffset : e.slot.offset = 0 := by
    simp only [isDefault,Bool.and_eq_true,decide_eq_true_eq] at hdef
    exact hdef.2
  rw [hoffset,(hdrBin_zero_iff (hok e he).bin).mpr hlen]
  exact le_refl _

theorem Ok.resetTbl (hc : Ok cfg c) (userOnly loc : Bool)
    (hshort : userOnly = false → DefaultShort c loc) : Ok cfg (c.resetTbl userOnly loc) ∧
      ∀ loc', loc' ≠ loc → (c.resetTbl userOnly loc).tbl loc' = c.tbl loc' := by
  unfold Ctx.resetTbl
  extract_lets gone v
  have hsub : gone.Sublist (c.tbl loc).entries := List.filter_sublist
  obtain ⟨hv,hmem,hother⟩ := foldl_resetOne_spec gone hc
    (fun e he => hasHdr_of_mem (hsub.subset he)) (sublist_nodup_map hsub (hc.nodup_obj loc))
  split
  · exact ⟨hv,hother⟩
  · next huser =>
    rw [Bool.not_eq_true] at huser
    refine ⟨hv.setTbl rfl ?_ (le_max_left _ _),fun loc' h => ?_⟩
    · refine sound_keep (hv.hdrSound loc) (List.Sublist.refl _) (slots_below (hv.hdrOk loc) ?_)
      intro x hx
      obtain ⟨hin,hnot⟩ := hmem x hx
      have hdef : isDefault x = true := by
        by_contra hno
        rw [Bool.not_eq_true] at hno
        exact hnot (List.mem_map_of_mem (List.mem_filter.mpr ⟨hin,by simp [hno,huser]⟩))
      exact ⟨hdef,hshort huser x hin hdef⟩
    · rw [tbl_setTbl_of_ne h]
      exact hother loc' h

theorem foldl_freeProc_spec (l : List ProcCtxEntry) {c : Ctx} (hc : Ok cfg c)
    (hl : ∀ p ∈ l, HasProc c p) (hnodup : (l.map ProcCtxEntry.obj).Nodup) :
    Ok cfg (l.foldl (fun c p => c.freeProc p) c) ∧
      ∀ y ∈ (l.foldl (fun c p => c.freeProc p) c).proc.entries,
        y ∈ c.proc.entries ∧ y.obj ∉ l.map ProcCtxEntry.obj := by
  induction l generalizing c with
  | nil => exact ⟨hc,fun y hy => ⟨hy,List.not_mem_nil⟩⟩
  | cons p l ih =>
    rw [List.map_cons,List.nodup_cons] at hnodup
    rw [List.forall_mem_cons] at hl
    have hl' : ∀ y ∈ l, HasProc (c.freeProc p) y := fun y hy =>
      (hl.2 y hy).freeProc fun heq => hnodup.1 (heq ▸ List.mem_map_of_mem hy)
    obtain ⟨hfold,hmem⟩ := ih (hc.freeProc hl.1) hl' hnodup.2
    refine ⟨hfold,fun y hy => ?_⟩
    obtain ⟨hy,hnot⟩ := hmem y hy
    have hfilter : y ∈ c.proc.entries ∧ y.obj ≠ p.obj := by
      simpa [Ctx.freeProc,Ctx.setProc] using hy
    refine ⟨hfilter.1,?_⟩
    rw [List.map_cons,List.mem_cons,not_or]
    exact ⟨hfilter.2,hnot⟩

theorem Ok.resetProc (hc : Ok cfg c) (userOnly : Bool) : Ok cfg (c.resetProc userOnly) := by
  unfold Ctx.resetProc
  extract_lets gone v
  have hsub : gone.Sublist c.proc.entries := List.filter_sublist
  obtain ⟨hv,hmem⟩ := foldl_freeProc_spec gone hc
    (fun p hp => hasProc_of_mem (hsub.subset hp)) (sublist_nodup_map hsub hc.procObj)
  split
  · exact hv
  · next huser =>
    rw [Bool.not_eq_true] at huser
    have hnil : v.proc.entries = [] := by
      refine List.eq_nil_iff_forall_not_mem.mpr fun y hy => ?_
      obtain ⟨hin,hnot⟩ := hmem y hy
      exact hnot (List.mem_map_of_mem (List.mem_filter.mpr ⟨hin,by simp [huser]⟩))
    refine hv.setProc rfl ?_ (Nat.zero_le _)
    rw [procArena,hnil]
    exact sound_empty 0

theorem Ok.resetHdr (hc : Ok cfg c) (userOnly : Bool)
    (hshort : userOnly = false → ∀ loc, DefaultShort c loc) : Ok cfg (c.resetHdr userOnly) := by
  obtain ⟨hlcl,hother⟩ := hc.resetTbl userOnly true fun h => hshort h true
  obtain ⟨hsys,_⟩ := hlcl.resetTbl userOnly false fun h => by
    rw [DefaultShort,hother false Bool.false_ne_true]
    exact hshort h false
  exact hsys.resetProc userOnly

theorem ok_init : Ok cfg init := by
  refine ⟨fun _ => sound_empty 0,sound_empty 0,List.nodup_nil,List.nodup_nil,List.nodup_nil,
    List.nodup_nil,fun e he => ?_,fun p hp => ?_,fun _ e he => ?_,fun _ => Nat.zero_le _,
    Nat.zero_le _⟩
  · exact absurd he List.not_mem_nil
  · exact absurd hp List.not_mem_nil
  · exact absurd he List.not_mem_nil

/-- A reset of everything leaves a default header that is longer than what it leaves space for. -/
def LeavesLong (c : Ctx) (op : Op) : Prop :=
  match op with
  | .resetHdr userOnly => userOnly = false ∧ ∃ loc, ¬DefaultShort c loc
  | _ => False

theorem step_ok (hc : Ok cfg c) (op : Op) (hop : ¬LeavesLong c op) : Ok cfg (step cfg c op) := by
  cases op with
  | addHdr h user m => exact hc.addHdr h user m
  | addHdrProcCtx hdl neededLen user m => exact hc.addHdrProcCtx hdl neededLen user m
  | addHpcHdr h user m m' => exact hc.addHpcHdr h user m m'
  | delHdr hdl byUser => exact hc.delHdr hdl byUser
  | delHdrProcCtx hdl byUser => exact hc.releaseHdrProcCtx hdl byUser
  | delHdrHpc hdl byUser => exact hc.delHdrHpc hdl byUser
  | rtTakeHdr hdl => exact hc.rtTakeHdr hdl
  | rtTakeProc hdl => exact hc.rtTakeProc hdl
  | rtReleaseHdr hdl => exact hc.delHdr hdl false
  | rtReleaseProc hdl => exact hc.releaseHdrProcCtx hdl false
  | resetHdr userOnly =>
    refine hc.resetHdr userOnly fun huser loc => ?_
    by_contra hno
    exact hop ⟨huser,loc,hno⟩

end IpaHdr
end MarbleModules
