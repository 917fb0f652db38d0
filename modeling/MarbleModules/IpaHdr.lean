import MarbleModules.BinArena
import MarbleModules.Runs

/-! The IPA header tables, one in SRAM and one in DDR, and the table of processing contexts: how
headers get their places, who holds a reference to what, and the image that is given to the
hardware. -/
namespace MarbleModules
namespace IpaHdr

open BinArena

/-- `ipa_hdr_bin_sz` -/
def hdrBinSz : ℕ → ℕ
  | 0 => 8
  | 1 => 16
  | 2 => 24
  | 3 => 36
  | 4 => 64
  | _ => 128

/-- `ipa_hdr_proc_ctx_bin_sz` -/
def hdrProcCtxBinSz : ℕ → ℕ
  | 0 => 32
  | _ => 64

/-- `IPA_LAN_RX_HDR_NAME` -/
def lanRxHdrName : String := "ipa_lan_hdr"

/-- What depends on the chip: the `IPA_MEM_PART` sizes, whether the hardware is 4.5 or later and
`IPA_HDR_MAX_SIZE`. -/
structure Config where
  appsHdrSize : ℕ
  appsHdrSizeDdr : ℕ
  hdrProcCtxSize : ℕ
  hwV45 : Bool
  hdrMaxSize : ℕ

/-- `struct ipa3_hdr_entry`. `obj` stands for its address, and `procCtx` is the address of a
processing context. -/
structure HdrEntry where
  obj : ℕ
  id : ℕ
  hdr : List UInt8
  name : String
  isLcl : Bool
  ipacmInstalled : Bool
  userDeleted : Bool
  refCnt : ℕ
  procCtx : Option ℕ
  slot : Slot

/-- `struct ipa3_hdr_proc_ctx_entry` -/
structure ProcCtxEntry where
  obj : ℕ
  id : ℕ
  hdr : Option ℕ
  ipacmInstalled : Bool
  userDeleted : Bool
  refCnt : ℕ
  slot : Slot

/-- `struct ipa3_hdr_tbl` and `struct ipa3_hdr_proc_ctx_tbl`, without the list of the offset
entries in use -/
structure Tbl (ε : Type) where
  entries : List ε
  free : ℕ → List Slot
  top : ℕ
  cnt : ℤ

/-- The part of `ipa3_ctx` that is about headers. `tbl true` is the local table. `nextObj` is an
address that has not been given out yet, and `stale` whether an entry has been used after it was
freed. -/
structure Ctx where
  tbl : Bool → Tbl HdrEntry
  proc : Tbl ProcCtxEntry
  nextObj : ℕ
  stale : Bool

/-- `ref_cnt` is a `u32`. -/
def decRef (n : ℕ) : ℕ := (n+2^32-1)%2^32
def incRef (n : ℕ) : ℕ := (n+1)%2^32

/-- The smallest bin for a header; the last one only from hardware 4.5 on. -/
def hdrBin (hwV45 : Bool) (hdrLen : ℕ) : Option ℕ :=
  if hdrLen ≤ hdrBinSz 0 then some 0
  else if hdrLen ≤ hdrBinSz 1 then some 1
  else if hdrLen ≤ hdrBinSz 2 then some 2
  else if hdrLen ≤ hdrBinSz 3 then some 3
  else if hdrLen ≤ hdrBinSz 4 then some 4
  else if hdrLen ≤ hdrBinSz 5 ∧ hwV45 = true then some 5
  else none

def procCtxBin (neededLen : ℕ) : Option ℕ :=
  if neededLen ≤ hdrProcCtxBinSz 0 then some 0
  else if neededLen ≤ hdrProcCtxBinSz 1 then some 1
  else none

namespace Tbl

variable {ε : Type} (t : Tbl ε)

def grow (size : ℕ) : Tbl ε := { t with top := t.top+size }

def setFree (bin : ℕ) (slots : List Slot) : Tbl ε :=
  { t with free := Function.update t.free bin slots }

/-- A slot is put in front of its free list. -/
def putFree (slot : Slot) : Tbl ε := t.setFree slot.bin (slot::t.free slot.bin)

def insert (e : ε) : Tbl ε := { t with entries := e::t.entries, cnt := t.cnt+1 }

/-- A table in which a place has been found, and the place -/
structure Placed (ε : Type) where
  tbl : Tbl ε
  slot : Slot

/-- A place in a table: one from the free list, else new space. `offsetMem` is whether there is
memory for an offset entry. -/
def place (size : ℕ → ℕ) (memSize bin : ℕ) (offsetMem : Bool) : Option (Placed ε) :=
  match t.free bin with
  | slot::rest => some ⟨t.setFree bin rest,slot⟩
  | [] =>
    if memSize < t.top+size bin then none
    else if offsetMem then some ⟨t.grow (size bin),⟨t.top,bin⟩⟩
    else none

/-- A place for a header that did not fit into SRAM: new space, and the free list only when there
is none. -/
def placeSpilled (size : ℕ → ℕ) (memSize bin : ℕ) (offsetMem : Bool) : Option (Placed ε) :=
  if memSize < t.top+size bin then
    match t.free bin with
    | slot::rest => some ⟨t.setFree bin rest,slot⟩
    | [] => none
  else if offsetMem then some ⟨t.grow (size bin),⟨t.top,bin⟩⟩
  else none

end Tbl

/-- A header to be added; `toDdr` is a status of `IPA_HDR_TO_DDR_PATTERN`. -/
structure HdrAdd where
  hdr : List UInt8
  name : String
  isPartial : Bool
  toDdr : Bool
  typeValid : Bool

/-- What the environment gives: memory for the entry and the offset entry, and a handle. -/
structure Mem where
  entry : Bool
  offset : Bool
  id : Option ℕ

namespace Ctx

variable (cfg : Config) (c : Ctx)

def setTbl (loc : Bool) (t : Tbl HdrEntry) : Ctx := { c with tbl := Function.update c.tbl loc t }
def setProc (t : Tbl ProcCtxEntry) : Ctx := { c with proc := t }

/-- The headers of both tables -/
def hdrs : List HdrEntry := (c.tbl true).entries++(c.tbl false).entries

/-- `ipa3_id_find` and the check of the cookie -/
def findHdr (hdl : ℕ) : Option HdrEntry := c.hdrs.find? fun e => e.id = hdl
def findProc (hdl : ℕ) : Option ProcCtxEntry := c.proc.entries.find? fun e => e.id = hdl

/-- The entry at an address, if it has not been freed -/
def hdrAt (obj : ℕ) : Option HdrEntry := c.hdrs.find? fun e => e.obj = obj
def procAt (obj : ℕ) : Option ProcCtxEntry := c.proc.entries.find? fun e => e.obj = obj

def modHdr (obj : ℕ) (f : HdrEntry → HdrEntry) : Ctx :=
  { c with
    tbl := fun loc => { c.tbl loc with
      entries := (c.tbl loc).entries.map fun e => if e.obj = obj then f e else e } }

def modProc (obj : ℕ) (f : ProcCtxEntry → ProcCtxEntry) : Ctx :=
  { c with
    proc := { c.proc with
      entries := c.proc.entries.map fun e => if e.obj = obj then f e else e } }

def goStale : Ctx := { c with stale := true }

/-- The idr does not give out a handle twice. -/
def idFree (id : ℕ) : Bool := (c.findHdr id).isNone && (c.findProc id).isNone

/-- The header is taken off its list, and its offset entry goes to the free list of a table. -/
def freeHdr (loc : Bool) (e : HdrEntry) : Ctx :=
  let t := c.tbl loc
  c.setTbl loc { t.putFree e.slot with
    entries := t.entries.filter fun x => x.obj ≠ e.obj
    cnt := t.cnt-1 }

def freeProc (e : ProcCtxEntry) : Ctx :=
  c.setProc { c.proc.putFree e.slot with
    entries := c.proc.entries.filter fun x => x.obj ≠ e.obj
    cnt := c.proc.cnt-1 }

/-- A context that goes is forgotten by its header, if the header knows it. -/
def unlinkProc (e : ProcCtxEntry) : Ctx :=
  match e.hdr with
  | none => c
  | some h =>
    match c.hdrAt h with
    | none => c.goStale
    | some x => if x.procCtx = some e.obj then c.modHdr h fun x => { x with procCtx := none } else c

/-- `__ipa3_del_hdr_proc_ctx` without `release_hdr` -/
def delHdrProcCtx (hdl : ℕ) (byUser : Bool) : Ctx :=
  match c.findProc hdl with
  | none => c
  | some e =>
    if byUser ∧ e.userDeleted then c
    else
      let c := c.modProc e.obj fun x =>
        { x with userDeleted := x.userDeleted || byUser, refCnt := decRef x.refCnt }
      if decRef e.refCnt ≠ 0 then c else (c.unlinkProc e).freeProc e

/-- A header that goes: its context forgets it, if it is its header, and loses a reference. -/
def unlinkHdr (e : HdrEntry) : Ctx :=
  match e.procCtx with
  | none => c
  | some p =>
    match c.procAt p with
    | none => c.goStale
    | some x =>
      let c := if x.hdr = some e.obj then c.modProc p fun x => { x with hdr := none } else c
      c.delHdrProcCtx x.id false

/-- `__ipa3_del_hdr` -/
def delHdr (hdl : ℕ) (byUser : Bool) : Ctx :=
  match c.findHdr hdl with
  | none => c
  | some e =>
    if byUser ∧ e.userDeleted then c
    else if byUser ∧ e.name = lanRxHdrName ∧ e.slot.offset = 0 then c
    else
      let c := c.modHdr e.obj fun x =>
        { x with userDeleted := x.userDeleted || byUser, refCnt := decRef x.refCnt }
      if decRef e.refCnt ≠ 0 then c else (c.unlinkHdr e).freeHdr e.isLcl e

/-- `__ipa3_del_hdr_proc_ctx` with `release_hdr` -/
def releaseHdrProcCtx (hdl : ℕ) (byUser : Bool) : Ctx :=
  match c.findProc hdl with
  | none => c
  | some e =>
    if byUser ∧ e.userDeleted then c
    else
      let c := c.modProc e.obj fun x =>
        { x with userDeleted := x.userDeleted || byUser, refCnt := decRef x.refCnt }
      if decRef e.refCnt ≠ 0 then c
      else
        let c := c.unlinkProc e
        let c := match e.hdr with
          | none => c
          | some h =>
            match c.hdrAt h with
            | none => c.goStale
            | some x => c.delHdr x.id false
        c.freeProc e

/-- Where a header goes at first -/
def isLclAtFirst (h : HdrAdd) : Bool :=
  !((cfg.appsHdrSizeDdr ≠ 0 ∧ (h.isPartial ∨ h.toDdr)) ∨ cfg.appsHdrSize = 0)

def hdrSize (loc : Bool) : ℕ := if loc then cfg.appsHdrSize else cfg.appsHdrSizeDdr

/-- The place that `__ipa_add_hdr` finds, and in which table -/
def placeHdr (isLcl : Bool) (bin : ℕ) (offsetMem : Bool) : Option (Bool × Tbl.Placed HdrEntry) :=
  let t := c.tbl isLcl
  if isLcl ∧ t.free bin = [] ∧ hdrSize cfg isLcl < t.top+hdrBinSz bin then
    ((c.tbl false).placeSpilled hdrBinSz (hdrSize cfg false) bin offsetMem).map (false,·)
  else (t.place hdrBinSz (hdrSize cfg isLcl) bin offsetMem).map (isLcl,·)

/-- The entry is put in, or its place is free again when there is no handle for it. -/
def insertHdr (h : HdrAdd) (user loc : Bool) (p : Tbl.Placed HdrEntry) (id : Option ℕ) :
    Ctx × Option ℕ :=
  match id.filter c.idFree with
  | none => (c.setTbl loc (p.tbl.putFree p.slot),none)
  | some id =>
    ({ c.setTbl loc (p.tbl.insert ⟨c.nextObj,id,h.hdr,h.name,loc,user,false,1,none,p.slot⟩) with
        nextObj := c.nextObj+1 },some c.nextObj)

/-- `__ipa_add_hdr`: the entry that was added, or the one of that name. -/
def addHdr (h : HdrAdd) (user : Bool) (m : Mem) : Ctx × Option ℕ :=
  if cfg.hdrMaxSize < h.hdr.length ∨ h.typeValid = false ∨ m.entry = false then (c,none)
  else
    match c.hdrs.find? fun e => user ∧ e.name = h.name with
    | some e => (c,some e.obj)
    | none =>
      match hdrBin cfg.hwV45 h.hdr.length with
      | none => (c,none)
      | some bin =>
        match c.placeHdr cfg (isLclAtFirst cfg h) bin m.offset with
        | none => (c,none)
        | some (loc,p) => c.insertHdr h user loc p m.id

/-- The end of `__ipa_add_hdr_proc_ctx`: with a handle the context has a reference to its header. -/
def insertProc (e : HdrEntry) (user : Bool) (p : Tbl.Placed ProcCtxEntry) (id : Option ℕ) :
    Ctx × Option ℕ :=
  match id.filter c.idFree with
  | none => (c.setProc (p.tbl.putFree p.slot),none)
  | some id =>
    ({ (c.setProc (p.tbl.insert ⟨c.nextObj,id,some e.obj,user,false,1,p.slot⟩)).modHdr e.obj
        (fun x => { x with refCnt := incRef x.refCnt }) with nextObj := c.nextObj+1 },
      some c.nextObj)

/-- `__ipa_add_hdr_proc_ctx` for a type whose context has a length; `none` is a type that has
none. -/
def addHdrProcCtx (hdl : ℕ) (neededLen : Option ℕ) (user : Bool) (m : Mem) : Ctx × Option ℕ :=
  match neededLen.bind procCtxBin,c.findHdr hdl with
  | some bin,some e =>
    if m.entry then
      match c.proc.place hdrProcCtxBinSz cfg.hdrProcCtxSize bin m.offset with
      | none => (c,none)
      | some p => c.insertProc e user p m.id
    else (c,none)
  | _,_ => (c,none)

/-- `sizeof(struct ipa_hw_hdr_proc_ctx_add_hdr_seq)`, what a context of type `IPA_HDR_PROC_NONE`
needs -/
def procNoneLen : ℕ := 16

/-- `__ipa_add_hpc_hdr_insertion`: a header with a context of its own -/
def addHpcHdr (h : HdrAdd) (user : Bool) (m m' : Mem) : Ctx :=
  match c.addHdr cfg { h with toDdr := true } user m with
  | (c,none) => c
  | (c,some obj) =>
    match c.hdrAt obj with
    | none => c
    | some e =>
      match c.addHdrProcCtx cfg e.id (some procNoneLen) user m' with
      | (c,none) => c.delHdr e.id user
      | (c,some p) =>
        (c.modHdr obj fun x => { x with procCtx := some p }).modProc p fun x =>
          { x with refCnt := incRef x.refCnt }

/-- One handle of `ipa3_del_hdr_hpc_usr` -/
def delHdrHpc (hdl : ℕ) (byUser : Bool) : Ctx :=
  match c.findHdr hdl with
  | none => c
  | some e =>
    let c := c.modHdr e.obj fun x => { x with procCtx := none, refCnt := decRef x.refCnt }
    let c := c.delHdr hdl byUser
    match e.procCtx with
    | none => c
    | some p =>
      match c.procAt p with
      | none => c.goStale
      | some x => (c.modProc p fun x => { x with refCnt := decRef x.refCnt }).delHdrProcCtx x.id false

/-- A routing rule takes a header or a context. -/
def rtTakeHdr (hdl : ℕ) : Ctx :=
  match c.findHdr hdl with
  | none => c
  | some e => c.modHdr e.obj fun x => { x with refCnt := incRef x.refCnt }

def rtTakeProc (hdl : ℕ) : Ctx :=
  match c.findProc hdl with
  | none => c
  | some e => c.modProc e.obj fun x => { x with refCnt := incRef x.refCnt }

/-- The default header, which a reset leaves -/
def isDefault (e : HdrEntry) : Bool := e.name = lanRxHdrName && e.slot.offset = 0

/-- A reset takes a header away; its context forgets it. -/
def resetOne (loc : Bool) (e : HdrEntry) : Ctx :=
  let c := match e.procCtx with
    | none => c
    | some p => if (c.procAt p).isSome then c.modProc p fun x => { x with hdr := none } else c.goStale
  c.freeHdr loc e

def resetTbl (userOnly loc : Bool) : Ctx :=
  let gone := (c.tbl loc).entries.filter fun e =>
    !isDefault e && (!userOnly || e.ipacmInstalled)
  let c := gone.foldl (fun c e => c.resetOne loc e) c
  if userOnly then c
  else c.setTbl loc { c.tbl loc with free := fun _ => [], top := 8, cnt := 1 }

def resetProc (userOnly : Bool) : Ctx :=
  let gone := c.proc.entries.filter fun e => !userOnly || e.ipacmInstalled
  let c := gone.foldl (fun c e => c.freeProc e) c
  if userOnly then c
  else c.setProc { c.proc with free := fun _ => [], top := 0, cnt := 0 }

/-- `ipa3_reset_hdr`, without the routing rules -/
def resetHdr (userOnly : Bool) : Ctx :=
  ((c.resetTbl userOnly true).resetTbl userOnly false).resetProc userOnly

end Ctx

/-- `memcpy` of a header into the image -/
def copyTo (mem : List UInt8) (e : HdrEntry) : List UInt8 :=
  mem.take e.slot.offset++e.hdr++mem.drop (e.slot.offset+e.hdr.length)

/-- `ipa3_generate_hdr_hw_tbl` -/
def hdrHwTbl (t : Tbl HdrEntry) : List UInt8 :=
  t.entries.foldl copyTo (List.replicate (if t.top = 0 then hdrBinSz 0 else t.top) 0)

inductive Op
  | addHdr (h : HdrAdd) (user : Bool) (m : Mem)
  | addHdrProcCtx (hdl : ℕ) (neededLen : Option ℕ) (user : Bool) (m : Mem)
  | addHpcHdr (h : HdrAdd) (user : Bool) (m m' : Mem)
  | delHdr (hdl : ℕ) (byUser : Bool)
  | delHdrProcCtx (hdl : ℕ) (byUser : Bool)
  | delHdrHpc (hdl : ℕ) (byUser : Bool)
  | rtTakeHdr (hdl : ℕ)
  | rtTakeProc (hdl : ℕ)
  | rtReleaseHdr (hdl : ℕ)
  | rtReleaseProc (hdl : ℕ)
  | resetHdr (userOnly : Bool)

def step (cfg : Config) (c : Ctx) : Op → Ctx
  | .addHdr h user m => (c.addHdr cfg h user m).1
  | .addHdrProcCtx hdl neededLen user m => (c.addHdrProcCtx cfg hdl neededLen user m).1
  | .addHpcHdr h user m m' => c.addHpcHdr cfg h user m m'
  | .delHdr hdl byUser => c.delHdr hdl byUser
  | .delHdrProcCtx hdl byUser => c.releaseHdrProcCtx hdl byUser
  | .delHdrHpc hdl byUser => c.delHdrHpc hdl byUser
  | .rtTakeHdr hdl => c.rtTakeHdr hdl
  | .rtTakeProc hdl => c.rtTakeProc hdl
  | .rtReleaseHdr hdl => c.delHdr hdl false
  | .rtReleaseProc hdl => c.releaseHdrProcCtx hdl false
  | .resetHdr userOnly => c.resetHdr userOnly

/-- Nothing has been added yet. -/
def init : Ctx := ⟨fun _ => ⟨[],fun _ => [],0,0⟩,⟨[],fun _ => [],0,0⟩,0,false⟩

end IpaHdr
end MarbleModules
