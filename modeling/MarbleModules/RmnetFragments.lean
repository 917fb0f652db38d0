import Mathlib.Data.List.Infix
import Mathlib.Tactic

/-! Page fragments and fragment descriptors of the rmnet core: how descriptors are
taken from the pool, filled from fragments, read and pulled. Lengths are sums of the
sizes in one skb, so none of them wraps. -/
namespace MarbleModules
namespace Rmnet

/-- A page fragment: the bytes of its page, and which of them belong to it. -/
structure Fragment where
  page : List UInt8
  off : ℕ
  size : ℕ
  deriving DecidableEq

namespace Fragment

def bytes (f : Fragment) : List UInt8 := (f.page.drop f.off).take f.size

/-- The fragment lies on its page. -/
def Fits (f : Fragment) : Prop := f.off+f.size ≤ f.page.length

instance (f : Fragment) : Decidable f.Fits := inferInstanceAs (Decidable (_ ≤ _))

theorem Fits.length_bytes {f : Fragment} (h : f.Fits) : f.bytes.length = f.size := by
  unfold Fits at h
  simp only [bytes,List.length_take,List.length_drop]
  omega

/-- Reading at an offset into the page that stays within the fragment. -/
theorem take_drop_page (f : Fragment) {k n : ℕ} (h : k+n ≤ f.size) :
    (f.page.drop (f.off+k)).take n = (f.bytes.drop k).take n := by
  rw [bytes,List.drop_take,List.drop_drop,List.take_take,Nat.min_eq_left (by omega)]

theorem Fits.part {f : Fragment} (h : f.Fits) {k n : ℕ} (hn : k+n ≤ f.size) :
    Fits ⟨f.page,f.off+k,n⟩ := by
  change f.off+k+n ≤ f.page.length
  unfold Fits at h
  omega

end Fragment

/-- The bytes of a fragment list, in order. -/
def contents (fs : List Fragment) : List UInt8 := fs.flatMap Fragment.bytes

@[simp] theorem contents_nil : contents [] = [] := rfl

@[simp] theorem contents_cons (f : Fragment) (fs : List Fragment) :
    contents (f::fs) = f.bytes++contents fs := rfl

@[simp] theorem contents_append (fs gs : List Fragment) :
    contents (fs++gs) = contents fs++contents gs := List.flatMap_append

theorem length_contents {fs : List Fragment} (h : ∀ f ∈ fs, f.Fits) :
    (contents fs).length = (fs.map Fragment.size).sum := by
  induction fs with
  | nil => rfl
  | cons f fs ih =>
    simp only [contents_cons,List.length_append,List.map_cons,List.sum_cons]
    rw [(h f (by simp)).length_bytes,ih fun g hg => h g (by simp [hg])]

/-- `struct rmnet_frag_descriptor`; the fields nothing here reads are left out. -/
structure FragDescriptor where
  frags : List Fragment := []
  coalBufsize : ℕ := 0
  coalBytes : ℕ := 0
  len : ℕ := 0
  priority : ℕ := 0
  tcpSeq : ℕ := 0
  ipId : ℕ := 0
  tcpFlags : ℕ := 0
  dataOffset : ℕ := 0
  gsoSize : ℕ := 0
  gsoSegs : ℕ := 0
  ipLen : ℕ := 0
  transLen : ℕ := 0
  ipProto : ℕ := 0
  transProto : ℕ := 0
  pktId : ℕ := 0
  csumValid : Bool := false
  hdrsValid : Bool := false
  ipIdSet : Bool := false
  tcpSeqSet : Bool := false
  tcpFlagsSet : Bool := false
  deriving DecidableEq

/-- `struct rmnet_frag_descriptor_pool`: a recycled descriptor is zeroed before it is
put on the free list, and a fresh one is allocated zeroed. -/
structure Pool where
  freeList : List FragDescriptor
  poolSize : ℕ
  zeroed : ∀ d ∈ freeList, d = {}

theorem zeroed_nil : ∀ d ∈ ([] : List FragDescriptor), d = {} := by simp

/-- The parts of `struct rmnet_port` that descriptors need. -/
structure Port where
  dataFormat : BitVec 32
  fragDescPool : Pool

/-- `rmnet_get_frag_descriptor`: the first free descriptor, or a new one. -/
def getFragDescriptor (port : Port) : FragDescriptor × Port :=
  match h : port.fragDescPool.freeList with
  | d::ds =>
    (d,{ port with fragDescPool := ⟨ds,port.fragDescPool.poolSize,fun e he =>
      port.fragDescPool.zeroed e (by simp [h,he])⟩ })
  | [] => ({},{ port with fragDescPool := ⟨[],port.fragDescPool.poolSize+1,by simp⟩ })

/-- `rmnet_recycle_frag_descriptor`: the fragments are freed, the descriptor zeroed. -/
def recycleFragDescriptor (port : Port) : Port :=
  { port with fragDescPool := ⟨port.fragDescPool.freeList++[{}],port.fragDescPool.poolSize,by
      intro d hd
      rcases List.mem_append.mp hd with hd|hd
      · exact port.fragDescPool.zeroed d hd
      · simpa using hd⟩ }

@[simp] theorem getFragDescriptor_fst (port : Port) : (getFragDescriptor port).1 = {} := by
  unfold getFragDescriptor
  split
  · rename_i d ds h
    exact port.fragDescPool.zeroed d (by simp [h])
  · rfl

@[simp] theorem getFragDescriptor_dataFormat (port : Port) :
    (getFragDescriptor port).2.dataFormat = port.dataFormat := by
  unfold getFragDescriptor
  split <;> rfl

@[simp] theorem recycleFragDescriptor_dataFormat (port : Port) :
    (recycleFragDescriptor port).dataFormat = port.dataFormat := rfl

namespace FragDescriptor

def bytes (d : FragDescriptor) : List UInt8 := contents d.frags

/-- Every fragment lies on its page and the length is the sum of their sizes. -/
structure Wf (d : FragDescriptor) : Prop where
  fits : ∀ f ∈ d.frags, f.Fits
  len : d.len = (d.frags.map Fragment.size).sum

theorem Wf.length_bytes {d : FragDescriptor} (h : d.Wf) : d.bytes.length = d.len := by
  rw [bytes,length_contents h.fits,h.len]

theorem wf_empty (d : FragDescriptor) (hf : d.frags = []) (hl : d.len = 0) : d.Wf where
  fits := by simp [hf]
  len := by simp [hf,hl]

/-- `rmnet_frag_descriptor_add_frag`, the allocation succeeding. -/
def addFrag (d : FragDescriptor) (page : List UInt8) (off len : ℕ) : FragDescriptor :=
  { d with frags := d.frags++[⟨page,off,len⟩], len := d.len+len }

/-- Everything but the fragments and the length is as before. -/
def SameMeta (d e : FragDescriptor) : Prop :=
  e = { d with frags := e.frags, len := e.len }

theorem SameMeta.refl (d : FragDescriptor) : SameMeta d d := rfl

theorem SameMeta.trans {d e f : FragDescriptor} (h : SameMeta d e) (h' : SameMeta e f) :
    SameMeta d f := by
  unfold SameMeta at *
  rw [h',h]

@[simp] theorem sameMeta_addFrag (d : FragDescriptor) (page : List UInt8) (off len : ℕ) :
    SameMeta d (d.addFrag page off len) := rfl

/-- Adding a part of a fragment adds the bytes of that part. -/
theorem bytes_addFrag (d : FragDescriptor) {f : Fragment} {k n : ℕ} (h : k+n ≤ f.size) :
    (d.addFrag f.page (f.off+k) n).bytes = d.bytes++(f.bytes.drop k).take n := by
  simp only [addFrag,bytes,contents_append,contents_cons,contents_nil,List.append_nil]
  rw [← f.take_drop_page h]
  rfl

theorem Wf.addFrag {d : FragDescriptor} (h : d.Wf) {f : Fragment} (hf : f.Fits) {k n : ℕ}
    (hn : k+n ≤ f.size) : (d.addFrag f.page (f.off+k) n).Wf where
  fits g hg := by
    rcases List.mem_append.mp hg with hg|hg
    · exact h.fits g hg
    · rw [List.mem_singleton.mp hg]
      exact hf.part hn
  len := by simp [FragDescriptor.addFrag,h.len]

/-- The loop of `rmnet_frag_descriptor_add_frags_from` over the source's fragments. -/
def addFragsLoop (dst : FragDescriptor) : List Fragment → ℕ → ℕ → FragDescriptor
  | [],_,_ => dst
  | f::fs,off,len =>
    if len = 0 then dst
    else if off < f.size then
      let copyLen := min len (f.size-off)
      addFragsLoop (dst.addFrag f.page (f.off+off) copyLen) fs 0 (len-copyLen)
    else addFragsLoop dst fs (off-f.size) len

/-- `rmnet_frag_descriptor_add_frags_from`; `none` is `-EINVAL`. -/
def addFragsFrom (dst source : FragDescriptor) (off len : ℕ) : Option FragDescriptor :=
  if source.len < off ∨ source.len < len ∨ source.len < off+len then none
  else some (addFragsLoop dst source.frags off len)

/-- The loop of `rmnet_frag_copy_data`: the bytes it puts into the buffer. -/
def copyLoop : List Fragment → ℕ → ℕ → List UInt8
  | [],_,_ => []
  | f::fs,off,len =>
    if len = 0 then []
    else if off < f.size then
      let copyLen := min len (f.size-off)
      (f.page.drop (f.off+off)).take copyLen++copyLoop fs 0 (len-copyLen)
    else copyLoop fs (off-f.size) len

/-- `rmnet_frag_copy_data`; `none` is `-EINVAL`. -/
def copyData (d : FragDescriptor) (off len : ℕ) : Option (List UInt8) :=
  if d.len < off ∨ d.len < len ∨ d.len < off+len then none
  else some (copyLoop d.frags off len)

/-- The search of `rmnet_frag_header_ptr`: the header in place, when one fragment has
all of it. -/
def headerInPlace : List Fragment → ℕ → ℕ → Option (List UInt8)
  | [],_,_ => none
  | f::fs,off,len =>
    if off < f.size then
      if off+len ≤ f.size then some ((f.page.drop (f.off+off)).take len) else none
    else headerInPlace fs (off-f.size) len

/-- `rmnet_frag_header_ptr`: the bytes behind the pointer it returns. -/
def headerPtr (d : FragDescriptor) (off len : ℕ) : Option (List UInt8) :=
  if d.len < off ∨ d.len < len ∨ d.len < off+len then none
  else
    match headerInPlace d.frags off len with
    | some header => some header
    | none => copyData d off len

/-- The loop of `rmnet_frag_pull`: the fragments left and the bytes taken off. -/
def pullLoop : List Fragment → ℕ → List Fragment × ℕ
  | [],_ => ([],0)
  | f::fs,size =>
    if size = 0 then (f::fs,0)
    else if f.size ≤ size then
      let r := pullLoop fs (size-f.size)
      (r.1,f.size+r.2)
    else ({ f with off := f.off+size, size := f.size-size }::fs,size)

/-- `rmnet_frag_pull`; `none` when the packet would be left empty and is recycled. -/
def pull (d : FragDescriptor) (size : ℕ) : Option FragDescriptor :=
  if d.len ≤ size then none
  else
    let r := pullLoop d.frags size
    some { d with frags := r.1, len := d.len-r.2 }

/-- `rmnet_frag_data_ptr`: the bytes from the returned pointer to the end of the page. -/
def dataPtr (d : FragDescriptor) : Option (List UInt8) :=
  d.frags.head?.map fun f => f.page.drop f.off

/-! ## What the operations do to the bytes -/

theorem drop_take_append {α : Type*} (xs ys : List α) {off len : ℕ} (h : off < xs.length) :
    ((xs++ys).drop off).take len =
      (xs.drop off).take (min len (xs.length-off))++
        ys.take (len-min len (xs.length-off)) := by
  rw [List.drop_append_of_le_length h.le,List.take_append,List.length_drop]
  congr 1
  · rcases Nat.le_total len (xs.length-off) with hl|hl
    · rw [Nat.min_eq_left hl]
    · rw [Nat.min_eq_right hl,List.take_of_length_le (by simpa using hl),
        List.take_of_length_le (by simp)]
  · congr 1
    omega

/-- An offset past the first fragment is an offset into the others. -/
theorem drop_contents_cons {f : Fragment} (hf : f.Fits) (fs : List Fragment) {off : ℕ}
    (h : f.size ≤ off) : (contents (f::fs)).drop off = (contents fs).drop (off-f.size) := by
  have hb := hf.length_bytes
  have hd : f.bytes.drop off = [] := List.drop_of_length_le (by omega)
  rw [contents_cons,List.drop_append,hd,hb,List.nil_append]

theorem addFragsLoop_spec {fs : List Fragment} (hfs : ∀ f ∈ fs, f.Fits) (off len : ℕ)
    {dst : FragDescriptor} (hd : dst.Wf) :
    (addFragsLoop dst fs off len).bytes = dst.bytes++((contents fs).drop off).take len ∧
      (addFragsLoop dst fs off len).Wf ∧ SameMeta dst (addFragsLoop dst fs off len) := by
  induction fs generalizing off len dst with
  | nil => simp [addFragsLoop,hd,SameMeta.refl]
  | cons f fs ih =>
    have hf : f.Fits := hfs f (by simp)
    have hb := hf.length_bytes
    have hfs' : ∀ g ∈ fs, g.Fits := fun g hg => hfs g (by simp [hg])
    simp only [addFragsLoop]
    split_ifs with h0 h1
    · simp [h0,hd,SameMeta.refl]
    · have hc : off+min len (f.size-off) ≤ f.size := by omega
      obtain ⟨ih1,ih2,ih3⟩ := ih hfs' 0 (len-min len (f.size-off)) (hd.addFrag hf hc)
      refine ⟨?_,ih2,(sameMeta_addFrag ..).trans ih3⟩
      rw [ih1,bytes_addFrag dst hc,contents_cons,drop_take_append _ _ (by omega),hb,
        List.append_assoc,List.drop_zero]
    · obtain ⟨ih1,ih2,ih3⟩ := ih hfs' (off-f.size) len hd
      refine ⟨?_,ih2,ih3⟩
      rw [ih1,drop_contents_cons hf fs (by omega)]

/-- Fragments copied from another descriptor are the bytes asked for, in order. -/
theorem addFragsFrom_spec {dst source : FragDescriptor} (hd : dst.Wf) (hs : source.Wf)
    {off len : ℕ} (h : off+len ≤ source.len) :
    ∃ d, addFragsFrom dst source off len = some d ∧
      d.bytes = dst.bytes++(source.bytes.drop off).take len ∧ d.Wf ∧ SameMeta dst d := by
  refine ⟨addFragsLoop dst source.frags off len,?_,addFragsLoop_spec hs.fits off len hd⟩
  rw [addFragsFrom,if_neg (by omega)]

theorem copyLoop_eq {fs : List Fragment} (hfs : ∀ f ∈ fs, f.Fits) (off len : ℕ) :
    copyLoop fs off len = ((contents fs).drop off).take len := by
  induction fs generalizing off len with
  | nil => simp [copyLoop]
  | cons f fs ih =>
    have hb := (hfs f (by simp)).length_bytes
    have hfs' : ∀ g ∈ fs, g.Fits := fun g hg => hfs g (by simp [hg])
    simp only [copyLoop]
    split_ifs with h0 h1
    · simp [h0]
    · rw [ih hfs',f.take_drop_page (by omega),contents_cons,
        drop_take_append _ _ (by omega),hb,List.drop_zero]
    · rw [ih hfs',drop_contents_cons (hfs f (by simp)) fs (by omega)]

theorem copyData_eq {d : FragDescriptor} (h : d.Wf) {off len : ℕ} (hl : off+len ≤ d.len) :
    copyData d off len = some ((d.bytes.drop off).take len) := by
  rw [copyData,if_neg (by omega),copyLoop_eq h.fits]
  rfl

theorem headerInPlace_eq {fs : List Fragment} (hfs : ∀ f ∈ fs, f.Fits) {off len : ℕ}
    {header : List UInt8} (h : headerInPlace fs off len = some header) :
    header = ((contents fs).drop off).take len := by
  induction fs generalizing off with
  | nil => simp [headerInPlace] at h
  | cons f fs ih =>
    have hb := (hfs f (by simp)).length_bytes
    have hfs' : ∀ g ∈ fs, g.Fits := fun g hg => hfs g (by simp [hg])
    simp only [headerInPlace] at h
    split_ifs at h with h1 h2
    · rw [← Option.some.inj h,f.take_drop_page h2,contents_cons,
        drop_take_append _ _ (by omega),hb,Nat.min_eq_left (by omega)]
      simp
    · rw [ih hfs' h,drop_contents_cons (hfs f (by simp)) fs (by omega)]

/-- A header is the same bytes whether it is read in place or put together. -/
theorem headerPtr_eq {d : FragDescriptor} (h : d.Wf) {off len : ℕ} (hl : off+len ≤ d.len) :
    headerPtr d off len = some ((d.bytes.drop off).take len) := by
  rw [headerPtr,if_neg (by omega)]
  split
  · rename_i header hh
    rw [headerInPlace_eq h.fits hh]
    rfl
  · exact copyData_eq h hl

theorem headerPtr_none {d : FragDescriptor} {off len : ℕ} (hl : d.len < off+len) :
    headerPtr d off len = none := by
  rw [headerPtr,if_pos (by omega)]

theorem pullLoop_spec {fs : List Fragment} (hfs : ∀ f ∈ fs, f.Fits) (size : ℕ)
    (h : size ≤ (fs.map Fragment.size).sum) :
    contents (pullLoop fs size).1 = (contents fs).drop size ∧ (pullLoop fs size).2 = size ∧
      (∀ f ∈ (pullLoop fs size).1, f.Fits) := by
  induction fs generalizing size with
  | nil => simpa [pullLoop,eq_comm] using h
  | cons f fs ih =>
    have hf : f.Fits := hfs f (by simp)
    have hb := hf.length_bytes
    have hfs' : ∀ g ∈ fs, g.Fits := fun g hg => hfs g (by simp [hg])
    rw [List.map_cons,List.sum_cons] at h
    simp only [pullLoop]
    split_ifs with h0 h1
    · subst h0
      exact ⟨by simp,rfl,hfs⟩
    · obtain ⟨ih1,ih2,ih3⟩ := ih hfs' (size-f.size) (by omega)
      refine ⟨?_,by simp only [ih2]; omega,ih3⟩
      rw [ih1,drop_contents_cons hf fs h1]
    · refine ⟨?_,rfl,?_⟩
      · simp only [contents_cons]
        rw [List.drop_append_of_le_length (by omega)]
        congr 1
        simp only [Fragment.bytes]
        rw [List.drop_take,List.drop_drop]
      · intro g hg
        rcases List.mem_cons.mp hg with rfl|hg
        · exact hf.part (by omega)
        · exact hfs' g hg

/-- Pulling takes bytes off the front and nothing else. -/
theorem pull_spec {d : FragDescriptor} (h : d.Wf) {size : ℕ} (hs : size < d.len) :
    ∃ e, pull d size = some e ∧ e.bytes = d.bytes.drop size ∧ e.Wf ∧ SameMeta d e := by
  obtain ⟨h1,h2,h3⟩ := pullLoop_spec h.fits size (by rw [← h.len]; omega)
  refine ⟨{ d with frags := (pullLoop d.frags size).1, len := d.len-(pullLoop d.frags size).2 },
    by rw [pull,if_neg (by omega)],h1,⟨h3,?_⟩,rfl⟩
  have hl : (contents d.frags).length = d.len := h.length_bytes
  rw [← length_contents h3,h1,List.length_drop,h2,hl]

end FragDescriptor
end Rmnet
end MarbleModules
