import MarbleModules.RmnetFragments

/-! The fragment operations in the 32-bit arithmetic of the code. Each walks the fragments with
offsets and sizes that it counts down, and does to the bytes of the packet what its name says,
however they are spread. -/
namespace MarbleModules
namespace Rmnet

namespace Fragment

/-- `skb_frag_size` -/
def size32 (f : Fragment) : BitVec 32 := BitVec.ofNat 32 f.size

section Size

variable {f : Fragment} (hf : f.size < 2^32) (x : BitVec 32)
include hf

theorem toNat_size32 : f.size32.toNat = f.size := by
  rw [size32,BitVec.toNat_ofNat]
  exact Nat.mod_eq_of_lt hf

theorem size32_le : f.size32 ≤ x ↔ f.size ≤ x.toNat := by
  rw [BitVec.le_def,toNat_size32 hf]

theorem lt_size32 : x < f.size32 ↔ x.toNat < f.size := by
  rw [BitVec.lt_def,toNat_size32 hf]

theorem toNat_sub_size32 {x : BitVec 32} (h : f.size ≤ x.toNat) :
    (x-f.size32).toNat = x.toNat-f.size := by
  rw [BitVec.toNat_sub_of_le ((size32_le hf x).mpr h),toNat_size32 hf]

theorem toNat_size32_sub {x : BitVec 32} (h : x.toNat ≤ f.size) :
    (f.size32-x).toNat = f.size-x.toNat := by
  rw [BitVec.toNat_sub_of_le (by rw [BitVec.le_def,toNat_size32 hf]; exact h),toNat_size32 hf]

end Size

end Fragment

namespace FragDescriptor

/-! ## The code -/

/-- The loop of `rmnet_frag_pull`: the fragments left, and the length of the packet. -/
def pullLoop32 : List Fragment → BitVec 32 → BitVec 32 → List Fragment × BitVec 32
  | [],_,len => ([],len)
  | f::fs,size,len =>
    if size = 0 then (f::fs,len)
    else if f.size32 ≤ size then pullLoop32 fs (size-f.size32) (len-f.size32)
    else ({ f with off := f.off+size.toNat, size := (f.size32-size).toNat }::fs,len-size)

/-- `rmnet_frag_pull`; `none` when the descriptor has been recycled. -/
def fragPull (d : FragDescriptor) (size : BitVec 32) : Option FragDescriptor :=
  if d.len ≤ size.toNat then none
  else
    let r := pullLoop32 d.frags size (BitVec.ofNat 32 d.len)
    some { d with frags := r.1, len := r.2.toNat }

/-- The loop of `rmnet_frag_trim`, which walks the fragments from the last one on. -/
def trimLoop32 : List Fragment → BitVec 32 → BitVec 32 → List Fragment × BitVec 32
  | [],_,len => ([],len)
  | f::fs,eat,len =>
    if eat = 0 then (f::fs,len)
    else if f.size32 ≤ eat then trimLoop32 fs (eat-f.size32) (len-f.size32)
    else ({ f with size := (f.size32-eat).toNat }::fs,len-eat)

/-- `rmnet_frag_trim`; `none` when the descriptor has been recycled. -/
def fragTrim (d : FragDescriptor) (size : BitVec 32) : Option FragDescriptor :=
  if size = 0 then none
  else if d.len ≤ size.toNat then some d  -- growing bigger doesn't make sense
  else
    let len := BitVec.ofNat 32 d.len
    let r := trimLoop32 d.frags.reverse (len-size) len
    some { d with frags := r.1.reverse, len := r.2.toNat }

/-- The check of offset and length; their sum has 32 bits. -/
def outOfRange (d : FragDescriptor) (off len : BitVec 32) : Prop :=
  d.len < off.toNat ∨ d.len < len.toNat ∨ d.len < (off+len).toNat

instance (d : FragDescriptor) (off len : BitVec 32) : Decidable (d.outOfRange off len) :=
  inferInstanceAs (Decidable (_ ∨ _))

/-- `min_t(u32, len, frag_size - off)` -/
def copyLen (f : Fragment) (off len : BitVec 32) : BitVec 32 :=
  if len ≤ f.size32-off then len else f.size32-off

/-- The loop of `rmnet_frag_copy_data`. -/
def copyLoop32 : List Fragment → BitVec 32 → BitVec 32 → List UInt8
  | [],_,_ => []
  | f::fs,off,len =>
    if len = 0 then []
    else if off < f.size32 then
      (f.page.drop (f.off+off.toNat)).take (copyLen f off len).toNat++
        copyLoop32 fs 0 (len-copyLen f off len)
    else copyLoop32 fs (off-f.size32) len

/-- `rmnet_frag_copy_data`; `none` is `-EINVAL`. -/
def fragCopyData (d : FragDescriptor) (off len : BitVec 32) : Option (List UInt8) :=
  if d.outOfRange off len then none else some (copyLoop32 d.frags off len)

/-- The search of `rmnet_frag_header_ptr`. -/
def headerInPlace32 : List Fragment → BitVec 32 → BitVec 32 → Option (List UInt8)
  | [],_,_ => none
  | f::fs,off,len =>
    if off < f.size32 then
      if off+len ≤ f.size32 then some ((f.page.drop (f.off+off.toNat)).take len.toNat) else none
    else headerInPlace32 fs (off-f.size32) len

/-- `rmnet_frag_header_ptr`: the bytes behind the pointer, which is `NULL` at `none`. -/
def fragHeaderPtr (d : FragDescriptor) (off len : BitVec 32) : Option (List UInt8) :=
  if d.outOfRange off len then none
  else
    match headerInPlace32 d.frags off len with
    | some header => some header
    | none => fragCopyData d off len

/-- What `rmnet_frag_descriptor_add_frags_from` returns. -/
inductive AddRc
  | ok | einval | enomem
  deriving DecidableEq

/-- `rmnet_frag_descriptor_add_frag`, when there is memory for the fragment. -/
def addFrag32 (d : FragDescriptor) (page : List UInt8) (off : ℕ) (len : BitVec 32) :
    FragDescriptor :=
  { d with
    frags := d.frags++[⟨page,off,len.toNat⟩]
    len := (BitVec.ofNat 32 d.len+len).toNat }

/-- The loop over the fragments of the source; `alloc` says which allocations give memory,
and `n` have been made. -/
def addFragsLoop32 (alloc : ℕ → Bool) (dst : FragDescriptor) :
    List Fragment → BitVec 32 → BitVec 32 → ℕ → FragDescriptor × AddRc
  | [],_,_,_ => (dst,.ok)
  | f::fs,off,len,n =>
    if len = 0 then (dst,.ok)
    else if off < f.size32 then
      if alloc n then
        addFragsLoop32 alloc (dst.addFrag32 f.page (f.off+off.toNat) (copyLen f off len)) fs 0
          (len-copyLen f off len) (n+1)
      else (dst,.enomem)
    else addFragsLoop32 alloc dst fs (off-f.size32) len n

/-- `rmnet_frag_descriptor_add_frags_from` -/
def fragAddFragsFrom (alloc : ℕ → Bool) (dst source : FragDescriptor) (off len : BitVec 32) :
    FragDescriptor × AddRc :=
  if source.outOfRange off len then (dst,.einval)
  else addFragsLoop32 alloc dst source.frags off len 0

/-! ## The walks in 32 bits -/

/-- No size wraps. -/
def Sized (fs : List Fragment) : Prop := ∀ f ∈ fs, f.size < 2^32

theorem Sized.head {f : Fragment} {fs : List Fragment} (h : Sized (f::fs)) : f.size < 2^32 :=
  h f (by simp)

theorem Sized.tail {f : Fragment} {fs : List Fragment} (h : Sized (f::fs)) : Sized fs :=
  fun g hg => h g (by simp [hg])

theorem Wf.sized {d : FragDescriptor} (h : d.Wf) (hl : d.len < 2^31) : Sized d.frags := by
  intro f hf
  have hle := List.single_le_sum (fun _ _ => Nat.zero_le _) _
    (List.mem_map_of_mem (f := Fragment.size) hf)
  rw [← h.len] at hle
  omega

theorem toNat_ne_zero {x : BitVec 32} (h : ¬ x = 0) : x.toNat ≠ 0 := fun hh =>
  h (BitVec.eq_of_toNat_eq hh)

theorem pullLoop32_eq {fs : List Fragment} (hfs : Sized fs) {size len : BitVec 32}
    (h : size.toNat ≤ len.toNat) :
    (pullLoop32 fs size len).1 = (pullLoop fs size.toNat).1 ∧
      (pullLoop32 fs size len).2.toNat = len.toNat-(pullLoop fs size.toNat).2 := by
  induction fs generalizing size len with
  | nil => exact ⟨rfl,rfl⟩
  | cons f fs ih =>
    have hf := hfs.head
    have hle := f.size32_le hf size
    rw [pullLoop32,pullLoop]
    by_cases h0 : size = 0
    · rw [if_pos h0,h0]
      exact ⟨rfl,rfl⟩
    rw [if_neg h0,if_neg (toNat_ne_zero h0)]
    by_cases hwhole : f.size ≤ size.toNat
    · rw [if_pos (hle.mpr hwhole),if_pos hwhole]
      have hsize := Fragment.toNat_sub_size32 hf hwhole
      have hlen := Fragment.toNat_sub_size32 hf (x := len) (by omega)
      have hrest : (size-f.size32).toNat ≤ (len-f.size32).toNat := by
        rw [hsize,hlen]
        omega
      obtain ⟨ih1,ih2⟩ := ih hfs.tail hrest
      rw [ih1,ih2,hsize,hlen]
      refine ⟨rfl,?_⟩
      dsimp only
      omega
    · rw [if_neg (fun hh => hwhole (hle.mp hh)),if_neg hwhole,
        Fragment.toNat_size32_sub hf (by omega)]
      exact ⟨rfl,BitVec.toNat_sub_of_le (BitVec.le_def.mpr h)⟩

theorem toNat_ofNat_len {n : ℕ} (h : n < 2^31) : (BitVec.ofNat 32 n).toNat = n := by
  rw [BitVec.toNat_ofNat]
  exact Nat.mod_eq_of_lt (by omega)

theorem fragPull_eq {d : FragDescriptor} (h : d.Wf) (hl : d.len < 2^31) (size : BitVec 32) :
    fragPull d size = pull d size.toNat := by
  rw [fragPull,pull]
  by_cases hle : d.len ≤ size.toNat
  · rw [if_pos hle,if_pos hle]
  · have hlen := toNat_ofNat_len hl
    have hfits : size.toNat ≤ (BitVec.ofNat 32 d.len).toNat := by omega
    obtain ⟨h1,h2⟩ := pullLoop32_eq (h.sized hl) hfits
    rw [if_neg hle,if_neg hle]
    dsimp only
    rw [h1,h2,hlen]

theorem toNat_copyLen {f : Fragment} (hf : f.size < 2^32) {off : BitVec 32}
    (hoff : off.toNat ≤ f.size) (len : BitVec 32) :
    (copyLen f off len).toNat = min len.toNat (f.size-off.toNat) := by
  have hsub := Fragment.toNat_size32_sub hf hoff
  rw [copyLen]
  split_ifs with hle
  · rw [BitVec.le_def,hsub] at hle
    exact (Nat.min_eq_left hle).symm
  · rw [BitVec.le_def,hsub] at hle
    rw [hsub,Nat.min_eq_right (by omega)]

theorem toNat_sub_copyLen {f : Fragment} (hf : f.size < 2^32) {off : BitVec 32}
    (hoff : off.toNat ≤ f.size) (len : BitVec 32) :
    (len-copyLen f off len).toNat = len.toNat-min len.toNat (f.size-off.toNat) := by
  have hcopy := toNat_copyLen hf hoff len
  rw [BitVec.toNat_sub_of_le (by rw [BitVec.le_def,hcopy]; exact Nat.min_le_left ..),hcopy]

theorem copyLoop32_eq {fs : List Fragment} (hfs : Sized fs) (off len : BitVec 32) :
    copyLoop32 fs off len = copyLoop fs off.toNat len.toNat := by
  induction fs generalizing off len with
  | nil => rfl
  | cons f fs ih =>
    have hf := hfs.head
    have hlt := f.lt_size32 hf off
    rw [copyLoop32,copyLoop]
    by_cases h0 : len = 0
    · rw [if_pos h0,h0]
      rfl
    rw [if_neg h0,if_neg (toNat_ne_zero h0)]
    by_cases hin : off.toNat < f.size
    · rw [if_pos (hlt.mpr hin),if_pos hin,ih hfs.tail,toNat_copyLen hf hin.le,
        toNat_sub_copyLen hf hin.le]
      rfl
    · rw [if_neg (fun hh => hin (hlt.mp hh)),if_neg hin,ih hfs.tail,
        Fragment.toNat_sub_size32 hf (by omega)]

/-- The check does not wrap on a packet of less than 2 GiB. -/
theorem outOfRange_iff {d : FragDescriptor} (hl : d.len < 2^31) (off len : BitVec 32) :
    d.outOfRange off len ↔ d.len < off.toNat+len.toNat := by
  rw [outOfRange,BitVec.toNat_add]
  omega

theorem headerInPlace32_eq {fs : List Fragment} (hfs : Sized fs) {off len : BitVec 32}
    (h : off.toNat+len.toNat < 2^32) :
    headerInPlace32 fs off len = headerInPlace fs off.toNat len.toNat := by
  induction fs generalizing off with
  | nil => rfl
  | cons f fs ih =>
    have hf := hfs.head
    have hlt := f.lt_size32 hf off
    have hfit : off+len ≤ f.size32 ↔ off.toNat+len.toNat ≤ f.size := by
      rw [BitVec.le_def,Fragment.toNat_size32 hf,BitVec.toNat_add,Nat.mod_eq_of_lt h]
    rw [headerInPlace32,headerInPlace]
    by_cases hin : off.toNat < f.size
    · rw [if_pos (hlt.mpr hin),if_pos hin]
      exact if_congr hfit rfl rfl
    · have hsub := Fragment.toNat_sub_size32 hf (x := off) (by omega)
      rw [if_neg (fun hh => hin (hlt.mp hh)),if_neg hin,ih hfs.tail (by omega),hsub]

theorem fragCopyData_eq {d : FragDescriptor} (h : d.Wf) (hl : d.len < 2^31)
    (off len : BitVec 32) : fragCopyData d off len = copyData d off.toNat len.toNat := by
  have hrange := outOfRange_iff hl off len
  rw [fragCopyData,copyData,copyLoop32_eq (h.sized hl)]
  exact if_congr (hrange.trans (by omega)) rfl rfl

theorem fragHeaderPtr_eq {d : FragDescriptor} (h : d.Wf) (hl : d.len < 2^31)
    (off len : BitVec 32) : fragHeaderPtr d off len = headerPtr d off.toNat len.toNat := by
  have hrange := outOfRange_iff hl off len
  rw [fragHeaderPtr,headerPtr]
  by_cases hout : d.outOfRange off len
  · have hlt := hrange.mp hout
    rw [if_pos hout,if_pos (by omega)]
  · have hle : ¬ d.len < off.toNat+len.toNat := fun hh => hout (hrange.mpr hh)
    have hplace := headerInPlace32_eq (h.sized hl)
      (show off.toNat+len.toNat < 2^32 by omega)
    rw [if_neg hout,if_neg (by omega)]
    cases hc : headerInPlace d.frags off.toNat len.toNat with
    | some header => simp only [hplace,hc]
    | none => simp only [hplace,hc,fragCopyData_eq h hl]

/-! ## Trimming -/

theorem Fragment.bytes_shrink (f : Fragment) {n : ℕ} (h : n ≤ f.size) :
    Fragment.bytes { f with size := n } = f.bytes.take n := by
  simp only [Fragment.bytes]
  rw [List.take_take,Nat.min_eq_left h]

theorem contents_reverse_cons (f : Fragment) (fs : List Fragment) :
    contents (f::fs).reverse = contents fs.reverse++f.bytes := by
  rw [List.reverse_cons,contents_append,contents_cons,contents_nil,List.append_nil]

/-- The walk from the back takes bytes off the end. -/
theorem trimLoop32_spec {fs : List Fragment} (hfs : ∀ f ∈ fs, f.Fits) (hsized : Sized fs)
    {eat len : BitVec 32} (h : eat.toNat ≤ (fs.map Fragment.size).sum)
    (hlen : eat.toNat ≤ len.toNat) :
    contents (trimLoop32 fs eat len).1.reverse =
        (contents fs.reverse).take ((contents fs.reverse).length-eat.toNat) ∧
      (∀ f ∈ (trimLoop32 fs eat len).1, f.Fits) ∧
      (trimLoop32 fs eat len).2.toNat = len.toNat-eat.toNat := by
  induction fs generalizing eat len with
  | nil =>
    rw [List.map_nil,List.sum_nil] at h
    exact ⟨by simp [trimLoop32],by simp [trimLoop32],by simp only [trimLoop32]; omega⟩
  | cons f fs ih =>
    have hf := hsized.head
    have hfit : f.Fits := hfs f (by simp)
    have hbytes := hfit.length_bytes
    have hle := f.size32_le hf eat
    rw [List.map_cons,List.sum_cons] at h
    rw [trimLoop32,contents_reverse_cons,List.length_append,hbytes]
    by_cases h0 : eat = 0
    · rw [if_pos h0,h0]
      refine ⟨?_,hfs,rfl⟩
      rw [contents_reverse_cons]
      exact (List.take_of_length_le (by rw [List.length_append,hbytes]; exact le_rfl)).symm
    rw [if_neg h0]
    by_cases hwhole : f.size ≤ eat.toNat
    · rw [if_pos (hle.mpr hwhole)]
      have heat := Fragment.toNat_sub_size32 hf hwhole
      have hrest := Fragment.toNat_sub_size32 hf (x := len) (by omega)
      obtain ⟨ih1,ih2,ih3⟩ := ih (fun g hg => hfs g (by simp [hg])) hsized.tail
        (show (eat-f.size32).toNat ≤ _ by rw [heat]; omega)
        (show (eat-f.size32).toNat ≤ (len-f.size32).toNat by rw [heat,hrest]; omega)
      refine ⟨?_,ih2,by rw [ih3,heat,hrest]; omega⟩
      rw [ih1,heat,List.take_append_of_le_length (by omega)]
      congr 1
      omega
    · rw [if_neg (fun hh => hwhole (hle.mp hh)),Fragment.toNat_size32_sub hf (by omega)]
      refine ⟨?_,?_,BitVec.toNat_sub_of_le (BitVec.le_def.mpr hlen)⟩
      · have hkeep : (contents fs.reverse).length+f.size-eat.toNat =
            (contents fs.reverse).length+(f.size-eat.toNat) := by omega
        rw [contents_reverse_cons,Fragment.bytes_shrink f (Nat.sub_le ..),hkeep,
          List.take_length_add_append]
      · intro g hg
        rcases List.mem_cons.mp hg with rfl|hg
        · exact hfit.part (k := 0) (by omega)
        · exact hfs g (by simp [hg])

/-- Trimming keeps a prefix of the packet. -/
theorem fragTrim_spec {d : FragDescriptor} (h : d.Wf) (hl : d.len < 2^31) {size : BitVec 32}
    (h0 : 0 < size.toNat) :
    ∃ e, fragTrim d size = some e ∧ e.bytes = d.bytes.take size.toNat ∧ e.Wf ∧ SameMeta d e := by
  have hne : ¬ size = 0 := by
    rintro rfl
    exact absurd h0 (by decide)
  rw [fragTrim,if_neg hne]
  by_cases hle : d.len ≤ size.toNat
  · rw [if_pos hle]
    exact ⟨d,rfl,(List.take_of_length_le (by rw [h.length_bytes]; exact hle)).symm,h,.refl d⟩
  rw [if_neg hle]
  dsimp only
  have hlen := toNat_ofNat_len hl
  have heat : (BitVec.ofNat 32 d.len-size).toNat = d.len-size.toNat := by
    rw [BitVec.toNat_sub_of_le (by rw [BitVec.le_def,hlen]; omega),hlen]
  have hrev : ((d.frags.reverse).map Fragment.size).sum = d.len := by
    rw [List.map_reverse,List.sum_reverse,h.len]
  obtain ⟨h1,h2,h3⟩ := trimLoop32_spec
    (fun f hf => h.fits f (List.mem_reverse.mp hf))
    (fun f hf => h.sized hl f (List.mem_reverse.mp hf))
    (show (BitVec.ofNat 32 d.len-size).toNat ≤ _ by rw [heat,hrev]; omega)
    (show (BitVec.ofNat 32 d.len-size).toNat ≤ (BitVec.ofNat 32 d.len).toNat by
      rw [heat,hlen]; omega)
  have hcontents : (contents d.frags).length = d.len := h.length_bytes
  rw [List.reverse_reverse,heat,hcontents,Nat.sub_sub_self (by omega)] at h1
  have hfits : ∀ f ∈ (trimLoop32 d.frags.reverse (BitVec.ofNat 32 d.len-size)
      (BitVec.ofNat 32 d.len)).1.reverse, f.Fits := fun f hf => h2 f (List.mem_reverse.mp hf)
  refine ⟨_,rfl,h1,⟨hfits,?_⟩,rfl⟩
  dsimp only
  rw [← length_contents hfits,h1,h3,heat,hlen,List.length_take,hcontents]
  omega

/-! ## Adding fragments -/

theorem addFrag32_eq (d : FragDescriptor) (page : List UInt8) (off : ℕ) {len : BitVec 32}
    (h : d.len+len.toNat < 2^32) : d.addFrag32 page off len = d.addFrag page off len.toNat := by
  rw [addFrag32,addFrag,BitVec.toNat_add,BitVec.toNat_ofNat]
  congr 1
  omega

/-- A part of the slice is added, and all of it when there was memory for every fragment. -/
structure Added (alloc : ℕ → Bool) (dst : FragDescriptor) (slice : List UInt8)
    (r : FragDescriptor × AddRc) : Prop where
  wf : r.1.Wf
  sameMeta : SameMeta dst r.1
  ok : r.2 = .ok → r.1.bytes = dst.bytes++slice
  part : ∃ k, r.1.bytes = dst.bytes++slice.take k
  rc : r.2 = .ok ∨ r.2 = .enomem
  memory : (∀ n, alloc n = true) → r.2 = .ok

theorem addFragsLoop32_spec (alloc : ℕ → Bool) {fs : List Fragment} (hfs : ∀ f ∈ fs, f.Fits)
    (hsized : Sized fs) {dst : FragDescriptor} (hd : dst.Wf) (off len : BitVec 32) (n : ℕ)
    (hlen : dst.len+len.toNat < 2^32) :
    Added alloc dst (((contents fs).drop off.toNat).take len.toNat)
      (addFragsLoop32 alloc dst fs off len n) := by
  induction fs generalizing dst off len n with
  | nil => exact ⟨hd,.refl _,fun _ => by simp [addFragsLoop32],⟨0,by simp [addFragsLoop32]⟩,
    .inl rfl,fun _ => rfl⟩
  | cons f fs ih =>
    have hf := hsized.head
    have hfit : f.Fits := hfs f (by simp)
    have hb := hfit.length_bytes
    have hlt := f.lt_size32 hf off
    have hfs' : ∀ g ∈ fs, g.Fits := fun g hg => hfs g (by simp [hg])
    rw [addFragsLoop32]
    by_cases h0 : len = 0
    · rw [if_pos h0,h0]
      exact ⟨hd,.refl _,fun _ => by simp,⟨0,by simp⟩,.inl rfl,fun _ => rfl⟩
    rw [if_neg h0]
    by_cases hin : off.toNat < f.size
    · rw [if_pos (hlt.mpr hin)]
      by_cases ha : alloc n = true
      · rw [if_pos ha]
        have hcopy := toNat_copyLen hf hin.le len
        have hrest := toNat_sub_copyLen hf hin.le len
        have hpart : off.toNat+(copyLen f off len).toNat ≤ f.size := by omega
        have hone : dst.addFrag32 f.page (f.off+off.toNat) (copyLen f off len) =
            dst.addFrag f.page (f.off+off.toNat) (copyLen f off len).toNat :=
          addFrag32_eq dst _ _ (by omega)
        rw [hone]
        have hih := ih hfs' hsized.tail (hd.addFrag hfit hpart) 0 (len-copyLen f off len) (n+1)
          (by rw [addFrag]; dsimp only; omega)
        have hchunk : ((f.bytes.drop off.toNat).take (copyLen f off len).toNat).length =
            (copyLen f off len).toNat := by
          rw [List.length_take,List.length_drop]
          omega
        -- the slice is the piece of this fragment and a slice of the others
        have hslice : ((contents (f::fs)).drop off.toNat).take len.toNat =
            (f.bytes.drop off.toNat).take (copyLen f off len).toNat++
              ((contents fs).drop (0 : BitVec 32).toNat).take (len-copyLen f off len).toNat := by
          have hdrop : off.toNat < f.bytes.length := by omega
          rw [contents_cons,drop_take_append _ _ hdrop,hb,hcopy,hrest]
          rfl
        rw [hslice]
        refine ⟨hih.wf,(sameMeta_addFrag ..).trans hih.sameMeta,fun hok => ?_,?_,hih.rc,hih.memory⟩
        · rw [hih.ok hok,bytes_addFrag dst hpart,List.append_assoc]
        · obtain ⟨k,hbytes⟩ := hih.part
          refine ⟨(copyLen f off len).toNat+k,?_⟩
          rw [hbytes,bytes_addFrag dst hpart,List.append_assoc]
          exact congrArg _ (hchunk ▸ List.take_length_add_append k).symm
      · rw [if_neg ha]
        exact ⟨hd,.refl _,(fun hok => by cases hok),⟨0,by simp⟩,.inr rfl,
          fun hall => absurd (hall n) ha⟩
    · have hsub := Fragment.toNat_sub_size32 hf (x := off) (by omega)
      have hih := ih hfs' hsized.tail hd (off-f.size32) len n hlen
      rw [hsub] at hih
      rw [if_neg (fun hh => hin (hlt.mp hh)),drop_contents_cons hfit fs (by omega)]
      exact hih

/-! ## The operations on the bytes -/

/-- The operations on a descriptor are those on the string `bs`. -/
structure Refines (d : FragDescriptor) (bs : List UInt8) : Prop where
  pull : ∀ size : BitVec 32, size.toNat < bs.length →
    ∃ e, fragPull d size = some e ∧ e.bytes = bs.drop size.toNat ∧ e.Wf ∧ SameMeta d e ∧
      (dataPtr e).isSome
  pullAll : ∀ size : BitVec 32, bs.length ≤ size.toNat → fragPull d size = none
  trim : ∀ size : BitVec 32, 0 < size.toNat →
    ∃ e, fragTrim d size = some e ∧ e.bytes = bs.take (min size.toNat bs.length) ∧ e.Wf ∧
      SameMeta d e ∧ (0 < bs.length → (dataPtr e).isSome)
  trimAll : fragTrim d 0 = none
  copyData : ∀ off len : BitVec 32, fragCopyData d off len =
    if off.toNat+len.toNat ≤ bs.length then some ((bs.drop off.toNat).take len.toNat) else none
  headerPtr : ∀ off len : BitVec 32, fragHeaderPtr d off len =
    if off.toNat+len.toNat ≤ bs.length then some ((bs.drop off.toNat).take len.toNat) else none
  addFragsFrom : ∀ (alloc : ℕ → Bool) (dst : FragDescriptor) (off len : BitVec 32), dst.Wf →
    dst.len < 2^31 → off.toNat+len.toNat ≤ bs.length →
      Added alloc dst ((bs.drop off.toNat).take len.toNat) (fragAddFragsFrom alloc dst d off len)
  addNothing : ∀ (alloc : ℕ → Bool) (dst : FragDescriptor) (off len : BitVec 32),
    bs.length < off.toNat+len.toNat → fragAddFragsFrom alloc dst d off len = (dst,.einval)

/-- The pointer that is returned for a packet with bytes is not `NULL`. -/
theorem dataPtr_isSome {d : FragDescriptor} (h : 0 < d.bytes.length) : (dataPtr d).isSome := by
  cases hf : d.frags with
  | nil =>
    rw [bytes,hf] at h
    exact absurd h (by decide)
  | cons f fs =>
    rw [dataPtr,hf]
    rfl

theorem refines_bytes {d : FragDescriptor} (h : d.Wf) (hl : d.len < 2^31) :
    Refines d d.bytes := by
  have hlen := h.length_bytes
  exact {
    pull := fun size hlt => by
      obtain ⟨e,he,hbytes,hw,hm⟩ := pull_spec h (by omega : size.toNat < d.len)
      refine ⟨e,(fragPull_eq h hl size).trans he,hbytes,hw,hm,dataPtr_isSome ?_⟩
      rw [hbytes,List.length_drop]
      omega
    pullAll := fun size hle => by
      rw [fragPull,if_pos (by omega)]
    trim := fun size h0 => by
      obtain ⟨e,he,hbytes,hw,hm⟩ := fragTrim_spec h hl h0
      refine ⟨e,he,?_,hw,hm,fun hpos => dataPtr_isSome ?_⟩
      · rw [hbytes,← List.take_eq_take_min]
      · rw [hbytes,List.length_take]
        omega
    trimAll := if_pos rfl
    copyData := fun off len => by
      rw [fragCopyData_eq h hl]
      split_ifs with hfit
      · exact copyData_eq h (by omega)
      · rw [FragDescriptor.copyData,if_pos (by omega)]
    headerPtr := fun off len => by
      rw [fragHeaderPtr_eq h hl]
      split_ifs with hfit
      · exact headerPtr_eq h (by omega)
      · exact headerPtr_none (by omega)
    addFragsFrom := fun alloc dst off len hd hdl hfit => by
      have hin : ¬ d.outOfRange off len := by
        rw [outOfRange_iff hl]
        omega
      rw [fragAddFragsFrom,if_neg hin]
      exact addFragsLoop32_spec alloc h.fits (h.sized hl) hd off len 0 (by omega)
    addNothing := fun alloc dst off len hlt => by
      rw [fragAddFragsFrom,if_pos ((outOfRange_iff hl off len).mpr (by omega))] }

/-- Nothing that the operations give tells two descriptors apart. -/
structure SameResults (d d' : FragDescriptor) : Prop where
  pull : ∀ size, (fragPull d size).map bytes = (fragPull d' size).map bytes
  trim : ∀ size, (fragTrim d size).map bytes = (fragTrim d' size).map bytes
  copyData : ∀ off len, fragCopyData d off len = fragCopyData d' off len
  headerPtr : ∀ off len, fragHeaderPtr d off len = fragHeaderPtr d' off len
  addFragsFrom : ∀ (alloc : ℕ → Bool) (dst : FragDescriptor) (off len : BitVec 32), dst.Wf →
    dst.len < 2^31 → (∀ n, alloc n = true) →
      (fragAddFragsFrom alloc dst d off len).2 = (fragAddFragsFrom alloc dst d' off len).2 ∧
        (fragAddFragsFrom alloc dst d off len).1.bytes =
          (fragAddFragsFrom alloc dst d' off len).1.bytes

theorem Refines.sameResults {d d' : FragDescriptor} {bs : List UInt8} (h : Refines d bs)
    (h' : Refines d' bs) : SameResults d d' where
  pull size := by
    rcases Nat.lt_or_ge size.toNat bs.length with hlt|hge
    · obtain ⟨e,he,hb,-⟩ := h.pull size hlt
      obtain ⟨e',he',hb',-⟩ := h'.pull size hlt
      rw [he,he',Option.map_some,Option.map_some,hb,hb']
    · rw [h.pullAll size hge,h'.pullAll size hge]
  trim size := by
    rcases Nat.eq_zero_or_pos size.toNat with h0|hpos
    · obtain rfl : size = 0 := BitVec.eq_of_toNat_eq h0
      rw [h.trimAll,h'.trimAll]
    · obtain ⟨e,he,hb,-⟩ := h.trim size hpos
      obtain ⟨e',he',hb',-⟩ := h'.trim size hpos
      rw [he,he',Option.map_some,Option.map_some,hb,hb']
  copyData off len := by rw [h.copyData,h'.copyData]
  headerPtr off len := by rw [h.headerPtr,h'.headerPtr]
  addFragsFrom alloc dst off len hd hdl hall := by
    rcases Nat.lt_or_ge bs.length (off.toNat+len.toNat) with hlt|hle
    · rw [h.addNothing alloc dst off len hlt,h'.addNothing alloc dst off len hlt]
      exact ⟨rfl,rfl⟩
    · have hadd := h.addFragsFrom alloc dst off len hd hdl hle
      have hadd' := h'.addFragsFrom alloc dst off len hd hdl hle
      have hok := hadd.memory hall
      have hok' := hadd'.memory hall
      exact ⟨hok.trans hok'.symm,(hadd.ok hok).trans (hadd'.ok hok').symm⟩

/-- Four bytes on two pages, with an empty fragment between them. -/
def gappedDesc : FragDescriptor where
  frags := [⟨[1,2,3],0,2⟩,⟨[],0,0⟩,⟨[9,4,5],1,2⟩]
  len := 4

example : (fragPull gappedDesc 2).map bytes = some [4,5] ∧
    (fragTrim gappedDesc 3).map bytes = some [1,2,4] ∧
    fragHeaderPtr gappedDesc 1 2 = some [2,4] := by decide

end FragDescriptor

end Rmnet
end MarbleModules
