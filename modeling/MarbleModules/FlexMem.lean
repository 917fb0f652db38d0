import MarbleModules.FirstSplit
import MarbleModules.Runs

/-! The flexible memory pool of the WLAN driver's OS layer: segments of 32 items each, which are
allocated when all items are in use and released when the last of their items is freed. -/
namespace MarbleModules
namespace FlexMem

open FirstSplit (split)

/-- `sizeof(struct qdf_flex_mem_segment)` -/
def segmentSize : ℕ := 32

/-- `struct qdf_flex_mem_segment`; `bytes` is an address. -/
structure Segment where
  dynamic : Bool
  usedBitmap : BitVec 32
  bytes : ℕ

/-- `struct qdf_flex_mem_pool` and the memory, with the pointers handed out and not yet freed. -/
structure Pool where
  segList : List Segment
  /-- The count of `seg_list`, which leaves out the segment the pool was defined with. -/
  count : UInt32
  reductionLimit : ℕ
  itemSize : ℕ
  mem : ℕ → UInt8
  live : Finset ℕ

/-- `qdf_ffz`; `none` is -1. -/
def ffz (mask : BitVec 32) : Option ℕ := (List.range 32).find? fun i => !mask.getLsbD i

/-- `seg->used_bitmap ^= (QDF_FM_BITMAP)1 << index`; the machine takes the shift modulo 32. -/
def Segment.toggle (seg : Segment) (index : ℕ) : Segment :=
  {seg with usedBitmap := seg.usedBitmap ^^^ BitVec.twoPow 32 (index%32)}

/-- `qdf_mem_zero` -/
def memZero (mem : ℕ → UInt8) (ptr size : ℕ) : ℕ → UInt8 :=
  fun a => if ptr ≤ a ∧ a < ptr+size then 0 else mem a

/-- `qdf_flex_mem_seg_alloc` when the allocator, which zeroes, returns `addr`, and the bitmap
the caller then sets. -/
def segAlloc (s : Pool) (addr : ℕ) (bitmap : BitVec 32) : Pool :=
  {s with
    segList := s.segList++[⟨true,bitmap,addr+segmentSize⟩]
    count := s.count+1
    mem := memZero s.mem addr (segmentSize+s.itemSize*32)}

/-- `qdf_flex_mem_alloc`, with what the allocator would answer. -/
def alloc (s : Pool) (answer : Option ℕ) : Pool × Option ℕ :=
  match split (fun seg => (ffz seg.usedBitmap).isSome) s.segList with
  | some (pre,seg,post) =>
    let index := (ffz seg.usedBitmap).getD 0
    let ptr := seg.bytes+index*s.itemSize
    ({s with
      segList := pre++seg.toggle index::post
      mem := memZero s.mem ptr s.itemSize
      live := insert ptr s.live},some ptr)
  | none =>
    match answer with
    | none => (s,none)
    | some addr =>
      let s := segAlloc s addr 1
      ({s with live := insert (addr+segmentSize) s.live},some (addr+segmentSize))

/-- `high_addr` -/
def Segment.highAddr (seg : Segment) (itemSize : ℕ) : ℕ := seg.bytes+itemSize*32

/-- `qdf_flex_mem_free` -/
def free (s : Pool) (ptr : ℕ) : Pool :=
  match split (fun seg => ¬(ptr < seg.bytes ∨ ptr > seg.highAddr s.itemSize)) s.segList with
  | none => {s with live := s.live.erase ptr}
  | some (pre,seg,post) =>
    let seg := seg.toggle ((ptr-seg.bytes)/s.itemSize)
    -- `qdf_flex_mem_seg_free`
    if seg.usedBitmap = 0 ∧ seg.dynamic ∧ ¬s.count.toNat ≤ s.reductionLimit then
      {s with
        segList := pre++post
        count := s.count-1
        live := s.live.erase ptr}
    else {s with
      segList := pre++seg::post
      live := s.live.erase ptr}

inductive Op
  | alloc (answer : Option ℕ)
  | free (ptr : ℕ)
  /-- What the holders of items write. -/
  | write (mem : ℕ → UInt8)

def step (s : Pool) : Op → Pool
  | .alloc answer => (alloc s answer).1
  | .free ptr => free s ptr
  | .write mem => {s with mem := mem}

/-- The byte areas at two addresses do not meet. -/
def Apart (itemSize a b : ℕ) : Prop := a+itemSize*32 ≤ b ∨ b+itemSize*32 ≤ a

def Full (seg : Segment) : Prop := ∀ i < 32,seg.usedBitmap.getLsbD i

/-- A new segment's bytes meet those of no other; only live pointers are freed. -/
def Legal (s : Pool) : Op → Prop
  | .alloc (some addr) => (∀ seg ∈ s.segList,Full seg) →
      ∀ seg ∈ s.segList,Apart s.itemSize (addr+segmentSize) seg.bytes
  | .free ptr => ptr ∈ s.live
  | _ => True

instance (itemSize a b : ℕ) : Decidable (Apart itemSize a b) :=
  inferInstanceAs (Decidable (_ ∨ _))

instance (seg : Segment) : Decidable (Full seg) :=
  inferInstanceAs (Decidable (∀ i < 32,seg.usedBitmap.getLsbD i))

instance (s : Pool) : ∀ op,Decidable (Legal s op)
  | .alloc none => isTrue trivial
  | .alloc (some addr) => inferInstanceAs (Decidable ((∀ seg ∈ s.segList,Full seg) →
      ∀ seg ∈ s.segList,Apart s.itemSize (addr+segmentSize) seg.bytes))
  | .free ptr => inferInstanceAs (Decidable (ptr ∈ s.live))
  | .write _ => isTrue trivial

/-- A pool before its first allocation. -/
structure Created (s : Pool) : Prop where
  apart : s.segList.Pairwise fun x y => Apart s.itemSize x.bytes y.bytes
  unused : ∀ seg ∈ s.segList,seg.usedBitmap = 0
  none : s.live = ∅
  count : s.count.toNat ≤ s.segList.length

/-- The pointer is that of an item of the segment. -/
def Segment.Holds (seg : Segment) (itemSize ptr : ℕ) : Prop :=
  ∃ i < 32,ptr = seg.bytes+i*itemSize

/-- The bits say which items are live, and the live items share no byte. -/
structure Good (s : Pool) : Prop where
  bits : ∀ seg ∈ s.segList,∀ i < 32,
    seg.usedBitmap.getLsbD i ↔ seg.bytes+i*s.itemSize ∈ s.live
  owned : ∀ ptr ∈ s.live,∃ seg ∈ s.segList,seg.Holds s.itemSize ptr
  disjoint : ∀ p ∈ s.live,∀ q ∈ s.live,p ≠ q → p+s.itemSize ≤ q ∨ q+s.itemSize ≤ p

/-- What an operation has to do. -/
def StepOk (s : Pool) : Op → Prop
  | .alloc answer =>
    (∀ ptr,(alloc s answer).2 = some ptr → ptr ∉ s.live ∧
      (alloc s answer).1.live = insert ptr s.live ∧
      ∀ k < s.itemSize,(alloc s answer).1.mem (ptr+k) = 0) ∧
    ((alloc s answer).2 = none → (∀ seg ∈ s.segList,Full seg) ∧ answer = none)
  | .free ptr =>
    (∀ seg ∈ s.segList,∀ seg' ∈ (free s ptr).segList,seg'.bytes = seg.bytes →
      ∀ i < 32,seg.bytes+i*s.itemSize ≠ ptr →
        seg'.usedBitmap.getLsbD i = seg.usedBitmap.getLsbD i) ∧
    ∀ seg ∈ s.segList,(∀ seg' ∈ (free s ptr).segList,seg'.bytes ≠ seg.bytes) →
      seg.dynamic ∧ (∀ p ∈ (free s ptr).live,¬seg.Holds s.itemSize p) ∧
        s.reductionLimit < s.segList.length
  | .write _ => True

/-- The pointer is not the first item of a segment whose byte area starts where that of an
earlier segment ends. -/
def NotAdjacent (s : Pool) : Op → Prop
  | .free ptr => s.segList.Pairwise fun e seg =>
      e.highAddr s.itemSize = ptr → ¬seg.Holds s.itemSize ptr
  | _ => True

end FlexMem
end MarbleModules
