import MarbleModules.FlexMem

/-! The bookkeeping of the flexible memory pool over whole runs. -/
namespace MarbleModules
namespace FlexMem

open FirstSplit (split split_some split_none_iff)

theorem ffz_some {m : BitVec 32} {i : ℕ} (h : ffz m = some i) : i < 32 ∧ ¬m.getLsbD i := by
  have hi := List.find?_some h
  have hmem := List.mem_of_find?_eq_some h
  exact ⟨List.mem_range.mp hmem,by simpa using hi⟩

theorem ffz_isSome_iff (m : BitVec 32) : ¬(ffz m).isSome ↔ ∀ i < 32,m.getLsbD i := by
  rw [Option.not_isSome_iff_eq_none,ffz,List.find?_eq_none]
  simp only [List.mem_range,Bool.not_eq_true]
  refine forall_congr' fun i => forall_congr' fun _ => ?_
  cases m.getLsbD i <;> simp

@[simp] theorem Segment.toggle_bytes (seg : Segment) (i : ℕ) :
    (seg.toggle i).bytes = seg.bytes := rfl

theorem Segment.toggle_bit (seg : Segment) {i : ℕ} (hi : i < 32) (j : ℕ) :
    (seg.toggle i).usedBitmap.getLsbD j = (seg.usedBitmap.getLsbD j ^^ decide (i = j)) := by
  rw [toggle,Nat.mod_eq_of_lt hi,BitVec.getLsbD_xor,BitVec.getLsbD_twoPow]
  simp [hi]

theorem Apart.symm {itemSize a b : ℕ} (h : Apart itemSize a b) : Apart itemSize b a := Or.symm h

/-- The index of an item, in the bytes of its segment. -/
theorem item_lt (itemSize : ℕ) {i : ℕ} (hi : i < 32) : i*itemSize+itemSize ≤ itemSize*32 := by
  have hh := Nat.mul_le_mul_right itemSize (Nat.succ_le_of_lt hi)
  rw [Nat.succ_mul] at hh
  omega

/-- What the segments and the live pointers have to do with each other, in any order of the
segments. -/
structure Booked (itemSize : ℕ) (l : List Segment) (live : Finset ℕ) : Prop where
  apart : l.Pairwise fun x y => Apart itemSize x.bytes y.bytes
  bits : ∀ seg ∈ l,∀ i < 32,seg.usedBitmap.getLsbD i ↔ seg.bytes+i*itemSize ∈ live
  owned : ∀ ptr ∈ live,∃ seg ∈ l,seg.Holds itemSize ptr

theorem Booked.perm {itemSize : ℕ} {l l' : List Segment} {live : Finset ℕ}
    (h : Booked itemSize l live) (hp : l.Perm l') : Booked itemSize l' live where
  apart := (hp.pairwise_iff fun hxy => Apart.symm hxy).mp h.apart
  bits seg hseg := h.bits seg (hp.mem_iff.mpr hseg)
  owned ptr hptr := by
    obtain ⟨seg,hseg,hh⟩ := h.owned ptr hptr
    exact ⟨seg,hp.mem_iff.mp hseg,hh⟩

variable {itemSize i j ptr : ℕ} {seg seg' : Segment} {l pre post : List Segment}
  {live : Finset ℕ}

/-- Two segments with byte areas apart hold no common item. -/
theorem Apart.not_holds (hitem : 0 < itemSize) (h : Apart itemSize seg.bytes seg'.bytes)
    (hh : seg.Holds itemSize ptr) : ¬seg'.Holds itemSize ptr := by
  obtain ⟨i,hi,rfl⟩ := hh
  rintro ⟨j,hj,heq⟩
  have hil := item_lt itemSize hi
  have hjl := item_lt itemSize hj
  rcases h with h | h <;> omega

theorem holds_item (seg : Segment) (hi : i < 32) :
    seg.Holds itemSize (seg.bytes+i*itemSize) := ⟨i,hi,rfl⟩

theorem item_inj (hitem : 0 < itemSize) :
    seg.bytes+i*itemSize = seg.bytes+j*itemSize ↔ i = j := by
  rw [Nat.add_left_cancel_iff,Nat.mul_left_inj hitem.ne']

theorem Booked.tail (h : Booked itemSize (seg::l) live) (hz : seg.usedBitmap = 0) :
    Booked itemSize l live where
  apart := h.apart.of_cons
  bits x hx := h.bits x (List.mem_cons_of_mem seg hx)
  owned ptr hptr := by
    obtain ⟨x,hx,i,hi,rfl⟩ := h.owned ptr hptr
    rcases List.mem_cons.mp hx with rfl | hx
    · have hbit := (h.bits x List.mem_cons_self i hi).mpr hptr
      rw [hz] at hbit
      simp at hbit
    · exact ⟨x,hx,i,hi,rfl⟩

/-- A segment without used items joins the others. -/
theorem Booked.cons (seg : Segment) (hitem : 0 < itemSize) (h : Booked itemSize l live)
    (hap : ∀ x ∈ l,Apart itemSize seg.bytes x.bytes) (hz : seg.usedBitmap = 0) :
    Booked itemSize (seg::l) live where
  apart := List.pairwise_cons.mpr ⟨hap,h.apart⟩
  bits x hx i hi := by
    rcases List.mem_cons.mp hx with rfl | hx
    · rw [hz]
      refine iff_of_false (by simp) fun hmem => ?_
      obtain ⟨y,hy,hh⟩ := h.owned _ hmem
      exact (hap y hy).not_holds hitem (holds_item _ hi) hh
    · exact h.bits x hx i hi
  owned ptr hptr := by
    obtain ⟨x,hx,hh⟩ := h.owned ptr hptr
    exact ⟨x,List.mem_cons_of_mem seg hx,hh⟩

theorem Booked.apart_toggle (h : Booked itemSize (seg::l) live) (i : ℕ) :
    (seg.toggle i::l).Pairwise fun x y => Apart itemSize x.bytes y.bytes :=
  List.pairwise_cons.mpr (List.pairwise_cons.mp h.apart)

theorem Booked.apart_of_ne (h : Booked itemSize l live) (hx : seg ∈ l) (hy : seg' ∈ l)
    (hne : seg ≠ seg') : Apart itemSize seg.bytes seg'.bytes := by
  have : Std.Symm fun x y : Segment => Apart itemSize x.bytes y.bytes := ⟨fun _ _ => Apart.symm⟩
  exact h.apart.forall hx hy hne

/-- What a toggled bit does to the bits of all items: it changes for the one item only. -/
theorem Booked.toggle_bits (hitem : 0 < itemSize) (h : Booked itemSize (seg::l) live)
    (hi : i < 32) {live' : Finset ℕ}
    (hother : ∀ p,p ≠ seg.bytes+i*itemSize → (p ∈ live' ↔ p ∈ live))
    (hself : seg.bytes+i*itemSize ∈ live' ↔ seg.bytes+i*itemSize ∉ live) :
    ∀ x ∈ seg.toggle i::l,∀ j < 32,
      x.usedBitmap.getLsbD j ↔ x.bytes+j*itemSize ∈ live' := by
  intro x hx j hj
  rcases List.mem_cons.mp hx with rfl | hx
  · have hbit := h.bits seg List.mem_cons_self j hj
    rw [seg.toggle_bit hi j,Segment.toggle_bytes]
    by_cases hij : i = j
    · subst hij
      rw [hself,← hbit]
      simp
    · rw [hother _ fun heq => hij ((item_inj hitem).mp heq).symm,← hbit]
      simp [hij]
  · rw [hother,h.bits x (List.mem_cons_of_mem seg hx) j hj]
    intro heq
    exact (List.rel_of_pairwise_cons h.apart hx).not_holds hitem (holds_item _ hi)
      (heq ▸ holds_item _ hj)

theorem Booked.use (hitem : 0 < itemSize) (h : Booked itemSize (seg::l) live) (hi : i < 32)
    (hbit : ¬seg.usedBitmap.getLsbD i) :
    Booked itemSize (seg.toggle i::l) (insert (seg.bytes+i*itemSize) live) where
  apart := h.apart_toggle i
  bits := by
    refine h.toggle_bits hitem hi (fun p hp => by simp [hp]) ?_
    rw [h.bits seg List.mem_cons_self i hi] at hbit
    simp [hbit]
  owned ptr hptr := by
    rcases Finset.mem_insert.mp hptr with rfl | hptr
    · exact ⟨_,List.mem_cons_self,holds_item (seg.toggle i) hi⟩
    · obtain ⟨x,hx,hh⟩ := h.owned ptr hptr
      rcases List.mem_cons.mp hx with rfl | hx
      · exact ⟨_,List.mem_cons_self,hh⟩
      · exact ⟨x,List.mem_cons_of_mem _ hx,hh⟩

theorem Booked.unuse (hitem : 0 < itemSize) (h : Booked itemSize (seg::l) live) (hi : i < 32)
    (hlive : seg.bytes+i*itemSize ∈ live) :
    Booked itemSize (seg.toggle i::l) (live.erase (seg.bytes+i*itemSize)) where
  apart := h.apart_toggle i
  bits := h.toggle_bits hitem hi (fun p hp => by simp [hp]) (by simp [hlive])
  owned ptr hptr := by
    obtain ⟨x,hx,hh⟩ := h.owned ptr (Finset.mem_of_mem_erase hptr)
    rcases List.mem_cons.mp hx with rfl | hx
    · exact ⟨_,List.mem_cons_self,hh⟩
    · exact ⟨x,List.mem_cons_of_mem _ hx,hh⟩

/-- The pool in every state of a run. -/
structure Inv (s : Pool) : Prop where
  item : 0 < s.itemSize
  booked : Booked s.itemSize s.segList s.live
  count : s.count.toNat ≤ s.segList.length

theorem Inv.good {s : Pool} (h : Inv s) : Good s where
  bits := h.booked.bits
  owned := h.booked.owned
  disjoint p hp q hq hne := by
    obtain ⟨x,hx,i,hi,rfl⟩ := h.booked.owned p hp
    obtain ⟨y,hy,j,hj,rfl⟩ := h.booked.owned q hq
    have hil := item_lt s.itemSize hi
    have hjl := item_lt s.itemSize hj
    by_cases hxy : x = y
    · subst hxy
      rcases Nat.lt_trichotomy i j with hij | rfl | hij
      · have := Nat.mul_le_mul_right s.itemSize (Nat.succ_le_of_lt hij)
        rw [Nat.succ_mul] at this
        omega
      · exact absurd rfl hne
      · have := Nat.mul_le_mul_right s.itemSize (Nat.succ_le_of_lt hij)
        rw [Nat.succ_mul] at this
        omega
    · rcases h.booked.apart_of_ne hx hy hxy with hap | hap <;> omega

theorem inv_of_created {s : Pool} (h : Created s) (hitem : 0 < s.itemSize) : Inv s where
  item := hitem
  booked := by
    refine ⟨h.apart,fun seg hseg i hi => ?_,fun ptr hptr => ?_⟩
    · rw [h.unused seg hseg,h.none]
      simp
    · rw [h.none] at hptr
      exact absurd hptr (Finset.notMem_empty ptr)
  count := h.count

theorem count_add_one_le {c : UInt32} {n : ℕ} (h : c.toNat ≤ n) : (c+1).toNat ≤ n+1 := by
  rw [UInt32.toNat_add]
  exact (Nat.mod_le _ _).trans (Nat.add_le_add_right h 1)

/-- An allocation, with the segment and the index it is served from. -/
theorem alloc_cases (s : Pool) (answer : Option ℕ) :
    (∃ pre seg post i,s.segList = pre++seg::post ∧ i < 32 ∧ ¬seg.usedBitmap.getLsbD i ∧
      alloc s answer = ({s with
        segList := pre++seg.toggle i::post
        mem := memZero s.mem (seg.bytes+i*s.itemSize) s.itemSize
        live := insert (seg.bytes+i*s.itemSize) s.live},some (seg.bytes+i*s.itemSize))) ∨
    ((∀ seg ∈ s.segList,Full seg) ∧ answer = none ∧ alloc s answer = (s,none)) ∨
    ∃ addr,(∀ seg ∈ s.segList,Full seg) ∧ answer = some addr ∧
      alloc s answer = ({segAlloc s addr 1 with live := insert (addr+segmentSize) s.live},
        some (addr+segmentSize)) := by
  cases hsp : split (fun seg => (ffz seg.usedBitmap).isSome) s.segList with
  | some r =>
    obtain ⟨pre,seg,post⟩ := r
    obtain ⟨hl,hsome,-⟩ := split_some hsp
    obtain ⟨i,hi⟩ := Option.isSome_iff_exists.mp hsome
    refine .inl ⟨pre,seg,post,i,hl,(ffz_some hi).1,(ffz_some hi).2,?_⟩
    simp only [alloc,hsp,hi,Option.getD_some]
  | none =>
    have hfull : ∀ seg ∈ s.segList,Full seg := fun seg hseg =>
      (ffz_isSome_iff _).mp (split_none_iff.mp hsp seg hseg)
    cases answer with
    | none => exact .inr (.inl ⟨hfull,rfl,by simp only [alloc,hsp]⟩)
    | some addr =>
      refine .inr (.inr ⟨addr,hfull,rfl,?_⟩)
      simp only [alloc,hsp]
      rfl

/-- A new segment whose first item is in use. -/
theorem toggle_new (addr : ℕ) :
    (⟨true,0,addr⟩ : Segment).toggle 0 = ⟨true,1,addr⟩ := by
  have hone : (0 : BitVec 32) ^^^ BitVec.twoPow 32 (0%32) = 1 := by decide
  rw [Segment.toggle,hone]

theorem inv_alloc {s : Pool} {answer : Option ℕ} (h : Inv s) (hl : Legal s (.alloc answer)) :
    Inv (alloc s answer).1 := by
  rcases alloc_cases s answer with ⟨pre,seg,post,i,hs,hi,hbit,heq⟩ | ⟨-,-,heq⟩ |
    ⟨addr,hfull,rfl,heq⟩
  · rw [heq]
    refine ⟨h.item,?_,?_⟩
    · have hb := h.booked.perm (hs ▸ List.perm_middle)
      exact (hb.use h.item hi hbit).perm List.perm_middle.symm
    · have hc := h.count
      rw [hs] at hc
      simpa only [List.length_append,List.length_cons] using hc
  · rw [heq]
    exact h
  · rw [heq]
    refine ⟨h.item,?_,?_⟩
    · have hb := (h.booked.cons ⟨true,0,addr+segmentSize⟩ h.item (hl hfull) rfl).use
        h.item (i := 0) (by omega) (by simp)
      rw [toggle_new,Nat.zero_mul,Nat.add_zero] at hb
      exact hb.perm (List.perm_append_singleton _ _).symm
    · have hc := count_add_one_le h.count
      simpa only [segAlloc,List.length_append,List.length_singleton] using hc

theorem stepOk_alloc {s : Pool} {answer : Option ℕ} (h : Inv s)
    (hl : Legal s (.alloc answer)) : StepOk s (.alloc answer) := by
  rcases alloc_cases s answer with ⟨pre,seg,post,i,hs,hi,hbit,heq⟩ | ⟨hfull,rfl,heq⟩ |
    ⟨addr,hfull,rfl,heq⟩
  · rw [StepOk,heq]
    refine ⟨?_,nofun⟩
    rintro ptr ⟨⟩
    refine ⟨fun hlive => hbit ?_,rfl,fun k hk => if_pos (by omega)⟩
    exact (h.booked.bits seg (hs ▸ by simp) i hi).mpr hlive
  · rw [StepOk,heq]
    exact ⟨nofun,fun _ => ⟨hfull,rfl⟩⟩
  · rw [StepOk,heq]
    refine ⟨?_,nofun⟩
    rintro ptr ⟨⟩
    refine ⟨fun hlive => ?_,rfl,fun k hk => if_pos (by omega)⟩
    obtain ⟨x,hx,hh⟩ := h.booked.owned _ hlive
    have hnew : Segment.Holds ⟨true,0,addr+segmentSize⟩ s.itemSize (addr+segmentSize) :=
      ⟨0,by omega,by simp⟩
    exact (hl hfull x hx).not_holds h.item hnew hh

/-- The bounds test of the search for the segment of a pointer. -/
def Tests (itemSize ptr : ℕ) (seg : Segment) : Prop :=
  ¬(ptr < seg.bytes ∨ ptr > seg.highAddr itemSize)

instance (itemSize ptr : ℕ) (seg : Segment) : Decidable (Tests itemSize ptr seg) :=
  inferInstanceAs (Decidable (¬_))

theorem Segment.Holds.range (h : seg.Holds itemSize ptr) :
    seg.bytes ≤ ptr ∧ ptr+itemSize ≤ seg.highAddr itemSize := by
  obtain ⟨i,hi,rfl⟩ := h
  have := item_lt itemSize hi
  rw [highAddr]
  omega

theorem Segment.Holds.tests (h : seg.Holds itemSize ptr) : Tests itemSize ptr seg := by
  have := h.range
  rw [Tests]
  omega

/-- The search ends at a segment, the first that passes the test. -/
theorem free_split {s : Pool} {ptr : ℕ} (h : Inv s) (hptr : ptr ∈ s.live) :
    ∃ pre seg post,s.segList = pre++seg::post ∧ Tests s.itemSize ptr seg ∧
      (∀ x ∈ pre,¬Tests s.itemSize ptr x) ∧
      free s ptr =
        if (seg.toggle ((ptr-seg.bytes)/s.itemSize)).usedBitmap = 0 ∧ seg.dynamic ∧
            ¬s.count.toNat ≤ s.reductionLimit then
          {s with segList := pre++post, count := s.count-1, live := s.live.erase ptr}
        else {s with
          segList := pre++seg.toggle ((ptr-seg.bytes)/s.itemSize)::post
          live := s.live.erase ptr} := by
  cases hsp : split (fun seg => ¬(ptr < seg.bytes ∨ ptr > seg.highAddr s.itemSize)) s.segList with
  | none =>
    obtain ⟨x,hx,hh⟩ := h.booked.owned ptr hptr
    exact absurd (decide_eq_true hh.tests) (split_none_iff.mp hsp x hx)
  | some r =>
    obtain ⟨pre,seg,post⟩ := r
    obtain ⟨hl,ht,hpre⟩ := split_some hsp
    refine ⟨pre,seg,post,hl,of_decide_eq_true ht,fun x hx hh => hpre x hx (decide_eq_true hh),?_⟩
    simp only [free,hsp]
    rfl

/-- Without an adjacent segment before it the owner of a pointer is found. -/
theorem owner_found {s : Pool} {ptr : ℕ} (h : Inv s) (hptr : ptr ∈ s.live)
    (hadj : NotAdjacent s (.free ptr)) (hs : s.segList = pre++seg::post)
    (ht : Tests s.itemSize ptr seg) (hpre : ∀ x ∈ pre,¬Tests s.itemSize ptr x) :
    seg.Holds s.itemSize ptr := by
  obtain ⟨x,hx,hh⟩ := h.booked.owned ptr hptr
  rw [hs] at hx
  rcases List.mem_append.mp hx with hx' | hx'
  · exact absurd hh.tests (hpre x hx')
  rcases List.mem_cons.mp hx' with rfl | hx'
  · exact hh
  · have hadj' : seg.highAddr s.itemSize ≠ ptr := by
      rw [NotAdjacent,hs] at hadj
      exact fun heq => List.rel_of_pairwise_cons (List.pairwise_append.mp hadj).2.1 hx' heq hh
    have hap : Apart s.itemSize seg.bytes x.bytes := by
      have := h.booked.apart
      rw [hs] at this
      exact List.rel_of_pairwise_cons (List.pairwise_append.mp this).2.1 hx'
    obtain ⟨hlow,hhigh⟩ := hh.range
    have hitem := h.item
    rw [Tests] at ht
    rw [Segment.highAddr] at ht hadj' hhigh
    rcases hap with hap | hap <;> omega

/-- What is left after the free of an item of the segment found. -/
theorem booked_free {s : Pool} (h : Inv s) (hs : s.segList = pre++seg::post) {i : ℕ}
    (hi : i < 32) (hlive : seg.bytes+i*s.itemSize ∈ s.live) :
    Booked s.itemSize (seg.toggle i::(pre++post)) (s.live.erase (seg.bytes+i*s.itemSize)) := by
  have hb := h.booked.perm (hs ▸ List.perm_middle)
  exact hb.unuse h.item hi hlive

theorem Booked.bits_eq (h : Booked itemSize l live) {l' : List Segment}
    (h' : Booked itemSize l' (live.erase ptr)) (hx : seg ∈ l) (hy : seg' ∈ l')
    (hxy : seg'.bytes = seg.bytes) (hi : i < 32) (hne : seg.bytes+i*itemSize ≠ ptr) :
    seg'.usedBitmap.getLsbD i = seg.usedBitmap.getLsbD i := by
  rw [Bool.eq_iff_iff,h'.bits seg' hy i hi,h.bits seg hx i hi,hxy,Finset.mem_erase]
  exact and_iff_right hne

theorem item_index (hitem : 0 < itemSize) (base i : ℕ) :
    (base+i*itemSize-base)/itemSize = i := by
  rw [Nat.add_sub_cancel_left,Nat.mul_div_cancel i hitem]

theorem toNat_sub_one {c : UInt32} (h : 0 < c.toNat) : (c-1).toNat = c.toNat-1 :=
  UInt32.toNat_sub_of_le c 1 (UInt32.le_iff_toNat_le.mpr h)

theorem inv_free {s : Pool} {ptr : ℕ} (h : Inv s) (hptr : ptr ∈ s.live)
    (hadj : NotAdjacent s (.free ptr)) : Inv (free s ptr) ∧ StepOk s (.free ptr) := by
  obtain ⟨pre,seg,post,hs,ht,hpre,heq⟩ := free_split h hptr
  obtain ⟨i,hi,rfl⟩ := owner_found h hptr hadj hs ht hpre
  rw [item_index h.item] at heq
  have hb := booked_free h hs hi hptr
  have hcount := h.count
  rw [hs,List.length_append,List.length_cons] at hcount
  rw [StepOk,heq]
  split
  · rename_i hrel
    obtain ⟨hzero,hdyn,hlimit⟩ := hrel
    have hrest := hb.tail hzero
    refine ⟨⟨h.item,hrest,?_⟩,fun x hx y hy hxy j hj hne =>
      h.booked.bits_eq hrest hx hy hxy hj hne,fun x hx hgone => ?_⟩
    · rw [toNat_sub_one (by omega),List.length_append]
      omega
    · have hseg : x = seg := by
        rw [hs] at hx
        rcases List.mem_cons.mp (List.perm_middle.mem_iff.mp hx) with rfl | hx
        · rfl
        · exact absurd rfl (hgone x hx)
      subst hseg
      refine ⟨hdyn,fun p hp hh => ?_,by rw [hs,List.length_append,List.length_cons]; omega⟩
      obtain ⟨y,hy,hhy⟩ := hrest.owned p hp
      have hap : Apart s.itemSize x.bytes y.bytes := List.rel_of_pairwise_cons hb.apart hy
      exact hap.not_holds h.item hh hhy
  · have hkept := hb.perm List.perm_middle.symm
    refine ⟨⟨h.item,hkept,?_⟩,fun x hx y hy hxy j hj hne =>
      h.booked.bits_eq hkept hx hy hxy hj hne,fun x hx hgone => ?_⟩
    · rw [List.length_append,List.length_cons]
      exact hcount
    · rw [hs] at hx
      rcases List.mem_append.mp hx with hx | hx
      · exact absurd rfl (hgone x (List.mem_append_left _ hx))
      rcases List.mem_cons.mp hx with rfl | hx
      · exact absurd rfl (hgone (x.toggle i) (by simp))
      · exact absurd rfl (hgone x (by simp [hx]))

theorem inv_step {s : Pool} {op : Op} (h : Inv s) (hl : Legal s op) (hadj : NotAdjacent s op) :
    Inv (step s op) := by
  cases op with
  | alloc answer => exact inv_alloc h hl
  | free ptr => exact (inv_free h hl hadj).1
  | write mem => exact ⟨h.item,h.booked,h.count⟩

theorem stepOk_step {s : Pool} {op : Op} (h : Inv s) (hl : Legal s op)
    (hadj : NotAdjacent s op) : StepOk s op := by
  cases op with
  | alloc answer => exact stepOk_alloc h hl
  | free ptr => exact (inv_free h hl hadj).2
  | write mem => trivial

/-- After a free that found another segment the bit of the freed item is still set. -/
theorem not_good_free {s : Pool} {ptr : ℕ} (h : Inv s) (hptr : ptr ∈ s.live)
    (hg : Good (free s ptr)) : NotAdjacent s (.free ptr) := by
  obtain ⟨pre,seg,post,hs,ht,hpre,heq⟩ := free_split h hptr
  have hitem : (free s ptr).itemSize = s.itemSize := by
    rw [heq]
    split <;> rfl
  have hlive : (free s ptr).live = s.live.erase ptr := by
    rw [heq]
    split <;> rfl
  have hpost : ∀ x ∈ post,¬x.Holds s.itemSize ptr := by
    rintro x hx ⟨i,hi,hpi⟩
    have hmem : x ∈ (free s ptr).segList := by
      rw [heq]
      split <;> simp [hx]
    have hbit := (h.booked.bits x (by simp [hs,hx]) i hi).mpr (hpi ▸ hptr)
    have hafter := (hg.bits x hmem i hi).mp hbit
    rw [hitem,hlive,← hpi] at hafter
    exact Finset.notMem_erase ptr _ hafter
  have hpre' : ∀ x ∈ pre,x.highAddr s.itemSize ≠ ptr := by
    intro x hx heq
    refine hpre x hx ?_
    rw [Tests]
    rw [Segment.highAddr] at heq ⊢
    omega
  rw [NotAdjacent,hs,List.pairwise_append,List.pairwise_cons]
  refine ⟨List.pairwise_of_forall_mem_list fun x hx y _ hxy => absurd hxy (hpre' x hx),
    ⟨fun y hy _ => hpost y hy,List.pairwise_of_forall_mem_list fun _ _ y hy _ => hpost y hy⟩,
    fun x hx y _ hxy => absurd hxy (hpre' x hx)⟩

/-- For every pool and every run: the bitmaps, the live items and every operation are as they
should be exactly when no item freed lies where an earlier segment's byte area ends. -/
theorem pool_good_iff (s : Pool) (ops : List Op) (hc : Created s) (hitem : 0 < s.itemSize)
    (hl : Runs.Guarded step Legal s ops) :
    (Runs.Always step Good s ops ∧ Runs.Guarded step StepOk s ops) ↔
      Runs.Guarded step NotAdjacent s ops := by
  have hi := inv_of_created hc hitem
  have hiff := Runs.always_iff_guarded (L := Legal) (C := NotAdjacent) (I := Inv) (P := Good)
    (fun s h => h.good) (fun s op h hl hadj => inv_step h hl hadj)
    (fun s op h hl hadj hg => by
      cases op with
      | free ptr => exact hadj (not_good_free h hl hg)
      | alloc answer => exact hadj trivial
      | write mem => exact hadj trivial) hi ops hl
  refine ⟨fun hh => hiff.mp hh.1,fun hh => ⟨hiff.mpr hh,?_⟩⟩
  exact (hl.and hh).imp (fun _ _ h hlc => inv_step h hlc.1 hlc.2)
    (fun _ _ h hlc => stepOk_step h hlc.1 hlc.2) hi ops

/-- Behind every earlier segment there is room for a header, as when each later one was
allocated. -/
def Spaced (s : Pool) : Prop :=
  (s.segList.map Segment.bytes).Pairwise fun a b =>
    b+s.itemSize*32 ≤ a ∨ a+s.itemSize*32+segmentSize ≤ b

/-- The whole block an allocation takes, the header included, meets no segment's bytes. -/
def Blocks (s : Pool) : Op → Prop
  | .alloc (some addr) => (∀ seg ∈ s.segList,Full seg) → ∀ seg ∈ s.segList,
      addr+(segmentSize+s.itemSize*32) ≤ seg.bytes ∨ seg.highAddr s.itemSize ≤ addr
  | _ => True

theorem Spaced.notAdjacent {s : Pool} (hitem : 0 < s.itemSize) (h : Spaced s) (op : Op) : NotAdjacent s op := by
  cases op with
  | free ptr =>
    refine (List.pairwise_map.mp h).imp fun {e seg} hes heq hh => ?_
    obtain ⟨hlow,hhigh⟩ := hh.range
    rw [Segment.highAddr] at heq hhigh
    rw [segmentSize] at hes
    rcases hes with hes | hes <;> omega
  | alloc answer => trivial
  | write mem => trivial

theorem spaced_step {s : Pool} {op : Op} (h : Inv s) (hsp : Spaced s) (hl : Legal s op)
    (hb : Blocks s op) : Spaced (step s op) := by
  cases op with
  | alloc answer =>
    rw [step]
    rcases alloc_cases s answer with ⟨pre,seg,post,i,hs,-,-,heq⟩ | ⟨-,-,heq⟩ |
      ⟨addr,hfull,rfl,heq⟩
    · rw [heq]
      rw [Spaced,hs] at hsp
      simpa only [Spaced,List.map_append,List.map_cons,Segment.toggle_bytes] using hsp
    · rw [heq]
      exact hsp
    · rw [heq,Spaced]
      simp only [segAlloc,List.map_append,List.map_cons,List.map_nil]
      refine List.pairwise_append.mpr ⟨hsp,List.pairwise_singleton _ _,fun a ha b hb' => ?_⟩
      obtain ⟨seg,hseg,rfl⟩ := List.mem_map.mp ha
      obtain rfl := List.mem_singleton.mp hb'
      have := hb hfull seg hseg
      rw [Segment.highAddr] at this
      omega
  | free ptr =>
    obtain ⟨pre,seg,post,hs,-,-,heq⟩ := free_split h hl
    rw [Spaced,hs] at hsp
    rw [step,heq]
    split
    · exact hsp.sublist ((List.Sublist.append_left (List.sublist_cons_self seg post) pre).map _)
    · simpa only [Spaced,List.map_append,List.map_cons,Segment.toggle_bytes] using hsp
  | write mem => exact hsp

/-- An allocator whose blocks share no byte never brings the bytes of two segments together. -/
theorem notAdjacent_of_blocks {s : Pool} {ops : List Op} (hc : Created s) (hitem : 0 < s.itemSize)
    (hsp : Spaced s) (hl : Runs.Guarded step Legal s ops) (hb : Runs.Guarded step Blocks s ops) :
    Runs.Guarded step NotAdjacent s ops :=
  (hl.and hb).imp (I := fun s => Inv s ∧ Spaced s)
    (fun _ op h hlc => ⟨inv_step h.1 hlc.1 (h.2.notAdjacent h.1.item op),
      spaced_step h.1 h.2 hlc.1 hlc.2⟩)
    (fun _ op h _ => h.2.notAdjacent h.1.item op) ⟨inv_of_created hc hitem,hsp⟩ ops

/-- A pool with the one segment it was defined with. -/
def onePool : Pool := ⟨[⟨false,0,0x1000⟩],0,1,16,fun _ => 0,∅⟩

theorem onePool_good : Runs.Always step Good onePool [.alloc none,.free 0x1000] ∧
    Runs.Guarded step StepOk onePool [.alloc none,.free 0x1000] :=
  (pool_good_iff onePool [.alloc none,.free 0x1000]
    ⟨List.pairwise_singleton _ _,by simp [onePool],rfl,by decide⟩ (by decide)
    (by decide)).mpr ⟨trivial,List.pairwise_singleton _ _,trivial⟩

/-- Two segments of single-byte items, the second right behind the first. -/
def twoPool : Pool := ⟨[⟨false,0,0x1000⟩,⟨false,0,0x1020⟩],0,1,1,fun _ => 0,∅⟩

/-- 33 items, and the last of them is freed. -/
def freeLast : List Op := List.replicate 33 (.alloc none)++[.free 0x1020]

theorem run_freeLast : (Runs.run step twoPool freeLast).segList =
    [⟨false,0xfffffffe,0x1000⟩,⟨false,1,0x1020⟩] ∧
      0x1020 ∉ (Runs.run step twoPool freeLast).live := by
  constructor
  · rfl
  · decide

theorem legal_allocs (s : Pool) (n : ℕ) :
    Runs.Guarded step Legal s (List.replicate n (.alloc none)) := by
  induction n generalizing s with
  | zero => trivial
  | succ n ih => exact ⟨trivial,ih _⟩

/-- The last item is searched for in the first segment, and stays marked in its own. -/
theorem not_twoPool_good : Created twoPool ∧ Runs.Guarded step Legal twoPool freeLast ∧
    ¬Runs.Always step Good twoPool freeLast := by
  refine ⟨⟨by simp [twoPool,Apart],by simp [twoPool],rfl,by decide⟩,
    (Runs.guarded_append ..).mpr ⟨legal_allocs _ _,?_,trivial⟩,fun hg => ?_⟩
  · change 0x1020 ∈ (Runs.run step twoPool (List.replicate 33 (.alloc none))).live
    decide
  · obtain ⟨hs,hlive⟩ := run_freeLast
    have hlast := hg freeLast List.prefix_rfl
    have hbit := hlast.bits ⟨false,1,0x1020⟩ (by rw [hs]; simp) 0 (by decide)
    exact hlive (hbit.mp (by decide))

end FlexMem
end MarbleModules
