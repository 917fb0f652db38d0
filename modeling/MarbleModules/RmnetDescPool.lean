import MarbleModules.Lifetimes
import MarbleModules.RmnetFragOps

/-! The descriptor pool of a port with its descriptors told apart, and the operations on one
descriptor, which may put it back into the pool by themselves. -/
namespace MarbleModules
namespace Rmnet

open Lifetimes

/-- `struct rmnet_frag_descriptor_pool`, the descriptors numbered as they were allocated;
`asked` counts what has been asked of the allocator. -/
structure DescPool where
  freeList : List ℕ
  poolSize : ℕ
  asked : ℕ

/-- The free list has no descriptor twice and none that is in use. -/
structure DescPool.Sound (p : DescPool) (held : Finset ℕ) : Prop where
  nodup : p.freeList.Nodup
  free : ∀ id ∈ p.freeList, id < p.poolSize ∧ id ∉ held
  held : ∀ id ∈ held, id < p.poolSize

/-- Code that works on the descriptors of a port. -/
abbrev Ingress : Type → Type := Owner DescPool ℕ

/-- A descriptor and its number. -/
structure Owned where
  id : ℕ
  desc : FragDescriptor

namespace Ingress

section Code

variable (alloc : ℕ → Bool)

/-- An allocation, which `alloc` grants or refuses. -/
def allocate : Ingress Bool :=
  fun p => ⟨alloc p.asked,{ p with asked := p.asked+1 },[]⟩

/-- The descriptor is read or written. -/
def use (id : ℕ) : Ingress Unit := fun p => ⟨(),p,[⟨.use,id⟩]⟩

/-- `rmnet_get_frag_descriptor`: the first free descriptor, or a new one. -/
def getFragDescriptor : Ingress (Option ℕ) := fun p =>
  match p.freeList with
  | id::ids => ⟨some id,{ p with freeList := ids },[⟨.acquire,id⟩]⟩
  | [] =>
    if alloc p.asked then
      ⟨some p.poolSize,{ p with poolSize := p.poolSize+1, asked := p.asked+1 },
        [⟨.acquire,p.poolSize⟩]⟩
    else ⟨none,{ p with asked := p.asked+1 },[]⟩

/-- `rmnet_recycle_frag_descriptor`: off the list the descriptor is on, to the end of the
free list. -/
def recycleFragDescriptor (id : ℕ) : Ingress Unit := fun p =>
  ⟨(),{ p with freeList := p.freeList.erase id++[id] },[⟨.release,id⟩]⟩

/-- `rmnet_frag_pull`; `none` is `NULL`. -/
def fragPull (fragDesc : Owned) (size : ℕ) : Ingress (Option Owned) := do
  use fragDesc.id
  match fragDesc.desc.pull size with
  | none =>
    recycleFragDescriptor fragDesc.id
    pure none
  | some desc => pure (some ⟨fragDesc.id,desc⟩)

/-- `rmnet_frag_trim`; `none` is `NULL`. -/
def fragTrim (fragDesc : Owned) (size : ℕ) : Ingress (Option Owned) := do
  use fragDesc.id
  match fragDesc.desc.fragTrim (BitVec.ofNat 32 size) with
  | none =>
    recycleFragDescriptor fragDesc.id
    pure none
  | some desc => pure (some ⟨fragDesc.id,desc⟩)

/-- The loop of `rmnet_frag_descriptor_add_frags_from`; `none` is `-ENOMEM`. -/
def addFragsLoop (dst : FragDescriptor) :
    List Fragment → ℕ → ℕ → Ingress (Option FragDescriptor)
  | [],_,_ => pure (some dst)
  | f::fs,off,len =>
    if len = 0 then pure (some dst)
    else if off < f.size then do
      let copyLen := min len (f.size-off)
      match ← allocate alloc with
      | false => pure none
      | true => addFragsLoop (dst.addFrag f.page (f.off+off) copyLen) fs 0 (len-copyLen)
    else addFragsLoop dst fs (off-f.size) len

/-- `rmnet_frag_descriptor_add_frags_from`; `none` when it returns an error. -/
def addFragsFrom (dst source : Owned) (off len : ℕ) : Ingress (Option FragDescriptor) := do
  use source.id
  if source.desc.len < off ∨ source.desc.len < len ∨ source.desc.len < off+len then pure none
  else do
    use dst.id
    addFragsLoop alloc dst.desc source.desc.frags off len

end Code

/-! ## What they do to the pool -/

variable {alloc : ℕ → Bool} {held : Finset ℕ}

theorem allocate_leaves :
    Leaves DescPool.Sound held (allocate alloc) fun b held' =>
      held' = held ∧ ((∀ k, alloc k = true) → b = true) :=
  fun p hp => ⟨held,rfl,⟨hp.nodup,hp.free,hp.held⟩,rfl,fun h => h p.asked⟩

theorem use_leaves {id : ℕ} (h : id ∈ held) :
    Leaves DescPool.Sound held (use id) fun _ held' => held' = held :=
  fun _ hp => ⟨held,by simp [use,track,step,h],hp,rfl⟩

theorem getFragDescriptor_leaves :
    Leaves DescPool.Sound held (getFragDescriptor alloc) fun r held' =>
      (∀ id, r = some id → id ∉ held ∧ held' = insert id held) ∧
      (r = none → held' = held ∧ ¬∀ k, alloc k = true) := by
  intro p hp
  unfold getFragDescriptor
  split
  · rename_i id ids hfree
    obtain ⟨hlt,hid⟩ := hp.free id (by simp [hfree])
    obtain ⟨hnot,hnodup⟩ := List.nodup_cons.mp (hfree ▸ hp.nodup)
    refine ⟨insert id held,by simp [track,step,hid],⟨hnodup,?_,?_⟩,?_,by simp⟩
    · intro j hj
      obtain ⟨hjlt,hjheld⟩ := hp.free j (by simp [hfree,hj])
      have hne : j ≠ id := fun heq => hnot (heq ▸ hj)
      exact ⟨hjlt,by simp [hne,hjheld]⟩
    · intro j hj
      rcases Finset.mem_insert.mp hj with rfl|hj
      · exact hlt
      · exact hp.held j hj
    · rintro j hj
      obtain rfl : id = j := Option.some.inj hj
      exact ⟨hid,rfl⟩
  · rename_i hfree
    have hid : p.poolSize ∉ held := fun h => Nat.lt_irrefl _ (hp.held _ h)
    split_ifs with ha
    · refine ⟨insert p.poolSize held,by simp [track,step,hid],⟨hp.nodup,?_,?_⟩,?_,by simp⟩
      · simp [hfree]
      · intro j hj
        change j < p.poolSize+1
        rcases Finset.mem_insert.mp hj with rfl|hj
        · omega
        · exact (hp.held j hj).trans (Nat.lt_succ_self _)
      · rintro j hj
        obtain rfl : p.poolSize = j := Option.some.inj hj
        exact ⟨hid,rfl⟩
    · exact ⟨held,rfl,⟨hp.nodup,hp.free,hp.held⟩,by simp,fun _ => ⟨rfl,fun h => ha (h _)⟩⟩

theorem recycleFragDescriptor_leaves {id : ℕ} (h : id ∈ held) :
    Leaves DescPool.Sound held (recycleFragDescriptor id) fun _ held' =>
      held' = held.erase id := by
  intro p hp
  have hid : id ∉ p.freeList := fun hm => (hp.free id hm).2 h
  refine ⟨held.erase id,by simp [recycleFragDescriptor,track,step,h],⟨?_,?_,?_⟩,rfl⟩
  · change (p.freeList.erase id++[id]).Nodup
    rw [List.erase_of_not_mem hid]
    exact hp.nodup.append (List.nodup_singleton id) (by simpa using hid)
  · intro j hj
    rw [show (recycleFragDescriptor id p).pool.freeList = p.freeList.erase id++[id] from rfl,
      List.erase_of_not_mem hid] at hj
    rcases List.mem_append.mp hj with hj|hj
    · exact ⟨(hp.free j hj).1,fun hm => (hp.free j hj).2 (Finset.mem_of_mem_erase hm)⟩
    · rw [List.mem_singleton.mp hj]
      exact ⟨hp.held id h,Finset.notMem_erase id held⟩
  · exact fun j hj => hp.held j (Finset.mem_of_mem_erase hj)

/-- A descriptor that is not held cannot be recycled. -/
theorem recycleFragDescriptor_breaks {id : ℕ} (h : id ∉ held) :
    Breaks DescPool.Sound held (recycleFragDescriptor id) :=
  fun _ _ => by simp [recycleFragDescriptor,track,step,h]

theorem recycle_pure_leaves {α : Type} {id : ℕ} (h : id ∈ held) (a : α) :
    Leaves DescPool.Sound held (do recycleFragDescriptor id; pure a) fun r held' =>
      r = a ∧ held' = held.erase id := by
  refine (recycleFragDescriptor_leaves h).bind ?_
  rintro _ _ rfl
  exact .pure ⟨rfl,rfl⟩

section Owned

variable {o : Owned} (h : o.id ∈ held)

include h

/-- A pull that leaves something is a pull of the descriptor. -/
theorem fragPull_leaves {size : ℕ} (hs : size < o.desc.len) :
    Leaves DescPool.Sound held (fragPull o size) fun r held' =>
      held' = held ∧ ∃ d, r = some ⟨o.id,d⟩ ∧ o.desc.pull size = some d := by
  refine (use_leaves h).bind ?_
  rintro _ _ rfl
  obtain ⟨d,hd⟩ : ∃ d, o.desc.pull size = some d := by
    rw [FragDescriptor.pull,if_neg (by omega)]
    exact ⟨_,rfl⟩
  rw [hd]
  exact .pure ⟨rfl,d,rfl,rfl⟩

/-- A pull that would leave nothing recycles the descriptor. -/
theorem fragPull_short {size : ℕ} (hs : o.desc.len ≤ size) :
    Leaves DescPool.Sound held (fragPull o size) fun r held' =>
      r = none ∧ held' = held.erase o.id := by
  refine (use_leaves h).bind ?_
  rintro _ _ rfl
  rw [FragDescriptor.pull,if_pos hs]
  exact recycle_pure_leaves h none

theorem fragTrim_leaves {size : ℕ} (hs : BitVec.ofNat 32 size ≠ 0) :
    Leaves DescPool.Sound held (fragTrim o size) fun r held' =>
      held' = held ∧ ∃ d, r = some ⟨o.id,d⟩ ∧
        o.desc.fragTrim (BitVec.ofNat 32 size) = some d := by
  refine (use_leaves h).bind ?_
  rintro _ _ rfl
  obtain ⟨d,hd⟩ : ∃ d, o.desc.fragTrim (BitVec.ofNat 32 size) = some d := by
    rw [FragDescriptor.fragTrim,if_neg hs]
    split_ifs
    · exact ⟨_,rfl⟩
    · exact ⟨_,rfl⟩
  rw [hd]
  exact .pure ⟨rfl,d,rfl,rfl⟩

/-- Trimming to nothing recycles the descriptor. -/
theorem fragTrim_zero {size : ℕ} (hs : BitVec.ofNat 32 size = 0) :
    Leaves DescPool.Sound held (fragTrim o size) fun r held' =>
      r = none ∧ held' = held.erase o.id := by
  refine (use_leaves h).bind ?_
  rintro _ _ rfl
  rw [FragDescriptor.fragTrim,if_pos hs]
  exact recycle_pure_leaves h none

end Owned

/-- The loop gives the fragments asked for, or runs out of memory. -/
theorem addFragsLoop_leaves (fs : List Fragment) (off len : ℕ) (dst : FragDescriptor) :
    Leaves DescPool.Sound held (addFragsLoop alloc dst fs off len) fun r held' =>
      held' = held ∧ (r = none ∨ r = some (FragDescriptor.addFragsLoop dst fs off len)) := by
  induction fs generalizing off len dst with
  | nil => exact .pure ⟨rfl,.inr rfl⟩
  | cons f fs ih =>
    rw [addFragsLoop,FragDescriptor.addFragsLoop]
    split_ifs with h0 hoff
    · exact .pure ⟨rfl,.inr rfl⟩
    · refine allocate_leaves.bind ?_
      rintro b _ ⟨rfl,-⟩
      cases b with
      | false => exact .pure ⟨rfl,.inl rfl⟩
      | true => exact ih _ _ _
    · exact ih _ _ _

theorem addFragsFrom_leaves {dst source : Owned} (hd : dst.id ∈ held) (hs : source.id ∈ held)
    (off len : ℕ) :
    Leaves DescPool.Sound held (addFragsFrom alloc dst source off len) fun r held' =>
      held' = held ∧ (r = none ∨ r = dst.desc.addFragsFrom source.desc off len) := by
  refine (use_leaves hs).bind ?_
  rintro _ _ rfl
  rw [FragDescriptor.addFragsFrom]
  split_ifs with hrange
  · exact .pure ⟨rfl,.inl rfl⟩
  · refine (use_leaves hd).bind ?_
    rintro _ _ rfl
    exact addFragsLoop_leaves _ _ _ _

end Ingress
end Rmnet
end MarbleModules
