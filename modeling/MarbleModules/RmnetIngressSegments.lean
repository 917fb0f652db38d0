import MarbleModules.RmnetIngressFrames

/-! Delivery and segmentation keep account of the descriptors: what is delivered is recycled,
and a frame that is cut up leaves one descriptor for each segment beside its own. -/
namespace MarbleModules
namespace Rmnet

open Lifetimes FragDescriptor

/-- The headers to be pulled off on delivery are no longer than the packet. -/
def Sendable (d : FragDescriptor) : Prop := d.hdrsValid = true → hdrLen d ≤ d.len

theorem hdrLen_le (d : FragDescriptor) : hdrLen d ≤ d.ipLen+d.transLen := Nat.mod_le _ _

theorem addFragsFrom_len {dst source d : FragDescriptor} {off len : ℕ} (hd : dst.Wf)
    (hs : source.Wf) (h : dst.addFragsFrom source off len = some d) :
    d.Wf ∧ SameMeta dst d ∧ d.len = dst.len+len := by
  have hfit : off+len ≤ source.len := by
    by_contra hc
    rw [FragDescriptor.addFragsFrom,if_pos (by omega)] at h
    cases h
  obtain ⟨e,he,hb,hw,hm⟩ := addFragsFrom_spec hd hs hfit
  obtain rfl : d = e := Option.some.inj (h.symm.trans he)
  have hsl := hs.length_bytes
  refine ⟨hw,hm,?_⟩
  rw [← hw.length_bytes,hb,List.length_append,hd.length_bytes,List.length_take,
    List.length_drop,hsl]
  omega

/-- The lengths of a packet and of its headers are the same. -/
structure SameLengths (d e : FragDescriptor) : Prop where
  len : e.len = d.len
  ipLen : e.ipLen = d.ipLen
  transLen : e.transLen = d.transLen

theorem segmentTransport_lengths {d e e' : FragDescriptor} {offset dlen : ℕ}
    {csumValid v : Bool} (h : segmentTransport d e offset dlen csumValid = some (e',v)) :
    SameLengths e e' := by
  unfold segmentTransport at h
  split_ifs at h
  · obtain ⟨th,-,heq⟩ := Option.map_eq_some_iff.mp h
    dsimp only at heq
    split_ifs at heq
    · rw [← (Prod.mk.inj heq).1]
      exact ⟨rfl,rfl,rfl⟩
    · rw [← (Prod.mk.inj heq).1]
      exact ⟨rfl,rfl,rfl⟩
  · obtain ⟨uh,-,heq⟩ := Option.map_eq_some_iff.mp h
    rw [← (Prod.mk.inj heq).1]
    exact ⟨rfl,rfl,rfl⟩
  · rw [← (Prod.mk.inj (Option.some.inj h)).1]
    exact ⟨rfl,rfl,rfl⟩

theorem segmentNetwork_lengths {d e e' : FragDescriptor}
    (h : segmentNetwork d e = some e') : SameLengths e e' := by
  unfold segmentNetwork at h
  split_ifs at h
  · obtain ⟨iph,-,rfl⟩ := Option.map_eq_some_iff.mp h
    exact ⟨rfl,rfl,rfl⟩
  · rw [← Option.some.inj h]
    exact ⟨rfl,rfl,rfl⟩

namespace Ingress

variable {alloc : ℕ → Bool} {held : Finset ℕ}

/-! ## Delivery -/

theorem addRxFrags_leaves (fs : List Fragment) (nrFrags : ℕ) :
    Leaves DescPool.Sound held (addRxFrags alloc fs nrFrags) fun _ held' => held' = held := by
  induction fs generalizing nrFrags with
  | nil => exact .pure rfl
  | cons f fs ih =>
    rw [addRxFrags]
    split_ifs
    · exact ih _
    · refine allocate_leaves.bind ?_
      rintro b _ ⟨rfl,-⟩
      cases b with
      | false => exact .pure rfl
      | true => exact ih _

section Deliver

variable {o : Owned} (h : o.id ∈ held)

include h

/-- The last part of `rmnet_alloc_skb`. -/
theorem rxFrags_leaves (fs : List Fragment) :
    Leaves DescPool.Sound held (do addRxFrags alloc fs 0; use o.id; pure true)
      fun _ held' => held' = held := by
  refine (addRxFrags_leaves fs 0).bind ?_
  rintro _ _ rfl
  refine (use_leaves h).bind ?_
  rintro _ _ rfl
  exact .pure rfl

theorem allocSkb_leaves (hs : Sendable o.desc) :
    Leaves DescPool.Sound held (allocSkb alloc o) fun _ held' => held' = held := by
  refine (use_leaves h).bind ?_
  rintro _ _ rfl
  refine allocate_leaves.bind ?_
  rintro b _ ⟨rfl,-⟩
  cases b with
  | false => exact .pure rfl
  | true =>
    dsimp only
    split_ifs with hv hl
    · refine (use_leaves h).bind ?_
      rintro _ _ rfl
      exact .pure rfl
    · have hle := hs hv
      refine (fragPull_leaves h (by omega)).bind ?_
      rintro _ _ ⟨rfl,d,rfl,-⟩
      exact rxFrags_leaves (o := ⟨o.id,d⟩) h _
    · exact rxFrags_leaves h _

theorem fragDeliver_leaves (hs : Sendable o.desc) :
    Leaves DescPool.Sound held (fragDeliver alloc o) fun _ held' =>
      held' = held.erase o.id := by
  refine (allocSkb_leaves h hs).bind ?_
  rintro _ _ rfl
  exact recycleFragDescriptor_leaves h

/-- Headers longer than the packet: the pull recycles, and so does the caller. -/
theorem fragDeliver_breaks (ha : ∀ k, alloc k = true) (hv : o.desc.hdrsValid = true)
    (hl : o.desc.len < hdrLen o.desc) :
    Breaks DescPool.Sound held (fragDeliver alloc o) := by
  have hskb : Leaves DescPool.Sound held (allocSkb alloc o) fun _ held' =>
      held' = held.erase o.id := by
    refine (use_leaves h).bind ?_
    rintro _ _ rfl
    refine allocate_leaves.bind ?_
    rintro b _ ⟨rfl,hb⟩
    rw [hb ha]
    dsimp only
    rw [if_pos hv,if_neg (by omega)]
    refine (fragPull_short h hl.le).bind ?_
    rintro _ _ ⟨rfl,rfl⟩
    exact .pure rfl
  refine hskb.breaks ?_
  rintro _ _ rfl
  exact recycleFragDescriptor_breaks (Finset.notMem_erase o.id _)

end Deliver

theorem deliverAll_leaves {rest : Finset ℕ} (os : List Owned)
    (h : HandsBack rest (os.map Owned.id) held) (hs : ∀ o ∈ os, Sendable o.desc) :
    Leaves DescPool.Sound held (deliverAll alloc os) fun _ held' => held' = rest := by
  induction os generalizing held with
  | nil => exact .pure h
  | cons o os ih =>
    refine (fragDeliver_leaves h.1 (hs o (by simp))).bind ?_
    rintro _ _ rfl
    exact ih h.2 fun o ho => hs o (by simp [ho])

/-! ## Cutting a frame up -/

theorem newSegment_leaves {coal : Owned} {id : ℕ} (hc : coal.id ∈ held) (hid : id ∈ held)
    (hw : coal.desc.Wf) (csumValid : Bool) :
    Leaves DescPool.Sound held (newSegment alloc coal id csumValid) fun r held' =>
      held' = held ∧ ∀ d, r = some d → hdrLen d ≤ d.len := by
  refine (use_leaves hid).bind ?_
  rintro _ _ rfl
  refine (addFragsFrom_leaves (show (Owned.mk id _).id ∈ _ from hid) hc _ _).bind ?_
  rintro r _ ⟨rfl,hr⟩
  cases r with
  | none => exact .pure ⟨rfl,by simp⟩
  | some e =>
    have hadd : FragDescriptor.addFragsFrom { coal.desc with frags := [], len := 0 } coal.desc
        0 (coal.desc.ipLen+coal.desc.transLen) = some e := (hr.resolve_left (by simp)).symm
    obtain ⟨hew,hem,hel⟩ := addFragsFrom_len (wf_empty _ rfl rfl) hw hadd
    refine (addFragsFrom_leaves (show (Owned.mk id e).id ∈ _ from hid) hc _ _).bind ?_
    rintro r _ ⟨rfl,hr⟩
    cases r with
    | none => exact .pure ⟨rfl,by simp⟩
    | some e₂ =>
      have hadd₂ : e.addFragsFrom coal.desc
          (coal.desc.ipLen+coal.desc.transLen+coal.desc.dataOffset)
          (coal.desc.gsoSize*coal.desc.gsoSegs) = some e₂ := (hr.resolve_left (by simp)).symm
      obtain ⟨-,hem₂,hel₂⟩ := addFragsFrom_len hew hw hadd₂
      refine (use_leaves hc).bind ?_
      rintro _ _ rfl
      cases ht : segmentTransport coal.desc e₂
          (coal.desc.ipLen+coal.desc.transLen+coal.desc.dataOffset)
          (coal.desc.gsoSize*coal.desc.gsoSegs) csumValid with
      | none => exact .pure ⟨rfl,by simp⟩
      | some ev =>
        obtain ⟨e₃,v⟩ := ev
        refine (use_leaves hid).bind ?_
        rintro _ _ rfl
        refine .pure ⟨rfl,fun d hd => ?_⟩
        obtain ⟨e₄,hn,rfl⟩ := Option.map_eq_some_iff.mp hd
        have h₃ := segmentTransport_lengths ht
        have h₄ := segmentNetwork_lengths hn
        have hi : e₂.ipLen = coal.desc.ipLen := by rw [(hem.trans hem₂ : SameMeta _ e₂)]
        have htl : e₂.transLen = coal.desc.transLen := by
          rw [(hem.trans hem₂ : SameMeta _ e₂)]
        refine (hdrLen_le _).trans ?_
        change e₄.ipLen+e₄.transLen ≤ e₄.len
        rw [h₄.ipLen,h₄.transLen,h₄.len,h₃.ipLen,h₃.transLen,h₃.len,hi,htl,hel₂,hel]
        change _ ≤ 0+_+_
        omega

/-- The state while a frame is cut up: its own descriptor is among the `kept` ones, and the
list has the segments, ready for delivery. -/
structure CutsFrom (id : ℕ) (kept : Finset ℕ) (s : Cutting) (held : Finset ℕ) : Prop where
  id : s.coalDesc.id = id
  wf : s.coalDesc.desc.Wf
  list : HandsBack kept (s.list.map Owned.id) held
  sends : ∀ o ∈ s.list, hdrLen o.desc ≤ o.desc.len

section Cut

variable {id : ℕ} {kept : Finset ℕ} (hk : id ∈ kept) {s : Cutting}

theorem CutsFrom.setSegs (h : CutsFrom id kept s held) (n : ℕ) :
    CutsFrom id kept (s.setSegs n) held :=
  ⟨h.id,⟨h.wf.fits,h.wf.len⟩,h.list,h.sends⟩

include hk

theorem segmentData_leaves (h : CutsFrom id kept s held) (pktId : ℕ) (csumValid : Bool) :
    Leaves DescPool.Sound held (segmentData alloc s pktId csumValid) (CutsFrom id kept) := by
  have hc : s.coalDesc.id ∈ held := h.id ▸ h.list.subset hk
  refine (use_leaves hc).bind ?_
  rintro _ _ rfl
  refine getFragDescriptor_leaves.bind ?_
  rintro r held' ⟨hsome,hnone⟩
  cases r with
  | none =>
    obtain ⟨rfl,-⟩ := hnone rfl
    exact .pure h
  | some new =>
    obtain ⟨hnew,rfl⟩ := hsome new rfl
    have hc' := Finset.mem_insert_of_mem (b := new) hc
    refine (newSegment_leaves hc' (Finset.mem_insert_self new _) h.wf csumValid).bind ?_
    rintro r _ ⟨rfl,hr⟩
    cases r with
    | none =>
      refine (recycle_pure_leaves (Finset.mem_insert_self new _) s).imp ?_
      rintro _ _ ⟨rfl,rfl⟩
      rw [Finset.erase_insert hnew]
      exact h
    | some d =>
      refine (use_leaves hc').bind ?_
      rintro _ _ rfl
      refine .pure ⟨h.id,⟨h.wf.fits,h.wf.len⟩,?_,?_⟩
      · simpa using h.list.snoc hnew
      · intro o ho
        rcases List.mem_append.mp ho with ho|ho
        · exact h.sends o ho
        · rw [List.mem_singleton.mp ho]
          exact hr d rfl

theorem flushSegs_leaves (h : CutsFrom id kept s held) :
    Leaves DescPool.Sound held (flushSegs alloc s) (CutsFrom id kept) := by
  rw [flushSegs]
  split_ifs
  · exact segmentData_leaves hk h _ _
  · exact .pure h

theorem takePacket_leaves (gro : Bool) (h : CutsFrom id kept s held) :
    Leaves DescPool.Sound held (takePacket alloc gro s) (CutsFrom id kept) := by
  dsimp only [takePacket]
  split_ifs
  · exact segmentData_leaves hk (h.setSegs 1) _ _
  · refine (flushSegs_leaves hk h).bind ?_
    intro s' held' h'
    exact segmentData_leaves hk (h'.setSegs 1) _ _
  · exact .pure (h.setSegs _)

theorem takePackets_leaves (gro : Bool) (n : ℕ) (h : CutsFrom id kept s held) :
    Leaves DescPool.Sound held (takePackets alloc gro n s) (CutsFrom id kept) := by
  induction n generalizing s held with
  | zero => exact .pure h
  | succ n ih =>
    refine (takePacket_leaves hk gro h).bind ?_
    intro s' held' h'
    exact ih ⟨h'.id,h'.wf,h'.list,h'.sends⟩

theorem takeNlo_leaves (gro : Bool) (h : CutsFrom id kept s held) (p : NlPair) :
    Leaves DescPool.Sound held (takeNlo alloc gro s p) (CutsFrom id kept) := by
  have hsize : CutsFrom id kept { s with coalDesc := ⟨s.coalDesc.id,
      { s.coalDesc.desc with gsoSize := gsoSizeOf s.coalDesc.desc p }⟩ } held :=
    ⟨h.id,⟨h.wf.fits,h.wf.len⟩,h.list,h.sends⟩
  refine (takePackets_leaves hk gro p.numPackets hsize).bind ?_
  intro s' held' h'
  exact flushSegs_leaves hk h'

theorem takeNlos_leaves (gro : Bool) (ps : List NlPair) (h : CutsFrom id kept s held) :
    Leaves DescPool.Sound held (ps.foldlM (takeNlo alloc gro) s) (CutsFrom id kept) :=
  leaves_foldlM (fun _ p _ _ h => takeNlo_leaves hk gro h p) h

end Cut

end Ingress
end Rmnet
end MarbleModules
