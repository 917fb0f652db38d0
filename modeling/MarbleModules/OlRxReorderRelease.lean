import MarbleModules.OlRxReorderLists

/-! A release of a range delivers what a flush of it would, except when the first slot of the
range is empty and a later one is not: then the head stays unset and the lists are lost. -/
namespace MarbleModules
namespace OlRxReorder

open LinkedLists RingScan

variable {α : Type*}

theorem range_eq_cons (r : Reorder α) (idxStart idxEnd : ℕ) :
    r.range idxStart idxEnd = r.wrap idxStart::(r.range idxStart idxEnd).tail := by
  obtain ⟨k,-,harc,-⟩ := arc_eq_cons (r.wrap_lt idxStart) (r.wrap_lt idxEnd)
  rw [Peer.range,harc,List.tail_cons]

/-- When the slots outside the range hold nothing, a whole turn meets the same lists. -/
theorem flatMap_range_self (r : Reorder α) (idxStart idxEnd : ℕ)
    (hout : ∀ i < r.winSz,i ∉ r.range idxStart idxEnd → r.content i = []) :
    (r.range idxStart idxStart).flatMap r.content =
      (r.range idxStart idxEnd).flatMap r.content := by
  obtain ⟨rest,hrest⟩ := arc_self_eq (r.wrap_lt idxStart) (r.wrap idxEnd)
  have hnd := r.nodup_range idxStart idxStart
  have hlt : ∀ i ∈ r.range idxStart idxStart,i < r.winSz := fun _ hi => r.lt_of_mem_range hi
  simp only [Peer.range] at hnd hlt hout ⊢
  rw [hrest] at hnd hlt ⊢
  have hnil : rest.flatMap r.content = [] := List.flatMap_eq_nil_iff.mpr fun i hi =>
    hout i (hlt i (List.mem_append_right _ hi)) fun hmem =>
      (List.nodup_append.mp hnd).2.2 i hmem i hi rfl
  rw [List.flatMap_append,hnil,List.append_nil]

/-- Slots that hold nothing may be added to a release. -/
theorem Releases.of_empty {r : Reorder α} {s e e' : ℕ} {o o' : Outcome α}
    (h : Releases r (r.range s e) o) (h' : Releases r (r.range s e') o')
    (hsub : ∀ i ∈ r.range s e,i ∈ r.range s e')
    (hout : ∀ i < r.winSz,i ∉ r.range s e → r.content i = [])
    (hlist : (r.range s e').flatMap r.content = (r.range s e).flatMap r.content) :
    (∃ l,o.Delivers l ∧ o'.Delivers l) ∧ ∀ i < r.winSz,o'.peer.array i = o.peer.array i := by
  refine ⟨⟨_,h.delivers,hlist ▸ h'.delivers⟩,fun i hi => ?_⟩
  by_cases hmem : i ∈ r.range s e
  · rw [h.emptied i hmem,h'.emptied i (hsub i hmem)]
  · have hnil := r.slots.empty_of_nil hi (hout i hi hmem)
    rw [h.kept i hi hmem]
    by_cases hmem' : i ∈ r.range s e'
    · rw [h'.emptied i hmem',hnil]
    · rw [h'.kept i hi hmem']

variable [DecidableEq α] (r : Reorder α) (seqNum : α → ℕ) (idxStart idxEnd : ℕ)

/-- What the loop of a release has gathered in the end. -/
def Reorder.released : Gather α :=
  (r.range idxStart idxEnd).tail.foldl releaseSlot
    (flushSlot ⟨r.next,r.array,Ends.empty⟩ (r.wrap idxStart))

/-- The first slot of a release is taken as a flush takes it. -/
theorem release_first :
    (⟨r.next,Function.update r.array (r.wrap idxStart) Ends.empty,
      r.array (r.wrap idxStart)⟩ : Gather α) =
        flushSlot ⟨r.next,r.array,Ends.empty⟩ (r.wrap idxStart) := by
  have hlt := r.wrap_lt idxStart
  have hhead := r.slots.head_isSome hlt
  by_cases hc : r.content (r.wrap idxStart) = []
  · have harr := r.slots.empty_of_nil hlt hc
    have hupd : Function.update r.array (r.wrap idxStart) Ends.empty = r.array := by
      rw [← harr,Function.update_eq_self]
    simp only [flushSlot,hupd,harr]
    rfl
  · simp only [flushSlot,hhead.mpr hc]
    rfl

theorem release_eq :
    release seqNum r.toPeer idxStart idxEnd =
      some ⟨finish seqNum { r.toPeer with nextRelIdx := idxEnd%2^16 }
        (r.released idxStart idxEnd),(r.released idxStart idxEnd).msdus.head,[]⟩ := by
  have hscan := scan_arc_tail releaseSlot (r.wrap_lt idxStart) (r.wrap_lt idxEnd)
    (flushSlot ⟨r.next,r.array,Ends.empty⟩ (r.wrap idxStart))
  rw [← r.wrap_eq,← release_first] at hscan
  have hrel : release seqNum r.toPeer idxStart idxEnd =
      (RingScan.scan r.winSz releaseSlot (r.wrap idxEnd) r.winSz (r.wrap (r.wrap idxStart+1))
        ⟨r.next,Function.update r.array (r.wrap idxStart) Ends.empty,
          r.array (r.wrap idxStart)⟩).map fun g =>
        ⟨finish seqNum { r.toPeer with nextRelIdx := idxEnd%2^16 } g,g.msdus.head,[]⟩ := rfl
  rw [hrel,hscan,release_first]
  rfl

/-- The first slot of the range holds a list, or no slot does. -/
def FirstHeld : Prop :=
  r.content (r.wrap idxStart) ≠ [] ∨ ∀ i ∈ r.range idxStart idxEnd,r.content i = []

/-- The end is an index, not the sign for the entire array, or the slots outside the range
hold nothing. -/
def EndsRange : Prop :=
  idxEnd ≠ 0xffff ∨ ∀ i < r.winSz,i ∉ r.range idxStart idxEnd → r.content i = []

theorem released_eq (hf : FirstHeld r idxStart idxEnd) :
    r.released idxStart idxEnd = r.gathered idxStart idxEnd := by
  have hcons := range_eq_cons r idxStart idxEnd
  have hnd := r.nodup_range idxStart idxEnd
  rw [hcons] at hnd
  have hfirst := r.slots.gathered.flushSlot r.slots (r.wrap_lt idxStart) List.not_mem_nil
  have hfold := hfirst.foldl_releaseSlot r.slots
    (fun j hj => r.lt_of_mem_range (List.mem_of_mem_tail hj)) hnd
    (hf.imp_right fun hall j hj => hall j (List.mem_of_mem_tail hj))
  rw [Reorder.released,hfold,Reorder.gathered,hcons]
  rfl

/-- When the first slot is empty nothing is delivered. -/
theorem released_head (hc : r.content (r.wrap idxStart) = []) :
    (r.released idxStart idxEnd).msdus.head = none := by
  have hlt := r.wrap_lt idxStart
  rw [Reorder.released,foldl_releaseSlot_head,← release_first,r.slots.empty_of_nil hlt hc]
  rfl

/-- A release of the range delivers exactly its lists and empties exactly its slots, as a
flush of it does. -/
def ReleaseExact : Prop :=
  ∃ o,release seqNum r.toPeer idxStart idxEnd = some o ∧
    Releases r (r.range idxStart idxEnd) o ∧
    ∀ fuel,∃ o',flush fuel seqNum r.toPeer idxStart idxEnd .release = some o' ∧
      (∃ l,o.Delivers l ∧ o'.Delivers l) ∧ ∀ i < r.winSz,o'.peer.array i = o.peer.array i

theorem firstHeld_of_releases {o : Outcome α}
    (ho : release seqNum r.toPeer idxStart idxEnd = some o)
    (hrel : Releases r (r.range idxStart idxEnd) o) : FirstHeld r idxStart idxEnd := by
  rw [release_eq] at ho
  obtain rfl := Option.some.inj ho
  refine or_iff_not_imp_left.mpr fun hc => ?_
  have hd := hrel.delivers
  simp only [Outcome.Delivers,released_head r idxStart idxEnd (not_not.mp hc)] at hd
  have hnil := hd.unique (show Spans _ none [] none from rfl)
  exact fun i hi => List.flatMap_eq_nil_iff.mp hnil i hi

/-- A flush of the entire array empties what a release of the range leaves. -/
theorem endsRange_of_releases {o o' : Outcome α} (hrel : Releases r (r.range idxStart idxEnd) o)
    (ho' : flush 0 seqNum r.toPeer idxStart idxEnd .release = some o')
    (harr : ∀ i < r.winSz,o'.peer.array i = o.peer.array i) : EndsRange r idxStart idxEnd := by
  refine or_iff_not_imp_left.mpr fun he i hi hnot => not_not.mp fun hc => ?_
  obtain ⟨o'',ho'',hrel'⟩ := flush_releases r seqNum idxStart idxEnd 0
  obtain rfl := Option.some.inj (ho'.symm.trans ho'')
  rw [if_pos (not_not.mp he)] at hrel'
  have hmem : i ∈ r.range idxStart idxStart := mem_arc_self (r.wrap_lt idxStart) hi
  have hh := harr i hi
  rw [hrel'.emptied i hmem,hrel.kept i hi hnot] at hh
  have hsome := (r.slots.head_isSome hi).mpr hc
  rw [← hh] at hsome
  simp [Ends.empty] at hsome

theorem releaseExact_iff :
    ReleaseExact r seqNum idxStart idxEnd ↔
      FirstHeld r idxStart idxEnd ∧ EndsRange r idxStart idxEnd := by
  constructor
  · rintro ⟨o,ho,hrel,hflush⟩
    obtain ⟨o',ho',-,harr⟩ := hflush 0
    exact ⟨firstHeld_of_releases r seqNum idxStart idxEnd ho hrel,
      endsRange_of_releases r seqNum idxStart idxEnd hrel ho' harr⟩
  · rintro ⟨hf,he⟩
    have hrel := (gathered_range r idxStart idxEnd).releases seqNum
      (p := { r.toPeer with nextRelIdx := idxEnd%2^16 })
    have ho := release_eq r seqNum idxStart idxEnd
    rw [released_eq r idxStart idxEnd hf] at ho
    refine ⟨_,ho,hrel,fun fuel => ?_⟩
    obtain ⟨o',ho',hrel'⟩ := flush_releases r seqNum idxStart idxEnd fuel
    refine ⟨o',ho',?_⟩
    by_cases hend : idxEnd = 0xffff
    · have hout := he.resolve_left (not_not.mpr hend)
      rw [if_pos hend] at hrel'
      have hlist := flatMap_range_self r idxStart idxEnd hout
      refine hrel.of_empty hrel' (fun i hi => ?_) hout hlist
      exact mem_arc_self (r.wrap_lt idxStart) (r.lt_of_mem_range hi)
    · rw [if_neg hend] at hrel'
      refine ⟨⟨_,hrel.delivers,hrel'.delivers⟩,fun i hi => ?_⟩
      by_cases hmem : i ∈ r.range idxStart idxEnd
      · rw [hrel.emptied i hmem,hrel'.emptied i hmem]
      · rw [hrel.kept i hi hmem,hrel'.kept i hi hmem]

theorem holeFirst_nodup : [0].Nodup := List.nodup_singleton 0

/-- A window of two slots with one buffer, in the second. -/
def holeFirst : Reorder ℕ :=
  (Reorder.addba (fun _ => none) ⟨0,fun _ => Ends.empty,0,0,false,fun _ => none⟩ 1).store 1
    (h := 0) (t := 0) [0] ⟨rfl,rfl,none,rfl,rfl⟩ holeFirst_nodup
    (fun _ _ => by simp [Reorder.addba])

/-- The buffer behind an empty first slot is lost. -/
theorem release_holeFirst : ¬ ∀ (r : Reorder ℕ) (seqNum : ℕ → ℕ) (idxStart idxEnd : ℕ),
    ReleaseExact r seqNum idxStart idxEnd := by
  intro h
  obtain ⟨o,ho,hrel,-⟩ := h holeFirst id 0 0
  rcases firstHeld_of_releases holeFirst id 0 0 ho hrel with hc | hall
  · exact hc (by decide)
  · exact absurd (hall 1 (by decide)) (by decide)

end OlRxReorder
end MarbleModules
