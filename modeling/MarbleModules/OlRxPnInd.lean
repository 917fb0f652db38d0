import MarbleModules.OlRxReorderLists

/-! The slots that failed the firmware's PN check. They are matched against the list of the
indication one by one, and an empty slot matches nothing: a listed slot that is empty keeps
all slots listed after it from being matched. -/
namespace MarbleModules
namespace OlRxReorder

open LinkedLists RingScan

variable {α : Type*}

/-- Some fuel is enough for every slot's list. -/
theorem exists_fuel (r : Reorder α) : ∃ fuel,∀ i < r.winSz,(r.content i).length ≤ fuel :=
  ⟨(Finset.range r.winSz).sup fun i => (r.content i).length,fun _ hi =>
    Finset.le_sup (f := fun i => (r.content i).length) (Finset.mem_range.mpr hi)⟩

/-- The slots that the loop matches with the list, in the order of its visits. -/
def matched (content : ℕ → List α) : List ℕ → List ℕ → List ℕ
  | _, [] => []
  | pnIe, j::js =>
    if content j ≠ [] ∧ pnIe.head? = some j then j::matched content pnIe.tail js
    else matched content pnIe js

section Matching

variable {content : ℕ → List α} {pnIe js : List ℕ} {j : ℕ}

theorem mem_of_mem_matched (h : j ∈ matched content pnIe js) : j ∈ js := by
  induction js generalizing pnIe with
  | nil => simp [matched] at h
  | cons k js ih =>
    rw [matched] at h
    split at h
    · rcases List.mem_cons.mp h with rfl | h
      · exact List.mem_cons_self
      · exact List.mem_cons_of_mem k (ih h)
    · exact List.mem_cons_of_mem k (ih h)

/-- A list whose first slot does not come up matches nothing. -/
theorem matched_eq_nil (hj : pnIe.head? = some j) (hnot : j ∉ js) :
    matched content pnIe js = [] := by
  induction js with
  | nil => rfl
  | cons k js ih =>
    have hjk : j ≠ k := fun hjk => hnot (by simp [hjk])
    have hno : ¬ (content k ≠ [] ∧ pnIe.head? = some k) := fun h =>
      hjk (Option.some.inj (hj.symm.trans h.2))
    rw [matched,if_neg hno]
    exact ih fun hmem => hnot (List.mem_cons_of_mem k hmem)

/-- The listed slots are matched up to the first that is empty. -/
theorem matched_eq (hsub : pnIe.Sublist js) (hnd : js.Nodup) :
    matched content pnIe js = pnIe.takeWhile fun j => content j ≠ [] := by
  induction js generalizing pnIe with
  | nil =>
    obtain rfl := List.sublist_nil.mp hsub
    rfl
  | cons j js ih =>
    obtain ⟨hnot,hnd⟩ := List.nodup_cons.mp hnd
    rcases List.sublist_cons_iff.mp hsub with hsub | ⟨rest,rfl,hrest⟩
    · have hno : ¬ (content j ≠ [] ∧ pnIe.head? = some j) := fun h =>
        hnot (hsub.subset (List.mem_of_head? h.2))
      rw [matched,if_neg hno,ih hsub hnd]
    · by_cases hc : content j = []
      · have hno : ¬ (content j ≠ [] ∧ (j::rest).head? = some j) := fun h => h.1 hc
        rw [matched,if_neg hno,matched_eq_nil (List.head?_cons) hnot]
        simp [hc]
      · rw [matched,if_pos ⟨hc,List.head?_cons⟩,List.tail_cons,ih hrest hnd]
        simp [hc]

/-- No listed slot that is empty comes before one that is not. -/
def NoGap (content : ℕ → List α) (pnIe : List ℕ) : Prop :=
  pnIe.Pairwise fun i j => content i = [] → content j = []

theorem flatMap_takeWhile_iff :
    (pnIe.takeWhile fun j => content j ≠ []).flatMap content = pnIe.flatMap content ↔
      NoGap content pnIe := by
  induction pnIe with
  | nil => simp [NoGap]
  | cons j pnIe ih =>
    rw [NoGap,List.pairwise_cons]
    by_cases hc : content j = []
    · have hall : (∀ i ∈ pnIe,content i = []) → NoGap content pnIe := fun hall =>
        List.pairwise_of_forall_mem_list fun i _ k hk _ => hall k hk
      simp only [hc,ne_eq,not_true_eq_false,decide_false,Bool.false_eq_true,not_false_eq_true,
        List.takeWhile_cons_of_neg,List.flatMap_nil,List.flatMap_cons,List.nil_append,
        forall_const]
      rw [eq_comm,List.flatMap_eq_nil_iff]
      exact ⟨fun h => ⟨h,hall h⟩,fun h => h.1⟩
    · simp only [ne_eq,hc,not_false_eq_true,decide_true,List.takeWhile_cons_of_pos,
        List.flatMap_cons,List.append_cancel_left_eq,false_implies,implies_true,true_and]
      exact ih

/-- Without such a gap the listed slots that are not matched are empty. -/
theorem NoGap.eq_nil (h : NoGap content pnIe) {i : ℕ} (hi : i ∈ pnIe)
    (hnot : i ∉ pnIe.takeWhile fun j => content j ≠ []) : content i = [] := by
  induction pnIe with
  | nil => simp at hi
  | cons j pnIe ih =>
    obtain ⟨hhead,hrest⟩ := List.pairwise_cons.mp h
    by_cases hc : content j = []
    · rcases List.mem_cons.mp hi with rfl | hi
      · exact hc
      · exact hhead i hi hc
    · rw [List.takeWhile_cons_of_pos (by simpa using hc),List.mem_cons,not_or] at hnot
      exact ih hrest ((List.mem_cons.mp hi).resolve_left hnot.1) hnot.2

/-- Leaving such slots out of a range's lists changes nothing. -/
theorem NoGap.flatMap_filter (h : NoGap content pnIe) (is : List ℕ) :
    (is.filter fun i => i ∉ pnIe.takeWhile fun j => content j ≠ []).flatMap content =
      (is.filter fun i => i ∉ pnIe).flatMap content := by
  induction is with
  | nil => rfl
  | cons i is ih =>
    by_cases hi : i ∈ pnIe
    · by_cases hm : i ∈ pnIe.takeWhile fun j => content j ≠ []
      · rw [List.filter_cons_of_neg (by simpa using hm),List.filter_cons_of_neg (by simpa),ih]
      · rw [List.filter_cons_of_pos (by simpa using hm),List.filter_cons_of_neg (by simpa),
          List.flatMap_cons,h.eq_nil hi hm,List.nil_append,ih]
    · have hm : i ∉ pnIe.takeWhile fun j => content j ≠ [] := fun hm =>
        hi ((List.takeWhile_sublist _).subset hm)
      rw [List.filter_cons_of_pos (by simpa using hm),List.filter_cons_of_pos (by simpa),
        List.flatMap_cons,List.flatMap_cons,ih]

end Matching

section Loop

variable [DecidableEq α] {n : ℕ} {next : α → Option α} {array : ℕ → Ends α}
  {content : ℕ → List α} {g : PnGather α} {l f : List α} {is js : List ℕ} {i fuel : ℕ}

theorem pnSlot_matched (hg : Gathered n array content g.toGather l is)
    (h : Slots n next array content) (hfreed : g.freed = some f) (hi : i < n) (hnot : i ∉ is)
    (hf : (content i).length ≤ fuel) (hm : content i ≠ [] ∧ g.pnIe.head? = some i) :
    Gathered n array content (pnSlot fuel g i).toGather l (is++[i]) ∧
      (pnSlot fuel g i).pnIe = g.pnIe.tail ∧
      (pnSlot fuel g i).freed = some (f++content i) := by
  have hhead := (hg.head_isSome h hi hnot).mpr hm.1
  have helem : Holds g.next (g.array i) (content i) := by
    rw [hg.kept i hi hnot]
    exact hg.holds i hi hnot
  have hwalk := helem.walkTo_eq (h.nodup i hi) hm.1 hf
  have hslot : pnSlot fuel g i =
      { g with
        array := Function.update g.array i Ends.empty
        pnIe := g.pnIe.tail
        freed := some (f++content i) } := by
    simp only [pnSlot,hhead,if_true,hm.2,hfreed,hwalk]
    rfl
  rw [hslot]
  exact ⟨hg.drop i,rfl,rfl⟩

theorem pnSlot_unmatched (fuel : ℕ) (hg : Gathered n array content g.toGather l is)
    (h : Slots n next array content) (hi : i < n) (hnot : i ∉ is)
    (hm : ¬ (content i ≠ [] ∧ g.pnIe.head? = some i)) :
    Gathered n array content (pnSlot fuel g i).toGather (l++content i) (is++[i]) ∧
      (pnSlot fuel g i).pnIe = g.pnIe ∧ (pnSlot fuel g i).freed = g.freed := by
  have hhead := hg.head_isSome h hi hnot
  by_cases hc : content i = []
  · have hno : ¬ (g.array i).head.isSome := fun hs => hhead.mp hs hc
    have hslot : pnSlot fuel g i = g := by simp [pnSlot,hno]
    rw [hslot,hc,List.append_nil]
    exact ⟨hg.pass h hi hnot hc,rfl,rfl⟩
  · have hslot : pnSlot fuel g i =
        { g with
          next := (append g.next g.msdus (g.array i)).1
          array := Function.update g.array i Ends.empty
          msdus := (append g.next g.msdus (g.array i)).2 } := by
      have hne : g.pnIe.head? ≠ some i := fun he => hm ⟨hc,he⟩
      simp only [pnSlot,hhead.mpr hc,if_true,hne,if_false]
    rw [hslot]
    exact ⟨hg.take h hi hnot hc,rfl,rfl⟩

/-- The loop frees the lists of the slots it matches and gathers those of the others. -/
theorem foldl_pnSlot (hg : Gathered n array content g.toGather l is)
    (h : Slots n next array content) (hfreed : g.freed = some f) (hlt : ∀ j ∈ js,j < n)
    (hnd : (is++js).Nodup) (hf : ∀ j < n,(content j).length ≤ fuel) :
    Gathered n array content (js.foldl (pnSlot fuel) g).toGather
        (l++(js.filter fun j => j ∉ matched content g.pnIe js).flatMap content) (is++js) ∧
      (js.foldl (pnSlot fuel) g).freed =
        some (f++(matched content g.pnIe js).flatMap content) := by
  induction js generalizing g l f is with
  | nil => simpa [matched] using ⟨hg,hfreed⟩
  | cons j js ih =>
    have hsplit : is++j::js = (is++[j])++js := by simp
    have hnot : j ∉ is := fun hmem =>
      (List.nodup_append.mp hnd).2.2 j hmem j List.mem_cons_self rfl
    have hjs : j ∉ js := (List.nodup_cons.mp (List.nodup_append.mp hnd).2.1).1
    have hj := hlt j List.mem_cons_self
    have hlt' := fun k hk => hlt k (List.mem_cons_of_mem j hk)
    rw [hsplit] at hnd ⊢
    by_cases hm : content j ≠ [] ∧ g.pnIe.head? = some j
    · obtain ⟨hstep,hpn,hfr⟩ := pnSlot_matched hg h hfreed hj hnot (hf j hj) hm
      obtain ⟨hgath,hfree⟩ := ih hstep hfr hlt' hnd
      rw [hpn] at hgath hfree
      have hkeep : (j::js).filter (fun k => k ∉ matched content g.pnIe (j::js)) =
          js.filter fun k => k ∉ matched content g.pnIe.tail js := by
        rw [matched,if_pos hm,List.filter_cons_of_neg (by simp)]
        refine List.filter_congr fun k hk => ?_
        have hkj : k ≠ j := fun hkj => hjs (hkj ▸ hk)
        simp [hkj]
      rw [List.foldl_cons,hkeep,matched,if_pos hm,List.flatMap_cons,← List.append_assoc]
      exact ⟨hgath,hfree⟩
    · obtain ⟨hstep,hpn,hfr⟩ := pnSlot_unmatched fuel hg h hj hnot hm
      obtain ⟨hgath,hfree⟩ := ih hstep (hfr.trans hfreed) hlt' hnd
      rw [hpn] at hgath hfree
      have hjm : j ∉ matched content g.pnIe js := fun hmem => hjs (mem_of_mem_matched hmem)
      rw [List.foldl_cons,matched,if_neg hm,List.filter_cons_of_pos (by simpa using hjm),
        List.flatMap_cons,← List.append_assoc]
      exact ⟨hgath,hfree⟩

end Loop

section Range

variable [DecidableEq α] (r : Reorder α) (seqNumStart seqNumEnd : ℕ) (pnIe : List ℕ)

/-- A call has freed the lists of the listed slots and delivered those of the others of the
slots `is`, has emptied all of these and left the other slots. -/
structure Screens (r : Reorder α) (is pnIe : List ℕ) (o : Outcome α) : Prop where
  freed : o.freed = pnIe.flatMap r.content
  delivers : o.Delivers ((is.filter fun i => i ∉ pnIe).flatMap r.content)
  emptied : ∀ i ∈ is,o.peer.array i = Ends.empty
  kept : ∀ i < r.winSz,i ∉ is → o.peer.array i = r.array i
  holds : ∀ i < r.winSz,i ∉ is → Holds o.peer.next (o.peer.array i) (r.content i)

/-- What the loop of the handler has gathered in the end. -/
def Reorder.screened (fuel : ℕ) : PnGather α :=
  (r.range seqNumStart seqNumEnd).foldl (pnSlot fuel)
    ⟨⟨r.next,r.array,Ends.empty⟩,pnIe,some []⟩

theorem pnIndHandler_eq {fuel : ℕ} {freed : List α}
    (hfreed : (r.screened seqNumStart seqNumEnd pnIe fuel).freed = some freed) :
    pnIndHandler fuel r.toPeer seqNumStart seqNumEnd pnIe =
      let g := r.screened seqNumStart seqNumEnd pnIe fuel
      some ⟨{ r.toPeer with fwPnCheck := true,array := g.array,next := g.ended },
        g.msdus.head,freed⟩ := by
  have hscan := scan_arc (pnSlot fuel) (r.wrap_lt seqNumStart) (r.wrap_lt seqNumEnd)
    ⟨⟨r.next,r.array,Ends.empty⟩,pnIe,some []⟩
  rw [← r.wrap_eq] at hscan
  have hdef : pnIndHandler fuel r.toPeer seqNumStart seqNumEnd pnIe =
      (RingScan.scan r.winSz (pnSlot fuel) (r.wrap seqNumEnd) r.winSz
        (r.wrap (r.wrap seqNumStart+1)) (pnSlot fuel
          ⟨⟨r.next,r.array,Ends.empty⟩,pnIe,some []⟩ (r.wrap seqNumStart))).bind fun g =>
        g.freed.bind fun freed =>
          some ⟨{ r.toPeer with fwPnCheck := true,array := g.array,next := g.ended },
            g.msdus.head,freed⟩ := rfl
  rw [hdef,hscan,Option.bind_some]
  exact congrArg (fun o => Option.bind o _) hfreed

/-- The handler screens the listed slots up to the first that is empty. -/
theorem pnIndHandler_screens (hsub : pnIe.Sublist (r.range seqNumStart seqNumEnd)) {fuel : ℕ}
    (hf : ∀ i < r.winSz,(r.content i).length ≤ fuel) :
    ∃ o,pnIndHandler fuel r.toPeer seqNumStart seqNumEnd pnIe = some o ∧
      Screens r (r.range seqNumStart seqNumEnd)
        (pnIe.takeWhile fun j => r.content j ≠ []) o := by
  have hnd := r.nodup_range seqNumStart seqNumEnd
  have hfold := foldl_pnSlot (g := ⟨⟨r.next,r.array,Ends.empty⟩,pnIe,some []⟩) r.slots.gathered
    r.slots rfl (fun _ hj => r.lt_of_mem_range hj) hnd hf
  simp only [matched_eq hsub hnd,List.nil_append] at hfold
  obtain ⟨hgath,hfreed⟩ := hfold
  obtain ⟨hspans,hholds⟩ := hgath.ended
  refine ⟨_,pnIndHandler_eq r seqNumStart seqNumEnd pnIe hfreed,rfl,hspans,hgath.emptied,
    hgath.kept,fun i hi hnot => ?_⟩
  have hh := hholds i hi hnot
  rwa [← hgath.kept i hi hnot] at hh

/-- The frames of the listed slots are freed and those of all others of the range are
delivered, once there is fuel for the longest list. -/
def PnExact (r : Reorder α) (seqNumStart seqNumEnd : ℕ) (pnIe : List ℕ) : Prop :=
  ∀ fuel,(∀ i < r.winSz,(r.content i).length ≤ fuel) →
    ∃ o,pnIndHandler fuel r.toPeer seqNumStart seqNumEnd pnIe = some o ∧
      Screens r (r.range seqNumStart seqNumEnd) pnIe o

theorem noGap_of_pnExact (hsub : pnIe.Sublist (r.range seqNumStart seqNumEnd))
    (h : PnExact r seqNumStart seqNumEnd pnIe) : NoGap r.content pnIe := by
  obtain ⟨fuel,hf⟩ := exists_fuel r
  obtain ⟨o,ho,hs⟩ := h fuel hf
  obtain ⟨o',ho',hs'⟩ := pnIndHandler_screens r seqNumStart seqNumEnd pnIe hsub hf
  obtain rfl := Option.some.inj (ho.symm.trans ho')
  exact flatMap_takeWhile_iff.mp (hs'.freed.symm.trans hs.freed)

/-- The frames of listed slots are never delivered, and all others are, exactly when no listed
slot that is empty comes before one that is not. -/
theorem pnExact_iff (hsub : pnIe.Sublist (r.range seqNumStart seqNumEnd)) :
    PnExact r seqNumStart seqNumEnd pnIe ↔ NoGap r.content pnIe := by
  refine ⟨noGap_of_pnExact r seqNumStart seqNumEnd pnIe hsub,fun hgap fuel hf => ?_⟩
  obtain ⟨o,ho,hs⟩ := pnIndHandler_screens r seqNumStart seqNumEnd pnIe hsub hf
  refine ⟨o,ho,hs.freed.trans (flatMap_takeWhile_iff.mpr hgap),?_,hs.emptied,hs.kept,hs.holds⟩
  have hd := hs.delivers
  rwa [hgap.flatMap_filter] at hd

/-- A window of four slots whose second and fourth slots hold a buffer each. -/
def heldOdd : Reorder ℕ :=
  ((Reorder.addba (fun _ => none) ⟨0,fun _ => Ends.empty,0,0,false,fun _ => none⟩ 2).store 1
    (h := 0) (t := 0) [0] ⟨rfl,rfl,none,rfl,rfl⟩ (by simp)
      (fun _ _ => by simp [Reorder.addba])).store 3
    (h := 1) (t := 1) [1] ⟨rfl,rfl,none,rfl,rfl⟩ (by simp) (fun j _ => by
      simp only [Reorder.store,Reorder.addba,Function.update_apply]
      split <;> simp)

theorem pnExact_heldOdd : List.Sublist [1,2] (heldOdd.range 0 0) ∧
    (PnExact heldOdd 0 0 [1,2] ↔ NoGap heldOdd.content [1,2]) :=
  ⟨by decide,pnExact_iff heldOdd 0 0 [1,2] (by decide)⟩

/-- Behind an empty listed slot, a frame that failed the check is delivered. -/
theorem pnIndHandler_heldOdd : ¬ ∀ (r : Reorder ℕ) (seqNumStart seqNumEnd : ℕ) (pnIe : List ℕ),
    pnIe.Sublist (r.range seqNumStart seqNumEnd) → PnExact r seqNumStart seqNumEnd pnIe := by
  intro h
  have hsub : List.Sublist [2,3] (heldOdd.range 0 0) := by decide
  have hgap := noGap_of_pnExact heldOdd 0 0 [2,3] hsub (h heldOdd 0 0 [2,3] hsub)
  have hlate := (List.pairwise_cons.mp hgap).1 3 (by simp) (by decide)
  exact absurd hlate (by decide)

end Range

end OlRxReorder
end MarbleModules
