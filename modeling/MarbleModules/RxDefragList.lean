import MarbleModules.KeyInsert
import MarbleModules.RxDefrag

/-! The list of waiting fragments: an insertion puts a fragment at the place of its number, and the
check finds the lists with every number from 0 on. -/
namespace MarbleModules
namespace RxDefrag
open KeyInsert

/-- All fragments of an MSDU, in order. -/
def Complete (l : List Frag) : Prop :=
  2 ≤ l.length ∧ l.map Frag.number = List.range l.length ∧
    ∀ t,l.getLast? = some t → t.moreFrag = false

/-- What the list of waiting fragments is at any time. -/
structure Waiting (s : Tid) : Prop where
  sorted : Increasing Frag.number s.list
  seq : ∀ f ∈ s.list,f.seq = s.currSeqNum
  tail : s.tail = s.list.getLast?
  curr : ∀ t,s.tail = some t → s.currFragNum = t.number

section Insertion
variable {s : Tid} {f : Frag}

theorem insertMiddle_eq {l : List Frag} (hnew : ∀ g ∈ l,g.number ≠ f.number) :
    insertMiddle f l = some (insertByKey Frag.number f l) := by
  induction l with
  | nil => rfl
  | cons c cs ih =>
    have hc := hnew c List.mem_cons_self
    have htail := ih fun g hg => hnew g (List.mem_cons_of_mem _ hg)
    rw [insertMiddle,insertByKey,List.orderedInsert_cons]
    by_cases hlt : c.number < f.number
    · rw [if_pos hlt,if_neg (not_le.mpr hlt),htail]
      rfl
    · rw [if_neg hlt,if_neg hc.symm,if_pos (not_lt.mp hlt)]

theorem insertMiddle_none {l : List Frag} (hs : Increasing Frag.number l)
    (hold : ∃ g ∈ l,g.number = f.number) : insertMiddle f l = none := by
  induction l with
  | nil =>
    obtain ⟨g,hg,_⟩ := hold
    cases hg
  | cons c cs ih =>
    obtain ⟨hc,hcs⟩ := List.pairwise_cons.mp hs
    obtain ⟨g,hg,hnum⟩ := hold
    rw [insertMiddle]
    split_ifs with hlt heq
    · rcases List.mem_cons.mp hg with rfl | hg
      · omega
      · rw [ih hcs ⟨g,hg,hnum⟩]
        rfl
    · rfl
    · rcases List.mem_cons.mp hg with rfl | hg
      · exact absurd hnum.symm heq
      · have hh := hc g hg
        omega

/-- When the tail is the last element and no buffer is in the list twice, nothing is cut off. -/
theorem appendTail_eq {l : List Frag} {t : Frag} (hl : l.getLast? = some t)
    (hnodup : (bufs l).Nodup) : appendTail l (some t) f = l++[f] := by
  obtain ⟨l',rfl⟩ := List.getLast?_eq_some_iff.mp hl
  have hne : ∀ g ∈ l',decide (g.buf ≠ t.buf) = true := by
    intro g hg
    rw [bufs,List.map_append] at hnodup
    have hdisj := (List.nodup_append.mp hnodup).2.2 g.buf (List.mem_map_of_mem hg) t.buf (by simp)
    exact decide_eq_true hdisj
  have htake : (l'++[t]).takeWhile (fun g => decide (g.buf ≠ t.buf)) = l' := by
    rw [List.takeWhile_append_of_pos hne]
    simp
  show (l'++[t]).takeWhile (fun g => decide (g.buf ≠ t.buf))++[t,f] = l'++[t]++[f]
  rw [htake]
  simp

/-- A fragment whose number is in the list is not inserted. -/
theorem insertList_none (h : Waiting s) (hold : ∃ g ∈ s.list,g.number = f.number) :
    insertList s f = none := by
  obtain ⟨g,hg,hnum⟩ := hold
  unfold insertList
  cases hl : s.list with
  | nil =>
    rw [hl] at hg
    cases hg
  | cons c cs =>
    obtain ⟨t,ht⟩ : ∃ t,s.list.getLast? = some t := by
      rw [hl]
      exact ⟨_,List.getLast?_eq_some_getLast (List.cons_ne_nil c cs)⟩
    have hle := h.sorted.le_getLast? ht hg
    have hcurr := h.curr t (h.tail.trans ht)
    have hmid := insertMiddle_none h.sorted ⟨g,hg,hnum⟩
    have hsorted := h.sorted
    rw [hl] at hmid hsorted hg
    simp only
    rw [if_neg (by omega)]
    by_cases heq : f.number = c.number
    · rw [if_pos heq]
    · rw [if_neg heq,if_neg,hmid]
      · rfl
      · intro hlt
        rcases List.mem_cons.mp hg with rfl | hg
        · exact heq hnum.symm
        · have hh := (List.pairwise_cons.mp hsorted).1 g hg
          omega

/-- A new number goes to its place, and tail and `curr_frag_num` follow. -/
theorem insertList_some (h : Waiting s) (hnodup : (bufs s.list).Nodup)
    (hnew : ∀ g ∈ s.list,g.number ≠ f.number) :
    ∃ n,insertList s f = some {s with
        list := insertByKey Frag.number f s.list
        tail := (insertByKey Frag.number f s.list).getLast?
        currFragNum := n} ∧
      ∀ t,(insertByKey Frag.number f s.list).getLast? = some t → n = t.number := by
  have hmid := insertMiddle_eq hnew
  unfold insertList
  cases hl : s.list with
  | nil =>
    refine ⟨f.number,rfl,fun t ht => ?_⟩
    obtain rfl : f = t := by simpa [insertByKey] using ht
    rfl
  | cons c cs =>
    rw [hl] at hmid
    obtain ⟨t,ht⟩ : ∃ t,s.list.getLast? = some t := by
      rw [hl]
      exact ⟨_,List.getLast?_eq_some_getLast (List.cons_ne_nil c cs)⟩
    have htail := h.tail.trans ht
    have hcurr := h.curr t htail
    have hle := fun g hg => h.sorted.le_getLast? (a := g) ht hg
    rw [hl] at ht hle
    simp only
    by_cases hgt : s.currFragNum < f.number
    · have happ : insertByKey Frag.number f (c::cs) = (c::cs)++[f] :=
        insertByKey_eq_append fun g hg => by
          have hh := hle g hg
          omega
      have hlast : ((c::cs)++[f]).getLast? = some f := List.getLast?_append_cons _ f []
      refine ⟨f.number,?_,fun u hu => ?_⟩
      · rw [hl] at hnodup
        rw [if_pos hgt,htail,appendTail_eq ht hnodup,happ,hlast]
      · rw [happ,hlast] at hu
        cases hu
        rfl
    · have hne : t.number ≠ f.number := hnew t (by
        rw [hl]
        exact List.mem_of_getLast? ht)
      have hlast : (insertByKey Frag.number f (c::cs)).getLast? = some t :=
        getLast?_insertByKey ht (by omega)
      refine ⟨s.currFragNum,?_,fun u hu => ?_⟩
      · have hc : f.number ≠ c.number := fun hh => hnew c (by simp [hl]) hh.symm
        rw [if_neg hgt,if_neg hc,hlast,← htail]
        by_cases hlt : f.number < c.number
        · rw [if_pos hlt,insertByKey_eq_cons hlt]
        · rw [if_neg hlt,hmid]
          rfl
      · rw [hlast] at hu
        cases hu
        exact hcurr

end Insertion

section Complete

theorem numbersFrom_iff (count : ℕ) (l : List Frag) :
    numbersFrom count l = true ↔ l.map Frag.number = List.range' (count+1) l.length := by
  induction l generalizing count with
  | nil => simp [numbersFrom]
  | cons f l ih =>
    rw [numbersFrom,Bool.and_eq_true,ih,List.map_cons,List.length_cons,List.range'_succ,
      List.cons.injEq,decide_eq_true_eq]

/-- The check of a list with a second element is whether it is complete. -/
theorem allFragPresent_iff {s : Tid} (h : Waiting s) (hlen : 2 ≤ s.list.length) :
    allFragPresent s = true ↔ Complete s.list := by
  unfold allFragPresent Complete
  obtain ⟨t,ht⟩ : ∃ t,s.list.getLast? = some t := by
    cases hl : s.list with
    | nil => simp [hl] at hlen
    | cons c cs => exact ⟨_,List.getLast?_eq_some_getLast (List.cons_ne_nil c cs)⟩
  rw [h.tail,ht]
  simp only [Bool.and_eq_true,Bool.not_eq_true',Option.some.injEq,forall_eq',numbersFrom_iff]
  have hsorted := h.sorted
  match hl : s.list with
  | [] => simp [hl] at hlen
  | [_] => simp [hl] at hlen
  | a::b::l =>
    rw [hl] at hsorted
    have hab : a.number < b.number := (List.pairwise_cons.mp hsorted).1 b List.mem_cons_self
    constructor
    · rintro ⟨hmore,hnum⟩
      refine ⟨by simp,?_,hmore⟩
      have hb : b.number = 1 := by
        have hh := congrArg List.head? hnum
        simpa [List.range'_succ] using hh
      rw [List.map_cons,List.range_eq_range',List.length_cons,List.range'_succ]
      rw [List.tail_cons] at hnum
      rw [hnum,show a.number = 0 by omega]
    · rintro ⟨_,hnum,hmore⟩
      refine ⟨hmore,?_⟩
      rw [List.map_cons,List.range_eq_range',List.length_cons,List.range'_succ] at hnum
      exact (List.cons.inj hnum).2

end Complete

end RxDefrag
end MarbleModules
