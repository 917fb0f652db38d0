import Mathlib.Data.List.Sort

/-! Lists in the order of a key, and the insertion of a new key at its place. -/
namespace MarbleModules
namespace KeyInsert

variable {α β : Type*} [LinearOrder β] (key : α → β)

/-- The keys of the list increase. -/
def Increasing (l : List α) : Prop := l.Pairwise fun a b => key a < key b

/-- The element before the first one with a key that is not smaller. -/
def insertByKey (a : α) (l : List α) : List α := l.orderedInsert (fun a b => key a ≤ key b) a

theorem perm_insertByKey (a : α) (l : List α) : List.Perm (insertByKey key a l) (a::l) :=
  List.perm_orderedInsert _ a l

theorem mem_insertByKey {a b : α} {l : List α} : b ∈ insertByKey key a l ↔ b = a ∨ b ∈ l :=
  List.mem_orderedInsert _

theorem length_insertByKey (a : α) (l : List α) : (insertByKey key a l).length = l.length+1 :=
  List.orderedInsert_length _ l a

variable {key}

theorem increasing_nil : Increasing key ([] : List α) := List.Pairwise.nil

theorem increasing_insertByKey {a : α} {l : List α} (h : Increasing key l)
    (hnew : ∀ b ∈ l,key b ≠ key a) : Increasing key (insertByKey key a l) := by
  induction l with
  | nil => exact List.pairwise_singleton _ _
  | cons b l ih =>
    obtain ⟨hb,hl⟩ := List.pairwise_cons.mp h
    have hba := hnew b List.mem_cons_self
    rw [insertByKey,List.orderedInsert_cons]
    split_ifs with hle
    · have hab : key a < key b := lt_of_le_of_ne hle hba.symm
      refine List.pairwise_cons.mpr ⟨fun c hc => ?_,h⟩
      rcases List.mem_cons.mp hc with rfl | hc
      · exact hab
      · exact hab.trans (hb c hc)
    · refine List.pairwise_cons.mpr ⟨fun c hc => ?_,ih hl fun c hc =>
        hnew c (List.mem_cons_of_mem _ hc)⟩
      rcases (mem_insertByKey key).mp hc with rfl | hc
      · exact not_le.mp hle
      · exact hb c hc

/-- A key above all others goes to the end. -/
theorem insertByKey_eq_append {a : α} {l : List α} (h : ∀ b ∈ l,key b < key a) :
    insertByKey key a l = l++[a] := by
  induction l with
  | nil => rfl
  | cons b l ih =>
    rw [insertByKey,List.orderedInsert_cons,
      if_neg (not_le.mpr (h b List.mem_cons_self))]
    exact congrArg (b::·) (ih fun c hc => h c (List.mem_cons_of_mem _ hc))

/-- A key below the first goes to the front. -/
theorem insertByKey_eq_cons {a b : α} {l : List α} (h : key a < key b) :
    insertByKey key a (b::l) = a::b::l := by
  rw [insertByKey,List.orderedInsert_cons,if_pos h.le]

/-- A key below that of the last element leaves the last element where it is. -/
theorem getLast?_insertByKey {a t : α} {l : List α} (ht : l.getLast? = some t)
    (hlt : key a < key t) : (insertByKey key a l).getLast? = some t := by
  induction l with
  | nil => cases ht
  | cons b l ih =>
    rw [insertByKey,List.orderedInsert_cons]
    split_ifs with hle
    · rw [List.getLast?_cons_cons,ht]
    · have hne : l ≠ [] := by
        rintro rfl
        obtain rfl : b = t := by simpa using ht
        exact hle hlt.le
      rw [List.getLast?_cons_of_ne_nil hne] at ht
      have hne' : insertByKey key a l ≠ [] := by
        intro hh
        have hlen := length_insertByKey key a l
        rw [hh] at hlen
        cases hlen
      have hh := List.getLast?_cons_of_ne_nil (x := b) hne'
      exact hh.trans (ih ht)

/-- The last element has the greatest key. -/
theorem Increasing.le_getLast? {a t : α} {l : List α} (h : Increasing key l)
    (ht : l.getLast? = some t) (ha : a ∈ l) : key a ≤ key t := by
  obtain ⟨l',rfl⟩ := List.getLast?_eq_some_iff.mp ht
  rcases List.mem_append.mp ha with ha | ha
  · exact ((List.pairwise_append.mp h).2.2 a ha t List.mem_cons_self).le
  · rw [List.mem_singleton.mp ha]

end KeyInsert
end MarbleModules
