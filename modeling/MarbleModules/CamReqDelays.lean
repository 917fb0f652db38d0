import MarbleModules.CamReqRuns

/-! The delay tables of a link as a list from the largest delay down, each with its distance to
the next, and what a traversal of such a list does: nothing, or everything. -/
namespace MarbleModules
namespace CamReqMgr

section Insertion

/-- The distance of a table to the next, none behind the last. -/
def gap (tbl : ReqTbl) : List ReqTbl → ℤ
  | [] => 0
  | next::_ => tbl.pd-next.pd

/-- The delays strictly decrease, and every table knows its distance to the next. -/
def Linked : List ReqTbl → Prop
  | [] => True
  | tbl::next => (∀ p ∈ next.map (·.pd), p < tbl.pd) ∧ tbl.pdDelta = gap tbl next ∧ Linked next

theorem gap_insertAfter (tbl newTbl next : ReqTbl) (rest : List ReqTbl) :
    gap tbl (insertAfter newTbl next rest) = tbl.pd-next.pd := by
  cases rest with
  | nil => rfl
  | cons t rest =>
    rw [insertAfter]
    split_ifs <;> rfl

theorem linked_insertAfter {newTbl tbl : ReqTbl} {next : List ReqTbl}
    (h : Linked (tbl::next)) (hlt : newTbl.pd < tbl.pd)
    (hnew : newTbl.pd ∉ next.map (·.pd)) : Linked (insertAfter newTbl tbl next) := by
  induction next generalizing tbl with
  | nil => exact ⟨by simpa using hlt,rfl,by simp,rfl,trivial⟩
  | cons t rest ih =>
    obtain ⟨hdec,hgap,hrest⟩ := h
    rw [List.map_cons,List.mem_cons,not_or] at hnew
    rw [insertAfter]
    split_ifs with hmore
    · refine ⟨fun p hp => ?_,?_,ih hrest hmore hnew.2⟩
      · rw [(insertAfter_pds newTbl t rest).mem_iff,List.mem_cons] at hp
        obtain rfl | hp := hp
        · exact hlt
        · exact hdec p hp
      · rw [hgap,gap_insertAfter]
        rfl
    · have hgt : t.pd < newTbl.pd := by omega
      refine ⟨fun p hp => ?_,rfl,fun p hp => ?_,rfl,hrest⟩
      · rw [List.map_cons,List.mem_cons] at hp
        obtain rfl | hp := hp
        · exact hlt
        · exact hdec p hp
      · rw [List.map_cons,List.mem_cons] at hp
        obtain rfl | hp := hp
        · exact hgt
        · exact (hrest.1 p hp).trans hgt

theorem linked_addTblToLink {lTbl : List ReqTbl} {newTbl : ReqTbl} (h : Linked lTbl)
    (hnew : newTbl.pd ∉ lTbl.map (·.pd)) (hdelta : newTbl.pdDelta = 0) :
    Linked (addTblToLink lTbl newTbl) := by
  cases lTbl with
  | nil => exact ⟨by simp,hdelta,trivial⟩
  | cons tbl next =>
    rw [List.map_cons,List.mem_cons,not_or] at hnew
    rw [addTblToLink]
    split_ifs with hlt
    · refine ⟨fun p hp => ?_,rfl,h⟩
      rw [List.map_cons,List.mem_cons] at hp
      obtain rfl | hp := hp
      · exact hlt
      · exact (h.1 p hp).trans hlt
    · exact linked_insertAfter h (by omega) hnew.2

/-- Tables inserted one after the other. -/
def insertTbls (news : List ReqTbl) : List ReqTbl := news.foldl addTblToLink []

theorem insertTbls_concat (news : List ReqTbl) (newTbl : ReqTbl) :
    insertTbls (news++[newTbl]) = addTblToLink (insertTbls news) newTbl := by
  rw [insertTbls,List.foldl_append]
  rfl

theorem insertTbls_pds (news : List ReqTbl) :
    ((insertTbls news).map (·.pd)).Perm (news.map (·.pd)) := by
  induction news using List.reverseRecOn with
  | nil => exact List.Perm.nil
  | append_singleton news newTbl ih =>
    rw [insertTbls_concat,List.map_append]
    exact (addTblToLink_pds _ newTbl).trans ((ih.cons _).trans (List.perm_append_singleton _ _).symm)

theorem insertTbls_linked {news : List ReqTbl} (hnodup : (news.map (·.pd)).Nodup)
    (hdelta : ∀ tbl ∈ news, tbl.pdDelta = 0) : Linked (insertTbls news) := by
  induction news using List.reverseRecOn with
  | nil => trivial
  | append_singleton news newTbl ih =>
    rw [List.map_append,List.nodup_append] at hnodup
    obtain ⟨hnews,_,hdisj⟩ := hnodup
    rw [insertTbls_concat]
    refine linked_addTblToLink (ih hnews fun tbl h => hdelta tbl (by simp [h])) ?_
      (hdelta newTbl (by simp))
    rw [(insertTbls_pds news).mem_iff]
    intro hmem
    exact hdisj _ hmem newTbl.pd (by simp) rfl

end Insertion

section Traversal

variable {inQ : ReqQueue}

/-- The slot that the table of delay `pd` is asked for when the largest delay `maxPd` is asked for
`idx`. -/
def slotOf (idx maxPd pd : ℤ) : ℤ := (idx-(maxPd-pd)) % maxReqSlots

theorem decIdx_eq {idx step : ℤ} (hidx : 0 ≤ idx ∧ idx < maxReqSlots)
    (hstep : 0 ≤ step ∧ step ≤ maxReqSlots) :
    decIdx idx step maxReqSlots = (idx-step) % maxReqSlots := by
  rw [maxReqSlots] at *
  rw [decIdx]
  split_ifs <;> omega

/-- Delays with bits of their own in the result, and tables of all the slots. -/
def InBounds (tbls : List ReqTbl) : Prop :=
  ∀ tbl ∈ tbls, 0 ≤ tbl.pd ∧ tbl.pd < 32 ∧ tbl.numSlots = maxReqSlots

instance (tbls : List ReqTbl) : Decidable (InBounds tbls) :=
  inferInstanceAs (Decidable (∀ tbl ∈ tbls, _))

/-- The delay of the first table, the largest of a list in order. -/
def maxPd : List ReqTbl → ℤ
  | [] => 0
  | tbl::_ => tbl.pd

/-- Every table fills its own entry, from the slot of its delay. -/
theorem fill_eq {tbls : List ReqTbl} (hlinked : Linked tbls) (hbounds : InBounds tbls) {idx : ℤ}
    (hidx : 0 ≤ idx ∧ idx < maxReqSlots) (a : ℤ → Apply) :
    ∀ tbl ∈ tbls, fill inQ idx tbls a tbl.pd =
      applyOf inQ (slotOf idx (maxPd tbls) tbl.pd) tbl (a tbl.pd) := by
  induction tbls generalizing idx with
  | nil => simp
  | cons tbl next ih =>
    obtain ⟨hdec,hgap,hnext⟩ := hlinked
    obtain ⟨⟨hpd,hlt,hslots⟩,hbounds⟩ := List.forall_mem_cons.mp hbounds
    have hown : tbl.pd ∉ next.map (·.pd) := fun h => lt_irrefl _ (hdec _ h)
    rw [List.forall_mem_cons,fill]
    constructor
    · have hslot : slotOf idx tbl.pd tbl.pd = idx := by
        rw [slotOf,maxReqSlots] at *
        omega
      rw [Function.update_self,fill_of_notMem hown,maxPd,hslot]
    · intro t ht
      have hmem : t.pd ∈ next.map (·.pd) := List.mem_map_of_mem ht
      have hne : t.pd ≠ tbl.pd := fun h => lt_irrefl _ (h ▸ hdec _ hmem)
      obtain ⟨n,rest,rfl⟩ := List.exists_cons_of_ne_nil (List.ne_nil_of_mem ht)
      have hn := hbounds n List.mem_cons_self
      have hdelta : tbl.pdDelta = tbl.pd-n.pd := hgap
      have hless : n.pd < tbl.pd := hdec n.pd (by simp)
      have hstep : decIdx idx tbl.pdDelta tbl.numSlots = (idx-(tbl.pd-n.pd)) % maxReqSlots := by
        rw [hslots,hdelta]
        exact decIdx_eq hidx ⟨by omega,by rw [maxReqSlots]; omega⟩
      have hidx' : 0 ≤ decIdx idx tbl.pdDelta tbl.numSlots ∧
          decIdx idx tbl.pdDelta tbl.numSlots < maxReqSlots := by
        rw [hstep,maxReqSlots]
        omega
      have hslot : slotOf (decIdx idx tbl.pdDelta tbl.numSlots) n.pd t.pd =
          slotOf idx tbl.pd t.pd := by
        rw [hstep,slotOf,slotOf,maxReqSlots]
        omega
      rw [Function.update_of_ne hne,ih hnext hbounds hidx' t ht,maxPd,maxPd,hslot]

theorem pdBit_getLsbD {p : ℤ} (hp : 0 ≤ p) {k : ℕ} (hk : k < 32) :
    (pdBit p).getLsbD k = true ↔ p = k := by
  have hle : (p.toNat ≤ k ∧ k-p.toNat = 0) ↔ p = k := by omega
  rw [pdBit,← hle]
  simp [hk]

theorem passed_getLsbD {tbls : List ReqTbl} (hbounds : InBounds tbls) (result : BitVec 32)
    {k : ℕ} (hk : k < 32) :
    (passed tbls result).getLsbD k = true ↔
      result.getLsbD k = true ∨ ∃ tbl ∈ tbls, tbl.pd = k := by
  induction tbls with
  | nil => simp [passed]
  | cons tbl next ih =>
    obtain ⟨hpd,hbounds⟩ := List.forall_mem_cons.mp hbounds
    change (passed next result ||| pdBit tbl.pd).getLsbD k = true ↔ _
    rw [BitVec.getLsbD_or,Bool.or_eq_true,ih hbounds,pdBit_getLsbD hpd.1 hk,or_assoc]
    simp [or_comm]

/-- A traversal of `tbls` that starts at `idx` with `d` records nothing or everything. -/
structure AllOrNothing (inQ : ReqQueue) (idx : ℤ) (tbls : List ReqTbl) (d : TraverseData) :
    Prop where
  validates : (traverse inQ true idx tbls d).2.1 = tbls ∧
    (traverse inQ true idx tbls d).2.2.applyData = d.applyData
  fails_or_succeeds :
    ((traverse inQ false idx tbls d).1 < 0 ∧ (traverse inQ false idx tbls d).2.1 = tbls ∧
      (traverse inQ false idx tbls d).2.2.applyData = d.applyData) ∨
    ((traverse inQ false idx tbls d).1 = 0 ∧
      (∀ k < 32, (traverse inQ false idx tbls d).2.2.result.getLsbD k = true ↔
        d.result.getLsbD k = true ∨ ∃ tbl ∈ tbls, tbl.pd = k) ∧
      (∀ tbl ∈ tbls, (traverse inQ false idx tbls d).2.2.applyData tbl.pd =
        applyOf inQ (slotOf idx (maxPd tbls) tbl.pd) tbl (d.applyData tbl.pd)) ∧
      (∀ p ∉ tbls.map (·.pd), (traverse inQ false idx tbls d).2.2.applyData p =
        d.applyData p) ∧
      (traverse inQ false idx tbls d).2.1 = tbls.map (·.spend))

theorem traverse_allOrNothing {tbls : List ReqTbl} (hlinked : Linked tbls)
    (hbounds : InBounds tbls) {idx : ℤ} (hidx : 0 ≤ idx ∧ idx < maxReqSlots)
    (d : TraverseData) : AllOrNothing inQ idx tbls d := by
  by_cases hne : tbls = []
  · subst hne
    have hneg : -einval < 0 := by decide
    exact ⟨⟨rfl,rfl⟩,Or.inl ⟨hneg,rfl,rfl⟩⟩
  by_cases hpass : AllPass inQ idx tbls
  · refine ⟨by rw [traverse_pass hne hpass]; exact ⟨rfl,rfl⟩,Or.inr ?_⟩
    rw [traverse_pass hne hpass]
    refine ⟨rfl,fun k hk => passed_getLsbD hbounds d.result hk,?_,fun p hp => ?_,rfl⟩
    · exact fill_eq hlinked hbounds hidx d.applyData
    · exact fill_of_notMem hp idx d.applyData
  · have hneg : -eagain < 0 := by decide
    exact ⟨(traverse_stop hpass d).2,Or.inl ⟨(traverse_stop hpass d).1 ▸ hneg,
      (traverse_stop hpass d).2⟩⟩

/-- Insertion keeps the tables in order with their distances, and a traversal of such tables is
all or nothing. -/
theorem insertTbls_traverse (news : List ReqTbl) (hnodup : (news.map (·.pd)).Nodup)
    (hdelta : ∀ tbl ∈ news, tbl.pdDelta = 0) :
    (Linked (insertTbls news) ∧ ((insertTbls news).map (·.pd)).Perm (news.map (·.pd))) ∧
      ∀ tbls, Linked tbls → InBounds tbls → ∀ inQ idx, 0 ≤ idx → idx < maxReqSlots →
        ∀ d, AllOrNothing inQ idx tbls d :=
  ⟨⟨insertTbls_linked hnodup hdelta,insertTbls_pds news⟩,
    fun _ hlinked hbounds _ _ hpos hlt d =>
      traverse_allOrNothing hlinked hbounds ⟨hpos,hlt⟩ d⟩

/-- Tables of delays 0, 2 and 1. -/
def threeTbls : List ReqTbl :=
  [createPdTbl,{createPdTbl with pd := 2},{createPdTbl with pd := 1}]

theorem insertTbls_traverse_three :
    (insertTbls threeTbls).map (fun tbl => (tbl.pd,tbl.pdDelta)) = [(2,1),(1,1),(0,0)] ∧
      Linked (insertTbls threeTbls) ∧
      AllOrNothing setupInQ 1 (insertTbls threeTbls) ⟨0,⟨0,0,0⟩,noData⟩ := by
  have h := insertTbls_traverse threeTbls (by decide) (by decide)
  exact ⟨by decide,h.1.1,h.2 _ h.1.1 (by decide) setupInQ 1 (by decide) (by decide) _⟩

end Traversal

end CamReqMgr
end MarbleModules
