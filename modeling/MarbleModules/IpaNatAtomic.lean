import MarbleModules.IpaNatRuns

/-! Adds and deletes of NAT rules that fail: what they leave of the two tables when the kernel
refuses the DMA commands. -/
namespace MarbleModules
namespace IpaNat

open IpaTable

section Failing

variable {n : NatTable} {own iown : ℕ → ℕ} {g : Globals} {rule : Ipv4Rule} {new idx i : ℕ}

/-- Erasing the entry of an expansion slot leaves the previous index it was given. -/
theorem indexAdd_tail (h : n.Inv own iown) {islot last : ℕ} (entry : ℕ)
    (hocc : n.indexTable.occupied islot = true)
    (hend : ipaTableIteratorEnd n.indexTable islot = some (some last))
    (hfree : findExpnTblFreeEntry n.indexTable = some idx) :
    ∃ x₁ cmds,(∀ cmd,ipaTableAddEntry n.indexTable entry islot cmd = (x₁,0,cmd++cmds,idx)) ∧
      ipaTableEraseEntry x₁ idx = {n.indexTable with
        metaPrev := Function.update n.indexTable.metaPrev
          (idx-n.indexTable.tableEntries) last} := by
  obtain ⟨hge,_,hff,_⟩ := findExpnTblFreeEntry_some h.indx.sizes.base_pos hfree
  obtain ⟨_,hend',hlast,_⟩ := ipaTableIteratorEnd_chain h.indxChain.chained h.indxChain.occ_lt hocc
  obtain rfl := Option.some.inj (Option.some.inj (hend.symm.trans hend'))
  have hins : tailInsertEntry n.indexTable (n.indexTable.recs idx) entry =
      ({n.indexTable.recs idx with tblEntry := entry},0,0) := by
    simp [tailInsertEntry,h.indx.hasMeta,h.indx.iface,indexKind,indexEntryInterface]
  refine ⟨_,_,fun cmd => addEntry_occupied h.indx hocc hend (h.indxChain.occ_lt _ hlast) hfree
    hins,?_⟩
  have hcnt := h.indxChain.expnCnt_lt h.indx.expn_eq
  have hnl : ¬idx < n.indexTable.tableEntries := by omega
  have hzero : RecordLayout.zero = n.indexTable.recs idx := (h.index_free hff).symm
  simp [ipaTableEraseEntry,Table.setRec,hnl,hzero,indexKind,indexEntryInterface,hge,
    dec16_succ (show n.indexTable.curExpnTblCnt < 65536 by omega)]

/-- Erasing the entry of a base slot undoes the insertion. -/
theorem indexAdd_head (h : n.Inv own iown) {islot : ℕ} (entry : ℕ)
    (hlt : islot < n.indexTable.tableEntries)
    (hocc : n.indexTable.occupied islot = false) :
    ∃ x₁ cmds,(∀ cmd,ipaTableAddEntry n.indexTable entry islot cmd = (x₁,0,cmd++cmds,islot)) ∧
      ipaTableEraseEntry x₁ islot = n.indexTable := by
  have htot : islot < n.indexTable.totTblEnts := by
    rw [h.indx.tot]
    omega
  refine ⟨_,_,fun cmd => addEntry_free h.indx hocc htot rfl,?_⟩
  have hcnt := h.indxChain.cnt_lt h.indx.sizes.base_le
  have hzero : RecordLayout.zero = n.indexTable.recs islot := (h.index_free hocc).symm
  simp [ipaTableEraseEntry,Table.setRec,hlt,hzero,
    dec16_succ (show n.indexTable.curTblCnt < 65536 by omega)]

/-- The rule can be stored, with its index entry behind others of a chain, in a slot for which
another previous index is recorded than the last of that chain. -/
def StalePrev (n : NatTable) (g : Globals) (rule : Ipv4Rule) : Prop :=
  Accepts n g rule true ∧ ∃ idx last,
    n.indexTable.occupied
      (indexSlot (bumpToken g rule.srcOnly) n.table.tableEntries rule) = true ∧
    findExpnTblFreeEntry n.indexTable = some idx ∧
    ipaTableIteratorEnd n.indexTable
      (indexSlot (bumpToken g rule.srcOnly) n.table.tableEntries rule) = some (some last) ∧
    n.indexTable.prevIndex idx ≠ last

theorem index_prevIndex_expn (h : n.Inv own iown) (hge : n.indexTable.tableEntries ≤ idx) :
    n.indexTable.prevIndex idx = n.indexTable.metaPrev (idx-n.indexTable.tableEntries) := by
  simp [Table.prevIndex,h.indx.iface,indexKind,indexEntryInterface,hge]

/-- A failed add leaves the tables as they were unless it records a previous index. -/
theorem addIpv4Rule_failed_iff (h : n.Inv own iown) :
    (addIpv4Rule n g rule false).1 = n ↔ ¬StalePrev n g rule := by
  by_cases hacc : Accepts n g rule true
  · obtain ⟨new,hnew⟩ := Option.ne_none_iff_exists'.mp hacc.nat
    obtain ⟨idx,hidx⟩ := Option.ne_none_iff_exists'.mp hacc.indx
    have hislot : indexSlot (bumpToken g rule.srcOnly) n.table.tableEntries rule <
        n.indexTable.tableEntries := by
      rw [h.base_eq]
      exact (indexSlot_bounds h.nat.sizes (bumpToken g rule.srcOnly) rule).2
    unfold NatTable.indexTarget Table.targetSlot at hidx
    split_ifs at hidx with hocc
    · obtain ⟨x₁,cmds,hadd,herase⟩ := indexAdd_head h new hislot hocc
      obtain ⟨g',hfail⟩ := addIpv4Rule_post_failed h hacc hnew hadd
      rw [hfail,herase]
      refine iff_of_true rfl fun hst => ?_
      obtain ⟨-,_,_,hocc',-⟩ := hst
      rw [hocc] at hocc'
      nomatch hocc'
    · rw [Bool.not_eq_false] at hocc
      obtain ⟨last,hend,-⟩ :=
        ipaTableIteratorEnd_chain h.indxChain.chained h.indxChain.occ_lt hocc
      obtain ⟨hge,-⟩ := findExpnTblFreeEntry_some h.indx.sizes.base_pos hidx
      obtain ⟨x₁,cmds,hadd,herase⟩ := indexAdd_tail h new hocc hend hidx
      obtain ⟨g',hfail⟩ := addIpv4Rule_post_failed h hacc hnew hadd
      rw [hfail,herase]
      have hprev := index_prevIndex_expn h hge
      constructor
      · rintro heq ⟨-,idx',last',-,hidx',hend',hne⟩
        obtain rfl := Option.some.inj (hidx.symm.trans hidx')
        obtain rfl := Option.some.inj (Option.some.inj (hend.symm.trans hend'))
        have hm := congrFun (congrArg (fun m => m.indexTable.metaPrev) heq)
          (idx-n.indexTable.tableEntries)
        simp only [Function.update_self] at hm
        exact hne (hprev.trans hm.symm)
      · intro hst
        have hlast : n.indexTable.metaPrev (idx-n.indexTable.tableEntries) = last := by
          rw [← hprev]
          by_contra hne
          exact hst ⟨hacc,idx,last,hocc,hidx,hend,hne⟩
        rw [← hlast,Function.update_eq_self]
  · obtain ⟨g',ret,hfail,-⟩ := addIpv4Rule_refused h hacc false
    rw [hfail]
    exact iff_of_true rfl fun hst => hacc hst.1

/-- The index entry of the rule is the head of a longer chain. -/
def HeadWithTail (n : NatTable) (hdl : ℕ) : Prop :=
  let x := (n.table.recs (breakRuleHdl n.table hdl)).indxTblEntry
  n.indexTable.prevIndex x = 0 ∧ n.indexTable.nextIndex x ≠ 0

instance (n : NatTable) (hdl : ℕ) : Decidable (HeadWithTail n hdl) :=
  inferInstanceAs (Decidable (_ ∧ _))

theorem headWithTail_handle (h : n.Inv own iown) (hi : n.Live i) :
    HeadWithTail n (makeEntryHdl n.table i) ↔
      n.indexTable.prevIndex (n.table.recs i).indxTblEntry = 0 ∧
        n.indexTable.nextIndex (n.table.recs i).indxTblEntry ≠ 0 := by
  have hlt := h.natChain.occ_lt i (h.occupied_of_live hi)
  rw [h.nat.tot] at hlt
  rw [HeadWithTail,breakRuleHdl_makeEntryHdl h.nat.sizes hlt]

/-- Without a longer chain nothing is written before the commands are posted. -/
theorem delIpv4Rule_failed_simple (h : n.Inv own iown) (hi : n.Live i)
    (hnot : ¬HeadWithTail n (makeEntryHdl n.table i)) :
    delIpv4Rule n (makeEntryHdl n.table i) false = (n,-5) := by
  rw [headWithTail_handle h hi] at hnot
  have hocc := h.occupied_of_live hi
  have hx := (h.xref i hi).1
  have hhead : iteratorIsHeadWithTail
      (n.indexTable.iteratorAt (n.table.recs i).indxTblEntry) = false := by
    rw [Bool.eq_false_iff]
    exact fun hh => hnot ((isHeadWithTail_iff _ _).mp hh)
  unfold delIpv4Rule
  simp only [getEntry_handle h (h.natChain.occ_lt i hocc),
    ipaTableIteratorInit_eq h.natChain hocc,getEntryByIndex_link h.indxChain hx,
    ipaTableIteratorInit_eq h.indxChain hx,hhead,Bool.false_eq_true,if_false,postIpv4DmaCmd]

/-- With a longer chain the rule of its second entry has been redirected to the head. -/
theorem delIpv4Rule_failed_moved (h : n.Inv own iown) (hi : n.Live i)
    (hht : HeadWithTail n (makeEntryHdl n.table i)) :
    ∃ x c,(n.table.recs i).indxTblEntry = x ∧ n.indexTable.nextIndex x = c ∧
      n.indexTable.occupied c = true ∧ x ≠ c ∧
      delIpv4Rule n (makeEntryHdl n.table i) false =
        (⟨(n.moved x c).table,n.indexTable⟩,-5) := by
  obtain ⟨hp,hc0⟩ := (headWithTail_handle h hi).mp hht
  have hocc := h.occupied_of_live hi
  have hx := (h.xref i hi).1
  obtain ⟨hc,-,-,hcx,-⟩ := h.indxChain.next_occ hx hc0
  refine ⟨_,_,rfl,rfl,hc,Ne.symm hcx,?_⟩
  have hhead := (isHeadWithTail_iff n.indexTable (n.table.recs i).indxTblEntry).mpr ⟨hp,hc0⟩
  unfold delIpv4Rule
  simp only [getEntry_handle h (h.natChain.occ_lt i hocc),
    ipaTableIteratorInit_eq h.natChain hocc,getEntryByIndex_link h.indxChain hx,
    ipaTableIteratorInit_eq h.indxChain hx,hhead,if_true,copySecond_eq hx rfl hc0 h,
    iteratorNext_eq hx rfl hc0 h,postIpv4DmaCmd,Bool.false_eq_true,if_false]

theorem delIpv4Rule_failed_iff (h : n.Inv own iown) (hi : n.Live i) :
    (delIpv4Rule n (makeEntryHdl n.table i) false).1 = n ↔
      ¬HeadWithTail n (makeEntryHdl n.table i) := by
  by_cases hht : HeadWithTail n (makeEntryHdl n.table i)
  · refine iff_of_false (fun heq => ?_) (fun hn => hn hht)
    obtain ⟨x,c,-,-,hc,hxc,hdel⟩ := delIpv4Rule_failed_moved h hi hht
    rw [hdel] at heq
    have hrec := congrArg (fun m : NatTable =>
      (m.table.recs (n.indexTable.recs c).tblEntry).indxTblEntry) heq
    simp only [NatTable.moved,Table.setRec_recs,Function.update_self] at hrec
    exact hxc (hrec.trans (h.back c hc).2)
  · rw [delIpv4Rule_failed_simple h hi hht]
    exact iff_of_true rfl hht

end Failing

namespace NatRun

/-- An operation, and whether the ioctl it makes succeeds. -/
def postStep (s : NatRun) : NatOp × Bool → NatRun
  | (op,true) => s.step op
  | (.add rule,false) =>
    {s with
      tbl := (addIpv4Rule s.tbl s.globals rule false).1
      globals := (addIpv4Rule s.tbl s.globals rule false).2.1}
  | (.del hdl,false) => {s with tbl := (delIpv4Rule s.tbl hdl false).1}
  | (.modifyPdn _ _,false) => s
  -- no ioctl is made
  | (.clear,false) => s.step .clear
  | (.hardware i timeStamp redirect,false) => s.step (.hardware i timeStamp redirect)

def PostLegal (s : NatRun) (op : NatOp × Bool) : Prop := s.Legal op.1

instance (s : NatRun) (op : NatOp × Bool) : Decidable (s.PostLegal op) :=
  inferInstanceAs (Decidable (s.Legal op.1))

/-- A delete that returns an error leaves the tables exactly as they were. -/
def DelAtomic (s : NatRun) : NatOp × Bool → Prop
  | (.del hdl,ioctl) =>
    (delIpv4Rule s.tbl hdl ioctl).2 ≠ 0 → (delIpv4Rule s.tbl hdl ioctl).1 = s.tbl
  | _ => True

/-- An add that returns an error leaves the tables exactly as they were. -/
def AddAtomic (s : NatRun) : NatOp × Bool → Prop
  | (.add rule,ioctl) => (addIpv4Rule s.tbl s.globals rule ioctl).2.2.1 ≠ 0 →
      (addIpv4Rule s.tbl s.globals rule ioctl).1 = s.tbl
  | _ => True

/-- The commands of a delete are posted, or its index entry heads no longer chain. -/
def DelPosted (s : NatRun) : NatOp × Bool → Prop
  | (.del hdl,ioctl) => ioctl = true ∨ ¬HeadWithTail s.tbl hdl
  | _ => True

/-- The commands of an add are posted, or it has recorded no new previous index. -/
def AddPosted (s : NatRun) : NatOp × Bool → Prop
  | (.add rule,ioctl) => ioctl = true ∨ ¬StalePrev s.tbl s.globals rule
  | _ => True

theorem delAtomic_iff {s : NatRun} {op : NatOp × Bool} (h : s.Inv) (hl : s.PostLegal op) :
    s.DelAtomic op ↔ s.DelPosted op := by
  obtain ⟨iown,hinv,-⟩ := h
  rcases op with ⟨op,ioctl⟩
  cases op with
  | del hdl =>
    obtain ⟨i,-,hi,rfl⟩ := hl
    cases ioctl with
    | true =>
      obtain ⟨n',hdel,-⟩ := delIpv4Rule_removal hinv hi
      rw [DelAtomic,hdel]
      exact iff_of_true (absurd rfl) (.inl rfl)
    | false =>
      have hret : (delIpv4Rule s.tbl (makeEntryHdl s.tbl.table i) false).2 ≠ 0 := by
        by_cases hht : HeadWithTail s.tbl (makeEntryHdl s.tbl.table i)
        · obtain ⟨_,_,-,-,-,-,hdel⟩ := delIpv4Rule_failed_moved hinv hi hht
          rw [hdel]
          exact (by decide : (-5 : ℤ) ≠ 0)
        · rw [delIpv4Rule_failed_simple hinv hi hht]
          exact (by decide : (-5 : ℤ) ≠ 0)
      rw [DelAtomic,DelPosted,imp_iff_right hret,delIpv4Rule_failed_iff hinv hi]
      simp only [Bool.false_eq_true,false_or]
  | add rule => exact Iff.rfl
  | clear => exact Iff.rfl
  | modifyPdn pdnIndex publicIp => exact Iff.rfl
  | hardware i ts redirect => exact Iff.rfl

theorem addAtomic_iff {s : NatRun} {op : NatOp × Bool} (h : s.Inv) :
    s.AddAtomic op ↔ s.AddPosted op := by
  obtain ⟨iown,hinv,-⟩ := h
  rcases op with ⟨op,ioctl⟩
  cases op with
  | add rule =>
    rw [AddAtomic,AddPosted]
    by_cases hacc : Accepts s.tbl s.globals rule true
    · cases ioctl with
      | true =>
        obtain ⟨new,hnew⟩ := Option.ne_none_iff_exists'.mp hacc.nat
        obtain ⟨idx,hidx⟩ := Option.ne_none_iff_exists'.mp hacc.indx
        obtain ⟨n',g',hadd,-⟩ := addIpv4Rule_accepted hinv hacc hnew hidx
        rw [hadd]
        exact iff_of_true (absurd rfl) (.inl rfl)
      | false =>
        have hrej : ¬Accepts s.tbl s.globals rule false := fun hh => nomatch hh.ioctl
        obtain ⟨_,_,ret,hadd,hret,-⟩ := addIpv4Rule_rejected hinv hrej
        have hret' : (addIpv4Rule s.tbl s.globals rule false).2.2.1 ≠ 0 := by
          rw [hadd]
          exact hret
        rw [imp_iff_right hret',addIpv4Rule_failed_iff hinv]
        simp only [Bool.false_eq_true,false_or]
    · obtain ⟨g',ret,hadd,-⟩ := addIpv4Rule_refused hinv hacc ioctl
      rw [hadd]
      exact iff_of_true (fun _ => rfl) (.inr fun hst => hacc hst.1)
  | del hdl => exact Iff.rfl
  | clear => exact Iff.rfl
  | modifyPdn pdnIndex publicIp => exact Iff.rfl
  | hardware i ts redirect => exact Iff.rfl

/-- Failed adds keep the invariant, and so do failed deletes that change nothing. -/
theorem postStep_inv {s : NatRun} {op : NatOp × Bool} (h : s.Inv) (hl : s.PostLegal op)
    (hd : s.DelPosted op) : (s.postStep op).Inv := by
  rcases op with ⟨op,_ | _⟩
  · cases op with
    | add rule =>
      obtain ⟨iown,hinv,hown⟩ := h
      have hrej : ¬Accepts s.tbl s.globals rule false := fun hh => nomatch hh.ioctl
      obtain ⟨n',g',ret,hadd,-,hu⟩ := addIpv4Rule_rejected hinv hrej
      rw [postStep,hadd]
      refine ⟨iown,hu.inv hinv,fun j hj => ?_⟩
      simp only [NatTable.Live,hu.table] at hj ⊢
      exact hown j hj
    | del hdl =>
      obtain ⟨i,-,hi,rfl⟩ := hl
      have hinv := h
      obtain ⟨iown,hinv,-⟩ := hinv
      rw [postStep,delIpv4Rule_failed_simple hinv hi (hd.resolve_left (by decide))]
      exact h
    | modifyPdn pdnIndex publicIp => exact h
    | clear => exact step_inv h hl
    | hardware i ts redirect => exact step_inv h hl
  · exact step_inv h hl

/-- In a run from a created table every failing delete leaves the tables as they were exactly
when no delete whose commands cannot be posted is of a rule whose index entry heads a longer
chain. -/
theorem del_atomic_iff (nmi : MemIn) (num : ℕ) (n : NatTable) (g : Globals)
    (ops : List (NatOp × Bool)) (h : createTable nmi num = some n)
    (hops : Runs.Guarded postStep PostLegal (fresh n g) ops) :
    Runs.Guarded postStep DelAtomic (fresh n g) ops ↔
      Runs.Guarded postStep DelPosted (fresh n g) ops :=
  Runs.guarded_congr (I := Inv)
    (fun _ _ hs hl hd => postStep_inv hs hl ((delAtomic_iff hs hl).mp hd))
    (fun _ _ hs hl => delAtomic_iff hs hl) (fresh_inv h g) ops hops

/-- Two rules in one chain of both tables; the delete of the second fails. -/
theorem del_atomic_small : Runs.Guarded postStep DelAtomic (fresh (smallTable .ddr) onePdn)
    [(.add (udpRule 0),true),(.add (udpRule 4),true),(.del 1,false)] :=
  (del_atomic_iff .ddr 4 (smallTable .ddr) onePdn _ createTable_small (by decide)).mpr
    ⟨trivial,trivial,.inr (by decide),trivial⟩

/-- The delete of the first fails, and the other rule has already been redirected. -/
theorem not_del_atomic_small : createTable .ddr 4 = some (smallTable .ddr) ∧
    Runs.Guarded postStep PostLegal (fresh (smallTable .ddr) onePdn)
      [(.add (udpRule 0),true),(.add (udpRule 4),true),(.del 2,false)] ∧
    ¬Runs.Guarded postStep DelAtomic (fresh (smallTable .ddr) onePdn)
      [(.add (udpRule 0),true),(.add (udpRule 4),true),(.del 2,false)] := by
  refine ⟨createTable_small,by decide,fun hg => ?_⟩
  obtain ⟨-,-,hd,-⟩ := hg
  have hsame := congrArg (fun n : NatTable => (n.table.recs 4).indxTblEntry) (hd (by decide))
  exact absurd hsame (by decide)

/-- In a run from a created table, in which no failed delete has changed anything, every failing
add leaves the tables as they were exactly when none whose commands cannot be posted records a
new previous index for an expansion slot of the index table. -/
theorem add_atomic_iff (nmi : MemIn) (num : ℕ) (n : NatTable) (g : Globals)
    (ops : List (NatOp × Bool)) (h : createTable nmi num = some n)
    (hops : Runs.Guarded postStep PostLegal (fresh n g) ops)
    (hdel : Runs.Guarded postStep DelPosted (fresh n g) ops) :
    Runs.Guarded postStep AddAtomic (fresh n g) ops ↔
      Runs.Guarded postStep AddPosted (fresh n g) ops :=
  Runs.guarded_congr (I := Inv) (fun _ _ hs hl _ => postStep_inv hs hl.1 hl.2)
    (fun _ _ hs _ => addAtomic_iff hs) (fresh_inv h g) ops (hops.and hdel)

/-- The second rule's index entry takes a base slot of its own. -/
theorem add_atomic_small : Runs.Guarded postStep AddAtomic (fresh (smallTable .ddr) onePdn)
    [(.add (udpRule 0),true),(.add (udpRule 1),false)] :=
  (add_atomic_iff .ddr 4 (smallTable .ddr) onePdn [(.add (udpRule 0),true),
    (.add (udpRule 1),false)] createTable_small (by decide) ⟨trivial,trivial,trivial⟩).mpr
    ⟨.inl rfl,.inr fun hst => by
      obtain ⟨-,_,_,hocc,-⟩ := hst
      exact absurd hocc (by decide),trivial⟩

/-- The second rule's index entry goes behind the first, and its commands are not posted. -/
theorem not_add_atomic_small : createTable .ddr 4 = some (smallTable .ddr) ∧
    Runs.Guarded postStep PostLegal (fresh (smallTable .ddr) onePdn)
      [(.add (udpRule 0),true),(.add (udpRule 4),false)] ∧
    ¬Runs.Guarded postStep AddAtomic (fresh (smallTable .ddr) onePdn)
      [(.add (udpRule 0),true),(.add (udpRule 4),false)] := by
  refine ⟨createTable_small,by decide,fun hg => ?_⟩
  obtain ⟨-,hd,-⟩ := hg
  have hsame := congrArg (fun n : NatTable => n.indexTable.metaPrev 0) (hd (by decide))
  exact absurd hsame (by decide)

end NatRun

end IpaNat
end MarbleModules
