import MarbleModules.IpaNatRuns
import MarbleModules.IpaIpv6ct

/-! The invariant of the IPv6 connection tracking table over its runs, and the chains of all
three kinds of tables. -/
namespace MarbleModules
namespace IpaIpv6ct

open IpaTable

section Kinds

def ctKind : Kind HwEntry Ipv6ctRule where
  iface := entryInterface
  hasMeta := false
  baseType := .ipv6ctBaseTbl
  expnType := .ipv6ctExpnTbl
  offset help := (dmaHelp 0 help).offset

theorem ctKind_lawful : ctKind.Lawful where
  types := by decide
  offset_lt := by intro help; cases help <;> decide
  valid_zero := rfl
  next_zero := rfl
  prev_zero := fun _ _ _ _ => rfl
  valid_update := fun _ _ => rfl
  next_update := fun _ _ => rfl
  prev_update := fun _ _ _ _ _ => rfl
  next_delete := fun _ _ => rfl
  prev_delete := fun _ _ _ _ _ => rfl
  valid_setPrev := fun _ _ _ _ _ => rfl
  next_setPrev := fun _ _ _ _ _ => rfl
  prev_setPrev := fun _ _ _ _ _ _ => rfl
  meta_setPrev := fun _ _ _ _ _ _ => rfl
  prev_setPrev_other := fun _ _ _ _ _ _ _ _ _ => rfl

theorem applyDma_eq : applyDma = Table.applyDma ctKind := by
  funext t d
  unfold applyDma Table.applyDma ctKind
  cases d.baseAddr <;> simp

end Kinds

/-- The invariant of an IPv6CT table; `own` names the base slot of each slot. A rejected
insertion may leave client data in a free record, but no links. -/
structure CtInv (t : CtTable) (own : ℕ → ℕ) : Prop where
  isOf : t.IsOf ctKind
  chain : t.Inv own
  free : ∀ i, t.occupied i = false → (t.recs i).prevIndex = 0
  dead : ∀ i, t.occupied i = true → (t.recs i).protocol = invalidProtoFieldCmp →
    i < t.tableEntries ∧ t.nextIndex i ≠ 0

/-- A rule that is enabled and not a dead head. -/
def Live (t : CtTable) (i : ℕ) : Prop :=
  (t.recs i).enable ≠ 0 ∧ (t.recs i).protocol ≠ invalidProtoFieldCmp

instance (t : CtTable) (i : ℕ) : Decidable (Live t i) :=
  inferInstanceAs (Decidable (_ ∧ _))

variable {t t' : CtTable} {own : ℕ → ℕ} {rule : Ipv6ctRule}

theorem occupied_iff (h : t.IsOf ctKind) (i : ℕ) :
    t.occupied i = true ↔ (t.recs i).enable ≠ 0 := by
  simp [Table.occupied,h.iface,ctKind,entryInterface]

theorem occupied_eq_false (h : t.IsOf ctKind) (i : ℕ) :
    t.occupied i = false ↔ (t.recs i).enable = 0 := by
  rw [Bool.eq_false_iff,ne_eq,occupied_iff h,not_not]

theorem nextIndex_eq (h : t.IsOf ctKind) (i : ℕ) : t.nextIndex i = (t.recs i).nextIndex := by
  simp [Table.nextIndex,h.iface,ctKind,entryInterface]

theorem prevIndex_eq (h : t.IsOf ctKind) (i : ℕ) : t.prevIndex i = (t.recs i).prevIndex := by
  simp [Table.prevIndex,h.iface,ctKind,entryInterface]

theorem createTable_inv {num : ℕ} (h : createTable num = some t) (own : ℕ → ℕ) :
    CtInv t own := by
  unfold createTable at h
  obtain ⟨sizes,hsizes,rfl⟩ := Option.map_eq_some_iff.mp h
  have hs := calculateEntriesNum_sizes hsizes
  have hhelp : dmaHelp 0 =
      fun help => ⟨ctKind.offset help,ctKind.baseType,ctKind.expnType,0⟩ := by
    funext help
    cases help <;> rfl
  exact ⟨⟨hs,rfl,rfl,rfl,hhelp⟩,SlotInv.initial.mpr fun _ _ => rfl,fun _ _ => rfl,
    fun i hi _ => by cases hi⟩

/-- Fields other than the enable bit, the links and the protocol do not matter, and of a free
record the protocol does not either. -/
theorem CtInv.touch (h : CtInv t own) {k : ℕ} {e : HwEntry}
    (he : e.enable = (t.recs k).enable) (hn : e.nextIndex = (t.recs k).nextIndex)
    (hp : e.prevIndex = (t.recs k).prevIndex)
    (hproto : t.occupied k = true → e.protocol = (t.recs k).protocol) :
    CtInv (t.setRec k e) own := by
  have hIs : (t.setRec k e).IsOf ctKind :=
    ⟨h.isOf.sizes,h.isOf.tot,h.isOf.iface,h.isOf.hasMeta,h.isOf.dmaHelp⟩
  have hrec : ∀ {β : Type} (f : HwEntry → β), f e = f (t.recs k) →
      ∀ j, f ((t.setRec k e).recs j) = f (t.recs j) := by
    intro β f hf j
    by_cases hj : j = k
    · subst hj
      simpa using hf
    · simp [hj]
  have hocc : ∀ j, (t.setRec k e).occupied j = t.occupied j := by
    intro j
    rw [Bool.eq_iff_iff,occupied_iff hIs,occupied_iff h.isOf,hrec (·.enable) he]
  have hnext : ∀ j, (t.setRec k e).nextIndex j = t.nextIndex j := by
    intro j
    rw [nextIndex_eq hIs,nextIndex_eq h.isOf,hrec (·.nextIndex) hn]
  have hprev : ∀ j, ((t.setRec k e).recs j).prevIndex = (t.recs j).prevIndex :=
    hrec (·.prevIndex) hp
  refine ⟨hIs,SlotInv.congr h.chain hocc hnext (fun j _ => ?_) (fun _ _ => rfl),
    fun j hj => ?_,fun j hj hdead => ?_⟩
  · rw [prevIndex_eq hIs,prevIndex_eq h.isOf,hprev]
  · rw [hprev]
    exact h.free j (by rwa [hocc] at hj)
  · rw [hocc] at hj
    have hproto' : ((t.setRec k e).recs j).protocol = (t.recs j).protocol := by
      by_cases hjk : j = k
      · subst hjk
        simpa using hproto hj
      · simp [hjk]
    rw [hnext]
    exact h.dead j hj (hproto' ▸ hdead)

section Adding

/-- The record of a new rule once its DMA commands have been applied, stored over the free
record `e`. -/
def storedEntry (e : HwEntry) (rule : Ipv6ctRule) (prevIndex : ℕ) : HwEntry :=
  { (tableEntryCopyFromUser e rule).1 with
    prevIndex := prevIndex, rsvd := 0, redirect := 0, enable := 1 }

/-- The links, the enable bit and the other fields of the hardware are not copied. -/
theorem copyFromUser_fields (e : HwEntry) (rule : Ipv6ctRule) :
    (tableEntryCopyFromUser e rule).1.nextIndex = e.nextIndex ∧
      (tableEntryCopyFromUser e rule).1.prevIndex = e.prevIndex ∧
      (tableEntryCopyFromUser e rule).1.enable = e.enable ∧
      (tableEntryCopyFromUser e rule).1.protocol = rule.protocol := by
  unfold tableEntryCopyFromUser
  cases rule.directionSettings <;> exact ⟨rfl,rfl,rfl,rfl⟩

/-- The direction settings are one of the four the driver knows. -/
def KnownDirection (rule : Ipv6ctRule) : Prop := (tableEntryCopyFromUser zeroEntry rule).2 = 0

instance (rule : Ipv6ctRule) : Decidable (KnownDirection rule) :=
  inferInstanceAs (Decidable (_ = _))

theorem copyFromUser_ret (e : HwEntry) (rule : Ipv6ctRule) :
    (tableEntryCopyFromUser e rule).2 = (tableEntryCopyFromUser zeroEntry rule).2 := by
  unfold tableEntryCopyFromUser
  cases rule.directionSettings <;> rfl

theorem headInsert_known (hr : KnownDirection rule) (e : HwEntry) :
    tableEntryHeadInsert e rule = ((tableEntryCopyFromUser e rule).1,0,enableFlags) := by
  have hret := (copyFromUser_ret e rule).trans hr
  unfold tableEntryHeadInsert
  simp [hret]

theorem headInsert_unknown (hr : ¬ KnownDirection rule) (e : HwEntry) :
    ∃ ret, ret ≠ 0 ∧
      tableEntryHeadInsert e rule = ((tableEntryCopyFromUser e rule).1,ret,0) := by
  have hret : (tableEntryCopyFromUser e rule).2 ≠ 0 := by
    rw [copyFromUser_ret]
    exact hr
  refine ⟨_,hret,?_⟩
  unfold tableEntryHeadInsert
  simp [hret]

theorem insertable (hr : KnownDirection rule) (e : HwEntry) : Insertable ctKind e rule where
  head := by
    have hh := headInsert_known hr e
    simp [ctKind,entryInterface,hh]
  tail := by
    have hret := (copyFromUser_ret e rule).trans hr
    simp [ctKind,entryInterface,tableEntryTailInsert,hret]

theorem writeEntry_enable (e : HwEntry) :
    writeEntry e ruleFlagFieldOffset enableFlags =
      { e with rsvd := 0, redirect := 0, enable := 1 } := rfl

theorem insertion (hr : KnownDirection rule) {e : HwEntry} (he : e.prevIndex = 0) :
    Insertion ctKind e rule id (storedEntry e rule) where
  head := by
    have hprev := (copyFromUser_fields e rule).2.1.trans he
    have hins : ctKind.iface.entryHeadInsert e rule =
        ((tableEntryCopyFromUser e rule).1,0,enableFlags) := headInsert_known hr e
    have hself : storedEntry e rule 0 = { (tableEntryCopyFromUser e rule).1 with
        rsvd := 0, redirect := 0, enable := 1 } := by
      rw [← hprev]
      rfl
    rw [hins,hself]
    exact writeEntry_enable _
  tail := by
    intro _ c p m b
    have hins : ctKind.iface.entryHeadInsert e rule =
        ((tableEntryCopyFromUser e rule).1,0,enableFlags) := headInsert_known hr e
    rw [hins]
    exact writeEntry_enable _
  tailMeta := fun h => by cases h

/-- The base slot of the table for a rule. -/
def ctSlot (t : CtTable) (rule : Ipv6ctRule) : ℕ := ipv6ctHash rule (t.tableEntries-1)

theorem ctSlot_bounds (h : t.IsOf ctKind) (rule : Ipv6ctRule) :
    ctSlot t rule ≠ 0 ∧ ctSlot t rule < t.tableEntries := by
  obtain ⟨k,hk⟩ := h.sizes.pow
  exact IpaNat.fold_bounds hk _

/-- The conditions under which `ipa_ipv6ct_add_rule` stores the rule. -/
structure Accepts (t : CtTable) (rule : Ipv6ctRule) (ioctl : Bool) : Prop where
  protocol : rule.protocol ≠ invalidProtoFieldCmp
  direction : KnownDirection rule
  target : t.targetSlot (ctSlot t rule) ≠ none
  ioctl : ioctl = true

variable {ioctl : Bool} {new : ℕ}

/-- A rule that is accepted is stored at its target slot, on the chain of its base slot. -/
theorem addRule_accepted (h : CtInv t own) (hacc : Accepts t rule ioctl)
    (hnew : t.targetSlot (ctSlot t rule) = some new) :
    ∃ t', addRule t rule ioctl = (t',0,makeEntryHdl t new) ∧ new < t.totTblEnts ∧
      CtInv t' (Function.update own new (ctSlot t rule)) := by
  have hslot := ctSlot_bounds h.isOf rule
  obtain ⟨hfree,hnew0,hlt⟩ := IpaNat.target_free h.isOf hslot hnew
  obtain ⟨t₁,cmds,hp,hadd⟩ := addEntry_pending ctKind_lawful h.isOf h.chain hslot.2 hnew
    (insertable hacc.direction _)
  have hst := hp.complete id _ (insertion hacc.direction (h.free new hfree))
  rw [id,Table.setRec_self] at hst
  have heq : addRule t rule ioctl = (cmds.foldl applyDma t₁,0,makeEntryHdl t new) := by
    have hadd' := hadd []
    unfold ctSlot at hadd'
    unfold addRule
    simp only [if_neg hacc.protocol,hadd',ne_eq,not_true_eq_false,if_false,List.nil_append,
      postDmaCmd,hacc.ioctl,if_true,IpaNat.makeEntryHdl_congr hp.tableEntries hp.nmi new]
  rw [applyDma_eq] at heq
  generalize cmds.foldl (Table.applyDma ctKind) t₁ = t' at hst heq
  refine ⟨t',heq,hlt,?_⟩
  obtain ⟨hcn,_,_,hcproto⟩ := copyFromUser_fields (t.recs new) rule
  have hfn : (t.recs new).nextIndex = 0 := by
    rw [← nextIndex_eq h.isOf]
    exact h.chain.free_next new hfree
  obtain ⟨hIs,hbase,_,_⟩ := h.isOf.stored hst
  have hchain := hst.inv ctKind_lawful h.isOf h.chain hslot.2 hslot.1 (fun _ => rfl)
    (fun _ => hcn.trans hfn) (fun _ => rfl) (fun _ _ _ => rfl)
  obtain ⟨⟨p,hrnew⟩,hold⟩ := hst.recs h.isOf h.chain
  have hrec : ∀ j, j ≠ new → ∃ k, t'.recs j = { t.recs j with nextIndex := k } ∧
      (k = (t.recs j).nextIndex ∨ t.nextIndex j = 0) := by
    intro j hj
    rcases hold j hj with hj' | ⟨h0,d,hj'⟩
    · exact ⟨_,hj',Or.inl rfl⟩
    · exact ⟨d.toNat,hj',Or.inr h0⟩
  refine ⟨hIs,hchain,fun j hj => ?_,fun j hj hdead => ?_⟩
  · rw [occupied_eq_false hIs] at hj
    have hjn : j ≠ new := by
      rintro rfl
      simp [hrnew,storedEntry] at hj
    obtain ⟨k,hk,_⟩ := hrec j hjn
    rw [hk] at hj ⊢
    exact h.free j ((occupied_eq_false h.isOf j).mpr hj)
  · have hjn : j ≠ new := by
      rintro rfl
      rw [hrnew] at hdead
      exact hacc.protocol (hcproto.symm.trans hdead)
    obtain ⟨k,hk,hk'⟩ := hrec j hjn
    rw [occupied_iff hIs,hk,← occupied_iff h.isOf] at hj
    rw [hk] at hdead
    obtain ⟨hb,hn0⟩ := h.dead j hj hdead
    rw [nextIndex_eq hIs,hk,hbase]
    rw [nextIndex_eq h.isOf] at hk' hn0
    exact ⟨hb,hk'.resolve_right hn0 ▸ hn0⟩

/-- An insertion the entry interface rejects leaves the copied client data behind. -/
theorem addEntry_unknown (h : CtInv t own) (hr : ¬ KnownDirection rule)
    (hnew : t.targetSlot (ctSlot t rule) = some new) :
    ∃ ret, ret ≠ 0 ∧ ipaTableAddEntry t rule (ctSlot t rule) [] =
      (t.setRec new (tableEntryCopyFromUser (t.recs new) rule).1,ret,[],ctSlot t rule) := by
  obtain ⟨ret,hret,hins⟩ := headInsert_unknown hr (t.recs new)
  have hiface : t.entryInterface.entryHeadInsert = tableEntryHeadInsert := by
    rw [h.isOf.iface]
    rfl
  have hmeta : t.hasMeta = false := h.isOf.hasMeta
  refine ⟨ret,hret,?_⟩
  unfold Table.targetSlot at hnew
  split_ifs at hnew with hocc
  · obtain rfl := Option.some.inj hnew
    simp [ipaTableAddEntry,hocc,insertHead,hiface,hins,hret]
  · rw [Bool.not_eq_false] at hocc
    obtain ⟨last,hend,_⟩ := ipaTableIteratorEnd_chain h.chain.chained h.chain.occ_lt hocc
    simp [ipaTableAddEntry,hocc,insertTail,hend,hnew,tailInsertEntry,hmeta,hiface,hins,hret]

/-- A rule that is not accepted fails, and the chains stay as they were. -/
theorem addRule_rejected (h : CtInv t own) (hacc : ¬ Accepts t rule ioctl) :
    ∃ t' ret, addRule t rule ioctl = (t',ret,0) ∧ ret ≠ 0 ∧ CtInv t' own := by
  unfold addRule
  by_cases hproto : rule.protocol = invalidProtoFieldCmp
  · simp only [hproto,if_true]
    exact ⟨_,_,rfl,by decide,h⟩
  rw [if_neg hproto]
  have hslot := ctSlot_bounds h.isOf rule
  cases hnew : t.targetSlot (ctSlot t rule) with
  | none =>
    have hadd := addEntry_full rule [] h.chain hnew
    unfold ctSlot at hadd
    simp only [hadd]
    exact ⟨_,_,rfl,by decide,h⟩
  | some new =>
    obtain ⟨hfree,_,_⟩ := IpaNat.target_free h.isOf hslot hnew
    have hen := (occupied_eq_false h.isOf new).mp hfree
    have hnext : (t.recs new).nextIndex = 0 := by
      rw [← nextIndex_eq h.isOf]
      exact h.chain.free_next new hfree
    by_cases hdir : KnownDirection rule
    · obtain ⟨t₁,cmds,hp,hadd⟩ := addEntry_pending ctKind_lawful h.isOf h.chain hslot.2 hnew
        (insertable hdir _)
      have hioctl : ioctl = false := by
        rw [Bool.eq_false_iff]
        exact fun hi => hacc ⟨hproto,hdir,by simp [hnew],hi⟩
      have hadd' := hadd []
      unfold ctSlot at hadd'
      simp only [hadd',ne_eq,not_true_eq_false,if_false,postDmaCmd,hioctl,Bool.false_eq_true]
      refine ⟨_,_,rfl,by decide,?_⟩
      obtain ⟨m,hm,hmeta⟩ := hp.erase
      have hm' : m = t.metaPrev := by
        rcases hmeta with hm' | ⟨_,_,_,hm'⟩
        · exact hm'
        · exact hm'
      rw [hm,hm']
      exact h.touch hen.symm hnext.symm (h.free new hfree).symm fun hocc => by
        simp [hfree] at hocc
    · obtain ⟨ret,hret,hadd⟩ := addEntry_unknown h hdir hnew
      unfold ctSlot at hadd
      simp only [hadd,hret,ne_eq,not_false_eq_true,if_true]
      obtain ⟨h1,h2,h3,_⟩ := copyFromUser_fields (t.recs new) rule
      exact ⟨_,_,rfl,hret,h.touch h3 h1 h2 fun hocc => by simp [hfree] at hocc⟩

end Adding

section Deleting

variable {i : ℕ}

/-- The previous rule on the chain is a dead head. -/
def prevDead (t : CtTable) (i : ℕ) : Bool :=
  decide (t.prevIndex i ≠ 0 ∧ (t.recs (t.prevIndex i)).protocol = invalidProtoFieldCmp)

/-- `ipa_ipv6ct_del_rule` on a live rule deletes its entry. -/
theorem delRule_deleted (h : CtInv t own) (hi : t.occupied i = true) :
    ∃ t', delRule t (makeEntryHdl t i) true = (t',0) ∧
      Deleted ctKind t (prevDead t i) i t' := by
  have hlt := h.chain.occ_lt i hi
  rw [h.isOf.tot] at hlt
  have hbreak := breakRuleHdl_makeEntryHdl h.isOf.sizes hlt
  have hget : ipaTableGetEntry t (makeEntryHdl t i) = some i := by
    unfold ipaTableGetEntry
    rw [hbreak,h.isOf.tot,if_neg (by omega)]
  have hne : makeEntryHdl t i ≠ invalidEntry := by
    intro he
    rw [he] at hbreak
    have hi0 : i = 0 := by simpa [breakRuleHdl,invalidEntry] using hbreak.symm
    exact h.chain.ne_zero hi hi0
  -- the command leaves the protocol of the previous record as it was
  have hempty : isPrevEmpty (t.applyDma ctKind (t.deleteCmd ctKind i)) (t.iteratorAt i) =
      prevDead t i := by
    by_cases hp : t.prevIndex i = 0
    · simp [isPrevEmpty,Table.iteratorAt,hp,prevDead]
    · have hcmd : t.deleteCmd ctKind i = ctKind.cmd t.tableEntries .updateEntry
          (t.prevIndex i) (BitVec.ofNat 16 (t.nextIndex i)) := by
        simp [Table.deleteCmd,hp]
      rw [hcmd,Table.applyDma_cmd ctKind_lawful rfl]
      simp only [isPrevEmpty,Table.iteratorAt,link_of_ne_zero hp,Table.setRec_recs,
        Function.update_self,prevDead,ne_eq,hp,not_false_eq_true,true_and]
      rfl
  have hdel := deleteEntry_deleted ctKind_lawful h.isOf h.chain hi (prevDead t i)
  refine ⟨_,?_,hdel⟩
  unfold delRule
  simp only [hne,if_false,hget,ipaTableIteratorInit_eq h.chain hi,
    createDeleteCommand_eq h.isOf h.chain hi,List.nil_append,postDmaCmd,if_true,applyDma_eq,
    List.foldl_cons,List.foldl_nil,hempty]
  split <;> rfl

/-- A deletion frees or marks its own record and relinks the others; the last entry behind a
dead head takes the head with it. -/
theorem ctInv_of_deleted (hd : Deleted ctKind t (prevDead t i) i t') (h : CtInv t own)
    (hi : t.occupied i = true) : CtInv t' own := by
  obtain ⟨hIs,hbase,_,_⟩ := h.isOf.deleted hd
  have hen : (t.recs i).enable ≠ 0 := (occupied_iff h.isOf i).mp hi
  have hchain : t'.Inv own := by
    refine hd.inv ctKind_lawful h.isOf h.chain hi (fun _ _ => decide_eq_true hen)
      (fun he => ?_)
    obtain ⟨hp0,hpd⟩ := of_decide_eq_true he
    exact (h.dead _ (h.chain.prev_occ hi hp0).1 hpd).1
  -- the other records keep their fields, but for the links of occupied ones
  have hrec : ∀ j, j ≠ i → t'.recs j = zeroEntry ∨ (t'.recs j).enable = (t.recs j).enable ∧
      (t'.recs j).protocol = (t.recs j).protocol ∧
      ((t'.recs j).prevIndex = (t.recs j).prevIndex ∨ t.occupied j = true) ∧
      ((t'.recs j).nextIndex = (t.recs j).nextIndex ∨ (t'.recs j).nextIndex ≠ 0 ∨
        (t.recs j).protocol ≠ invalidProtoFieldCmp) := by
    intro j hj
    cases hd with
    | lone hp hn => simp [hj]
    | marked hp hn => simp [hj]
    | @middle p n hp hp0 hn hn0 =>
      obtain ⟨hno,_,_,_,_⟩ := h.chain.next_occ hi (by rwa [hn])
      rw [hn] at hno
      have hn16 := toNat_ofNat_of_lt h.isOf (h.chain.occ_lt n hno)
      right
      by_cases hjn : j = n
      · subst hjn
        simp [hj,hno,ctKind,entryInterface]
      · by_cases hjp : j = p
        · subst hjp
          rw [Table.setRec_recs,Function.update_of_ne hj,Table.setRec_recs,
            Function.update_of_ne hjn,Table.setRec_recs,Function.update_self]
          refine ⟨rfl,rfl,Or.inl rfl,Or.inr (Or.inl ?_)⟩
          change (BitVec.ofNat 16 n).toNat ≠ 0
          rwa [hn16]
        · simp [hj,hjn,hjp]
    | @last p he hp hp0 hn =>
      right
      by_cases hjp : j = p
      · subst hjp
        rw [Table.setRec_recs,Function.update_of_ne hj,Table.setRec_recs,Function.update_self]
        refine ⟨rfl,rfl,Or.inl rfl,Or.inr (Or.inr fun hdead => ?_)⟩
        have hpd := of_decide_eq_false he
        rw [hp] at hpd
        exact hpd ⟨hp0,hdead⟩
      · simp [hj,hjp]
    | @lastDead p he hp hp0 hn =>
      by_cases hjp : j = p
      · subst hjp
        left
        rw [Table.setRec_recs,Function.update_of_ne hj,Table.setRec_recs,Function.update_self]
        rfl
      · simp [hj,hjp]
  have hself : t'.recs i = zeroEntry ∨
      t.prevIndex i = 0 ∧ t.nextIndex i ≠ 0 ∧ (t'.recs i).enable = (t.recs i).enable ∧
        (t'.recs i).nextIndex = (t.recs i).nextIndex := by
    cases hd with
    | marked hp hn =>
      right
      rw [Table.setRec_recs,Function.update_self]
      exact ⟨hp,hn,rfl,rfl⟩
    | _ =>
      left
      rw [Table.setRec_recs,Function.update_self]
      rfl
  refine ⟨hIs,hchain,fun j hj => ?_,fun j hj hdead => ?_⟩
  · rw [occupied_eq_false hIs] at hj
    by_cases hji : j = i
    · subst hji
      rcases hself with hz | ⟨_,_,he,_⟩
      · rw [hz]
        rfl
      · exact absurd (he.symm.trans hj) hen
    · rcases hrec j hji with hz | ⟨he,_,hp,_⟩
      · rw [hz]
        rfl
      · have hfree := (occupied_eq_false h.isOf j).mpr (he.symm.trans hj)
        rw [hp.resolve_right (by simp [hfree])]
        exact h.free j hfree
  · rw [occupied_iff hIs] at hj
    rw [nextIndex_eq hIs,hbase]
    by_cases hji : j = i
    · subst hji
      rcases hself with hz | ⟨hp,hn,_,hn'⟩
      · rw [hz] at hj
        exact absurd rfl hj
      · rw [hn',← nextIndex_eq h.isOf]
        exact ⟨(h.chain.prev_eq_zero_iff hi).mp hp,hn⟩
    · rcases hrec j hji with hz | ⟨he,hproto,_,hn⟩
      · rw [hz] at hj
        exact absurd rfl hj
      · rw [hproto] at hdead
        obtain ⟨hb,hn0⟩ := h.dead j ((occupied_iff h.isOf j).mpr (he ▸ hj)) hdead
        rw [nextIndex_eq h.isOf] at hn0
        refine ⟨hb,?_⟩
        rcases hn with hn | hn | hn
        · rwa [hn]
        · exact hn
        · exact absurd hdead hn

end Deleting

/-- An IPv6CT table in use. The history variable `base` records, for the rule in each slot,
the base slot its hash selected when it was inserted. -/
structure CtRun where
  tbl : CtTable
  base : ℕ → ℕ

inductive CtOp
  | add (rule : Ipv6ctRule)
  | del (hdl : ℕ)
  | hardware (i : ℕ) (timeStamp : BitVec 24) (redirect : BitVec 1)

namespace CtRun

/-- Every posted command is applied, so no ioctl fails. -/
def step (s : CtRun) : CtOp → CtRun
  | .add rule =>
    match addRule s.tbl rule true with
    | (tbl,ret,hdl) =>
      if ret = 0 then
        ⟨tbl,Function.update s.base (breakRuleHdl s.tbl hdl) (ctSlot s.tbl rule)⟩
      else { s with tbl := tbl }
  | .del hdl => { s with tbl := (delRule s.tbl hdl true).1 }
  | .hardware i timeStamp redirect =>
    { s with tbl := hardwareTouch s.tbl i timeStamp redirect }

/-- The handle of a rule that is currently live. -/
def LiveHandle (t : CtTable) (hdl : ℕ) : Prop :=
  ∃ i < t.totTblEnts, Live t i ∧ hdl = makeEntryHdl t i

instance (t : CtTable) (hdl : ℕ) : Decidable (LiveHandle t hdl) :=
  inferInstanceAs (Decidable (∃ i < t.totTblEnts, _))

/-- Deletes are called with handles of live rules only. -/
def Legal (s : CtRun) : CtOp → Prop
  | .del hdl => LiveHandle s.tbl hdl
  | _ => True

instance (s : CtRun) (op : CtOp) : Decidable (s.Legal op) :=
  match op with
  | .del hdl => inferInstanceAs (Decidable (LiveHandle s.tbl hdl))
  | .add _ => isTrue trivial
  | .hardware _ _ _ => isTrue trivial

/-- The run invariant -/
def Inv (s : CtRun) : Prop := CtInv s.tbl s.base

theorem step_inv {s : CtRun} {op : CtOp} (h : s.Inv) (hop : s.Legal op) : (s.step op).Inv := by
  unfold Inv at h ⊢
  cases op with
  | add rule =>
    by_cases hacc : Accepts s.tbl rule true
    · obtain ⟨new,hnew⟩ := Option.ne_none_iff_exists'.mp hacc.target
      obtain ⟨t',hadd,hlt,hinv⟩ := addRule_accepted h hacc hnew
      have hbreak : breakRuleHdl s.tbl (makeEntryHdl s.tbl new) = new :=
        breakRuleHdl_makeEntryHdl h.isOf.sizes (by rw [← h.isOf.tot]; exact hlt)
      simp only [step,hadd,if_true,hbreak]
      exact hinv
    · obtain ⟨t',ret,hadd,hret,hinv⟩ := addRule_rejected h hacc
      simp only [step,hadd,if_neg hret]
      exact hinv
  | del hdl =>
    obtain ⟨i,_,hi,rfl⟩ := hop
    have hocc := (occupied_iff h.isOf i).mpr hi.1
    obtain ⟨t',hdel,hd⟩ := delRule_deleted h hocc
    simp only [step,hdel]
    exact ctInv_of_deleted hd h hocc
  | hardware i ts redirect =>
    simp only [step,hardwareTouch]
    split
    · exact h.touch rfl rfl rfl fun _ => rfl
    · exact h

/-- A table as `ipa_ipv6ct_add_tbl` creates it. -/
def fresh (t : CtTable) : CtRun := ⟨t,fun _ => 0⟩

/-- The chain invariant of an IPv6CT table in use. -/
def Chains (s : CtRun) : Prop :=
  ChainInvariant s.tbl (fun e => e.protocol = invalidProtoFieldCmp) s.base

theorem Inv.chains {s : CtRun} (h : s.Inv) : s.Chains :=
  h.chain.chainInvariant h.dead fun _ _ _ => rfl

end CtRun

section Sample

/-- A UDP rule between zero addresses: its hash depends on the source port alone. -/
def udpRule (srcPort : BitVec 16) : Ipv6ctRule where
  srcIpv6Lsb := 0
  srcIpv6Msb := 0
  destIpv6Lsb := 0
  destIpv6Msb := 0
  directionSettings := .allowOut
  ucp := false
  s := false
  ucActivationIndex := 0
  srcPort := srcPort
  destPort := 0
  protocol := 17

/-- The table `ipa_ipv6ct_create_table` makes for four entries: four base slots and two
expansion slots. -/
def smallTable : CtTable :=
  { nmi := .ddr, tableEntries := 4, expnTableEntries := 2, totTblEnts := 6,
    recs := fun _ => zeroEntry, curTblCnt := 0, curExpnTblCnt := 0,
    entryInterface := entryInterface, dmaHelp := dmaHelp 0, hasMeta := false,
    metaPrev := fun _ => 0 }

theorem createTable_small : createTable 4 = some smallTable := rfl

end Sample

end IpaIpv6ct

open IpaNat (NatRun NatOp) in
open IpaIpv6ct (CtRun CtOp) in
/-- In every state that runs of adds and of deletes of live entries reach, the IPv4 NAT table,
its index table and the IPv6CT table have the chain invariant. -/
theorem chains_always {nmi : IpaTable.MemIn} {num num' : ℕ} {n : IpaNat.NatTable}
    {c : IpaIpv6ct.CtTable} (hn : IpaNat.createTable nmi num = some n)
    (hc : IpaIpv6ct.createTable num' = some c) (g : IpaNat.Globals) (ops : List NatOp)
    (ctOps : List CtOp) (hops : Runs.Guarded NatRun.step NatRun.Legal (NatRun.fresh n g) ops)
    (hctOps : Runs.Guarded CtRun.step CtRun.Legal (CtRun.fresh c) ctOps) :
    Runs.Always NatRun.step NatRun.Chains (NatRun.fresh n g) ops ∧
      Runs.Always CtRun.step CtRun.Chains (CtRun.fresh c) ctOps := by
  constructor
  · exact Runs.guarded_always (fun _ hs => hs.chains) (fun _ _ => NatRun.step_inv)
      (NatRun.fresh_inv hn g) ops hops
  · exact Runs.guarded_always (fun _ hs => hs.chains) (fun _ _ => CtRun.step_inv)
      (show (CtRun.fresh c).Inv from IpaIpv6ct.createTable_inv hc _) ctOps hctOps

open IpaNat (NatRun) in
open IpaIpv6ct (CtRun) in
/-- In both tables two rules share a chain and its head is deleted, in the IPv6CT table the
last of them too. -/
theorem chains_small :
    Runs.Always NatRun.step NatRun.Chains (NatRun.fresh (NatRun.smallTable .ddr) NatRun.onePdn)
        [.add (NatRun.udpRule 0),.add (NatRun.udpRule 4),.del 2,.add (NatRun.udpRule 8)] ∧
      Runs.Always CtRun.step CtRun.Chains (CtRun.fresh IpaIpv6ct.smallTable)
        [.add (IpaIpv6ct.udpRule 0),.add (IpaIpv6ct.udpRule 4),.del 2,.del 1] :=
  chains_always NatRun.createTable_small IpaIpv6ct.createTable_small NatRun.onePdn _ _
    (by decide) (by decide)

end MarbleModules
