import MarbleModules.IpaTableInvariant
import MarbleModules.IpaNat

/-! The invariant of the IPv4 NAT table and its index table: both are chained, and the
live rules and the occupied index records point at each other. What adding, deleting and
clearing do to the two tables is stated once, for every later result to use. -/
namespace MarbleModules
namespace IpaNat

open IpaTable

section Kinds

def natKind : Kind NatRule UserRule where
  iface := entryInterface
  hasMeta := false
  baseType := .natBaseTbl
  expnType := .natExpnTbl
  offset help := (natDmaHelp 0 help).offset

def indexKind : Kind IndxRule ℕ where
  iface := indexEntryInterface
  hasMeta := true
  baseType := .natIndxTbl
  expnType := .natIndexExpnTbl
  offset help := (indexDmaHelp 0 help).offset

theorem natKind_lawful : natKind.Lawful where
  types := by decide
  offset_lt := by intro help; cases help <;> decide
  valid_zero := rfl
  next_zero := rfl
  prev_zero := fun _ _ _ _ => rfl
  valid_update := fun _ _ => rfl
  next_update := fun _ _ => rfl
  prev_update := fun _ _ _ _ _ => rfl
  next_delete := fun _ _ => rfl
  prev_delete := fun _ _ _ _ _ => rfl
  valid_setPrev := fun _ _ _ _ _ => rfl
  next_setPrev := fun _ _ _ _ _ => rfl
  prev_setPrev := fun _ _ _ _ _ _ => rfl
  meta_setPrev := fun _ _ _ _ _ _ => rfl
  prev_setPrev_other := fun _ _ _ _ _ _ _ _ _ => rfl

theorem indexKind_lawful : indexKind.Lawful where
  types := by decide
  offset_lt := by intro help; cases help <;> decide
  valid_zero := rfl
  next_zero := rfl
  prev_zero := by
    intro i m b hi
    simp [indexKind,indexEntryInterface,Nat.not_le.mpr hi]
  valid_update := fun _ _ => rfl
  next_update := fun _ _ => rfl
  prev_update := fun _ _ _ _ _ => rfl
  next_delete := fun _ _ => rfl
  prev_delete := fun _ _ _ _ _ => rfl
  valid_setPrev := fun _ _ _ _ _ => rfl
  next_setPrev := fun _ _ _ _ _ => rfl
  prev_setPrev := by
    intro r i p m b hi
    simp [indexKind,indexEntryInterface,hi]
  meta_setPrev := fun _ _ _ _ _ _ => rfl
  prev_setPrev_other := by
    intro r r' i j p m b hi hj
    simp only [indexKind,indexEntryInterface,hi,if_true]
    split
    · next hb => rw [Function.update_of_ne (by omega)]
    · rfl

/-- The hardware's write is one write to each table, of which at most one has an effect. -/
theorem applyDma_eq (n : NatTable) (d : DmaOne) :
    applyDma n d = ⟨n.table.applyDma natKind d,n.indexTable.applyDma indexKind d⟩ := by
  unfold applyDma Table.applyDma natKind indexKind
  cases d.baseAddr <;> simp

theorem foldl_applyDma (cmds : List DmaOne) (n : NatTable) :
    cmds.foldl applyDma n =
      ⟨cmds.foldl (Table.applyDma natKind) n.table,
        cmds.foldl (Table.applyDma indexKind) n.indexTable⟩ := by
  induction cmds generalizing n with
  | nil => rfl
  | cons d cmds ih => rw [List.foldl_cons,ih,applyDma_eq,List.foldl_cons,List.foldl_cons]

/-- Commands addressed to one table leave the other alone. -/
theorem foldl_applyDma_of_own {R R' U U' : Type} [RecordLayout R] {K : Kind R U}
    {K' : Kind R' U'} (t : Table R U) {cmds : List DmaOne}
    (hcmds : ∀ d ∈ cmds, d.baseAddr = K'.baseType ∨ d.baseAddr = K'.expnType)
    (hne : K'.baseType ≠ K.baseType ∧ K'.baseType ≠ K.expnType ∧ K'.expnType ≠ K.baseType ∧
      K'.expnType ≠ K.expnType) :
    cmds.foldl (Table.applyDma K) t = t := by
  induction cmds generalizing t with
  | nil => rfl
  | cons d cmds ih =>
    obtain ⟨h1,h2,h3,h4⟩ := hne
    have hd : t.applyDma K d = t := by
      rcases hcmds d (by simp) with hd | hd
      · exact t.applyDma_of_ne (hd ▸ h1) (hd ▸ h2)
      · exact t.applyDma_of_ne (hd ▸ h3) (hd ▸ h4)
    rw [List.foldl_cons,hd]
    exact ih t fun d hd => hcmds d (by simp [hd])

end Kinds

namespace NatTable

/-- A rule that is enabled and not a dead head. -/
def Live (n : NatTable) (i : ℕ) : Prop :=
  (n.table.recs i).enable ≠ 0 ∧ (n.table.recs i).protocol ≠ invalidProtocol

instance (n : NatTable) (i : ℕ) : Decidable (n.Live i) :=
  inferInstanceAs (Decidable (_ ∧ _))

/-- The invariant of an IPv4 NAT table. `own` and `iown` name the base slot of each slot. -/
structure Inv (n : NatTable) (own iown : ℕ → ℕ) : Prop where
  nat : n.table.IsOf natKind
  indx : n.indexTable.IsOf indexKind
  base_eq : n.indexTable.tableEntries = n.table.tableEntries
  expn_eq : n.indexTable.expnTableEntries = n.table.expnTableEntries
  natChain : n.table.Inv own
  indxChain : n.indexTable.Inv iown
  free : ∀ i, n.table.occupied i = false → n.table.recs i = zeroRule
  dead : ∀ i, n.table.occupied i = true → (n.table.recs i).protocol = invalidProtocol →
    i < n.table.tableEntries ∧ n.table.nextIndex i ≠ 0
  xref : ∀ i, n.Live i → n.indexTable.occupied (n.table.recs i).indxTblEntry = true ∧
    (n.indexTable.recs (n.table.recs i).indxTblEntry).tblEntry = i
  back : ∀ x, n.indexTable.occupied x = true → n.Live (n.indexTable.recs x).tblEntry ∧
    (n.table.recs (n.indexTable.recs x).tblEntry).indxTblEntry = x

variable {n : NatTable} {own iown : ℕ → ℕ}

theorem Inv.occupied_iff (h : n.Inv own iown) (i : ℕ) :
    n.table.occupied i = true ↔ (n.table.recs i).enable ≠ 0 := by
  simp [Table.occupied,h.nat.iface,natKind,entryInterface]

theorem Inv.index_occupied_iff (h : n.Inv own iown) (x : ℕ) :
    n.indexTable.occupied x = true ↔ (n.indexTable.recs x).tblEntry ≠ 0 := by
  simp [Table.occupied,h.indx.iface,indexKind,indexEntryInterface]

theorem Inv.occupied_of_live (h : n.Inv own iown) {i : ℕ} (hi : n.Live i) :
    n.table.occupied i = true := (h.occupied_iff i).mpr hi.1

theorem Inv.index_free (h : n.Inv own iown) {x : ℕ} (hx : n.indexTable.occupied x = false) :
    n.indexTable.recs x = ⟨0,0⟩ := by
  have hnext := h.indxChain.free_next x hx
  rw [Bool.eq_false_iff,ne_eq,h.index_occupied_iff,not_not] at hx
  simp only [Table.nextIndex,h.indx.iface,indexKind,indexEntryInterface] at hnext
  rcases hr : n.indexTable.recs x with ⟨entry,next⟩
  rw [hr] at hx hnext
  rw [show entry = 0 from hx,show next = 0 from hnext]

theorem Inv.next_eq (h : n.Inv own iown) (i : ℕ) :
    n.table.nextIndex i = (n.table.recs i).nextIndex := by
  simp [Table.nextIndex,h.nat.iface,natKind,entryInterface]

theorem Inv.index_next_eq (h : n.Inv own iown) (x : ℕ) :
    n.indexTable.nextIndex x = (n.indexTable.recs x).nextIndex := by
  simp [Table.nextIndex,h.indx.iface,indexKind,indexEntryInterface]

/-- A pair of tables without records satisfies the invariant. -/
theorem inv_of_zero (hnat : n.table.IsOf natKind) (hindx : n.indexTable.IsOf indexKind)
    (hbase : n.indexTable.tableEntries = n.table.tableEntries)
    (hexpn : n.indexTable.expnTableEntries = n.table.expnTableEntries)
    (hrecs : n.table.recs = fun _ => zeroRule) (hirecs : n.indexTable.recs = fun _ => ⟨0,0⟩)
    (hcnt : n.table.curTblCnt = 0 ∧ n.table.curExpnTblCnt = 0)
    (hicnt : n.indexTable.curTblCnt = 0 ∧ n.indexTable.curExpnTblCnt = 0) :
    n.Inv own iown := by
  have hocc : n.table.occupied = fun _ => false := by
    funext i
    simp [Table.occupied,hnat.iface,natKind,entryInterface,hrecs,zeroRule]
  have hiocc : n.indexTable.occupied = fun _ => false := by
    funext i
    simp [Table.occupied,hindx.iface,indexKind,indexEntryInterface,hirecs]
  have hnext : n.table.nextIndex = fun _ => 0 := by
    funext i
    simp [Table.nextIndex,hnat.iface,natKind,entryInterface,hrecs,zeroRule]
  have hinext : n.indexTable.nextIndex = fun _ => 0 := by
    funext i
    simp [Table.nextIndex,hindx.iface,indexKind,indexEntryInterface,hirecs]
  refine ⟨hnat,hindx,hbase,hexpn,?_,?_,fun i _ => by rw [hrecs],?_,?_,?_⟩
  · unfold Table.Inv
    rw [hocc,hnext,hcnt.1,hcnt.2,SlotInv.initial]
    intro i _
    simp [Table.prevIndex,hnat.iface,natKind,entryInterface,hrecs,zeroRule]
  · unfold Table.Inv
    rw [hiocc,hinext,hicnt.1,hicnt.2,SlotInv.initial]
    intro i hi
    simp [Table.prevIndex,hindx.iface,indexKind,indexEntryInterface,hi]
  · intro i hi
    simp [hocc] at hi
  · intro i hi
    simp [Live,hrecs,zeroRule] at hi
  · intro x hx
    simp [hiocc] at hx

end NatTable

/-- A freshly created table satisfies the invariant. -/
theorem createTable_inv {nmi : MemIn} {num : ℕ} {n : NatTable}
    (h : createTable nmi num = some n) (own iown : ℕ → ℕ) : n.Inv own iown := by
  unfold createTable at h
  obtain ⟨sizes,hsizes,rfl⟩ := Option.map_eq_some_iff.mp h
  have hs := calculateEntriesNum_sizes hsizes
  have hhelp : natDmaHelp 0 =
      fun help => ⟨natKind.offset help,natKind.baseType,natKind.expnType,0⟩ := by
    funext help
    cases help <;> rfl
  have hihelp : indexDmaHelp 0 =
      fun help => ⟨indexKind.offset help,indexKind.baseType,indexKind.expnType,0⟩ := by
    funext help
    cases help <;> rfl
  exact NatTable.inv_of_zero ⟨hs,rfl,rfl,rfl,hhelp⟩ ⟨hs,rfl,rfl,rfl,hihelp⟩ rfl rfl rfl rfl
    ⟨rfl,rfl⟩ ⟨rfl,rfl⟩

theorem createTable_not_live {nmi : MemIn} {num : ℕ} {n : NatTable}
    (h : createTable nmi num = some n) (i : ℕ) : ¬ n.Live i := by
  unfold createTable at h
  obtain ⟨sizes,_,rfl⟩ := Option.map_eq_some_iff.mp h
  exact fun hl => hl.1 rfl

theorem createTable_nmi {nmi : MemIn} {num : ℕ} {n : NatTable}
    (h : createTable nmi num = some n) : n.table.nmi = nmi := by
  unfold createTable at h
  obtain ⟨sizes,_,rfl⟩ := Option.map_eq_some_iff.mp h
  rfl

/-- Clearing a table establishes the invariant anew. -/
theorem clearIpv4Tbl_inv {n : NatTable} {own iown : ℕ → ℕ} (h : n.Inv own iown)
    (own' iown' : ℕ → ℕ) : (clearIpv4Tbl n).Inv own' iown' :=
  NatTable.inv_of_zero ⟨h.nat.sizes,h.nat.tot,h.nat.iface,h.nat.hasMeta,h.nat.dmaHelp⟩
    ⟨h.indx.sizes,h.indx.tot,h.indx.iface,h.indx.hasMeta,h.indx.dmaHelp⟩ h.base_eq h.expn_eq
    rfl rfl ⟨rfl,rfl⟩ ⟨rfl,rfl⟩

section Slots

/-- The fold of a hash into a base table never gives slot 0. -/
theorem fold_bounds {base k : ℕ} (hb : base = 2^(k+1)) (x : ℕ) :
    (if x &&& (base-1) = 0 then base-1 else x &&& (base-1)) ≠ 0 ∧
      (if x &&& (base-1) = 0 then base-1 else x &&& (base-1)) < base := by
  have hpos : 0 < 2^k := by positivity
  have hmod : x &&& (base-1) = x % base := by
    rw [hb]
    exact Nat.and_two_pow_sub_one_eq_mod x (k+1)
  have hlt : x % base < base := Nat.mod_lt _ (by omega)
  rw [pow_succ] at hb
  rw [hmod]
  split <;> omega

theorem natSlot_bounds {base expn : ℕ} (hs : Sizes base expn) (g : Globals) (rule : Ipv4Rule) :
    natSlot g base rule ≠ 0 ∧ natSlot g base rule < base := by
  obtain ⟨k,hk⟩ := hs.pow
  unfold natSlot
  dsimp only
  split
  · exact fold_bounds hk _
  · exact fold_bounds hk _

theorem indexSlot_bounds {base expn : ℕ} (hs : Sizes base expn) (g : Globals)
    (rule : Ipv4Rule) : indexSlot g base rule ≠ 0 ∧ indexSlot g base rule < base := by
  obtain ⟨k,hk⟩ := hs.pow
  unfold indexSlot
  dsimp only
  split
  · exact fold_bounds hk _
  · exact fold_bounds hk _

end Slots

section Adding

/-- The record of a new rule once its DMA commands have been applied. The flags command
carries the enable bit and a zero redirect bit, whatever the CPU wrote before. -/
def storedRule (u : UserRule) (indxTblEntry prevIndex : ℕ) : NatRule :=
  { tableEntryCopyFromUser zeroRule u with
    prevIndex := prevIndex
    indxTblEntry := indxTblEntry
    redirect := 0
    enable := 1
    timeStamp := u.rule.timeStamp.setWidth 24 }

theorem toNat_append_eq {m k : ℕ} (x : BitVec m) (y : BitVec k) :
    (x ++ y).toNat = x.toNat*2^k + y.toNat := by
  rw [BitVec.toNat_append,← Nat.shiftLeft_add_eq_or_of_lt y.isLt,Nat.shiftLeft_eq]

theorem natFlags_toNat (enable redirect s : BitVec 1) (uc : BitVec 13) :
    (natFlags enable redirect s uc).toNat =
      enable.toNat*32768 + redirect.toNat*16384 + s.toNat*8192 + uc.toNat := by
  have h : (natFlags enable redirect s uc).toNat = (enable ++ redirect ++ s ++ uc).toNat := rfl
  rw [h,toNat_append_eq,toNat_append_eq,toNat_append_eq]
  ring

theorem natFlags_fields (enable redirect s : BitVec 1) (uc : BitVec 13) :
    (natFlags enable redirect s uc).extractLsb' 0 13 = uc ∧
      (natFlags enable redirect s uc).extractLsb' 13 1 = s ∧
      (natFlags enable redirect s uc).extractLsb' 14 1 = redirect ∧
      (natFlags enable redirect s uc).extractLsb' 15 1 = enable := by
  have htoNat := natFlags_toNat enable redirect s uc
  have h1 := enable.isLt
  have h2 := redirect.isLt
  have h3 := s.isLt
  have h4 := uc.isLt
  refine ⟨?_,?_,?_,?_⟩ <;> apply BitVec.eq_of_toNat_eq <;>
    rw [BitVec.extractLsb'_toNat,Nat.shiftRight_eq_div_pow,htoNat] <;> omega

/-- Writing the flags half-word sets the four flag fields. -/
theorem writeRule_flags (r : NatRule) (enable redirect s : BitVec 1) (uc : BitVec 13) :
    writeRule r ruleFlagFieldOffset (natFlags enable redirect s uc) =
      { r with ucActivationIndex := uc, s := s, redirect := redirect, enable := enable } := by
  obtain ⟨h1,h2,h3,h4⟩ := natFlags_fields enable redirect s uc
  simp [writeRule,ruleFlagFieldOffset,ruleNextFieldOffset,h1,h2,h3,h4]

/-- The writes of `ipa_NATI_add_ipv4_rule` to the new record before it posts the commands. -/
def cpuWrites (rule : Ipv4Rule) (indxTblEntry : ℕ) (r : NatRule) : NatRule :=
  { r with
    indxTblEntry := indxTblEntry
    redirect := rule.redirect.setWidth 1
    enable := rule.enable.setWidth 1
    timeStamp := rule.timeStamp.setWidth 24 }

theorem nat_insertion (u : UserRule) (idx : ℕ) :
    Insertion natKind zeroRule u (cpuWrites u.rule idx) (storedRule u idx) where
  head := writeRule_flags _ _ _ _ _
  tail := fun _ _ _ _ _ => writeRule_flags _ _ _ _ _
  tailMeta := fun h => by cases h

theorem index_insertion (entry : ℕ) (hentry : entry < 65536) :
    Insertion indexKind ⟨0,0⟩ entry id (fun _ => ⟨entry,0⟩) where
  head := by
    have hmod : entry % 65536 = entry := Nat.mod_eq_of_lt hentry
    simp [indexKind,indexEntryInterface,RecordLayout.write16,writeIndxRule,indexDmaHelp,
      indexRuleNatIndexFieldOffset,hmod]
  tail := fun h => by cases h
  tailMeta := fun _ _ _ _ _ => rfl

/-- The effect on both tables of adding a rule: it is stored in NAT slot `new` and index
slot `idx`, hashed to the base slots `slot` and `islot`. -/
structure Added (n n' : NatTable) (u : UserRule) (slot islot new idx : ℕ) : Prop where
  slot_lt : slot ≠ 0 ∧ slot < n.table.tableEntries
  islot_lt : islot ≠ 0 ∧ islot < n.indexTable.tableEntries
  protocol : u.rule.protocol ≠ invalidProtocol
  nat : Stored natKind n.table (storedRule u idx) slot new n'.table
  indx : Stored indexKind n.indexTable (fun _ => ⟨new,0⟩) islot idx n'.indexTable

variable {n n' : NatTable} {own iown : ℕ → ℕ} {u : UserRule} {slot islot new idx : ℕ}

/-- Adding a rule writes the new record and changes only the next index of any other. -/
theorem Added.recs (ha : Added n n' u slot islot new idx) (h : n.Inv own iown) :
    (∃ p, n'.table.recs new = storedRule u idx p) ∧
      ∀ j, j ≠ new → ∃ k, n'.table.recs j = { n.table.recs j with nextIndex := k } ∧
        (k = n.table.nextIndex j ∨ n.table.nextIndex j = 0) := by
  obtain ⟨hnew,hold⟩ := ha.nat.recs h.nat h.natChain
  refine ⟨hnew,fun j hj => ?_⟩
  rcases hold j hj with hj' | ⟨h0,d,hj'⟩
  · exact ⟨(n.table.recs j).nextIndex,hj',Or.inl (h.next_eq j).symm⟩
  · exact ⟨d.toNat,hj',Or.inr h0⟩

theorem Added.index_recs (ha : Added n n' u slot islot new idx) (h : n.Inv own iown) :
    n'.indexTable.recs idx = ⟨new,0⟩ ∧
      ∀ j, j ≠ idx → (n'.indexTable.recs j).tblEntry = (n.indexTable.recs j).tblEntry := by
  obtain ⟨⟨_,hnew⟩,hold⟩ := ha.indx.recs h.indx h.indxChain
  refine ⟨hnew,fun j hj => ?_⟩
  rcases hold j hj with hj' | ⟨_,d,hj'⟩
  · rw [hj']
  · rw [hj']
    rfl

theorem Added.live_iff (ha : Added n n' u slot islot new idx) (h : n.Inv own iown) (j : ℕ) :
    n'.Live j ↔ j = new ∨ n.Live j := by
  obtain ⟨⟨p,hnew⟩,hold⟩ := ha.recs h
  by_cases hj : j = new
  · subst hj
    have hp := ha.protocol
    simp [NatTable.Live,hnew,storedRule,tableEntryCopyFromUser,hp]
  · obtain ⟨k,hk,_⟩ := hold j hj
    simp [NatTable.Live,hk,hj]

/-- Adding a rule keeps the invariant; the new slots belong to the hashed base slots. -/
theorem Added.inv (ha : Added n n' u slot islot new idx) (h : n.Inv own iown) :
    n'.Inv (Function.update own new slot) (Function.update iown idx islot) := by
  obtain ⟨hnat,hbase,hexpn,_⟩ := h.nat.stored ha.nat
  obtain ⟨hindx,hibase,hiexpn,_⟩ := h.indx.stored ha.indx
  obtain ⟨hfree,hnew0,_⟩ := ha.nat.free h.nat ha.slot_lt.2 ha.slot_lt.1
  obtain ⟨hifree,_⟩ := ha.indx.free h.indx ha.islot_lt.2 ha.islot_lt.1
  obtain ⟨⟨p,hnew⟩,hold⟩ := ha.recs h
  obtain ⟨hinew,hiold⟩ := ha.index_recs h
  have hlive := ha.live_iff h
  have hnotlive : ¬ n.Live new := by
    intro hl
    simp [h.occupied_of_live hl] at hfree
  have hnatChain := ha.nat.inv natKind_lawful h.nat h.natChain ha.slot_lt.2 ha.slot_lt.1
    (fun _ => rfl) (fun _ => rfl) (fun _ => rfl) (fun _ _ _ => rfl)
  have hindxChain := ha.indx.inv indexKind_lawful h.indx h.indxChain ha.islot_lt.2
    ha.islot_lt.1 (fun _ => by simpa [indexKind,indexEntryInterface] using hnew0)
    (fun _ => rfl) (fun _ => by
      simp [indexKind,indexEntryInterface,Nat.not_le.mpr ha.islot_lt.2]) (fun _ _ _ => rfl)
  have hocc : ∀ j, n'.table.occupied j = true ↔ (n'.table.recs j).enable ≠ 0 := by
    intro j
    simp [Table.occupied,hnat.iface,natKind,entryInterface]
  have hiocc : ∀ x, n'.indexTable.occupied x = true ↔
      (n'.indexTable.recs x).tblEntry ≠ 0 := by
    intro x
    simp [Table.occupied,hindx.iface,indexKind,indexEntryInterface]
  have hnext : ∀ j, n'.table.nextIndex j = (n'.table.recs j).nextIndex := by
    intro j
    simp [Table.nextIndex,hnat.iface,natKind,entryInterface]
  refine ⟨hnat,hindx,hibase.trans (h.base_eq.trans hbase.symm),
    hiexpn.trans (h.expn_eq.trans hexpn.symm),hnatChain,hindxChain,?_,?_,?_,?_⟩
  · intro j hj
    have hj' : (n'.table.recs j).enable = 0 := by
      by_contra hne
      rw [(hocc j).mpr hne] at hj
      cases hj
    have hjn : j ≠ new := by
      rintro rfl
      simp [hnew,storedRule] at hj'
    obtain ⟨k,hk,_⟩ := hold j hjn
    have hk0 := hnatChain.free_next j hj
    rw [hnext,hk] at hk0
    have hzero : n.table.recs j = zeroRule := by
      apply h.free
      rw [Bool.eq_false_iff,ne_eq,h.occupied_iff]
      simpa [hk] using hj'
    rw [hk,hzero]
    dsimp only at hk0
    rw [hk0]
    rfl
  · intro j hj hdead
    have hjn : j ≠ new := by
      rintro rfl
      rw [hnew] at hdead
      exact ha.protocol hdead
    obtain ⟨k,hk,hk'⟩ := hold j hjn
    rw [hocc,hk,← h.occupied_iff] at hj
    rw [hk] at hdead
    obtain ⟨hb,hn0⟩ := h.dead j hj hdead
    rw [hbase,hnext,hk]
    exact ⟨hb,hk'.resolve_right hn0 ▸ hn0⟩
  · intro j hj
    by_cases hjn : j = new
    · subst hjn
      have hidx : (n'.table.recs j).indxTblEntry = idx := by rw [hnew]; rfl
      rw [hidx,hiocc,hinew]
      exact ⟨hnew0,rfl⟩
    · have hl := ((hlive j).mp hj).resolve_left hjn
      obtain ⟨k,hk,_⟩ := hold j hjn
      obtain ⟨hx1,hx2⟩ := h.xref j hl
      have hxi : (n.table.recs j).indxTblEntry ≠ idx := by
        intro he
        rw [he,hifree] at hx1
        cases hx1
      have hidx : (n'.table.recs j).indxTblEntry = (n.table.recs j).indxTblEntry := by rw [hk]
      rw [hidx,hiocc,hiold _ hxi,← h.index_occupied_iff]
      exact ⟨hx1,hx2⟩
  · intro x hx
    rw [hiocc] at hx
    by_cases hxi : x = idx
    · subst hxi
      rw [hinew,hnew]
      exact ⟨(hlive new).mpr (Or.inl rfl),rfl⟩
    · rw [hiold x hxi] at hx ⊢
      obtain ⟨hb1,hb2⟩ := h.back x ((h.index_occupied_iff x).mpr hx)
      have hbn : (n.indexTable.recs x).tblEntry ≠ new := fun he => hnotlive (he ▸ hb1)
      obtain ⟨k,hk,_⟩ := hold _ hbn
      rw [hk]
      exact ⟨(hlive _).mpr (Or.inr hb1),hb2⟩

/-- The NAT slot a rule would be stored at. -/
def NatTable.natTarget (n : NatTable) (g : Globals) (rule : Ipv4Rule) : Option ℕ :=
  n.table.targetSlot (natSlot g n.table.tableEntries rule)

/-- The index slot a rule would be stored at. -/
def NatTable.indexTarget (n : NatTable) (g : Globals) (rule : Ipv4Rule) : Option ℕ :=
  n.indexTable.targetSlot (indexSlot (bumpToken g rule.srcOnly) n.table.tableEntries rule)

/-- The conditions under which `ipa_NATI_add_ipv4_rule` stores the rule. -/
structure Accepts (n : NatTable) (g : Globals) (rule : Ipv4Rule) (ioctl : Bool) : Prop where
  protocol : rule.protocol ≠ invalidProtocol
  pdn : ¬ (g.maxPdnNum ≤ rule.pdnIndex.toNat ∨ g.pdns rule.pdnIndex.toNat = 0)
  nat : n.natTarget g rule ≠ none
  indx : n.indexTarget g rule ≠ none
  ioctl : ioctl = true

instance (n : NatTable) (g : Globals) (rule : Ipv4Rule) (ioctl : Bool) :
    Decidable (Accepts n g rule ioctl) :=
  decidable_of_iff (rule.protocol ≠ invalidProtocol ∧
      ¬ (g.maxPdnNum ≤ rule.pdnIndex.toNat ∨ g.pdns rule.pdnIndex.toNat = 0) ∧
      n.natTarget g rule ≠ none ∧ n.indexTarget g rule ≠ none ∧ ioctl = true)
    ⟨fun ⟨h1,h2,h3,h4,h5⟩ => ⟨h1,h2,h3,h4,h5⟩,
      fun h => ⟨h.protocol,h.pdn,h.nat,h.indx,h.ioctl⟩⟩

/-- What the entry interface is given for a rule. -/
def Globals.userRule (g : Globals) (rule : Ipv4Rule) : UserRule :=
  ⟨rule,g.pdns rule.pdnIndex.toNat⟩

variable {g : Globals} {rule : Ipv4Rule} {ioctl : Bool}

theorem natAdd_pending (h : n.Inv own iown) (hnew : n.natTarget g rule = some new) :
    ∃ t₁ cmds, Pending natKind n.table (g.userRule rule)
        (natSlot g n.table.tableEntries rule) new t₁ cmds ∧
      ∀ cmd, ipaTableAddEntry n.table (g.userRule rule) (natSlot g n.table.tableEntries rule)
        cmd = (t₁,0,cmd++cmds,new) :=
  addEntry_pending natKind_lawful h.nat h.natChain (natSlot_bounds h.nat.sizes g rule).2 hnew
    ⟨rfl,rfl⟩

theorem indexAdd_pending (h : n.Inv own iown) (entry : ℕ)
    (hidx : n.indexTarget g rule = some idx) :
    ∃ x₁ cmds, Pending indexKind n.indexTable entry
        (indexSlot (bumpToken g rule.srcOnly) n.table.tableEntries rule) idx x₁ cmds ∧
      ∀ cmd, ipaTableAddEntry n.indexTable entry
        (indexSlot (bumpToken g rule.srcOnly) n.table.tableEntries rule) cmd =
          (x₁,0,cmd++cmds,idx) := by
  have hlt := (indexSlot_bounds h.nat.sizes (bumpToken g rule.srcOnly) rule).2
  exact addEntry_pending indexKind_lawful h.indx h.indxChain (by rw [h.base_eq]; exact hlt) hidx
    ⟨rfl,rfl⟩

theorem target_free {R U : Type} {t : Table R U} {K : Kind R U} (h : t.IsOf K)
    (hslot : slot ≠ 0 ∧ slot < t.tableEntries) (hnew : t.targetSlot slot = some new) :
    t.occupied new = false ∧ new ≠ 0 ∧ new < t.totTblEnts := by
  have hpos := h.sizes.base_pos
  unfold Table.targetSlot at hnew
  rw [h.tot]
  split_ifs at hnew with hocc
  · obtain rfl := Option.some.inj hnew
    exact ⟨hocc,hslot.1,by omega⟩
  · obtain ⟨h1,h2,h3,_⟩ := findExpnTblFreeEntry_some hpos hnew
    exact ⟨h3,by omega,h2⟩

theorem makeEntryHdl_congr {R U : Type} {t t' : Table R U}
    (hbase : t'.tableEntries = t.tableEntries) (hnmi : t'.nmi = t.nmi) (i : ℕ) :
    makeEntryHdl t' i = makeEntryHdl t i := by
  unfold makeEntryHdl
  rw [hbase,hnmi]

/-- A rule that is accepted is stored at its target slots. -/
theorem addIpv4Rule_accepted (h : n.Inv own iown) (hacc : Accepts n g rule ioctl)
    (hnew : n.natTarget g rule = some new) (hidx : n.indexTarget g rule = some idx) :
    ∃ n' g', addIpv4Rule n g rule ioctl = (n',g',0,makeEntryHdl n.table new) ∧
      Added n n' (g.userRule rule) (natSlot g n.table.tableEntries rule)
        (indexSlot (bumpToken g rule.srcOnly) n.table.tableEntries rule) new idx := by
  obtain ⟨t₁,cmds₁,hp₁,hadd₁⟩ := natAdd_pending h hnew
  obtain ⟨x₁,cmds₂,hp₂,hadd₂⟩ := indexAdd_pending h new hidx
  have hslot := natSlot_bounds h.nat.sizes g rule
  have hislot := indexSlot_bounds h.nat.sizes (bumpToken g rule.srcOnly) rule
  obtain ⟨hfree,hnew0,hlt⟩ := target_free h.nat hslot hnew
  obtain ⟨hifree,hidx0,hilt⟩ := target_free h.indx (by rw [h.base_eq]; exact hislot) hidx
  have hget : ipaTableGetEntryByIndex t₁ new = some new := by
    unfold ipaTableGetEntryByIndex
    rw [if_neg]
    rw [hp₁.totTblEnts]
    omega
  have hhdl := makeEntryHdl_congr hp₁.tableEntries hp₁.nmi new
  have hnat := hp₁.complete (cpuWrites rule idx) (storedRule (g.userRule rule) idx)
    (by rw [h.free new hfree]; exact nat_insertion (g.userRule rule) idx)
  have hindx := hp₂.complete id (fun _ => ⟨new,0⟩) (by
    rw [h.index_free hifree]
    exact index_insertion new (h.nat.lt_65536 hlt))
  have hother₁ := foldl_applyDma_of_own (K := indexKind) x₁ hp₁.own (by decide)
  have hother₂ := fun t => foldl_applyDma_of_own (K := natKind) t hp₂.own (by decide)
  rw [id,Table.setRec_self] at hindx
  refine ⟨⟨_,_⟩,bumpToken (bumpToken g rule.srcOnly) rule.dstOnly,?_,
    ⟨hslot,by rw [h.base_eq]; exact hislot,hacc.protocol,hnat,hindx⟩⟩
  unfold addIpv4Rule
  simp only [if_neg hacc.protocol,if_neg hacc.pdn]
  rw [Globals.userRule] at hadd₁
  simp only [hadd₁,hadd₂,ne_eq,not_true_eq_false,if_false,List.nil_append,hget,
    hacc.ioctl,postIpv4DmaCmd,if_true,foldl_applyDma,List.foldl_append,hother₁,hother₂,hhdl]
  rfl

/-- What a failed add leaves: both tables as they were, but for previous indices of free
index slots. -/
structure Unchanged (n n' : NatTable) : Prop where
  table : n'.table = n.table
  indx : ∃ m, n'.indexTable = { n.indexTable with metaPrev := m } ∧
    ∀ x, n.indexTable.occupied x = true ∨ x < n.indexTable.tableEntries →
      n'.indexTable.prevIndex x = n.indexTable.prevIndex x

theorem Unchanged.rfl' (n : NatTable) : Unchanged n n :=
  ⟨rfl,n.indexTable.metaPrev,rfl,fun _ _ => rfl⟩

theorem Unchanged.inv (hu : Unchanged n n') (h : n.Inv own iown) : n'.Inv own iown := by
  rcases n' with ⟨t',x'⟩
  obtain ⟨rfl,m,rfl,hprev⟩ := hu
  refine ⟨h.nat,⟨h.indx.sizes,h.indx.tot,h.indx.iface,h.indx.hasMeta,h.indx.dmaHelp⟩,
    h.base_eq,h.expn_eq,h.natChain,?_,h.free,h.dead,h.xref,h.back⟩
  exact SlotInv.congr h.indxChain (fun _ => rfl) (fun _ => rfl) hprev (fun _ _ => rfl)

theorem natAdd_erase (h : n.Inv own iown) (hfree : n.table.occupied new = false)
    {t₁ : Table NatRule UserRule} {cmds : List DmaOne}
    (hp : Pending natKind n.table u slot new t₁ cmds) :
    ipaTableEraseEntry t₁ new = n.table := by
  obtain ⟨m,hm,hmeta⟩ := hp.erase
  have hm' : m = n.table.metaPrev := by
    rcases hmeta with hm' | ⟨_,_,_,hm'⟩
    · exact hm'
    · exact hm'
  have hzero : RecordLayout.zero = n.table.recs new := (h.free new hfree).symm
  rw [hm,hm',hzero,Table.setRec_self]

theorem indexAdd_erase (h : n.Inv own iown) (hfree : n.indexTable.occupied idx = false)
    {entry : ℕ} {x₁ : Table IndxRule ℕ} {cmds : List DmaOne}
    (hp : Pending indexKind n.indexTable entry islot idx x₁ cmds) :
    Unchanged n ⟨n.table,ipaTableEraseEntry x₁ idx⟩ := by
  obtain ⟨m,hm,hmeta⟩ := hp.erase
  have hzero : RecordLayout.zero = n.indexTable.recs idx := (h.index_free hfree).symm
  rw [hm,hzero,Table.setRec_self]
  refine ⟨rfl,m,rfl,fun x hx => ?_⟩
  rcases hmeta with rfl | ⟨hge,r,p,rfl⟩
  · rfl
  · have hxi : x ≠ idx := by
      rintro rfl
      have hx' := hx.resolve_left (by simp [hfree])
      omega
    simpa [Table.prevIndex,h.indx.iface] using
      indexKind_lawful.prev_setPrev_other r (n.indexTable.recs x) idx x p _ _ hge hxi

theorem eraseEntry_setRec {R U : Type} [RecordLayout R] (t : Table R U) (i : ℕ) (r : R) :
    ipaTableEraseEntry (t.setRec i r) i = ipaTableEraseEntry t i := by
  simp [ipaTableEraseEntry,Table.setRec]

/-- A rule that cannot be stored is refused before any record changes. -/
theorem addIpv4Rule_refused (h : n.Inv own iown) (hacc : ¬Accepts n g rule true) (ioctl : Bool) :
    ∃ g' ret,addIpv4Rule n g rule ioctl = (n,g',ret,0) ∧ ret ≠ 0 := by
  unfold addIpv4Rule
  by_cases hproto : rule.protocol = invalidProtocol
  · simp only [hproto,if_true]
    exact ⟨_,_,rfl,by decide⟩
  by_cases hpdn : g.maxPdnNum ≤ rule.pdnIndex.toNat ∨ g.pdns rule.pdnIndex.toNat = 0
  · simp only [if_neg hproto,if_pos hpdn]
    exact ⟨_,_,rfl,by decide⟩
  simp only [if_neg hproto,if_neg hpdn]
  cases hnew : n.natTarget g rule with
  | none =>
    have hadd := fun u cmd => addEntry_full u cmd h.natChain hnew
    simp only [hadd]
    exact ⟨_,_,rfl,by decide⟩
  | some new =>
    obtain ⟨t₁,cmds₁,hp₁,hadd₁⟩ := natAdd_pending h hnew
    obtain ⟨hfree,-,-⟩ := target_free h.nat (natSlot_bounds h.nat.sizes g rule) hnew
    have herase := natAdd_erase h hfree hp₁
    rw [Globals.userRule] at hadd₁
    simp only [hadd₁,ne_eq,not_true_eq_false,if_false,List.nil_append]
    cases hidx : n.indexTarget g rule with
    | none =>
      have hadd := fun u cmd => addEntry_full u cmd h.indxChain hidx
      simp only [hadd,herase]
      exact ⟨_,_,rfl,by decide⟩
    | some idx => exact absurd ⟨hproto,hpdn,by simp [hnew],by simp [hidx],rfl⟩ hacc

/-- A rule whose commands are not posted leaves the NAT table as it was, and the index table
with the entry it had been given erased. -/
theorem addIpv4Rule_post_failed (h : n.Inv own iown) (hacc : Accepts n g rule true)
    (hnew : n.natTarget g rule = some new) {x₁ : Table IndxRule ℕ} {cmds : List DmaOne}
    (hadd₂ : ∀ cmd,ipaTableAddEntry n.indexTable new
      (indexSlot (bumpToken g rule.srcOnly) n.table.tableEntries rule) cmd =
        (x₁,0,cmd++cmds,idx)) :
    ∃ g',addIpv4Rule n g rule false = (⟨n.table,ipaTableEraseEntry x₁ idx⟩,g',-5,0) := by
  obtain ⟨t₁,cmds₁,hp₁,hadd₁⟩ := natAdd_pending h hnew
  obtain ⟨hfree,_,hlt⟩ := target_free h.nat (natSlot_bounds h.nat.sizes g rule) hnew
  have herase := natAdd_erase h hfree hp₁
  have hget : ipaTableGetEntryByIndex t₁ new = some new := by
    unfold ipaTableGetEntryByIndex
    rw [if_neg]
    rw [hp₁.totTblEnts]
    omega
  unfold addIpv4Rule
  rw [Globals.userRule] at hadd₁
  simp only [if_neg hacc.protocol,if_neg hacc.pdn,hadd₁,hadd₂,ne_eq,not_true_eq_false,if_false,
    List.nil_append,hget,postIpv4DmaCmd,Bool.false_eq_true]
  rw [eraseEntry_setRec,herase]
  exact ⟨_,rfl⟩

/-- A rule that is not accepted fails and leaves both tables as they were. -/
theorem addIpv4Rule_rejected (h : n.Inv own iown) (hacc : ¬ Accepts n g rule ioctl) :
    ∃ n' g' ret, addIpv4Rule n g rule ioctl = (n',g',ret,0) ∧ ret ≠ 0 ∧ Unchanged n n' := by
  by_cases hst : Accepts n g rule true
  · -- only the post of the commands is left to fail
    have hioctl : ioctl = false := by
      rw [Bool.eq_false_iff]
      rintro rfl
      exact hacc hst
    obtain ⟨new,hnew⟩ := Option.ne_none_iff_exists'.mp hst.nat
    obtain ⟨idx,hidx⟩ := Option.ne_none_iff_exists'.mp hst.indx
    obtain ⟨x₁,cmds,hp,hadd⟩ := indexAdd_pending h new hidx
    have hislot := indexSlot_bounds h.nat.sizes (bumpToken g rule.srcOnly) rule
    obtain ⟨hifree,_,_⟩ := target_free h.indx (by rw [h.base_eq]; exact hislot) hidx
    obtain ⟨g',hpost⟩ := addIpv4Rule_post_failed h hst hnew hadd
    rw [hioctl]
    exact ⟨_,g',_,hpost,by decide,indexAdd_erase h hifree hp⟩
  · obtain ⟨g',ret,hadd,hret⟩ := addIpv4Rule_refused h hst ioctl
    exact ⟨n,g',ret,hadd,hret,.rfl' n⟩

end Adding

section Deleting

/-- The part of the invariant that concerns the NAT table alone. -/
structure RuleTable (t : Table NatRule UserRule) (own : ℕ → ℕ) : Prop where
  isOf : t.IsOf natKind
  chain : t.Inv own
  free : ∀ i, t.occupied i = false → t.recs i = zeroRule
  dead : ∀ i, t.occupied i = true → (t.recs i).protocol = invalidProtocol →
    i < t.tableEntries ∧ t.nextIndex i ≠ 0

def LiveRule (r : NatRule) : Prop := r.enable ≠ 0 ∧ r.protocol ≠ invalidProtocol

theorem NatTable.Inv.ruleTable {n : NatTable} {own iown : ℕ → ℕ} (h : n.Inv own iown) :
    RuleTable n.table own := ⟨h.nat,h.natChain,h.free,h.dead⟩

variable {t t' : Table NatRule UserRule} {own : ℕ → ℕ} {i : ℕ} {emptied : Bool}

theorem RuleTable.occupied_iff (h : RuleTable t own) (j : ℕ) :
    t.occupied j = true ↔ (t.recs j).enable ≠ 0 := by
  simp [Table.occupied,h.isOf.iface,natKind,entryInterface]

/-- The same record but for its links. -/
def Relinked (r r' : NatRule) : Prop :=
  ∃ a b, r' = { r with nextIndex := a, prevIndex := b }

theorem Relinked.refl (r : NatRule) : Relinked r r := ⟨r.nextIndex,r.prevIndex,rfl⟩

theorem Relinked.live_iff {r r' : NatRule} (h : Relinked r r') :
    LiveRule r' ↔ LiveRule r := by
  obtain ⟨a,b,rfl⟩ := h
  rfl

theorem not_live_zero : ¬ LiveRule zeroRule := fun h => h.1 rfl

/-- The command that deletes a head with a tail makes it a dead head. -/
theorem writeRule_deleteHead (r : NatRule) : ∃ ts,
    writeRule r ruleProtoFieldOffset 0xFF00 =
      { r with timeStamp := ts, protocol := invalidProtocol } :=
  ⟨_,by simp [writeRule,ruleProtoFieldOffset,ruleNextFieldOffset,ruleFlagFieldOffset,
    invalidProtocol]; rfl⟩

/-- What a deletion makes of the record at slot `j`. -/
inductive RecAfter (t : Table NatRule UserRule) (i j : ℕ) : NatRule → Prop
  | same (hj : j ≠ i) : RecAfter t i j (t.recs j)
  | relinked (hj : j ≠ i) (hocc : t.occupied j = true) {a b : ℕ}
    (hdead : (t.recs j).protocol = invalidProtocol → a ≠ 0) :
    RecAfter t i j { t.recs j with nextIndex := a, prevIndex := b }
  | zero (hj : ¬ LiveRule (t.recs j) ∨ j = i) : RecAfter t i j zeroRule
  | marked (hj : j = i) (hp : t.prevIndex i = 0) (hn : t.nextIndex i ≠ 0) {ts : BitVec 24} :
    RecAfter t i j { t.recs j with timeStamp := ts, protocol := invalidProtocol }

/-- A deletion frees or marks its own record and relinks the others; only a dead head is
freed along with it. -/
theorem recAfter_of_deleted (hd : Deleted natKind t emptied i t') (h : RuleTable t own)
    (hi : t.occupied i = true)
    (hemp : t.prevIndex i ≠ 0 →
      (emptied = true ↔ (t.recs (t.prevIndex i)).protocol = invalidProtocol)) (j : ℕ) :
    RecAfter t i j (t'.recs j) := by
  by_cases hj : j = i
  · subst hj
    cases hd with
    | marked hp hn =>
      rw [Table.setRec_recs,Function.update_self]
      obtain ⟨ts,hts⟩ := writeRule_deleteHead (t.recs j)
      have hmark : RecAfter t j j (writeRule (t.recs j) ruleProtoFieldOffset 0xFF00) := by
        rw [hts]
        exact .marked rfl hp hn
      exact hmark
    | _ =>
      rw [Table.setRec_recs,Function.update_self]
      exact .zero (Or.inr rfl)
  cases hd with
  | lone hp hn =>
    rw [Table.setRec_recs,Function.update_of_ne hj]
    exact .same hj
  | marked hp hn =>
    rw [Table.setRec_recs,Function.update_of_ne hj]
    exact .same hj
  | @middle p n hp hp0 hn hn0 =>
    obtain ⟨hno,hnb,_⟩ := h.chain.next_occ hi (by rwa [hn])
    rw [hn] at hno hnb
    rw [Table.setRec_recs,Function.update_of_ne hj]
    by_cases hjn : j = n
    · subst hjn
      rw [Table.setRec_recs,Function.update_self]
      refine .relinked hj hno fun hdead => ?_
      have hlt := (h.dead j hno hdead).1
      omega
    · rw [Table.setRec_recs,Function.update_of_ne hjn]
      by_cases hjp : j = p
      · subst hjp
        have hpo := (h.chain.prev_occ hi (by rwa [hp])).1
        have hn16 := toNat_ofNat_of_lt h.isOf (h.chain.occ_lt n hno)
        rw [hp] at hpo
        rw [Table.setRec_recs,Function.update_self]
        refine .relinked (a := (BitVec.ofNat 16 n).toNat) hj hpo fun _ => ?_
        rwa [hn16]
      · rw [Table.setRec_recs,Function.update_of_ne hjp]
        exact .same hj
  | @last p he hp hp0 hn =>
    have hpo := (h.chain.prev_occ hi (by rwa [hp])).1
    have hlive := hemp (by rwa [hp])
    rw [hp] at hpo hlive
    rw [Table.setRec_recs,Function.update_of_ne hj]
    by_cases hjp : j = p
    · subst hjp
      rw [Table.setRec_recs,Function.update_self]
      refine .relinked (a := 0) hj hpo fun hdead => ?_
      rw [hlive.mpr hdead] at he
      cases he
    · rw [Table.setRec_recs,Function.update_of_ne hjp]
      exact .same hj
  | @lastDead p he hp hp0 hn =>
    have hdead := hemp (by rwa [hp])
    rw [hp] at hdead
    rw [Table.setRec_recs,Function.update_of_ne hj]
    by_cases hjp : j = p
    · subst hjp
      rw [Table.setRec_recs,Function.update_self]
      exact .zero (Or.inl fun hl => hl.2 (hdead.mp he))
    · rw [Table.setRec_recs,Function.update_of_ne hjp]
      exact .same hj

/-- Deleting a live rule keeps the NAT table's part of the invariant. -/
theorem ruleTable_of_deleted (hd : Deleted natKind t emptied i t') (h : RuleTable t own)
    (hi : LiveRule (t.recs i))
    (hemp : t.prevIndex i ≠ 0 →
      (emptied = true ↔ (t.recs (t.prevIndex i)).protocol = invalidProtocol))
    (hemp0 : t.prevIndex i = 0 → emptied = false) : RuleTable t' own := by
  have hocc : t.occupied i = true := (h.occupied_iff i).mpr hi.1
  obtain ⟨hIs,hbase,_,_⟩ := h.isOf.deleted hd
  have hrecs := recAfter_of_deleted hd h hocc hemp
  have hchain : t'.Inv own := by
    refine hd.inv natKind_lawful h.isOf h.chain hocc (fun _ _ => ?_) (fun he => ?_)
    · obtain ⟨ts,hts⟩ := writeRule_deleteHead (t.recs i)
      have hv : entryInterface.entryIsValid
          (writeRule (t.recs i) ruleProtoFieldOffset 0xFF00) = true := by
        rw [hts]
        exact decide_eq_true hi.1
      exact hv
    · have hp0 : t.prevIndex i ≠ 0 := by
        intro hp
        rw [hemp0 hp] at he
        cases he
      exact (h.dead _ (h.chain.prev_occ hocc hp0).1 ((hemp hp0).mp he)).1
  have hocc' : ∀ j, t'.occupied j = true ↔ (t'.recs j).enable ≠ 0 := by
    intro j
    simp [Table.occupied,hIs.iface,natKind,entryInterface]
  have hnext' : ∀ j, t'.nextIndex j = (t'.recs j).nextIndex := by
    intro j
    simp [Table.nextIndex,hIs.iface,natKind,entryInterface]
  have hnext : ∀ j, t.nextIndex j = (t.recs j).nextIndex := by
    intro j
    simp [Table.nextIndex,h.isOf.iface,natKind,entryInterface]
  refine ⟨hIs,hchain,fun j hj => ?_,fun j hj hdead => ?_⟩
  · have hen : (t'.recs j).enable = 0 := by
      by_contra hne
      rw [(hocc' j).mpr hne] at hj
      cases hj
    have hr := hrecs j
    generalize t'.recs j = r' at hr hen
    cases hr with
    | same hji =>
      apply h.free
      rw [Bool.eq_false_iff,ne_eq,h.occupied_iff,not_not]
      exact hen
    | relinked hji hjo hjd => exact absurd hen ((h.occupied_iff j).mp hjo)
    | zero => rfl
    | marked hji hp hn =>
      subst hji
      exact absurd hen hi.1
  · have hr := hrecs j
    rw [hocc'] at hj
    rw [hnext',hbase]
    generalize t'.recs j = r' at hr hj hdead
    cases hr with
    | same hji =>
      have hd := h.dead j ((h.occupied_iff j).mpr hj) hdead
      rwa [hnext] at hd
    | relinked hji hjo hjd => exact ⟨(h.dead j hjo hdead).1,hjd hdead⟩
    | zero => exact absurd rfl hj
    | marked hji hp hn =>
      subst hji
      rw [hnext] at hn
      exact ⟨(h.chain.prev_eq_zero_iff hocc).mp hp,hn⟩

/-- The live rules after a deletion are the others, with new links at most. -/
theorem RecAfter.live {t : Table NatRule UserRule} {i j : ℕ} {r : NatRule}
    (hr : RecAfter t i j r) :
    (LiveRule r ↔ LiveRule (t.recs j) ∧ j ≠ i) ∧ (LiveRule r → Relinked (t.recs j) r) := by
  cases hr with
  | same hj => exact ⟨by simp [hj],fun _ => .refl _⟩
  | @relinked hj _ a b _ =>
    have hrel : Relinked (t.recs j) { t.recs j with nextIndex := a, prevIndex := b } :=
      ⟨a,b,rfl⟩
    exact ⟨by rw [hrel.live_iff]; simp [hj],fun _ => hrel⟩
  | zero hj =>
    refine ⟨⟨fun hl => absurd hl not_live_zero,fun hl => ?_⟩,
      fun hl => absurd hl not_live_zero⟩
    rcases hj with hj | hj
    · exact absurd hl.1 hj
    · exact absurd hj hl.2
  | marked hj =>
    exact ⟨⟨fun hl => absurd rfl hl.2,fun hl => absurd hj hl.2⟩,fun hl => absurd rfl hl.2⟩

/-- Fields other than the links, the enable bit and the protocol do not matter. -/
theorem RuleTable.touch (h : RuleTable t own) {k : ℕ} (hk : t.occupied k = true) {r : NatRule}
    (he : r.enable ≠ 0) (hn : r.nextIndex = (t.recs k).nextIndex)
    (hp : r.prevIndex = (t.recs k).prevIndex) (hproto : r.protocol = (t.recs k).protocol) :
    RuleTable (t.setRec k r) own := by
  have hIs : (t.setRec k r).IsOf natKind :=
    ⟨h.isOf.sizes,h.isOf.tot,h.isOf.iface,h.isOf.hasMeta,h.isOf.dmaHelp⟩
  have hocc : ∀ j, (t.setRec k r).occupied j = t.occupied j := by
    intro j
    by_cases hj : j = k
    · subst hj
      rw [hk]
      simpa [Table.occupied,h.isOf.iface,natKind,entryInterface] using he
    · simp [Table.occupied,hj]
  have hnext : ∀ j, (t.setRec k r).nextIndex j = t.nextIndex j := by
    intro j
    by_cases hj : j = k
    · subst hj
      simp [Table.nextIndex,h.isOf.iface,natKind,entryInterface,hn]
    · simp [Table.nextIndex,hj]
  have hprev : ∀ j, (t.setRec k r).prevIndex j = t.prevIndex j := by
    intro j
    by_cases hj : j = k
    · subst hj
      simp [Table.prevIndex,h.isOf.iface,natKind,entryInterface,hp]
    · simp [Table.prevIndex,hj]
  refine ⟨hIs,SlotInv.congr h.chain hocc hnext (fun j _ => hprev j) (fun _ _ => rfl),
    fun j hj => ?_,fun j hj hdead => ?_⟩
  · rw [hocc] at hj
    have hjk : j ≠ k := by
      rintro rfl
      rw [hk] at hj
      cases hj
    rw [Table.setRec_recs,Function.update_of_ne hjk]
    exact h.free j hj
  · rw [hocc] at hj
    rw [hnext]
    by_cases hjk : j = k
    · subst hjk
      rw [Table.setRec_recs,Function.update_self,hproto] at hdead
      exact h.dead j hj hdead
    · rw [Table.setRec_recs,Function.update_of_ne hjk] at hdead
      exact h.dead j hj hdead

section IndexTable

variable {x x' : Table IndxRule ℕ} {iown : ℕ → ℕ} {c : ℕ}

/-- The end of `ipa_NATI_del_ipv4_rule`: the previous index of the freed slot is dropped. -/
def cleanMeta (x : Table IndxRule ℕ) (c : ℕ) : Table IndxRule ℕ :=
  if x.tableEntries ≤ c then
    { x with metaPrev := Function.update x.metaPrev (c - x.tableEntries) 0 }
  else x

/-- Deleting an index entry that is not the head of a longer chain frees its slot. -/
theorem index_deleted (hd : Deleted indexKind x false c x') (h : x.IsOf indexKind)
    (hinv : x.Inv iown) (hc : x.occupied c = true)
    (hnot : ¬ (x.prevIndex c = 0 ∧ x.nextIndex c ≠ 0)) :
    (cleanMeta x' c).IsOf indexKind ∧ (cleanMeta x' c).Inv iown ∧
      (cleanMeta x' c).tableEntries = x.tableEntries ∧
      (cleanMeta x' c).expnTableEntries = x.expnTableEntries ∧
      ∀ j, ((cleanMeta x' c).recs j).tblEntry =
        if j = c then 0 else (x.recs j).tblEntry := by
  obtain ⟨hIs,hbase,hexpn,_⟩ := h.deleted hd
  have hchain : x'.Inv iown := by
    refine hd.inv indexKind_lawful h hinv hc (fun hp hn => absurd ⟨hp,hn⟩ hnot) (fun he => ?_)
    cases he
  have hentry : ∀ j, (x'.recs j).tblEntry = if j = c then 0 else (x.recs j).tblEntry := by
    intro j
    by_cases hj : j = c
    · subst hj
      rw [if_pos rfl]
      cases hd with
      | marked hp hn => exact absurd ⟨hp,hn⟩ hnot
      | lastDead he => cases he
      | _ =>
        rw [Table.setRec_recs,Function.update_self]
        rfl
    · rw [if_neg hj]
      cases hd with
      | marked hp hn => exact absurd ⟨hp,hn⟩ hnot
      | lastDead he => cases he
      | lone => rw [Table.setRec_recs,Function.update_of_ne hj]
      | @middle p n hp hp0 hn hn0 =>
        rw [Table.setRec_recs,Function.update_of_ne hj,Table.setRec_recs]
        by_cases hjn : j = n
        · subst hjn
          rw [Function.update_self]
          rfl
        · rw [Function.update_of_ne hjn,Table.setRec_recs]
          by_cases hjp : j = p
          · subst hjp
            rw [Function.update_self]
            rfl
          · rw [Function.update_of_ne hjp]
      | @last p he hp hp0 hn =>
        rw [Table.setRec_recs,Function.update_of_ne hj,Table.setRec_recs]
        by_cases hjp : j = p
        · subst hjp
          rw [Function.update_self]
          rfl
        · rw [Function.update_of_ne hjp]
  have hfree : x'.occupied c = false := by
    simp [Table.occupied,hIs.iface,indexKind,indexEntryInterface,hentry]
  unfold cleanMeta
  split
  · next hge =>
    refine ⟨⟨hIs.sizes,hIs.tot,hIs.iface,hIs.hasMeta,hIs.dmaHelp⟩,?_,hbase,hexpn,hentry⟩
    refine SlotInv.congr hchain (fun _ => rfl) (fun _ => rfl) (fun j hj => ?_) (fun _ _ => rfl)
    have hjc : j ≠ c := by
      rintro rfl
      have hjb := hj.resolve_left (by simp [hfree])
      omega
    simp only [Table.prevIndex,hIs.iface,indexKind,indexEntryInterface]
    split
    · next hjb => rw [Function.update_of_ne (by omega)]
    · rfl
  · exact ⟨hIs,hchain,hbase,hexpn,hentry⟩

/-- The NAT index an occupied index record holds may change. -/
theorem index_touch (h : x.IsOf indexKind) (hinv : x.Inv iown) (hc : x.occupied c = true)
    {entry : ℕ} (he : entry ≠ 0) :
    (x.setRec c { x.recs c with tblEntry := entry }).IsOf indexKind ∧
      (x.setRec c { x.recs c with tblEntry := entry }).Inv iown := by
  refine ⟨⟨h.sizes,h.tot,h.iface,h.hasMeta,h.dmaHelp⟩,
    SlotInv.congr hinv (fun j => ?_) (fun j => ?_) (fun j _ => ?_) (fun _ _ => rfl)⟩
  · by_cases hj : j = c
    · subst hj
      rw [hc]
      simp [Table.occupied,h.iface,indexKind,indexEntryInterface,he]
    · simp [Table.occupied,hj]
  · by_cases hj : j = c
    · subst hj
      simp [Table.nextIndex,h.iface,indexKind,indexEntryInterface]
    · simp [Table.nextIndex,hj]
  · simp [Table.prevIndex,h.iface,indexKind,indexEntryInterface]

end IndexTable

section Rule

variable {n : NatTable} {iown : ℕ → ℕ}

/-- The previous rule on the chain is a dead head. -/
def prevDead (t : Table NatRule UserRule) (i : ℕ) : Bool :=
  decide (t.prevIndex i ≠ 0 ∧ (t.recs (t.prevIndex i)).protocol = invalidProtocol)

theorem getEntry_handle (h : n.Inv own iown) {j : ℕ} (hj : j < n.table.totTblEnts) :
    ipaTableGetEntry n.table (makeEntryHdl n.table j) = some j := by
  rw [h.nat.tot] at hj
  unfold ipaTableGetEntry
  rw [breakRuleHdl_makeEntryHdl h.nat.sizes hj,h.nat.tot,if_neg (by omega)]

theorem prevDead_iff (t : Table NatRule UserRule) (i : ℕ) (hp : t.prevIndex i ≠ 0) :
    prevDead t i = true ↔ (t.recs (t.prevIndex i)).protocol = invalidProtocol := by
  simp [prevDead,hp]

/-- After the commands have been applied, finishing the deletion of rule `i` and of the
index entry `c` leaves both deleted. -/
theorem finishDelete_eq (m : NatTable) {own iown : ℕ → ℕ} (ht : RuleTable m.table own)
    (hx : m.indexTable.IsOf indexKind) (hxc : m.indexTable.Inv iown) {i c : ℕ}
    (hi : m.table.occupied i = true) (hc : m.indexTable.occupied c = true)
    (hnot : ¬ (m.indexTable.prevIndex c = 0 ∧ m.indexTable.nextIndex c ≠ 0)) :
    ∃ t' x', finishDelete
        ⟨m.table.applyDma natKind (m.table.deleteCmd natKind i),
          m.indexTable.applyDma indexKind (m.indexTable.deleteCmd indexKind c)⟩
        (m.table.iteratorAt i) (m.indexTable.iteratorAt c) = ⟨t',cleanMeta x' c⟩ ∧
      Deleted natKind m.table (prevDead m.table i) i t' ∧
      Deleted indexKind m.indexTable false c x' := by
  have hnat := deleteEntry_deleted natKind_lawful ht.isOf ht.chain hi (prevDead m.table i)
  have hindx := deleteEntry_deleted indexKind_lawful hx hxc hc false
  have hhead : iteratorIsHeadWithTail (m.indexTable.iteratorAt c) = false := by
    rw [Bool.eq_false_iff]
    exact fun hh => hnot ((isHeadWithTail_iff _ _).mp hh)
  -- the command leaves the protocol of the previous record as it was
  have hempty : isPrevEmpty (m.table.applyDma natKind (m.table.deleteCmd natKind i))
      (m.table.iteratorAt i) = prevDead m.table i := by
    by_cases hp : m.table.prevIndex i = 0
    · simp [isPrevEmpty,Table.iteratorAt,hp,prevDead]
    · have hcmd : m.table.deleteCmd natKind i = natKind.cmd m.table.tableEntries .updateEntry
          (m.table.prevIndex i) (BitVec.ofNat 16 (m.table.nextIndex i)) := by
        simp [Table.deleteCmd,hp]
      rw [hcmd,Table.applyDma_cmd natKind_lawful rfl]
      simp only [isPrevEmpty,Table.iteratorAt,link_of_ne_zero hp,Table.setRec_recs,Function.update_self,
        prevDead,ne_eq,hp,not_false_eq_true,true_and]
      rfl
  refine ⟨_,_,?_,hnat,hindx⟩
  unfold finishDelete
  dsimp only
  rw [hempty,hhead]
  rfl

theorem applyDma_nat_of_index (t : Table NatRule UserRule) {d : DmaOne}
    (hd : d.baseAddr = indexKind.baseType ∨ d.baseAddr = indexKind.expnType) :
    t.applyDma natKind d = t := by
  rcases hd with hd | hd
  · exact t.applyDma_of_ne (hd ▸ by decide) (hd ▸ by decide)
  · exact t.applyDma_of_ne (hd ▸ by decide) (hd ▸ by decide)

theorem applyDma_index_of_nat (x : Table IndxRule ℕ) {d : DmaOne}
    (hd : d.baseAddr = natKind.baseType ∨ d.baseAddr = natKind.expnType) :
    x.applyDma indexKind d = x := by
  rcases hd with hd | hd
  · exact x.applyDma_of_ne (hd ▸ by decide) (hd ▸ by decide)
  · exact x.applyDma_of_ne (hd ▸ by decide) (hd ▸ by decide)

/-- Deleting a rule whose index entry is not the head of a longer chain. -/
theorem delIpv4Rule_simple (h : n.Inv own iown) (hi : n.Live i) {x : ℕ}
    (hxi : (n.table.recs i).indxTblEntry = x)
    (hnot : ¬ (n.indexTable.prevIndex x = 0 ∧ n.indexTable.nextIndex x ≠ 0)) :
    ∃ t' x', delIpv4Rule n (makeEntryHdl n.table i) true = (⟨t',cleanMeta x' x⟩,0) ∧
      Deleted natKind n.table (prevDead n.table i) i t' ∧
      Deleted indexKind n.indexTable false x x' := by
  have hocc := h.occupied_of_live hi
  have hx := (h.xref i hi).1
  rw [hxi] at hx
  obtain ⟨t',x',hfin,hdn,hdx⟩ := finishDelete_eq n h.ruleTable h.indx h.indxChain hocc hx hnot
  refine ⟨t',x',?_,hdn,hdx⟩
  have hhead : iteratorIsHeadWithTail (n.indexTable.iteratorAt x) = false := by
    rw [Bool.eq_false_iff]
    exact fun hh => hnot ((isHeadWithTail_iff _ _).mp hh)
  unfold delIpv4Rule
  simp only [getEntry_handle h (h.natChain.occ_lt i hocc),
    ipaTableIteratorInit_eq h.natChain hocc,hxi,getEntryByIndex_link h.indxChain hx,
    ipaTableIteratorInit_eq h.indxChain hx,createDeleteCommand_eq h.indx h.indxChain hx,
    createDeleteCommand_eq h.nat h.natChain hocc,hhead,Bool.false_eq_true,if_false,
    postIpv4DmaCmd,if_true,applyDma_eq,List.nil_append,List.singleton_append,
    List.foldl_cons,List.foldl_nil,applyDma_nat_of_index _ (Table.deleteCmd_own indexKind _ _),
    applyDma_index_of_nat _ (Table.deleteCmd_own natKind _ _),hfin]

/-- The tables in between, when the second entry `c` of an index chain moves into its head
`x`: the CPU has redirected the rule of `c`, and the head holds that rule's slot. -/
def NatTable.moved (n : NatTable) (x c : ℕ) : NatTable :=
  let k := (n.indexTable.recs c).tblEntry
  { table := n.table.setRec k { n.table.recs k with indxTblEntry := x }
    indexTable := n.indexTable.setRec x { n.indexTable.recs x with tblEntry := k } }

section Moved

variable {x c : ℕ}

theorem moved_ruleTable (h : n.Inv own iown) (hc : n.indexTable.occupied c = true) :
    RuleTable (n.moved x c).table own := by
  obtain ⟨hlive,_⟩ := h.back c hc
  exact h.ruleTable.touch (h.occupied_of_live hlive) hlive.1 rfl rfl rfl

theorem moved_index (h : n.Inv own iown) (hx : n.indexTable.occupied x = true)
    (hc : n.indexTable.occupied c = true) :
    (n.moved x c).indexTable.IsOf indexKind ∧ (n.moved x c).indexTable.Inv iown :=
  index_touch h.indx h.indxChain hx ((h.index_occupied_iff c).mp hc)

theorem moved_index_next (h : n.Inv own iown) (j : ℕ) :
    (n.moved x c).indexTable.nextIndex j = n.indexTable.nextIndex j := by
  by_cases hj : j = x
  · subst hj
    simp [NatTable.moved,Table.nextIndex,h.indx.iface,indexKind,indexEntryInterface]
  · simp [NatTable.moved,Table.nextIndex,hj]

theorem moved_index_prev (h : n.Inv own iown) (j : ℕ) :
    (n.moved x c).indexTable.prevIndex j = n.indexTable.prevIndex j := by
  simp [NatTable.moved,Table.prevIndex,h.indx.iface,indexKind,indexEntryInterface]

theorem moved_index_occupied (h : n.Inv own iown) (hx : n.indexTable.occupied x = true)
    (hc : n.indexTable.occupied c = true) (j : ℕ) :
    (n.moved x c).indexTable.occupied j = n.indexTable.occupied j := by
  by_cases hj : j = x
  · subst hj
    have hk := (h.index_occupied_iff c).mp hc
    rw [hx]
    simp [NatTable.moved,Table.occupied,h.indx.iface,indexKind,indexEntryInterface,hk]
  · simp [NatTable.moved,Table.occupied,hj]

theorem moved_iteratorAt (h : n.Inv own iown) (j : ℕ) :
    (n.moved x c).table.iteratorAt j = n.table.iteratorAt j := by
  have hnext : (n.moved x c).table.nextIndex j = n.table.nextIndex j := by
    by_cases hj : j = (n.indexTable.recs c).tblEntry
    · subst hj
      simp [NatTable.moved,Table.nextIndex,h.nat.iface,natKind,entryInterface]
    · simp [NatTable.moved,Table.nextIndex,hj]
  have hprev : (n.moved x c).table.prevIndex j = n.table.prevIndex j := by
    by_cases hj : j = (n.indexTable.recs c).tblEntry
    · subst hj
      simp [NatTable.moved,Table.prevIndex,h.nat.iface,natKind,entryInterface]
    · simp [NatTable.moved,Table.prevIndex,hj]
  unfold Table.iteratorAt
  rw [hnext,hprev]

variable (hx : n.indexTable.occupied x = true) (hp : n.indexTable.prevIndex x = 0)
  (hn : n.indexTable.nextIndex x = c) (hc0 : c ≠ 0)
include hx hp hn hc0

omit hp in
/-- The commands and the record write with which the second entry replaces the head. -/
theorem copySecond_eq (h : n.Inv own iown) (cmd : List DmaOne) :
    copySecondIndexEntryToHead n (n.indexTable.iteratorAt x) cmd =
      (⟨(n.moved x c).table,n.indexTable⟩,
        cmd ++ [(n.moved x c).indexTable.deleteCmd indexKind c]) := by
  obtain ⟨_,_,hcp,_,_⟩ := h.indxChain.next_occ hx (by rwa [hn])
  rw [hn] at hcp
  have hcmd : (n.moved x c).indexTable.deleteCmd indexKind c =
      indexKind.cmd n.indexTable.tableEntries .updateEntry x
        (BitVec.ofNat 16 (n.indexTable.nextIndex c)) := by
    unfold Table.deleteCmd
    rw [moved_index_prev h,moved_index_next h,hcp,if_neg (h.indxChain.ne_zero hx)]
    rfl
  unfold copySecondIndexEntryToHead
  dsimp only [Table.iteratorAt]
  rw [ipaTableAddDmaCmd_eq h.indx rfl rfl rfl (h.indxChain.occ_lt x hx),hcmd,hn,
    h.index_next_eq]
  rfl

omit hp in
theorem iteratorNext_eq (h : n.Inv own iown) :
    ipaTableIteratorNext n.indexTable (n.indexTable.iteratorAt x) =
      .ok ((n.moved x c).indexTable.iteratorAt c) := by
  obtain ⟨hc,_,hcp,_,_⟩ := h.indxChain.next_occ hx (by rwa [hn])
  rw [hn] at hc hcp
  have hx0 := h.indxChain.ne_zero hx
  unfold ipaTableIteratorNext
  dsimp only [Table.iteratorAt]
  rw [moved_index_prev h,moved_index_next h,hcp,hn,link_of_ne_zero hx0]
  split
  · next hz =>
    rw [show n.indexTable.nextIndex c = 0 from hz]
    rfl
  · next hz =>
    have hcn := (h.indxChain.next_occ hc hz).1
    rw [getEntryByIndex_link h.indxChain hcn]
    simp only
    rw [link_of_ne_zero hz]

/-- The command for the head puts the moved entry in place. -/
theorem applyDma_head_eq (h : n.Inv own iown) :
    n.indexTable.applyDma indexKind (n.indexTable.deleteCmd indexKind x) =
      (n.moved x c).indexTable := by
  obtain ⟨hc,_⟩ := h.indxChain.next_occ hx (by rwa [hn])
  rw [hn] at hc
  have hk := h.natChain.occ_lt _ (h.occupied_of_live (h.back c hc).1)
  have hk16 := toNat_ofNat_of_lt h.nat hk
  have hcmd : n.indexTable.deleteCmd indexKind x =
      indexKind.cmd n.indexTable.tableEntries .deleteHead x
        (BitVec.ofNat 16 (n.indexTable.recs c).tblEntry) := by
    unfold Table.deleteCmd
    rw [if_pos hp,hn,if_neg hc0]
    rfl
  have hwrite : RecordLayout.write16 (n.indexTable.recs x) (indexKind.offset .deleteHead)
      (BitVec.ofNat 16 (n.indexTable.recs c).tblEntry) =
        { n.indexTable.recs x with
          tblEntry := (BitVec.ofNat 16 (n.indexTable.recs c).tblEntry).toNat } := rfl
  rw [hcmd,Table.applyDma_cmd indexKind_lawful rfl,hwrite,hk16]
  rfl

/-- Deleting a rule whose index entry is the head of a longer chain. -/
theorem delIpv4Rule_moved (h : n.Inv own iown) (hi : n.Live i)
    (hxi : (n.table.recs i).indxTblEntry = x) :
    ∃ t' x', delIpv4Rule n (makeEntryHdl n.table i) true = (⟨t',cleanMeta x' c⟩,0) ∧
      Deleted natKind (n.moved x c).table (prevDead (n.moved x c).table i) i t' ∧
      Deleted indexKind (n.moved x c).indexTable false c x' := by
  have hocc := h.occupied_of_live hi
  obtain ⟨hc,_,hcp,hcx,_⟩ := h.indxChain.next_occ hx (by rwa [hn])
  rw [hn] at hc hcp hcx
  have hrt := moved_ruleTable (x := x) h hc
  obtain ⟨hmi,hmc⟩ := moved_index h hx hc
  have hmprev : (n.moved x c).indexTable.prevIndex c = x := (moved_index_prev h c).trans hcp
  have hmocc : (n.moved x c).table.occupied i = true := by
    rw [hrt.occupied_iff]
    by_cases hik : i = (n.indexTable.recs c).tblEntry
    · subst hik
      simpa [NatTable.moved] using hi.1
    · simpa [NatTable.moved,hik] using hi.1
  obtain ⟨t',x',hfin,hdn,hdx⟩ := finishDelete_eq (n.moved x c) hrt hmi hmc hmocc
    (by rw [moved_index_occupied h hx hc]; exact hc)
    (fun hh => h.indxChain.ne_zero hx (hmprev.symm.trans hh.1))
  refine ⟨t',x',?_,hdn,hdx⟩
  have hhead : iteratorIsHeadWithTail (n.indexTable.iteratorAt x) = true :=
    (isHeadWithTail_iff _ _).mpr ⟨hp,by rwa [hn]⟩
  have hnat := createDeleteCommand_eq hrt.isOf hrt.chain hmocc
  rw [moved_iteratorAt h] at hnat hfin
  unfold delIpv4Rule
  simp only [getEntry_handle h (h.natChain.occ_lt i hocc),
    ipaTableIteratorInit_eq h.natChain hocc,hxi,getEntryByIndex_link h.indxChain hx,
    ipaTableIteratorInit_eq h.indxChain hx,createDeleteCommand_eq h.indx h.indxChain hx,
    hhead,if_true,copySecond_eq hx hn hc0 h,iteratorNext_eq hx hn hc0 h,hnat,
    postIpv4DmaCmd,applyDma_eq,List.nil_append,List.cons_append,
    List.foldl_cons,List.foldl_nil,applyDma_nat_of_index _ (Table.deleteCmd_own indexKind _ _),
    applyDma_index_of_nat _ (Table.deleteCmd_own natKind _ _),applyDma_head_eq hx hp hn hc0 h,
    hfin]

end Moved

/-- What deleting rule `i` does: the invariant is kept, exactly that rule dies, and the
others keep everything but their links and the slot of their index entry. -/
structure Removal (n n' : NatTable) (own iown : ℕ → ℕ) (i : ℕ) : Prop where
  inv : n'.Inv own iown
  tableEntries : n'.table.tableEntries = n.table.tableEntries
  expnTableEntries : n'.table.expnTableEntries = n.table.expnTableEntries
  nmi : n'.table.nmi = n.table.nmi
  live_iff : ∀ j, n'.Live j ↔ n.Live j ∧ j ≠ i
  recs : ∀ j, n'.Live j → ∃ a b k, n'.table.recs j =
      { n.table.recs j with nextIndex := a, prevIndex := b, indxTblEntry := k } ∧
    iown k = iown (n.table.recs j).indxTblEntry

theorem removal_simple (h : n.Inv own iown) (hi : n.Live i) {x : ℕ}
    (hxi : (n.table.recs i).indxTblEntry = x)
    (hnot : ¬ (n.indexTable.prevIndex x = 0 ∧ n.indexTable.nextIndex x ≠ 0))
    {t' : Table NatRule UserRule} {x' : Table IndxRule ℕ}
    (hdn : Deleted natKind n.table (prevDead n.table i) i t')
    (hdx : Deleted indexKind n.indexTable false x x') :
    Removal n ⟨t',cleanMeta x' x⟩ own iown i := by
  obtain ⟨hx,hxe⟩ := h.xref i hi
  rw [hxi] at hx hxe
  obtain ⟨_,hbase,hexpn,hnmi⟩ := h.nat.deleted hdn
  obtain ⟨hIs,hchain,hibase,hiexpn,hentry⟩ := index_deleted hdx h.indx h.indxChain hx hnot
  have hemp := prevDead_iff n.table i
  have hrt := ruleTable_of_deleted hdn h.ruleTable hi hemp (fun hp => by simp [prevDead,hp])
  have hrec := fun j => (recAfter_of_deleted hdn h.ruleTable (h.occupied_of_live hi) hemp j).live
  have hiocc : ∀ y, (cleanMeta x' x).occupied y = true ↔
      ((cleanMeta x' x).recs y).tblEntry ≠ 0 := by
    intro y
    simp [Table.occupied,hIs.iface,indexKind,indexEntryInterface]
  refine ⟨⟨hrt.isOf,hIs,?_,?_,hrt.chain,hchain,hrt.free,hrt.dead,?_,?_⟩,hbase,hexpn,hnmi,
    fun j => (hrec j).1,fun j hj => ?_⟩
  · exact hibase.trans (h.base_eq.trans hbase.symm)
  · exact hiexpn.trans (h.expn_eq.trans hexpn.symm)
  · intro j hj
    obtain ⟨hlj,hji⟩ := (hrec j).1.mp hj
    obtain ⟨a,b,hab⟩ := (hrec j).2 hj
    obtain ⟨hy,hye⟩ := h.xref j hlj
    have hidx : (t'.recs j).indxTblEntry = (n.table.recs j).indxTblEntry := by rw [hab]
    have hyx : (n.table.recs j).indxTblEntry ≠ x := by
      intro he
      rw [he,hxe] at hye
      exact hji hye.symm
    rw [hidx,hiocc,hentry,if_neg hyx]
    exact ⟨(h.index_occupied_iff _).mp hy,hye⟩
  · intro y hy
    rw [hiocc,hentry] at hy
    have hyx : y ≠ x := by
      rintro rfl
      simp at hy
    rw [if_neg hyx,← h.index_occupied_iff] at hy
    obtain ⟨hlk,hk⟩ := h.back y hy
    have hki : (n.indexTable.recs y).tblEntry ≠ i := by
      intro he
      rw [he,hxi] at hk
      exact hyx hk.symm
    have hlive := (hrec _).1.mpr ⟨hlk,hki⟩
    obtain ⟨a,b,hab⟩ := (hrec _).2 hlive
    rw [hentry,if_neg hyx,hab]
    exact ⟨hlive,hk⟩
  · obtain ⟨a,b,hab⟩ := (hrec j).2 hj
    exact ⟨a,b,(n.table.recs j).indxTblEntry,hab,rfl⟩

theorem removal_moved (h : n.Inv own iown) (hi : n.Live i) {x c : ℕ}
    (hxi : (n.table.recs i).indxTblEntry = x) (hn : n.indexTable.nextIndex x = c)
    (hc0 : c ≠ 0) {t' : Table NatRule UserRule} {x' : Table IndxRule ℕ}
    (hdn : Deleted natKind (n.moved x c).table (prevDead (n.moved x c).table i) i t')
    (hdx : Deleted indexKind (n.moved x c).indexTable false c x') :
    Removal n ⟨t',cleanMeta x' c⟩ own iown i := by
  obtain ⟨hx,hxe⟩ := h.xref i hi
  rw [hxi] at hx hxe
  obtain ⟨hc,_,hcp,hcx,hcown⟩ := h.indxChain.next_occ hx (by rwa [hn])
  rw [hn] at hc hcp hcx hcown
  have hrt₁ := moved_ruleTable (x := x) h hc
  obtain ⟨hmi,hmc⟩ := moved_index h hx hc
  obtain ⟨_,hbase,hexpn,hnmi⟩ := hrt₁.isOf.deleted hdn
  have hmprev : (n.moved x c).indexTable.prevIndex c = x := (moved_index_prev h c).trans hcp
  obtain ⟨hIs,hchain,hibase,hiexpn,hentry⟩ := index_deleted hdx hmi hmc
    (by rw [moved_index_occupied h hx hc]; exact hc)
    (fun hh => h.indxChain.ne_zero hx (hmprev.symm.trans hh.1))
  obtain ⟨hlk,hkc⟩ := h.back c hc
  have hki : (n.indexTable.recs c).tblEntry ≠ i := by
    intro he
    rw [he,hxi] at hkc
    exact hcx hkc.symm
  -- the records between the two steps
  have hmid : ∀ j, (n.moved x c).table.recs j = if j = (n.indexTable.recs c).tblEntry
      then { n.table.recs j with indxTblEntry := x } else n.table.recs j := by
    intro j
    by_cases hj : j = (n.indexTable.recs c).tblEntry
    · subst hj
      simp [NatTable.moved]
    · simp [NatTable.moved,hj]
  have hmlive : ∀ j, LiveRule ((n.moved x c).table.recs j) ↔ n.Live j := by
    intro j
    rw [hmid]
    split
    · rfl
    · rfl
  have hme : ∀ j, ((cleanMeta x' c).recs j).tblEntry = if j = c then 0 else if j = x
      then (n.indexTable.recs c).tblEntry else (n.indexTable.recs j).tblEntry := by
    intro j
    rw [hentry]
    by_cases hj : j = x
    · subst hj
      simp [NatTable.moved]
    · simp [NatTable.moved,hj]
  have hemp := prevDead_iff (n.moved x c).table i
  have hi₁ := (hmlive i).mpr hi
  have hrt := ruleTable_of_deleted hdn hrt₁ hi₁ hemp (fun hp => by simp [prevDead,hp])
  have hrec := fun j =>
    (recAfter_of_deleted hdn hrt₁ ((hrt₁.occupied_iff i).mpr hi₁.1) hemp j).live
  have hlive : ∀ j, LiveRule (t'.recs j) ↔ n.Live j ∧ j ≠ i := by
    intro j
    rw [(hrec j).1,hmlive]
  have hidx : ∀ j, LiveRule (t'.recs j) → ∃ a b, t'.recs j =
      { n.table.recs j with
        nextIndex := a, prevIndex := b,
        indxTblEntry := if j = (n.indexTable.recs c).tblEntry then x
          else (n.table.recs j).indxTblEntry } := by
    intro j hj
    obtain ⟨a,b,hab⟩ := (hrec j).2 hj
    refine ⟨a,b,?_⟩
    rw [hab,hmid]
    split
    · rfl
    · rfl
  have hiocc : ∀ y, (cleanMeta x' c).occupied y = true ↔
      ((cleanMeta x' c).recs y).tblEntry ≠ 0 := by
    intro y
    simp [Table.occupied,hIs.iface,indexKind,indexEntryInterface]
  refine ⟨⟨hrt.isOf,hIs,?_,?_,hrt.chain,hchain,hrt.free,hrt.dead,?_,?_⟩,hbase,hexpn,hnmi,
    hlive,fun j hj => ?_⟩
  · exact hibase.trans (h.base_eq.trans hbase.symm)
  · exact hiexpn.trans (h.expn_eq.trans hexpn.symm)
  · intro j hj
    obtain ⟨hlj,hji⟩ := (hlive j).mp hj
    obtain ⟨a,b,hab⟩ := hidx j hj
    rw [hiocc,hme,hab]
    dsimp only
    by_cases hjk : j = (n.indexTable.recs c).tblEntry
    · rw [if_pos hjk,if_neg hcx.symm,if_pos rfl]
      exact ⟨(h.index_occupied_iff c).mp hc,hjk.symm⟩
    · obtain ⟨hy,hye⟩ := h.xref j hlj
      have hyx : (n.table.recs j).indxTblEntry ≠ x := by
        intro he
        rw [he,hxe] at hye
        exact hji hye.symm
      have hyc : (n.table.recs j).indxTblEntry ≠ c := by
        intro he
        rw [he] at hye
        exact hjk hye.symm
      rw [if_neg hjk,if_neg hyc,if_neg hyx]
      exact ⟨(h.index_occupied_iff _).mp hy,hye⟩
  · intro y hy
    rw [hiocc,hme] at hy
    have hyc : y ≠ c := by
      rintro rfl
      simp at hy
    rw [hme,if_neg hyc]
    by_cases hyx : y = x
    · rw [if_pos hyx]
      have hl := (hlive _).mpr ⟨hlk,hki⟩
      obtain ⟨a,b,hab⟩ := hidx _ hl
      rw [hab]
      exact ⟨hl,by simp [hyx]⟩
    · rw [if_neg hyc,if_neg hyx,← h.index_occupied_iff] at hy
      rw [if_neg hyx]
      obtain ⟨hlj,hj⟩ := h.back y hy
      have hji : (n.indexTable.recs y).tblEntry ≠ i := by
        intro he
        rw [he,hxi] at hj
        exact hyx hj.symm
      have hjk : (n.indexTable.recs y).tblEntry ≠ (n.indexTable.recs c).tblEntry := by
        intro he
        rw [he,hkc] at hj
        exact hyc hj.symm
      have hl := (hlive _).mpr ⟨hlj,hji⟩
      obtain ⟨a,b,hab⟩ := hidx _ hl
      rw [hab]
      exact ⟨hl,by simp [hjk,hj]⟩
  · obtain ⟨a,b,hab⟩ := hidx j hj
    refine ⟨a,b,_,hab,?_⟩
    split
    · next hjk => rw [hjk,hkc,hcown]
    · rfl

/-- `ipa_NATI_del_ipv4_rule` on a live rule removes exactly that rule. -/
theorem delIpv4Rule_removal (h : n.Inv own iown) (hi : n.Live i) :
    ∃ n', delIpv4Rule n (makeEntryHdl n.table i) true = (n',0) ∧ Removal n n' own iown i := by
  have hx := (h.xref i hi).1
  by_cases hmove : n.indexTable.prevIndex (n.table.recs i).indxTblEntry = 0 ∧
      n.indexTable.nextIndex (n.table.recs i).indxTblEntry ≠ 0
  · obtain ⟨t',x',hdel,hdn,hdx⟩ := delIpv4Rule_moved hx hmove.1 rfl hmove.2 h hi rfl
    exact ⟨_,hdel,removal_moved h hi rfl rfl hmove.2 hdn hdx⟩
  · obtain ⟨t',x',hdel,hdn,hdx⟩ := delIpv4Rule_simple h hi rfl hmove
    exact ⟨_,hdel,removal_simple h hi rfl hmove hdn hdx⟩

end Rule

end Deleting

end IpaNat
end MarbleModules
