import MarbleModules.Runs
import MarbleModules.IpaNatInvariant

/-! Runs of the IPv4 NAT table: adds that may fail, deletes of live rules, clears, changes
of the PDN table and packets hitting rules, in any order. -/
namespace MarbleModules
namespace IpaNat

open IpaTable

/-- The hardware's changes to a record keep the invariant. -/
theorem hardwareTouch_inv {n : NatTable} {own iown : ℕ → ℕ} (h : n.Inv own iown) (i : ℕ)
    (ts : BitVec 24) (redirect : BitVec 1) : (hardwareTouch n i ts redirect).Inv own iown := by
  unfold hardwareTouch
  dsimp only
  split
  · next hl =>
    have hocc := (h.occupied_iff i).mpr hl.1
    obtain ⟨hIs,hchain,hfree,hdead⟩ := h.ruleTable.touch hocc
      (r := { n.table.recs i with timeStamp := ts, redirect := redirect }) hl.1 rfl rfl rfl
    have hrec : ∀ j, ∃ a b, (n.table.setRec i { n.table.recs i with
        timeStamp := ts, redirect := redirect }).recs j =
          { n.table.recs j with timeStamp := a, redirect := b } := by
      intro j
      by_cases hj : j = i
      · subst hj
        exact ⟨ts,redirect,by simp⟩
      · exact ⟨(n.table.recs j).timeStamp,(n.table.recs j).redirect,by simp [hj]⟩
    refine ⟨hIs,h.indx,h.base_eq,h.expn_eq,hchain,h.indxChain,hfree,hdead,?_,?_⟩
    · intro j hj
      obtain ⟨a,b,hab⟩ := hrec j
      rw [NatTable.Live,hab] at hj
      rw [hab]
      exact h.xref j hj
    · intro x hx
      obtain ⟨hl',hx'⟩ := h.back x hx
      obtain ⟨a,b,hab⟩ := hrec (n.indexTable.recs x).tblEntry
      rw [NatTable.Live,hab]
      exact ⟨hl',hx'⟩
  · exact h

theorem hardwareTouch_live {n : NatTable} (i j : ℕ) (ts : BitVec 24) (redirect : BitVec 1) :
    (hardwareTouch n i ts redirect).Live j ↔ n.Live j := by
  unfold hardwareTouch
  dsimp only
  split
  · by_cases hj : j = i
    · subst hj
      simp [NatTable.Live]
    · simp [NatTable.Live,hj]
  · rfl

theorem hardwareTouch_indx {n : NatTable} (i j : ℕ) (ts : BitVec 24) (redirect : BitVec 1) :
    ((hardwareTouch n i ts redirect).table.recs j).indxTblEntry =
      (n.table.recs j).indxTblEntry := by
  unfold hardwareTouch
  dsimp only
  split
  · by_cases hj : j = i
    · subst hj
      simp
    · simp [hj]
  · rfl

/-- A NAT table in use. The history variables `natBase` and `indexBase` record, for the rule
in each NAT slot, the base slots its two hashes selected when it was inserted. -/
structure NatRun where
  tbl : NatTable
  globals : Globals
  natBase : ℕ → ℕ
  indexBase : ℕ → ℕ

inductive NatOp
  | add (rule : Ipv4Rule)
  | del (hdl : ℕ)
  | clear
  | modifyPdn (pdnIndex : ℕ) (publicIp : BitVec 32)
  | hardware (i : ℕ) (timeStamp : BitVec 24) (redirect : BitVec 1)

namespace NatRun

/-- Every posted command is applied, so no ioctl fails. -/
def step (s : NatRun) : NatOp → NatRun
  | .add rule =>
    match addIpv4Rule s.tbl s.globals rule true with
    | (tbl,globals,ret,hdl) =>
      if ret = 0 then
        let new := breakRuleHdl s.tbl.table hdl
        let g := bumpToken s.globals rule.srcOnly
        { tbl := tbl
          globals := globals
          natBase := Function.update s.natBase new
            (natSlot s.globals s.tbl.table.tableEntries rule)
          indexBase := Function.update s.indexBase new
            (indexSlot g s.tbl.table.tableEntries rule) }
      else { s with tbl := tbl, globals := globals }
  | .del hdl => { s with tbl := (delIpv4Rule s.tbl hdl true).1 }
  | .clear => { s with tbl := clearIpv4Tbl s.tbl }
  | .modifyPdn pdnIndex publicIp =>
    { s with globals := IpaNat.modifyPdn s.globals pdnIndex publicIp }
  | .hardware i timeStamp redirect =>
    { s with tbl := hardwareTouch s.tbl i timeStamp redirect }

/-- The handle of a rule that is currently live. -/
def LiveHandle (n : NatTable) (hdl : ℕ) : Prop :=
  ∃ i < n.table.totTblEnts, n.Live i ∧ hdl = makeEntryHdl n.table i

instance (n : NatTable) (hdl : ℕ) : Decidable (LiveHandle n hdl) :=
  inferInstanceAs (Decidable (∃ i < n.table.totTblEnts, _))

/-- Deletes are called with handles of live rules only. -/
def Legal (s : NatRun) : NatOp → Prop
  | .del hdl => LiveHandle s.tbl hdl
  | _ => True

instance (s : NatRun) (op : NatOp) : Decidable (s.Legal op) :=
  match op with
  | .del hdl => inferInstanceAs (Decidable (LiveHandle s.tbl hdl))
  | .add _ => isTrue trivial
  | .clear => isTrue trivial
  | .modifyPdn _ _ => isTrue trivial
  | .hardware _ _ _ => isTrue trivial

/-- The run invariant: `iown` names the base slots of the index table. -/
def Inv (s : NatRun) : Prop :=
  ∃ iown, s.tbl.Inv s.natBase iown ∧
    ∀ i, s.tbl.Live i → iown (s.tbl.table.recs i).indxTblEntry = s.indexBase i

theorem add_inv {s : NatRun} (h : s.Inv) (rule : Ipv4Rule) : (s.step (.add rule)).Inv := by
  obtain ⟨iown,hinv,hown⟩ := h
  by_cases hacc : Accepts s.tbl s.globals rule true
  · obtain ⟨new,hnew⟩ := Option.ne_none_iff_exists'.mp hacc.nat
    obtain ⟨idx,hidx⟩ := Option.ne_none_iff_exists'.mp hacc.indx
    obtain ⟨n',g',hadd,hadded⟩ := addIpv4Rule_accepted hinv hacc hnew hidx
    obtain ⟨hfree,_,hlt⟩ := target_free hinv.nat (natSlot_bounds hinv.nat.sizes _ _) hnew
    have hbreak : breakRuleHdl s.tbl.table (makeEntryHdl s.tbl.table new) = new :=
      breakRuleHdl_makeEntryHdl hinv.nat.sizes (by rw [← hinv.nat.tot]; exact hlt)
    simp only [step,hadd,if_true,hbreak]
    refine ⟨_,hadded.inv hinv,fun j hj => ?_⟩
    obtain ⟨⟨p,hrnew⟩,hold⟩ := hadded.recs hinv
    rcases (hadded.live_iff hinv j).mp hj with rfl | hl
    · simp [hrnew,storedRule]
    · have hjn : j ≠ new := by
        rintro rfl
        simp [hinv.occupied_of_live hl] at hfree
      obtain ⟨k,hk,_⟩ := hold j hjn
      have hx := (hinv.xref j hl).1
      have hxi : (s.tbl.table.recs j).indxTblEntry ≠ idx := by
        intro he
        have hislot := indexSlot_bounds hinv.nat.sizes (bumpToken s.globals rule.srcOnly) rule
        rw [he,(target_free hinv.indx (by rw [hinv.base_eq]; exact hislot) hidx).1] at hx
        cases hx
      rw [hk,Function.update_of_ne hxi]
      dsimp only
      rw [Function.update_of_ne hjn]
      exact hown j hl
  · obtain ⟨n',g',ret,hadd,hret,hu⟩ := addIpv4Rule_rejected hinv hacc
    simp only [step,hadd,if_neg hret]
    refine ⟨iown,hu.inv hinv,fun j hj => ?_⟩
    simp only [NatTable.Live,hu.table] at hj ⊢
    exact hown j hj

theorem step_inv {s : NatRun} {op : NatOp} (h : s.Inv) (hop : s.Legal op) :
    (s.step op).Inv := by
  cases op with
  | add rule => exact add_inv h rule
  | del hdl =>
    obtain ⟨iown,hinv,hown⟩ := h
    obtain ⟨i,_,hi,rfl⟩ := hop
    obtain ⟨n',hdel,hrem⟩ := delIpv4Rule_removal hinv hi
    simp only [step,hdel]
    refine ⟨iown,hrem.inv,fun j hj => ?_⟩
    obtain ⟨a,b,k,hk,hiown⟩ := hrem.recs j hj
    rw [hk]
    exact hiown.trans (hown j ((hrem.live_iff j).mp hj).1)
  | clear =>
    obtain ⟨iown,hinv,_⟩ := h
    refine ⟨iown,clearIpv4Tbl_inv hinv _ _,fun j hj => ?_⟩
    exact absurd rfl hj.1
  | modifyPdn pdnIndex publicIp => exact h
  | hardware i ts redirect =>
    obtain ⟨iown,hinv,hown⟩ := h
    refine ⟨iown,hardwareTouch_inv hinv i ts redirect,fun j hj => ?_⟩
    simp only [step] at hj ⊢
    rw [hardwareTouch_live] at hj
    rw [hardwareTouch_indx]
    exact hown j hj

/-- A table as `ipa_NATI_add_ipv4_tbl` creates it, with any contents of the globals. -/
def fresh (n : NatTable) (g : Globals) : NatRun := ⟨n,g,fun _ => 0,fun _ => 0⟩

theorem fresh_inv {nmi : MemIn} {num : ℕ} {n : NatTable} (h : createTable nmi num = some n)
    (g : Globals) : (fresh n g).Inv :=
  ⟨fun _ => 0,createTable_inv h _ _,fun i hi => absurd hi (createTable_not_live h i)⟩

/-- The live rules and the occupied index records point at each other. -/
structure CrossReferenced (n : NatTable) : Prop where
  rules : ∀ s, n.Live s → s < n.table.totTblEnts ∧
    (n.table.recs s).indxTblEntry < n.indexTable.totTblEnts ∧
    n.indexTable.occupied (n.table.recs s).indxTblEntry = true ∧
    (n.indexTable.recs (n.table.recs s).indxTblEntry).tblEntry = s
  entries : ∀ x, n.indexTable.occupied x = true → x < n.indexTable.totTblEnts ∧
    n.Live (n.indexTable.recs x).tblEntry ∧
    (n.table.recs (n.indexTable.recs x).tblEntry).indxTblEntry = x

theorem Inv.crossReferenced {s : NatRun} (h : s.Inv) : CrossReferenced s.tbl := by
  obtain ⟨iown,hinv,_⟩ := h
  refine ⟨fun i hi => ?_,fun x hx => ?_⟩
  · obtain ⟨hx,he⟩ := hinv.xref i hi
    exact ⟨hinv.natChain.occ_lt i (hinv.occupied_of_live hi),hinv.indxChain.occ_lt _ hx,hx,he⟩
  · obtain ⟨hl,he⟩ := hinv.back x hx
    exact ⟨hinv.indxChain.occ_lt x hx,hl,he⟩

/-- The chain invariant of both tables of a NAT table in use. -/
def Chains (s : NatRun) : Prop :=
  ChainInvariant s.tbl.table (fun r => r.protocol = invalidProtocol) s.natBase ∧
    ChainInvariant s.tbl.indexTable (fun _ => False)
      fun x => s.indexBase (s.tbl.indexTable.recs x).tblEntry

theorem Inv.chains {s : NatRun} (h : s.Inv) : s.Chains := by
  obtain ⟨iown,hinv,hown⟩ := h
  refine ⟨hinv.natChain.chainInvariant hinv.dead fun _ _ _ => rfl,
    hinv.indxChain.chainInvariant (fun _ _ hf => hf.elim) fun x hx _ => ?_⟩
  obtain ⟨hl,he⟩ := hinv.back x hx
  rw [← hown _ hl,he]

/-- In every state a run of adds, deletes of live rules and clears reaches from a fresh
table, rules and index entries are in one-to-one correspondence. -/
theorem crossReferenced_always {nmi : MemIn} {num : ℕ} {n : NatTable}
    (h : createTable nmi num = some n) (g : Globals) (ops : List NatOp)
    (hops : Runs.Guarded step Legal (fresh n g) ops) :
    Runs.Always step (fun s => CrossReferenced s.tbl) (fresh n g) ops :=
  Runs.guarded_always (fun _ hs => hs.crossReferenced) (fun _ _ => step_inv)
    (fresh_inv h g) ops hops

section Sample

/-- A UDP rule without addresses: its hashes depend on the private port alone. -/
def udpRule (privatePort : BitVec 16) : Ipv4Rule where
  targetIp := 0
  privateIp := 0
  targetPort := 0
  privatePort := privatePort
  publicPort := 0
  protocol := 17
  pdnIndex := 0
  redirect := 0
  enable := 0
  timeStamp := 0
  ucActivationIndex := 0
  s := false
  ucp := false
  dstOnly := false
  srcOnly := false

/-- A single PDN with a public address. -/
def onePdn : Globals where
  pdns := fun _ => 5
  maxPdnNum := 1
  hashToken := 0
  ver4 := false

/-- The table `ipa_nati_create_table` makes for four entries: four base slots and two
expansion slots. -/
def smallTable (nmi : MemIn) : NatTable where
  table :=
    { nmi := nmi, tableEntries := 4, expnTableEntries := 2, totTblEnts := 6,
      recs := fun _ => zeroRule, curTblCnt := 0, curExpnTblCnt := 0,
      entryInterface := entryInterface, dmaHelp := natDmaHelp 0, hasMeta := false,
      metaPrev := fun _ => 0 }
  indexTable :=
    { nmi := nmi, tableEntries := 4, expnTableEntries := 2, totTblEnts := 6,
      recs := fun _ => ⟨0,0⟩, curTblCnt := 0, curExpnTblCnt := 0,
      entryInterface := indexEntryInterface, dmaHelp := indexDmaHelp 0, hasMeta := true,
      metaPrev := fun _ => 0 }

theorem createTable_small : createTable .ddr 4 = some (smallTable .ddr) := rfl

/-- Two rules share both chains, the head of both is deleted, then a rule is added. -/
theorem crossReferenced_small :
    Runs.Always step (fun s => CrossReferenced s.tbl) (fresh (smallTable .ddr) onePdn)
      [.add (udpRule 0),.add (udpRule 4),.del 2,.add (udpRule 8),.clear] :=
  crossReferenced_always createTable_small onePdn _ (by decide)

end Sample

end NatRun

end IpaNat
end MarbleModules
