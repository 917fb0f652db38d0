import MarbleModules.IpaNatRuns
import MarbleModules.IpaNatHybrid

/-! What the operations of the hybrid state machine do to the table in use and its handle
maps. A table switch is one induction over the walk of the source table. -/
namespace MarbleModules
namespace IpaNat

open IpaTable

namespace NatiObj

variable (o : NatiObj)

@[simp] theorem setTbl_currState (m : MemIn) (n : NatTable) : (o.setTbl m n).currState = o.currState := rfl
@[simp] theorem setTbl_holdState (m : MemIn) (n : NatTable) : (o.setTbl m n).holdState = o.holdState := rfl
@[simp] theorem setTbl_tbl (m : MemIn) (n : NatTable) : (o.setTbl m n).tbl = Function.update o.tbl m n := rfl
@[simp] theorem setTbl_mapPairs (m : MemIn) (n : NatTable) : (o.setTbl m n).mapPairs = o.mapPairs := rfl
@[simp] theorem setTbl_totRulesInTable (m : MemIn) (n : NatTable) : (o.setTbl m n).totRulesInTable = o.totRulesInTable := rfl
@[simp] theorem setTbl_memSub (m : MemIn) (n : NatTable) : (o.setTbl m n).memSub = o.memSub := rfl

@[simp] theorem setMaps_currState (m : MemIn) (p : MapPair) : (o.setMaps m p).currState = o.currState := rfl
@[simp] theorem setMaps_holdState (m : MemIn) (p : MapPair) : (o.setMaps m p).holdState = o.holdState := rfl
@[simp] theorem setMaps_tbl (m : MemIn) (p : MapPair) : (o.setMaps m p).tbl = o.tbl := rfl
@[simp] theorem setMaps_mapPairs (m : MemIn) (p : MapPair) : (o.setMaps m p).mapPairs = Function.update o.mapPairs m p := rfl
@[simp] theorem setMaps_totRulesInTable (m : MemIn) (p : MapPair) : (o.setMaps m p).totRulesInTable = o.totRulesInTable := rfl
@[simp] theorem setMaps_memSub (m : MemIn) (p : MapPair) : (o.setMaps m p).memSub = o.memSub := rfl

@[simp] theorem setCntr_currState (m : MemIn) (c : ℕ) : (o.setCntr m c).currState = o.currState := rfl
@[simp] theorem setCntr_holdState (m : MemIn) (c : ℕ) : (o.setCntr m c).holdState = o.holdState := rfl
@[simp] theorem setCntr_tbl (m : MemIn) (c : ℕ) : (o.setCntr m c).tbl = o.tbl := rfl
@[simp] theorem setCntr_mapPairs (m : MemIn) (c : ℕ) : (o.setCntr m c).mapPairs = o.mapPairs := rfl
@[simp] theorem setCntr_totRulesInTable (m : MemIn) (c : ℕ) : (o.setCntr m c).totRulesInTable = Function.update o.totRulesInTable m c := rfl
@[simp] theorem setCntr_memSub (m : MemIn) (c : ℕ) : (o.setCntr m c).memSub = o.memSub := rfl

@[simp] theorem setGlobals_currState (g : Globals) : (o.setGlobals g).currState = o.currState := rfl
@[simp] theorem setGlobals_holdState (g : Globals) : (o.setGlobals g).holdState = o.holdState := rfl
@[simp] theorem setGlobals_tbl (g : Globals) : (o.setGlobals g).tbl = o.tbl := rfl
@[simp] theorem setGlobals_mapPairs (g : Globals) : (o.setGlobals g).mapPairs = o.mapPairs := rfl
@[simp] theorem setGlobals_totRulesInTable (g : Globals) : (o.setGlobals g).totRulesInTable = o.totRulesInTable := rfl
@[simp] theorem setGlobals_globals (g : Globals) : (o.setGlobals g).globals = g := rfl
@[simp] theorem setGlobals_memSub (g : Globals) : (o.setGlobals g).memSub = o.memSub := rfl

end NatiObj

namespace NatTable

/-- The handle of the rule at a slot. -/
def realHdl (n : NatTable) (i : ℕ) : ℕ := makeEntryHdl n.table i

/-- The number of live rules. -/
def liveCount (n : NatTable) : ℕ := ((Finset.range n.table.totTblEnts).filter n.Live).card

variable {n n' : NatTable} {own iown : ℕ → ℕ}

theorem Inv.live_lt (h : n.Inv own iown) {i : ℕ} (hi : n.Live i) : i < n.table.totTblEnts :=
  h.natChain.occ_lt i (h.occupied_of_live hi)

theorem Inv.realHdl_injective (h : n.Inv own iown) {i j : ℕ} (hi : i < n.table.totTblEnts)
    (hj : j < n.table.totTblEnts) (heq : n.realHdl i = n.realHdl j) : i = j := by
  rw [h.nat.tot] at hi hj
  exact makeEntryHdl_injective h.nat.sizes hi hj heq

theorem liveCount_lt (h : n.Inv own iown) : n.liveCount < 65536 := by
  have hcard := Finset.card_filter_le (Finset.range n.table.totTblEnts) n.Live
  have hb := h.nat.sizes.base_le
  have he := h.nat.sizes.expn_le
  rw [Finset.card_range,h.nat.tot] at hcard
  unfold liveCount
  rw [h.nat.tot]
  omega

theorem liveCount_eq_zero (h : ∀ i, ¬ n.Live i) : n.liveCount = 0 := by
  unfold liveCount
  rw [Finset.card_eq_zero,Finset.filter_eq_empty_iff]
  exact fun i _ => h i

theorem liveCount_congr (htot : n'.table.totTblEnts = n.table.totTblEnts)
    (h : ∀ i, n'.Live i ↔ n.Live i) : n'.liveCount = n.liveCount := by
  unfold liveCount
  rw [htot]
  congr 1
  exact Finset.filter_congr fun i _ => h i

/-- One more rule is live. -/
theorem liveCount_insert {new : ℕ} (htot : n'.table.totTblEnts = n.table.totTblEnts)
    (hlt : new < n.table.totTblEnts) (hnew : ¬ n.Live new)
    (h : ∀ i, n'.Live i ↔ i = new ∨ n.Live i) : n'.liveCount = n.liveCount + 1 := by
  have hins : (Finset.range n.table.totTblEnts).filter n'.Live =
      insert new ((Finset.range n.table.totTblEnts).filter n.Live) := by
    ext i
    simp only [Finset.mem_filter,Finset.mem_insert,Finset.mem_range,h]
    by_cases hi : i = new
    · simp [hi,hlt]
    · simp [hi]
  unfold liveCount
  rw [htot,hins,Finset.card_insert_of_notMem]
  simp [hnew]

end NatTable

section Maps

/-- The maps are inverse to each other, and every new handle is that of a live rule. -/
structure Mapped (n : NatTable) (p : MapPair) : Prop where
  inverse : ∀ h r, p.orig2new h = some r ↔ p.new2orig r = some h
  live : ∀ r h, p.new2orig r = some h → ∃ i, n.Live i ∧ r = n.realHdl i

/-- Besides, every live rule is mapped, and the counter counts them. -/
structure MappedAll (n : NatTable) (p : MapPair) (cnt : ℕ) : Prop extends Mapped n p where
  all : ∀ i, n.Live i → ∃ h, p.new2orig (n.realHdl i) = some h
  count : cnt = n.liveCount

def MapPair.insert (p : MapPair) (orig new : ℕ) : MapPair :=
  ⟨Function.update p.orig2new orig (some new),Function.update p.new2orig new (some orig)⟩

def MapPair.erase (p : MapPair) (orig new : ℕ) : MapPair :=
  ⟨natMapDel p.orig2new orig,natMapDel p.new2orig new⟩

variable {n n' : NatTable} {p : MapPair} {cnt : ℕ} {own iown : ℕ → ℕ}

theorem mappedAll_of_not_live (h : ∀ i, ¬ n.Live i) : MappedAll n .cleared 0 where
  inverse := fun _ _ => by simp [MapPair.cleared,natMapClear]
  live := fun _ _ hr => by simp [MapPair.cleared,natMapClear] at hr
  all := fun i hi => absurd hi (h i)
  count := (NatTable.liveCount_eq_zero h).symm

theorem Mapped.congr (hm : Mapped n p) (hlive : ∀ i, n'.Live i ↔ n.Live i)
    (hreal : ∀ i, n'.realHdl i = n.realHdl i) : Mapped n' p := by
  refine ⟨hm.inverse,fun r h hr => ?_⟩
  obtain ⟨i,hi,rfl⟩ := hm.live r h hr
  exact ⟨i,(hlive i).mpr hi,(hreal i).symm⟩

theorem MappedAll.congr (hm : MappedAll n p cnt)
    (htot : n'.table.totTblEnts = n.table.totTblEnts) (hlive : ∀ i, n'.Live i ↔ n.Live i)
    (hreal : ∀ i, n'.realHdl i = n.realHdl i) : MappedAll n' p cnt := by
  refine ⟨hm.toMapped.congr hlive hreal,fun i hi => ?_,?_⟩
  · rw [hreal]
    exact hm.all i ((hlive i).mp hi)
  · rw [hm.count,NatTable.liveCount_congr htot hlive]

/-- A slot that is not live has no entry. -/
theorem Mapped.new2orig_eq_none (hm : Mapped n p) (hinv : n.Inv own iown) {i : ℕ}
    (hlt : i < n.table.totTblEnts) (hi : ¬ n.Live i) : p.new2orig (n.realHdl i) = none := by
  rw [Option.eq_none_iff_forall_ne_some]
  intro h hr
  obtain ⟨j,hj,hij⟩ := hm.live _ h hr
  obtain rfl := hinv.realHdl_injective hlt (hinv.live_lt hj) hij
  exact hi hj

variable {u : UserRule} {slot islot new idx : ℕ}

/-- What storing a rule changes of what the maps refer to. -/
theorem Added.slots (ha : Added n n' u slot islot new idx) (h : n.Inv own iown) :
    n'.table.totTblEnts = n.table.totTblEnts ∧ new < n.table.totTblEnts ∧ ¬ n.Live new ∧
      (∀ i, n'.realHdl i = n.realHdl i) ∧ n'.table.nmi = n.table.nmi := by
  obtain ⟨hIs,hbase,hexpn,hnmi⟩ := h.nat.stored ha.nat
  obtain ⟨hfree,_,hlt⟩ := ha.nat.free h.nat ha.slot_lt.2 ha.slot_lt.1
  refine ⟨?_,hlt,fun hl => ?_,fun i => makeEntryHdl_congr hbase hnmi i,hnmi⟩
  · rw [hIs.tot,hbase,hexpn,h.nat.tot]
  · simp [h.occupied_of_live hl] at hfree

theorem Mapped.stored (hm : Mapped n p) (ha : Added n n' u slot islot new idx)
    (h : n.Inv own iown) : Mapped n' p := by
  refine ⟨hm.inverse,fun r k hr => ?_⟩
  obtain ⟨i,hi,rfl⟩ := hm.live r k hr
  exact ⟨i,(ha.live_iff h i).mpr (Or.inr hi),((ha.slots h).2.2.2.1 i).symm⟩

/-- A stored rule is registered under a handle that is not in use. -/
theorem Mapped.insert (hm : Mapped n p) (ha : Added n n' u slot islot new idx)
    (h : n.Inv own iown) {orig : ℕ} (horig : p.orig2new orig = none) :
    Mapped n' (p.insert orig (n.realHdl new)) := by
  obtain ⟨_,hlt,hnl,hreal,_⟩ := ha.slots h
  have hnew := hm.new2orig_eq_none h hlt hnl
  refine ⟨fun k r => ?_,fun r k hr => ?_⟩
  · by_cases hk : k = orig
    · subst hk
      by_cases hr : r = n.realHdl new
      · simp [MapPair.insert,hr]
      · have hne : p.new2orig r ≠ some k := by
          rw [ne_eq,← hm.inverse,horig]
          simp
        simp [MapPair.insert,hr,hne,Ne.symm hr]
    · by_cases hr : r = n.realHdl new
      · subst hr
        have hne : p.orig2new k ≠ some (n.realHdl new) := by
          rw [ne_eq,hm.inverse,hnew]
          simp
        simp [MapPair.insert,hk,hne,Ne.symm hk]
      · simp [MapPair.insert,hk,hr,hm.inverse]
  · by_cases hrn : r = n.realHdl new
    · exact ⟨new,(ha.live_iff h new).mpr (Or.inl rfl),by rw [hrn,hreal]⟩
    · simp only [MapPair.insert,Function.update_of_ne hrn] at hr
      exact (hm.stored ha h).live r k hr

theorem MappedAll.insert (hm : MappedAll n p cnt) (ha : Added n n' u slot islot new idx)
    (h : n.Inv own iown) {orig : ℕ} (horig : p.orig2new orig = none) :
    MappedAll n' (p.insert orig (n.realHdl new)) (inc32 cnt) := by
  obtain ⟨htot,hlt,hnl,hreal,_⟩ := ha.slots h
  refine ⟨hm.toMapped.insert ha h horig,fun i hi => ?_,?_⟩
  · rw [hreal]
    by_cases hin : n.realHdl i = n.realHdl new
    · exact ⟨orig,by simp [MapPair.insert,hin]⟩
    · have hi' : n.Live i := by
        refine ((ha.live_iff h i).mp hi).resolve_left ?_
        rintro rfl
        exact hin rfl
      obtain ⟨k,hk⟩ := hm.all i hi'
      exact ⟨k,by simp [MapPair.insert,hin,hk]⟩
  · have hcnt := NatTable.liveCount_insert htot hlt hnl (ha.live_iff h)
    have hbound := NatTable.liveCount_lt h
    rw [hcnt,← hm.count]
    rw [← hm.count] at hbound
    unfold inc32
    omega

/-- The two map additions succeed when the original handle is new. -/
theorem mapAddPair_eq (o : NatiObj) (m : MemIn) (orig new : ℕ)
    (horig : (o.mapPairs m).orig2new orig = none) (hnew : (o.mapPairs m).new2orig new = none) :
    mapAddPair o m orig new = (o.setMaps m ((o.mapPairs m).insert orig new),0) := by
  simp [mapAddPair,natMapAdd,horig,hnew,MapPair.insert]

/-- An original handle in use is refused and the maps stay as they are. -/
theorem mapAddPair_in_use (o : NatiObj) (m : MemIn) (orig new : ℕ) {r : ℕ}
    (horig : (o.mapPairs m).orig2new orig = some r) : mapAddPair o m orig new = (o,-1) := by
  simp [mapAddPair,natMapAdd,horig,NatiObj.setMaps]

variable {i : ℕ}

theorem Removal.slots (hr : Removal n n' own iown i) (h : n.Inv own iown) :
    n'.table.totTblEnts = n.table.totTblEnts ∧ (∀ j, n'.realHdl j = n.realHdl j) := by
  refine ⟨?_,fun j => makeEntryHdl_congr hr.tableEntries hr.nmi j⟩
  rw [hr.inv.nat.tot,h.nat.tot,hr.tableEntries,hr.expnTableEntries]

/-- A deleted rule is taken out of the maps. -/
theorem Mapped.erase (hm : Mapped n p) (hr : Removal n n' own iown i) (h : n.Inv own iown)
    (hi : n.Live i) {orig : ℕ} (horig : p.new2orig (n.realHdl i) = some orig) :
    Mapped n' (p.erase orig (n.realHdl i)) := by
  obtain ⟨_,hreal⟩ := hr.slots h
  have hback := (hm.inverse _ _).mpr horig
  refine ⟨fun k r => ?_,fun r k hk => ?_⟩
  · by_cases hk : k = orig
    · subst hk
      by_cases hrr : r = n.realHdl i
      · simp [MapPair.erase,natMapDel,hrr]
      · have hne : p.new2orig r ≠ some k := by
          rw [ne_eq,← hm.inverse,hback]
          exact fun heq => hrr (Option.some.inj heq).symm
        simp [MapPair.erase,natMapDel,hrr,hne]
    · by_cases hrr : r = n.realHdl i
      · subst hrr
        have hne : p.orig2new k ≠ some (n.realHdl i) := by
          rw [ne_eq,hm.inverse,horig]
          exact fun heq => hk (Option.some.inj heq).symm
        simp [MapPair.erase,natMapDel,hk,hne]
      · simp [MapPair.erase,natMapDel,hk,hrr,hm.inverse]
  · by_cases hrr : r = n.realHdl i
    · simp [MapPair.erase,natMapDel,hrr] at hk
    · simp only [MapPair.erase,natMapDel,Function.update_of_ne hrr] at hk
      obtain ⟨j,hj,rfl⟩ := hm.live r k hk
      refine ⟨j,(hr.live_iff j).mpr ⟨hj,?_⟩,(hreal j).symm⟩
      rintro rfl
      exact hrr rfl

theorem MappedAll.erase (hm : MappedAll n p cnt) (hr : Removal n n' own iown i)
    (h : n.Inv own iown) (hi : n.Live i) {orig : ℕ}
    (horig : p.new2orig (n.realHdl i) = some orig) :
    MappedAll n' (p.erase orig (n.realHdl i)) (dec32 cnt) := by
  obtain ⟨htot,hreal⟩ := hr.slots h
  refine ⟨hm.toMapped.erase hr h hi horig,fun j hj => ?_,?_⟩
  · obtain ⟨hlj,hji⟩ := (hr.live_iff j).mp hj
    obtain ⟨k,hk⟩ := hm.all j hlj
    have hne : n.realHdl j ≠ n.realHdl i := fun heq =>
      hji (h.realHdl_injective (h.live_lt hlj) (h.live_lt hi) heq)
    rw [hreal]
    exact ⟨k,by simp [MapPair.erase,natMapDel,hne,hk]⟩
  · have hins : n.liveCount = n'.liveCount + 1 := by
      refine NatTable.liveCount_insert htot.symm (by rw [htot]; exact h.live_lt hi)
        (fun hl => ((hr.live_iff i).mp hl).2 rfl) fun j => ?_
      rw [hr.live_iff]
      by_cases hj : j = i
      · simp [hj,hi]
      · simp [hj]
    have hbound := NatTable.liveCount_lt h
    rw [hm.count]
    unfold dec32
    omega

end Maps

section Migration

/-- What the client can see of a rule. -/
structure ClientView where
  privateIp : BitVec 32
  targetIp : BitVec 32
  publicPort : BitVec 16
  privatePort : BitVec 16
  targetPort : BitVec 16
  protocol : BitVec 8
  pdnIndex : BitVec 4
  ucActivationIndex : BitVec 13
  s : BitVec 1
  ucp : BitVec 1
  srcOnly : BitVec 1
  dstOnly : BitVec 1
  timeStamp : BitVec 24
  enable : BitVec 1
  redirect : BitVec 1
  deriving DecidableEq

def clientView (r : NatRule) : ClientView where
  privateIp := r.privateIp
  targetIp := r.targetIp
  publicPort := r.publicPort
  privatePort := r.privatePort
  targetPort := r.targetPort
  protocol := r.protocol
  pdnIndex := r.pdnIndex
  ucActivationIndex := r.ucActivationIndex
  s := r.s
  ucp := r.ucp
  srcOnly := r.srcOnly
  dstOnly := r.dstOnly
  timeStamp := r.timeStamp
  enable := r.enable
  redirect := r.redirect

theorem bit_ne_zero : ∀ b : BitVec 1, b ≠ 0 → b = 1 := by decide

theorem boolBit_decide : ∀ b : BitVec 1, boolBit (decide (b ≠ 0)) = b := by decide

theorem setWidth_back {v w : ℕ} (hvw : v ≤ w) (x : BitVec v) :
    (x.setWidth w).setWidth v = x := by
  rw [BitVec.setWidth_setWidth_of_le _ hvw,BitVec.setWidth_eq]

/-- The copy of a rule looks like the rule but for its redirect bit. -/
theorem clientView_copy {r : NatRule} (hr : r.enable ≠ 0) (pub : BitVec 32) (idx prev : ℕ) :
    clientView (storedRule ⟨clientRule r,pub⟩ idx prev) =
      { clientView r with redirect := 0 } := by
  have hen := bit_ne_zero r.enable hr
  simp only [clientView,storedRule,tableEntryCopyFromUser,clientRule,boolBit_decide,hen,
    setWidth_back (show 4 ≤ 8 by decide),setWidth_back (show 13 ≤ 16 by decide),
    setWidth_back (show 24 ≤ 32 by decide)]

/-- Only what belongs to the destination, and the globals, differ. -/
structure Frame (dst : MemIn) (o o' : NatiObj) : Prop where
  currState : o'.currState = o.currState
  holdState : o'.holdState = o.holdState
  ddrTblHdl : o'.ddrTblHdl = o.ddrTblHdl
  sramTblHdl : o'.sramTblHdl = o.sramTblHdl
  tbl : ∀ m, m ≠ dst → o'.tbl m = o.tbl m
  mapPairs : ∀ m, m ≠ dst → o'.mapPairs m = o.mapPairs m

theorem Frame.refl (dst : MemIn) (o : NatiObj) : Frame dst o o :=
  ⟨rfl,rfl,rfl,rfl,fun _ _ => rfl,fun _ _ => rfl⟩

theorem Frame.trans {dst : MemIn} {o o' o'' : NatiObj} (h : Frame dst o o')
    (h' : Frame dst o' o'') : Frame dst o o'' :=
  ⟨h'.currState.trans h.currState,h'.holdState.trans h.holdState,
    h'.ddrTblHdl.trans h.ddrTblHdl,h'.sramTblHdl.trans h.sramTblHdl,
    fun m hm => (h'.tbl m hm).trans (h.tbl m hm),
    fun m hm => (h'.mapPairs m hm).trans (h.mapPairs m hm)⟩

theorem Frame.setTbl (dst : MemIn) (o : NatiObj) (n : NatTable) : Frame dst o (o.setTbl dst n) :=
  ⟨rfl,rfl,rfl,rfl,fun _ hm => Function.update_of_ne hm _ _,fun _ _ => rfl⟩

theorem Frame.setGlobals (dst : MemIn) (o : NatiObj) (g : Globals) :
    Frame dst o (o.setGlobals g) := ⟨rfl,rfl,rfl,rfl,fun _ _ => rfl,fun _ _ => rfl⟩

theorem Frame.setCntr (dst : MemIn) (o : NatiObj) (m : MemIn) (k : ℕ) :
    Frame dst o (o.setCntr m k) := ⟨rfl,rfl,rfl,rfl,fun _ _ => rfl,fun _ _ => rfl⟩

theorem Frame.setMaps (dst : MemIn) (o : NatiObj) (p : MapPair) :
    Frame dst o (o.setMaps dst p) :=
  ⟨rfl,rfl,rfl,rfl,fun _ _ => rfl,fun _ hm => Function.update_of_ne hm _ _⟩

/-- The table in memory `m` is sound and its maps, and its counter, are those of its rules. -/
structure Served (m : MemIn) (o : NatiObj) : Prop where
  inv : ∃ own iown, (o.tbl m).Inv own iown
  nmi : (o.tbl m).table.nmi = m
  mapped : MappedAll (o.tbl m) (o.mapPairs m) (o.totRulesInTable m)

/-- The rules of the table `n` with maps `p` in the slots below `k` have been copied. -/
structure Copied (n : NatTable) (p : MapPair) (dst : MemIn) (k : ℕ) (o : NatiObj) : Prop
    extends Served dst o where
  noDead : ∀ j, (o.tbl dst).table.occupied j = true → (o.tbl dst).Live j
  source : ∀ j h, (o.tbl dst).Live j →
    (o.mapPairs dst).new2orig ((o.tbl dst).realHdl j) = some h →
    ∃ i < k, n.Live i ∧ p.new2orig (n.realHdl i) = some h ∧
      clientView ((o.tbl dst).table.recs j) =
        { clientView (n.table.recs i) with redirect := 0 }
  copied : ∀ i < k, n.Live i → ∃ h, p.new2orig (n.realHdl i) = some h ∧
    ∃ r, (o.mapPairs dst).orig2new h = some r

/-- A rule of the table `n` with maps `p` has no entry at the destination. -/
def Lost (n : NatTable) (p : MapPair) (dst : MemIn) (o : NatiObj) : Prop :=
  ∃ i, n.Live i ∧ ∀ h, p.new2orig (n.realHdl i) = some h → (o.mapPairs dst).orig2new h = none

variable {n : NatTable} {p : MapPair} {own iown : ℕ → ℕ} {src dst : MemIn} {o : NatiObj}
  {k : ℕ}

/-- The original handle of a rule that is not copied yet is not in use at the destination. -/
theorem Copied.fresh_orig (hc : Copied n p dst k o) (hp : Mapped n p) (hn : n.Inv own iown)
    (hk : n.Live k) {orig : ℕ} (horig : p.new2orig (n.realHdl k) = some orig) :
    (o.mapPairs dst).orig2new orig = none := by
  rw [Option.eq_none_iff_forall_ne_some]
  intro r hr
  rw [hc.mapped.inverse] at hr
  obtain ⟨j,hj,rfl⟩ := hc.mapped.live _ _ hr
  obtain ⟨i,hik,hi,hio,_⟩ := hc.source j orig hj hr
  have heq := ((hp.inverse _ _).mpr hio).symm.trans ((hp.inverse _ _).mpr horig)
  have := hn.realHdl_injective (hn.live_lt hi) (hn.live_lt hk) (Option.some.inj heq)
  omega

/-- Nothing to copy at a slot without a live rule. -/
theorem Copied.skip (hc : Copied n p dst k o) (hk : ¬ n.Live k) : Copied n p dst (k+1) o := by
  refine ⟨hc.toServed,hc.noDead,fun j h hj hh => ?_,fun i hi hl => ?_⟩
  · obtain ⟨i,hik,hrest⟩ := hc.source j h hj hh
    exact ⟨i,by omega,hrest⟩
  · rcases Nat.lt_succ_iff_lt_or_eq.mp hi with hlt | rfl
    · exact hc.copied i hlt hl
    · exact absurd hl hk

/-- A rule that has been stored and registered is copied. -/
theorem Copied.store (hc : Copied n p dst k o) (hk : n.Live k) {orig : ℕ}
    (horig : p.new2orig (n.realHdl k) = some orig)
    (hfresh : (o.mapPairs dst).orig2new orig = none) {o' : NatiObj} {pub : BitVec 32}
    {slot islot new idx : ℕ}
    (ha : Added (o.tbl dst) (o'.tbl dst) ⟨clientRule (n.table.recs k),pub⟩ slot islot new idx)
    (hmaps : o'.mapPairs dst = (o.mapPairs dst).insert orig ((o.tbl dst).realHdl new))
    (hcnt : o'.totRulesInTable dst = inc32 (o.totRulesInTable dst)) :
    Copied n p dst (k+1) o' := by
  obtain ⟨own',iown',hinv⟩ := hc.inv
  obtain ⟨_,hlt,hnl,hreal,hnmi⟩ := ha.slots hinv
  obtain ⟨⟨prev,hnew⟩,hold⟩ := ha.recs hinv
  have hlive := ha.live_iff hinv
  have hne : ∀ j, j ≠ new → (o.tbl dst).Live j →
      (o.tbl dst).realHdl j ≠ (o.tbl dst).realHdl new := by
    intro j hj hl heq
    exact hj (hinv.realHdl_injective (hinv.live_lt hl) hlt heq)
  refine ⟨⟨⟨_,_,ha.inv hinv⟩,hnmi.trans hc.nmi,?_⟩,fun j hj => ?_,fun j h hj hh => ?_,
    fun i hi hl => ?_⟩
  · rw [hmaps,hcnt]
    exact hc.mapped.insert ha hinv hfresh
  · by_cases hjn : j = new
    · exact (hlive j).mpr (Or.inl hjn)
    · obtain ⟨a,hab,_⟩ := hold j hjn
      rw [(ha.inv hinv).occupied_iff,hab] at hj
      exact (hlive j).mpr (Or.inr (hc.noDead j ((hinv.occupied_iff j).mpr hj)))
  · rw [hmaps,hreal] at hh
    by_cases hjn : j = new
    · subst hjn
      have ho : orig = h := by simpa [MapPair.insert] using hh
      subst ho
      refine ⟨k,by omega,hk,horig,?_⟩
      rw [hnew]
      exact clientView_copy hk.1 pub idx prev
    · have hl := ((hlive j).mp hj).resolve_left hjn
      have hh' : (o.mapPairs dst).new2orig ((o.tbl dst).realHdl j) = some h := by
        simpa [MapPair.insert,hne j hjn hl] using hh
      obtain ⟨i,hik,hi,hio,hview⟩ := hc.source j h hl hh'
      obtain ⟨a,hab,_⟩ := hold j hjn
      refine ⟨i,by omega,hi,hio,?_⟩
      rw [← hview,hab]
      rfl
  · rw [hmaps]
    rcases Nat.lt_succ_iff_lt_or_eq.mp hi with hlt' | rfl
    · obtain ⟨h,hh,r,hr⟩ := hc.copied i hlt' hl
      have hho : h ≠ orig := by
        rintro rfl
        simp [hfresh] at hr
      exact ⟨h,hh,r,by simp [MapPair.insert,hho,hr]⟩
    · exact ⟨orig,horig,(o.tbl dst).realHdl new,by simp [MapPair.insert]⟩

/-- One call of `migrate_rule`: the destination stays served, and one more slot has been
copied unless the call fails and leaves its rule behind. -/
theorem migrateRule_copied (hn : n.Inv own iown) (hp : Mapped n p)
    (hmaps : o.mapPairs src = p) (hc : Copied n p dst k o) (ioctl : ℕ → Bool)
    (hocc : n.table.occupied k = true) :
    ∃ o' ret, migrateRule src dst ioctl o (n.realHdl k) k (n.table.recs k) = (o',ret) ∧
      Frame dst o o' ∧ Served dst o' ∧ (ret = 0 → Copied n p dst (k+1) o') ∧
      (ret ≠ 0 → Lost n p dst o') := by
  unfold migrateRule
  by_cases hproto : (n.table.recs k).protocol = invalidProtocol
  · rw [if_pos hproto]
    exact ⟨_,_,rfl,.refl dst o,hc.toServed,fun _ => hc.skip fun hl => hl.2 hproto,
      fun hr => absurd rfl hr⟩
  rw [if_neg hproto,hmaps]
  have hk : n.Live k := ⟨(hn.occupied_iff k).mp hocc,hproto⟩
  cases horig : p.new2orig (n.realHdl k) with
  | none =>
    exact ⟨_,_,rfl,.refl dst o,hc.toServed,fun hr => by simp at hr,
      fun _ => ⟨k,hk,fun h hh => by simp [horig] at hh⟩⟩
  | some orig =>
    obtain ⟨own',iown',hinv⟩ := hc.inv
    have hfresh := hc.fresh_orig hp hn hk horig
    by_cases hacc : Accepts (o.tbl dst) o.globals (clientRule (n.table.recs k)) (ioctl k)
    · obtain ⟨new,hnew⟩ := Option.ne_none_iff_exists'.mp hacc.nat
      obtain ⟨idx,hidx⟩ := Option.ne_none_iff_exists'.mp hacc.indx
      obtain ⟨n',g',hadd,ha⟩ := addIpv4Rule_accepted hinv hacc hnew hidx
      obtain ⟨_,hlt,hnl,_⟩ := ha.slots hinv
      have hnewFree := hc.mapped.new2orig_eq_none hinv hlt hnl
      dsimp only
      simp only [hadd,ne_eq,not_true_eq_false,if_false]
      rw [mapAddPair_eq]
      · have hframe := (((Frame.setTbl dst o n').trans (.setGlobals dst _ g')).trans
          (.setCntr dst _ dst (inc32 (o.totRulesInTable dst)))).trans
          (.setMaps dst _ ((o.mapPairs dst).insert orig ((o.tbl dst).realHdl new)))
        have hstored : Copied n p dst (k+1) ((((o.setTbl dst n').setGlobals g').setCntr dst
            (inc32 (o.totRulesInTable dst))).setMaps dst
            ((o.mapPairs dst).insert orig ((o.tbl dst).realHdl new))) :=
          hc.store hk horig hfresh (by simpa [Globals.userRule] using ha) (by simp) (by simp)
        exact ⟨_,_,rfl,hframe,hstored.toServed,fun _ => hstored,fun hr => absurd rfl hr⟩
      · simpa using hfresh
      · simpa [NatTable.realHdl] using hnewFree
    · obtain ⟨n',g',ret,hadd,hret,hu⟩ := addIpv4Rule_rejected hinv hacc
      dsimp only
      simp only [hadd,hret,ne_eq,not_false_eq_true,if_true]
      have hframe := (Frame.setTbl dst o n').trans (.setGlobals dst _ g')
      refine ⟨_,_,rfl,hframe,⟨?_,?_,?_⟩,
        fun hr => absurd hr hret,fun _ => ⟨k,hk,fun h hh => ?_⟩⟩
      · exact ⟨own',iown',by simpa using hu.inv hinv⟩
      · simpa [hu.table] using hc.nmi
      · have hcongr : MappedAll n' _ _ := hc.mapped.congr (by rw [hu.table])
          (fun i => by simp [NatTable.Live,hu.table])
          (fun i => by simp [NatTable.realHdl,hu.table])
        simpa using hcongr
      · obtain rfl := Option.some.inj (horig.symm.trans hh)
        simpa using hfresh

/-- The walk of the source table from slot `k` on. -/
theorem walk_copied (hn : n.Inv own iown) (hp : Mapped n p) (hne : src ≠ dst)
    (ioctl : ℕ → Bool) (m : ℕ) :
    ∀ (k : ℕ) (o : NatiObj), o.mapPairs src = p → Copied n p dst k o →
      ∃ o' ret, walkLoop n.table .slotFilled (migrateRule src dst ioctl) k m o = (o',ret) ∧
        Frame dst o o' ∧ Served dst o' ∧ (ret = 0 → Copied n p dst (k+m) o') ∧
        (ret ≠ 0 → Lost n p dst o') := by
  induction m with
  | zero =>
    intro k o _ hc
    exact ⟨o,0,rfl,.refl dst o,hc.toServed,fun _ => hc,fun hr => absurd rfl hr⟩
  | succ m ih =>
    intro k o hmaps hc
    rw [walkLoop]
    cases hocc : n.table.occupied k with
    | false =>
      simp only [decide_true,Bool.false_eq_true,if_false]
      have hk : ¬ n.Live k := fun hl => by simp [hn.occupied_of_live hl] at hocc
      obtain ⟨o',ret,hwalk,hf,hs,hcopied,hlost⟩ := ih (k+1) o hmaps (hc.skip hk)
      exact ⟨o',ret,hwalk,hf,hs,
        fun hr => by simpa [Nat.add_comm,Nat.add_left_comm] using hcopied hr,hlost⟩
    | true =>
      obtain ⟨o₁,ret₁,hmig,hf₁,hs₁,hc₁,hl₁⟩ := migrateRule_copied hn hp hmaps hc ioctl hocc
      unfold NatTable.realHdl at hmig
      simp only [decide_true,if_true,hmig]
      by_cases hr₁ : ret₁ = 0
      · rw [if_neg (by simpa using hr₁)]
        obtain ⟨o',ret,hwalk,hf,hs,hcopied,hlost⟩ := ih (k+1) o₁
          ((hf₁.mapPairs src hne).trans hmaps) (hc₁ hr₁)
        exact ⟨o',ret,hwalk,hf₁.trans hf,hs,
          fun hr => by simpa [Nat.add_comm,Nat.add_left_comm] using hcopied hr,hlost⟩
      · rw [if_pos hr₁]
        exact ⟨o₁,ret₁,rfl,hf₁,hs₁,fun hr => absurd hr hr₁,hl₁⟩

/-- The copy of a table: the destination is served whether or not the copy succeeds. -/
theorem switchCopy_spec (hne : src ≠ dst) (hn : (o.tbl src).Inv own iown)
    (hp : Mapped (o.tbl src) (o.mapPairs src)) (hdst : ∃ own iown, (o.tbl dst).Inv own iown)
    (hnmi : (o.tbl dst).table.nmi = dst) (ioctl : ℕ → Bool) :
    ∃ o' ret, switchCopy o src dst ioctl = (o',ret) ∧ Frame dst o o' ∧ Served dst o' ∧
      (ret = 0 → Copied (o.tbl src) (o.mapPairs src) dst (o.tbl src).table.totTblEnts o') ∧
      (ret ≠ 0 → Lost (o.tbl src) (o.mapPairs src) dst o') := by
  obtain ⟨own',iown',hinv⟩ := hdst
  have hclear := clearIpv4Tbl_inv hinv own' iown'
  have hdead : ∀ j, ¬ (clearIpv4Tbl (o.tbl dst)).Live j := fun j hj => hj.1 rfl
  have hpos := hn.nat.sizes.base_pos
  have hstart : Copied (o.tbl src) (o.mapPairs src) dst 0
      (((o.setCntr dst 0).setMaps dst .cleared).setTbl dst (clearIpv4Tbl (o.tbl dst))) := by
    refine ⟨⟨⟨own',iown',by simpa using hclear⟩,
      by simpa [clearIpv4Tbl,ipaTableReset] using hnmi,?_⟩,fun j hj => ?_,fun j h hj => ?_,
      fun i hi => by omega⟩
    · simpa using mappedAll_of_not_live hdead
    · simp only [NatiObj.setTbl_tbl,Function.update_self] at hj
      exact absurd rfl ((hclear.occupied_iff j).mp hj)
    · simp only [NatiObj.setTbl_tbl,Function.update_self] at hj
      exact absurd hj (hdead j)
  have hframe : Frame dst o
      (((o.setCntr dst 0).setMaps dst .cleared).setTbl dst (clearIpv4Tbl (o.tbl dst))) := by
    refine ⟨rfl,rfl,rfl,rfl,fun m hm => ?_,fun m hm => ?_⟩
    · simp [hm]
    · simp [hm]
  obtain ⟨o',ret,hwalk,hf,hs,hc,hlost⟩ := walk_copied hn hp hne ioctl
    (o.tbl src).table.totTblEnts 0 _ (hframe.mapPairs src hne) hstart
  refine ⟨o',ret,?_,hframe.trans hf,hs,fun hr => by simpa using hc hr,hlost⟩
  have htot := hn.nat.tot
  have hcond : ¬ (o.tbl src).table.tableEntries + (o.tbl src).table.expnTableEntries ≤ 0 := by
    omega
  change (if (o.tbl src).table.tableEntries + (o.tbl src).table.expnTableEntries ≤ 0 then _
    else walkLoop (o.tbl src).table .slotFilled (migrateRule src dst ioctl) 0
      ((o.tbl src).table.tableEntries + (o.tbl src).table.expnTableEntries - 0) _) = (o',ret)
  rw [if_neg hcond,Nat.sub_zero,← htot]
  exact hwalk

end Migration

section States

/-- Both tables are sound, and the maps of the table in use are inverse to each other and
refer to its live rules only. -/
structure NatiObj.Sound (o : NatiObj) : Prop where
  state : o.currState = .hybrid ∨ o.currState = .hybridDdr
  inv : ∀ m, ∃ own iown, (o.tbl m).Inv own iown
  nmi : ∀ m, (o.tbl m).table.nmi = m
  mapped : Mapped (o.tbl o.memSub) (o.mapPairs o.memSub)

/-- The maps and the counter of the table in use account for every live rule. -/
def NatiObj.Exact (o : NatiObj) : Prop :=
  MappedAll (o.tbl o.memSub) (o.mapPairs o.memSub) (o.totRulesInTable o.memSub)

variable {o o' : NatiObj}

/-- A change to the table in use, its maps and its counter. -/
theorem NatiObj.Sound.update (h : o.Sound) (hstate : o'.currState = o.currState)
    (htbl : ∀ m, m ≠ o.memSub → o'.tbl m = o.tbl m)
    (hinv : ∃ own iown, (o'.tbl o.memSub).Inv own iown)
    (hnmi : (o'.tbl o.memSub).table.nmi = (o.tbl o.memSub).table.nmi)
    (hmapped : Mapped (o'.tbl o.memSub) (o'.mapPairs o.memSub)) : o'.Sound := by
  have hsub : o'.memSub = o.memSub := by rw [NatiObj.memSub,NatiObj.memSub,hstate]
  refine ⟨hstate ▸ h.state,fun m => ?_,fun m => ?_,hsub ▸ hmapped⟩
  · by_cases hm : m = o.memSub
    · exact hm ▸ hinv
    · rw [htbl m hm]
      exact h.inv m
  · by_cases hm : m = o.memSub
    · rw [hm,hnmi]
      exact h.nmi _
    · rw [htbl m hm]
      exact h.nmi m

/-- The state on the other side of a table switch. -/
def NatiState.other : NatiState → NatiState
  | .hybrid => .hybridDdr
  | _ => .hybrid

def otherMem : MemIn → MemIn
  | .ddr => .sram
  | .sram => .ddr

/-- The table switch: without the init command nothing happens, else the focus moves and the
destination is served. It has a copy of every rule if the switch succeeds, and lacks one if
it fails. -/
structure Switched (o o' : NatiObj) (ret : ℤ) : Prop where
  currState : o'.currState = o.currState.other
  holdState : o'.holdState = o.holdState
  memSub : o'.memSub = otherMem o.memSub
  sound : o'.Sound
  exact : o'.Exact
  copied : ret = 0 → Copied (o.tbl o.memSub) (o.mapPairs o.memSub) o'.memSub
    (o.tbl o.memSub).table.totTblEnts o'
  lost : ret ≠ 0 → Lost (o.tbl o.memSub) (o.mapPairs o.memSub) o'.memSub o'

theorem switched_of_copy (h : o.Sound) {src : MemIn} (dst : MemIn) (s : NatiState) (hsrc : o.memSub = src)
    (hs : s = o.currState.other) (hs' : s = .hybrid ∨ s = .hybridDdr)
    (hdst : (o.setState s).memSub = dst) (hother : dst = otherMem src) (copy : ℕ → Bool) :
    ∃ o' ret, switchCopy (o.setState s) src dst copy = (o',ret) ∧ Switched o o' ret := by
  have hne : src ≠ dst := by
    rw [hother]
    cases src <;> decide
  obtain ⟨own,iown,hinv⟩ := h.inv src
  obtain ⟨o',ret,hcopy,hf,hserved,hcopied,hlost⟩ := switchCopy_spec (o := o.setState s) hne hinv
    (hsrc ▸ h.mapped) (h.inv dst) (h.nmi dst) copy
  have hsub : o'.memSub = dst := by
    rw [← hdst,NatiObj.memSub,NatiObj.memSub,hf.currState]
  refine ⟨o',ret,hcopy,hf.currState.trans hs,hf.holdState,by rw [hsub,hsrc,hother],⟨?_,?_,?_,?_⟩,
    ?_,?_,?_⟩
  · rw [hf.currState]
    exact hs'
  · intro m
    by_cases hm : m = dst
    · exact hm ▸ hserved.inv
    · rw [hf.tbl m hm]
      exact h.inv m
  · intro m
    by_cases hm : m = dst
    · exact hm ▸ hserved.nmi
    · rw [hf.tbl m hm]
      exact h.nmi m
  · rw [hsub]
    exact hserved.mapped.toMapped
  · unfold NatiObj.Exact
    rw [hsub]
    exact hserved.mapped
  · rw [hsub,hsrc]
    exact hcopied
  · rw [hsub,hsrc]
    exact hlost

theorem smTblSwitch_spec (h : o.Sound) (env : SwitchEnv) :
    ∃ o' ret, smTblSwitch o env = (o',ret) ∧ (o' = o ∧ ret ≠ 0 ∨ Switched o o' ret) := by
  rcases h.state with hs | hs
  · have hsub : o.memSub = .sram := by rw [NatiObj.memSub,if_pos hs]
    by_cases hgo : o.ddrTblHdl ≠ none ∧ env.init = true
    · obtain ⟨o',ret,hcopy,hsw⟩ := switched_of_copy h .ddr .hybridDdr hsub
        (by rw [hs]; rfl) (Or.inr rfl) rfl rfl env.copy
      refine ⟨o',ret,?_,Or.inr hsw⟩
      simp [smTblSwitch,hs,smSwitchFromSramToDdr,smGoToDdr,hgo,hcopy]
    · refine ⟨o,-1,?_,Or.inl ⟨rfl,by decide⟩⟩
      simp [smTblSwitch,hs,smSwitchFromSramToDdr,smGoToDdr,hgo]
  · have hsub : o.memSub = .ddr := by
      rw [NatiObj.memSub,if_neg]
      simp [hs]
    by_cases hgo : o.sramTblHdl ≠ none ∧ env.init = true
    · obtain ⟨o',ret,hcopy,hsw⟩ := switched_of_copy h .sram .hybrid hsub
        (by rw [hs]; rfl) (Or.inl rfl) rfl rfl env.copy
      refine ⟨o',ret,?_,Or.inr hsw⟩
      simp [smTblSwitch,hs,smSwitchFromDdrToSram,smGoToSram,hgo,hcopy]
    · refine ⟨o,-1,?_,Or.inl ⟨rfl,by decide⟩⟩
      simp [smTblSwitch,hs,smSwitchFromDdrToSram,smGoToSram,hgo]

/-- Setting the state it already has changes no more than the previous state. -/
theorem setState_self_sound (h : o.Sound) {s : NatiState} (hs : o.currState = s) :
    (o.setState s).Sound ∧ (o.Exact → (o.setState s).Exact) := by
  subst hs
  exact ⟨⟨h.state,h.inv,h.nmi,h.mapped⟩,id⟩

end States

section Operations

variable {o : NatiObj}

/-- The condition under which `_smAddRuleToTbl` stores a rule in the table in use. -/
def Stores (o : NatiObj) (rule : Ipv4Rule) (ioctl : Bool) : Prop :=
  Accepts (o.tbl o.memSub) o.globals (resetRule rule) ioctl

instance (o : NatiObj) (rule : Ipv4Rule) (ioctl : Bool) : Decidable (Stores o rule ioctl) :=
  inferInstanceAs (Decidable (Accepts _ _ _ _))

/-- The value the original-handle map has for the handle of the slot a rule would get. -/
def inUse (o : NatiObj) (rule : Ipv4Rule) : Option ℕ :=
  ((o.tbl o.memSub).natTarget o.globals (resetRule rule)).bind fun new =>
    (o.mapPairs o.memSub).orig2new ((o.tbl o.memSub).realHdl new)

/-- The rule would be stored in a slot whose handle is the original handle of another rule. -/
def Collides (o : NatiObj) (rule : Ipv4Rule) (ioctl : Bool) : Prop :=
  Stores o rule ioctl ∧ inUse o rule ≠ none

instance (o : NatiObj) (rule : Ipv4Rule) (ioctl : Bool) : Decidable (Collides o rule ioctl) :=
  inferInstanceAs (Decidable (_ ∧ _))

/-- A rule that is stored: it is registered unless it collides. -/
theorem addRule_stored (h : o.Sound) {rule : Ipv4Rule} {ioctl : Bool}
    (hst : Stores o rule ioctl) :
    ∃ o₁ hdl o₂ ret, smAddRuleToTbl o rule ioctl = (o₁,0,hdl) ∧
      registerRule o₁ hdl = (o₂,ret) ∧ o₂.Sound ∧ o₂.currState = o.currState ∧
      (inUse o rule = none → ret = 0 ∧ (o.Exact → o₂.Exact)) ∧
      (inUse o rule ≠ none → ret ≠ 0 ∧ ¬ o₂.Exact) := by
  obtain ⟨own,iown,hinv⟩ := h.inv o.memSub
  obtain ⟨new,hnew⟩ := Option.ne_none_iff_exists'.mp hst.nat
  obtain ⟨idx,hidx⟩ := Option.ne_none_iff_exists'.mp hst.indx
  obtain ⟨n',g',hadd,ha⟩ := addIpv4Rule_accepted hinv hst hnew hidx
  obtain ⟨htot,hlt,hnl,hreal,hnmi⟩ := ha.slots hinv
  have huse : inUse o rule =
      (o.mapPairs o.memSub).orig2new ((o.tbl o.memSub).realHdl new) := by
    simp [inUse,hnew]
  have hfree := h.mapped.new2orig_eq_none hinv hlt hnl
  refine ⟨((o.setTbl o.memSub n').setGlobals g').setCntr o.memSub
    (inc32 (o.totRulesInTable o.memSub)),(o.tbl o.memSub).realHdl new,?_⟩
  rw [huse]
  cases horig : (o.mapPairs o.memSub).orig2new ((o.tbl o.memSub).realHdl new) with
  | none =>
    have hreg := mapAddPair_eq (((o.setTbl o.memSub n').setGlobals g').setCntr o.memSub
      (inc32 (o.totRulesInTable o.memSub))) o.memSub ((o.tbl o.memSub).realHdl new)
      ((o.tbl o.memSub).realHdl new) (by simpa using horig) (by simpa using hfree)
    refine ⟨_,_,?_,hreg,?_,by simp,fun _ => ⟨rfl,fun hex => ?_⟩,fun hne => absurd rfl hne⟩
    · simp only [smAddRuleToTbl,hadd,if_true,NatTable.realHdl]
    · refine h.update (by simp) (fun k hk => ?_) ⟨_,_,by simpa using ha.inv hinv⟩ ?_ ?_
      · simp [hk]
      · simpa using hnmi
      · simpa using h.mapped.insert ha hinv horig
    · have hall := MappedAll.insert hex ha hinv horig
      simpa [NatiObj.Exact] using hall
  | some r =>
    have hreg := mapAddPair_in_use (((o.setTbl o.memSub n').setGlobals g').setCntr o.memSub
      (inc32 (o.totRulesInTable o.memSub))) o.memSub ((o.tbl o.memSub).realHdl new)
      ((o.tbl o.memSub).realHdl new) (by simpa using horig)
    refine ⟨_,_,?_,hreg,?_,by simp,(fun hne => by cases hne),fun _ => ⟨by decide,fun hex => ?_⟩⟩
    · simp only [smAddRuleToTbl,hadd,if_true,NatTable.realHdl]
    · refine h.update (by simp) (fun k hk => ?_) ⟨_,_,by simpa using ha.inv hinv⟩ ?_ ?_
      · simp [hk]
      · simpa using hnmi
      · simpa using h.mapped.stored ha hinv
    · have hall := hex.all new (by simpa using (ha.live_iff hinv new).mpr (Or.inl rfl))
      simp [hreal,hfree] at hall

end Operations

end IpaNat
end MarbleModules
