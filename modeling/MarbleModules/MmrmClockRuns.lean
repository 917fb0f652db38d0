import Mathlib.Tactic
import Mathlib.Algebra.BigOperators.Intervals
import MarbleModules.MmrmClock

/-! The bookkeeping of the peak current: what the incremental updates of level and value
have to do with the clients that are active, over every run with throttling disabled. -/
namespace MarbleModules
namespace MmrmClock

section Definitions

/-- The level a client asks for, and what it draws at an aggregated level; nothing unless it
has a clock rate. -/
def activeLevel (e : ClkEntry) : ℕ := if e.clkRate = 0 then 0 else e.vddLevel

def draw (e : ClkEntry) (level : ℕ) : ℕ :=
  if e.clkRate = 0 then 0 else e.currentMa e.vddLevel level * e.numHwBlocks

def SwInfo.clients (s : SwInfo) : Finset ℕ := Finset.range s.totClkClients

/-- The aggregated level is the highest of the active clients, the aggregated value the sum of
what they draw at it. -/
def Bookkept (s : SwInfo) : Prop :=
  s.peakCurData.aggregLevel = s.clients.sup (fun c => activeLevel (s.clkClientTbl c)) ∧
  s.peakCurData.aggregVal =
    ∑ c ∈ s.clients, draw (s.clkClientTbl c) s.peakCurData.aggregLevel

/-- The same for the clients other than `c`. -/
def othersLevel (s : SwInfo) (c : ℕ) : ℕ :=
  (s.clients.erase c).sup fun k => activeLevel (s.clkClientTbl k)

def othersDraw (s : SwInfo) (c level : ℕ) : ℕ :=
  ∑ k ∈ s.clients.erase c, draw (s.clkClientTbl k) level

/-- The other active clients above a level, in the order of the table. -/
def othersAbove (s : SwInfo) (c level : ℕ) : List ℕ :=
  (List.range s.totClkClients).filter fun k =>
    k ≠ c ∧ (s.clkClientTbl k).clkRate ≠ 0 ∧ level < (s.clkClientTbl k).vddLevel

/-- When client `c` leaves the aggregated level alone, the last other client above the level
it asks for is on the highest level of them. -/
def NextLevelOk (s : SwInfo) (c reqLevel : ℕ) : Prop :=
  reqLevel < s.peakCurData.aggregLevel → othersLevel s c ≠ s.peakCurData.aggregLevel →
    ∀ k ∈ (othersAbove s c reqLevel).getLast?, (s.clkClientTbl k).vddLevel = othersLevel s c

/-- Nothing is lost when the rate is cut down to 32 bits. -/
def RateOk (s : SwInfo) (c reqLevel : ℕ) (r : SetvalReq) : Prop :=
  r.clkVal = 0 ∨ wrap r.clkVal ≠ 0 ∨
    (s.clkClientTbl c).currentMa reqLevel (max reqLevel (othersLevel s c)) * r.numHwBlocks = 0

/-- The request passes the comparison with the threshold. -/
def Admitted (s : SwInfo) (c reqLevel : ℕ) (r : SetvalReq) : Prop :=
  ∃ adj peak delta, peakRequest s c reqLevel r.clkVal r.numHwBlocks = some (adj,peak,delta) ∧
    (signedNonpos (wrap (peak + delta)) = true ∨ wrap (peak + delta) < s.peakCurData.threshold)

/-- What keeps the books in order: an admitted request whose level and rate are handled
exactly, and no deregistration of a client that counts. -/
def KeepsPeak (s : SwInfo) : Op → Prop
  | .setval env r => ∀ level, setvalPath s env r = .checkPeak level → Admitted s r.uid level r →
      NextLevelOk s r.uid level ∧ RateOk s r.uid level r
  | .deregister uid => uid < s.totClkClients → (s.clkClientTbl uid).refCount ≤ 1 →
      othersLevel s uid = s.peakCurData.aggregLevel ∧
        draw (s.clkClientTbl uid) s.peakCurData.aggregLevel = 0
  | _ => True

/-- Throttling stays disabled, and registered currents are within the bounds `B`. -/
def Allowed (B : ℕ → ℕ) (s : SwInfo) : Op → Prop
  | .setThrottleFeature on => on = false
  | .register r => ∀ c < s.totClkClients, (s.clkClientTbl c).clkSrcId = r.clkSrcId →
      ∀ l < vddLevelMax, ∀ l' < vddLevelMax,
        r.currentMa l l' * (s.clkClientTbl c).maxNumHwBlocks ≤ B c
  | _ => True

instance decidableAllowed (B : ℕ → ℕ) (s : SwInfo) : ∀ op, Decidable (Allowed B s op)
  | .setThrottleFeature on => inferInstanceAs (Decidable (on = false))
  | .register r => inferInstanceAs (Decidable (∀ c < s.totClkClients,
      (s.clkClientTbl c).clkSrcId = r.clkSrcId → ∀ l < vddLevelMax, ∀ l' < vddLevelMax,
        r.currentMa l l' * (s.clkClientTbl c).maxNumHwBlocks ≤ B c))
  | .setval _ _ => isTrue trivial
  | .deregister _ => isTrue trivial
  | .setMultipleRegister _ => isTrue trivial

/-- A row of the client table: what has no clock is idle, what is registered is the first
entry of its clock source and within its bounds. -/
structure EntryOk (B : ℕ → ℕ) (s : SwInfo) (c : ℕ) (e : ClkEntry) : Prop where
  clk : e.clk = false → e.clkRate = 0
  client : e.client = false → e.clk = false
  level : e.clkRate ≠ 0 → e.vddLevel < vddLevelMax
  blocks : e.clkRate ≠ 0 → e.numHwBlocks ≤ e.maxNumHwBlocks
  bound : e.client = true → ∀ l < vddLevelMax, ∀ l' < vddLevelMax,
    e.currentMa l l' * e.maxNumHwBlocks ≤ B c
  first : e.client = true → ∀ k < c, (s.clkClientTbl k).clkSrcId ≠ e.clkSrcId

structure TableOk (B : ℕ → ℕ) (s : SwInfo) : Prop where
  throttle : s.enableThrottleFeature = false
  entry : ∀ c < s.totClkClients, EntryOk B s c (s.clkClientTbl c)
  bound : ∑ c ∈ s.clients, B c < 2147483648

end Definitions

section Sums

variable {s : SwInfo} {c level : ℕ} {B : ℕ → ℕ}

theorem mem_clients : c ∈ s.clients ↔ c < s.totClkClients := Finset.mem_range

theorem sup_split (hc : c < s.totClkClients) :
    s.clients.sup (fun k => activeLevel (s.clkClientTbl k)) =
      max (activeLevel (s.clkClientTbl c)) (othersLevel s c) := by
  conv_lhs => rw [← Finset.insert_erase (mem_clients.mpr hc),Finset.sup_insert]
  rfl

theorem sum_split (hc : c < s.totClkClients) (level : ℕ) :
    ∑ k ∈ s.clients, draw (s.clkClientTbl k) level =
      draw (s.clkClientTbl c) level + othersDraw s c level :=
  (Finset.add_sum_erase _ _ (mem_clients.mpr hc)).symm

@[simp] theorem setEntry_clients (e : ClkEntry) : (s.setEntry c e).clients = s.clients := rfl
@[simp] theorem setEntry_peakCurData (e : ClkEntry) :
    (s.setEntry c e).peakCurData = s.peakCurData := rfl

theorem othersLevel_congr {s' : SwInfo} (htot : s'.totClkClients = s.totClkClients)
    (h : ∀ k, k ≠ c → s'.clkClientTbl k = s.clkClientTbl k) :
    othersLevel s' c = othersLevel s c := by
  unfold othersLevel SwInfo.clients
  rw [htot]
  exact Finset.sup_congr rfl fun k hk => by rw [h k (Finset.ne_of_mem_erase hk)]

theorem othersDraw_congr {s' : SwInfo} (htot : s'.totClkClients = s.totClkClients)
    (h : ∀ k, k ≠ c → s'.clkClientTbl k = s.clkClientTbl k) (level : ℕ) :
    othersDraw s' c level = othersDraw s c level := by
  unfold othersDraw SwInfo.clients
  rw [htot]
  exact Finset.sum_congr rfl fun k hk => by rw [h k (Finset.ne_of_mem_erase hk)]

/-- The books after the entry of one client has changed, in terms of the others. -/
theorem bookkept_iff (hc : c < s.totClkClients) :
    Bookkept s ↔
      s.peakCurData.aggregLevel = max (activeLevel (s.clkClientTbl c)) (othersLevel s c) ∧
      s.peakCurData.aggregVal = draw (s.clkClientTbl c) s.peakCurData.aggregLevel +
        othersDraw s c s.peakCurData.aggregLevel := by
  rw [Bookkept,sup_split hc,sum_split hc]

/-- The books after the entry of one client has been replaced. -/
theorem bookkept_replaced {s' : SwInfo} {e : ClkEntry} (hc : c < s.totClkClients)
    (htbl : s'.clkClientTbl = Function.update s.clkClientTbl c e)
    (htot : s'.totClkClients = s.totClkClients) :
    Bookkept s' ↔ s'.peakCurData.aggregLevel = max (activeLevel e) (othersLevel s c) ∧
      s'.peakCurData.aggregVal = draw e s'.peakCurData.aggregLevel +
        othersDraw s c s'.peakCurData.aggregLevel := by
  have hother : ∀ k, k ≠ c → s'.clkClientTbl k = s.clkClientTbl k := by
    intro k hk
    rw [htbl,Function.update_of_ne hk]
  have hself : s'.clkClientTbl c = e := by rw [htbl,Function.update_self]
  rw [bookkept_iff (by rw [htot]; exact hc),othersLevel_congr htot hother,
    othersDraw_congr htot hother,hself]

theorem EntryOk.draw_le {e : ClkEntry} (h : EntryOk B s c e) (hlevel : level < vddLevelMax) :
    draw e level ≤ B c := by
  unfold draw
  split
  · exact Nat.zero_le _
  · next hrate =>
    have hclient : e.client = true := by
      by_contra hh
      exact hrate (h.clk (h.client (by simpa using hh)))
    exact le_trans (Nat.mul_le_mul_left _ (h.blocks hrate))
      (h.bound hclient _ (h.level hrate) _ hlevel)

theorem TableOk.othersDraw_le (h : TableOk B s) (hc : c < s.totClkClients)
    (hlevel : level < vddLevelMax) : othersDraw s c level + B c < 2147483648 := by
  have hle : othersDraw s c level ≤ ∑ k ∈ s.clients.erase c, B k :=
    Finset.sum_le_sum fun k hk =>
      (h.entry k (mem_clients.mp (Finset.mem_of_mem_erase hk))).draw_le hlevel
  have hsum := Finset.add_sum_erase s.clients B (mem_clients.mpr hc)
  have hbound := h.bound
  omega

theorem wrap_of_lt {n : ℕ} (h : n < 4294967296) : wrap n = n := Nat.mod_eq_of_lt h

/-- The loop of `mmrm_sw_calculate_total_current` over the first `n` entries. -/
theorem foldl_total (hskip : c < s.totClkClients) (n : ℕ)
    (hn : n ≤ s.totClkClients) (hclk : ∀ k < s.totClkClients,
      (s.clkClientTbl k).clk = false → (s.clkClientTbl k).clkRate = 0)
    (hbound : othersDraw s c level < 4294967296) :
    (List.range n).foldl (fun sum k =>
      if (s.clkClientTbl k).clk = false ∨ (s.clkClientTbl k).clkRate = 0 ∨ k = c then sum
      else wrap (sum + contribution (s.clkClientTbl k) level)) 0 =
        ∑ k ∈ (Finset.range n).erase c, draw (s.clkClientTbl k) level := by
  induction n with
  | zero => simp
  | succ n ih =>
    rw [List.range_succ,List.foldl_append,ih (by omega)]
    simp only [List.foldl_cons,List.foldl_nil]
    have hpart : ∑ k ∈ (Finset.range (n+1)).erase c, draw (s.clkClientTbl k) level ≤
        othersDraw s c level :=
      Finset.sum_le_sum_of_subset
        (Finset.erase_subset_erase c (Finset.range_subset_range.mpr hn))
    by_cases hnc : n = c
    · subst hnc
      rw [if_pos (Or.inr (Or.inr rfl)),Finset.range_add_one,Finset.erase_insert_eq_erase]
    · have hins : (Finset.range (n+1)).erase c = insert n ((Finset.range n).erase c) := by
        rw [Finset.range_add_one,Finset.erase_insert_of_ne hnc]
      rw [hins,Finset.sum_insert (by simp)] at hpart
      rw [hins,Finset.sum_insert (by simp)]
      by_cases hrate : (s.clkClientTbl n).clkRate = 0
      · rw [if_pos (Or.inr (Or.inl hrate))]
        simp [draw,hrate]
      · have hc : (s.clkClientTbl n).clk ≠ false := fun hh => hrate (hclk n (by omega) hh)
        rw [if_neg (by simp [hc,hrate,hnc])]
        have hdraw : draw (s.clkClientTbl n) level = (s.clkClientTbl n).currentMa
            (s.clkClientTbl n).vddLevel level * (s.clkClientTbl n).numHwBlocks := by
          simp [draw,hrate]
        rw [contribution,← hdraw,wrap_of_lt (n := draw (s.clkClientTbl n) level) (by omega),
          wrap_of_lt (by omega),add_comm]

/-- `mmrm_sw_calculate_total_current` adds up the other clients. -/
theorem calculateTotalCurrent_eq (h : TableOk B s) (hc : c < s.totClkClients)
    (hlevel : level < vddLevelMax) :
    mmrmSwCalculateTotalCurrent s level c = some (othersDraw s c level) := by
  have hlt := h.othersDraw_le hc hlevel
  rw [mmrmSwCalculateTotalCurrent,if_neg (by omega)]
  congr 1
  exact foldl_total hc s.totClkClients le_rfl (fun k hk => (h.entry k hk).clk) (by omega)

end Sums

section Levels

variable {s : SwInfo} {c srcId reqLevel : ℕ} {B : ℕ → ℕ}

/-- The loop stops at a client on the aggregated level, else it keeps the last one between. -/
theorem nextMaxLoop_eq (n : ℕ) : ∀ (i : ℕ) (acc : Option ℕ),
    nextMaxLoop s srcId reqLevel i n acc =
      if ∃ k ∈ List.range' i n, otherActive srcId (s.clkClientTbl k) = true ∧
          (s.clkClientTbl k).vddLevel = s.peakCurData.aggregLevel then none
      else
        some ((((List.range' i n).filter fun k => otherActive srcId (s.clkClientTbl k) = true ∧
          (s.clkClientTbl k).vddLevel < s.peakCurData.aggregLevel ∧
            reqLevel < (s.clkClientTbl k).vddLevel).getLast?.map
              fun k => (s.clkClientTbl k).vddLevel).or acc) := by
  induction n with
  | zero => simp [nextMaxLoop]
  | succ n ih =>
    intro i acc
    rw [nextMaxLoop,List.range'_succ]
    by_cases hact : otherActive srcId (s.clkClientTbl i) = true
    · rw [if_pos hact]
      by_cases hlevel : (s.clkClientTbl i).vddLevel = s.peakCurData.aggregLevel
      · simp [hact,hlevel]
      · rw [if_neg hlevel,ih]
        by_cases hbetween : (s.clkClientTbl i).vddLevel < s.peakCurData.aggregLevel ∧
            reqLevel < (s.clkClientTbl i).vddLevel
        · rw [if_pos hbetween]
          simp only [List.mem_cons,exists_eq_or_imp,hlevel,and_false,false_or,List.filter_cons,
            hact,hbetween,and_self,decide_true,if_true,List.getLast?_cons]
          split
          · rfl
          · cases (List.filter _ (List.range' (i+1) n)).getLast? <;> simp
        · rw [if_neg hbetween]
          simp only [List.mem_cons,exists_eq_or_imp,hlevel,and_false,false_or,List.filter_cons,
            hact,hbetween,decide_false,Bool.false_eq_true,if_false]
    · rw [if_neg hact,ih]
      simp only [List.mem_cons,exists_eq_or_imp,hact,false_and,false_or,List.filter_cons,
        decide_false,Bool.false_eq_true,if_false]

/-- The clients the level loop looks at are the active ones other than `c`. -/
theorem TableOk.otherActive_iff (h : TableOk B s) (hc : c < s.totClkClients)
    (hclk : (s.clkClientTbl c).clk = true) {k : ℕ} (hk : k < s.totClkClients) :
    otherActive (s.clkClientTbl c).clkSrcId (s.clkClientTbl k) = true ↔
      k ≠ c ∧ (s.clkClientTbl k).clkRate ≠ 0 := by
  have hk' := h.entry k hk
  have hc' := h.entry c hc
  have hclient : ∀ j < s.totClkClients, (s.clkClientTbl j).clk = true →
      (s.clkClientTbl j).client = true := by
    intro j hj hh
    by_contra hcl
    have hno := (h.entry j hj).client (by simpa using hcl)
    rw [hh] at hno
    cases hno
  simp only [otherActive,Bool.and_eq_true,decide_eq_true_eq]
  constructor
  · rintro ⟨⟨_,hrate⟩,hsrc⟩
    refine ⟨?_,hrate⟩
    rintro rfl
    exact hsrc rfl
  · rintro ⟨hne,hrate⟩
    have hkclk : (s.clkClientTbl k).clk = true := by
      by_contra hh
      exact hrate (hk'.clk (by simpa using hh))
    refine ⟨⟨hkclk,hrate⟩,fun heq => ?_⟩
    rcases Nat.lt_or_gt_of_ne hne with hlt | hgt
    · exact hc'.first (hclient c hc hclk) k hlt heq
    · exact hk'.first (hclient k hk hkclk) c hgt heq.symm

theorem le_othersLevel {k : ℕ} (hk : k < s.totClkClients) (hne : k ≠ c)
    (hrate : (s.clkClientTbl k).clkRate ≠ 0) : (s.clkClientTbl k).vddLevel ≤ othersLevel s c := by
  have hmem : k ∈ s.clients.erase c := Finset.mem_erase.mpr ⟨hne,mem_clients.mpr hk⟩
  have hlevel : activeLevel (s.clkClientTbl k) = (s.clkClientTbl k).vddLevel := by
    simp [activeLevel,hrate]
  rw [← hlevel]
  exact Finset.le_sup (f := fun k => activeLevel (s.clkClientTbl k)) hmem

/-- The highest level is that of some client, unless it is zero. -/
theorem exists_othersLevel (hpos : othersLevel s c ≠ 0) : ∃ k < s.totClkClients, k ≠ c ∧
    (s.clkClientTbl k).clkRate ≠ 0 ∧ (s.clkClientTbl k).vddLevel = othersLevel s c := by
  have hne : (s.clients.erase c).Nonempty := by
    by_contra hh
    rw [Finset.not_nonempty_iff_eq_empty] at hh
    exact hpos (by rw [othersLevel,hh]; rfl)
  obtain ⟨k,hk,hsup⟩ := Finset.exists_mem_eq_sup _ hne fun k => activeLevel (s.clkClientTbl k)
  obtain ⟨hkc,hks⟩ := Finset.mem_erase.mp hk
  have hlevel : activeLevel (s.clkClientTbl k) = othersLevel s c := hsup.symm
  refine ⟨k,mem_clients.mp hks,hkc,fun hrate => ?_,?_⟩
  · exact hpos (by rw [← hlevel]; simp [activeLevel,hrate])
  · have hrate : (s.clkClientTbl k).clkRate ≠ 0 := fun hrate =>
      hpos (by rw [← hlevel]; simp [activeLevel,hrate])
    simpa [activeLevel,hrate] using hlevel

/-- The adjusted level is the highest of the request and the other clients, except when the
client leaves the aggregated level alone and the last one above the request is not the highest. -/
theorem checkReqLevel_spec (h : TableOk B s) (hb : Bookkept s) (hc : c < s.totClkClients)
    (hclk : (s.clkClientTbl c).clk = true) (hlevel : reqLevel < vddLevelMax) :
    ∃ adj, mmrmSwCheckReqLevel s (s.clkClientTbl c).clkSrcId reqLevel = some adj ∧
      adj < vddLevelMax ∧ (adj = max reqLevel (othersLevel s c) ↔ NextLevelOk s c reqLevel) := by
  have hagg := ((bookkept_iff hc).mp hb).1
  have hothers : othersLevel s c ≤ s.peakCurData.aggregLevel := by
    rw [hagg]
    exact le_max_right _ _
  have hmax : s.peakCurData.aggregLevel < vddLevelMax := by
    rw [hb.1,Finset.sup_lt_iff (by decide)]
    intro k hk
    unfold activeLevel
    split
    · decide
    · next hrate => exact (h.entry k (mem_clients.mp hk)).level hrate
  rw [mmrmSwCheckReqLevel,if_neg (by omega)]
  split
  · next hlt =>
    rw [nextMaxLoop_eq,← List.range_eq_range']
    by_cases hat : othersLevel s c = s.peakCurData.aggregLevel
    · obtain ⟨k,hk,hkc,hrate,hkl⟩ := exists_othersLevel (s := s) (c := c) (by omega)
      rw [if_pos ⟨k,List.mem_range.mpr hk,(h.otherActive_iff hc hclk hk).mpr ⟨hkc,hrate⟩,
        hkl.trans hat⟩]
      refine ⟨_,rfl,hmax,?_⟩
      rw [hat]
      exact ⟨fun _ _ hne => absurd hat hne,fun _ => by omega⟩
    · have hbelow : ∀ k < s.totClkClients, k ≠ c → (s.clkClientTbl k).clkRate ≠ 0 →
          (s.clkClientTbl k).vddLevel < s.peakCurData.aggregLevel := by
        intro k hk hkc hrate
        have hle := le_othersLevel hk hkc hrate
        omega
      have hnone : ¬ ∃ k ∈ List.range s.totClkClients,
          otherActive (s.clkClientTbl c).clkSrcId (s.clkClientTbl k) = true ∧
            (s.clkClientTbl k).vddLevel = s.peakCurData.aggregLevel := by
        rintro ⟨k,hk,hact,hkl⟩
        have hk' := List.mem_range.mp hk
        obtain ⟨hkc,hrate⟩ := (h.otherActive_iff hc hclk hk').mp hact
        have hh := hbelow k hk' hkc hrate
        omega
      have hfilter : ((List.range s.totClkClients).filter fun k =>
          otherActive (s.clkClientTbl c).clkSrcId (s.clkClientTbl k) = true ∧
            (s.clkClientTbl k).vddLevel < s.peakCurData.aggregLevel ∧
              reqLevel < (s.clkClientTbl k).vddLevel) = othersAbove s c reqLevel := by
        refine List.filter_congr fun k hk => ?_
        have hk' := List.mem_range.mp hk
        refine decide_eq_decide.mpr ?_
        rw [h.otherActive_iff hc hclk hk']
        exact ⟨fun hh => ⟨hh.1.1,hh.1.2,hh.2.2⟩,fun hh => ⟨⟨hh.1,hh.2.1⟩,hbelow k hk' hh.1 hh.2.1,
          hh.2.2⟩⟩
      rw [if_neg hnone,hfilter]
      cases hlast : (othersAbove s c reqLevel).getLast? with
      | none =>
        refine ⟨reqLevel,rfl,hlevel,?_⟩
        have hempty := List.getLast?_eq_none_iff.mp hlast
        have hle : othersLevel s c ≤ reqLevel := by
          by_contra hgt
          obtain ⟨k,hk,hkc,hrate,hkl⟩ := exists_othersLevel (s := s) (c := c) (by omega)
          have hmem : k ∈ othersAbove s c reqLevel :=
            List.mem_filter.mpr ⟨List.mem_range.mpr hk,by
              rw [decide_eq_true_eq]
              exact ⟨hkc,hrate,by omega⟩⟩
          rw [hempty] at hmem
          cases hmem
        refine ⟨fun _ _ _ k hk => ?_,fun _ => by omega⟩
        rw [hlast] at hk
        cases hk
      | some k =>
        have hmem := List.mem_of_getLast? hlast
        obtain ⟨hkr,hk⟩ := List.mem_filter.mp hmem
        rw [decide_eq_true_eq] at hk
        obtain ⟨hkc,hrate,habove⟩ := hk
        have hle := le_othersLevel (List.mem_range.mp hkr) hkc hrate
        have hkl := hbelow k (List.mem_range.mp hkr) hkc hrate
        refine ⟨(s.clkClientTbl k).vddLevel,by simp [habove],by omega,?_⟩
        constructor
        · intro heq _ _ k' hk'
          rw [hlast] at hk'
          obtain rfl := Option.some.inj hk'
          omega
        · intro hok
          have hh := hok hlt hat k hlast
          omega
  · next hge =>
    exact ⟨reqLevel,rfl,hlevel,fun _ hlt => absurd hlt hge,fun _ => by omega⟩

end Levels

section Steps

variable {s s' : SwInfo} {c level adj : ℕ} {B : ℕ → ℕ} {r : SetvalReq} {e : ClkEntry}

theorem EntryOk.congr (h : EntryOk B s c e)
    (hsrc : ∀ k, (s'.clkClientTbl k).clkSrcId = (s.clkClientTbl k).clkSrcId) : EntryOk B s' c e :=
  ⟨h.clk,h.client,h.level,h.blocks,h.bound,fun hcl k hk => by
    rw [hsrc]
    exact h.first hcl k hk⟩

/-- The peak data and the list of throttled clients do not matter for the table. -/
theorem TableOk.congr (h : TableOk B s) (htbl : s'.clkClientTbl = s.clkClientTbl)
    (htot : s'.totClkClients = s.totClkClients)
    (hthr : s'.enableThrottleFeature = s.enableThrottleFeature) : TableOk B s' := by
  refine ⟨hthr.trans h.throttle,fun k hk => ?_,?_⟩
  · rw [htot] at hk
    rw [htbl]
    exact (h.entry k hk).congr fun j => by rw [htbl]
  · unfold SwInfo.clients
    rw [htot]
    exact h.bound

theorem TableOk.setEntry (h : TableOk B s) (hsrc : e.clkSrcId = (s.clkClientTbl c).clkSrcId)
    (he : c < s.totClkClients → EntryOk B s c e) : TableOk B (s.setEntry c e) := by
  have hids : ∀ k, ((s.setEntry c e).clkClientTbl k).clkSrcId = (s.clkClientTbl k).clkSrcId := by
    intro k
    by_cases hk : k = c
    · subst hk
      simpa [SwInfo.setEntry] using hsrc
    · simp [SwInfo.setEntry,hk]
  refine ⟨h.throttle,fun k hk => EntryOk.congr ?_ hids,h.bound⟩
  by_cases hkc : k = c
  · subst hkc
    simpa [SwInfo.setEntry] using he hk
  · simpa [SwInfo.setEntry,hkc] using h.entry k hk

/-- The books only depend on what the clients ask for and draw. -/
theorem Bookkept.setEntry (hb : Bookkept s) (hlevel : activeLevel e = activeLevel (s.clkClientTbl c))
    (hdraw : ∀ l, draw e l = draw (s.clkClientTbl c) l) : Bookkept (s.setEntry c e) := by
  have hsame : ∀ k, activeLevel ((s.setEntry c e).clkClientTbl k) =
      activeLevel (s.clkClientTbl k) ∧ ∀ l, draw ((s.setEntry c e).clkClientTbl k) l =
        draw (s.clkClientTbl k) l := by
    intro k
    by_cases hk : k = c
    · subst hk
      simpa [SwInfo.setEntry] using ⟨hlevel,hdraw⟩
    · simp [SwInfo.setEntry,hk]
  unfold Bookkept
  simp only [setEntry_clients,setEntry_peakCurData,hsame]
  exact hb

/-- What the request will draw, without the cut of the rate to 32 bits. -/
def newDraw (s : SwInfo) (c level adj : ℕ) (r : SetvalReq) : ℕ :=
  if r.clkVal = 0 then 0 else (s.clkClientTbl c).currentMa level adj * r.numHwBlocks

/-- Where a request that is checked comes from: the entry has a clock, and level and blocks
are within their bounds. -/
theorem setvalPath_checkPeak {env : Env} (hpath : setvalPath s env r = .checkPeak level) :
    r.uid < s.totClkClients ∧ (s.clkClientTbl r.uid).clk = true ∧ level < vddLevelMax ∧
      (r.clkVal = 0 → level = 0) ∧
      (r.clkVal ≠ 0 → r.numHwBlocks ≤ (s.clkClientTbl r.uid).maxNumHwBlocks) := by
  unfold setvalPath at hpath
  dsimp only at hpath
  split at hpath
  · cases hpath
  · next huid =>
    split at hpath
    · cases hpath
    · next hclk =>
      have hclk' : (s.clkClientTbl r.uid).clk = true := by simpa using hclk
      split at hpath
      · split at hpath
        · cases hpath
        · split at hpath <;> cases hpath
      · split at hpath
        · next hval =>
          split at hpath
          · cases hpath
          · split at hpath
            · cases hpath
            · next hlevel =>
              split at hpath
              · next hblocks =>
                cases hpath
                exact ⟨by omega,hclk',by omega,fun hh => absurd hh hval,fun _ => hblocks.2⟩
              · cases hpath
        · next hval =>
          cases hpath
          exact ⟨by omega,hclk',by decide,fun _ => rfl,fun hh => absurd hh hval⟩

theorem TableOk.newDraw_le (h : TableOk B s) (hc : c < s.totClkClients)
    (hclk : (s.clkClientTbl c).clk = true) (hlevel : level < vddLevelMax) (hadj : adj < vddLevelMax)
    (hblocks : r.clkVal ≠ 0 → r.numHwBlocks ≤ (s.clkClientTbl c).maxNumHwBlocks) :
    newDraw s c level adj r ≤ B c := by
  unfold newDraw
  split
  · exact Nat.zero_le _
  · next hval =>
    have hclient : (s.clkClientTbl c).client = true := by
      by_contra hcl
      have hno := (h.entry c hc).client (by simpa using hcl)
      rw [hclk] at hno
      cases hno
    exact le_trans (Nat.mul_le_mul_left _ (hblocks hval))
      ((h.entry c hc).bound hclient level hlevel adj hadj)

theorem wrapSub_add {a b n : ℕ} (ha : a < 4294967296) (hb : b ≤ n) (hn : n - b + a < 4294967296) :
    wrap (n + wrapSub a b) = n - b + a := by
  simp only [wrap,wrapSub]
  omega

/-- The sum that is compared with the threshold: what the others draw at the adjusted level,
and what the request adds. -/
theorem peakRequest_spec (h : TableOk B s) (hb : Bookkept s) (hc : c < s.totClkClients)
    (hclk : (s.clkClientTbl c).clk = true) (hlevel : level < vddLevelMax)
    (hblocks : r.clkVal ≠ 0 → r.numHwBlocks ≤ (s.clkClientTbl c).maxNumHwBlocks) :
    ∃ adj peak delta, peakRequest s c level r.clkVal r.numHwBlocks = some (adj,peak,delta) ∧
      adj < vddLevelMax ∧ (adj = max level (othersLevel s c) ↔ NextLevelOk s c level) ∧
      wrap (peak + delta) = othersDraw s c adj +
        (if wrap r.clkVal = 0 then 0 else newDraw s c level adj r) ∧
      wrap (peak + delta) < 2147483648 := by
  obtain ⟨adj,hreq,hadj,hok⟩ := checkReqLevel_spec h hb hc hclk hlevel
  have hnew := h.newDraw_le hc hclk hlevel hadj hblocks
  have hothers := h.othersDraw_le hc hadj
  have hcur : newCur (s.clkClientTbl c) level adj r.clkVal r.numHwBlocks =
      if wrap r.clkVal = 0 then 0 else newDraw s c level adj r := by
    unfold newCur
    split
    · rfl
    · next hval =>
      have hval' : r.clkVal ≠ 0 := by
        intro hh
        rw [hh] at hval
        exact hval rfl
      rw [newDraw,if_neg hval'] at hnew ⊢
      exact wrap_of_lt (by omega)
  have hle : (if wrap r.clkVal = 0 then 0 else newDraw s c level adj r) ≤ B c := by
    split
    · exact Nat.zero_le _
    · exact hnew
  unfold peakRequest
  simp only [hreq]
  by_cases hsame : adj = s.peakCurData.aggregLevel
  · have hold : oldCur s (s.clkClientTbl c) = draw (s.clkClientTbl c) adj := by
      have hdraw := (h.entry c hc).draw_le hadj
      rw [hsame] at hdraw ⊢
      unfold draw at hdraw ⊢
      unfold oldCur contribution
      split
      · rfl
      · next hrate =>
        rw [if_neg hrate] at hdraw
        exact wrap_of_lt (by omega)
    have hval := ((bookkept_iff hc).mp hb).2
    rw [← hsame] at hval
    rw [if_neg (by simpa using hsame),hcur,hold]
    refine ⟨adj,_,_,rfl,hadj,hok,?_⟩
    have hwrap : wrap (s.peakCurData.aggregVal + wrapSub
        (if wrap r.clkVal = 0 then 0 else newDraw s c level adj r)
        (draw (s.clkClientTbl c) adj)) = othersDraw s c adj +
          (if wrap r.clkVal = 0 then 0 else newDraw s c level adj r) := by
      rw [wrapSub_add (by omega) (by omega) (by omega)]
      omega
    exact ⟨hwrap,by omega⟩
  · rw [if_pos hsame,calculateTotalCurrent_eq h hc hadj,hcur]
    refine ⟨adj,_,_,rfl,hadj,hok,?_⟩
    rw [Nat.add_zero,wrap_of_lt (n := wrap _) (Nat.mod_lt _ (by decide)),wrap_of_lt (by omega)]
    exact ⟨rfl,by omega⟩

theorem signedNonpos_iff {n : ℕ} (hn : n < 2147483648) : signedNonpos n = true ↔ n = 0 := by
  simp only [signedNonpos,Bool.or_eq_true,decide_eq_true_eq]
  omega

/-- With throttling disabled the check stores the sum, or refuses the request. -/
theorem checkPeakCurrent_spec (env : Env) {peak delta : ℕ} (hthr : s.enableThrottleFeature = false)
    (hreq : peakRequest s c level r.clkVal r.numHwBlocks = some (adj,peak,delta))
    (hlt : wrap (peak + delta) < 2147483648) :
    (Admitted s c level r → ∃ tc, mmrmSwCheckPeakCurrent s env c level r.clkVal r.numHwBlocks =
      ({ s.setPeak (wrap (peak + delta)) adj with throttledClients := tc },0)) ∧
    (¬ Admitted s c level r →
      mmrmSwCheckPeakCurrent s env c level r.clkVal r.numHwBlocks = (s,-einval)) := by
  have hadm : Admitted s c level r ↔ signedNonpos (wrap (peak + delta)) = true ∨
      wrap (peak + delta) < s.peakCurData.threshold := by
    constructor
    · rintro ⟨adj',peak',delta',heq,hh⟩
      rw [hreq] at heq
      obtain ⟨rfl,rfl,rfl⟩ := Option.some.inj heq
      exact hh
    · exact fun hh => ⟨adj,peak,delta,hreq,hh⟩
  rw [hadm]
  unfold mmrmSwCheckPeakCurrent
  simp only [hreq]
  by_cases hnon : signedNonpos (wrap (peak + delta)) = true
  · rw [if_pos hnon]
    refine ⟨fun _ => ⟨s.throttledClients,?_⟩,fun hh => absurd (Or.inl hnon) hh⟩
    rw [(signedNonpos_iff hlt).mp hnon]
    rfl
  · rw [if_neg hnon]
    by_cases hthreshold : s.peakCurData.threshold ≤ wrap (peak + delta)
    · rw [if_pos hthreshold,if_neg (by simp [hthr])]
      exact ⟨fun hh => hh.elim (fun hn => absurd hn hnon) (by omega),fun _ => rfl⟩
    · rw [if_neg hthreshold]
      exact ⟨fun _ => ⟨_,rfl⟩,fun hh => absurd (Or.inr (by omega)) hh⟩

theorem setval_spec (h : TableOk B s) (hb : Bookkept s) (env : Env) (r : SetvalReq) :
    TableOk B (mmrmSwClkClientSetval s env r).1 ∧
      (Bookkept (mmrmSwClkClientSetval s env r).1 ↔ KeepsPeak s (.setval env r)) := by
  have hreserve : ∀ b, TableOk B (s.setEntry r.uid { s.clkClientTbl r.uid with reserve := b }) ∧
      Bookkept (s.setEntry r.uid { s.clkClientTbl r.uid with reserve := b }) := by
    intro b
    refine ⟨h.setEntry rfl fun hc => ?_,hb.setEntry rfl fun _ => rfl⟩
    obtain ⟨h1,h2,h3,h4,h5,h6⟩ := h.entry r.uid hc
    exact ⟨h1,h2,h3,h4,h5,h6⟩
  cases hpath : setvalPath s env r with
  | error =>
    simp only [mmrmSwClkClientSetval,hpath,KeepsPeak,reduceCtorEq,false_implies,implies_true,
      iff_true]
    exact ⟨h,hb⟩
  | unchanged =>
    simp only [mmrmSwClkClientSetval,hpath,KeepsPeak,reduceCtorEq,false_implies,implies_true,
      iff_true]
    exact ⟨h,hb⟩
  | reserveOnly =>
    simp only [mmrmSwClkClientSetval,hpath,KeepsPeak,reduceCtorEq,false_implies,implies_true,
      iff_true]
    exact hreserve true
  | setRateOnly =>
    simp only [mmrmSwClkClientSetval,hpath,KeepsPeak,reduceCtorEq,false_implies,implies_true,
      iff_true]
    exact hreserve false
  | checkPeak level =>
    obtain ⟨hc,hclk,hlevel,hzero,hblocks⟩ := setvalPath_checkPeak hpath
    obtain ⟨adj,peak,delta,hreq,hadj,hok,hsum,hlt⟩ := peakRequest_spec h hb hc hclk hlevel hblocks
    obtain ⟨hyes,hno⟩ := checkPeakCurrent_spec env h.throttle hreq hlt
    have hkeeps : KeepsPeak s (.setval env r) ↔ (Admitted s r.uid level r →
        NextLevelOk s r.uid level ∧ RateOk s r.uid level r) := by
      constructor
      · exact fun hh => hh level hpath
      · intro hh level' hpath'
        rw [hpath] at hpath'
        obtain rfl := SetvalPath.checkPeak.inj hpath'
        exact hh
    rw [hkeeps]
    by_cases hadm : Admitted s r.uid level r
    · obtain ⟨tc,hcheck⟩ := hyes hadm
      simp only [mmrmSwClkClientSetval,hpath,hcheck,ne_eq,not_true_eq_false,if_false]
      have htable : TableOk B { s.setPeak (wrap (peak + delta)) adj with throttledClients := tc } :=
        h.congr rfl rfl rfl
      have hentry := h.entry r.uid hc
      refine ⟨htable.setEntry rfl fun _ => ⟨fun hh => ?_,hentry.client,fun _ => hlevel,hblocks,
        hentry.bound,hentry.first⟩,?_⟩
      · have hno := hclk.symm.trans hh
        cases hno
      · refine Iff.trans (bookkept_replaced hc rfl rfl) ?_
        have hlev : activeLevel { s.clkClientTbl r.uid with
            clkRate := r.clkVal, vddLevel := level, reserve := r.reserve,
            numHwBlocks := r.numHwBlocks } = level := by
          unfold activeLevel
          split
          · next hval => exact (hzero hval).symm
          · rfl
        have hdraw : draw { s.clkClientTbl r.uid with
            clkRate := r.clkVal, vddLevel := level, reserve := r.reserve,
            numHwBlocks := r.numHwBlocks } adj = newDraw s r.uid level adj r := rfl
        simp only [SwInfo.setEntry,SwInfo.setPeak,hlev,hdraw,hsum,hadm,true_implies]
        rw [hok]
        refine and_congr_right fun hnext => ?_
        have hmax := hok.mpr hnext
        unfold RateOk
        rw [← hmax]
        constructor
        · intro heq
          by_cases hval : r.clkVal = 0
          · exact Or.inl hval
          · by_cases hwrap : wrap r.clkVal = 0
            · right
              right
              rw [if_pos hwrap,newDraw,if_neg hval] at heq
              omega
            · exact Or.inr (Or.inl hwrap)
        · rintro (hval | hwrap | hnil)
          · rw [newDraw,if_pos hval]
            simp
          · rw [if_neg hwrap,add_comm]
          · have hnew : newDraw s r.uid level adj r = 0 := by
              unfold newDraw
              split
              · rfl
              · exact hnil
            rw [hnew]
            simp
    · have hrej := hno hadm
      simp only [mmrmSwClkClientSetval,hpath,hrej]
      rw [if_pos (by decide)]
      exact ⟨h,fun _ hh => absurd hh hadm,fun _ => hb⟩

theorem register_spec (h : TableOk B s) (hb : Bookkept s) {r : RegisterReq}
    (hr : Allowed B s (.register r)) :
    TableOk B (mmrmSwClkClientRegister s r).1 ∧ Bookkept (mmrmSwClkClientRegister s r).1 := by
  unfold mmrmSwClkClientRegister
  split
  · exact ⟨h,hb⟩
  · split
    · exact ⟨h,hb⟩
    · next c hfind =>
      obtain ⟨hsrc,hc,hfirst⟩ := List.find?_range_eq_some.mp hfind
      rw [List.mem_range] at hc
      rw [decide_eq_true_eq] at hsrc
      have hentry := h.entry c hc
      dsimp only
      split
      · split
        · refine ⟨h.setEntry rfl fun _ => ?_,hb.setEntry rfl fun _ => rfl⟩
          obtain ⟨h1,h2,h3,h4,h5,h6⟩ := hentry
          exact ⟨h1,h2,h3,h4,h5,h6⟩
        · exact ⟨h,hb⟩
      · next hclient =>
        -- the entry is not registered, hence idle
        have hrate : (s.clkClientTbl c).clkRate = 0 :=
          hentry.clk (hentry.client (by simpa using hclient))
        have hidle : ∀ e : ClkEntry, e.clkRate = (s.clkClientTbl c).clkRate →
            e.clkSrcId = (s.clkClientTbl c).clkSrcId →
            (e.client = false → e.clk = false) →
            (e.client = true → ∀ l < vddLevelMax, ∀ l' < vddLevelMax,
              e.currentMa l l' * e.maxNumHwBlocks ≤ B c) →
            TableOk B (s.setEntry c e) ∧ Bookkept (s.setEntry c e) := by
          intro e he hid hcl hbound
          rw [hrate] at he
          refine ⟨h.setEntry hid fun _ => ⟨fun _ => he,hcl,fun hh => absurd he hh,
            fun hh => absurd he hh,hbound,fun _ k hk => ?_⟩,hb.setEntry ?_ fun l => ?_⟩
          · have hh := hfirst k hk
            rw [Bool.not_eq_true',decide_eq_false_iff_not] at hh
            rw [hid,← hsrc]
            exact Ne.symm hh
          · simp [activeLevel,he,hrate]
          · simp [draw,he,hrate]
        split
        · exact hidle _ rfl rfl (fun _ => rfl) fun hh => by cases hh
        · split
          · exact hidle _ rfl rfl (fun _ => rfl) fun hh => by cases hh
          · exact hidle _ rfl rfl (fun hh => by cases hh) fun _ l hl l' hl' =>
              hr c hc hsrc.symm l hl l' hl'

theorem deregister_spec (h : TableOk B s) (hb : Bookkept s) (uid : ℕ) :
    TableOk B (mmrmSwClkClientDeregister s uid).1 ∧
      (Bookkept (mmrmSwClkClientDeregister s uid).1 ↔ KeepsPeak s (.deregister uid)) := by
  unfold mmrmSwClkClientDeregister
  split
  · next huid => exact ⟨h,fun _ hlt => absurd huid (by omega),fun _ => hb⟩
  · next huid =>
    have hc : uid < s.totClkClients := by omega
    have hentry := h.entry uid hc
    dsimp only
    split
    · next hlast =>
      refine ⟨h.setEntry rfl fun _ => ⟨fun _ => rfl,fun _ => rfl,fun hh => absurd rfl hh,
        fun hh => absurd rfl hh,(fun hh => by cases hh),fun hh => by cases hh⟩,?_⟩
      obtain ⟨hagg,hval⟩ := (bookkept_iff hc).mp hb
      refine Iff.trans (bookkept_replaced hc rfl rfl) ?_
      simp only [setEntry_peakCurData,activeLevel,draw,if_true,Nat.zero_max,Nat.zero_add]
      have hkeeps : KeepsPeak s (.deregister uid) ↔ othersLevel s uid = s.peakCurData.aggregLevel ∧
          draw (s.clkClientTbl uid) s.peakCurData.aggregLevel = 0 :=
        ⟨fun hh => hh hc (by omega),fun hh _ _ => hh⟩
      rw [hkeeps]
      exact and_congr eq_comm ⟨fun hh => by omega,fun hh => by omega⟩
    · next hmore =>
      obtain ⟨h1,h2,h3,h4,h5,h6⟩ := hentry
      refine ⟨h.setEntry rfl fun _ => ⟨h1,h2,h3,h4,h5,h6⟩,
        fun _ _ hle => absurd hle (by omega),fun _ => hb.setEntry rfl fun _ => rfl⟩

theorem step_spec (h : TableOk B s) (hb : Bookkept s) (op : Op) (hop : Allowed B s op) :
    TableOk B (step s op) ∧ (Bookkept (step s op) ↔ KeepsPeak s op) := by
  cases op with
  | register r =>
    have hh := register_spec h hb hop
    exact ⟨hh.1,fun _ => trivial,fun _ => hh.2⟩
  | setval env r => exact setval_spec h hb env r
  | deregister uid => exact deregister_spec h hb uid
  | setThrottleFeature on =>
    have hoff : on = false := hop
    exact ⟨⟨hoff,fun k hk => (h.entry k hk).congr fun _ => rfl,h.bound⟩,fun _ => trivial,fun _ => hb⟩
  | setMultipleRegister on => exact ⟨h.congr rfl rfl rfl,fun _ => trivial,fun _ => hb⟩

theorem Fresh.tableOk (h : Fresh s) (hthr : s.enableThrottleFeature = false)
    (hB : ∑ c ∈ s.clients, B c < 2147483648) : TableOk B s := by
  refine ⟨hthr,fun c _ => ⟨fun _ => h.clkRate c,fun _ => h.clk c,fun hh => absurd (h.clkRate c) hh,
    fun hh => absurd (h.clkRate c) hh,fun hh => ?_,fun hh => ?_⟩,hB⟩
  · rw [h.client c] at hh
    cases hh
  · rw [h.client c] at hh
    cases hh

theorem Fresh.bookkept (h : Fresh s) : Bookkept s := by
  unfold Bookkept
  rw [h.aggregLevel,h.aggregVal]
  constructor
  · exact (Finset.sup_eq_zero.mpr fun c _ => by simp [activeLevel,h.clkRate c]).symm
  · exact (Finset.sum_eq_zero fun c _ => by simp [draw,h.clkRate c]).symm

/-- With throttling disabled and currents that cannot overflow, the books are in order
throughout exactly the runs in which every admitted request has its level and rate handled
exactly and no client that counts is deregistered. -/
theorem bookkept_always_iff (hf : Fresh s) (hthr : s.enableThrottleFeature = false)
    (hB : ∑ c ∈ s.clients, B c < 2147483648) (ops : List Op)
    (hops : Runs.Guarded step (Allowed B) s ops) :
    Runs.Always step Bookkept s ops ↔ Runs.Guarded step KeepsPeak s ops := by
  have hinit : TableOk B s ∧ Bookkept s := ⟨hf.tableOk hthr hB,hf.bookkept⟩
  have hP : ∀ s, TableOk B s ∧ Bookkept s → Bookkept s := fun _ hh => hh.2
  have hgood : ∀ s op, TableOk B s ∧ Bookkept s → Allowed B s op → KeepsPeak s op →
      TableOk B (step s op) ∧ Bookkept (step s op) := by
    intro s op hh hop hk
    obtain ⟨ht,hiff⟩ := step_spec hh.1 hh.2 op hop
    exact ⟨ht,hiff.mpr hk⟩
  have hbad : ∀ s op, TableOk B s ∧ Bookkept s → Allowed B s op → ¬ KeepsPeak s op →
      ¬ Bookkept (step s op) := by
    intro s op hh hop hk hb
    exact hk ((step_spec hh.1 hh.2 op hop).2.mp hb)
  exact Runs.always_iff_guarded hP hgood hbad hinit ops hops

/-- A manager with three clients and a current of 1 at every pair of levels. -/
def trio : SwInfo where
  clkClientTbl := fun c =>
    { clk := false, pri := .none, clkSrcId := c+1, maxNumHwBlocks := 1, freq := fun _ => 0
      currentMa := fun _ _ => 0, client := false, clkRate := 0, vddLevel := 0, reserve := false
      refCount := 0, numHwBlocks := 0 }
  totClkClients := 3
  enabledClkClients := 0
  throttleClientsInfo := []
  peakCurData := { threshold := 1000, aggregVal := 0, aggregLevel := 0 }
  throttledClients := []
  vddCorner := fun level => 10*(level+1)
  enableThrottleFeature := false
  allowMultipleRegister := false

theorem trio_fresh : Fresh trio :=
  ⟨fun _ => rfl,fun _ => rfl,fun _ => rfl,fun _ => rfl,rfl,rfl,rfl,rfl⟩

def trioRegister (srcId : ℕ) : Op :=
  .register ⟨srcId,true,.low,fun level => level,fun _ _ => 1,true,true⟩

/-- Client `c` asks for a rate at the given level. -/
def trioSetval (c level : ℕ) : Op :=
  .setval ⟨10*(level+1),0,0,0,true⟩ ⟨c,100+level,1,false⟩

theorem bookkept_small :
    Runs.Always step Bookkept trio [trioRegister 1,trioSetval 0 4,trioSetval 0 1] ↔
      Runs.Guarded step KeepsPeak trio [trioRegister 1,trioSetval 0 4,trioSetval 0 1] :=
  bookkept_always_iff (B := fun _ => 1) trio_fresh rfl (by decide)
    [trioRegister 1,trioSetval 0 4,trioSetval 0 1]
    (by decide +kernel)

/-- The clients are on levels 4, 3 and 2, and the first one goes down to level 1. -/
def trioLeave : List Op :=
  [trioRegister 1,trioRegister 2,trioRegister 3,trioSetval 0 4,trioSetval 1 3,trioSetval 2 2,
    trioSetval 0 1]

theorem bookkept_trioLeave :
    Fresh trio ∧ trio.enableThrottleFeature = false ∧
      Runs.Guarded step (Allowed fun _ => 1) trio trioLeave ∧
      ¬ Runs.Always step Bookkept trio trioLeave := by
  refine ⟨trio_fresh,rfl,by decide +kernel,fun hh => ?_⟩
  have hlast := hh.last.1
  revert hlast
  decide +kernel

end Steps

end MmrmClock
end MarbleModules
