import MarbleModules.MmrmAdmission

/-! The level a request is adjusted to in an arbitrary client table, and what a request that
fails leaves behind. -/
namespace MarbleModules
namespace MmrmClock

variable {s : SwInfo} {srcId reqLevel : ℕ} {env : Env} {r : SetvalReq} {level : ℕ}

/-- A client with a clock and a rate. -/
def isActive (e : ClkEntry) : Bool := e.clk && decide (e.clkRate ≠ 0)

/-- The aggregated level is the highest level of an active client. -/
def TopLevel (s : SwInfo) : Prop :=
  s.peakCurData.aggregLevel = (s.clients.filter fun k => isActive (s.clkClientTbl k) = true).sup
    fun k => (s.clkClientTbl k).vddLevel

instance (s : SwInfo) : Decidable (TopLevel s) := inferInstanceAs (Decidable (_ = _))

/-- The active clients with another clock source than `srcId`. -/
def otherClients (s : SwInfo) (srcId : ℕ) : Finset ℕ :=
  s.clients.filter fun k => otherActive srcId (s.clkClientTbl k) = true

def highestOther (s : SwInfo) (srcId : ℕ) : ℕ :=
  (otherClients s srcId).sup fun k => (s.clkClientTbl k).vddLevel

/-- Those of them above a level, in the order of the table. -/
def above (s : SwInfo) (srcId reqLevel : ℕ) : List ℕ :=
  (List.range s.totClkClients).filter fun k =>
    otherActive srcId (s.clkClientTbl k) = true ∧ reqLevel < (s.clkClientTbl k).vddLevel

/-- When no other client is on the aggregated level, the last one above the request is as high
as all of them. -/
def LastHighest (s : SwInfo) (srcId reqLevel : ℕ) : Prop :=
  reqLevel < s.peakCurData.aggregLevel →
    (∀ k ∈ otherClients s srcId, (s.clkClientTbl k).vddLevel ≠ s.peakCurData.aggregLevel) →
      ∀ k ∈ (above s srcId reqLevel).getLast?, ∀ j ∈ above s srcId reqLevel,
        (s.clkClientTbl j).vddLevel ≤ (s.clkClientTbl k).vddLevel

theorem mem_otherClients {k : ℕ} : k ∈ otherClients s srcId ↔
    k < s.totClkClients ∧ otherActive srcId (s.clkClientTbl k) = true := by
  rw [otherClients,Finset.mem_filter,mem_clients]

theorem mem_above {k : ℕ} : k ∈ above s srcId reqLevel ↔
    k ∈ otherClients s srcId ∧ reqLevel < (s.clkClientTbl k).vddLevel := by
  rw [above,List.mem_filter,List.mem_range,decide_eq_true_eq,mem_otherClients,and_assoc]

theorem le_highestOther {k : ℕ} (hk : k ∈ otherClients s srcId) :
    (s.clkClientTbl k).vddLevel ≤ highestOther s srcId :=
  Finset.le_sup (f := fun k => (s.clkClientTbl k).vddLevel) hk

theorem highestOther_le (h : TopLevel s) (srcId : ℕ) :
    highestOther s srcId ≤ s.peakCurData.aggregLevel := by
  rw [h]
  refine Finset.sup_mono fun k hk => ?_
  obtain ⟨hlt,hact⟩ := mem_otherClients.mp hk
  refine Finset.mem_filter.mpr ⟨mem_clients.mpr hlt,?_⟩
  rw [otherActive,Bool.and_eq_true] at hact
  exact hact.1

/-- When no other client is on the aggregated level, the loop finds the last one above the
request. -/
theorem nextMaxLoop_above (h : TopLevel s)
    (hat : ∀ k ∈ otherClients s srcId, (s.clkClientTbl k).vddLevel ≠ s.peakCurData.aggregLevel) :
    nextMaxLoop s srcId reqLevel 0 s.totClkClients none =
      some ((above s srcId reqLevel).getLast?.map fun k => (s.clkClientTbl k).vddLevel) := by
  have hnone : ¬ ∃ k ∈ List.range s.totClkClients, otherActive srcId (s.clkClientTbl k) = true ∧
      (s.clkClientTbl k).vddLevel = s.peakCurData.aggregLevel := by
    rintro ⟨k,hk,hact,hlevel⟩
    exact hat k (mem_otherClients.mpr ⟨List.mem_range.mp hk,hact⟩) hlevel
  have hfilter : ((List.range s.totClkClients).filter fun k =>
      otherActive srcId (s.clkClientTbl k) = true ∧
        (s.clkClientTbl k).vddLevel < s.peakCurData.aggregLevel ∧
          reqLevel < (s.clkClientTbl k).vddLevel) = above s srcId reqLevel := by
    refine List.filter_congr fun k hk => decide_eq_decide.mpr ?_
    constructor
    · exact fun hh => ⟨hh.1,hh.2.2⟩
    · intro hh
      have hmem := mem_otherClients.mpr ⟨List.mem_range.mp hk,hh.1⟩
      have hle := (le_highestOther hmem).trans (highestOther_le h _)
      exact ⟨hh.1,lt_of_le_of_ne hle (hat k hmem),hh.2⟩
  rw [nextMaxLoop_eq,← List.range_eq_range',if_neg hnone,hfilter,Option.or_none]

/-- The adjusted level is the highest of the request and the other active clients exactly when
the scan does not end on a lower client than it has seen. -/
theorem checkReqLevel_eq_max_iff (h : TopLevel s) (srcId : ℕ) (hreq : reqLevel < vddLevelMax) :
    mmrmSwCheckReqLevel s srcId reqLevel = some (max reqLevel (highestOther s srcId)) ↔
      LastHighest s srcId reqLevel := by
  have htop := highestOther_le h srcId
  rw [mmrmSwCheckReqLevel,if_neg (by omega)]
  by_cases hlt : reqLevel < s.peakCurData.aggregLevel
  swap
  · rw [if_neg hlt,max_eq_left (by omega)]
    exact ⟨fun _ hh => absurd hh hlt,fun _ => rfl⟩
  rw [if_pos hlt]
  by_cases hat : ∀ k ∈ otherClients s srcId,
      (s.clkClientTbl k).vddLevel ≠ s.peakCurData.aggregLevel
  swap
  · obtain ⟨k,hk,hlevel⟩ : ∃ k ∈ otherClients s srcId,
        (s.clkClientTbl k).vddLevel = s.peakCurData.aggregLevel := by
      by_contra hno
      exact hat fun k hk hlevel => hno ⟨k,hk,hlevel⟩
    have hle := le_highestOther hk
    have hmem := mem_otherClients.mp hk
    rw [nextMaxLoop_eq,← List.range_eq_range',
      if_pos ⟨k,List.mem_range.mpr hmem.1,hmem.2,hlevel⟩,max_eq_right (by omega)]
    refine ⟨fun _ _ hno => absurd hno hat,fun _ => congrArg some ?_⟩
    omega
  rw [nextMaxLoop_above h hat]
  cases hlast : (above s srcId reqLevel).getLast? with
  | none =>
    have hempty := List.getLast?_eq_none_iff.mp hlast
    have hle : highestOther s srcId ≤ reqLevel := by
      refine Finset.sup_le fun k hk => ?_
      by_contra hgt
      have hmem := mem_above.mpr ⟨hk,not_le.mp hgt⟩
      rw [hempty] at hmem
      cases hmem
    rw [max_eq_left hle]
    refine ⟨fun _ _ _ k hk => ?_,fun _ => rfl⟩
    rw [hlast] at hk
    cases hk
  | some k =>
    obtain ⟨hk,hgt⟩ := mem_above.mp (List.mem_of_getLast? hlast)
    have hle := le_highestOther hk
    simp only [Option.map_some,if_pos hgt,Option.some.injEq]
    constructor
    · intro heq _ _ k' hk' j hj
      rw [hlast] at hk'
      obtain rfl := Option.some.inj hk'
      have hj' := le_highestOther (mem_above.mp hj).1
      omega
    · intro hok
      have hsup : highestOther s srcId ≤ (s.clkClientTbl k).vddLevel := by
        refine Finset.sup_le fun j hj => ?_
        by_cases hja : reqLevel < (s.clkClientTbl j).vddLevel
        · exact hok hlt hat k hlast j (mem_above.mpr ⟨hj,hja⟩)
        · omega
      omega

/-- Three active clients with these levels; client `c` has clock source `c+1`. -/
def onLevels (level : ℕ → ℕ) (top : ℕ) : SwInfo :=
  { trio with
    clkClientTbl := fun c => { trio.clkClientTbl c with clk := true, clkRate := 1, vddLevel := level c }
    peakCurData := { threshold := 1000, aggregVal := 0, aggregLevel := top } }

/-- The others are on levels 2 and 3, in this order. -/
theorem checkReqLevel_rising :
    mmrmSwCheckReqLevel (onLevels (fun c => [4,2,3].getD c 0) 4) 1 1 =
      some (max 1 (highestOther (onLevels (fun c => [4,2,3].getD c 0) 4) 1)) :=
  (checkReqLevel_eq_max_iff (by decide) 1 (by decide)).mpr (by
    intro _ _ k hk
    have hlast : (above (onLevels (fun c => [4,2,3].getD c 0) 4) 1 1).getLast? = some 2 := by decide
    obtain rfl := Option.some.inj (hlast.symm.trans hk)
    decide)

/-- The others are on levels 3 and 2: the request is adjusted to 2. -/
theorem checkReqLevel_falling : TopLevel (onLevels (fun c => [4,3,2].getD c 0) 4) ∧
    mmrmSwCheckReqLevel (onLevels (fun c => [4,3,2].getD c 0) 4) 1 1 ≠
      some (max 1 (highestOther (onLevels (fun c => [4,3,2].getD c 0) 4) 1)) ∧
    mmrmSwCheckReqLevel (onLevels (fun c => [4,3,2].getD c 0) 4) 1 1 = some 2 := by
  decide

/-- A request that fails leaves the client table and the peak-current data as they were. -/
def FailureKeeps (s : SwInfo) : Op → Prop
  | .setval env r => (mmrmSwClkClientSetval s env r).2 ≠ 0 →
      (mmrmSwClkClientSetval s env r).1.clkClientTbl = s.clkClientTbl ∧
        (mmrmSwClkClientSetval s env r).1.peakCurData = s.peakCurData
  | _ => True

/-- The peak-current check lets the request through: it does not overshoot, or the client may
have others throttled and the one found, if any, answers. -/
def PeakPasses (s : SwInfo) (env : Env) (r : SetvalReq) (level : ℕ) : Prop :=
  ∃ adj peak delta, peakRequest s r.uid level r.clkVal r.numHwBlocks = some (adj,peak,delta) ∧
    (Overshoots s peak delta → (s.clkClientTbl r.uid).pri = .high ∧
      s.enableThrottleFeature = true ∧
        ∀ i k, findThrottleClient s delta 0 s.throttleClientsInfo = some (i,k) →
          ThrottleAnswers s env k)

/-- No clock refuses a rate that has been stored before. -/
def RateTaken (s : SwInfo) : Op → Prop
  | .setval env r => r.reserve = false → env.clkSetRate ≠ 0 →
      setvalPath s env r ≠ .setRateOnly ∧
        ∀ level, setvalPath s env r = .checkPeak level → ¬ PeakPasses s env r level
  | _ => True

/-- A client that cannot be throttled is left as it was. -/
theorem throttle_failed (s : SwInfo) (env : Env) (delta : ℕ)
    (h : (mmrmSwThrottleLowPriorityClient s env delta).2.1 ≠ 0) :
    (mmrmSwThrottleLowPriorityClient s env delta).1 = s := by
  unfold mmrmSwThrottleLowPriorityClient at h ⊢
  cases hfind : findThrottleClient s delta 0 s.throttleClientsInfo with
  | none => rfl
  | some ik =>
    simp only [hfind] at h
    dsimp only
    by_cases hnotifier : env.notifier ≠ 0
    · rw [if_pos hnotifier]
    rw [if_neg hnotifier] at h ⊢
    by_cases hrate : (s.clkClientTbl ik.2).reserve = false ∧ env.throttleSetRate ≠ 0
    · rw [if_pos hrate]
    rw [if_neg hrate] at h ⊢
    by_cases halloc : env.alloc = false
    · rw [if_pos halloc]
    · rw [if_neg halloc] at h
      exact absurd rfl h

theorem checkPeakCurrent_failed
    (h : (mmrmSwCheckPeakCurrent s env r.uid level r.clkVal r.numHwBlocks).2 ≠ 0) :
    (mmrmSwCheckPeakCurrent s env r.uid level r.clkVal r.numHwBlocks).1 = s := by
  unfold mmrmSwCheckPeakCurrent at h ⊢
  cases hreq : peakRequest s r.uid level r.clkVal r.numHwBlocks with
  | none => rfl
  | some p =>
    obtain ⟨adj,peak,delta⟩ := p
    simp only [hreq] at h
    dsimp only
    by_cases hnon : signedNonpos (wrap (peak+delta)) = true
    · rw [if_pos hnon] at h
      exact absurd rfl h
    rw [if_neg hnon] at h ⊢
    by_cases hthr : s.peakCurData.threshold ≤ wrap (peak+delta)
    swap
    · rw [if_neg hthr] at h
      exact absurd rfl h
    rw [if_pos hthr] at h ⊢
    by_cases hhigh : (s.clkClientTbl r.uid).pri = .high ∧ s.enableThrottleFeature = true
    · rw [if_pos hhigh] at h ⊢
      have hfailed := throttle_failed s env delta
      generalize mmrmSwThrottleLowPriorityClient s env delta = t at h hfailed ⊢
      obtain ⟨s',rc,delta'⟩ := t
      dsimp only at h hfailed ⊢
      by_cases hrc : rc = 0
      · rw [if_neg (not_not.mpr hrc)] at h
        exact absurd rfl h
      · rw [if_pos hrc]
        exact hfailed hrc
    · rw [if_neg hhigh]

theorem peakPasses_iff : PeakPasses s env r level ↔
    (mmrmSwCheckPeakCurrent s env r.uid level r.clkVal r.numHwBlocks).2 = 0 := by
  constructor
  · rintro ⟨adj,peak,delta,hreq,hpass⟩
    rcases checkPeakCurrent_cases env hreq with ⟨-,hrc,-⟩ | ⟨hover,⟨hrc,hno⟩ | ⟨-,-,hrc,-⟩⟩
    · exact hrc
    · obtain ⟨hhigh,hon,hans⟩ := hpass hover
      obtain ⟨i,k,hfind,hnot⟩ := hno hhigh hon
      exact absurd (hans i k hfind) hnot
    · exact hrc
  · intro hrc
    cases hreq : peakRequest s r.uid level r.clkVal r.numHwBlocks with
    | none =>
      rw [mmrmSwCheckPeakCurrent,hreq] at hrc
      exact absurd hrc neg_einval_ne
    | some p =>
      obtain ⟨adj,peak,delta⟩ := p
      refine ⟨adj,peak,delta,hreq,fun hover => ?_⟩
      rcases checkPeakCurrent_cases env hreq with ⟨hno,-,-⟩ |
        ⟨-,⟨hne,-⟩ | ⟨hhigh,hon,-,⟨hnone,-⟩ | ⟨i,k,hfind,hans,-,-⟩⟩⟩
      · exact absurd hover hno
      · exact absurd hrc hne
      · refine ⟨hhigh,hon,fun i k hfind => ?_⟩
        rw [hnone] at hfind
        cases hfind
      · refine ⟨hhigh,hon,fun i' k' hfind' => ?_⟩
        obtain ⟨rfl,rfl⟩ := Prod.mk.inj (Option.some.inj (hfind.symm.trans hfind'))
        exact hans

/-- A request is checked against the peak current only if it changes the client's entry. -/
theorem setvalPath_checkPeak_changes (h : setvalPath s env r = .checkPeak level) :
    ¬ ((s.clkClientTbl r.uid).clkRate = r.clkVal ∧
      (s.clkClientTbl r.uid).numHwBlocks = r.numHwBlocks) := by
  intro hsame
  rw [setvalPath] at h
  simp only [if_pos hsame] at h
  split_ifs at h

theorem setvalPath_setRateOnly (h : setvalPath s env r = .setRateOnly) :
    r.reserve = false ∧ (s.clkClientTbl r.uid).reserve = true := by
  rw [setvalPath] at h
  split_ifs at h with _ _ _ hne hres
  · exact ⟨by simpa using hres,by simpa [hres] using hne⟩
  · split at h
    · cases h
    · split_ifs at h
  · split at h
    · cases h
    · split_ifs at h

theorem setClkRate_ne_zero : setClkRate env ≠ 0 ↔ env.clkSetRate ≠ 0 := by
  rw [setClkRate]
  split_ifs with h
  · exact ⟨fun _ => h,fun _ => neg_einval_ne⟩
  · exact ⟨fun hh => absurd rfl hh,fun hh => absurd hh h⟩

/-- A client's entry that is replaced by another one has changed. -/
theorem setEntry_tbl_ne {s' : SwInfo} {c : ℕ} {e : ClkEntry} (h : e ≠ s.clkClientTbl c) :
    (s'.setEntry c e).clkClientTbl ≠ s.clkClientTbl := by
  intro heq
  have hc : Function.update s'.clkClientTbl c e c = s.clkClientTbl c := congrFun heq c
  rw [Function.update_self] at hc
  exact h hc

/-- The table is written after a check that passes, before the rate is set. -/
theorem setval_checked (h : setvalPath s env r = .checkPeak level)
    (hpass : PeakPasses s env r level) :
    (mmrmSwClkClientSetval s env r).1.clkClientTbl ≠ s.clkClientTbl ∧
      ((mmrmSwClkClientSetval s env r).2 ≠ 0 ↔ r.reserve = false ∧ env.clkSetRate ≠ 0) := by
  have hrc := peakPasses_iff.mp hpass
  unfold mmrmSwClkClientSetval
  simp only [h]
  generalize mmrmSwCheckPeakCurrent s env r.uid level r.clkVal r.numHwBlocks = t at hrc ⊢
  obtain ⟨s',rc⟩ := t
  dsimp only at hrc ⊢
  rw [if_neg (not_not.mpr hrc)]
  refine ⟨setEntry_tbl_ne fun heq => setvalPath_checkPeak_changes h ?_,?_⟩
  · rw [← heq]
    exact ⟨rfl,rfl⟩
  · cases hres : r.reserve with
    | true => simp
    | false => simpa using setClkRate_ne_zero

theorem setval_refused (h : setvalPath s env r = .checkPeak level)
    (hno : ¬ PeakPasses s env r level) : (mmrmSwClkClientSetval s env r).1 = s := by
  have hrc := mt peakPasses_iff.mpr hno
  have hsame := checkPeakCurrent_failed hrc
  unfold mmrmSwClkClientSetval
  simp only [h]
  generalize mmrmSwCheckPeakCurrent s env r.uid level r.clkVal r.numHwBlocks = t at hrc hsame ⊢
  obtain ⟨s',rc⟩ := t
  dsimp only at hrc hsame ⊢
  rw [if_pos hrc]
  exact hsame

theorem failureKeeps_iff (s : SwInfo) (op : Op) : FailureKeeps s op ↔ RateTaken s op := by
  cases op with
  | setval env r =>
    rw [FailureKeeps,RateTaken]
    cases hpath : setvalPath s env r with
    | error =>
      rw [mmrmSwClkClientSetval,hpath]
      exact ⟨fun _ _ _ => ⟨by simp,fun _ hh => by cases hh⟩,fun _ _ => ⟨rfl,rfl⟩⟩
    | unchanged =>
      rw [mmrmSwClkClientSetval,hpath]
      exact ⟨fun _ _ _ => ⟨by simp,fun _ hh => by cases hh⟩,fun _ hh => absurd rfl hh⟩
    | reserveOnly =>
      rw [mmrmSwClkClientSetval,hpath]
      exact ⟨fun _ _ _ => ⟨by simp,fun _ hh => by cases hh⟩,fun _ hh => absurd rfl hh⟩
    | setRateOnly =>
      -- the flag is cleared first
      obtain ⟨hres,hold⟩ := setvalPath_setRateOnly hpath
      rw [mmrmSwClkClientSetval,hpath]
      constructor
      · intro hkeeps _ hrate
        have htbl := (hkeeps (setClkRate_ne_zero.mpr hrate)).1
        refine absurd htbl (setEntry_tbl_ne fun heq => ?_)
        have hflag := congrArg ClkEntry.reserve heq
        rw [hold] at hflag
        cases hflag
      · intro hrate hrc
        exact absurd rfl (hrate hres (setClkRate_ne_zero.mp hrc)).1
    | checkPeak level =>
      by_cases hpass : PeakPasses s env r level
      · obtain ⟨hne,hrc⟩ := setval_checked hpath hpass
        constructor
        · intro hkeeps hres hrate
          exact absurd (hkeeps (hrc.mpr ⟨hres,hrate⟩)).1 hne
        · intro hrate hfail
          obtain ⟨hres,hset⟩ := hrc.mp hfail
          exact absurd hpass ((hrate hres hset).2 level rfl)
      · rw [setval_refused hpath hpass]
        refine ⟨fun _ _ _ => ⟨by simp,fun level' hh => ?_⟩,fun _ _ => ⟨rfl,rfl⟩⟩
        obtain rfl := SetvalPath.checkPeak.inj hh
        exact hpass
  | register r => exact Iff.rfl
  | deregister uid => exact Iff.rfl
  | setThrottleFeature on => exact Iff.rfl
  | setMultipleRegister on => exact Iff.rfl

/-- Along every run each failing request leaves table and peak-current data alone exactly when
no clock refuses a rate that has been stored. -/
theorem failureKeeps_guarded_iff (s : SwInfo) (ops : List Op) :
    Runs.Guarded step FailureKeeps s ops ↔ Runs.Guarded step RateTaken s ops :=
  Runs.guarded_congr (L := fun _ _ => True) (I := fun _ => True) (fun _ _ _ _ _ => trivial)
    (fun s op _ _ => failureKeeps_iff s op) trivial ops (Runs.guarded_true step s ops)

/-- The clock of the first client refuses the rate of its first request: the request fails, and
the client counts as running at that rate. -/
theorem not_failureKeeps_trio :
    ¬ Runs.Guarded step FailureKeeps trio [trioRegister 1,.setval ⟨50,1,0,0,true⟩ ⟨0,104,1,false⟩] ∧
    (mmrmSwClkClientSetval (step trio (trioRegister 1)) ⟨50,1,0,0,true⟩ ⟨0,104,1,false⟩).2 =
      -einval ∧
    ((mmrmSwClkClientSetval (step trio (trioRegister 1)) ⟨50,1,0,0,true⟩
      ⟨0,104,1,false⟩).1.clkClientTbl 0).clkRate = 104 := by
  refine ⟨?_,by decide +kernel,by decide +kernel⟩
  rintro ⟨-,hkeeps,-⟩
  have htbl := (hkeeps (by decide +kernel)).1
  have hrate := congrArg (fun t : ℕ → ClkEntry => (t 0).clkRate) htbl
  revert hrate
  decide +kernel

end MmrmClock
end MarbleModules
