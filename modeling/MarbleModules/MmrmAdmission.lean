import MarbleModules.MmrmClockRuns

/-! Admission control: which requests the peak-current check accepts, with throttling enabled
or not, and when an accepted request leaves the aggregate below the threshold. -/
namespace MarbleModules
namespace MmrmClock

section Definitions

/-- The aggregate the request asks for, as an integer and with the whole rate. -/
def requestedCur (s : SwInfo) (level : ℕ) (r : SetvalReq) : Option ℤ :=
  let e := s.clkClientTbl r.uid
  match mmrmSwCheckReqLevel s e.clkSrcId level with
  | none => none
  | some adj =>
    if adj ≠ s.peakCurData.aggregLevel then
      some (othersDraw s r.uid adj + newDraw s r.uid level adj r)
    else
      some (s.peakCurData.aggregVal + newDraw s r.uid level adj r -
        draw e s.peakCurData.aggregLevel)

/-- The comparison the check makes on 32 bits. -/
def Overshoots (s : SwInfo) (peak delta : ℕ) : Prop :=
  signedNonpos (wrap (peak + delta)) = false ∧ s.peakCurData.threshold ≤ wrap (peak + delta)

/-- The request would push the aggregate to the threshold or above. -/
def Reaches (s : SwInfo) (level : ℕ) (r : SetvalReq) : Prop :=
  (∃ adj peak delta, peakRequest s r.uid level r.clkVal r.numHwBlocks = some (adj,peak,delta) ∧
    Overshoots s peak delta) ∨
  ∃ cur, requestedCur s level r = some cur ∧ (s.peakCurData.threshold : ℤ) ≤ cur

/-- The check has moved a client that may be throttled to its lowest level. -/
def Throttled (s s' : SwInfo) : Prop :=
  ∃ k ∈ s.throttleClientsInfo, minCur s (s.clkClientTbl k) < nowCur s (s.clkClientTbl k) ∧
    (s'.clkClientTbl k).vddLevel = 0 ∧ (s'.clkClientTbl k).clkRate = (s.clkClientTbl k).freq 0

/-- Admission control for one request. -/
def Admits (s : SwInfo) (env : Env) (r : SetvalReq) : Prop :=
  ∀ level, setvalPath s env r = .checkPeak level → (mmrmSwClkClientSetval s env r).2 = 0 →
    ((mmrmSwClkClientSetval s env r).1.peakCurData.aggregVal < s.peakCurData.threshold ∨
      (mmrmSwClkClientSetval s env r).1.peakCurData.aggregVal ≤ s.peakCurData.aggregVal) ∧
    (Reaches s level r →
      Throttled s (mmrmSwCheckPeakCurrent s env r.uid level r.clkVal r.numHwBlocks).1 ∧
      (mmrmSwClkClientSetval s env r).1.peakCurData.aggregVal < s.peakCurData.threshold)

/-- The calls a throttled client's clock, its notifier and the allocator have to answer. -/
def ThrottleAnswers (s : SwInfo) (env : Env) (k : ℕ) : Prop :=
  env.notifier = 0 ∧ ((s.clkClientTbl k).reserve = true ∨ env.throttleSetRate = 0) ∧
    env.alloc = true

/-- When the 32-bit sum overshoots, a client that may have others throttled finds one whose
saving is enough; when it does not, neither does the sum itself. -/
def Fits (s : SwInfo) (env : Env) (r : SetvalReq) : Prop :=
  ∀ level adj peak delta, setvalPath s env r = .checkPeak level →
    peakRequest s r.uid level r.clkVal r.numHwBlocks = some (adj,peak,delta) →
    (r.reserve = true ∨ env.clkSetRate = 0) →
    (Overshoots s peak delta → (s.clkClientTbl r.uid).pri = .high →
      s.enableThrottleFeature = true →
        ∃ i k, findThrottleClient s delta 0 s.throttleClientsInfo = some (i,k) ∧
          (ThrottleAnswers s env k → wrap (peak + wrapSub delta
            (nowCur s (s.clkClientTbl k) - minCur s (s.clkClientTbl k))) <
              s.peakCurData.threshold)) ∧
    (¬ Overshoots s peak delta → ∀ cur, requestedCur s level r = some cur →
      cur < s.peakCurData.threshold)

end Definitions

section Admission

variable {s : SwInfo} {env : Env} {r : SetvalReq} {level adj peak delta : ℕ}

theorem findThrottleClient_mem {cs : List ℕ} : ∀ {j i k : ℕ},
    findThrottleClient s delta j cs = some (i,k) →
      k ∈ cs ∧ minCur s (s.clkClientTbl k) < nowCur s (s.clkClientTbl k) := by
  induction cs with
  | nil => intro j i k h; cases h
  | cons c cs ih =>
    intro j i k h
    rw [findThrottleClient] at h
    split at h
    · next hc =>
      obtain ⟨rfl,rfl⟩ := Option.some.inj h
      exact ⟨List.mem_cons_self,hc.1⟩
    · obtain ⟨hmem,hlt⟩ := ih h
      exact ⟨List.mem_cons_of_mem c hmem,hlt⟩

theorem neg_einval_ne : -einval ≠ 0 := by decide
theorem neg_enomem_ne : -enomem ≠ 0 := by decide

@[simp] theorem reinstate_peakCurData (s : SwInfo) :
    (mmrmReinstateThrottledClient s).peakCurData = s.peakCurData := rfl
@[simp] theorem reinstate_clkClientTbl (s : SwInfo) :
    (mmrmReinstateThrottledClient s).clkClientTbl = s.clkClientTbl := rfl
@[simp] theorem setPeak_clkClientTbl (s : SwInfo) (val level : ℕ) :
    (s.setPeak val level).clkClientTbl = s.clkClientTbl := rfl

/-- What the throttling step does: it finds nobody, it fails, or one client is throttled. -/
theorem throttle_spec (s : SwInfo) (env : Env) (delta : ℕ) :
    (findThrottleClient s delta 0 s.throttleClientsInfo = none ∧
      mmrmSwThrottleLowPriorityClient s env delta = (s,0,delta)) ∨
    ∃ i k, findThrottleClient s delta 0 s.throttleClientsInfo = some (i,k) ∧
      ((¬ ThrottleAnswers s env k ∧ (mmrmSwThrottleLowPriorityClient s env delta).2.1 ≠ 0) ∨
        (ThrottleAnswers s env k ∧ Throttled s (mmrmSwThrottleLowPriorityClient s env delta).1 ∧
          (mmrmSwThrottleLowPriorityClient s env delta).2 = (0,wrapSub delta
            (nowCur s (s.clkClientTbl k) - minCur s (s.clkClientTbl k))))) := by
  unfold mmrmSwThrottleLowPriorityClient
  cases hfind : findThrottleClient s delta 0 s.throttleClientsInfo with
  | none => exact Or.inl ⟨rfl,rfl⟩
  | some ik =>
    obtain ⟨i,k⟩ := ik
    refine Or.inr ⟨i,k,rfl,?_⟩
    dsimp only
    split
    · next hno => exact Or.inl ⟨fun hh => hno hh.1,neg_einval_ne⟩
    · next hnotifier =>
      split
      · next hrate =>
        refine Or.inl ⟨fun hh => ?_,neg_einval_ne⟩
        rcases hh.2.1 with hres | hz
        · rw [hrate.1] at hres
          cases hres
        · exact hrate.2 hz
      · next hrate =>
        split
        · next halloc =>
          refine Or.inl ⟨fun hh => ?_,neg_enomem_ne⟩
          have hcontra := halloc.symm.trans hh.2.2
          cases hcontra
        · next halloc =>
          obtain ⟨hmem,hlt⟩ := findThrottleClient_mem hfind
          refine Or.inr ⟨⟨not_not.mp hnotifier,?_,by simpa using halloc⟩,⟨k,hmem,hlt,?_,?_⟩,rfl⟩
          · by_cases hres : (s.clkClientTbl k).reserve = true
            · exact Or.inl hres
            · exact Or.inr (by_contra fun hz => hrate ⟨by simpa using hres,hz⟩)
          · simp [SwInfo.setEntry]
          · simp [SwInfo.setEntry]

/-- The check refuses the request, or it stores a value: the requested sum when that does not
overshoot, else the sum after throttling. -/
theorem checkPeakCurrent_cases (env : Env)
    (hreq : peakRequest s r.uid level r.clkVal r.numHwBlocks = some (adj,peak,delta)) :
    (¬ Overshoots s peak delta ∧
      (mmrmSwCheckPeakCurrent s env r.uid level r.clkVal r.numHwBlocks).2 = 0 ∧
      ((mmrmSwCheckPeakCurrent s env r.uid level r.clkVal r.numHwBlocks).1.peakCurData.aggregVal
          < s.peakCurData.threshold ∨
        (mmrmSwCheckPeakCurrent s env r.uid level r.clkVal r.numHwBlocks).1.peakCurData.aggregVal
          = 0)) ∨
    (Overshoots s peak delta ∧
      ((mmrmSwCheckPeakCurrent s env r.uid level r.clkVal r.numHwBlocks).2 ≠ 0 ∧
        ((s.clkClientTbl r.uid).pri = .high → s.enableThrottleFeature = true →
          ∃ i k, findThrottleClient s delta 0 s.throttleClientsInfo = some (i,k) ∧
            ¬ ThrottleAnswers s env k) ∨
      (s.clkClientTbl r.uid).pri = .high ∧ s.enableThrottleFeature = true ∧
        (mmrmSwCheckPeakCurrent s env r.uid level r.clkVal r.numHwBlocks).2 = 0 ∧
        ((findThrottleClient s delta 0 s.throttleClientsInfo = none ∧
          (mmrmSwCheckPeakCurrent s env r.uid level r.clkVal
            r.numHwBlocks).1.peakCurData.aggregVal = wrap (peak + delta)) ∨
        ∃ i k, findThrottleClient s delta 0 s.throttleClientsInfo = some (i,k) ∧
          ThrottleAnswers s env k ∧
          Throttled s (mmrmSwCheckPeakCurrent s env r.uid level r.clkVal r.numHwBlocks).1 ∧
          (mmrmSwCheckPeakCurrent s env r.uid level r.clkVal
            r.numHwBlocks).1.peakCurData.aggregVal = wrap (peak + wrapSub delta
              (nowCur s (s.clkClientTbl k) - minCur s (s.clkClientTbl k)))))) := by
  unfold mmrmSwCheckPeakCurrent
  simp only [hreq]
  by_cases hnon : signedNonpos (wrap (peak + delta)) = true
  · rw [if_pos hnon]
    refine Or.inl ⟨fun hh => ?_,rfl,Or.inr rfl⟩
    have hcontra := hnon.symm.trans hh.1
    cases hcontra
  · rw [if_neg hnon]
    by_cases hthr : s.peakCurData.threshold ≤ wrap (peak + delta)
    · have hover : Overshoots s peak delta := ⟨by simpa using hnon,hthr⟩
      rw [if_pos hthr]
      refine Or.inr ⟨hover,?_⟩
      by_cases hhigh : (s.clkClientTbl r.uid).pri = .high ∧ s.enableThrottleFeature = true
      · rw [if_pos hhigh]
        rcases throttle_spec s env delta with
          ⟨hnone,heq⟩ | ⟨i,k,hfind,⟨hans,hrc⟩ | ⟨hans,hthrottled,hrc⟩⟩
        · right
          rw [heq]
          exact ⟨hhigh.1,hhigh.2,rfl,Or.inl ⟨hnone,rfl⟩⟩
        · left
          generalize mmrmSwThrottleLowPriorityClient s env delta = t at hrc ⊢
          obtain ⟨s',rc,delta'⟩ := t
          dsimp only at hrc ⊢
          rw [if_pos hrc]
          exact ⟨hrc,fun _ _ => ⟨i,k,hfind,hans⟩⟩
        · right
          generalize mmrmSwThrottleLowPriorityClient s env delta = t at hrc hthrottled ⊢
          obtain ⟨s',rc,delta'⟩ := t
          obtain ⟨rfl,rfl⟩ := Prod.mk.inj hrc
          exact ⟨hhigh.1,hhigh.2,rfl,Or.inr ⟨i,k,hfind,hans,hthrottled,rfl⟩⟩
      · rw [if_neg hhigh]
        exact Or.inl ⟨neg_einval_ne,fun hp he => absurd ⟨hp,he⟩ hhigh⟩
    · rw [if_neg hthr]
      refine Or.inl ⟨fun hh => hthr hh.2,rfl,Or.inl ?_⟩
      simp only [reinstate_peakCurData,SwInfo.setPeak]
      omega

/-- What the request returns, and the aggregate it leaves, once the check has run. -/
theorem setval_checkPeak (hpath : setvalPath s env r = .checkPeak level) :
    ((mmrmSwClkClientSetval s env r).2 = 0 ↔
      (mmrmSwCheckPeakCurrent s env r.uid level r.clkVal r.numHwBlocks).2 = 0 ∧
        (r.reserve = true ∨ env.clkSetRate = 0)) ∧
    (mmrmSwClkClientSetval s env r).1.peakCurData =
      (mmrmSwCheckPeakCurrent s env r.uid level r.clkVal r.numHwBlocks).1.peakCurData := by
  unfold mmrmSwClkClientSetval
  simp only [hpath]
  generalize mmrmSwCheckPeakCurrent s env r.uid level r.clkVal r.numHwBlocks = t
  obtain ⟨s',rc⟩ := t
  dsimp only
  by_cases hrc : rc = 0
  · subst hrc
    simp only [ne_eq,not_true_eq_false,if_false,true_and]
    refine ⟨?_,rfl⟩
    cases hres : r.reserve with
    | true => simp
    | false =>
      simp only [Bool.false_eq_true,if_false,false_or,setClkRate]
      split
      · next hne => exact ⟨fun hh => absurd hh (by decide),fun hh => absurd hh hne⟩
      · next hz => exact ⟨fun _ => not_not.mp hz,fun _ => rfl⟩
  · simp [hrc]

/-- The three clients with throttling enabled and a threshold of 2, after the first has been
granted a current of 1. -/
def trioHigh : SwInfo :=
  Runs.run step { trio with
    peakCurData := { threshold := 2, aggregVal := 0, aggregLevel := 0 }
    enableThrottleFeature := true }
    [.register ⟨1,true,.high,fun level => level,fun _ _ => 1,true,true⟩,
      .register ⟨2,true,.high,fun level => level,fun _ _ => 1,true,true⟩,trioSetval 0 4]

end Admission

end MmrmClock
end MarbleModules
