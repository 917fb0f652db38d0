import MarbleModules.CamReqApply

/-! What a trigger leaves behind when the request was ready and yet was not applied, and when
the next check answers as the first one did. -/
namespace MarbleModules
namespace CamReqMgr

/-- What a traversal reads of a table that passes. -/
structure TblView where
  pd : ℤ
  skipTraverse : ℤ
  pdDelta : ℤ
  numSlots : ℤ
  state : ℤ → ReqState

def ReqTbl.view (tbl : ReqTbl) : TblView :=
  ⟨tbl.pd,tbl.skipTraverse,tbl.pdDelta,tbl.numSlots,fun i => (tbl.slot i).state⟩

/-- What the check of a link reads. -/
structure View where
  tbls : List TblView
  idx : ℤ → ℤ
  skipIdx : ℤ → ℤ
  reqId : ℤ → ℤ
  rdIdx : ℤ
  pdMask : BitVec 32

def Link.view (l : Link) : View :=
  ⟨l.lTbl.map (·.view),fun i => (l.inQ.slot i).idx,fun i => (l.inQ.slot i).skipIdx,
    fun i => (l.inQ.slot i).reqId,l.inQ.rdIdx,l.pdMask⟩

variable {inQ inQ' : ReqQueue} {l l' : Link} {t : Trigger}

/-- Tables that look alike behave alike in a traversal. -/
theorem traverse_congr (hskip : ∀ i,(inQ.slot i).skipIdx = (inQ'.slot i).skipIdx)
    (hreq : ∀ i,(inQ.slot i).reqId = (inQ'.slot i).reqId) {tbls tbls' : List ReqTbl}
    (h : tbls.map (·.view) = tbls'.map (·.view)) (idx : ℤ) (a : ℤ → Apply) :
    (AllPass inQ idx tbls ↔ AllPass inQ' idx tbls') ∧
      fill inQ idx tbls a = fill inQ' idx tbls' a ∧
      (KeepsAnswers inQ idx tbls ↔ KeepsAnswers inQ' idx tbls') ∧
      passed tbls 0#32 = passed tbls' 0#32 := by
  induction tbls generalizing tbls' idx with
  | nil =>
    have hh : tbls' = [] := by simpa using h.symm
    subst hh
    exact ⟨Iff.rfl,rfl,Iff.rfl,rfl⟩
  | cons tbl next ih =>
    cases tbls' with
    | nil => simp at h
    | cons tbl' next' =>
      simp only [List.map_cons,List.cons.injEq,ReqTbl.view,TblView.mk.injEq] at h
      obtain ⟨⟨hpd,hsk,hdelta,hslots,hstate⟩,hnext⟩ := h
      have hst : (tbl.slot idx).state = (tbl'.slot idx).state := congrFun hstate idx
      obtain ⟨hall,hfill,hkeep,hpassed⟩ := ih hnext (decIdx idx tbl.pdDelta tbl.numSlots)
      refine ⟨?_,?_,?_,?_⟩
      · rw [AllPass,AllPass,hall,Passes,Passes,hst,hskip idx,hsk,hdelta,hslots]
      · rw [fill,fill,hfill,applyOf,applyOf,hpd,hsk,hdelta,hslots,hreq idx]
      · rw [KeepsAnswers,KeepsAnswers,hkeep,KeepsAnswer,KeepsAnswer,hst,hskip idx,hreq idx,hsk,
          hdelta,hslots]
      · change passed next 0#32 ||| pdBit tbl.pd = passed next' 0#32 ||| pdBit tbl'.pd
        rw [hpassed,hpd]

theorem checkLinkIsReady_ok_iff (l : Link) (idx : ℤ) (validateOnly : Bool) :
    (checkLinkIsReady l idx validateOnly).1 = 0 ↔
      l.lTbl ≠ [] ∧ AllPass l.inQ idx l.lTbl ∧ passed l.lTbl 0#32 = l.pdMask := by
  by_cases hne : l.lTbl = []
  · simp [checkLinkIsReady,hne,traverse,einval,eagain]
  · by_cases hall : AllPass l.inQ idx l.lTbl
    · by_cases hm : passed l.lTbl 0#32 = l.pdMask
      · simp [checkLinkIsReady,traverse_pass hne hall,hne,hall,hm]
      · simp [checkLinkIsReady,traverse_pass hne hall,hm,eagain]
    · have hrc : ∀ d,(traverse l.inQ validateOnly idx l.lTbl d).1 ≠ 0 :=
        fun d hh => hall ((traverse_ok_iff hne idx d).mp hh)
      simp [checkLinkIsReady,hrc,hall,eagain]

/-- A check that only validates changes nothing. -/
theorem checkLinkIsReady_validate (l : Link) (idx : ℤ) :
    (checkLinkIsReady l idx true).2 = l := by
  have hh : ∀ d,(traverse l.inQ true idx l.lTbl d).2.1 = l.lTbl ∧
      (traverse l.inQ true idx l.lTbl d).2.2.applyData = d.applyData := by
    intro d
    by_cases hne : l.lTbl = []
    · simp [hne,traverse]
    · by_cases hall : AllPass l.inQ idx l.lTbl
      · simp [traverse_pass hne hall]
      · exact (traverse_stop hall d).2
  simp only [checkLinkIsReady,if_true,hh]
  split <;> rfl

/-- A check that succeeds has filled in what to apply and spent a skip of every table. -/
theorem checkLinkIsReady_filled {idx : ℤ} (h : (checkLinkIsReady l idx false).1 = 0) :
    (checkLinkIsReady l idx false).2 = {l with
      lTbl := l.lTbl.map (·.spend)
      applyData := fill l.inQ idx l.lTbl fun _ => ⟨0,0,0,0⟩} := by
  obtain ⟨hne,hall,hm⟩ := (checkLinkIsReady_ok_iff l idx false).mp h
  simp [checkLinkIsReady,traverse_pass hne hall,hm]

theorem checkLinkIsReady_congr (h : l.view = l'.view) (idx : ℤ) :
    ((checkLinkIsReady l idx false).1 = 0 ↔ (checkLinkIsReady l' idx false).1 = 0) ∧
      ((checkLinkIsReady l idx false).1 = 0 →
        (checkLinkIsReady l idx false).2.applyData =
          (checkLinkIsReady l' idx false).2.applyData) := by
  simp only [Link.view,View.mk.injEq] at h
  obtain ⟨htbls,-,hskip,hreq,-,hmask⟩ := h
  obtain ⟨hall,hfill,-,hpassed⟩ := traverse_congr (congrFun hskip) (congrFun hreq) htbls idx
    fun _ => ⟨0,0,0,0⟩
  have hne : l.lTbl ≠ [] ↔ l'.lTbl ≠ [] := by
    have hlen := congrArg List.length htbls
    simp only [List.length_map] at hlen
    rw [← List.length_pos_iff,← List.length_pos_iff,hlen]
  have hok : (checkLinkIsReady l idx false).1 = 0 ↔ (checkLinkIsReady l' idx false).1 = 0 := by
    rw [checkLinkIsReady_ok_iff,checkLinkIsReady_ok_iff,hne,hall,hpassed,hmask]
  refine ⟨hok,fun hl => ?_⟩
  rw [checkLinkIsReady_filled hl,checkLinkIsReady_filled (hok.mp hl)]
  exact hfill

/-- The delays a link's tables stand for. -/
def Link.pds (l : Link) : List ℤ := l.lTbl.map (·.pd)

/-- After a check that succeeded the same check gives the same, if and only if every table keeps
its answer. -/
theorem checkLinkIsReady_again (hpd : l.pds.Nodup) {idx : ℤ}
    (h : (checkLinkIsReady l idx false).1 = 0) :
    (checkLinkIsReady (checkLinkIsReady l idx false).2 idx false).1 = 0 ∧
        (checkLinkIsReady (checkLinkIsReady l idx false).2 idx false).2.applyData =
          (checkLinkIsReady l idx false).2.applyData ↔
      KeepsAnswers l.inQ idx l.lTbl := by
  obtain ⟨hne,hall,hm⟩ := (checkLinkIsReady_ok_iff l idx false).mp h
  have hagain := again_iff hpd hall fun _ => ⟨0,0,0,0⟩
  let l₁ : Link := {l with
    lTbl := l.lTbl.map (·.spend)
    applyData := fill l.inQ idx l.lTbl fun _ => ⟨0,0,0,0⟩}
  have hl₁ : (checkLinkIsReady l idx false).2 = l₁ := checkLinkIsReady_filled h
  have hok : (checkLinkIsReady l₁ idx false).1 = 0 ↔
      AllPass l.inQ idx (l.lTbl.map (·.spend)) := by
    rw [checkLinkIsReady_ok_iff]
    simp [l₁,hne,passed_spend,hm]
  rw [hl₁,← hagain,hok]
  constructor
  · rintro ⟨hp,he⟩
    rw [checkLinkIsReady_filled (hok.mpr hp)] at he
    exact ⟨hp,he⟩
  · rintro ⟨hp,he⟩
    rw [checkLinkIsReady_filled (hok.mpr hp)]
    exact ⟨hp,he⟩

/-! ### What the rest of a trigger leaves alone -/

theorem updTbl_view (lTbl : List ReqTbl) (pd : ℤ) {f : ReqTbl → ReqTbl}
    (hf : ∀ tbl,(f tbl).view = tbl.view) :
    (updTbl lTbl pd f).map (·.view) = lTbl.map (·.view) := by
  rw [updTbl,List.map_map]
  apply List.map_congr_left
  intro tbl _
  simp only [Function.comp]
  split
  · exact hf tbl
  · rfl

theorem updSlot_view (tbl : ReqTbl) (idx : ℤ) {f : TblSlot → TblSlot}
    (hf : ∀ slot,(f slot).state = slot.state) : (tbl.updSlot idx f).view = tbl.view := by
  simp only [ReqTbl.view,ReqTbl.updSlot,TblView.mk.injEq,true_and]
  funext i
  by_cases hi : i = idx
  · subst hi
    simp [hf]
  · simp [hi]

theorem setOps_view (l : Link) (dev : Device) (idx : ℤ) (f : SpecialOps → SpecialOps) :
    (l.setOps dev idx f).view = l.view := by
  have hh := updTbl_view l.lTbl dev.devInfo.pDelay (f := fun tbl =>
    tbl.updSlot idx fun slot => {slot with ops := f slot.ops})
    fun tbl => updSlot_view tbl idx fun _ => rfl
  simp only [Link.view,Link.setOps,hh]

theorem notifyFrameSkip_view (l : Link) : (notifyFrameSkip l).view = l.view := by
  rw [notifyFrameSkip]
  generalize l.devs = devs
  induction devs generalizing l with
  | nil => rfl
  | cons dev rest ih =>
    rw [List.foldl_cons,ih]
    simp only []
    split
    · rfl
    · split
      · exact setOps_view l dev _ _
      · rfl

theorem sendLoop_view (t : Trigger) (l : Link) (reApply : Bool) (rc : ℤ)
    (devs : List Device) : (sendLoop t l reApply rc devs).2.view = l.view := by
  fun_induction sendLoop t l reApply rc devs <;> simp_all [setOps_view]

theorem setStatus_view (l : Link) (status : SlotStatus) :
    (l.setStatus status).view = l.view := by
  have hh : ∀ i,((l.setStatus status).inQ.slot i).idx = (l.inQ.slot i).idx ∧
      ((l.setStatus status).inQ.slot i).skipIdx = (l.inQ.slot i).skipIdx ∧
      ((l.setStatus status).inQ.slot i).reqId = (l.inQ.slot i).reqId := by
    intro i
    by_cases hi : i = l.inQ.rdIdx <;> simp [Link.setStatus,ReqQueue.updSlot,hi]
  simp only [Link.view,hh]
  rfl

theorem sendReq_view (l : Link) (t : Trigger) : (sendReq l t).2.view = l.view := by
  simp only [sendReq]
  split
  · exact notifyFrameSkip_view l
  · exact setOps_view l _ _ _
  · split
    · rw [notifyFrameSkip_view,sendLoop_view]
    · exact sendLoop_view ..

/-- A request that some device did not take leaves what the check reads. -/
theorem applyStep_view {e : EofTrigger} (h : (applyStep l t e).1 < 0) :
    (applyStep l t e).2.view = l.view := by
  by_cases hs : (sendReq l t).1 < 0
  · have hh : (applyStep l t e).2.view = ((sendReq l t).2.setStatus .reqPending).view := by
      simp only [applyStep,if_pos hs]
      rfl
    rw [hh,setStatus_view,sendReq_view]
  · exfalso
    simp only [applyStep,if_neg hs] at h
    split at h <;> exact hs h

theorem notReady_view (l : Link) (rc : ℤ) : (notReady l rc).2.view = l.view := by
  simp only [notReady,notifyFrameSkip_view,setStatus_view]

theorem injectDelay_view (trigger : BitVec 32) (idx : ℤ) (tbls : List ReqTbl) :
    (injectDelay trigger idx tbls).2.map (·.view) = tbls.map (·.view) := by
  induction tbls generalizing idx with
  | nil => rfl
  | cons tbl next ih =>
    have hnext := ih (decIdx idx tbl.pdDelta tbl.numSlots)
    simp only [injectDelay]
    split
    · exact congrArg₂ List.cons (updSlot_view tbl idx fun _ => rfl) hnext
    · split
      · exact congrArg₂ List.cons (updSlot_view tbl idx fun _ => rfl) hnext
      · exact congrArg₂ List.cons rfl hnext

theorem prepare_view (l : Link) (t : Trigger) : (prepare l t).2.view = l.view := by
  have hh : ∀ idx,({l with lTbl := (injectDelay t.trigger idx l.lTbl).2} : Link).view =
      l.view := by
    intro idx
    simp only [Link.view,injectDelay_view]
  simp only [prepare,checkLinkIsReady_validate]
  split
  · split
    · rfl
    · exact hh _
  · split
    · rfl
    · exact hh _

theorem asked_view (l : Link) (t : Trigger) : (asked l t).2.view = l.view := by
  rw [asked,prepare_view,congestion]
  split <;> rfl

/-- The slot of the queue that a trigger works on. -/
def Link.rdSlot (l : Link) : ℤ := (l.inQ.slot l.inQ.rdIdx).idx

theorem rdSlot_congr (h : l.view = l'.view) : l.rdSlot = l'.rdSlot := by
  simp only [Link.view,View.mk.injEq] at h
  rw [Link.rdSlot,Link.rdSlot,h.2.2.2.2.1]
  exact congrFun h.2.1 _

/-- The trigger found the request ready, filled in what to apply, and did not apply it. -/
structure Unapplied (l : Link) (t : Trigger) : Prop where
  due : course l t = .check
  prepared : (asked l t).1 = 0
  checked : (filled l t).1 = 0
  failed : (processReq l t).1 < 0

instance (l : Link) (t : Trigger) : Decidable (Unapplied l t) :=
  decidable_of_iff (course l t = .check ∧ (asked l t).1 = 0 ∧ (filled l t).1 = 0 ∧
      (processReq l t).1 < 0)
    ⟨fun h => ⟨h.1,h.2.1,h.2.2.1,h.2.2.2⟩,fun h => ⟨h.due,h.prepared,h.checked,h.failed⟩⟩

/-- The check at the next trigger succeeds again and fills in the same. -/
def Retries (l : Link) (t : Trigger) : Prop :=
  let l' := (processReq l t).2
  (checkLinkIsReady l' l.rdSlot false).1 = 0 ∧
    (checkLinkIsReady l' l.rdSlot false).2.applyData = (filled l t).2.applyData

/-- What is left of a trigger that did not apply its request is what its check left. -/
theorem Unapplied.view (h : Unapplied l t) :
    (processReq l t).2.view = (filled l t).2.view := by
  have hf := h.failed
  simp only [processReq,h.due,h.prepared,ne_eq,not_true_eq_false,if_false] at hf ⊢
  have hlink : (if (l.inQ.slot l.inQ.rdIdx).syncMode = syncModeSync then (0,(filled l t).2)
      else filled l t) = ((0 : ℤ),(filled l t).2) := by
    split
    · rfl
    · exact Prod.ext h.checked rfl
  rw [hlink] at hf ⊢
  have hneg : -eagain < 0 := by decide
  have hzero : ¬(0 : ℤ) < 0 := by decide
  by_cases hwait : t.trigger = sof ∧ checkForEof l = .notApply
  · simp only [hwait,and_self,if_true,hneg]
    exact notReady_view ..
  · simp only [hwait,and_false,if_false,hzero] at hf ⊢
    rw [applyStep_view hf,setStatus_view]

/-- A request that was ready and was not applied can be applied at the next trigger as it
would have been at this one, if and only if every table keeps its answer. -/
theorem Unapplied.retry_iff (h : Unapplied l t) (hpd : l.pds.Nodup) :
    Retries l t ↔ KeepsAnswers l.inQ l.rdSlot l.lTbl := by
  have hasked := asked_view l t
  have hidx : (asked l t).2.rdSlot = l.rdSlot := rdSlot_congr hasked
  have hfilled : filled l t = checkLinkIsReady (asked l t).2 l.rdSlot false := by
    rw [← hidx]
    rfl
  have hok := h.checked
  have hpds : (asked l t).2.pds = l.pds := by
    have hh := congrArg (fun v => v.tbls.map (·.pd)) hasked
    simpa [Link.view,ReqTbl.view,Link.pds,Function.comp_def] using hh
  have hagain := checkLinkIsReady_again (hpds ▸ hpd) (hfilled ▸ hok)
  have hcongr := checkLinkIsReady_congr h.view l.rdSlot
  simp only [Link.view,View.mk.injEq] at hasked
  obtain ⟨htbls,-,hskip,hreq,-,-⟩ := hasked
  have hkeep := (traverse_congr (congrFun hskip) (congrFun hreq) htbls l.rdSlot
    (asked l t).2.applyData).2.2.1
  rw [← hkeep,← hagain,← hfilled,Retries]
  constructor
  · rintro ⟨hrc,hdata⟩
    exact ⟨hcongr.1.mp hrc,(hcongr.2 hrc).symm.trans hdata⟩
  · rintro ⟨hrc,hdata⟩
    have hrc' := hcongr.1.mpr hrc
    exact ⟨hrc',(hcongr.2 hrc').trans hdata⟩

end CamReqMgr
end MarbleModules
