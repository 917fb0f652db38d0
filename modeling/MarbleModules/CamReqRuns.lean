import MarbleModules.CamReqRetry
import MarbleModules.Runs

/-! A link over all sequences of requests, packets, triggers, bubbles and flushes, from its
set-up on, and the triggers after which its request can be retried. -/
namespace MarbleModules
namespace CamReqMgr

open Runs

/-- A trigger up to the request it works on: the slot that the done request has left behind is
freed, and the read index moves on when its request has been applied. -/
def enterTrigger (l : Link) (t : Trigger) : Except ℤ Link × Link :=
  let found := findSlotForReq l.inQ t.reqId
  let l :=
    if t.trigger = sof ∧ found ≥ 0 then
      let l :=
        if found = l.inQ.lastAppliedIdx then {l with inQ := {l.inQ with lastAppliedIdx := -1}}
        else l
      let idx := if found = l.inQ.rdIdx then decIdx found 1 l.inQ.numSlots else found
      resetReqSlot l (decIdx idx (resetStep l t+1) l.inQ.numSlots)
    else l
  let next := fun l : Link =>
    {l with inQ := {l.inQ with rdIdx := incIdx l.inQ.rdIdx 1 l.inQ.numSlots}}
  if l.state.rank < LinkState.ready.rank then (.error (-eperm),l)
  else if (l.inQ.slot l.inQ.rdIdx).status = .reqApplied then
    let (rc,l) := checkNextReqSlot l
    if rc ≠ 0 then (.error 0,next l) else (.ok (next l),next l)
  else (.ok l,l)

/-- A device reports that a request missed its frame. -/
structure Bubble where
  reqId : ℤ
  synced : Bool
  notify : Trigger

/-- The slots applied after the bubbled one are to be applied again. -/
def reAddLoop (numSlots : ℤ) : ℕ → ℤ → ReqQueue → ReqQueue
  | 0, _, inQ => inQ
  | n+1, idx, inQ =>
    let idx := incIdx idx 1 numSlots
    let inQ :=
      if (inQ.slot idx).status = .reqApplied then
        inQ.updSlot idx fun slot => {slot with status := .reqAdded}
      else inQ
    reAddLoop numSlots n idx inQ

/-- A bubble up to the request it applies again: the read index goes back to the bubbled
request, and the tables skip as they do at the start. -/
def enterBubble (l : Link) (err : Bubble) : Except ℤ Link :=
  let idx := findSlotForReq l.inQ err.reqId
  let numSlots := match l.lTbl with
    | [] => 0
    | tbl::_ => tbl.numSlots
  if idx < 0 then .error 0
  else if (l.inQ.slot idx).recover = 0 then .error 0
  else if (l.inQ.slot idx).status ≠ .reqPending ∧ (l.inQ.slot idx).status ≠ .reqApplied then
    .error (-einval)
  else
    let inQ := {l.inQ with rdIdx := idx}.updSlot idx fun slot => {slot with status := .reqAdded}
    let inQ :=
      if err.synced then
        (inQ.updSlot idx fun slot => {slot with syncMode := syncModeNoSync}).updSlot
          (incIdx idx 1 numSlots) fun slot => {slot with syncMode := syncModeNoSync}
      else inQ
    let slotDiff :=
      if inQ.lastAppliedIdx ≥ 0 then
        if inQ.lastAppliedIdx-idx < 0 then inQ.lastAppliedIdx-idx+numSlots
        else inQ.lastAppliedIdx-idx
      else 1
    .ok {l with
      lTbl := tblSetAllSkipCnt l.lTbl
      inQ := reAddLoop numSlots slotDiff.toNat idx inQ
      state := .err}

/-- What happens to a link. -/
inductive Op
  | schedReq (req : SchedReq)
  | addReq (req : AddReq)
  | trigger (t : Trigger)
  | bubble (err : Bubble)
  | flushReq (type : FlushType) (reqId : ℤ)
  | stop
  | control (activate : Bool)

/-- The link and the trigger with which an operation comes to work on the request at the read
index, if it does. -/
def entry (l : Link) : Op → Option (Link × Trigger)
  | .trigger t => (enterTrigger l t).1.toOption.map (·,t)
  | .bubble err => (enterBubble l err).toOption.map (·,err.notify)
  | _ => none

def processTrigger (l : Link) (t : Trigger) : ℤ × Link :=
  match enterTrigger l t with
  | (.error rc,l) => (rc,l)
  | (.ok l,_) => processReq l t

/-- A bubble's own return value does not tell whether the request could be applied. -/
def processError (l : Link) (err : Bubble) : ℤ × Link :=
  match enterBubble l err with
  | .error rc => (rc,l)
  | .ok l => (0,(processReq l err.notify).2)

def step (l : Link) : Op → Link
  | .schedReq req => processSchedReq l req
  | .addReq req => (processAddReq l req).2
  | .trigger t => (processTrigger l t).2
  | .bubble err => (processError l err).2
  | .flushReq type reqId => (processFlushReq l type reqId).2
  | .stop => processStop l
  | .control activate => linkControl l activate

/-! ### The delays of the tables never change -/

variable {l : Link} {t : Trigger}

theorem pds_congr {l l' : Link} (h : l.view = l'.view) : l.pds = l'.pds := by
  have hh := congrArg (fun v => v.tbls.map (·.pd)) h
  simpa [Link.view,ReqTbl.view,Link.pds,Function.comp_def] using hh

theorem map_pds (tbls : List ReqTbl) {f : ReqTbl → ReqTbl} (hf : ∀ tbl,(f tbl).pd = tbl.pd) :
    (tbls.map f).map (·.pd) = tbls.map (·.pd) := by
  simp [hf,Function.comp_def]

theorem updTbl_pds (tbls : List ReqTbl) (pd : ℤ) {f : ReqTbl → ReqTbl}
    (hf : ∀ tbl,(f tbl).pd = tbl.pd) : (updTbl tbls pd f).map (·.pd) = tbls.map (·.pd) := by
  apply map_pds
  intro tbl
  split
  · exact hf tbl
  · rfl

theorem tblSetAllSkipCnt_pds (tbls : List ReqTbl) :
    (tblSetAllSkipCnt tbls).map (·.pd) = tbls.map (·.pd) := by
  cases tbls with
  | nil => rfl
  | cons tbl next => exact map_pds _ fun _ => rfl

theorem resetReqSlot_pds (l : Link) (idx : ℤ) : (resetReqSlot l idx).pds = l.pds := by
  simp only [resetReqSlot]
  split
  · rfl
  · split
    · rfl
    · exact map_pds _ fun _ => rfl

theorem resetForgotten_pds (l : Link) (idx : ℤ) :
    (resetReqSlot {l with inQ := {l.inQ with lastAppliedIdx := -1}} idx).pds = l.pds :=
  resetReqSlot_pds _ idx

theorem flushReqSlot_pds (l : Link) : (flushReqSlot l).pds = l.pds := map_pds _ fun _ => rfl

theorem checkNextReqSlot_pds (l : Link) : (checkNextReqSlot l).2.pds = l.pds := by
  simp only [checkNextReqSlot]
  split_ifs <;> first | rfl | exact resetReqSlot_pds l _ | exact resetForgotten_pds l _

theorem processAddReq_pds (l : Link) (req : AddReq) : (processAddReq l req).2.pds = l.pds := by
  simp only [processAddReq]
  split
  · rfl
  · split
    · rfl
    · exact updTbl_pds _ _ fun _ => rfl

theorem tryCancelReq_pds (l : Link) (reqId : ℤ) : (tryCancelReq l reqId).2.pds = l.pds := by
  simp only [tryCancelReq]
  split
  · rfl
  · split
    · split_ifs <;> rfl
    · split_ifs <;> rfl
    · rfl
    · rfl
    · rfl

theorem checkLinkIsReady_pds (l : Link) (idx : ℤ) (validateOnly : Bool) :
    (checkLinkIsReady l idx validateOnly).2.pds = l.pds := by
  have hh : ∀ d,(traverse l.inQ validateOnly idx l.lTbl d).2.1.map (·.pd) =
      l.lTbl.map (·.pd) := by
    intro d
    by_cases hne : l.lTbl = []
    · simp [hne,traverse]
    · by_cases hall : AllPass l.inQ idx l.lTbl
      · rw [traverse_pass hne hall]
        cases validateOnly
        · exact map_pds _ fun _ => rfl
        · rfl
      · rw [(traverse_stop hall d).2.1]
  simp only [checkLinkIsReady]
  split_ifs <;> exact hh _

theorem applyStep_pds (l : Link) (t : Trigger) (e : EofTrigger) :
    (applyStep l t e).2.pds = l.pds := by
  have hsent : (sendReq l t).2.pds = l.pds := pds_congr (sendReq_view l t)
  by_cases hs : (sendReq l t).1 < 0
  · simp only [applyStep,if_pos hs]
    exact hsent
  · simp only [applyStep,if_neg hs]
    split_ifs <;> first | exact hsent | exact (resetReqSlot_pds ..).trans hsent

theorem processReq_pds (l : Link) (t : Trigger) : (processReq l t).2.pds = l.pds := by
  have hasked : (asked l t).2.pds = l.pds := pds_congr (asked_view l t)
  have hfilled : (filled l t).2.pds = l.pds := (checkLinkIsReady_pds ..).trans hasked
  have hchecked : (if (asked l t).1 ≠ 0 then asked l t
      else if (l.inQ.slot l.inQ.rdIdx).syncMode = syncModeSync then (0,(filled l t).2)
      else filled l t).2.pds = l.pds := by
    split_ifs
    · exact hasked
    · exact hfilled
    · exact hfilled
  have hcong : (congestion l t).pds = l.pds := by
    rw [congestion]
    split <;> rfl
  have hend : ∀ (l₁ : Link) (rc : ℤ),l₁.pds = l.pds →
      (if rc < 0 then notReady l₁ rc
        else applyStep (l₁.setStatus .reqReady) t (checkForEof l)).2.pds = l.pds := by
    intro l₁ rc h₁
    split
    · exact (pds_congr (notReady_view ..)).trans h₁
    · exact ((applyStep_pds ..).trans (pds_congr (setStatus_view ..))).trans h₁
  simp only [processReq]
  split
  · rfl
  · exact pds_congr (notifyFrameSkip_view l)
  · exact (applyStep_pds ..).trans hcong
  · exact hend _ _ hchecked

theorem enterTrigger_pds (l : Link) (t : Trigger) :
    (enterTrigger l t).2.pds = l.pds ∧
      ∀ l',(enterTrigger l t).1 = .ok l' → l'.pds = l.pds := by
  simp only [enterTrigger]
  generalize hl₁ : (if t.trigger = sof ∧ findSlotForReq l.inQ t.reqId ≥ 0 then _ else l) = l₁
  have hl : l₁.pds = l.pds := by
    rw [← hl₁]
    split_ifs <;> first | rfl | exact resetReqSlot_pds l _ | exact resetForgotten_pds l _
  have hnext : (checkNextReqSlot l₁).2.pds = l.pds := (checkNextReqSlot_pds l₁).trans hl
  split_ifs
  · exact ⟨hl,fun l' h => by cases h⟩
  · exact ⟨hnext,fun l' h => by cases h⟩
  · exact ⟨hnext,fun l' h => by cases h; exact hnext⟩
  · exact ⟨hl,fun l' h => by cases h; exact hl⟩

theorem enterBubble_pds {err : Bubble} {l' : Link} (h : enterBubble l err = .ok l') :
    l'.pds = l.pds := by
  simp only [enterBubble] at h
  split_ifs at h <;> cases h <;> exact tblSetAllSkipCnt_pds _

theorem entry_pds {op : Op} {l' : Link} (h : entry l op = some (l',t)) : l'.pds = l.pds := by
  cases op with
  | trigger t' =>
    cases he : (enterTrigger l t').1 with
    | error rc => simp [entry,he,Except.toOption] at h
    | ok l₁ =>
      have hh : l₁ = l' ∧ t' = t := by simpa [entry,he,Except.toOption] using h
      rw [← hh.1]
      exact (enterTrigger_pds l t').2 l₁ he
  | bubble err =>
    cases he : enterBubble l err with
    | error rc => simp [entry,he,Except.toOption] at h
    | ok l₁ =>
      have hh : l₁ = l' ∧ err.notify = t := by simpa [entry,he,Except.toOption] using h
      rw [← hh.1]
      exact enterBubble_pds he
  | schedReq _ => cases h
  | addReq _ => cases h
  | flushReq _ _ => cases h
  | stop => cases h
  | control _ => cases h

theorem step_pds (l : Link) (op : Op) : (step l op).pds = l.pds := by
  cases op with
  | schedReq req => rfl
  | addReq req => exact processAddReq_pds l req
  | trigger t =>
    have hh := enterTrigger_pds l t
    rw [step,processTrigger]
    split
    · rename_i he
      rw [he] at hh
      exact hh.1
    · rename_i he
      rw [he] at hh
      exact (processReq_pds ..).trans (hh.2 _ rfl)
  | bubble err =>
    rw [step,processError]
    split
    · rfl
    · rename_i he
      exact (processReq_pds ..).trans (enterBubble_pds he)
  | flushReq type reqId =>
    cases type with
    | all => exact flushReqSlot_pds l
    | cancelReq => exact tryCancelReq_pds l reqId
  | stop => exact flushReqSlot_pds l
  | control activate => rfl

/-! ### A link has one table for each delay -/

theorem insertAfter_pds (newTbl tbl : ReqTbl) (next : List ReqTbl) :
    ((insertAfter newTbl tbl next).map (·.pd)).Perm
      (newTbl.pd::tbl.pd::next.map (·.pd)) := by
  induction next generalizing tbl with
  | nil => exact List.Perm.swap ..
  | cons nxt rest ih =>
    rw [insertAfter]
    split
    · exact ((ih nxt).cons tbl.pd).trans (List.Perm.swap ..)
    · exact List.Perm.swap ..

theorem addTblToLink_pds (tbls : List ReqTbl) (newTbl : ReqTbl) :
    ((addTblToLink tbls newTbl).map (·.pd)).Perm (newTbl.pd::tbls.map (·.pd)) := by
  cases tbls with
  | nil => exact List.Perm.refl _
  | cons tbl next =>
    rw [addTblToLink]
    split
    · exact List.Perm.refl _
    · exact insertAfter_pds newTbl tbl next

/-- Every delay has one table, and its bit is set. -/
structure SetUp (l : Link) : Prop where
  nodup : l.pds.Nodup
  bits : ∀ p ∈ l.pds,l.pdMask &&& pdBit p ≠ 0

theorem setupDev_setUp {info : DevInfo} {l' : Link} (h : SetUp l)
    (hpd : 0 ≤ info.pDelay ∧ info.pDelay < pipelineDelayMax) (hl : setupDev l info = .ok l') :
    SetUp l' := by
  have hbit : pdBit info.pDelay ≠ 0 := by
    have hcases : info.pDelay = 0 ∨ info.pDelay = 1 ∨ info.pDelay = 2 := by
      simp only [pipelineDelayMax] at hpd
      omega
    rcases hcases with hp | hp | hp <;> rw [hp] <;> decide
  let l₁ : Link :=
    if l.pdMask &&& pdBit info.pDelay ≠ 0 then l
    else {l with
      pdMask := l.pdMask ||| pdBit info.pDelay
      lTbl := addTblToLink l.lTbl {createPdTbl with pd := info.pDelay}}
  have h₁ : SetUp l₁ := by
    by_cases hset : l.pdMask &&& pdBit info.pDelay ≠ 0
    · simpa only [l₁,if_pos hset] using h
    · have hperm := addTblToLink_pds l.lTbl {createPdTbl with pd := info.pDelay}
      simp only [l₁,if_neg hset]
      refine ⟨?_,fun p hp => ?_⟩
      · have hnew : info.pDelay ∉ l.pds := fun hmem => hset (h.bits _ hmem)
        exact hperm.nodup_iff.mpr (List.nodup_cons.mpr ⟨hnew,h.nodup⟩)
      · intro hzero
        rw [BitVec.and_or_distrib_right] at hzero
        have hh := BitVec.or_eq_zero_iff.mp hzero
        rcases List.mem_cons.mp (hperm.mem_iff.mp hp) with heq | hmem
        · have hself : pdBit info.pDelay &&& pdBit p = pdBit info.pDelay := by
            rw [heq]
            exact BitVec.and_self
          exact hbit (hself ▸ hh.2)
        · exact h.bits p hmem hh.1
  cases hf : findPdTbl l₁.lTbl info.pDelay with
  | none =>
    simp only [l₁] at hf
    simp only [setupDev,hf] at hl
    cases hl
  | some tbl =>
    simp only [l₁] at hf
    simp only [setupDev,hf] at hl
    cases hl
    have hpds := updTbl_pds l₁.lTbl info.pDelay (f := fun t =>
      {t with devCount := t.devCount+1, devMask := t.devMask ||| 1#32 <<< tbl.devCount})
      fun _ => rfl
    exact ⟨by rw [Link.pds,hpds]; exact h₁.nodup,by rw [Link.pds,hpds]; exact h₁.bits⟩

theorem setupDevs_setUp {infos : List DevInfo} {l' : Link} (h : SetUp l)
    (hpd : ∀ info ∈ infos,0 ≤ info.pDelay ∧ info.pDelay < pipelineDelayMax)
    (hl : infos.foldlM setupDev l = .ok l') : SetUp l' := by
  induction infos generalizing l with
  | nil => cases hl; exact h
  | cons info rest ih =>
    rw [List.foldlM_cons] at hl
    cases hd : setupDev l info with
    | error rc => rw [hd] at hl; cases hl
    | ok l₁ =>
      rw [hd] at hl
      exact ih (setupDev_setUp h (hpd info List.mem_cons_self) hd)
        (fun i hi => hpd i (List.mem_cons_of_mem _ hi)) hl

theorem link_nodup {used prevUsed : ℤ → Apply} {infos : List DevInfo}
    (h : link used prevUsed infos = .ok l) : l.pds.Nodup := by
  have hset : ∀ l',setupLinkInfo (reserveLink used prevUsed) infos = .ok l' → l'.pds.Nodup := by
    intro l' hl
    rw [setupLinkInfo] at hl
    split at hl
    · split at hl
      · cases hl
      · cases hl
        exact List.nodup_nil
    · rename_i hnone
      split at hl
      · cases hl
      · cases hd : infos.foldlM setupDev {reserveLink used prevUsed with
          dualTrigger := infos.countP (·.triggerOn) = maxTriggers} with
        | error rc => rw [hd] at hl; cases hl
        | ok l₁ =>
          rw [hd] at hl
          cases hl
          have hrange : ∀ info ∈ infos,0 ≤ info.pDelay ∧ info.pDelay < pipelineDelayMax := by
            intro info hi
            have hh := List.find?_eq_none.mp hnone info hi
            simp only [decide_eq_true_eq,not_or,not_lt,not_le] at hh
            omega
          have hinit : SetUp {reserveLink used prevUsed with
              dualTrigger := infos.countP (·.triggerOn) = maxTriggers} :=
            ⟨List.nodup_nil,fun p hp => by cases hp⟩
          have hnd := (setupDevs_setUp hinit hrange hd).nodup
          rw [Link.pds,tblSetAllSkipCnt_pds]
          exact hnd
  rw [link] at h
  cases hs : setupLinkInfo (reserveLink used prevUsed) infos with
  | error rc => rw [hs] at h; cases h
  | ok l' =>
    rw [hs] at h
    cases h
    exact hset l' hs

/-! ### Retrying -/

/-- Whatever has happened to a link since its set-up: a trigger that found its request ready and
did not apply it leaves a request that the next check answers in the same way, if and only if no
table has spent its last skip on it, those apart that pass without it and have no request to
give. -/
theorem retries_iff {used prevUsed : ℤ → Apply} {infos : List DevInfo} {l₀ : Link}
    (hlink : link used prevUsed infos = .ok l₀) (ops : List Op) {op : Op}
    (hentry : entry (run step l₀ ops) op = some (l,t)) (hu : Unapplied l t) :
    Retries l t ↔ KeepsAnswers l.inQ l.rdSlot l.lTbl := by
  have hrun : (run step l₀ ops).pds = l₀.pds :=
    run_invariant (I := fun l => l.pds = l₀.pds) (fun l op h => (step_pds l op).trans h) rfl ops
  apply hu.retry_iff
  rw [entry_pds hentry,hrun]
  exact link_nodup hlink

/-- A sensor of delay 2, and a device of a smaller delay. -/
def twoDevices (pDelay : ℤ) : List DevInfo :=
  [⟨0,1,1,2,sof,false,true⟩,⟨0,2,deviceIfe,pDelay,sof,true,true⟩]

def noData : ℤ → Apply := fun _ => ⟨0,0,0,0⟩

/-- The link of the two devices. -/
def twoDeviceLink (pDelay : ℤ) : Link :=
  ((link noData noData (twoDevices pDelay)).toOption).getD (reserveLink noData noData)

/-- The first request, with the packets of both devices. -/
def firstRequest : List Op :=
  [.schedReq ⟨1,syncModeNoSync,0⟩,.addReq ⟨1,1,false,0,0⟩,.addReq ⟨2,1,false,0,0⟩]

/-- The first frame, at which no device can apply its request. -/
def busyFrame : Trigger := ⟨sof,0,fun _ => -einval,fun _ => -einval,0,[],false,false⟩

theorem retries_delays_2_0 : Retries (run step (twoDeviceLink 0) firstRequest) busyFrame :=
  (retries_iff (rfl : link noData noData (twoDevices 0) = .ok (twoDeviceLink 0)) firstRequest
    (rfl : entry (run step (twoDeviceLink 0) firstRequest) (.trigger busyFrame) = some _)
    (by decide +kernel)).mpr ⟨by decide +kernel,by decide +kernel,trivial⟩

/-- With delays 2 and 1 the first request is ready, the sensor does not take it, and at the next
frame it is no longer ready: the skip of the smaller delay is spent. -/
theorem not_retries_delays_2_1 :
    link noData noData (twoDevices 1) = .ok (twoDeviceLink 1) ∧
      entry (run step (twoDeviceLink 1) firstRequest) (.trigger busyFrame) =
        some (run step (twoDeviceLink 1) firstRequest,busyFrame) ∧
      Unapplied (run step (twoDeviceLink 1) firstRequest) busyFrame ∧
      ¬Retries (run step (twoDeviceLink 1) firstRequest) busyFrame :=
  ⟨rfl,rfl,by decide +kernel,fun h => absurd h.1 (by decide +kernel)⟩

end CamReqMgr
end MarbleModules
