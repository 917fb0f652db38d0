import Mathlib.Data.BitVec
import Mathlib.Tactic

/-! The request tables of a camera link, one for each pipeline delay, and the traversal that
asks every table whether a request is ready. A table may stand for a request that never
existed: it then passes on its skip counter, and the traversal spends one of the skips. -/
namespace MarbleModules
namespace CamReqMgr

def eperm : ℤ := 1
def enoent : ℤ := 2
def eagain : ℤ := 11
def einval : ℤ := 22

/-- Slots of the input queue and of every table. -/
def maxReqSlots : ℤ := 48

/-- State of a request in a table. -/
inductive ReqState
  | empty | pending | ready | invalid
  deriving DecidableEq

/-- Status of a request in the input queue. -/
inductive SlotStatus
  | noReq | reqAdded | reqPending | reqReady | reqApplied | invalid
  deriving DecidableEq

/-- What a device asked of a slot. -/
structure SpecialOps where
  devHdl : ℤ
  applyAtEof : Bool
  isApplied : Bool
  deriving DecidableEq

structure TblSlot where
  reqReadyMap : BitVec 32
  state : ReqState
  injectDelayAtSof : ℕ
  injectDelayAtEof : ℕ
  ops : SpecialOps
  deriving DecidableEq

/-- The table of a pipeline delay. A link holds its tables from the largest delay down, each
with its distance to the next. -/
structure ReqTbl where
  pd : ℤ
  devCount : ℕ
  devMask : BitVec 32
  skipTraverse : ℤ
  pdDelta : ℤ
  numSlots : ℤ
  slot : ℤ → TblSlot

/-- A slot of the input queue. -/
structure Slot where
  idx : ℤ
  skipIdx : ℤ
  status : SlotStatus
  recover : ℤ
  reqId : ℤ
  syncMode : ℤ
  deriving DecidableEq

structure ReqQueue where
  numSlots : ℤ
  slot : ℤ → Slot
  rdIdx : ℤ
  wrIdx : ℤ
  lastAppliedIdx : ℤ

/-- What the devices of a pipeline delay are given at a trigger. -/
structure Apply where
  idx : ℤ
  pd : ℤ
  reqId : ℤ
  skipIdx : ℤ
  deriving DecidableEq

/-- The request a traversal stopped at. -/
structure TraverseResult where
  reqId : ℤ
  pd : ℤ
  maskedValue : BitVec 32
  deriving DecidableEq

structure TraverseData where
  result : BitVec 32
  resultData : TraverseResult
  applyData : ℤ → Apply

def incIdx (val step maxVal : ℤ) : ℤ := (val+step).tmod maxVal

def decIdx (val step maxVal : ℤ) : ℤ :=
  if val-step < 0 then maxVal+(val-step) else val-step

def pdBit (pd : ℤ) : BitVec 32 := 1#32 <<< pd.toNat

/-- The table `tbl` has nothing to wait for at slot `idx`. -/
def Passes (inQ : ReqQueue) (idx : ℤ) (tbl : ReqTbl) : Prop :=
  (tbl.slot idx).state = .ready ∨ (inQ.slot idx).skipIdx = 1 ∨ tbl.skipTraverse > 0

instance (inQ : ReqQueue) (idx : ℤ) (tbl : ReqTbl) : Decidable (Passes inQ idx tbl) :=
  inferInstanceAs (Decidable (_ ∨ _ ∨ _))

/-- What a table that passes gives its devices: the request of the slot, or none when the
table is skipping. -/
def applyOf (inQ : ReqQueue) (idx : ℤ) (tbl : ReqTbl) (a : Apply) : Apply :=
  {a with
    pd := tbl.pd
    idx := idx
    reqId := if tbl.skipTraverse > 0 then -1 else (inQ.slot idx).reqId}

/-- A table that passed has one skip less. -/
def ReqTbl.spend (tbl : ReqTbl) : ReqTbl :=
  {tbl with
    skipTraverse := if tbl.skipTraverse > 0 then tbl.skipTraverse-1 else tbl.skipTraverse}

/-- Visit the tables from the largest delay down; only when the last one has passed are they
recorded, on the way back. -/
def traverse (inQ : ReqQueue) (validateOnly : Bool) :
    ℤ → List ReqTbl → TraverseData → ℤ × List ReqTbl × TraverseData
  | _, [], d => (-einval,[],{d with result := 0})
  | idx, tbl::next, d =>
    if Passes inQ idx tbl then
      let (rc,next,d) :=
        if next.isEmpty then (0,[],d)
        else traverse inQ validateOnly (decIdx idx tbl.pdDelta tbl.numSlots) next d
      if rc ≥ 0 then
        let d := {d with result := d.result ||| pdBit tbl.pd}
        if validateOnly then (0,tbl::next,d)
        else
          (0,tbl.spend::next,{d with
            applyData :=
              Function.update d.applyData tbl.pd (applyOf inQ idx tbl (d.applyData tbl.pd))})
      else (rc,tbl::next,d)
    else
      (-eagain,tbl::next,{d with
        resultData := ⟨(inQ.slot idx).reqId,tbl.pd,tbl.devMask &&& (tbl.slot idx).reqReadyMap⟩
        result := d.result &&& ~~~(pdBit tbl.pd)})

/-- Every table passes at the slot the traversal reaches it with. -/
def AllPass (inQ : ReqQueue) : ℤ → List ReqTbl → Prop
  | _, [] => True
  | idx, tbl::next =>
    Passes inQ idx tbl ∧ AllPass inQ (decIdx idx tbl.pdDelta tbl.numSlots) next

/-- The entries the tables write when all of them pass. -/
def fill (inQ : ReqQueue) : ℤ → List ReqTbl → (ℤ → Apply) → ℤ → Apply
  | _, [], a => a
  | idx, tbl::next, a =>
    let a := fill inQ (decIdx idx tbl.pdDelta tbl.numSlots) next a
    Function.update a tbl.pd (applyOf inQ idx tbl (a tbl.pd))

/-- The bits of the tables that passed. -/
def passed (tbls : List ReqTbl) (result : BitVec 32) : BitVec 32 :=
  tbls.foldr (fun tbl r => r ||| pdBit tbl.pd) result

variable {inQ : ReqQueue} {validateOnly : Bool}

theorem traverse_pass {tbls : List ReqTbl} (hne : tbls ≠ []) {idx : ℤ}
    (h : AllPass inQ idx tbls) (d : TraverseData) :
    traverse inQ validateOnly idx tbls d =
      (0,if validateOnly then tbls else tbls.map (·.spend),
        {d with
          result := passed tbls d.result
          applyData := if validateOnly then d.applyData else fill inQ idx tbls d.applyData}) := by
  induction tbls generalizing idx with
  | nil => exact absurd rfl hne
  | cons tbl next ih =>
    have hp := h.1
    cases next with
    | nil => cases validateOnly <;> simp [traverse,hp,passed,fill]
    | cons tbl' next =>
      have hrest := ih (List.cons_ne_nil _ _) h.2
      rw [traverse,if_pos hp]
      simp only [List.isEmpty_cons,Bool.false_eq_true,if_false,hrest]
      cases validateOnly <;> simp [passed,fill]

/-- A traversal that stops has recorded nothing. -/
theorem traverse_stop {tbls : List ReqTbl} {idx : ℤ} (h : ¬AllPass inQ idx tbls)
    (d : TraverseData) :
    (traverse inQ validateOnly idx tbls d).1 = -eagain ∧
      (traverse inQ validateOnly idx tbls d).2.1 = tbls ∧
      (traverse inQ validateOnly idx tbls d).2.2.applyData = d.applyData := by
  induction tbls generalizing idx with
  | nil => exact absurd trivial h
  | cons tbl next ih =>
    rw [traverse]
    by_cases hp : Passes inQ idx tbl
    · have hnext : ¬AllPass inQ (decIdx idx tbl.pdDelta tbl.numSlots) next :=
        fun hn => h ⟨hp,hn⟩
      have hne : next.isEmpty = false := by
        cases next with
        | nil => exact absurd trivial hnext
        | cons _ _ => rfl
      have hrest := ih hnext
      have hneg : ¬(-eagain ≥ 0) := by decide
      rw [if_pos hp,hne]
      simp only [Bool.false_eq_true,if_false,hrest.1,if_neg hneg]
      exact ⟨trivial,by rw [hrest.2.1],hrest.2.2⟩
    · simp [hp]

theorem traverse_ok_iff {tbls : List ReqTbl} (hne : tbls ≠ []) (idx : ℤ) (d : TraverseData) :
    (traverse inQ validateOnly idx tbls d).1 = 0 ↔ AllPass inQ idx tbls := by
  by_cases h : AllPass inQ idx tbls
  · simp [traverse_pass hne h,h]
  · have hh : (traverse inQ validateOnly idx tbls d).1 = -eagain := (traverse_stop h d).1
    simp [hh,h,eagain]

/-- A table on its last skip is asked for its request next time: it keeps its answer when it
passes without the skip and there is no request to give. -/
def KeepsAnswer (inQ : ReqQueue) (idx : ℤ) (tbl : ReqTbl) : Prop :=
  tbl.skipTraverse = 1 →
    ((tbl.slot idx).state = .ready ∨ (inQ.slot idx).skipIdx = 1) ∧ (inQ.slot idx).reqId = -1

instance (inQ : ReqQueue) (idx : ℤ) (tbl : ReqTbl) : Decidable (KeepsAnswer inQ idx tbl) :=
  inferInstanceAs (Decidable (_ → _))

/-- Every table keeps its answer at the slot the traversal reaches it with. -/
def KeepsAnswers (inQ : ReqQueue) : ℤ → List ReqTbl → Prop
  | _, [] => True
  | idx, tbl::next =>
    KeepsAnswer inQ idx tbl ∧ KeepsAnswers inQ (decIdx idx tbl.pdDelta tbl.numSlots) next

@[simp] theorem spend_pd (tbl : ReqTbl) : tbl.spend.pd = tbl.pd := rfl

theorem passed_spend (tbls : List ReqTbl) (result : BitVec 32) :
    passed (tbls.map (·.spend)) result = passed tbls result := by
  induction tbls with
  | nil => rfl
  | cons tbl next ih =>
    change passed (next.map (·.spend)) result ||| pdBit tbl.pd = passed next result ||| _
    rw [ih]

theorem applyOf_spend (inQ : ReqQueue) (idx : ℤ) (tbl : ReqTbl) (a b : Apply)
    (hab : a.skipIdx = b.skipIdx) :
    applyOf inQ idx tbl.spend a = applyOf inQ idx tbl b ↔
      (tbl.skipTraverse = 1 → (inQ.slot idx).reqId = -1) := by
  simp only [applyOf,ReqTbl.spend,Apply.mk.injEq,hab,true_and,and_true]
  by_cases h1 : tbl.skipTraverse = 1
  · simp [h1]
  · by_cases hpos : tbl.skipTraverse > 0
    · have hmore : tbl.skipTraverse-1 > 0 := by omega
      simp only [if_pos hpos,if_pos hmore,h1,false_implies]
    · simp [h1,hpos]

theorem passes_spend (idx : ℤ) (tbl : ReqTbl) (h : Passes inQ idx tbl) :
    Passes inQ idx tbl.spend ↔ (tbl.skipTraverse = 1 →
      (tbl.slot idx).state = .ready ∨ (inQ.slot idx).skipIdx = 1) := by
  simp only [Passes,ReqTbl.spend] at h ⊢
  by_cases hpos : tbl.skipTraverse > 0
  · simp only [if_pos hpos]
    have hh : tbl.skipTraverse-1 > 0 ↔ ¬tbl.skipTraverse = 1 := by omega
    rw [hh]
    tauto
  · have h1 : ¬tbl.skipTraverse = 1 := by omega
    simp only [if_neg hpos,h1,false_implies,iff_true]
    exact h

/-- The entries of other delays are left as they were. -/
theorem fill_of_notMem {tbls : List ReqTbl} {p : ℤ} (hp : p ∉ tbls.map (·.pd)) (idx : ℤ)
    (a : ℤ → Apply) : fill inQ idx tbls a p = a p := by
  induction tbls generalizing idx with
  | nil => rfl
  | cons tbl next ih =>
    simp only [List.map_cons,List.mem_cons,not_or] at hp
    rw [fill,Function.update_of_ne hp.1]
    exact ih hp.2 _

/-- Tables of different delays that have all passed pass again, with the same entries, exactly
when each of them keeps its answer. -/
theorem again_iff {tbls : List ReqTbl} (hpd : (tbls.map (·.pd)).Nodup) {idx : ℤ}
    (h : AllPass inQ idx tbls) (a : ℤ → Apply) :
    AllPass inQ idx (tbls.map (·.spend)) ∧
        fill inQ idx (tbls.map (·.spend)) a = fill inQ idx tbls a ↔
      KeepsAnswers inQ idx tbls := by
  induction tbls generalizing idx with
  | nil => simp [AllPass,fill,KeepsAnswers]
  | cons tbl next ih =>
    have hnd := List.nodup_cons.mp hpd
    have hspent : tbl.pd ∉ (next.map (·.spend)).map (·.pd) := by simpa using hnd.1
    let idx' := decIdx idx tbl.pdDelta tbl.numSlots
    have hleft : fill inQ idx' (next.map (·.spend)) a tbl.pd = a tbl.pd :=
      fill_of_notMem hspent idx' a
    have hright : fill inQ idx' next a tbl.pd = a tbl.pd := fill_of_notMem hnd.1 idx' a
    have hentry := applyOf_spend inQ idx tbl (a tbl.pd) (a tbl.pd) rfl
    have hfill : fill inQ idx ((tbl::next).map (·.spend)) a = fill inQ idx (tbl::next) a ↔
        (tbl.skipTraverse = 1 → (inQ.slot idx).reqId = -1) ∧
          fill inQ idx' (next.map (·.spend)) a = fill inQ idx' next a := by
      change Function.update (fill inQ idx' (next.map (·.spend)) a) tbl.pd
          (applyOf inQ idx tbl.spend (fill inQ idx' (next.map (·.spend)) a tbl.pd)) =
        Function.update (fill inQ idx' next a) tbl.pd
          (applyOf inQ idx tbl (fill inQ idx' next a tbl.pd)) ↔ _
      rw [hleft,hright,← hentry]
      constructor
      · intro he
        refine ⟨by simpa using congrFun he tbl.pd,?_⟩
        funext p
        by_cases hp : p = tbl.pd
        · rw [hp,hleft,hright]
        · simpa [hp] using congrFun he p
      · rintro ⟨he,hrest⟩
        rw [he,hrest]
    have hpass : AllPass inQ idx ((tbl::next).map (·.spend)) ↔
        Passes inQ idx tbl.spend ∧ AllPass inQ idx' (next.map (·.spend)) := Iff.rfl
    have hkeep : KeepsAnswers inQ idx (tbl::next) ↔
        KeepsAnswer inQ idx tbl ∧ KeepsAnswers inQ idx' next := Iff.rfl
    rw [hfill,hpass,hkeep,passes_spend idx tbl h.1,KeepsAnswer,← ih hnd.2 h.2]
    constructor
    · rintro ⟨⟨hready,hrest⟩,hreq,hsame⟩
      exact ⟨fun h1 => ⟨hready h1,hreq h1⟩,hrest,hsame⟩
    · rintro ⟨hanswer,hrest,hsame⟩
      exact ⟨⟨fun h1 => (hanswer h1).1,hrest⟩,fun h1 => (hanswer h1).2,hsame⟩

end CamReqMgr
end MarbleModules
