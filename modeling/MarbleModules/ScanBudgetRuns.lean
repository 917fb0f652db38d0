import MarbleModules.ScanBudget

/-! Whether the scans of a psoc use its limit: the removals and cancels after which they do, and
no others. -/
namespace MarbleModules
namespace Serialization

open Runs Stacks

/-- The pdevs of a psoc, the sizes of their scan queues, and the number of scans that may be
active on all of them -/
structure Psoc where
  pdevs : Finset ℕ
  cfg : ℕ → Cfg
  maxActiveScans : ℕ
  scan : ∀ p, (cfg p).kind = .scan
  limit : ∀ p, (cfg p).maxActiveScans = maxActiveScans

/-- A call from outside the module -/
inductive Call
  | request (c : Command)
  | removeCmd (k : Key)
  | timeout (k : Key)
  | cancelRequest (t : CancelType) (toActive toPending : Bool)

def Call.op (others : ℕ) : Call → Op
  | .request c => .request c others
  | .removeCmd k => .removeCmd k
  | .timeout k => .timeout k
  | .cancelRequest t toActive toPending => .cancelRequest t toActive toPending

/-- A call for scans of the pdev, with the outcomes of the activations in it and the number of
steps it takes -/
structure ScanOp where
  pdev : ℕ
  call : Call
  oks : List Bool
  steps : ℕ

namespace Psoc

variable (P : Psoc)

/-- The sum that `wlan_serialization_active_scan_cmd_count_handler` collects -/
def activeScans (s : ℕ → Store) : ℕ := ∑ p ∈ P.pdevs, (s p).q.active.length

/-- The scans that are active on the other pdevs -/
def others (s : ℕ → Store) (p : ℕ) : ℕ := ∑ p' ∈ P.pdevs.erase p, (s p').q.active.length

/-- The pdev's queue and what is left of the call after its steps -/
def settled (s : ℕ → Store) (op : ScanOp) : State :=
  settle (P.cfg op.pdev) (P.others s op.pdev) op.steps
    (Serialization.step (P.cfg op.pdev) ⟨s op.pdev,[]⟩ (op.call.op (P.others s op.pdev))) op.oks

def step (s : ℕ → Store) (op : ScanOp) : ℕ → Store :=
  Function.update s op.pdev (P.settled s op).store

def initial : ℕ → Store := fun p => ⟨initialQueue (P.cfg p),0,[],[],[],false⟩

/-- Calls are for pdevs of the psoc, and each has ended before the next begins. -/
def Legal (s : ℕ → Store) (op : ScanOp) : Prop :=
  op.pdev ∈ P.pdevs ∧
    Serialization.Legal (P.cfg op.pdev) ⟨s op.pdev,[]⟩ (op.call.op (P.others s op.pdev)) ∧
    frames (P.settled s op) = []

/-- The limit is kept, and no scan is pending while it is not reached. -/
def UsesBudget (s : ℕ → Store) : Prop :=
  P.activeScans s ≤ P.maxActiveScans ∧
    (P.activeScans s < P.maxActiveScans → ∀ p ∈ P.pdevs, (s p).q.pending = [])

/-- No other pdev has a pending scan. -/
def Alone (s : ℕ → Store) (p : ℕ) : Prop := ∀ p' ∈ P.pdevs, p' ≠ p → (s p').q.pending = []

/-- Removing an active scan at the limit leaves nothing pending, or a pending scan of the same
pdev takes its place. -/
def Replaced (s : ℕ → Store) (p : ℕ) (oks : List Bool) (k : Key) : Prop :=
  (findCmd (s p).q (s p).q.active k).isSome = true → P.activeScans s = P.maxActiveScans →
    P.Alone s p ∨ failures oks < (s p).q.pending.length

/-- The removals and cancels of active scans at the limit after which no scan is left pending
or one has taken the place -/
def KeepsBudget (s : ℕ → Store) (op : ScanOp) : Prop :=
  match op.call with
  | .request _ => True
  | .removeCmd k => P.Replaced s op.pdev op.oks k
  | .timeout k => P.Replaced s op.pdev op.oks k
  | .cancelRequest t toActive toPending =>
    toActive = true →
    (∃ n ∈ (s op.pdev).q.active, (t.filter .scan).selects (s op.pdev).q n = true) →
    P.activeScans s = P.maxActiveScans →
      P.Alone s op.pdev ∧ ∀ n ∈ (s op.pdev).q.pending,
        toPending = true ∧ (t.filter .scan).selects (s op.pdev).q n = true

variable {P} {s : ℕ → Store} {p : ℕ}

theorem activeScans_update (hp : p ∈ P.pdevs) (x : Store) :
    P.activeScans (Function.update s p x) = P.others s p+x.q.active.length := by
  rw [activeScans,others,← Finset.sum_erase_add _ _ hp,Function.update_self]
  congr 1
  refine Finset.sum_congr rfl fun p' hp' => ?_
  rw [Function.update_of_ne (Finset.ne_of_mem_erase hp')]

theorem activeScans_eq (hp : p ∈ P.pdevs) :
    P.activeScans s = P.others s p+(s p).q.active.length := by
  have hh := activeScans_update (s := s) hp (s p)
  rwa [Function.update_eq_self] at hh

/-- What a call has to leave for the budget to be used -/
theorem usesBudget_update (hp : p ∈ P.pdevs) (x : Store) :
    P.UsesBudget (Function.update s p x) ↔
      P.others s p+x.q.active.length ≤ P.maxActiveScans ∧
      (P.others s p+x.q.active.length < P.maxActiveScans →
        P.Alone s p ∧ x.q.pending = []) := by
  rw [UsesBudget,activeScans_update hp]
  refine and_congr_right fun _ => imp_congr_right fun _ => ?_
  constructor
  · refine fun h => ⟨fun p' hp' hne => ?_,?_⟩
    · have hh := h p' hp'
      rwa [Function.update_of_ne hne] at hh
    · have hh := h p hp
      rwa [Function.update_self] at hh
  · rintro ⟨halone,hx⟩ p' hp'
    by_cases hne : p' = p
    · rw [hne,Function.update_self]
      exact hx
    · rw [Function.update_of_ne hne]
      exact halone p' hp' hne

theorem usesBudget_iff (hp : p ∈ P.pdevs) :
    P.UsesBudget s ↔ P.others s p+(s p).q.active.length ≤ P.maxActiveScans ∧
      (P.others s p+(s p).q.active.length < P.maxActiveScans →
        P.Alone s p ∧ (s p).q.pending = []) := by
  have hh := usesBudget_update (s := s) hp (s p)
  rwa [Function.update_eq_self] at hh

/-- The queues when no call is in progress and the budget is used -/
structure Inv (P : Psoc) (s : ℕ → Store) : Prop where
  still : ∀ p, Still (P.cfg p) (s p).q
  uses : P.UsesBudget s

/-- What a call leaves on its pdev, and when the budget is used after it -/
def Leaves (P : Psoc) (s : ℕ → Store) (p : ℕ) (x : Store) (C : Prop) : Prop :=
  Still (P.cfg p) x.q ∧ (P.UsesBudget (Function.update s p x) ↔ C)

section Calls

variable {x : Store} {oks : List Bool} (hp : p ∈ P.pdevs) (h : P.Inv s)
include hp h

theorem bound : P.others s p+(s p).q.active.length ≤ (P.cfg p).maxActiveScans := by
  rw [P.limit]
  exact ((usesBudget_iff hp).mp h.uses).1

theorem leaves_request {c : Command} (hv : c.vdev ∈ (P.cfg p).vdevs)
    (hs : Settles (P.cfg p) (P.others s p) (Serialization.request (P.cfg p) (s p) c (P.others s p)).1
      (Serialization.request (P.cfg p) (s p) c (P.others s p)).2 oks x) :
    Leaves P s p x True := by
  have hadm := hs.request (P.scan p) (h.still p) hv (bound hp h)
  have hbound := hadm.bound
  have hpending := hadm.pending
  rw [P.limit] at hbound hpending
  refine ⟨hadm.still,iff_of_true ((usesBudget_update hp x).mpr ⟨hbound,fun hlt => ?_⟩) trivial⟩
  have hle := hadm.active_le
  obtain ⟨halone,hnil⟩ := ((usesBudget_iff hp).mp h.uses).2 (by omega)
  exact ⟨halone,hpending hlt hnil⟩

/-- The removal of a scan that is not found -/
theorem leaves_same {k : Key} (hx : x.q = (s p).q)
    (hf : findCmd (s p).q (s p).q.active k = none) : Leaves P s p x (P.Replaced s p oks k) := by
  refine ⟨hx ▸ h.still p,iff_of_true ?_ fun hh => by rw [hf] at hh; cases hh⟩
  rw [usesBudget_update hp,hx]
  exact (usesBudget_iff hp).mp h.uses

theorem leaves_refilled {k : Key} {n : ℕ} (hf : findCmd (s p).q (s p).q.active k = some n)
    (hx : Refilled (P.cfg p) oks (s p).q x.q) : Leaves P s p x (P.Replaced s p oks k) := by
  obtain ⟨hle,huses⟩ := (usesBudget_iff hp).mp h.uses
  have hactive := activeScans_eq (s := s) hp
  refine ⟨hx.still,?_⟩
  rw [usesBudget_update hp,Replaced,hf,hactive]
  by_cases hlt : failures oks < (s p).q.pending.length
  · refine iff_of_true ⟨?_,fun hh => ?_⟩ fun _ _ => Or.inr hlt
    · rw [hx.filled hlt]
      exact hle
    · rw [hx.filled hlt] at hh
      rw [(huses hh).2] at hlt
      cases hlt
  · obtain ⟨hlen,hnil⟩ := hx.drained (Nat.le_of_not_lt hlt)
    constructor
    · exact fun hh _ _ => Or.inl (hh.2 (by omega)).1
    · refine fun hh => ⟨by omega,fun _ => ⟨?_,hnil⟩⟩
      by_cases heq : P.others s p+(s p).q.active.length = P.maxActiveScans
      · exact (hh rfl heq).resolve_right hlt
      · exact (huses (by omega)).1

theorem leaves_dequeue {k : Key} (hs : Settles (P.cfg p) (P.others s p) (s p)
    [.dequeue (.value k)] oks x) : Leaves P s p x (P.Replaced s p oks k) := by
  cases hf : findCmd (s p).q (s p).q.active k with
  | some n =>
    exact leaves_refilled hp h hf (hs.dequeue (P.scan p) (h.still p) (bound hp h) rfl hf
      fun f hf => by cases hf)
  | none =>
    refine leaves_same hp h ?_ hf
    have hfind : findCmd (s p).q ((s p).q.pdevList true) k = none := hf
    cases hs with
    | cons hs =>
      simp only [runFrame,CmdRef.key,dequeueCmd,(h.still p).wf.removeCmd_none hfind] at hs
      cases hs
      rfl

theorem leaves_timeout {k : Key} (hs : Settles (P.cfg p) (P.others s p) (s p)
    [.timeout k] oks x) : Leaves P s p x (P.Replaced s p oks k) := by
  cases hs with
  | cons hs =>
    simp only [runFrame,(h.still p).wf.isCmdPresentQueue_eq,pdevList_true,Frame.outcomes] at hs
    cases hf : findCmd (s p).q (s p).q.active k with
    | some n =>
      simp only [hf,Option.isSome_some,if_true] at hs
      exact leaves_dequeue hp h hs
    | none =>
      simp only [hf,Option.isSome_none,Bool.false_eq_true,if_false] at hs
      cases hs
      exact leaves_same hp h rfl hf

/-- After a cancel the budget is used when nothing active has gone, or nothing is pending any
more. -/
theorem leaves_cancelled {f : Filter} {toActive toPending : Bool} (hstill : Still (P.cfg p) x.q)
    (ha : x.q.active = if toActive then (s p).q.active.filter fun n => !f.selects (s p).q n
      else (s p).q.active)
    (hpend : x.q.pending = if toPending then (s p).q.pending.filter fun n => !f.selects (s p).q n
      else (s p).q.pending) :
    Leaves P s p x (toActive = true → (∃ n ∈ (s p).q.active, f.selects (s p).q n = true) →
      P.activeScans s = P.maxActiveScans → P.Alone s p ∧ ∀ n ∈ (s p).q.pending,
        toPending = true ∧ f.selects (s p).q n = true) := by
  obtain ⟨hle,huses⟩ := (usesBudget_iff hp).mp h.uses
  have hactive := activeScans_eq (s := s) hp
  have hnil : x.q.pending = [] ↔
      ∀ n ∈ (s p).q.pending, toPending = true ∧ f.selects (s p).q n = true := by
    rw [hpend]
    cases toPending with
    | true => simp [List.filter_eq_nil_iff]
    | false =>
      simp only [Bool.false_eq_true,if_false,false_and,imp_false]
      exact List.eq_nil_iff_forall_not_mem
  refine ⟨hstill,?_⟩
  rw [usesBudget_update hp,hactive,← hnil]
  by_cases hgone : toActive = true ∧ ∃ n ∈ (s p).q.active, f.selects (s p).q n = true
  · have hlt : x.q.active.length < (s p).q.active.length := by
      rw [ha,if_pos hgone.1,List.length_filter_lt_length_iff_exists]
      obtain ⟨n,hn,hsel⟩ := hgone.2
      exact ⟨n,hn,by simp [hsel]⟩
    constructor
    · exact fun hh _ _ _ => hh.2 (by omega)
    · refine fun hh => ⟨by omega,fun _ => ?_⟩
      by_cases heq : P.others s p+(s p).q.active.length = P.maxActiveScans
      · exact hh hgone.1 hgone.2 heq
      · obtain ⟨halone,hpending⟩ := huses (by omega)
        refine ⟨halone,hnil.mpr fun n hn => ?_⟩
        rw [hpending] at hn
        cases hn
  · have hsame : x.q.active = (s p).q.active := by
      rw [ha]
      cases toActive with
      | false => rfl
      | true =>
        refine List.filter_eq_self.mpr fun n hn => ?_
        by_contra hsel
        exact hgone ⟨rfl,n,hn,by simpa using hsel⟩
    rw [hsame]
    refine iff_of_true ⟨hle,fun hlt => ⟨(huses hlt).1,hnil.mpr fun n hn => ?_⟩⟩
      fun h₁ h₂ => absurd ⟨h₁,h₂⟩ hgone
    rw [(huses hlt).2] at hn
    cases hn

theorem leaves_cancel {t : CancelType} {toActive toPending : Bool}
    (hs : Settles (P.cfg p) (P.others s p) (s p)
      (callFrames (P.cfg p) (.cancelRequest t toActive toPending)) oks x) :
    Leaves P s p x (toActive = true →
      (∃ n ∈ (s p).q.active, (t.filter .scan).selects (s p).q n = true) →
      P.activeScans s = P.maxActiveScans → P.Alone s p ∧ ∀ n ∈ (s p).q.pending,
        toPending = true ∧ (t.filter .scan).selects (s p).q n = true) := by
  have hk := P.scan p
  have hf := t.filter_byValue .scan
  rw [callFrames,hk] at hs
  cases toActive with
  | false =>
    cases toPending with
    | false =>
      cases hs
      exact leaves_cancelled hp h (h.still p) rfl rfl
    | true =>
      obtain ⟨s₁,hc,hs⟩ := Settles.cancel hk hf (h.still p) hs
      cases hs
      exact leaves_cancelled hp h hc.still hc.other hc.list
  | true =>
    obtain ⟨s₁,hc,hs⟩ := Settles.cancel hk hf (h.still p) hs
    cases toPending with
    | false =>
      cases hs
      exact leaves_cancelled hp h hc.still hc.list hc.other
    | true =>
      obtain ⟨s₂,hc',hs⟩ := Settles.cancel hk hf hc.still hs
      cases hs
      refine leaves_cancelled hp h hc'.still (hc'.other.trans hc.list) ?_
      have hpending : s₁.q.pending = (s p).q.pending := hc.other
      refine hc'.list.trans ?_
      rw [if_pos rfl,pdevList_false,hpending]
      refine List.filter_congr fun n hn => ?_
      rw [hf.selects_eq (hc.cmd n (Or.inr (hpending ▸ hn)))]

end Calls

/-- Exactly the calls that keep the budget leave it used. -/
theorem leaves_step {op : ScanOp} (h : P.Inv s) (hl : P.Legal s op) :
    Leaves P s op.pdev (P.settled s op).store (P.KeepsBudget s op) := by
  obtain ⟨p,call,oks,steps⟩ := op
  obtain ⟨hp,hlegal,hend⟩ := hl
  cases call with
  | request c =>
    have hs : Settles (P.cfg p) (P.others s p) (Serialization.request (P.cfg p) (s p) c
      (P.others s p)).1 (Serialization.request (P.cfg p) (s p) c (P.others s p)).2 oks
      (P.settled s ⟨p,.request c,oks,steps⟩).store := settles_of_settle hend
    exact leaves_request hp h hlegal.1 hs
  | removeCmd k =>
    have hs : Settles (P.cfg p) (P.others s p) (s p) [.dequeue (.value k)] oks
      (P.settled s ⟨p,.removeCmd k,oks,steps⟩).store := settles_of_settle hend
    exact leaves_dequeue hp h hs
  | timeout k =>
    have hs : Settles (P.cfg p) (P.others s p) (s p) [.timeout k] oks
      (P.settled s ⟨p,.timeout k,oks,steps⟩).store := settles_of_settle hend
    exact leaves_timeout hp h hs
  | cancelRequest t toActive toPending =>
    have hs : Settles (P.cfg p) (P.others s p) (s p)
      (callFrames (P.cfg p) (.cancelRequest t toActive toPending)) oks
      (P.settled s ⟨p,.cancelRequest t toActive toPending,oks,steps⟩).store :=
      settles_of_settle hend
    exact leaves_cancel hp h hs

theorem initial_inv (P : Psoc) : P.Inv P.initial := by
  refine ⟨fun p => initial_still (P.cfg p),?_,fun _ p _ => rfl⟩
  simp [activeScans,initial,initialQueue]

/-- The limit is kept and used in every state of a run exactly when each removal and each cancel
of an active scan at the limit leaves no scan pending or another one in its place. -/
theorem usesBudget_always_iff (P : Psoc) (ops : List ScanOp)
    (hlegal : Guarded P.step P.Legal P.initial ops) :
    Always P.step P.UsesBudget P.initial ops ↔ Guarded P.step P.KeepsBudget P.initial ops := by
  refine always_iff_guarded (I := P.Inv) (fun s h => h.uses) (fun s op h hl hc => ⟨fun p => ?_,?_⟩)
    (fun s op h hl hc hu => ?_) (initial_inv P) ops hlegal
  · rw [step]
    by_cases hne : p = op.pdev
    · rw [hne,Function.update_self]
      exact (leaves_step h hl).1
    · rw [Function.update_of_ne hne]
      exact h.still p
  · exact (leaves_step h hl).2.mpr hc
  · exact hc ((leaves_step h hl).2.mp hu)

instance decidableLegal (P : Psoc) (s : ℕ → Store) (op : ScanOp) : Decidable (P.Legal s op) :=
  inferInstanceAs (Decidable (op.pdev ∈ P.pdevs ∧
    Serialization.Legal (P.cfg op.pdev) ⟨s op.pdev,[]⟩ (op.call.op (P.others s op.pdev)) ∧
    frames (P.settled s op) = []))

instance decidableUsesBudget (P : Psoc) (s : ℕ → Store) : Decidable (P.UsesBudget s) :=
  inferInstanceAs (Decidable (P.activeScans s ≤ P.maxActiveScans ∧
    (P.activeScans s < P.maxActiveScans → ∀ p ∈ P.pdevs, (s p).q.pending = [])))

instance decidableAlone (P : Psoc) (s : ℕ → Store) (p : ℕ) : Decidable (P.Alone s p) :=
  inferInstanceAs (Decidable (∀ p' ∈ P.pdevs, p' ≠ p → (s p').q.pending = []))

instance decidableReplaced (P : Psoc) (s : ℕ → Store) (p : ℕ) (oks : List Bool) (k : Key) :
    Decidable (P.Replaced s p oks k) :=
  inferInstanceAs (Decidable ((findCmd (s p).q (s p).q.active k).isSome = true →
    P.activeScans s = P.maxActiveScans →
    P.Alone s p ∨ failures oks < (s p).q.pending.length))

instance decidableKeepsBudget (P : Psoc) (s : ℕ → Store) :
    ∀ op, Decidable (P.KeepsBudget s op)
  | ⟨_,.request _,_,_⟩ => isTrue trivial
  | ⟨p,.removeCmd k,oks,_⟩ => decidableReplaced P s p oks k
  | ⟨p,.timeout k,oks,_⟩ => decidableReplaced P s p oks k
  | ⟨p,.cancelRequest t toActive toPending,_,_⟩ => inferInstanceAs (Decidable (toActive = true →
    (∃ n ∈ (s p).q.active, (t.filter .scan).selects (s p).q n = true) →
    P.activeScans s = P.maxActiveScans →
      P.Alone s p ∧ ∀ n ∈ (s p).q.pending,
        toPending = true ∧ (t.filter .scan).selects (s p).q n = true))

/-- Two pdevs that share the limit -/
def twoPdevs : Psoc := ⟨{0,1},fun _ => scanCfg,8,fun _ => rfl,fun _ => rfl⟩

/-- Nine scans are requested on one pdev: eight become active, the last one waits. -/
def nineRequests : List ScanOp :=
  (List.range 9).map fun id => ⟨0,.request ⟨0,id,0,false,false,false,0⟩,[],2⟩

/-- An active scan is removed and the activation of the waiting one fails. -/
theorem usesBudget_drained : Always twoPdevs.step twoPdevs.UsesBudget twoPdevs.initial
    (nineRequests ++ [⟨0,.removeCmd ⟨0,3,0⟩,[false],9⟩]) :=
  (usesBudget_always_iff twoPdevs _ (by decide +kernel)).mpr (by decide +kernel)

/-- An active scan is cancelled and the waiting one stays pending. -/
theorem usesBudget_cancelled :
    Guarded twoPdevs.step twoPdevs.Legal twoPdevs.initial
      (nineRequests ++ [⟨0,.cancelRequest (.cmd ⟨0,3,0⟩) true false,[],2⟩]) ∧
    ¬ Always twoPdevs.step twoPdevs.UsesBudget twoPdevs.initial
      (nineRequests ++ [⟨0,.cancelRequest (.cmd ⟨0,3,0⟩) true false,[],2⟩]) := by
  refine ⟨by decide +kernel,fun hh => ?_⟩
  have hlast := hh.last
  revert hlast
  decide +kernel

end Psoc

end Serialization
end MarbleModules
