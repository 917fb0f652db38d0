import Mathlib.Data.List.Forall2
import MarbleModules.OlRxPnRuns

/-! The PN check over a sequence of calls: every buffer is returned or freed once, and the PNs
of the encrypted MPDUs let through increase. -/
namespace MarbleModules
namespace OlRxPn

open LinkedLists

variable {α : Type*}

/-- Settings under which the host checks PNs. -/
structure HostConfig extends Config where
  hostCheck : fwPnCheck = false
  notIbss : opmode ≠ .ibss

/-- A call with a nonempty list of buffers, under a TKIP or CCMP key. -/
structure Call (c : Config) (α : Type*) where
  fuel : ℕ
  desc : α → RxDesc
  next : α → Option α
  msduList : α
  strictChk : Bool
  msdus : List α
  spans : Spans next (some msduList) msdus none
  nodup : msdus.Nodup
  enough : msdus.length ≤ fuel
  keyed : Keyed c !(desc msduList).isWlanMcast

/-- The calls one after another, on one TID. -/
def checkRun [DecidableEq α] (c : Config) : TidPn → List (Call c α) → Option (List (Checked α))
  | _, [] => some []
  | tid, k::ks => do
    let o ← checkBase k.fuel k.desc c tid k.next k.msduList k.strictChk
    let os ← checkRun c o.tid ks
    pure (o::os)

/-- A call has dealt with its MPDUs by these verdicts: it returns those accepted as a list that
ends, frees the others, and every buffer is in one of the two. -/
structure Handled {c : Config} (k : Call c α) (o : Checked α) (vs : List (Verdict α)) :
    Prop where
  mpdus : vs.map (·.mpdu) = mpdus k.desc k.msdus
  reads : ∀ v ∈ vs,v.encrypted = (v.mpdu.head?.any fun a => (k.desc a).isEncrypted) ∧
    v.pn = (v.mpdu.head?.map fun a => pn48 (k.desc a).pn).getD 0 ∧ v.strictChk = k.strictChk
  returned : Spans o.next o.returned (kept vs) none
  freed : o.freed = dropped vs
  once : (kept vs++o.freed).Perm k.msdus

theorem map_mpdu_judgeAll (desc : α → RxDesc) (strictChk : Bool) (last : Option ℕ)
    (ms : List (List α)) : (judgeAll desc strictChk last ms).map (·.mpdu) = ms := by
  induction ms generalizing last with
  | nil => rfl
  | cons m ms ih =>
    rw [judgeAll,List.map_cons,ih]
    rfl

theorem reads_judgeAll (desc : α → RxDesc) (strictChk : Bool) (last : Option ℕ)
    (ms : List (List α)) : ∀ v ∈ judgeAll desc strictChk last ms,
      v.encrypted = (v.mpdu.head?.any fun a => (desc a).isEncrypted) ∧
      v.pn = (v.mpdu.head?.map fun a => pn48 (desc a).pn).getD 0 ∧ v.strictChk = strictChk := by
  induction ms generalizing last with
  | nil => simp [judgeAll]
  | cons m ms ih =>
    intro v hv
    rcases List.mem_cons.mp hv with rfl | hv
    · exact ⟨rfl,rfl,rfl⟩
    · exact ih _ v hv

/-- Each buffer of the verdicts' MPDUs is kept or dropped. -/
theorem kept_dropped_perm (vs : List (Verdict α)) :
    (kept vs++dropped vs).Perm (vs.map (·.mpdu)).flatten := by
  rw [kept,dropped,← List.flatMap_append,← List.flatMap_def]
  exact (List.filter_append_perm (fun v : Verdict α => v.accepted) vs).flatMap_right _

/-- What the verdicts of a run have to be: each follows from the last PN before it. -/
def Lawful : Option ℕ → List (Verdict α) → Prop
  | _, [] => True
  | last, v::vs =>
    v.accepted = (!v.encrypted || admits v.strictChk last v.pn) ∧ Lawful (v.lastAfter last) vs

theorem lawful_append {last : Option ℕ} {vs ws : List (Verdict α)} :
    Lawful last (vs++ws) ↔ Lawful last vs ∧ Lawful (lastAfterAll last vs) ws := by
  induction vs generalizing last with
  | nil => simp [Lawful,lastAfterAll]
  | cons v vs ih =>
    simp only [List.cons_append,Lawful,ih,lastAfterAll,List.foldl_cons,and_assoc]

theorem lawful_judgeAll (desc : α → RxDesc) (strictChk : Bool) (last : Option ℕ)
    (ms : List (List α)) : Lawful last (judgeAll desc strictChk last ms) := by
  induction ms generalizing last with
  | nil => trivial
  | cons m ms ih => exact ⟨rfl,ih _⟩

/-- The PNs of the encrypted MPDUs that were accepted. -/
def pns (vs : List (Verdict α)) : List ℕ :=
  (vs.filter fun v => v.encrypted && v.accepted).map (·.pn)

/-- The accepted PNs increase, by one where the check is strict, no MPDU in the clear is
rejected, and an encrypted one only for a PN that would break the order. -/
structure InOrder (last : Option ℕ) (vs : List (Verdict α)) : Prop where
  unencrypted : ∀ v ∈ vs,v.encrypted = false → v.accepted
  increasing : (last.toList++pns vs).Pairwise (· < ·)
  strict : ∀ pre v post,vs = pre++v::post → v.encrypted → v.accepted → v.strictChk →
    ∀ p ∈ lastAfterAll last pre,v.pn = p+1
  rejected : ∀ pre v post,vs = pre++v::post → v.accepted = false →
    v.encrypted ∧ ∃ p ∈ lastAfterAll last pre,
      ¬ if v.strictChk then v.pn = p+1 else p < v.pn

theorem Lawful.at {last : Option ℕ} {pre post : List (Verdict α)} {v : Verdict α}
    (h : Lawful last (pre++v::post)) :
    v.accepted = (!v.encrypted || admits v.strictChk (lastAfterAll last pre) v.pn) :=
  (lawful_append.mp h).2.1

theorem lt_of_admits {strictChk : Bool} {p pn : ℕ} (h : admits strictChk (some p) pn) :
    p < pn := by
  cases strictChk with
  | false => simpa [admits] using h
  | true =>
    have hh : pn = p+1 := by simpa [admits] using h
    omega

theorem Lawful.increasing {last : Option ℕ} {vs : List (Verdict α)} (h : Lawful last vs) :
    (last.toList++pns vs).Pairwise (· < ·) := by
  induction vs generalizing last with
  | nil => cases last <;> simp [pns]
  | cons v vs ih =>
    obtain ⟨hv,hvs⟩ := h
    have hrest := ih hvs
    by_cases hc : (v.encrypted && v.accepted) = true
    · have hpns : pns (v::vs) = v.pn::pns vs := by simp [pns,hc]
      rw [Verdict.lastAfter,if_pos hc] at hrest
      rw [hpns]
      cases last with
      | none => exact hrest
      | some p =>
        rw [Bool.and_eq_true] at hc
        rw [hc.1,hc.2,Bool.not_true,Bool.false_or] at hv
        have hlt := lt_of_admits hv.symm
        refine List.pairwise_cons.mpr ⟨fun q hq => ?_,hrest⟩
        rcases List.mem_cons.mp hq with rfl | hq
        · exact hlt
        · exact hlt.trans ((List.pairwise_cons.mp hrest).1 q hq)
    · have hpns : pns (v::vs) = pns vs := by simp [pns,hc]
      rw [Verdict.lastAfter,if_neg hc] at hrest
      rwa [hpns]

theorem Lawful.inOrder {last : Option ℕ} {vs : List (Verdict α)} (h : Lawful last vs) :
    InOrder last vs := by
  refine ⟨fun v hv he => ?_,h.increasing,fun pre v post heq he ha hs p hp => ?_,
    fun pre v post heq ha => ?_⟩
  · obtain ⟨pre,post,rfl⟩ := List.append_of_mem hv
    rw [h.at,he]
    rfl
  · rw [heq] at h
    have hh := h.at
    rw [ha,he,hs,Option.mem_def.mp hp,Bool.not_true,Bool.false_or] at hh
    simpa [admits] using hh.symm
  · rw [heq] at h
    have hh := h.at
    rw [ha,eq_comm,Bool.or_eq_false_iff] at hh
    refine ⟨by simpa using hh.1,?_⟩
    cases hlast : lastAfterAll last pre with
    | none => simp [hlast,admits] at hh
    | some p =>
      refine ⟨p,rfl,fun hok => ?_⟩
      have hno := hh.2
      rw [hlast] at hno
      cases hs : v.strictChk <;> simp [admits,hs] at hno hok <;> omega

variable [DecidableEq α]

/-- One call follows the verdicts on its MPDUs. -/
theorem checkBase_handled (c : HostConfig) (tid : TidPn) (k : Call c.toConfig α) :
    ∃ o,checkBase k.fuel k.desc c.toConfig tid k.next k.msduList k.strictChk = some o ∧
      Handled k o (judgeAll k.desc k.strictChk tid.last (mpdus k.desc k.msdus)) ∧
      o.tid.last = lastAfterAll tid.last
        (judgeAll k.desc k.strictChk tid.last (mpdus k.desc k.msdus)) := by
  obtain ⟨s,hrun,hout,hfreed,hlast⟩ := checkLoop_eq k.desc k.strictChk
    (s := ⟨tid,k.next,Ends.empty,[]⟩) k.keyed k.spans holds_empty k.nodup k.enough k.enough
  set vs := judgeAll k.desc k.strictChk tid.last (mpdus k.desc k.msdus) with hvs
  have hperm : (kept vs++dropped vs).Perm k.msdus := by
    have hh := kept_dropped_perm vs
    rwa [hvs,map_mpdu_judgeAll,flatten_mpdus,← hvs] at hh
  have hnd : (kept vs).Nodup := (List.nodup_append.mp (hperm.nodup_iff.mpr k.nodup)).1
  rw [List.nil_append] at hout hfreed
  have hlen : rxPnLen (c.security !(k.desc k.msduList).isWlanMcast) ≠ 0 := by
    rcases k.keyed with hk | hk <;> rw [hk] <;> decide
  refine ⟨⟨s.tid,setNext s.next s.outList.tail none,s.outList.head,s.freed⟩,?_,
    ⟨map_mpdu_judgeAll _ _ _ _,reads_judgeAll _ _ _ _,hout.terminate hnd,hfreed,?_⟩,hlast⟩
  · have hskip : ¬ (c.fwPnCheck = true ∨ c.opmode = .ibss) := by
      simp [c.hostCheck,c.notIbss]
    rw [checkBase,if_neg hskip]
    simp only [hlen,if_false,hrun]
    rfl
  · rw [hfreed]
    exact hperm

end OlRxPn
end MarbleModules
