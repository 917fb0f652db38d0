import MarbleModules.OlRxPn

/-! What a call of the PN check makes of the MPDUs of its list, and what a sequence of calls
lets through: PNs that increase. -/
namespace MarbleModules
namespace OlRxPn

open LinkedLists

variable {α : Type*}

/-- The MPDUs of a list of MSDUs; each ends with a buffer that completes it, the last one
possibly without. -/
def mpdus (desc : α → RxDesc) : List α → List (List α)
  | [] => []
  | a::l =>
    if (desc a).completesMpdu then [a]::mpdus desc l
    else match mpdus desc l with
      | [] => [[a]]
      | m::ms => (a::m)::ms

/-- A nonempty list is its first MPDU and the rest. -/
theorem exists_mpdu (desc : α → RxDesc) {l : List α} (hl : l ≠ []) :
    ∃ m l',l = m++l' ∧ m ≠ [] ∧ mpdus desc l = m::mpdus desc l' := by
  induction l with
  | nil => exact absurd rfl hl
  | cons a l ih =>
    by_cases hc : (desc a).completesMpdu
    · exact ⟨[a],l,rfl,List.cons_ne_nil a [],by rw [mpdus,if_pos hc]⟩
    · rcases eq_or_ne l [] with rfl | hne
      · exact ⟨[a],[],rfl,List.cons_ne_nil a [],by simp [mpdus]⟩
      · obtain ⟨m,l',rfl,-,hm⟩ := ih hne
        exact ⟨a::m,l',rfl,List.cons_ne_nil a m,by rw [mpdus,if_neg hc,hm]⟩

theorem flatten_mpdus (desc : α → RxDesc) (l : List α) : (mpdus desc l).flatten = l := by
  induction hn : l.length using Nat.strong_induction_on generalizing l with
  | _ n ih =>
    rcases eq_or_ne l [] with rfl | hl
    · rfl
    · obtain ⟨m,l',rfl,hm,heq⟩ := exists_mpdu desc hl
      have hpos := List.length_pos_of_ne_nil hm
      rw [List.length_append] at hn
      rw [heq,List.flatten_cons,ih l'.length (by omega) l' rfl]

/-- The walk of `ol_rx_mpdu_list_next` meets the first MPDU. -/
theorem mpduListNext_eq {desc : α → RxDesc} {next : α → Option α} {a : α} {l m : List α}
    {ms : List (List α)} {fuel : ℕ} (h : Spans next (some a) l none)
    (hm : mpdus desc l = m::ms) (hf : l.length ≤ fuel) :
    mpduListNext fuel desc next a = some m := by
  rw [mpduListNext]
  induction l generalizing a m ms fuel with
  | nil => simp [mpdus] at hm
  | cons b l ih =>
    obtain ⟨hab,hs⟩ := h
    obtain rfl := Option.some.inj hab
    cases fuel with
    | zero => simp at hf
    | succ fuel =>
      rw [walkTo]
      rw [mpdus] at hm
      by_cases hc : (desc a).completesMpdu
      · rw [if_pos hc] at hm
        rw [if_pos (by simp [hc])]
        rw [(List.cons.inj hm).1]
      · rw [if_neg hc] at hm
        cases l with
        | nil =>
          have hnone : next a = none := hs
          simp only [mpdus] at hm
          rw [if_pos (by simp [hnone]),(List.cons.inj hm).1]
        | cons b l =>
          have hb := hs.1
          obtain ⟨m',l',-,-,hm'⟩ := exists_mpdu desc (List.cons_ne_nil b l)
          rw [hm'] at hm
          rw [if_neg (by simp [hc,hb]),hb,
            ih (hb ▸ hs) hm' (by simpa using hf),Option.map_some,← (List.cons.inj hm).1]

/-- The 48 bits of a PN that count. -/
def pn48 (pn : Pn) : ℕ := pn.pn128₀.toNat%2^48

theorem toNat_pn48 (w : UInt64) : (w &&& 0xffffffffffff).toNat = w.toNat%2^48 := by
  rw [UInt64.toNat_and]
  exact Nat.and_two_pow_sub_one_eq_mod w.toNat 48

/-- Whether a PN may follow the last one. -/
def admits (strictChk : Bool) (last : Option ℕ) (pn : ℕ) : Bool :=
  match last with
  | none => true
  | some p => if strictChk then decide (pn = p+1) else decide (p < pn)

theorem cmp48_eq (newPn oldPn : Pn) (strictChk : Bool) :
    cmp48 newPn oldPn strictChk = !admits strictChk (some (pn48 oldPn)) (pn48 newPn) := by
  have hn : (newPn.pn128₀ &&& 0xffffffffffff).toNat = pn48 newPn := toNat_pn48 _
  have ho : (oldPn.pn128₀ &&& 0xffffffffffff).toNat = pn48 oldPn := toNat_pn48 _
  have hlt : pn48 newPn < 2^48 := Nat.mod_lt _ (by decide)
  have hlt' : pn48 oldPn < 2^48 := Nat.mod_lt _ (by decide)
  rw [Bool.eq_iff_iff]
  cases strictChk with
  | true =>
    simp only [cmp48,admits,if_true,decide_eq_true_eq,Bool.not_eq_true',decide_eq_false_iff_not,
      ne_eq,← UInt64.toNat_inj,UInt64.toNat_sub,hn,ho,UInt64.toNat_one]
    omega
  | false =>
    simp only [cmp48,admits,Bool.false_eq_true,if_false,decide_eq_true_eq,Bool.not_eq_true',
      decide_eq_false_iff_not,UInt64.le_iff_toNat_le,hn,ho]
    omega

/-- The last PN that counts, if there is one. -/
def TidPn.last (tid : TidPn) : Option ℕ :=
  if tid.lastPnValid then some (pn48 tid.lastPn) else none

/-- Under a key of 48-bit PNs. -/
def Keyed (c : Config) (ucast : Bool) : Prop :=
  c.security ucast = .tkip ∨ c.security ucast = .aesCcmp

theorem isReplay_eq {c : Config} {ucast : Bool} (hk : Keyed c ucast) (strictChk : Bool)
    (tid : TidPn) (pn : Pn) :
    isReplay c ucast strictChk tid pn = !admits strictChk tid.last (pn48 pn) := by
  have hcmp : ∀ old,rxPnCmp (c.security ucast) pn old ucast c.opmode strictChk =
      cmp48 pn old strictChk := fun old => by
    rcases hk with hk | hk <;> rw [hk] <;> rfl
  rw [isReplay,hcmp,TidPn.last]
  cases tid.lastPnValid with
  | false => rfl
  | true => exact cmp48_eq pn tid.lastPn strictChk

theorem remember_eq {c : Config} {ucast : Bool} (hk : Keyed c ucast) (tid : TidPn) (pn : Pn) :
    remember c ucast tid pn = { tid with lastPn := pn } := by
  have hw : c.security ucast ≠ .wapi := by
    rcases hk with hk | hk <;> simp [hk]
  simp [remember,hw]

/-- How the check deals with an MPDU. -/
structure Verdict (α : Type*) where
  mpdu : List α
  encrypted : Bool
  pn : ℕ
  strictChk : Bool
  accepted : Bool

/-- The verdict on an MPDU when `last` is the last PN. Its first buffer tells about all of
it. -/
def judge (desc : α → RxDesc) (strictChk : Bool) (last : Option ℕ) (m : List α) : Verdict α :=
  let encrypted := m.head?.any fun a => (desc a).isEncrypted
  let pn := (m.head?.map fun a => pn48 (desc a).pn).getD 0
  ⟨m,encrypted,pn,strictChk,!encrypted || admits strictChk last pn⟩

def Verdict.lastAfter (v : Verdict α) (last : Option ℕ) : Option ℕ :=
  if v.encrypted && v.accepted then some v.pn else last

/-- The verdicts on a list of MPDUs. -/
def judgeAll (desc : α → RxDesc) (strictChk : Bool) : Option ℕ → List (List α) →
    List (Verdict α)
  | _, [] => []
  | last, m::ms =>
    let v := judge desc strictChk last m
    v::judgeAll desc strictChk (v.lastAfter last) ms

def lastAfterAll (last : Option ℕ) (vs : List (Verdict α)) : Option ℕ :=
  vs.foldl (fun last v => v.lastAfter last) last

/-- The buffers of the accepted MPDUs. -/
def kept (vs : List (Verdict α)) : List α := (vs.filter fun v => v.accepted).flatMap (·.mpdu)

/-- The buffers of the rejected MPDUs. -/
def dropped (vs : List (Verdict α)) : List α :=
  (vs.filter fun v => !v.accepted).flatMap (·.mpdu)

theorem kept_cons (v : Verdict α) (vs : List (Verdict α)) :
    kept (v::vs) = (if v.accepted then v.mpdu else [])++kept vs := by
  rw [kept,List.filter_cons]
  split <;> rfl

theorem dropped_cons (v : Verdict α) (vs : List (Verdict α)) :
    dropped (v::vs) = (if v.accepted then [] else v.mpdu)++dropped vs := by
  rw [dropped,List.filter_cons]
  cases v.accepted <;> rfl

variable [DecidableEq α] {desc : α → RxDesc} {c : Config} {ucast strictChk : Bool}
  {s : Checking α} {l m l' acc : List α} {a : α} {fuel : ℕ}

/-- An MPDU goes to the end of the list to return, and what comes after it stays. -/
theorem append_mpdu {next : α → Option α} {out e : Ends α} {mid : Option α}
    (hmpdu : Holds next e m) (hs2 : Spans next mid l' none) (hne : m ≠ [])
    (hout : Holds next out acc) (hnd : (acc++(m++l')).Nodup) :
    Holds (append next out e).1 (append next out e).2 (acc++m) ∧
      Spans (append next out e).1 mid l' none := by
  rw [← List.append_assoc] at hnd
  refine ⟨hout.append hmpdu hne (List.nodup_append.mp hnd).1,hs2.congr fun b hb => ?_⟩
  refine append_of_notMem hout fun hmem => ?_
  exact (List.nodup_append.mp hnd).2.2 b (List.mem_append_left m hmem) b hb rfl

/-- One turn of the loop, once the first MPDU is known. -/
theorem checkMpdu_of_walk {t : α} (hwalk : mpduListNext fuel desc s.next a = some m)
    (ht : m.getLast? = some t) :
    checkMpdu fuel desc c ucast strictChk a s =
      let added := append s.next s.outList ⟨some a,some t⟩
      if (desc a).isEncrypted then
        if isReplay c ucast strictChk s.tid (desc a).pn then
          (walkTo s.next (fun msdu => some msdu = some t) fuel (some a)).map fun msdus =>
            (s.next t,{ s with
              tid := { s.tid with lastPnValid := true }
              freed := s.freed++msdus })
        else some (s.next t,{ s with
          tid := remember c ucast { s.tid with lastPnValid := true } (desc a).pn
          next := added.1
          outList := added.2 })
      else some (s.next t,{ s with next := added.1,outList := added.2 }) := by
  simp only [checkMpdu,hwalk,Option.bind_eq_bind,Option.bind_some,ht]
  split
  · split
    · cases walkTo s.next (fun msdu => some msdu = some t) fuel (some a) <;> rfl
    · rfl
  · rfl

/-- One turn of the loop follows the verdict on its MPDU. -/
theorem checkMpdu_eq (strictChk : Bool) (hk : Keyed c ucast) (hs : Spans s.next (some a) (m++l') none)
    (hm : mpdus desc (m++l') = m::mpdus desc l') (hne : m ≠ [])
    (hout : Holds s.next s.outList acc) (hnd : (acc++(m++l')).Nodup)
    (hf : (m++l').length ≤ fuel) :
    let v := judge desc strictChk s.tid.last m
    ∃ nextMpdu s',checkMpdu fuel desc c ucast strictChk a s = some (nextMpdu,s') ∧
      Spans s'.next nextMpdu l' none ∧
      Holds s'.next s'.outList (acc++if v.accepted then m else []) ∧
      s'.freed = s.freed++(if v.accepted then [] else m) ∧
      s'.tid.last = v.lastAfter s.tid.last := by
  intro v
  obtain ⟨mid,hs1,hs2⟩ := spans_append.mp hs
  have hwalk := mpduListNext_eq hs hm hf
  have hhead := hs1.head_eq hne
  obtain ⟨t,ht⟩ : ∃ t,m.getLast? = some t := ⟨_,List.getLast?_eq_getLast_of_ne_nil hne⟩
  obtain rfl := hs1.next_last ht
  have hmpdu : Holds s.next ⟨some a,some t⟩ m := ⟨hhead,ht.symm,_,hs1⟩
  obtain ⟨hadd,hrest⟩ := append_mpdu hmpdu hs2 hne hout hnd
  set added := append s.next s.outList ⟨some a,some t⟩
  have hmnd : m.Nodup := (List.nodup_append.mp (List.nodup_append.mp hnd).2.1).1
  have hmf : m.length ≤ fuel := by
    rw [List.length_append] at hf
    omega
  have henc : v.encrypted = (desc a).isEncrypted := by
    simp only [v,judge,← hhead,Option.any_some]
  have hpn : v.pn = pn48 (desc a).pn := by
    simp only [v,judge,← hhead,Option.map_some,Option.getD_some]
  have hacc : v.accepted = (!v.encrypted || admits strictChk s.tid.last v.pn) := rfl
  rw [checkMpdu_of_walk hwalk ht]
  by_cases he : (desc a).isEncrypted
  · have hreplay := isReplay_eq hk strictChk s.tid (desc a).pn
    rw [henc,he,Bool.not_true,Bool.false_or,hpn] at hacc
    by_cases ha : v.accepted
    · rw [← hacc,ha,Bool.not_true] at hreplay
      refine ⟨s.next t,⟨remember c ucast { s.tid with lastPnValid := true } (desc a).pn,
        added.1,added.2,s.freed⟩,?_,hrest,?_,?_,?_⟩
      · simp only [he,if_true,hreplay,Bool.false_eq_true,if_false,added]
      · simpa only [ha,if_true] using hadd
      · simp only [ha,if_true,List.append_nil]
      · simp only [remember_eq hk,TidPn.last,if_true,Verdict.lastAfter,ha,henc,he,hpn,
          Bool.and_self]
    · have hno := Bool.eq_false_iff.mpr ha
      rw [← hacc,hno,Bool.not_false] at hreplay
      have hfree := hmpdu.walkTo_eq hmnd hne hmf
      -- a PN is only rejected when there is a last one
      have hvalid : s.tid.lastPnValid = true := by
        refine Bool.not_eq_false _ |>.mp fun hv => ?_
        simp [TidPn.last,hv,admits] at hacc
        exact ha hacc
      refine ⟨s.next t,⟨{ s.tid with lastPnValid := true },s.next,s.outList,s.freed++m⟩,?_,
        hs2,?_,?_,?_⟩
      · simp only [he,if_true,hreplay,hfree,Option.map_some]
      · simpa only [hno,Bool.false_eq_true,if_false,List.append_nil] using hout
      · simp only [hno,Bool.false_eq_true,if_false]
      · simp only [TidPn.last,hvalid,Verdict.lastAfter,hno,Bool.and_false,Bool.false_eq_true,
          if_false]
  · have ha : v.accepted = true := by
      rw [hacc,henc,Bool.eq_false_iff.mpr he]
      rfl
    refine ⟨s.next t,⟨s.tid,added.1,added.2,s.freed⟩,?_,hrest,?_,?_,?_⟩
    · simp only [he,Bool.false_eq_true,if_false,added]
    · simpa only [ha,if_true] using hadd
    · simp only [ha,if_true,List.append_nil]
    · simp only [Verdict.lastAfter,henc,he,Bool.false_and,Bool.false_eq_true,if_false]

/-- The whole loop follows the verdicts. -/
theorem checkLoop_eq (desc : α → RxDesc) (strictChk : Bool) (hk : Keyed c ucast) {head : Option α} {turns : ℕ}
    (hs : Spans s.next head l none) (hout : Holds s.next s.outList acc)
    (hnd : (acc++l).Nodup) (hf : l.length ≤ fuel) (ht : l.length ≤ turns) :
    let vs := judgeAll desc strictChk s.tid.last (mpdus desc l)
    ∃ s',checkLoop fuel desc c ucast strictChk turns head s = some s' ∧
      Holds s'.next s'.outList (acc++kept vs) ∧ s'.freed = s.freed++dropped vs ∧
      s'.tid.last = lastAfterAll s.tid.last vs := by
  induction hn : l.length using Nat.strong_induction_on generalizing l acc head turns s with
  | _ n ih =>
    rcases eq_or_ne l [] with rfl | hl
    · obtain rfl := hs
      refine ⟨s,?_,by simpa [mpdus,judgeAll,kept] using hout,?_,rfl⟩
      · cases turns <;> rfl
      · simp [mpdus,judgeAll,dropped]
    · obtain ⟨m,l',rfl,hne,hm⟩ := exists_mpdu desc hl
      obtain ⟨a,ha⟩ : ∃ a,head = some a := by
        rw [hs.head_eq hl]
        exact ⟨_,List.head?_eq_some_head hl⟩
      subst ha
      have hpos := List.length_pos_of_ne_nil hne
      rw [List.length_append] at hn ht
      cases turns with
      | zero => omega
      | succ turns =>
        obtain ⟨nextMpdu,s₁,hstep,hs₁,hout₁,hfreed₁,hlast₁⟩ :=
          checkMpdu_eq strictChk hk hs hm hne hout hnd hf
        set v := judge desc strictChk s.tid.last m
        rw [List.length_append] at hf
        have hnd₁ : ((acc++if v.accepted then m else [])++l').Nodup := by
          split
          · rwa [List.append_assoc]
          · rw [List.append_nil]
            exact hnd.sublist ((List.sublist_append_right m l').append_left acc)
        have hturns : l'.length ≤ turns := by omega
        obtain ⟨s',hrun,hout',hfreed',hlast'⟩ :=
          ih l'.length (by omega) hs₁ hout₁ hnd₁ (by omega) hturns rfl
        refine ⟨s',?_,?_,?_,?_⟩
        · rw [checkLoop,hstep]
          exact hrun
        · rw [hm,judgeAll,kept_cons,← List.append_assoc]
          rwa [hlast₁] at hout'
        · rw [hm,judgeAll,dropped_cons,hfreed',hfreed₁,hlast₁,List.append_assoc]
          rfl
        · rw [hm,hlast',hlast₁]
          rfl

end OlRxPn
end MarbleModules
