import MarbleModules.HtcSendRuns

/-! The endpoint while nothing fails: it does not leave packets waiting that it has the credits
for, and what does wait waits behind a packet that asks for credits. -/
namespace MarbleModules
namespace HtcSend

open Runs

variable {cfg : Config} {e : Endpoint} {op : Op} {pm : Pm} {p : Packet}

/-- The power management lets every turn of a loop go on. -/
def Allows (pm : Pm) : Prop := ∀ i, pm i = (true,true)

/-- Nothing fails in an operation, and the packets it brings take no more credits than the
largest message has. -/
def Succeeds (cfg : Config) (e : Endpoint) (op : Op) : Prop :=
  (∀ e' pm, Passes cfg e op e' pm → Allows pm ∧ e'.forgets cfg pm = []) ∧
    op ≠ .issueMap false ∧ op ≠ .issueSend false ∧
    ∀ p drop pm, op = .send p drop pm → creditsRequired cfg p ≤ cfg.txCreditsPerMaxMsg

/-- The next packet to be taken needs more credits than there are. -/
def Starved (cfg : Config) (e : Endpoint) : Prop :=
  cfg.endpoint0 = false ∧
    ∃ p ∈ (e.fetchQueue cfg).head?, e.txCredits < creditsRequired cfg p

/-- When no thread drains the queue or is about to, it is empty, or the next packet needs more
credits than there are and the last packet sent has asked for credits. -/
def Served (cfg : Config) (e : Endpoint) : Prop :=
  e.drainer = .idle → e.kicks = 0 →
    e.txQueue = [] ∨ Starved cfg e ∧ e.asked ≠ some false

section Asked

/-- The last packet taken does not ask for credits only while more are left than the largest
message needs. -/
def AsksInTime (cfg : Config) (txCredits : ℤ) (asked : Option Bool) : Prop :=
  cfg.endpoint0 = false → asked = some false → cfg.txCreditsPerMaxMsg < txCredits

theorem AsksInTime.mono {txCredits txCredits' : ℤ} {asked : Option Bool}
    (h : AsksInTime cfg txCredits asked) (hle : txCredits ≤ txCredits') :
    AsksInTime cfg txCredits' asked := by
  intro h0 ha
  have := h h0 ha
  omega

theorem fetchLoop_asksInTime (doPmGet sysPmCheck : Bool) {i : ℕ} {txCredits : ℤ}
    {asked : Option Bool} {q : List Packet} (h : AsksInTime cfg txCredits asked) :
    AsksInTime cfg (fetchLoop cfg doPmGet sysPmCheck pm i txCredits asked q).txCredits
      (fetchLoop cfg doPmGet sysPmCheck pm i txCredits asked q).asked := by
  fun_induction fetchLoop cfg doPmGet sysPmCheck pm i txCredits asked q with
  | case1 => exact h
  | case2 => exact h
  | case3 => exact h
  | case4 i txCredits asked p rest h1 h2 h3 r ih =>
    intro h0
    rw [h0] at h3
    cases h3
  | case5 => exact h
  | case6 i txCredits asked p rest h1 h2 h3 h4 txCredits' need r ih =>
    refine ih fun _ hneed => ?_
    have hneed : need = false := Option.some.inj hneed
    have hlt : ¬ txCredits' ≤ cfg.txCreditsPerMaxMsg := by simpa [need] using hneed
    omega

end Asked

section Flows

/-- What every operation that succeeds keeps of an endpoint -/
structure Flows (cfg : Config) (e : Endpoint) : Prop where
  keeps : ∀ q, e.drainer ≠ .returns q
  fits : ∀ p ∈ e.txQueue, creditsRequired cfg p ≤ cfg.txCreditsPerMaxMsg
  asks : AsksInTime cfg e.txCredits e.asked
  waits : e.drainer = .idle → e.kicks = 0 → e.txQueue = [] ∨ Starved cfg e

theorem creditsRequired_pos (h0 : cfg.endpoint0 = false) (p : Packet) :
    0 < creditsRequired cfg p := by
  simp only [creditsRequired,h0,Bool.false_eq_true,if_false]
  split
  · exact Nat.one_pos
  · rename_i hlt
    split
    · rename_i hmod
      have hsize : 0 < cfg.txCreditSize := by
        by_contra hz
        have hz : cfg.txCreditSize = 0 := by omega
        rw [hz,Nat.mod_zero] at hmod
        simp [htcHdrLength] at hmod
      exact Nat.div_pos (by omega) hsize
    · exact Nat.add_pos_right _ Nat.one_pos

theorem fetchLoop_left (doPmGet sysPmCheck : Bool) (i : ℕ) (txCredits : ℤ)
    (asked : Option Bool) (q : List Packet) :
    (fetchLoop cfg doPmGet sysPmCheck pm i txCredits asked q).left <:+ q := by
  fun_induction fetchLoop cfg doPmGet sysPmCheck pm i txCredits asked q with
  | case1 => exact List.suffix_rfl
  | case2 => exact List.suffix_rfl
  | case3 => exact List.suffix_rfl
  | case4 i txCredits asked p rest h1 h2 h3 r ih => exact ih.trans (List.suffix_cons p rest)
  | case5 => exact List.suffix_rfl
  | case6 i txCredits asked p rest h1 h2 h3 h4 txCredits' need r ih =>
    exact ih.trans (List.suffix_cons p rest)

/-- The loop takes nothing only when the first packet needs more credits than there are. -/
theorem fetchLoop_stuck {doPmGet sysPmCheck : Bool} {i : ℕ} {txCredits : ℤ}
    {asked : Option Bool} {q : List Packet} (hpm : Allows pm)
    (h : (fetchLoop cfg doPmGet sysPmCheck pm i txCredits asked q).taken = []) (hq : q ≠ []) :
    (fetchLoop cfg doPmGet sysPmCheck pm i txCredits asked q).left = q ∧
      (fetchLoop cfg doPmGet sysPmCheck pm i txCredits asked q).txCredits = txCredits ∧
      cfg.endpoint0 = false ∧ ∃ p ∈ q.head?, txCredits < creditsRequired cfg p := by
  obtain ⟨p,rest,rfl⟩ := List.exists_cons_of_ne_nil hq
  rw [fetchLoop] at h ⊢
  simp only [hpm i,Bool.true_eq_false,and_false,if_false] at h ⊢
  split at h
  · cases h
  · rename_i h0
    split at h
    · rename_i hlt
      simp only [if_neg h0,if_pos hlt,List.head?_cons,Option.mem_some_iff]
      exact ⟨trivial,trivial,by simpa using h0,p,rfl,hlt⟩
    · cases h

theorem mem_fetchQueue (h : p ∈ e.fetchQueue cfg) : p ∈ e.txQueue := by
  rw [Endpoint.fetchQueue] at h
  split at h
  · exact List.mem_of_mem_filter h
  · split at h
    · exact List.mem_of_mem_filter h
    · exact h

/-- A pass that takes nothing, and forgets nothing, leaves the queue waiting for credits. -/
theorem getHtcSendPackets_starved (hpm : Allows pm) (hf : e.forgets cfg pm = [])
    (hne : e.txQueue ≠ []) (hnil : (e.getHtcSendPacketsCreditBased cfg pm).1 = []) :
    Starved cfg (e.getHtcSendPacketsCreditBased cfg pm).2 := by
  rw [Endpoint.forgets] at hf
  fun_cases Endpoint.getHtcSendPacketsCreditBased cfg e pm with
  | case1 hauto r =>
    rw [Endpoint.getHtcSendPacketsCreditBased,if_pos hauto] at hnil
    obtain ⟨hl,hc,h0,p,hp,hlt⟩ := fetchLoop_stuck hpm hnil hauto
    refine ⟨h0,p,?_,hc.symm ▸ hlt⟩
    have hfilter : (r.left++e.txQueue.filter (!extracts cfg .autoPm ·)).filter
        (extracts cfg .autoPm) = e.txQueue.filter (extracts cfg .autoPm) := by
      rw [show r.left = e.txQueue.filter (extracts cfg .autoPm) from hl]
      simp
    simp only [Endpoint.fetchQueue,hfilter,if_pos hauto]
    exact hp
  | case2 hauto hsys r =>
    rw [Endpoint.getHtcSendPacketsCreditBased,if_neg hauto,if_pos hsys] at hnil
    rw [if_neg hauto,if_pos hsys] at hf
    obtain ⟨hl,-⟩ := fetchLoop_stuck hpm hnil hsys
    exact absurd (hl.symm.trans hf) hsys
  | case3 hauto hsys r =>
    rw [Endpoint.getHtcSendPacketsCreditBased,if_neg hauto,if_neg hsys] at hnil
    obtain ⟨hl,hc,h0,p,hp,hlt⟩ := fetchLoop_stuck hpm hnil hne
    refine ⟨h0,p,?_,hc.symm ▸ hlt⟩
    have hl : r.left = e.txQueue := hl
    simp only [Endpoint.fetchQueue,hl,if_neg hauto,if_neg hsys]
    exact hp

theorem getHtcSendPackets_queue (h : p ∈ (e.getHtcSendPacketsCreditBased cfg pm).2.txQueue) :
    p ∈ e.txQueue := by
  revert h
  fun_cases Endpoint.getHtcSendPacketsCreditBased cfg e pm with
  | case1 hauto r =>
    intro h
    rcases List.mem_append.mp h with h|h
    · exact List.mem_of_mem_filter ((fetchLoop_left _ _ _ _ _ _).subset h)
    · exact List.mem_of_mem_filter h
  | case2 hauto hsys r => exact List.mem_of_mem_filter
  | case3 hauto hsys r => exact fun h => (fetchLoop_left _ _ _ _ _ _).subset h

theorem getHtcSendPackets_asks (pm : Pm) (h : AsksInTime cfg e.txCredits e.asked) :
    AsksInTime cfg (e.getHtcSendPacketsCreditBased cfg pm).2.txCredits
      (e.getHtcSendPacketsCreditBased cfg pm).2.asked := by
  fun_cases Endpoint.getHtcSendPacketsCreditBased cfg e pm
  all_goals exact fetchLoop_asksInTime _ _ h

theorem drainPass_flows (hfits : ∀ p ∈ e.txQueue, creditsRequired cfg p ≤ cfg.txCreditsPerMaxMsg)
    (hasks : AsksInTime cfg e.txCredits e.asked) (hpm : Allows pm)
    (hf : e.forgets cfg pm = []) : Flows cfg (e.drainPass cfg pm) := by
  have hasks' := getHtcSendPackets_asks pm hasks
  have hfits' : ∀ p ∈ (e.getHtcSendPacketsCreditBased cfg pm).2.txQueue,
      creditsRequired cfg p ≤ cfg.txCreditsPerMaxMsg :=
    fun p hp => hfits p (getHtcSendPackets_queue hp)
  fun_cases Endpoint.drainPass cfg e pm with
  | case1 hnil => exact ⟨by simp,hfits,hasks,fun _ _ => .inl hnil⟩
  | case2 hne r hnil =>
    have hstarved := getHtcSendPackets_starved hpm hf hne hnil
    exact ⟨by simp,hfits',hasks',fun _ _ => .inr hstarved⟩
  | case3 hne r hsome => exact ⟨by simp,hfits',hasks',by simp⟩

theorem Flows.served (h : Flows cfg e) : Served cfg e := by
  intro hidle hkicks
  refine (h.waits hidle hkicks).imp id fun hs => ⟨hs,fun hasked => ?_⟩
  obtain ⟨h0,p,hp,hlt⟩ := hs
  have hmem : p ∈ e.txQueue := mem_fetchQueue (List.mem_of_mem_head? hp)
  have hfits := h.fits p hmem
  have hasks := h.asks h0 hasked
  omega

theorem triesOf_queue {e' : Endpoint} (htries : triesOf cfg e op = some (e',pm)) :
    e'.txCredits = e.txCredits ∧ e'.asked = e.asked ∧
      ∀ p ∈ e'.txQueue, p ∈ e.txQueue ∨ ∃ drop, op = .send p drop pm := by
  cases op with
  | send p drop pm =>
    simp only [triesOf] at htries
    split at htries
    · cases htries
    · split at htries <;> obtain ⟨rfl,rfl⟩ := Prod.mk.inj (Option.some.inj htries)
      all_goals
        refine ⟨rfl,rfl,fun p' hp' => ?_⟩
      · rcases List.mem_cons.mp hp' with rfl|hp'
        · exact .inr ⟨drop,rfl⟩
        · exact .inl hp'
      · rcases List.mem_append.mp hp' with hp'|hp'
        · exact .inl hp'
        · exact .inr ⟨drop,List.mem_singleton.mp hp' ▸ rfl⟩
  | kick pm =>
    simp only [triesOf] at htries
    split at htries
    · cases htries
    · obtain ⟨rfl,rfl⟩ := Prod.mk.inj (Option.some.inj htries)
      exact ⟨rfl,rfl,fun _ hp' => .inl hp'⟩
  | resume pm =>
    obtain ⟨rfl,rfl⟩ := Prod.mk.inj (Option.some.inj htries)
    exact ⟨rfl,rfl,fun _ hp' => .inl hp'⟩
  | _ => cases htries

theorem passes_pm {e' : Endpoint} (hpass : Passes cfg e op e' pm) :
    (∃ p drop, op = .send p drop pm) ∨ op = .kick pm ∨ op = .resume pm ∨ op = .issueDone pm := by
  cases hpass with
  | tries htries hidle =>
    cases op with
    | send p drop pm =>
      simp only [triesOf] at htries
      split at htries
      · cases htries
      · split at htries <;> cases htries <;> exact .inl ⟨p,drop,rfl⟩
    | kick pm =>
      simp only [triesOf] at htries
      split at htries <;> cases htries
      exact .inr (.inl rfl)
    | resume pm =>
      cases htries
      exact .inr (.inr (.inl rfl))
    | _ => cases htries
  | done hd => exact .inr (.inr (.inr rfl))

/-- Only the endpoint of `WMI_CONTROL_SVC` can forget packets. -/
theorem forgets_of_not_wmi (h : cfg.wmiControlSvc = false) : e.forgets cfg pm = [] := by
  simp [Endpoint.forgets,extracts,h]

/-- A credit report that calls for no pass finds the queue empty, or changes nothing. -/
theorem creditRpt_flows (h : Flows cfg e) (credits : ℕ) : Flows cfg (e.creditRpt credits) := by
  refine ⟨h.keeps,h.fits,h.asks.mono (by simp [Endpoint.creditRpt]),?_⟩
  intro hidle hkicks
  simp only [Endpoint.creditRpt] at hidle hkicks ⊢
  split at hkicks
  · cases hkicks
  · rename_i hn
    rcases not_and_or.mp hn with hz|hq
    · refine (h.waits hidle hkicks).imp id fun hs => ?_
      obtain ⟨h0,p,hp,hlt⟩ := hs
      have hpos := creditsRequired_pos h0 p
      refine ⟨h0,p,hp,?_⟩
      simp only
      omega
    · exact .inl (not_not.mp hq)

theorem step_tries_flows {e' : Endpoint} (htries : triesOf cfg e op = some (e',pm))
    (h : Flows cfg e) (hs : Succeeds cfg e op) : Flows cfg (step cfg e op) := by
  obtain ⟨hc,ha,hq⟩ := triesOf_queue htries
  obtain ⟨hstep,hdrainer⟩ := step_triesOf htries
  have hasks : AsksInTime cfg e'.txCredits e'.asked := hc ▸ ha ▸ h.asks
  have hfits : ∀ p ∈ e'.txQueue, creditsRequired cfg p ≤ cfg.txCreditsPerMaxMsg := by
    intro p hp
    rcases hq p hp with hp|⟨drop,rfl⟩
    · exact h.fits p hp
    · exact hs.2.2.2 p drop pm rfl
  rw [hstep,Endpoint.tryDrain]
  split
  case isTrue hidle =>
    obtain ⟨hpm,hf⟩ := hs.1 e' pm (.tries htries hidle)
    exact drainPass_flows hfits hasks hpm hf
  case isFalse hbusy =>
    exact ⟨fun q => hdrainer ▸ h.keeps q,hfits,hasks,fun hidle => absurd hidle hbusy⟩

theorem step_flows (h : Flows cfg e) (hs : Succeeds cfg e op) : Flows cfg (step cfg e op) := by
  cases htries : triesOf cfg e op with
  | some r => exact step_tries_flows htries h hs
  | none =>
    obtain ⟨hpasses,hmap,hsend,hfits⟩ := hs
    cases op with
    | send p drop pm =>
      simp only [triesOf] at htries
      split at htries
      · rename_i hfull
        rw [step,Endpoint.htcSendPkt,if_pos hfull]
        exact ⟨h.keeps,h.fits,h.asks,h.waits⟩
      · split at htries <;> cases htries
    | creditRpt credits => exact creditRpt_flows h credits
    | kick pm =>
      simp only [triesOf] at htries
      split at htries
      · rename_i hk
        rw [step,Endpoint.kick,if_pos hk]
        exact h
      · cases htries
    | resume pm => cases htries
    | issueMap mapped =>
      rw [step]
      fun_cases Endpoint.issueMap e mapped with
      | case1 p rest hd hm => exact ⟨by simp,h.fits,h.asks,by simp⟩
      | case2 p rest hd hm =>
        have hm : mapped = false := by simpa using hm
        exact absurd (hm ▸ rfl) hmap
      | case3 => exact h
    | issueSend sent =>
      rw [step]
      fun_cases Endpoint.issueSend e sent with
      | case1 p rest hd hs => exact ⟨by simp,h.fits,h.asks,by simp⟩
      | case2 p rest hd hs =>
        have hs : sent = false := by simpa using hs
        exact absurd (hs ▸ rfl) hsend
      | case3 => exact h
    | issueDone pm =>
      rw [step]
      fun_cases Endpoint.issueDone cfg e pm with
      | case1 hd =>
        obtain ⟨hpm,hf⟩ := hpasses e pm (.done hd)
        exact drainPass_flows h.fits h.asks hpm hf
      | case2 => exact h
    | requeue =>
      rw [step]
      fun_cases Endpoint.requeue e with
      | case1 q hd => exact absurd hd (h.keeps q)
      | case2 => exact h
    | flushTx => exact ⟨h.keeps,by simp [step,Endpoint.htcFlushEndpointTx],h.asks,
        fun _ _ => .inl rfl⟩
    | _ => exact ⟨h.keeps,h.fits,h.asks,h.waits⟩

/-- While nothing fails, no endpoint is ever left with packets that it has the credits for, and
one that waits for credits has asked for them. -/
theorem served_always (cfg : Config) (txAlloc : ℕ) (ops : List Op)
    (h : Guarded (step cfg) (Succeeds cfg) (connect txAlloc) ops) :
    Always (step cfg) (Served cfg) (connect txAlloc) ops := by
  have h0 : Flows cfg (connect txAlloc) :=
    ⟨by simp [connect],by simp [connect],by simp [AsksInTime,connect],fun _ _ => .inl rfl⟩
  exact guarded_always (fun _ h => h.served) (fun _ _ h hs => step_flows h hs) h0 ops h

/-- An endpoint with two credits for a message of up to two buffers of 100 bytes -/
def smallConfig : Config := ⟨false,false,false,8,100,2⟩

def allow : Pm := fun _ => (true,true)

/-- One message is sent, and one of two buffers waits for the second credit. -/
def waitsForCredit : List Op := [.send ⟨1,10,.other,0,false⟩ false allow,.issueMap true,
  .issueSend true,.issueDone allow,.send ⟨2,120,.other,0,false⟩ false allow]

theorem served_always_waiting :
    (run (step smallConfig) (connect 2) waitsForCredit).txQueue ≠ [] ∧
      Starved smallConfig (run (step smallConfig) (connect 2) waitsForCredit) ∧
      (run (step smallConfig) (connect 2) waitsForCredit).asked ≠ some false := by
  have hs : ∀ op ∈ waitsForCredit, ∀ e, Succeeds smallConfig e op := by
    intro op hop e
    simp only [waitsForCredit,List.mem_cons,List.not_mem_nil,or_false] at hop
    rcases hop with rfl|rfl|rfl|rfl|rfl
    all_goals
      refine ⟨fun e' pm hpass => ⟨fun i => ?_,forgets_of_not_wmi rfl⟩,by simp,by simp,?_⟩
      · have hpm := passes_pm hpass
        simp at hpm <;> subst hpm <;> rfl
      · rintro p drop pm heq
        cases heq <;> decide
  have hguard : Guarded (step smallConfig) (Succeeds smallConfig) (connect 2) waitsForCredit :=
    (guarded_of_forall _ _ hs).imp (I := fun _ => True) (fun _ _ _ _ => trivial)
      (fun e _ _ h => h e) trivial waitsForCredit
  have h := served_always smallConfig 2 waitsForCredit hguard
  have hne : (run (step smallConfig) (connect 2) waitsForCredit).txQueue ≠ [] := by decide
  exact ⟨hne,(h.last rfl rfl).resolve_left hne⟩

end Flows

end HtcSend
end MarbleModules
