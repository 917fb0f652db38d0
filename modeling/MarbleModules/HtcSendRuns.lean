import Mathlib.Algebra.BigOperators.Group.List.Basic
import Mathlib.Data.List.Perm.Basic
import MarbleModules.HtcSend

/-! The endpoint over all interleavings of its senders, its drainer, the credit reports, the
completions and the flushes: where its credits and its packets are. -/
namespace MarbleModules
namespace HtcSend

open Runs

variable {cfg : Config} {e : Endpoint} {op : Op} {pm : Pm} {p : Packet} {q : List Packet}

section Fetch

/-- The credits of packets that have taken them -/
def used (q : List Packet) : ℤ := (q.map fun p => (p.creditsUsed : ℤ)).sum

@[simp] theorem used_nil : used [] = 0 := rfl

@[simp] theorem used_cons (p : Packet) (q : List Packet) :
    used (p::q) = p.creditsUsed+used q := by
  simp [used]

/-- What the loop takes off the credits is in the packets it takes. -/
theorem fetchLoop_credits (doPmGet sysPmCheck : Bool) (i : ℕ) (txCredits : ℤ)
    (asked : Option Bool) (q : List Packet) :
    (fetchLoop cfg doPmGet sysPmCheck pm i txCredits asked q).txCredits+
      used (fetchLoop cfg doPmGet sysPmCheck pm i txCredits asked q).taken = txCredits := by
  fun_induction fetchLoop cfg doPmGet sysPmCheck pm i txCredits asked q with
  | case1 => simp
  | case2 => simp
  | case3 => simp
  | case4 i txCredits asked p rest h1 h2 h3 r ih =>
    simp only [used_cons,Nat.cast_zero,zero_add]
    exact ih
  | case5 => simp
  | case6 i txCredits asked p rest h1 h2 h3 h4 txCredits' need r ih =>
    simp only [used_cons]
    have ih : r.txCredits+used r.taken = txCredits' := ih
    omega

/-- The loop takes packets off the front, and keeps them in order. -/
theorem fetchLoop_netbufs (cfg : Config) (pm : Pm) (doPmGet sysPmCheck : Bool) (i : ℕ)
    (txCredits : ℤ) (asked : Option Bool) (q : List Packet) :
    ((fetchLoop cfg doPmGet sysPmCheck pm i txCredits asked q).taken++
      (fetchLoop cfg doPmGet sysPmCheck pm i txCredits asked q).left).map Packet.netbuf =
      q.map Packet.netbuf := by
  fun_induction fetchLoop cfg doPmGet sysPmCheck pm i txCredits asked q with
  | case1 => rfl
  | case2 => rfl
  | case3 => rfl
  | case4 i txCredits asked p rest h1 h2 h3 r ih =>
    exact congrArg (List.cons p.netbuf) ih
  | case5 => rfl
  | case6 i txCredits asked p rest h1 h2 h3 h4 txCredits' need r ih =>
    exact congrArg (List.cons p.netbuf) ih

end Fetch

section Credits

/-- The credits of the packets the drainer has in hand; what it returns it has given up. -/
def Drainer.credits : Drainer → ℤ
  | .idle => 0
  | .issues sendQueue => used sendQueue
  | .sends packet sendQueue => packet.creditsUsed+used sendQueue
  | .returns _ => 0

/-- Each credit the endpoint has been given is at hand, in a packet the drainer has in hand, or
has been sent. -/
def Ledger (txAlloc : ℕ) (e : Endpoint) : Prop :=
  e.txCredits+e.drainer.credits+e.sentCredits = txAlloc+e.reportedCredits

/-- The mapping of a packet fails while credits are in hand: `htc_issue_packets` takes them back
only when `hif_send_head` fails. -/
def LosesCredits (e : Endpoint) : Op → Prop
  | .issueMap false => ∃ q, e.drainer = .issues q ∧ used q ≠ 0
  | _ => False

theorem getHtcSendPackets_credits (cfg : Config) (e : Endpoint) (pm : Pm) :
    (e.getHtcSendPacketsCreditBased cfg pm).2.txCredits+
        used (e.getHtcSendPacketsCreditBased cfg pm).1 = e.txCredits ∧
      (e.getHtcSendPacketsCreditBased cfg pm).2.sentCredits = e.sentCredits ∧
      (e.getHtcSendPacketsCreditBased cfg pm).2.reportedCredits = e.reportedCredits := by
  fun_cases Endpoint.getHtcSendPacketsCreditBased cfg e pm
  all_goals exact ⟨fetchLoop_credits _ _ _ _ _ _,rfl,rfl⟩

theorem drainPass_credits (cfg : Config) (e : Endpoint) (pm : Pm) :
    (e.drainPass cfg pm).txCredits+(e.drainPass cfg pm).drainer.credits = e.txCredits ∧
      (e.drainPass cfg pm).sentCredits = e.sentCredits ∧
      (e.drainPass cfg pm).reportedCredits = e.reportedCredits := by
  obtain ⟨hc,hs,hr⟩ := getHtcSendPackets_credits cfg e pm
  fun_cases Endpoint.drainPass cfg e pm with
  | case1 => simp [Drainer.credits]
  | case2 hne r hnil =>
    have hnil : (e.getHtcSendPacketsCreditBased cfg pm).1 = [] := hnil
    rw [hnil,used_nil] at hc
    exact ⟨hc,hs,hr⟩
  | case3 hne r hsome => exact ⟨hc,hs,hr⟩

/-- What a pass of the drainer starts from, and what it keeps -/
theorem tryDrain_ledger {txAlloc : ℕ} (h : Ledger txAlloc e) :
    Ledger txAlloc (e.tryDrain cfg pm) := by
  rw [Endpoint.tryDrain]
  split
  case isTrue hidle =>
    obtain ⟨hc,hs,hr⟩ := drainPass_credits cfg e pm
    simp only [Ledger,hidle,Drainer.credits] at h
    simp only [Ledger,hs,hr]
    omega
  case isFalse => exact h

theorem step_ledger {txAlloc : ℕ} (h : Ledger txAlloc e) (hl : ¬ LosesCredits e op) :
    Ledger txAlloc (step cfg e op) := by
  cases op with
  | send p drop pm =>
    simp only [step]
    fun_cases Endpoint.htcSendPkt cfg e p drop pm
    · exact h
    · exact tryDrain_ledger h
    · exact tryDrain_ledger h
  | creditRpt credits =>
    simp only [step,Endpoint.creditRpt,Ledger] at h ⊢
    omega
  | kick pm =>
    simp only [step,Endpoint.kick]
    split
    · exact h
    · exact tryDrain_ledger h
  | resume pm => exact tryDrain_ledger h
  | issueMap mapped =>
    simp only [step]
    fun_cases Endpoint.issueMap e mapped with
    | case1 p rest hd hm =>
      simp only [Ledger,hd,Drainer.credits,used_cons] at h ⊢
      exact h
    | case2 p rest hd hm =>
      have hm : mapped = false := by simpa using hm
      have hz : used (p::rest) = 0 := by
        by_contra hne
        exact hl (hm ▸ ⟨p::rest,hd,hne⟩)
      simp only [Ledger,hd,Drainer.credits,hz] at h ⊢
      exact h
    | case3 => exact h
  | issueSend sent =>
    simp only [step]
    fun_cases Endpoint.issueSend e sent with
    | case1 p rest hd hs =>
      simp only [Ledger,hd,Drainer.credits] at h ⊢
      omega
    | case2 p rest hd hs =>
      have hu : ((p::rest).map fun q => (q.creditsUsed : ℤ)).sum = used (p::rest) := rfl
      simp only [Ledger,hd,Drainer.credits,hu,used_cons] at h ⊢
      omega
    | case3 => exact h
  | issueDone pm =>
    simp only [step]
    fun_cases Endpoint.issueDone cfg e pm with
    | case1 hd =>
      obtain ⟨hc,hs,hr⟩ := drainPass_credits cfg e pm
      simp only [Ledger,hd,Drainer.credits,used_nil] at h
      simp only [Ledger,hs,hr]
      omega
    | case2 => exact h
  | requeue =>
    simp only [step]
    fun_cases Endpoint.requeue e with
    | case1 q hd =>
      simp only [Ledger,hd,Drainer.credits] at h ⊢
      exact h
    | case2 => exact h
  | _ => exact h

theorem losesCredits_breaks {txAlloc : ℕ} (h : Ledger txAlloc e) (hl : LosesCredits e op) :
    ¬ Ledger txAlloc (step cfg e op) := by
  cases op with
  | issueMap mapped =>
    cases mapped with
    | true => exact absurd hl id
    | false =>
      obtain ⟨q,hd,hu⟩ := hl
      cases q with
      | nil => exact absurd rfl hu
      | cons p rest =>
        intro hn
        simp only [step,Endpoint.issueMap,hd,Ledger,Drainer.credits] at h hn
        simp at hn
        omega
  | _ => exact absurd hl id

/-- Every credit an endpoint has been given is always at hand, in a packet in hand or sent,
exactly in the runs in which no mapping of a packet fails while credits are in hand. -/
theorem creditLedger_always_iff (cfg : Config) (txAlloc : ℕ) (ops : List Op) :
    Always (step cfg) (Ledger txAlloc) (connect txAlloc) ops ↔
      Guarded (step cfg) (fun e op => ¬ LosesCredits e op) (connect txAlloc) ops := by
  have h0 : Ledger txAlloc (connect txAlloc) := by
    simp [Ledger,connect,Drainer.credits]
  exact always_iff_guarded (I := Ledger txAlloc) (fun _ h => h)
    (fun _ _ h _ hl => step_ledger h hl)
    (fun _ _ h _ hl => losesCredits_breaks h (not_not.mp hl)) h0 ops (guarded_true _ _ ops)

end Credits

section Places

/-- The packets the drainer has in hand; the one at `hif_send_head` is in the lookup queue. -/
def Drainer.inHand : Drainer → List Packet
  | .idle => []
  | .issues sendQueue => sendQueue
  | .sends _ sendQueue => sendQueue
  | .returns sendQueue => sendQueue

/-- All packets, by where they are -/
def Endpoint.places (e : Endpoint) : List ℕ :=
  e.completed++(e.txQueue.map Packet.netbuf++(e.drainer.inHand.map Packet.netbuf++
    e.txLookupQueue.map Packet.netbuf))

/-- Each packet that has come in is in one place, or has been completed once. -/
def Once (e : Endpoint) : Prop := e.places.Perm e.submitted

theorem once_iff : Once e ↔ ∀ k, e.completed.count k+((e.txQueue.map Packet.netbuf).count k+
    ((e.drainer.inHand.map Packet.netbuf).count k+
      (e.txLookupQueue.map Packet.netbuf).count k)) = e.submitted.count k := by
  rw [Once,List.perm_iff_count]
  simp [Endpoint.places]

/-- The packets that `get_htc_send_packets_credit_based` leaves on no queue -/
def Endpoint.forgets (cfg : Config) (e : Endpoint) (pm : Pm) : List Packet :=
  if e.txQueue.filter (extracts cfg .autoPm) ≠ [] then []
  else if e.txQueue.filter (extracts cfg .systemResume) ≠ [] then
    (fetchLoop cfg true false pm 0 e.txCredits e.asked
      (e.txQueue.filter (extracts cfg .systemResume))).left
  else []

/-- The state in which an operation calls `htc_try_send`, when it does -/
def triesOf (cfg : Config) (e : Endpoint) : Op → Option (Endpoint × Pm)
  | .send p drop pm =>
    if cfg.maxTxQueueDepth ≤ e.txQueue.length ∧ cfg.epSendFull ∧ drop then none
    else if e.isNodropPkt then
      some ({ e with
        submitted := e.submitted++[p.netbuf]
        txQueue := p::e.txQueue
        isNodropPkt := false },pm)
    else some ({ e with
      submitted := e.submitted++[p.netbuf]
      txQueue := e.txQueue++[p] },pm)
  | .kick pm => if e.kicks = 0 then none else some ({ e with kicks := e.kicks-1 },pm)
  | .resume pm => some (e,pm)
  | _ => none

/-- An operation lets the drainer take from the queue, in this state. -/
inductive Passes (cfg : Config) (e : Endpoint) : Op → Endpoint → Pm → Prop
  | tries {op : Op} {e' : Endpoint} {pm : Pm} (htries : triesOf cfg e op = some (e',pm))
    (hidle : e'.drainer = .idle) : Passes cfg e op e' pm
  | done {pm : Pm} (hd : e.drainer = .issues []) : Passes cfg e (.issueDone pm) e pm

/-- A pass leaves packets on no queue, or a packet that could not be sent goes back although a
flush has completed it. -/
def Misplaces (cfg : Config) (e : Endpoint) (op : Op) : Prop :=
  (∃ e' pm, Passes cfg e op e' pm ∧ e'.forgets cfg pm ≠ []) ∨
    op = .issueSend false ∧ ∃ p q, e.drainer = .sends p q ∧
      ∀ d ∈ e.txLookupQueue, d.netbuf ≠ p.netbuf

theorem step_triesOf {e' : Endpoint} (h : triesOf cfg e op = some (e',pm)) :
    step cfg e op = e'.tryDrain cfg pm ∧ e'.drainer = e.drainer := by
  cases op with
  | send p drop pm =>
    simp only [triesOf] at h
    simp only [step,Endpoint.htcSendPkt]
    split at h
    · cases h
    · rename_i hfull
      rw [if_neg hfull]
      split at h <;> rename_i hnd <;> obtain ⟨rfl,rfl⟩ := Prod.mk.inj (Option.some.inj h)
      · rw [if_pos hnd]
        exact ⟨rfl,rfl⟩
      · rw [if_neg hnd]
        exact ⟨rfl,rfl⟩
  | kick pm =>
    simp only [triesOf] at h
    split at h
    · cases h
    · rename_i hk
      obtain ⟨rfl,rfl⟩ := Prod.mk.inj (Option.some.inj h)
      rw [step,Endpoint.kick,if_neg hk]
      exact ⟨rfl,rfl⟩
  | resume pm =>
    obtain ⟨rfl,rfl⟩ := Prod.mk.inj (Option.some.inj h)
    exact ⟨rfl,rfl⟩
  | _ => cases h

theorem step_passes {e' : Endpoint} (h : Passes cfg e op e' pm) :
    step cfg e op = e'.drainPass cfg pm := by
  cases h with
  | tries htries hidle => rw [(step_triesOf htries).1,Endpoint.tryDrain,if_pos hidle]
  | done hd => rw [step,Endpoint.issueDone,hd]

theorem netbufs_filter (P : Packet → Bool) (q : List Packet) (k : ℕ) :
    ((q.filter P).map Packet.netbuf).count k+
      ((q.filter (!P ·)).map Packet.netbuf).count k = (q.map Packet.netbuf).count k := by
  have h := ((List.filter_append_perm P q).map Packet.netbuf).count_eq k
  rwa [List.map_append,List.count_append] at h

theorem netbufs_fetchLoop (cfg : Config) (pm : Pm) (doPmGet sysPmCheck : Bool) (i : ℕ)
    (txCredits : ℤ) (asked : Option Bool) (q : List Packet) (k : ℕ) :
    ((fetchLoop cfg doPmGet sysPmCheck pm i txCredits asked q).taken.map
        Packet.netbuf).count k+
      ((fetchLoop cfg doPmGet sysPmCheck pm i txCredits asked q).left.map
        Packet.netbuf).count k = (q.map Packet.netbuf).count k := by
  rw [← fetchLoop_netbufs cfg pm doPmGet sysPmCheck i txCredits asked q,
    List.map_append,List.count_append]

/-- A pass moves packets from the queue into the hand of the drainer, and forgets some. -/
theorem getHtcSendPackets_count (cfg : Config) (e : Endpoint) (pm : Pm) (k : ℕ) :
    ((e.getHtcSendPacketsCreditBased cfg pm).1.map Packet.netbuf).count k+
      (((e.getHtcSendPacketsCreditBased cfg pm).2.txQueue.map Packet.netbuf).count k+
        ((e.forgets cfg pm).map Packet.netbuf).count k) =
      (e.txQueue.map Packet.netbuf).count k := by
  rw [Endpoint.forgets]
  fun_cases Endpoint.getHtcSendPacketsCreditBased cfg e pm with
  | case1 hpm r =>
    have hf := netbufs_fetchLoop cfg pm false false 0 e.txCredits e.asked
      (e.txQueue.filter (extracts cfg .autoPm)) k
    have hs := netbufs_filter (extracts cfg .autoPm) e.txQueue k
    simp only [if_pos hpm,List.map_append,List.count_append,List.map_nil,List.count_nil,r]
    omega
  | case2 hpm hsys r =>
    have hf := netbufs_fetchLoop cfg pm true false 0 e.txCredits e.asked
      (e.txQueue.filter (extracts cfg .systemResume)) k
    have hs := netbufs_filter (extracts cfg .systemResume) e.txQueue k
    simp only [if_neg hpm,if_pos hsys,r]
    omega
  | case3 hpm hsys r =>
    have hf := netbufs_fetchLoop cfg pm true true 0 e.txCredits e.asked
      e.txQueue k
    simp only [if_neg hpm,if_neg hsys,List.map_nil,List.count_nil,r]
    omega

theorem getHtcSendPackets_frame (cfg : Config) (e : Endpoint) (pm : Pm) :
    (e.getHtcSendPacketsCreditBased cfg pm).2.completed = e.completed ∧
      (e.getHtcSendPacketsCreditBased cfg pm).2.submitted = e.submitted ∧
      (e.getHtcSendPacketsCreditBased cfg pm).2.txLookupQueue = e.txLookupQueue ∧
      (e.getHtcSendPacketsCreditBased cfg pm).2.kicks = e.kicks := by
  fun_cases Endpoint.getHtcSendPacketsCreditBased cfg e pm <;> exact ⟨rfl,rfl,rfl,rfl⟩

theorem drainPass_frame (cfg : Config) (e : Endpoint) (pm : Pm) :
    (e.drainPass cfg pm).completed = e.completed ∧
      (e.drainPass cfg pm).submitted = e.submitted ∧
      (e.drainPass cfg pm).txLookupQueue = e.txLookupQueue ∧
      (e.drainPass cfg pm).kicks = e.kicks := by
  fun_cases Endpoint.drainPass cfg e pm
  · exact ⟨rfl,rfl,rfl,rfl⟩
  · exact getHtcSendPackets_frame cfg e pm
  · exact getHtcSendPackets_frame cfg e pm

theorem drainPass_count (cfg : Config) (e : Endpoint) (pm : Pm) (k : ℕ) :
    ((e.drainPass cfg pm).txQueue.map Packet.netbuf).count k+
      (((e.drainPass cfg pm).drainer.inHand.map Packet.netbuf).count k+
        ((e.forgets cfg pm).map Packet.netbuf).count k) =
      (e.txQueue.map Packet.netbuf).count k := by
  have hcount := getHtcSendPackets_count cfg e pm k
  fun_cases Endpoint.drainPass cfg e pm with
  | case1 hnil => simp [hnil,Drainer.inHand,Endpoint.forgets]
  | case2 hne r hnil =>
    have hnil : (e.getHtcSendPacketsCreditBased cfg pm).1 = [] := hnil
    rw [hnil] at hcount
    simp only [Drainer.inHand,List.map_nil,List.count_nil,zero_add] at hcount ⊢
    exact hcount
  | case3 hne r hsome =>
    have hcount : ((e.getHtcSendPacketsCreditBased cfg pm).2.txQueue.map Packet.netbuf).count k+
        (((e.getHtcSendPacketsCreditBased cfg pm).1.map Packet.netbuf).count k+
          ((e.forgets cfg pm).map Packet.netbuf).count k) =
        (e.txQueue.map Packet.netbuf).count k := by
      omega
    exact hcount

/-- A pass that starts with nothing in hand keeps every packet in one place exactly when it
forgets none. -/
theorem drainPass_once (hd : e.drainer.inHand = []) (h : Once e) :
    Once (e.drainPass cfg pm) ↔ e.forgets cfg pm = [] := by
  obtain ⟨hc,hs,hl,-⟩ := drainPass_frame cfg e pm
  rw [once_iff] at h ⊢
  simp only [hc,hs,hl]
  simp only [hd,List.map_nil,List.count_nil,zero_add] at h
  constructor
  · intro hn
    by_contra hf
    obtain ⟨p,q,hpq⟩ := List.exists_cons_of_ne_nil hf
    have hcount := drainPass_count cfg e pm p.netbuf
    have hp := hn p.netbuf
    have h := h p.netbuf
    rw [hpq,List.map_cons,List.count_cons_self] at hcount
    omega
  · intro hf k
    have hcount := drainPass_count cfg e pm k
    have h := h k
    rw [hf,List.map_nil,List.count_nil] at hcount
    omega

theorem triesOf_once {e' : Endpoint} (htries : triesOf cfg e op = some (e',pm)) (h : Once e) :
    Once e' := by
  cases op with
  | send p drop pm =>
    rw [once_iff] at h ⊢
    intro k
    have h := h k
    simp only [triesOf] at htries
    split at htries
    · cases htries
    · split at htries <;> obtain ⟨rfl,rfl⟩ := Prod.mk.inj (Option.some.inj htries)
      all_goals
        simp only [List.map_append,List.map_cons,List.map_nil,List.count_append,List.count_cons,
          List.count_nil]
        omega
  | kick pm =>
    simp only [triesOf] at htries
    split at htries
    · cases htries
    · obtain ⟨rfl,rfl⟩ := Prod.mk.inj (Option.some.inj htries)
      exact h
  | resume pm =>
    obtain ⟨rfl,rfl⟩ := Prod.mk.inj (Option.some.inj htries)
    exact h
  | _ => cases htries

theorem passes_once {e' : Endpoint} (hpass : Passes cfg e op e' pm) (h : Once e) :
    e'.drainer.inHand = [] ∧ Once e' := by
  cases hpass with
  | tries htries hidle => exact ⟨by rw [hidle]; rfl,triesOf_once htries h⟩
  | done hd => exact ⟨by rw [hd]; rfl,h⟩

/-- Taking the packet of a buffer out of a queue takes it out once. -/
theorem eraseP_count {netbuf : ℕ} {q : List Packet} (h : ∃ d ∈ q, d.netbuf = netbuf) (k : ℕ) :
    [netbuf].count k+((q.eraseP (·.netbuf = netbuf)).map Packet.netbuf).count k =
      (q.map Packet.netbuf).count k := by
  obtain ⟨d,hd,hnb⟩ := h
  obtain ⟨d',q₁,q₂,-,hd',hq,he⟩ := List.exists_of_eraseP hd (p := (·.netbuf = netbuf))
    (by simpa using hnb)
  have hd' : d'.netbuf = netbuf := by simpa using hd'
  rw [he,hq]
  simp only [List.map_append,List.map_cons,List.count_append,List.count_cons,List.count_nil,hd']
  omega

theorem htcLookupTxPacket_count (netbuf : ℕ) (q : List Packet) (k : ℕ) :
    ((Endpoint.htcLookupTxPacket netbuf q).1.map Packet.netbuf).toList.count k+
      ((Endpoint.htcLookupTxPacket netbuf q).2.map Packet.netbuf).count k =
      (q.map Packet.netbuf).count k := by
  fun_cases Endpoint.htcLookupTxPacket netbuf q with
  | case1 => rfl
  | case2 p rest => simp [List.count_cons]; omega
  | case3 p rest hne =>
    cases hf : (p::rest).find? (·.netbuf = netbuf) with
    | none =>
      have hnone := List.find?_eq_none.mp hf
      rw [List.eraseP_of_forall_not hnone]
      simp
    | some d =>
      have hd : d.netbuf = netbuf := by simpa using List.find?_some hf
      have hcount := eraseP_count ⟨d,List.mem_of_find?_eq_some hf,hd⟩ k
      simpa only [Option.map_some,Option.toList_some,hd] using hcount

theorem step_tries_once (op : Op) {e' : Endpoint} (htries : triesOf cfg e op = some (e',pm))
    (h : Once e) (hpass : Passes cfg e op e' pm → Once (e'.drainPass cfg pm)) :
    Once (step cfg e op) := by
  rw [(step_triesOf htries).1,Endpoint.tryDrain]
  split
  case isTrue hidle => exact hpass (.tries htries hidle)
  case isFalse => exact triesOf_once htries h

/-- An operation keeps every packet in one place, except when it misplaces some. -/
theorem step_once (h : Once e) (hm : ¬ Misplaces cfg e op) : Once (step cfg e op) := by
  have h' := h
  rw [once_iff] at h'
  have hpasses (e' : Endpoint) (pm : Pm) (hpass : Passes cfg e op e' pm) :
      Once (e'.drainPass cfg pm) := by
    obtain ⟨hhand,honce⟩ := passes_once hpass h
    rw [drainPass_once hhand honce]
    by_contra hf
    exact hm (.inl ⟨e',pm,hpass,hf⟩)
  cases op with
  | send p drop pm =>
    cases htries : triesOf cfg e (.send p drop pm) with
    | some r => exact step_tries_once _ htries h (hpasses r.1 r.2)
    | none =>
      simp only [triesOf] at htries
      split at htries
      · rename_i hfull
        rw [step,Endpoint.htcSendPkt,if_pos hfull,once_iff]
        intro k
        have h' := h' k
        simp only [List.count_append]
        omega
      · split at htries <;> cases htries
  | kick pm =>
    cases htries : triesOf cfg e (.kick pm) with
    | some r => exact step_tries_once _ htries h (hpasses r.1 r.2)
    | none =>
      simp only [triesOf] at htries
      split at htries
      · rename_i hk
        rw [step,Endpoint.kick,if_pos hk]
        exact h
      · cases htries
  | resume pm => exact step_tries_once (.resume pm) rfl h (hpasses e pm)
  | issueMap mapped =>
    rw [step,once_iff]
    intro k
    have h' := h' k
    fun_cases Endpoint.issueMap e mapped with
    | case1 p rest hd hm =>
      simp only [hd,Drainer.inHand,List.map_cons,List.map_append,List.map_nil,List.count_append,
        List.count_cons,List.count_nil] at h' ⊢
      omega
    | case2 p rest hd hm =>
      simp only [hd,Drainer.inHand] at h' ⊢
      exact h'
    | case3 => exact h'
  | issueSend sent =>
    rw [step,once_iff]
    intro k
    have h' := h' k
    fun_cases Endpoint.issueSend e sent with
    | case1 p rest hd hs =>
      simp only [hd,Drainer.inHand] at h' ⊢
      exact h'
    | case2 p rest hd hs =>
      have hs : sent = false := by simpa using hs
      have hin : ∃ d ∈ e.txLookupQueue, d.netbuf = p.netbuf := by
        by_contra hout
        refine hm (.inr ⟨hs ▸ rfl,p,rest,hd,fun d hd' hnb => hout ⟨d,hd',hnb⟩⟩)
      have hcount := eraseP_count hin k
      simp only [hd,Drainer.inHand,List.map_cons,List.count_cons,List.count_nil] at h' hcount ⊢
      omega
    | case3 => exact h'
  | issueDone pm =>
    rw [step]
    fun_cases Endpoint.issueDone cfg e pm with
    | case1 hd => exact hpasses e pm (.done hd)
    | case2 => exact h
  | requeue =>
    rw [step,once_iff]
    intro k
    have h' := h' k
    fun_cases Endpoint.requeue e with
    | case1 q hd =>
      simp only [hd,Drainer.inHand,List.map_append,List.map_nil,List.count_append,
        List.count_nil] at h' ⊢
      omega
    | case2 => exact h'
  | complete netbuf =>
    rw [step,once_iff]
    intro k
    have h' := h' k
    have hcount := htcLookupTxPacket_count netbuf e.txLookupQueue k
    simp only [Endpoint.txCompletionHandler,List.count_append]
    omega
  | flushTx =>
    rw [step,once_iff]
    intro k
    have h' := h' k
    simp only [Endpoint.htcFlushEndpointTx,List.count_append,List.map_nil,List.count_nil]
    omega
  | flushLookup =>
    rw [step,once_iff]
    intro k
    have h' := h' k
    simp only [Endpoint.htcFlushEndpointTxlookupQ,List.count_append,List.map_nil,List.count_nil]
    omega
  | _ => exact h

theorem misplaces_breaks (h : Once e) (hm : Misplaces cfg e op) : ¬ Once (step cfg e op) := by
  rcases hm with ⟨e',pm,hpass,hf⟩|⟨rfl,p,q,hd,hout⟩
  · obtain ⟨hhand,h'⟩ := passes_once hpass h
    rw [step_passes hpass,drainPass_once hhand h']
    exact hf
  · intro hn
    have h := once_iff.mp h p.netbuf
    have hn := once_iff.mp hn p.netbuf
    have he : e.txLookupQueue.eraseP (·.netbuf = p.netbuf) = e.txLookupQueue :=
      List.eraseP_of_forall_not fun d hd' => by simpa using hout d hd'
    simp only [step,Endpoint.issueSend,hd,Drainer.inHand,he] at h hn
    simp only [Bool.false_eq_true,if_false,List.map_cons,List.count_cons_self] at hn
    omega

/-- Every packet is always on one queue or in one hand, or has been completed once, exactly in
the runs in which no pass of the drainer forgets packets, and no packet that a flush has
completed is put back. -/
theorem packetsOnce_always_iff (cfg : Config) (txAlloc : ℕ) (ops : List Op) :
    Always (step cfg) Once (connect txAlloc) ops ↔
      Guarded (step cfg) (fun e op => ¬ Misplaces cfg e op) (connect txAlloc) ops := by
  have h0 : Once (connect txAlloc) := List.Perm.refl []
  exact always_iff_guarded (I := Once) (fun _ h => h) (fun _ _ h _ hm => step_once h hm)
    (fun _ _ h _ hm => misplaces_breaks h (not_not.mp hm)) h0 ops (guarded_true _ _ ops)

end Places

end HtcSend
end MarbleModules
