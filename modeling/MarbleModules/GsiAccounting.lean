import MarbleModules.Gsi

/-!
A channel's ring is a window of the elements it has accepted: from the first not yet counted
complete to the last. Each function on a channel is related to the move it makes on that
window.
-/
namespace MarbleModules
namespace Gsi

open RingWindow

variable {ch : Chan} {sent : List XferElem} {c d : ℕ}

/-- A slot of the ring's memory and its user data are those of the element at a position. -/
def SlotOf (sent : List XferElem) (i : ℕ) (slot : Tre × ℕ) : Prop :=
  ∀ xfer, sent[i]? = some xfer → treOf xfer = some slot.1 ∧ slot.2 = xfer.xferUserData

/-- The content of a slot. -/
def Chan.slot (ch : Chan) (i : ℕ) : Tre × ℕ := (ch.tre i,(ch.userData i).p)

/-- The ring holds the accepted elements from position `c` on. -/
structure Positions (ch : Chan) (sent : List XferElem) (c : ℕ) : Prop where
  wf : ch.ring.Wf
  wp : ch.ring.wpLocal = ch.ring.addr (sent.length%ch.ring.size)
  rp : ch.ring.rpLocal = ch.ring.addr (c%ch.ring.size)
  le : c ≤ sent.length
  lt : sent.length < c+ch.ring.size
  data : Holds ch.ring.size ch.slot (SlotOf sent) c sent.length

/-- The statistics count the accepted elements and those before the window. -/
structure Counts (ch : Chan) (sent : List XferElem) (c : ℕ) : Prop where
  completed : ch.completed = c%2^64
  queued : ch.queued = sent.length%2^64

theorem Positions.used_eq (h : Positions ch sent c) : ch.ring.used = sent.length-c := by
  have hpos := Ring.Wf.size_pos ch.ring
  have hw : findIdxFromAddr ch.ring ch.ring.wpLocal = sent.length%ch.ring.size := by
    rw [h.wp]
    exact h.wf.findIdx_addr (Nat.mod_lt _ hpos)
  have hr : findIdxFromAddr ch.ring ch.ring.rpLocal = c%ch.ring.size := by
    rw [h.rp]
    exact h.wf.findIdx_addr (Nat.mod_lt _ hpos)
  rw [Ring.used,hw,hr]
  exact dist_slots hpos h.le h.lt

theorem Counts.sub (h : Counts ch sent c) (hle : c ≤ sent.length)
    (hlt : sent.length < c+2^64) : sub64 ch.queued ch.completed = sent.length-c := by
  have hd := dist_slots (n := 2^64) (by decide) hle hlt
  rw [sub64,h.completed,h.queued,Nat.mod_mod]
  exact hd

theorem queryChannelFreeRe_eq (h : Positions ch sent c) :
    queryChannelFreeRe ch = ch.ring.maxNumElem-ch.ring.used := by
  have hpos := Ring.Wf.size_pos ch.ring
  have hr : findIdxFromAddr ch.ring ch.ring.rpLocal = c%ch.ring.size := by
    rw [h.rp]
    exact h.wf.findIdx_addr (Nat.mod_lt _ hpos)
  have hw : findIdxFromAddr ch.ring ch.ring.wpLocal = sent.length%ch.ring.size := by
    rw [h.wp]
    exact h.wf.findIdx_addr (Nat.mod_lt _ hpos)
  have hc : c%ch.ring.size < ch.ring.size := Nat.mod_lt _ hpos
  have hs : sent.length%ch.ring.size < ch.ring.size := Nat.mod_lt _ hpos
  rw [queryChannelFreeRe,Ring.used,hr,hw]
  split_ifs with hle
  · rw [dist_eq_of_le hle hs]
  · rw [dist_eq_of_lt (by omega) (le_of_lt hc)]
    rfl

theorem incrRingWp_wpLocal {r : Ring} (h : r.Wf) {k : ℕ} (hk : r.wpLocal = r.addr (k%r.size)) :
    (incrRingWp r).wpLocal = r.addr ((k+1)%r.size) := by
  rw [← h.next_addr k,← hk]
  rfl

theorem incrRingRp_rpLocal {r : Ring} (h : r.Wf) {k : ℕ} (hk : r.rpLocal = r.addr (k%r.size)) :
    (incrRingRp r).rpLocal = r.addr ((k+1)%r.size) := by
  rw [← h.next_addr k,← hk]
  rfl

theorem slotOf_append {i : ℕ} {slot : Tre × ℕ} (h : SlotOf sent i slot) (hi : i < sent.length)
    (more : List XferElem) : SlotOf (sent++more) i slot := by
  intro xfer hx
  rw [List.getElem?_append_left hi] at hx
  exact h xfer hx

/-- Dimensions of a ring, the part of it that its pointers are not. -/
def Ring.dims (r : Ring) : ℕ × ℕ × ℕ × ℕ × ℕ := (r.base,r.len,r.elemSz,r.maxNumElem,r.endAddr)

theorem Ring.Wf.of_dims {r r' : Ring} (h : r.Wf) (hd : r'.dims = r.dims) : r'.Wf := by
  simp only [Ring.dims,Prod.mk.injEq] at hd
  obtain ⟨h1,h2,h3,h4,h5⟩ := hd
  obtain ⟨g1,g2,g3,g4,g5,g6,g7⟩ := h
  simp only [Ring.size] at g2 g3
  constructor <;> simp only [Ring.size,h1,h2,h3,h4,h5] <;> assumption

theorem Ring.addr_of_dims {r r' : Ring} (hd : r'.dims = r.dims) (i : ℕ) :
    r'.addr i = r.addr i := by
  simp only [Ring.dims,Prod.mk.injEq] at hd
  rw [Ring.addr,Ring.addr,hd.1,hd.2.2.1]

theorem Ring.size_of_dims {r r' : Ring} (hd : r'.dims = r.dims) : r'.size = r.size := by
  simp only [Ring.dims,Prod.mk.injEq] at hd
  rw [Ring.size,Ring.size,hd.2.2.2.1]

/-- What a channel keeps whatever is done with it. -/
structure SameChan (ch ch' : Chan) : Prop where
  dims : ch'.ring.dims = ch.ring.dims
  dir : ch'.dir = ch.dir
  txPoll : ch'.txPoll = ch.txPoll

theorem SameChan.refl (ch : Chan) : SameChan ch ch := ⟨rfl,rfl,rfl⟩

theorem SameChan.trans {ch' ch'' : Chan} (h : SameChan ch ch') (h' : SameChan ch' ch'') :
    SameChan ch ch'' :=
  ⟨h'.dims.trans h.dims,h'.dir.trans h.dir,h'.txPoll.trans h.txPoll⟩

/-- One element of the loop extends the window. -/
theorem populateTre_spec (h : Positions ch sent c) {xfer : XferElem} {ch' : Chan}
    (hp : populateTre ch xfer = some ch') (hroom : sent.length+1 < c+ch.ring.size) :
    Positions {ch' with ring := incrRingWp ch'.ring} (sent++[xfer]) c ∧ SameChan ch ch' ∧
      ch'.queued = ch.queued ∧ ch'.completed = ch.completed := by
  rcases ht : treOf xfer with _ | tre
  · simp [populateTre,ht] at hp
  have hidx : findIdxFromAddr ch.ring ch.ring.wpLocal = sent.length%ch.ring.size := by
    rw [h.wp]
    exact h.wf.findIdx_addr (Nat.mod_lt _ (Ring.Wf.size_pos _))
  simp only [populateTre,ht,hidx,Option.some.injEq] at hp
  subst hp
  have hlen : (sent++[xfer]).length = sent.length+1 := by simp
  refine ⟨⟨h.wf.of_dims rfl,?_,h.rp,?_,?_,?_⟩,⟨rfl,rfl,rfl⟩,rfl,rfl⟩
  · rw [hlen]
    exact incrRingWp_wpLocal h.wf h.wp
  · rw [hlen]
    exact le_trans h.le (Nat.le_succ _)
  · rw [hlen]
    exact hroom
  · rw [hlen]
    have hold : Holds ch.ring.size ch.slot (SlotOf (sent++[xfer])) c sent.length :=
      h.data.imp fun i a _ hi ha => slotOf_append ha hi [xfer]
    have hnew : SlotOf (sent++[xfer]) sent.length (tre,xfer.xferUserData) := by
      intro y hy
      rw [List.getElem?_append_right (le_refl _),Nat.sub_self] at hy
      obtain rfl : xfer = y := by simpa using hy
      exact ⟨ht,rfl⟩
    have hpush := hold.push h.lt hnew
    have hslot : Chan.slot {ch with
        ring := incrRingWp ch.ring
        tre := Function.update ch.tre (sent.length%ch.ring.size) tre
        userData := Function.update ch.userData (sent.length%ch.ring.size)
          ⟨true,xfer.xferUserData⟩} =
        Function.update ch.slot (sent.length%ch.ring.size) (tre,xfer.xferUserData) := by
      funext i
      by_cases hi : i = sent.length%ch.ring.size
      · subst hi
        simp [Chan.slot]
      · simp [Chan.slot,hi]
    rw [hslot]
    exact hpush

/-- The elements that `__gsi_populate_tre` accepts. -/
def XferElem.Valid (xfer : XferElem) : Prop := xfer.type ≠ .other

instance (xfer : XferElem) : Decidable xfer.Valid := inferInstanceAs (Decidable (_ ≠ _))

theorem treOf_isSome {xfer : XferElem} : (treOf xfer).isSome ↔ xfer.Valid := by
  rcases xfer with ⟨addr,len,bei,eot,eob,chain,type,data⟩
  cases type <;> simp [treOf,XferElem.Valid]

theorem populateTre_isSome (ch : Chan) {xfer : XferElem} (hx : xfer.Valid) :
    ∃ ch', populateTre ch xfer = some ch' := by
  obtain ⟨tre,ht⟩ := Option.isSome_iff_exists.mp (treOf_isSome.mpr hx)
  rw [populateTre,ht]
  exact ⟨_,rfl⟩

/-- The loop extends the window by the elements it accepts: all of them if it gets through,
and it does if all are valid. -/
theorem populateLoop_spec (xfers : List XferElem) (h : Positions ch sent c)
    (hroom : sent.length+xfers.length < c+ch.ring.size) :
    ∃ done, done <+: xfers ∧ Positions (populateLoop ch xfers).1 (sent++done) c ∧
      SameChan ch (populateLoop ch xfers).1 ∧
      (populateLoop ch xfers).1.queued = ch.queued ∧
      (populateLoop ch xfers).1.completed = ch.completed ∧
      ((populateLoop ch xfers).2 = true → done = xfers) ∧
      ((∀ xfer ∈ xfers, xfer.Valid) → (populateLoop ch xfers).2 = true) := by
  induction xfers generalizing ch sent with
  | nil =>
    refine ⟨[],List.prefix_rfl,?_,SameChan.refl ch,rfl,rfl,fun _ => rfl,fun _ => rfl⟩
    rw [List.append_nil]
    exact h
  | cons xfer xfers ih =>
    rw [List.length_cons] at hroom
    rcases hp : populateTre ch xfer with _ | ch'
    · refine ⟨[],List.nil_prefix,?_,?_,?_,?_,?_,?_⟩
      · simpa [populateLoop,hp] using h
      · simpa [populateLoop,hp] using SameChan.refl ch
      · simp [populateLoop,hp]
      · simp [populateLoop,hp]
      · simp [populateLoop,hp]
      · intro hv
        obtain ⟨ch',hc⟩ := populateTre_isSome ch (hv xfer (List.mem_cons_self))
        rw [hp] at hc
        cases hc
    · obtain ⟨h1,h2,h3,h4⟩ := populateTre_spec h hp (by omega)
      have hsize : ({ch' with ring := incrRingWp ch'.ring} : Chan).ring.size = ch.ring.size :=
        Ring.size_of_dims h2.dims
      obtain ⟨done,hd,g1,g2,g3,g4,g5,g6⟩ := ih h1 (by
        rw [hsize,List.length_append,List.length_singleton]
        omega)
      refine ⟨xfer::done,List.cons_prefix_cons.mpr ⟨rfl,hd⟩,?_,?_,?_,?_,?_,?_⟩
      · simp only [populateLoop,hp]
        rw [← List.append_cons] at g1
        exact g1
      · simp only [populateLoop,hp]
        have hring : SameChan ch' {ch' with ring := incrRingWp ch'.ring} := ⟨rfl,rfl,rfl⟩
        exact (h2.trans hring).trans g2
      · simp only [populateLoop,hp]
        exact g3.trans h3
      · simp only [populateLoop,hp]
        exact g4.trans h4
      · simp only [populateLoop,hp]
        intro hr
        rw [g5 hr]
      · simp only [populateLoop,hp]
        exact fun hv => g6 fun x hx => hv x (List.mem_cons_of_mem _ hx)

/-- A rejected run of elements leaves the window as it was: only free slots were written. -/
theorem Positions.rollback {done : List XferElem} (h : Positions ch (sent++done) c)
    (hle : c ≤ sent.length) {wpLocal : ℕ}
    (hwp : wpLocal = ch.ring.addr (sent.length%ch.ring.size)) :
    Positions {ch with ring := {ch.ring with wpLocal := wpLocal}} sent c := by
  have hlen : (sent++done).length = sent.length+done.length := List.length_append
  have hlt := h.lt
  rw [hlen] at hlt
  have hsub : sent.length < c+ch.ring.size := by omega
  have hpart : Holds ch.ring.size ch.slot (SlotOf (sent++done)) c sent.length :=
    h.data.mono (le_refl c) (by omega)
  have hdata : Holds ch.ring.size ch.slot (SlotOf sent) c sent.length :=
    hpart.imp fun i a _ hi ha xfer hx => ha xfer (by rw [List.getElem?_append_left hi,hx])
  exact ⟨h.wf.of_dims rfl,hwp,h.rp,hle,hsub,hdata⟩

/-- What a queueing leaves of the event ring. -/
structure SamePointers (r r' : Ring) : Prop where
  dims : r'.dims = r.dims
  rp : r'.rp = r.rp
  rpLocal : r'.rpLocal = r.rpLocal

theorem SamePointers.refl (r : Ring) : SamePointers r r := ⟨rfl,rfl,rfl⟩

theorem ringChanDoorbell_pointers (ch : Chan) (evtr : Ring) :
    SamePointers evtr (ringChanDoorbell ch evtr).2 := by
  unfold ringChanDoorbell
  simp only
  split_ifs
  · exact ⟨rfl,rfl,rfl⟩
  · exact SamePointers.refl evtr

/-- The doorbell moves nothing the window is made of. -/
theorem doorbell_spec (evtr : Ring) (h : Positions ch sent c) (hc : Counts ch sent c)
    (ringDb : Bool) :
    ∃ ch' evtr', (if ringDb then
        ((ringChanDoorbell ch evtr).1,(ringChanDoorbell ch evtr).2,Status.success)
        else (ch,evtr,Status.success)) = (ch',evtr',Status.success) ∧
      Positions ch' sent c ∧ Counts ch' sent c ∧ SameChan ch ch' ∧ SamePointers evtr evtr' := by
  cases ringDb
  · exact ⟨ch,evtr,rfl,h,hc,SameChan.refl ch,SamePointers.refl evtr⟩
  · exact ⟨_,_,rfl,⟨h.wf.of_dims rfl,h.wp,h.rp,h.le,h.lt,h.data⟩,⟨hc.completed,hc.queued⟩,
      ⟨rfl,rfl,rfl⟩,ringChanDoorbell_pointers ch evtr⟩

/-- A queueing either extends the window by all its elements or leaves it alone, and does the
first for valid elements exactly when they fit. -/
theorem queueXfer_spec (evtr : Ring) (h : Positions ch sent c) (hc : Counts ch sent c)
    (xfers : List XferElem) (ringDb : Bool) :
    ∃ ch' evtr' status, queueXfer ch evtr xfers ringDb = (ch',evtr',status) ∧
      SameChan ch ch' ∧ SamePointers evtr evtr' ∧
      (status = .success → Positions ch' (sent++xfers) c ∧ Counts ch' (sent++xfers) c) ∧
      (status ≠ .success → Positions ch' sent c ∧ Counts ch' sent c) ∧
      ((∀ xfer ∈ xfers, xfer.Valid) →
        (status = .success ↔ xfers.length ≤ ch.ring.maxNumElem-ch.ring.used)) := by
  have hfree := queryChannelFreeRe_eq h
  have hused := h.used_eq
  have hle := h.le
  have hlt := h.lt
  have hsize : ch.ring.size = ch.ring.maxNumElem+1 := rfl
  by_cases hnil : xfers = []
  · obtain ⟨ch',evtr',heq,g1,g2,g3,g4⟩ := doorbell_spec evtr h hc ringDb
    refine ⟨ch',evtr',.success,?_,g3,g4,fun _ => ?_,fun hne => absurd rfl hne,fun _ => ?_⟩
    · rw [← heq,queueXfer,if_pos hnil]
    · rw [hnil,List.append_nil]
      exact ⟨g1,g2⟩
    · rw [hnil]
      exact ⟨fun _ => Nat.zero_le _,fun _ => rfl⟩
  by_cases hroom : queryChannelFreeRe ch < xfers.length
  · refine ⟨ch,evtr,.ringInsufficientSpace,?_,SameChan.refl ch,SamePointers.refl evtr,nofun,
      fun _ => ⟨h,hc⟩,fun _ => ⟨nofun,fun hx => ?_⟩⟩
    · rw [queueXfer,if_neg hnil,if_pos hroom]
    · omega
  have hspace : sent.length+xfers.length < c+ch.ring.size := by omega
  obtain ⟨done,hd,g1,g2,g3,g4,g5,g6⟩ := populateLoop_spec xfers h hspace
  by_cases hall : (populateLoop ch xfers).2 = true
  · have hdone := g5 hall
    subst hdone
    have hcount : Counts {(populateLoop ch done).1 with
        queued := ((populateLoop ch done).1.queued+done.length)%2^64} (sent++done) c := by
      refine ⟨g4.trans hc.completed,?_⟩
      simp only
      rw [g3,hc.queued,Nat.mod_add_mod,List.length_append]
    have hpos : Positions {(populateLoop ch done).1 with
        queued := ((populateLoop ch done).1.queued+done.length)%2^64} (sent++done) c :=
      ⟨g1.wf,g1.wp,g1.rp,g1.le,g1.lt,g1.data⟩
    obtain ⟨ch',evtr',heq,k1,k2,k3,k4⟩ := doorbell_spec evtr hpos hcount ringDb
    have hsame : SameChan (populateLoop ch done).1 {(populateLoop ch done).1 with
        queued := ((populateLoop ch done).1.queued+done.length)%2^64} := ⟨rfl,rfl,rfl⟩
    refine ⟨ch',evtr',.success,?_,(g2.trans hsame).trans k3,k4,fun _ => ⟨k1,k2⟩,
      fun hne => absurd rfl hne,fun _ => ⟨fun _ => by omega,fun _ => rfl⟩⟩
    rw [← heq,queueXfer,if_neg hnil,if_neg hroom]
    simp only [hall,if_true]
  · have hback : Positions {(populateLoop ch xfers).1 with
        ring := {(populateLoop ch xfers).1.ring with wpLocal := ch.ring.wpLocal}} sent c := by
      refine g1.rollback hle ?_
      rw [Ring.addr_of_dims g2.dims,Ring.size_of_dims g2.dims,← h.wp]
    refine ⟨_,evtr,.invalidParams,?_,?_,SamePointers.refl evtr,nofun,fun _ => ⟨hback,?_⟩,
      fun hv => absurd (g6 hv) hall⟩
    · rw [queueXfer,if_neg hnil,if_neg hroom]
      simp only [hall]
      rfl
    · exact g2.trans ⟨rfl,rfl,rfl⟩
    · exact ⟨g4.trans hc.completed,g3.trans hc.queued⟩

variable {ι : Type*}

/-- The first move of the processing of an event: the read pointer goes to the element named,
and those before it are counted. -/
theorem advance_spec (h : Positions ch sent c) (hc : Counts ch sent c) {no : ℕ} (hcn : c ≤ no)
    (hn : no < sent.length) {rp : ℕ} (hrp : rp = ch.ring.addr (no%ch.ring.size)) :
    ∃ ch', (if ch.ring.rpLocal ≠ rp then
        {ch with
          completed := (ch.completed+getCompleteNum ch.ring ch.ring.rpLocal rp)%2^64
          ring := {ch.ring with rpLocal := rp}}
        else ch) = ch' ∧ Positions ch' sent no ∧ Counts ch' sent no ∧ SameChan ch ch' ∧
      ch'.userData = ch.userData := by
  have hpos := Ring.Wf.size_pos ch.ring
  have hlt := h.lt
  have hcs : c%ch.ring.size < ch.ring.size := Nat.mod_lt _ hpos
  have hns : no%ch.ring.size < ch.ring.size := Nat.mod_lt _ hpos
  by_cases hne : ch.ring.rpLocal = rp
  · rw [if_neg (not_not.mpr hne)]
    have hslot : c%ch.ring.size = no%ch.ring.size := by
      rw [h.rp,hrp] at hne
      exact h.wf.addr_inj hne
    have hceq : c = no := slot_inj hcn (by omega) hslot
    subst hceq
    exact ⟨ch,rfl,h,hc,SameChan.refl ch,rfl⟩
  · rw [if_pos hne]
    have hslot : c%ch.ring.size ≠ no%ch.ring.size := by
      intro hs
      rw [h.rp,hrp,hs] at hne
      exact hne rfl
    have hnum : getCompleteNum ch.ring ch.ring.rpLocal rp = no-c := by
      rw [h.rp,hrp,h.wf.completeNum_addr hcs hns hslot]
      exact dist_slots hpos hcn (by omega)
    refine ⟨_,rfl,⟨h.wf.of_dims rfl,h.wp,hrp,le_of_lt hn,?_,?_⟩,⟨?_,hc.queued⟩,
      ⟨rfl,rfl,rfl⟩,rfl⟩
    · exact lt_of_lt_of_le hlt (Nat.add_le_add_right hcn _)
    · exact h.data.mono hcn (le_refl _)
    · simp only
      rw [hnum,hc.completed,Nat.mod_add_mod]
      congr 1
      omega

theorem SameChan.consumes {ch' : Chan} (h : SameChan ch ch') (callback : Bool) :
    ch'.consumes callback = ch.consumes callback := by
  rw [Chan.consumes,Chan.consumes,h.dir,h.txPoll]

/-- The processing of an event that names position `no` of the window: the window then starts
there, or past it when the event is consumed, and the notification carries the element's user
data. -/
theorem processChan_spec (h : Positions ch sent c) (hc : Counts ch sent c) {no : ℕ}
    (hcn : c ≤ no) (hn : no < sent.length) {evt : Evt ι}
    (hrp : evt.xferPtr = ch.ring.addr (no%ch.ring.size)) (callback : Bool) :
    ∃ ch' notify, processChan evt callback ch = (ch',notify) ∧
      Positions ch' sent (if ch.consumes callback then no+1 else no) ∧
      Counts ch' sent (if ch.consumes callback then no+1 else no) ∧ SameChan ch ch' ∧
      ∀ xfer, sent[no]? = some xfer → notify.xferUserData = xfer.xferUserData := by
  obtain ⟨ch₁,heq,h1,hc1,hsame,hdata⟩ := advance_spec h hc hcn hn hrp
  have hns : no%ch.ring.size < ch.ring.size := Nat.mod_lt _ (Ring.Wf.size_pos _)
  have hslot : ∀ xfer, sent[no]? = some xfer →
      (ch.userData (no%ch.ring.size)).p = xfer.xferUserData :=
    fun xfer hx => (h.data no hcn hn xfer hx).2
  have hcons := hsame.consumes callback
  unfold processChan
  simp only [heq]
  by_cases hcb : ch.consumes callback = true
  · rw [hcb] at hcons
    have hcons' : ({ch₁ with ring := {incrRingRp ch₁.ring with
        rp := (incrRingRp ch₁.ring).rpLocal}} : Chan).consumes callback = true := hcons
    have hidx : findIdxFromAddr {incrRingRp ch₁.ring with
        rp := (incrRingRp ch₁.ring).rpLocal} evt.xferPtr = no%ch.ring.size := by
      have hdims : ({incrRingRp ch₁.ring with
          rp := (incrRingRp ch₁.ring).rpLocal} : Ring).dims = ch.ring.dims := hsame.dims
      rw [hrp,← Ring.addr_of_dims hdims]
      exact (h.wf.of_dims hdims).findIdx_addr (by rw [Ring.size_of_dims hdims]; exact hns)
    simp only [hcons,hcb,if_true,hcons',hidx]
    refine ⟨_,_,rfl,⟨h1.wf.of_dims rfl,h1.wp,?_,hn,?_,?_⟩,⟨?_,hc1.queued⟩,
      hsame.trans ⟨rfl,rfl,rfl⟩,?_⟩
    · exact incrRingRp_rpLocal h1.wf h1.rp
    · have hlt := h1.lt
      exact lt_of_lt_of_le hlt (Nat.add_le_add_right (Nat.le_succ _) _)
    · have hpart : Holds ch₁.ring.size ch₁.slot (SlotOf sent) (no+1) sent.length :=
        h1.data.mono (Nat.le_succ _) (le_refl _)
      have hsl : Chan.slot {ch₁ with
          ring := {incrRingRp ch₁.ring with rp := (incrRingRp ch₁.ring).rpLocal}
          completed := (ch₁.completed+1)%2^64
          userData := Function.update ch₁.userData (no%ch.ring.size)
            ⟨false,(ch₁.userData (no%ch.ring.size)).p⟩} = ch₁.slot := by
        funext i
        by_cases hi : i = no%ch.ring.size
        · subst hi
          simp [Chan.slot]
        · simp [Chan.slot,hi]
      rw [hsl]
      exact hpart
    · simp only
      rw [hc1.completed,Nat.mod_add_mod]
    · intro xfer hx
      rw [hdata]
      exact hslot xfer hx
  · have hcb' : ch.consumes callback = false := by simpa using hcb
    rw [hcb'] at hcons
    have hcons' : ({ch₁ with ring := {ch₁.ring with
        rp := ch₁.ring.rpLocal}} : Chan).consumes callback = false := hcons
    have hidx : findIdxFromAddr {ch₁.ring with
        rp := ch₁.ring.rpLocal} evt.xferPtr = no%ch.ring.size := by
      have hdims : ({ch₁.ring with rp := ch₁.ring.rpLocal} : Ring).dims = ch.ring.dims :=
        hsame.dims
      rw [hrp,← Ring.addr_of_dims hdims]
      exact (h.wf.of_dims hdims).findIdx_addr (by rw [Ring.size_of_dims hdims]; exact hns)
    simp only [hcons,hcb',Bool.false_eq_true,if_false,hcons',hidx]
    refine ⟨_,_,rfl,⟨h1.wf.of_dims rfl,h1.wp,h1.rp,h1.le,h1.lt,h1.data⟩,
      ⟨hc1.completed,hc1.queued⟩,hsame.trans ⟨rfl,rfl,rfl⟩,?_⟩
    intro xfer hx
    rw [hdata]
    exact hslot xfer hx

end Gsi
end MarbleModules
