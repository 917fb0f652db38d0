import MarbleModules.GsiAccounting

/-!
The driver against the history of a run: the event ring is the window of the events not yet
consumed, and each channel's window starts behind the last event consumed, or at the element
that the first waiting event names once the callback has seen it.
-/
namespace MarbleModules
namespace Gsi

open RingWindow
open Runs

theorem take_succ_of_getElem? {α : Type*} {l : List α} {i : ℕ} {a : α} (h : l[i]? = some a) :
    l.take (i+1) = l.take i++[a] := by
  rw [List.take_add_one,h]
  rfl

theorem getElem?_of_isPre {α : Type*} {l l' : List α} (h : l <+: l') {i : ℕ} {a : α}
    (hi : l[i]? = some a) : l'[i]? = some a := by
  obtain ⟨t,rfl⟩ := h
  obtain ⟨hlt,-⟩ := List.getElem?_eq_some_iff.mp hi
  rw [List.getElem?_append_left hlt]
  exact hi

variable {ι : Type*} [DecidableEq ι] {s : Driver ι} {c : ι → ℕ} {m : ℕ}

theorem covered_append (x : ι) (evs : List (Event ι)) (ev : Event ι) :
    covered x (evs++[ev]) = if ev.chid = x then ev.no+1 else covered x evs := by
  simp [covered,List.foldl_append]

/-- Each event names an element behind those of its channel's events before it. -/
def Ordered (evs : List (Event ι)) : Prop :=
  ∀ i ev, evs[i]? = some ev → covered ev.chid (evs.take i) ≤ ev.no

theorem Ordered.mono {evs : List (Event ι)} (h : Ordered evs) (x : ι) {i j : ℕ} (hij : i ≤ j) :
    covered x (evs.take i) ≤ covered x (evs.take j) := by
  induction j, hij using Nat.le_induction with
  | base => exact le_refl _
  | succ j hij ih =>
    refine le_trans ih ?_
    rcases hj : evs[j]? with _ | ev
    · have hlen := List.getElem?_eq_none_iff.mp hj
      rw [List.take_of_length_le hlen,List.take_of_length_le (Nat.le_succ_of_le hlen)]
    · rw [take_succ_of_getElem? hj,covered_append]
      split_ifs with hx
      · have hle := h j ev hj
        rw [hx] at hle
        exact Nat.le_succ_of_le hle
      · exact le_refl _

/-- Events of one channel name its elements in queueing order. -/
theorem Ordered.lt {evs : List (Event ι)} (h : Ordered evs) {i j : ℕ} (hij : i < j)
    {ev ev' : Event ι} (hi : evs[i]? = some ev) (hj : evs[j]? = some ev')
    (hx : ev.chid = ev'.chid) : ev.no < ev'.no := by
  have h1 := h.mono ev.chid (Nat.succ_le_of_lt hij)
  rw [take_succ_of_getElem? hi,covered_append,if_pos rfl] at h1
  have h2 := h j ev' hj
  rw [← hx] at h2
  omega

theorem Ordered.no_lt {evs : List (Event ι)} (h : Ordered evs) {i : ℕ} {ev : Event ι}
    (hi : evs[i]? = some ev) : ev.no < covered ev.chid evs := by
  obtain ⟨hlt,-⟩ := List.getElem?_eq_some_iff.mp hi
  have h1 := h.mono ev.chid (Nat.succ_le_of_lt hlt)
  rw [take_succ_of_getElem? hi,covered_append,if_pos rfl,List.take_of_length_le (le_refl _)] at h1
  exact h1

theorem Ordered.append {evs : List (Event ι)} (h : Ordered evs) {ev : Event ι}
    (hev : covered ev.chid evs ≤ ev.no) : Ordered (evs++[ev]) := by
  intro i e hi
  rcases lt_trichotomy i evs.length with hlt | heq | hgt
  · rw [List.getElem?_append_left hlt] at hi
    rw [List.take_append_of_le_length (le_of_lt hlt)]
    exact h i e hi
  · subst heq
    rw [List.getElem?_append_right (le_refl _),Nat.sub_self] at hi
    obtain rfl : ev = e := by simpa using hi
    rw [List.take_left]
    exact hev
  · rw [List.getElem?_eq_none (by simp; omega)] at hi
    cases hi

/-- A slot of the event ring is the event of a position. -/
def EvtOf (chan : ι → Chan) (evs : List (Event ι)) (i : ℕ) (evt : Evt ι) : Prop :=
  ∀ ev, evs[i]? = some ev → evt.chid = ev.chid ∧
    evt.xferPtr = (chan ev.chid).ring.addr (ev.no%(chan ev.chid).ring.size)

/-- The notifications given: each of an event up to the first waiting one, in their order, and
each consumed event once for good. -/
structure Notified (s : Driver ι) : Prop where
  data : ∀ note ∈ s.notes, ∃ ev xfer, s.events[note.event]? = some ev ∧ ev.chid = note.chid ∧
    (s.sent ev.chid)[ev.no]? = some xfer ∧ note.notify.xferUserData = xfer.xferUserData
  bound : ∀ note ∈ s.notes, note.event ≤ s.consumed
  sorted : s.notes.Pairwise fun a b => a.event ≤ b.event
  once : (s.notes.filter Note.consumed).map Note.event = List.range s.consumed

/-- The windows of channels and event ring, `m` the last read of the hardware's position. -/
structure Inv (s : Driver ι) (c : ι → ℕ) (m : ℕ) : Prop where
  pos : ∀ x, Positions (s.chan x) (s.sent x) (c x)
  counts : ∀ x, Counts (s.chan x) (s.sent x) (c x)
  evtr : s.evtr.Wf
  rpLocal : s.evtr.rpLocal = s.evtr.addr (s.consumed%s.evtr.size)
  rp : s.evtr.rp = s.evtr.addr (m%s.evtr.size)
  consumed_le : s.consumed ≤ m
  le_events : m ≤ s.events.length
  pending : s.events.length < s.consumed+s.evtr.size
  written : Holds s.evtr.size s.evtRe (EvtOf s.chan s.events) s.consumed s.events.length
  ordered : Ordered s.events
  hw : ∀ x, covered x s.events ≤ (s.sent x).length
  start : ∀ x, c x = covered x (s.events.take s.consumed) ∨
    ∃ ev, s.events[s.consumed]? = some ev ∧ ev.chid = x ∧ c x = ev.no
  notified : Notified s

/-- The windows of the channels start no later than the element the first waiting event
names. -/
theorem Inv.start_le (h : Inv s c m) {ev : Event ι} (hev : s.events[s.consumed]? = some ev) :
    c ev.chid ≤ ev.no := by
  rcases h.start ev.chid with hc | ⟨ev',hev',-,hc⟩
  · rw [hc]
    exact h.ordered s.consumed ev hev
  · rw [hev] at hev'
    obtain rfl : ev = ev' := by simpa using hev'
    exact le_of_eq hc

theorem consumes_false_iff {ch : Chan} {callback : Bool} :
    ch.consumes callback = false ↔ callback ∧ (ch.dir = .fromGsi ∨ ch.txPoll) := by
  rw [Chan.consumes]
  cases callback <;> cases ch.dir <;> cases ch.txPoll <;> simp

theorem addr_slot {r : Ring} (h : r.Wf) (i : ℕ) : (r.addr i-r.base)/r.elemSz = i := by
  rw [Ring.addr,Nat.add_sub_cancel_left,Nat.mul_div_cancel _ h.elemSz]

theorem evtOf_update {chan : ι → Chan} {x : ι} {ch : Chan} (hsame : SameChan (chan x) ch)
    {evs : List (Event ι)} {i : ℕ} {evt : Evt ι} (h : EvtOf chan evs i evt) :
    EvtOf (Function.update chan x ch) evs i evt := by
  intro ev hev
  obtain ⟨h1,h2⟩ := h ev hev
  refine ⟨h1,?_⟩
  by_cases hx : ev.chid = x
  · rw [hx,Function.update_self,Ring.addr_of_dims hsame.dims,Ring.size_of_dims hsame.dims,← hx]
    exact h2
  · rw [Function.update_of_ne hx]
    exact h2

/-- What holds of every channel, its transfers and where its window starts still does when one
channel and its start change together. -/
theorem forall_update {α β γ : Type*} {P : α → β → γ → Prop} {chan : ι → α}
    {sent : ι → β} {c : ι → γ} {y : ι} {ch : α} {d : γ} (hy : P ch (sent y) d)
    (h : ∀ x, P (chan x) (sent x) (c x)) (x : ι) :
    P (Function.update chan y ch x) (sent x) (Function.update c y d x) := by
  by_cases hx : x = y
  · rw [hx,Function.update_self,Function.update_self]
    exact hy
  · rw [Function.update_of_ne hx,Function.update_of_ne hx]
    exact h x

omit [DecidableEq ι] in
/-- A note about the first waiting event may follow those that there are. -/
theorem Notified.append (h : Notified s) (new : Note ι) (hevent : new.event = s.consumed)
    (hdata : ∃ ev xfer, s.events[new.event]? = some ev ∧ ev.chid = new.chid ∧
      (s.sent ev.chid)[ev.no]? = some xfer ∧ new.notify.xferUserData = xfer.xferUserData) :
    (∀ note ∈ s.notes++[new], ∃ ev xfer, s.events[note.event]? = some ev ∧ ev.chid = note.chid ∧
      (s.sent ev.chid)[ev.no]? = some xfer ∧ note.notify.xferUserData = xfer.xferUserData) ∧
      (∀ note ∈ s.notes++[new], note.event ≤ s.consumed) ∧
      (s.notes++[new]).Pairwise fun a b => a.event ≤ b.event := by
  refine ⟨fun note hnote => ?_,fun note hnote => ?_,?_⟩
  · rcases List.mem_append.mp hnote with hold | hnote
    · exact h.data note hold
    · obtain rfl := List.mem_singleton.mp hnote
      exact hdata
  · rcases List.mem_append.mp hnote with hold | hnote
    · exact h.bound note hold
    · obtain rfl := List.mem_singleton.mp hnote
      exact hevent.le
  · refine List.pairwise_append.mpr ⟨h.sorted,List.pairwise_singleton _ _,?_⟩
    intro a ha b hb
    obtain rfl := List.mem_singleton.mp hb
    exact (h.bound a ha).trans hevent.ge

/-- The processing of the first waiting event keeps the windows; without consumption they only
move up to the element it names. -/
theorem processEvtRe_spec (h : Inv s c m) (hlt : s.consumed < m) (callback : Bool) :
    ∃ c', Inv (processEvtRe callback s) c' m ∧ (processEvtRe callback s).events = s.events ∧
      (processEvtRe callback s).evtr.dims = s.evtr.dims ∧
      (callback = false → (processEvtRe callback s).consumed = s.consumed+1) := by
  have hlen : s.consumed < s.events.length := lt_of_lt_of_le hlt h.le_events
  obtain ⟨ev,hev⟩ : ∃ ev, s.events[s.consumed]? = some ev := ⟨_,List.getElem?_eq_getElem hlen⟩
  obtain ⟨hchid,hptr⟩ := h.written s.consumed (le_refl _) hlen ev hev
  have hslot : (s.evtr.rpLocal-s.evtr.base)/s.evtr.elemSz = s.consumed%s.evtr.size := by
    rw [h.rpLocal]
    exact addr_slot h.evtr _
  set evt := s.evtRe (s.consumed%s.evtr.size) with hevt
  have hno : ev.no < (s.sent ev.chid).length :=
    lt_of_lt_of_le (h.ordered.no_lt hev) (h.hw ev.chid)
  obtain ⟨ch,notify,hproc,hpos,hcounts,hsame,hdata⟩ := processChan_spec (h.pos ev.chid)
    (h.counts ev.chid) (h.start_le hev) hno hptr callback
  have hcons := hsame.consumes callback
  -- the channels after the processing, and where their windows start
  set d := if (s.chan ev.chid).consumes callback then ev.no+1 else ev.no with hd
  set c' := Function.update c ev.chid d with hc'
  have hpos' : ∀ x, Positions (Function.update s.chan ev.chid ch x) (s.sent x) (c' x) :=
    forall_update hpos h.pos
  have hcounts' : ∀ x, Counts (Function.update s.chan ev.chid ch x) (s.sent x) (c' x) :=
    forall_update hcounts h.counts
  have hother : ∀ x, x ≠ ev.chid → c x = covered x (s.events.take s.consumed) := by
    intro x hx
    rcases h.start x with hs | ⟨ev',hev',hx',-⟩
    · exact hs
    · rw [hev] at hev'
      obtain rfl : ev = ev' := by simpa using hev'
      exact absurd hx'.symm hx
  have hwritten : Holds s.evtr.size s.evtRe
      (EvtOf (Function.update s.chan ev.chid ch) s.events) s.consumed s.events.length :=
    h.written.imp fun i a _ _ ha => evtOf_update hsame ha
  obtain ⟨xfer,hxfer⟩ : ∃ xfer, (s.sent ev.chid)[ev.no]? = some xfer :=
    ⟨_,List.getElem?_eq_getElem hno⟩
  have hnotes (b : Bool) := h.notified.append ⟨s.consumed,ev.chid,b,notify⟩ rfl
    ⟨ev,xfer,hev,rfl,hxfer,hdata xfer hxfer⟩
  have hrun : processEvtRe callback s =
      if callback ∧ (ch.dir = .fromGsi ∨ ch.txPoll) then
        {s with
          chan := Function.update s.chan ev.chid ch
          notes := s.notes++[⟨s.consumed,ev.chid,ch.consumes callback,notify⟩]}
      else
        {s with
          chan := Function.update s.chan ev.chid ch
          notes := s.notes++[⟨s.consumed,ev.chid,ch.consumes callback,notify⟩]
          evtr := incrRingWp (incrRingRp s.evtr)
          evtCompleted := s.evtCompleted+1
          consumed := s.consumed+1} := by
    simp only [processEvtRe,hslot,← hevt,hchid,hproc]
  rw [hrun]
  refine ⟨c',?_⟩
  by_cases hcb : (s.chan ev.chid).consumes callback = true
  · rw [hcb] at hcons
    have hif : ¬ (callback ∧ (ch.dir = .fromGsi ∨ ch.txPoll)) := fun hh => by
      rw [consumes_false_iff.mpr hh] at hcons
      cases hcons
    rw [if_neg hif,hcons]
    refine ⟨⟨hpos',hcounts',h.evtr.of_dims rfl,incrRingRp_rpLocal h.evtr h.rpLocal,h.rp,hlt,
      h.le_events,?_,hwritten.mono (Nat.le_succ _) (le_refl _),h.ordered,h.hw,?_,
      (hnotes true).1,?_,(hnotes true).2.2,?_⟩,rfl,rfl,fun _ => rfl⟩
    · have hp := h.pending
      exact lt_of_lt_of_le hp (Nat.add_le_add_right (Nat.le_succ _) _)
    · intro x
      left
      rw [take_succ_of_getElem? hev,covered_append]
      by_cases hx : ev.chid = x
      · rw [if_pos hx,← hx,hc',Function.update_self,hd,if_pos hcb]
      · rw [if_neg hx,hc',Function.update_of_ne (Ne.symm hx)]
        exact hother x (Ne.symm hx)
    · intro note hnote
      exact le_trans ((hnotes true).2.1 note hnote) (Nat.le_succ _)
    · simp only [List.filter_append,List.map_append,h.notified.once,List.range_succ]
      rfl
  · have hcb' : (s.chan ev.chid).consumes callback = false := by simpa using hcb
    rw [hcb'] at hcons
    have hif : callback ∧ (ch.dir = .fromGsi ∨ ch.txPoll) := consumes_false_iff.mp hcons
    rw [if_pos hif,hcons]
    refine ⟨⟨hpos',hcounts',h.evtr,h.rpLocal,h.rp,h.consumed_le,h.le_events,h.pending,hwritten,
      h.ordered,h.hw,?_,(hnotes false).1,(hnotes false).2.1,(hnotes false).2.2,?_⟩,rfl,rfl,
      fun hf => ?_⟩
    · intro x
      by_cases hx : x = ev.chid
      · right
        refine ⟨ev,hev,hx.symm,?_⟩
        rw [hx,hc',Function.update_self,hd,if_neg hcb]
      · left
        rw [hc',Function.update_of_ne hx]
        exact hother x hx
    · simp only [List.filter_append,List.map_append,h.notified.once]
      simp
    · rw [hf] at hif
      exact absurd hif.1 (by decide)

theorem updateRp_inv (h : Inv s c m) : Inv (updateRp s) c s.events.length := by
  have hpos := Ring.Wf.size_pos s.evtr
  have hrp : readRp s.evtr (hwEventRp s) = hwEventRp s :=
    h.evtr.readRp_addr (Nat.mod_lt _ hpos) (Nat.mod_lt _ hpos) h.rp
  exact ⟨h.pos,h.counts,h.evtr.of_dims rfl,h.rpLocal,hrp,le_trans h.consumed_le h.le_events,
    le_refl _,h.pending,h.written,h.ordered,h.hw,h.start,
    ⟨h.notified.data,h.notified.bound,h.notified.sorted,h.notified.once⟩⟩

/-- The event ring is seen empty exactly when no event read so far waits. -/
theorem rp_eq_iff (h : Inv s c m) : s.evtr.rp = s.evtr.rpLocal ↔ m = s.consumed := by
  rw [h.rp,h.rpLocal]
  have hp := h.pending
  have hm := h.le_events
  constructor
  · intro he
    exact (slot_inj h.consumed_le (by omega) (h.evtr.addr_inj he).symm).symm
  · rintro rfl
    rfl

theorem callbackRound_inv (h : Inv s c m) : ∃ c', Inv (callbackRound s) c' m := by
  unfold callbackRound
  by_cases hrp : s.evtr.rpLocal = s.evtr.rp
  · rw [if_neg (not_not.mpr hrp)]
    exact ⟨c,h⟩
  · rw [if_pos hrp]
    have hne : m ≠ s.consumed := fun hm => hrp ((rp_eq_iff h).mpr hm).symm
    have hle := h.consumed_le
    obtain ⟨c',hinv,-⟩ := processEvtRe_spec h (by omega) true
    exact ⟨c',hinv⟩

theorem ringEvtDoorbell_inv (h : Inv s c m) : Inv (ringEvtDoorbell s) c m :=
  ⟨h.pos,h.counts,h.evtr.of_dims rfl,h.rpLocal,h.rp,h.consumed_le,h.le_events,h.pending,h.written,
    h.ordered,h.hw,h.start,
    ⟨h.notified.data,h.notified.bound,h.notified.sorted,h.notified.once⟩⟩

/-- Polling consumes events one after the other. -/
theorem poll_iterate (n : ℕ) (h : Inv s c m) (hn : s.consumed+n ≤ m) :
    ∃ c', Inv ((processEvtRe false)^[n] s) c' m := by
  induction n generalizing s c with
  | zero => exact ⟨c,h⟩
  | succ n ih =>
    obtain ⟨c',hinv,-,-,hnext⟩ := processEvtRe_spec h (by omega) false
    rw [Function.iterate_succ_apply]
    refine ih hinv ?_
    rw [hnext rfl]
    omega

/-- What a poll does once the read pointer is up to date. -/
theorem poll_rest (expectedNum : ℕ) (h : Inv s c m) :
    ∃ c', Inv (if s.evtr.rp = s.evtr.rpLocal then (s,0,Status.pollEmpty) else
      ((processEvtRe false)^[min (getCompleteNum s.evtr s.evtr.rpLocal s.evtr.rp) expectedNum] s,
        min (getCompleteNum s.evtr s.evtr.rpLocal s.evtr.rp) expectedNum,Status.success)).1 c' m := by
  split_ifs with hempty
  · exact ⟨c,h⟩
  have hpos := Ring.Wf.size_pos s.evtr
  have hne : m ≠ s.consumed := fun hm => hempty ((rp_eq_iff h).mpr hm)
  have hle := h.consumed_le
  have hpend := h.pending
  have hev := h.le_events
  have hslot : s.consumed%s.evtr.size ≠ m%s.evtr.size := slot_ne (by omega) (by omega)
  have hnum : getCompleteNum s.evtr s.evtr.rpLocal s.evtr.rp = m-s.consumed := by
    rw [h.rpLocal,h.rp,h.evtr.completeNum_addr (Nat.mod_lt _ hpos) (Nat.mod_lt _ hpos) hslot]
    exact dist_slots hpos hle (by omega)
  exact poll_iterate _ h (by omega)

theorem pollNChannel_inv (expectedNum : ℕ) (h : Inv s c m) :
    ∃ c' m', Inv (pollNChannel expectedNum s).1 c' m' := by
  by_cases hz : expectedNum = 0
  · rw [pollNChannel,if_pos hz]
    exact ⟨c,m,h⟩
  rw [pollNChannel,if_neg hz]
  by_cases hread : s.evtr.rp = s.evtr.rpLocal
  · rw [if_pos hread]
    obtain ⟨c',hinv⟩ := poll_rest expectedNum (updateRp_inv h)
    exact ⟨c',_,hinv⟩
  · obtain ⟨c',hinv⟩ := poll_rest expectedNum h
    rw [if_neg hread]
    exact ⟨c',m,hinv⟩

/-- The hardware writes one event behind the others, for elements that were queued. -/
theorem hwComplete_inv {x : ι} {k len code : ℕ} (h : Inv s c m)
    (hl : HwLegal s (.hwComplete x k len code)) : Inv (hwComplete x k len code s) c m := by
  obtain ⟨hk,hsent,hroom⟩ := hl
  have hcons : s.consumed ≤ s.events.length := le_trans h.consumed_le h.le_events
  have hsize : s.evtr.size = s.evtr.maxNumElem+1 := rfl
  have hlen : (s.events++[(⟨x,covered x s.events+k-1⟩ : Event ι)]).length = s.events.length+1 := by
    simp
  set ev : Event ι := ⟨x,covered x s.events+k-1⟩ with hev
  have hgrow : ∀ (i : ℕ) (e : Event ι), s.events[i]? = some e → (s.events++[ev])[i]? = some e := by
    intro i e hi
    obtain ⟨hlt,-⟩ := List.getElem?_eq_some_iff.mp hi
    rw [List.getElem?_append_left hlt]
    exact hi
  have hold : Holds s.evtr.size s.evtRe (EvtOf s.chan (s.events++[ev])) s.consumed
      s.events.length := h.written.imp fun i a _ hi ha e he => by
    rw [List.getElem?_append_left hi] at he
    exact ha e he
  have hnew : EvtOf s.chan (s.events++[ev]) s.events.length
      ⟨(s.chan x).ring.addr (ev.no%(s.chan x).ring.size),len,code,x⟩ := by
    intro e he
    rw [List.getElem?_append_right (le_refl _),Nat.sub_self] at he
    obtain rfl : ev = e := by simpa using he
    exact ⟨rfl,rfl⟩
  refine ⟨h.pos,h.counts,h.evtr,h.rpLocal,h.rp,h.consumed_le,?_,?_,?_,?_,?_,?_,?_⟩
  · simp only [hwComplete]
    rw [hlen]
    exact Nat.le_succ_of_le h.le_events
  · simp only [hwComplete]
    rw [hlen]
    omega
  · simp only [hwComplete]
    rw [hlen]
    exact hold.push h.pending hnew
  · refine h.ordered.append ?_
    simp only
    omega
  · intro y
    simp only [hwComplete]
    rw [covered_append]
    split_ifs with hy
    · simp only at hy
      subst hy
      simp only
      omega
    · exact h.hw y
  · intro y
    simp only [hwComplete]
    rw [List.take_append_of_le_length hcons]
    rcases h.start y with hs | ⟨e,he,hx,hc⟩
    · exact Or.inl hs
    · exact Or.inr ⟨e,hgrow _ e he,hx,hc⟩
  · refine ⟨fun note hnote => ?_,h.notified.bound,h.notified.sorted,h.notified.once⟩
    obtain ⟨e,xfer,he,hx,hxfer,hdata⟩ := h.notified.data note hnote
    exact ⟨e,xfer,hgrow _ e he,hx,hxfer,hdata⟩

theorem queueXfer_inv {x : ι} {xfers : List XferElem} {ringDb : Bool} (h : Inv s c m) :
    Inv (step s (.queueXfer x xfers ringDb)) c m := by
  obtain ⟨ch,evtr,status,heq,hsame,hptr,hok,hno,-⟩ :=
    queueXfer_spec s.evtr (h.pos x) (h.counts x) xfers ringDb
  have hstep : step s (.queueXfer x xfers ringDb) = {s with
      chan := Function.update s.chan x ch
      evtr := evtr
      sent := if status = .success then Function.update s.sent x (s.sent x++xfers)
        else s.sent} := by
    simp only [step,heq]
  set sent := if status = .success then Function.update s.sent x (s.sent x++xfers) else s.sent
    with hsent
  have hboth : Positions ch (sent x) (c x) ∧ Counts ch (sent x) (c x) := by
    by_cases hst : status = .success
    · rw [hsent,if_pos hst,Function.update_self]
      exact hok hst
    · rw [hsent,if_neg hst]
      exact hno hst
  have hkeep : ∀ y, y ≠ x → sent y = s.sent y := by
    intro y hy
    rw [hsent]
    split_ifs
    · exact Function.update_of_ne hy _ _
    · rfl
  have hpre : ∀ y, s.sent y <+: sent y := by
    intro y
    rw [hsent]
    split_ifs
    · by_cases hy : y = x
      · rw [hy,Function.update_self]
        exact List.prefix_append _ _
      · rw [Function.update_of_ne hy]
    · exact List.prefix_rfl
  rw [hstep]
  refine ⟨?_,?_,h.evtr.of_dims hptr.dims,?_,?_,h.consumed_le,h.le_events,?_,?_,h.ordered,?_,
    h.start,?_⟩
  · intro y
    by_cases hy : y = x
    · rw [hy]
      simp only [Function.update_self]
      exact hboth.1
    · simp only [Function.update_of_ne hy,hkeep y hy]
      exact h.pos y
  · intro y
    by_cases hy : y = x
    · rw [hy]
      simp only [Function.update_self]
      exact hboth.2
    · simp only [Function.update_of_ne hy,hkeep y hy]
      exact h.counts y
  · simp only
    rw [hptr.rpLocal,h.rpLocal,Ring.addr_of_dims hptr.dims,Ring.size_of_dims hptr.dims]
  · simp only
    rw [hptr.rp,h.rp,Ring.addr_of_dims hptr.dims,Ring.size_of_dims hptr.dims]
  · simp only
    rw [Ring.size_of_dims hptr.dims]
    exact h.pending
  · simp only
    rw [Ring.size_of_dims hptr.dims]
    exact h.written.imp fun i a _ _ ha => evtOf_update hsame ha
  · intro y
    exact le_trans (h.hw y) (hpre y).length_le
  · refine ⟨fun note hnote => ?_,h.notified.bound,h.notified.sorted,h.notified.once⟩
    obtain ⟨e,xfer,he,hx,hxfer,hdata⟩ := h.notified.data note hnote
    exact ⟨e,xfer,he,hx,getElem?_of_isPre (hpre _) hxfer,hdata⟩

/-- The elements of a channel queued and not yet reported complete by an event taken off the
event ring. -/
def unreported (s : Driver ι) (x : ι) : ℕ :=
  (s.sent x).length-covered x (s.events.take s.consumed)

/-- The accounts of a state: the statistics and the ring agree in every state, and with the
elements not yet reported once no event waits; a queueing succeeds exactly when it fits; what
is counted outstanding is intact in ring and user data; and every notification is of the
element its event names, in queueing order. -/
structure Accounts (s : Driver ι) : Prop where
  counted : ∀ x, sub64 (s.chan x).queued (s.chan x).completed = (s.chan x).ring.used
  polled : s.consumed = s.events.length → ∀ x, (s.chan x).ring.used = unreported s x
  room : ∀ x xfers ringDb, (∀ xfer ∈ xfers, xfer.Valid) →
    ((queueXfer (s.chan x) s.evtr xfers ringDb).2.2 = .success ↔
      xfers.length ≤ (s.chan x).ring.maxNumElem-(s.chan x).ring.used)
  intact : ∀ x i xfer, (s.sent x)[i]? = some xfer →
    (s.sent x).length-(s.chan x).ring.used ≤ i →
    treOf xfer = some ((s.chan x).tre (i%(s.chan x).ring.size)) ∧
      ((s.chan x).userData (i%(s.chan x).ring.size)).p = xfer.xferUserData
  notified : Notified s
  inOrder : ∀ (i j : ℕ) (ev ev' : Event ι), i < j → s.events[i]? = some ev → s.events[j]? = some ev' →
    ev.chid = ev'.chid → ev.no < ev'.no

theorem Inv.accounts (h : Inv s c m) : Accounts s := by
  have hused := fun x => (h.pos x).used_eq
  refine ⟨fun x => ?_,fun hall x => ?_,fun x xfers ringDb hv => ?_,fun x i xfer hx hi => ?_,
    h.notified,fun i j ev ev' hij hi hj hx => h.ordered.lt hij hi hj hx⟩
  · have hlt := (h.pos x).lt
    have hsmall := (h.pos x).wf.small
    rw [hused x]
    exact (h.counts x).sub (h.pos x).le (by omega)
  · rcases h.start x with hs | ⟨ev,hev,-⟩
    · rw [hused x,unreported,hs]
    · rw [hall,List.getElem?_eq_none (le_refl _)] at hev
      cases hev
  · obtain ⟨ch,evtr,status,heq,-,-,-,-,hiff⟩ :=
      queueXfer_spec s.evtr (h.pos x) (h.counts x) xfers ringDb
    rw [heq]
    exact hiff hv
  · have hle := (h.pos x).le
    have hlt : i < (s.sent x).length := (List.getElem?_eq_some_iff.mp hx).1
    rw [hused x] at hi
    exact (h.pos x).data i (by omega) hlt xfer hx

theorem step_inv {op : Op ι} (h : Inv s c m) (hl : HwLegal s op) :
    ∃ c' m', Inv (step s op) c' m' := by
  cases op with
  | queueXfer x xfers ringDb => exact ⟨c,m,queueXfer_inv h⟩
  | hwComplete x k len code => exact ⟨c,m,hwComplete_inv h hl⟩
  | updateRp => exact ⟨c,_,updateRp_inv h⟩
  | callbackRound =>
    obtain ⟨c',hinv⟩ := callbackRound_inv h
    exact ⟨c',m,hinv⟩
  | ringEvtDoorbell => exact ⟨c,m,ringEvtDoorbell_inv h⟩
  | pollNChannel expectedNum => exact pollNChannel_inv expectedNum h

/-- The channels' and the event ring's properties passed the checks of their allocation. -/
def ChanProps.Valid (props : ChanProps) : Prop :=
  ValidRing props.ringBaseAddr props.ringLen props.reSize

instance (props : ChanProps) : Decidable props.Valid :=
  inferInstanceAs (Decidable (ValidRing _ _ _))

theorem dims_primed (r : Ring) (w : ℕ) : {r with wpLocal := w, wp := w}.dims = r.dims := rfl

theorem allocEvtRing_dims (ringBaseAddr ringLen reSize : ℕ) :
    (allocEvtRing ringBaseAddr ringLen reSize).dims =
      (initRing ringBaseAddr ringLen reSize).dims := by
  unfold allocEvtRing
  exact dims_primed _ _

theorem allocated_inv {props : ι → ChanProps} (hprops : ∀ x, (props x).Valid)
    {evtBase evtLen evtSize : ℕ} (hevt : ValidRing evtBase evtLen evtSize) (evt : Evt ι) :
    Inv (allocated props evtBase evtLen evtSize evt) (fun _ => 0) 0 := by
  have hzero : ∀ r : Ring, r.base = r.addr (0%r.size) := by
    intro r
    rw [Nat.zero_mod,Ring.addr,Nat.zero_mul,Nat.add_zero]
  have hwf := initRing_wf hevt
  refine ⟨fun x => ⟨initRing_wf (hprops x),hzero (props x).alloc.ring,
      hzero (props x).alloc.ring,le_refl 0,?_,?_⟩,
    fun x => ⟨rfl,rfl⟩,hwf.of_dims (allocEvtRing_dims _ _ _),
    hzero (allocEvtRing evtBase evtLen evtSize),hzero (allocEvtRing evtBase evtLen evtSize),
    le_refl 0,le_refl 0,?_,?_,?_,
    fun x => le_refl 0,fun x => Or.inl rfl,
    ⟨(fun _ h => by cases h),(fun _ h => by cases h),List.Pairwise.nil,rfl⟩⟩
  · exact Nat.lt_of_lt_of_le (Nat.succ_pos _) (Nat.le_add_left _ _)
  · exact Holds.empty _ _ _ 0
  · exact Nat.lt_of_lt_of_le (Nat.succ_pos _) (Nat.le_add_left _ _)
  · exact Holds.empty _ _ _ 0
  · intro i ev hi
    simp [allocated] at hi

/-- An element of the run below. -/
def xferOf (data : ℕ) : XferElem := ⟨4096,64,false,true,false,false,.data,data⟩

end Gsi
end MarbleModules
