import MarbleModules.GsiXfer

/-! What `gsi_queue_xfer` leaves behind when it rejects a list of elements: it takes back the
write pointer only. -/
namespace MarbleModules
namespace Gsi

open Overwrites

section Gci

/-- The places of the user data of a GCI channel that are free. -/
def freeCookies (c : ChanCtx) : ℕ :=
  ((Finset.range (c.chan.ring.maxNumElem+1+veidMax)).filter
    fun i => (c.chan.userData i).valid = false).card

variable {c d : ChanCtx} {xfer : XferElem}

theorem freeCookies_pos : 0 < freeCookies c ↔
    ∃ k < c.chan.ring.maxNumElem+1+veidMax,(c.chan.userData k).valid = false := by
  rw [freeCookies,Finset.card_pos]
  constructor
  · rintro ⟨k,hk⟩
    obtain ⟨hk,hv⟩ := Finset.mem_filter.mp hk
    exact ⟨k,Finset.mem_range.mp hk,hv⟩
  · rintro ⟨k,hk,hv⟩
    exact ⟨k,Finset.mem_filter.mpr ⟨Finset.mem_range.mpr hk,hv⟩⟩

/-- A free place of the user data was taken. -/
structure Takes (c d : ChanCtx) (k : ℕ) : Prop where
  lt : k < c.chan.ring.maxNumElem+1+veidMax
  free : (c.chan.userData k).valid = false
  chan : d.chan = (c.takeCookie k).chan
  prot : d.prot = c.prot
  state : d.state = c.state

theorem getGciCookie_some {idx : ℕ} (hidx : idx < c.chan.ring.maxNumElem+1)
    (h : 0 < freeCookies c) : ∃ d k,getGciCookie c idx = some (d,k) ∧ Takes c d k := by
  rw [getGciCookie]
  by_cases hslot : (c.chan.userData idx).valid = false
  · exact ⟨_,idx,by simp [hslot],by omega,hslot,rfl,rfl,rfl⟩
  · simp only [Bool.not_eq_true',hslot]
    cases hesc : (List.range veidMax).find?
        fun i => !(c.chan.userData (c.chan.ring.maxNumElem+1+i)).valid with
    | some i =>
      have hi := List.mem_range.mp (List.mem_of_find?_eq_some hesc)
      have hfree := List.find?_some hesc
      exact ⟨_,_,rfl,by omega,by simpa using hfree,rfl,rfl,rfl⟩
    | none =>
      cases hany : (List.range (c.chan.ring.maxNumElem+1)).find?
          fun i => !(c.chan.userData i).valid with
      | some i =>
        have hi := List.mem_range.mp (List.mem_of_find?_eq_some hany)
        have hfree := List.find?_some hany
        exact ⟨_,_,rfl,by omega,by simpa using hfree,rfl,rfl,rfl⟩
      | none =>
        obtain ⟨k,hk,hv⟩ := freeCookies_pos.mp h
        rw [List.find?_eq_none] at hesc hany
        by_cases hlt : k < c.chan.ring.maxNumElem+1
        · exact absurd (by simp [hv]) (hany k (List.mem_range.mpr hlt))
        · have hback : c.chan.ring.maxNumElem+1+(k-(c.chan.ring.maxNumElem+1)) = k := by omega
          have hin := hesc (k-(c.chan.ring.maxNumElem+1)) (List.mem_range.mpr (by omega))
          rw [hback] at hin
          exact absurd (by simp [hv]) hin

theorem getGciCookie_none {idx : ℕ} (hidx : idx < c.chan.ring.maxNumElem+1)
    (h : freeCookies c = 0) : getGciCookie c idx = none := by
  have hall : ∀ k < c.chan.ring.maxNumElem+1+veidMax,(c.chan.userData k).valid = true := by
    intro k hk
    by_contra hv
    have hpos := freeCookies_pos.mpr ⟨k,hk,by simpa using hv⟩
    omega
  have hesc : ((List.range veidMax).find?
      fun i => !(c.chan.userData (c.chan.ring.maxNumElem+1+i)).valid) = none := by
    rw [List.find?_eq_none]
    intro i hi
    have hlt := List.mem_range.mp hi
    simp [hall (c.chan.ring.maxNumElem+1+i) (by omega)]
  have hany : ((List.range (c.chan.ring.maxNumElem+1)).find?
      fun i => !(c.chan.userData i).valid) = none := by
    rw [List.find?_eq_none]
    intro i hi
    have hlt := List.mem_range.mp hi
    simp [hall i (by omega)]
  simp only [getGciCookie,hall idx (by omega),Bool.not_true,Bool.false_eq_true,if_false,hesc,
    hany]

/-- A number of elements were written to a GCI channel, each for one of the free places. -/
structure Spends (c d : ChanCtx) (m : ℕ) : Prop where
  prot : d.prot = c.prot
  state : d.state = c.state
  queued : d.chan.queued = c.chan.queued
  maxNumElem : d.chan.ring.maxNumElem = c.chan.ring.maxNumElem
  cookies : freeCookies d+m = freeCookies c

theorem Spends.ne {m : ℕ} (h : Spends c d m) (hm : 0 < m) :
    d.chan.userData ≠ c.chan.userData := by
  intro heq
  have hsame : freeCookies d = freeCookies c := by
    rw [freeCookies,freeCookies,heq,h.maxNumElem]
  have hc := h.cookies
  omega

/-- The write pointer of the ring is at one of its slots. -/
def InRing (r : Ring) : Prop := r.Wf ∧ ∃ k,r.wpLocal = r.addr (k%r.size)

theorem InRing.next {r : Ring} (h : InRing r) : InRing (incrRingWp r) := by
  obtain ⟨hwf,k,hk⟩ := h
  exact ⟨hwf.of_dims rfl,k+1,incrRingWp_wpLocal hwf hk⟩

theorem InRing.idx_lt {r : Ring} (h : InRing r) : findIdxFromAddr r r.wpLocal < r.size := by
  obtain ⟨hwf,k,hk⟩ := h
  have hlt : k%r.size < r.size := Nat.mod_lt _ (Ring.Wf.size_pos r)
  rw [hk,hwf.findIdx_addr hlt]
  exact hlt

theorem populate_gci_invalid (hp : c.prot = .gci) (hx : ¬ Accepts .gci xfer) :
    populate c xfer = .error c := by
  rw [populate,if_pos hp,populateGciTre]
  by_cases haddr : xfer.addr &&& addrTooLarge = 0
  · have htype : xfer.type ≠ .data := fun ht => hx ⟨haddr,ht⟩
    rw [if_neg (not_not.mpr haddr),if_pos htype]
  · rw [if_pos haddr]

theorem populate_gci (hp : c.prot = .gci) (hr : InRing c.chan.ring) (hx : Accepts .gci xfer)
    (h : 0 < freeCookies c) :
    ∃ d,populate c xfer = .done d ∧ d.chan.ring = c.chan.ring ∧ Spends c d 1 := by
  obtain ⟨haddr,htype⟩ := hx
  obtain ⟨d,k,hcookie,ht⟩ := getGciCookie_some hr.idx_lt h
  have hlim : ¬ d.chan.ring.maxNumElem+veidMax < k := by
    have hlt := ht.lt
    rw [ht.chan]
    simp only [ChanCtx.takeCookie]
    omega
  rw [populate,if_pos hp,populateGciTre,if_neg (not_not.mpr haddr),if_neg (not_not.mpr htype)]
  simp only [hcookie,if_neg hlim]
  refine ⟨_,rfl,by rw [ht.chan]; rfl,ht.prot,ht.state,by rw [ht.chan]; rfl,by rw [ht.chan]; rfl,?_⟩
  have hmem : k ∈ (Finset.range (c.chan.ring.maxNumElem+1+veidMax)).filter
      fun i => (c.chan.userData i).valid = false :=
    Finset.mem_filter.mpr ⟨Finset.mem_range.mpr ht.lt,ht.free⟩
  rw [freeCookies,freeCookies,← Finset.card_erase_add_one hmem]
  congr 2
  ext i
  rw [ht.chan]
  by_cases hik : i = k
  · subst hik
    simp [ChanCtx.takeCookie]
  · simp [ChanCtx.takeCookie,hik]

theorem populate_gci_bug (hp : c.prot = .gci) (hr : InRing c.chan.ring)
    (hx : Accepts .gci xfer) (h : freeCookies c = 0) : populate c xfer = .bug := by
  obtain ⟨haddr,htype⟩ := hx
  rw [populate,if_pos hp,populateGciTre,if_neg (not_not.mpr haddr),if_neg (not_not.mpr htype)]
  simp only [getGciCookie_none hr.idx_lt h]

theorem populateAll_gci (hp : c.prot = .gci) (hr : InRing c.chan.ring)
    (pre post : List XferElem) (hpre : ∀ x ∈ pre,Accepts .gci x)
    (h : pre.length ≤ freeCookies c) :
    ∃ d,populateAll c (pre++post) = populateAll d post ∧ Spends c d pre.length ∧
      (pre = [] → d = c) := by
  induction pre generalizing c with
  | nil => exact ⟨c,rfl,⟨rfl,rfl,rfl,rfl,rfl⟩,fun _ => rfl⟩
  | cons x pre ih =>
    rw [List.length_cons] at h
    obtain ⟨d,hd,hring,hs⟩ := populate_gci hp hr (hpre x List.mem_cons_self) (by omega)
    have hs' : Spends c (d.setRing (incrRingWp d.chan.ring)) 1 :=
      ⟨hs.prot,hs.state,hs.queued,hs.maxNumElem,hs.cookies⟩
    have hcookies := hs'.cookies
    obtain ⟨e,he,hse,-⟩ := ih (hs'.prot.trans hp) (hring ▸ hr.next)
      (fun y hy => hpre y (List.mem_cons_of_mem x hy)) (by omega)
    have hcookies' := hse.cookies
    refine ⟨e,?_,⟨hse.prot.trans hs'.prot,hse.state.trans hs'.state,hse.queued.trans hs'.queued,
      hse.maxNumElem.trans hs'.maxNumElem,?_⟩,fun hnil => absurd hnil (List.cons_ne_nil _ _)⟩
    · rw [List.cons_append,populateAll,hd]
      exact he
    · rw [List.length_cons]
      omega

theorem populateAll_gci_bug (hp : c.prot = .gci) (hr : InRing c.chan.ring)
    (pre post : List XferElem) (hpre : ∀ x ∈ pre,Accepts .gci x)
    (h : freeCookies c < pre.length) : populateAll c (pre++post) = .bug := by
  induction pre generalizing c with
  | nil => exact absurd h (Nat.not_lt_zero _)
  | cons x pre ih =>
    have hx := hpre x List.mem_cons_self
    rw [List.cons_append,populateAll]
    by_cases h0 : freeCookies c = 0
    · rw [populate_gci_bug hp hr hx h0]
    · obtain ⟨d,hd,hring,hs⟩ := populate_gci hp hr hx (by omega)
      have hs' : Spends c (d.setRing (incrRingWp d.chan.ring)) 1 :=
        ⟨hs.prot,hs.state,hs.queued,hs.maxNumElem,hs.cookies⟩
      have hcookies := hs'.cookies
      rw [List.length_cons] at h
      rw [hd]
      exact ih (hs'.prot.trans hp) (hring ▸ hr.next)
        (fun y hy => hpre y (List.mem_cons_of_mem x hy)) (by omega)

end Gci

section Reject

/-- Write pointer, user data and counts are as they were. -/
structure Untouched (c c' : ChanCtx) : Prop where
  wpLocal : c'.chan.ring.wpLocal = c.chan.ring.wpLocal
  userData : c'.chan.userData = c.chan.userData
  queued : c'.chan.queued = c.chan.queued
  userdataInUse : c'.userdataInUse = c.userdataInUse

/-- An error of `gsi_queue_xfer` leaves the channel untouched. -/
def RejectsClean (c : ChanCtx) (evtr : Option Ring) (reported : ℕ) (xfers : List XferElem)
    (ringDb : Bool) : Prop :=
  ∀ c' evtr' status,queueXferAny c evtr reported xfers ringDb = some (c',evtr',status) →
    status ≠ .success → Untouched c c'

/-- Where the list comes to be written and has an element that the channel cannot take: on a
GPI channel the slots of the elements before it hold their user data already, and on a GCI
channel there are none before it, or more than there are free places. -/
def NothingTaken (c : ChanCtx) (evtr : Option Ring) (reported : ℕ) (xfers : List XferElem) :
    Prop :=
  ∀ pre x post,xfers = pre++x::post → (∀ y ∈ pre,Accepts c.prot y) → ¬ Accepts c.prot x →
    c.state ≠ .notAllocated →
    (c.prot = .gpi → xfers.length ≤ (queryFreeRe c evtr reported).2 →
      Restores c.chan.userData (slotWrites c.chan.ring pre)) ∧
    (c.prot = .gci → pre = [] ∨ freeCookies c < pre.length)

variable {c : ChanCtx} {evtr : Option Ring} {reported : ℕ} {xfers : List XferElem}
  (ringDb : Bool)

/-- A list is accepted, or has a first element that is not. -/
theorem accepts_or_first (prot : ChanProt) (xfers : List XferElem) :
    (∀ x ∈ xfers,Accepts prot x) ∨
      ∃ pre x post,xfers = pre++x::post ∧ (∀ y ∈ pre,Accepts prot y) ∧ ¬ Accepts prot x := by
  induction xfers with
  | nil => exact Or.inl fun x hx => absurd hx List.not_mem_nil
  | cons x xfers ih =>
    by_cases hx : Accepts prot x
    · rcases ih with hall | ⟨pre,y,post,rfl,hpre,hy⟩
      · exact Or.inl (List.forall_mem_cons.mpr ⟨hx,hall⟩)
      · exact Or.inr ⟨x::pre,y,post,rfl,List.forall_mem_cons.mpr ⟨hx,hpre⟩,hy⟩
    · exact Or.inr ⟨[],x,xfers,rfl,fun y hy => absurd hy List.not_mem_nil,hx⟩

/-- The channel once it was asked for its free elements: the ring's read pointer may be new. -/
structure Asked (c d : ChanCtx) : Prop where
  prot : d.prot = c.prot
  state : d.state = c.state
  ring : ∃ rp,d.chan.ring = {c.chan.ring with rp := rp}
  untouched : Untouched c d

theorem queryFreeRe_asked (c : ChanCtx) (evtr : Option Ring) (reported : ℕ) :
    Asked c (queryFreeRe c evtr reported).1 := by
  cases evtr with
  | none => exact ⟨rfl,rfl,⟨_,rfl⟩,rfl,rfl,rfl,rfl⟩
  | some r => exact ⟨rfl,rfl,⟨c.chan.ring.rp,rfl⟩,rfl,rfl,rfl,rfl⟩

/-- What is returned once the list was written, or not. -/
def Returns (c : ChanCtx) (evtr : Option Ring)
    (o : Option (ChanCtx × Option Ring × QueueStatus)) : Populated → Prop
  | .done _ => ∃ c' evtr',o = some (c',evtr',.success)
  | .error d =>
    o = some (d.setRing {d.chan.ring with wpLocal := c.chan.ring.wpLocal},evtr,.invalidParams)
  | .bug => o = none

theorem queueXferAny_gpi (hp : c.prot = .gpi) (hs : c.state ≠ .notAllocated) (hne : xfers ≠ [])
    (hfit : xfers.length ≤ (queryFreeRe c evtr reported).2) :
    Returns c evtr (queueXferAny c evtr reported xfers ringDb)
      (populateAll (queryFreeRe c evtr reported).1 xfers) := by
  have hwp := (queryFreeRe_asked c evtr reported).untouched.wpLocal
  simp only [queueXferAny,hs,hp,hne,reduceCtorEq,if_false,hfit,decide_true,Bool.not_true,
    Bool.false_eq_true]
  cases populateAll (queryFreeRe c evtr reported).1 xfers with
  | done d =>
    simp only
    cases ringDb with
    | false => exact ⟨_,_,rfl⟩
    | true => exact ⟨_,_,rfl⟩
  | error d =>
    simp only [hwp]
    rfl
  | bug => rfl

theorem queueXferAny_gci (hp : c.prot = .gci) (hs : c.state ≠ .notAllocated)
    (hne : xfers ≠ []) :
    Returns c evtr (queueXferAny c evtr reported xfers ringDb) (populateAll c xfers) := by
  simp only [queueXferAny,hs,hp,hne,reduceCtorEq,if_false,if_true,Bool.not_true,
    Bool.false_eq_true]
  cases populateAll c xfers with
  | done d =>
    simp only
    cases ringDb with
    | false => exact ⟨_,_,rfl⟩
    | true => exact ⟨_,_,rfl⟩
  | error d => rfl
  | bug => rfl

/-- A GPI channel that rejects the list has written what comes before the bad element. -/
theorem queueXferAny_gpi_invalid (hp : c.prot = .gpi) (hs : c.state ≠ .notAllocated)
    {pre post : List XferElem} {x : XferElem} (hxfers : xfers = pre++x::post)
    (hpre : ∀ y ∈ pre,y.Valid) (hx : ¬ x.Valid)
    (hfit : xfers.length ≤ (queryFreeRe c evtr reported).2) :
    ∃ c',queueXferAny c evtr reported xfers ringDb = some (c',evtr,.invalidParams) ∧
      c'.chan.ring.wpLocal = c.chan.ring.wpLocal ∧ c'.chan.queued = c.chan.queued ∧
      c'.userdataInUse = c.userdataInUse ∧
      c'.chan.userData = writes c.chan.userData (slotWrites c.chan.ring pre) := by
  have hne : xfers ≠ [] := by
    rw [hxfers]
    exact List.append_ne_nil_of_right_ne_nil _ (List.cons_ne_nil _ _)
  have hask := queryFreeRe_asked c evtr reported
  obtain ⟨d,hd,hw⟩ := populateAll_gpi (hask.prot.trans hp) (hask.state ▸ hs) pre (x::post) hpre
  have hret := queueXferAny_gpi ringDb hp hs hne hfit
  have herr : populateAll d (x::post) = .error d := by
    rw [populateAll,populate_gpi_invalid (hw.prot.trans (hask.prot.trans hp)) hx]
  rw [hxfers,hd,herr,← hxfers] at hret
  obtain ⟨rp,hring⟩ := hask.ring
  refine ⟨_,hret,rfl,hw.queued.trans hask.untouched.queued,
    hw.userdataInUse.trans hask.untouched.userdataInUse,?_⟩
  simp only [ChanCtx.setRing]
  rw [hw.userData,hask.untouched.userData,hring,slotWrites_rp]

theorem queueXferAny_gpi_valid (hp : c.prot = .gpi) (hs : c.state ≠ .notAllocated)
    (hall : ∀ x ∈ xfers,x.Valid) (hfit : xfers.length ≤ (queryFreeRe c evtr reported).2) :
    ∃ c' evtr',queueXferAny c evtr reported xfers ringDb = some (c',evtr',.success) := by
  by_cases hne : xfers = []
  · simp only [queueXferAny,hs,hp,hne,reduceCtorEq,if_false,if_true]
    cases ringDb with
    | false => exact ⟨_,_,rfl⟩
    | true => exact ⟨_,_,rfl⟩
  · have hask := queryFreeRe_asked c evtr reported
    obtain ⟨d,hd,-⟩ := populateAll_gpi (hask.prot.trans hp) (hask.state ▸ hs) xfers [] hall
    have hret := queueXferAny_gpi ringDb hp hs hne hfit
    rw [List.append_nil] at hd
    rwa [hd] at hret

theorem queueXferAny_gpi_full (hp : c.prot = .gpi) (hs : c.state ≠ .notAllocated)
    (hfull : ¬ xfers.length ≤ (queryFreeRe c evtr reported).2) :
    queueXferAny c evtr reported xfers ringDb =
      some ((queryFreeRe c evtr reported).1,evtr,.ringInsufficientSpace) := by
  have hne : xfers ≠ [] := by
    rintro rfl
    exact hfull (Nat.zero_le _)
  simp only [queueXferAny,hs,hp,hne,reduceCtorEq,if_false,hfull,decide_false,Bool.not_false,
    if_true]

theorem rejectsClean_gpi (hp : c.prot = .gpi) (hs : c.state ≠ .notAllocated) :
    RejectsClean c evtr reported xfers ringDb ↔ NothingTaken c evtr reported xfers := by
  by_cases hfit : xfers.length ≤ (queryFreeRe c evtr reported).2
  · constructor
    · rintro h pre x post hxfers hpre hx -
      refine ⟨fun _ _ => ?_,fun hgci => absurd (hp.symm.trans hgci) (by decide)⟩
      rw [hp] at hpre hx
      obtain ⟨c',hq,-,-,-,hdata⟩ := queueXferAny_gpi_invalid ringDb hp hs hxfers hpre hx hfit
      rw [← writes_eq_iff,← hdata]
      exact (h c' evtr _ hq (by decide)).userData
    · intro h c' evtr' status hq hst
      rcases accepts_or_first c.prot xfers with hall | ⟨pre,x,post,hxfers,hpre,hx⟩
      · rw [hp] at hall
        obtain ⟨d,evtr'',hd⟩ := queueXferAny_gpi_valid ringDb hp hs hall hfit
        cases hq.symm.trans hd
        exact absurd rfl hst
      · have hrest := (h pre x post hxfers hpre hx hs).1 hp hfit
        rw [hp] at hpre hx
        obtain ⟨d,hd,hwp,hqueued,huse,hdata⟩ :=
          queueXferAny_gpi_invalid ringDb hp hs hxfers hpre hx hfit
        cases hq.symm.trans hd
        exact ⟨hwp,hdata.trans (writes_eq_iff.mpr hrest),hqueued,huse⟩
  · refine iff_of_true (fun c' evtr' status hq _ => ?_) fun pre x post _ _ _ _ =>
      ⟨fun _ hroom => absurd hroom hfit,fun hgci => absurd (hp.symm.trans hgci) (by decide)⟩
    cases hq.symm.trans (queueXferAny_gpi_full ringDb hp hs hfit)
    exact (queryFreeRe_asked c evtr reported).untouched

theorem queueXferAny_gci_valid (hp : c.prot = .gci) (hs : c.state ≠ .notAllocated)
    (hr : InRing c.chan.ring) (hall : ∀ x ∈ xfers,Accepts .gci x) {c' : ChanCtx}
    {evtr' : Option Ring} {status : QueueStatus}
    (hq : queueXferAny c evtr reported xfers ringDb = some (c',evtr',status)) :
    status = .success := by
  by_cases hne : xfers = []
  · simp only [queueXferAny,hs,hp,hne,reduceCtorEq,if_false,if_true] at hq
    cases ringDb with
    | false => cases hq; rfl
    | true => cases hq; rfl
  · have hret : Returns c evtr (queueXferAny c evtr reported xfers ringDb) _ :=
      queueXferAny_gci ringDb hp hs hne
    by_cases hle : xfers.length ≤ freeCookies c
    · obtain ⟨d,hd,-⟩ := populateAll_gci hp hr xfers [] hall hle
      rw [List.append_nil] at hd
      rw [hd] at hret
      obtain ⟨c'',evtr'',hsome⟩ := hret
      cases hq.symm.trans hsome
      rfl
    · have hbug := populateAll_gci_bug hp hr xfers [] hall (Nat.lt_of_not_le hle)
      rw [List.append_nil] at hbug
      rw [hbug] at hret
      cases hq.symm.trans hret

theorem rejectsClean_gci (hp : c.prot = .gci) (hs : c.state ≠ .notAllocated)
    (hr : InRing c.chan.ring) :
    RejectsClean c evtr reported xfers ringDb ↔ NothingTaken c evtr reported xfers := by
  have hne : ∀ {pre post : List XferElem} {x : XferElem},xfers = pre++x::post → xfers ≠ [] := by
    rintro pre post x rfl
    exact List.append_ne_nil_of_right_ne_nil _ (List.cons_ne_nil _ _)
  constructor
  · rintro h pre x post hxfers hpre hx -
    refine ⟨fun hgpi => absurd (hp.symm.trans hgpi) (by decide),fun _ => ?_⟩
    by_contra hcon
    obtain ⟨hnil,hle⟩ := not_or.mp hcon
    rw [hp] at hpre hx
    obtain ⟨d,hd,hsp,-⟩ := populateAll_gci hp hr pre (x::post) hpre (Nat.le_of_not_lt hle)
    have hret : Returns c evtr (queueXferAny c evtr reported xfers ringDb) _ :=
      queueXferAny_gci ringDb hp hs (hne hxfers)
    have herr : populateAll d (x::post) = .error d := by
      rw [populateAll,populate_gci_invalid (hsp.prot.trans hp) hx]
    rw [hxfers,hd,herr,← hxfers] at hret
    have hdata := (h _ evtr _ hret (by decide)).userData
    exact hsp.ne (List.length_pos_iff.mpr hnil) hdata
  · intro h c' evtr' status hq hst
    rcases accepts_or_first c.prot xfers with hall | ⟨pre,x,post,hxfers,hpre,hx⟩
    · exact absurd (queueXferAny_gci_valid ringDb hp hs hr (hp ▸ hall) hq) hst
    · have hrest := (h pre x post hxfers hpre hx hs).2 hp
      rw [hp] at hpre hx
      have hret : Returns c evtr (queueXferAny c evtr reported xfers ringDb) _ :=
        queueXferAny_gci ringDb hp hs (hne hxfers)
      rcases hrest with rfl | hlt
      · have herr : populateAll c xfers = .error c := by
          rw [hxfers,List.nil_append,populateAll,populate_gci_invalid hp hx]
        rw [herr] at hret
        cases hq.symm.trans hret
        exact ⟨rfl,rfl,rfl,rfl⟩
      · rw [hxfers,populateAll_gci_bug hp hr pre (x::post) hpre hlt,← hxfers] at hret
        cases hq.symm.trans hret

/-- A rejected transfer leaves the channel untouched exactly when nothing was taken for the
elements before the one that is bad. -/
theorem rejectsClean_iff (c : ChanCtx) (evtr : Option Ring) (reported : ℕ)
    (xfers : List XferElem) (ringDb : Bool) (hr : InRing c.chan.ring) :
    RejectsClean c evtr reported xfers ringDb ↔ NothingTaken c evtr reported xfers := by
  by_cases hs : c.state = .notAllocated
  · refine iff_of_true (fun c' evtr' status hq _ => ?_) fun pre x post _ _ _ hs' =>
      absurd hs hs'
    rw [queueXferAny,if_pos hs] at hq
    cases hq
    exact ⟨rfl,rfl,rfl,rfl⟩
  · cases hp : c.prot with
    | gpi => exact rejectsClean_gpi ringDb hp hs
    | gci => exact rejectsClean_gci ringDb hp hs hr
    | other =>
      refine iff_of_true (fun c' evtr' status hq _ => ?_) fun pre x post _ _ _ _ =>
        ⟨fun hgpi => absurd (hp.symm.trans hgpi) (by decide),
          fun hgci => absurd (hp.symm.trans hgci) (by decide)⟩
      rw [queueXferAny,if_neg hs,if_pos hp] at hq
      cases hq
      exact ⟨rfl,rfl,rfl,rfl⟩

end Reject

/-- A channel of four elements after its allocation. -/
def fourElements (prot : ChanProt) : ChanCtx where
  chan := (⟨4096,64,16,.fromGsi,false,0⟩ : ChanProps).alloc
  prot := prot
  state := .started
  gciTre _ := ⟨0,0,0⟩
  userdataInUse := 0

theorem fourElements_inRing (prot : ChanProt) : InRing (fourElements prot).chan.ring :=
  ⟨initRing_wf (by decide),0,by cases prot <;> decide⟩

/-- A data element with a pointer for its user data, at an address. -/
def dataAt (addr p : ℕ) : XferElem := ⟨addr,64,false,false,false,false,.data,p⟩

theorem rejectsClean_fourElements : InRing (fourElements .gci).chan.ring ∧
    (RejectsClean (fourElements .gci) none 4096 [dataAt (2^40) 7,dataAt 8192 8] true ↔
      NothingTaken (fourElements .gci) none 4096 [dataAt (2^40) 7,dataAt 8192 8]) :=
  ⟨fourElements_inRing .gci,
    rejectsClean_iff (fourElements .gci) none 4096 [dataAt (2^40) 7,dataAt 8192 8] true
      (fourElements_inRing .gci)⟩

/-- The cookie of an element before one whose address is too large stays taken. -/
theorem queueXferAny_tooLarge : ¬ ∀ (c : ChanCtx) (evtr : Option Ring) (reported : ℕ)
    (xfers : List XferElem) (ringDb : Bool),InRing c.chan.ring →
    RejectsClean c evtr reported xfers ringDb := by
  intro h
  have hclean := h (fourElements .gci) none 4096 [dataAt 8192 7,dataAt (2^40) 8] true
    (fourElements_inRing .gci)
  have hdata := (hclean _ _ _ rfl (by decide)).userData
  have hvalid := congrArg (fun u : ℕ → UserData => (u 0).valid) hdata
  revert hvalid
  decide

end Gsi
end MarbleModules
