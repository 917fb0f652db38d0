import MarbleModules.BlmEviction
import MarbleModules.Runs

/-! Runs of the blacklist manager: what the reject list looks like in every state and what adding
and querying an access point do, unless a disconnection leaves an entry without a list or the scan
of a full list fails to tell its entries apart. -/
namespace MarbleModules
namespace Blm
open Runs

/-- The reject list and the time. -/
structure State where
  now : ℕ
  list : List RejectAp

/-- The operations, each `dt` milliseconds after the one before. -/
inductive Op
  | add (dt : ℕ) (info : RejectApInfo) (alloc fw : Bool)
  | clearUserspace (dt : ℕ)
  | send (dt : ℕ) (fw : Bool)
  | connected (dt : ℕ) (bssid : ℕ)
  | disconnected (dt : ℕ) (bssid : ℕ) (fw : Bool)
  | query (dt : ℕ) (bssid : ℕ) (rssi : ℤ)

def Op.dt : Op → ℕ
  | .add dt _ _ _ | .clearUserspace dt | .send dt _ | .connected dt _ | .disconnected dt _ _
  | .query dt _ _ => dt

/-- The list after an operation at the time `now`. -/
def Op.apply (cfg : Config) (now : ℕ) (l : List RejectAp) : Op → List RejectAp
  | .add _ info alloc fw => (addBssidToRejectList cfg now info alloc fw l).2
  | .clearUserspace _ => clearUserspaceBlacklistInfo l
  | .send _ fw => sendRejectApListToFw cfg now fw l
  | .connected _ bssid => Blm.connected now bssid l
  | .disconnected _ bssid fw => Blm.disconnected cfg now bssid fw [] l
  | .query _ bssid rssi => (actionOnBssid cfg now bssid rssi l).2

def step (cfg : Config) (s : State) (op : Op) : State :=
  ⟨s.now+op.dt,op.apply cfg (s.now+op.dt) s.list⟩

/-- The empty list at some time. -/
def start (now : ℕ) : State := ⟨now,[]⟩

/-- One access point to blacklist: how long after the one before it is added, whether memory for it
and for the report is there. -/
structure Item where
  dt : ℕ
  bssid : ℕ
  alloc : Bool
  fw : Bool

/-- The `ap_info` that `blm_add_userspace_black_list` makes. -/
def Item.info (i : Item) : RejectApInfo := ⟨i.bssid,⟨0,0,0⟩,.USERSPACE_BLACKLIST⟩

/-- The loop of `blm_add_userspace_black_list`, which ends at the first failure. -/
def addItems (cfg : Config) : List Item → State → Status × State
  | [],s => (.SUCCESS,s)
  | i::is,s =>
    let r := addBssidToRejectList cfg (s.now+i.dt) i.info i.alloc i.fw s.list
    if r.1 = .SUCCESS then addItems cfg is ⟨s.now+i.dt,r.2⟩ else (.E_FAILURE,⟨s.now+i.dt,r.2⟩)

/-- `blm_add_userspace_black_list`. The lock is given up between its steps. -/
def addUserspaceBlackList (cfg : Config) (dt dt' : ℕ) (fw : Bool) (is : List Item) (s : State) :
    Status × State :=
  addItems cfg is (step cfg (step cfg s (.clearUserspace dt)) (.send dt' fw))

/-- Distinct access points, no more than fit, each in some list. -/
structure Sound (s : State) : Prop where
  distinct : (s.list.map RejectAp.bssid).Nodup
  bounded : s.list.length ≤ MAX_BAD_AP_LIST_SIZE
  listed : ∀ e ∈ s.list,e.listed

/-- Every list that an entry is in is over. -/
def AllOver (cfg : Config) (now : ℕ) (rssi : ℤ) (e : RejectAp) : Prop :=
  ∀ t,t ≠ .DRIVER_MONITOR → e.inList t → MembershipOver cfg now (some rssi) t e

/-- Adding fails for want of memory only, and a full list gives up the entry that it should. -/
structure AddCorrect (cfg : Config) (now : ℕ) (info : RejectApInfo) (alloc fw : Bool)
    (l : List RejectAp) : Prop where
  status : alloc → (addBssidToRejectList cfg now info alloc fw l).1 = .SUCCESS
  evicts : (findAndModify cfg now info l).1 = false →
    (findAndModify cfg now info l).2.length = MAX_BAD_AP_LIST_SIZE →
    ∃ l',Evicted cfg now (findAndModify cfg now info l).2 l' ∧
      (addBssidToRejectList cfg now info alloc fw l).2 =
        if alloc then sendRejectApListToFw cfg now fw (l'++[modifyEntry cfg now info newEntry])
        else l'

/-- What an operation is to do in a state. -/
def Correct (cfg : Config) (s : State) (op : Op) : Prop :=
  match op with
  | .add dt info alloc fw => AddCorrect cfg (s.now+dt) info alloc fw s.list
  | .query dt bssid rssi => ∀ e ∈ s.list,e.bssid = bssid → AllOver cfg (s.now+dt) rssi e →
      (actionOnBssid cfg (s.now+dt) bssid rssi s.list).1 = .NO_ACTION
  | _ => True

/-- The access points and types that callers pass. -/
def Op.Valid : Op → Prop
  | .add _ info _ _ => isZero info.bssid = false ∧ isGroup info.bssid = false ∧
      info.type ≠ .DRIVER_BLACKLIST ∧ info.type ≠ .DRIVER_MONITOR
  | _ => True

instance (op : Op) : Decidable op.Valid :=
  match op with
  | .add _ _ _ _ => inferInstanceAs (Decidable (_ ∧ _))
  | .clearUserspace _ | .send _ _ | .connected _ _ | .disconnected _ _ _ | .query _ _ _ =>
    isTrue trivial

/-- What an operation asks of the state: a full list has an entry to give up, and an entry that a
disconnection brings up to date stays in some list or is dropped. -/
def Holds (cfg : Config) (s : State) (op : Op) : Prop :=
  match op with
  | .add dt info _ _ => (findAndModify cfg (s.now+dt) info s.list).1 = false →
      (findAndModify cfg (s.now+dt) info s.list).2.length = MAX_BAD_AP_LIST_SIZE →
      CanEvict cfg (s.now+dt) (findAndModify cfg (s.now+dt) info s.list).2
  | .disconnected dt bssid _ => ∀ e ∈ s.list,e.bssid = bssid →
      (updateApInfo cfg (s.now+dt) none e).listed ∨ disconnectEntry cfg (s.now+dt) e = none
  | _ => True

section Lists
variable {cfg : Config} {now : ℕ} {rssi : Option ℤ} {info : RejectApInfo}

/-- An entry in some list, with no time stamp ahead of the clock. -/
structure Good (now : ℕ) (e : RejectAp) : Prop where
  listed : e.listed
  stamp : ∀ t,e.stamp t ≤ now
  connect : e.connectTimestamp ≤ now

/-- The list `l'` has only access points of `l`, in the same order, and good entries if `l` has. -/
structure Kept (now : ℕ) (l l' : List RejectAp) : Prop where
  bssid : (l'.map RejectAp.bssid).Sublist (l.map RejectAp.bssid)
  good : (∀ e ∈ l,Good now e) → ∀ e ∈ l',Good now e

theorem Kept.refl (l : List RejectAp) : Kept now l l := ⟨List.Sublist.refl _,id⟩

theorem Kept.trans {l l' l'' : List RejectAp} (h : Kept now l l') (h' : Kept now l' l'') :
    Kept now l l'' :=
  ⟨h'.bssid.trans h.bssid,fun hg => h'.good (h.good hg)⟩

theorem Kept.length_le {l l' : List RejectAp} (h : Kept now l l') : l'.length ≤ l.length := by
  simpa using h.bssid.length_le

theorem Kept.cons {e e' : RejectAp} {l l' : List RejectAp} (h : Kept now l l')
    (hb : e'.bssid = e.bssid) (hg : Good now e → Good now e') : Kept now (e::l) (e'::l') where
  bssid := by
    rw [List.map_cons,List.map_cons,hb]
    exact h.bssid.cons_cons _
  good hl x hx := by
    rcases List.mem_cons.mp hx with rfl | hx
    · exact hg (hl e (by simp))
    · exact h.good (fun y hy => hl y (List.mem_cons_of_mem _ hy)) x hx

theorem Kept.skip {e : RejectAp} {l l' : List RejectAp} (h : Kept now l l') :
    Kept now (e::l) l' where
  bssid := h.bssid.cons _
  good hl := h.good fun y hy => hl y (List.mem_cons_of_mem _ hy)

theorem kept_of_sublist {l l' : List RejectAp} (h : l'.Sublist l) : Kept now l l' :=
  ⟨h.map _,fun hg e he => hg e (h.subset he)⟩

theorem good_updateApInfo {e : RejectAp} (h : Good now e)
    (hl : (updateApInfo cfg now rssi e).listed) : Good now (updateApInfo cfg now rssi e) where
  listed := hl
  stamp := updateApInfo_stamp_le h.stamp
  connect := by
    rw [updateApInfo_connectTimestamp]
    exact h.connect

theorem fillRejectList_kept (t : RejectType) (max num : ℕ) (l : List RejectAp) :
    Kept now l (fillRejectList cfg now t max num l).2 := by
  induction l generalizing num with
  | nil => exact Kept.refl _
  | cons e es ih =>
    rw [fillRejectList]
    by_cases hm : num = max
    · rw [if_pos hm]
      exact Kept.refl _
    rw [if_neg hm]
    by_cases hl : (updateApInfo cfg now none e).listed
    · simp only [if_pos hl]
      exact (ih _).cons (updateApInfo_bssid e) fun hg => good_updateApInfo hg hl
    · simp only [if_neg hl]
      exact (ih _).skip

theorem sendRejectApListToFw_kept (fw : Bool) (l : List RejectAp) :
    Kept now l (sendRejectApListToFw cfg now fw l) := by
  rw [sendRejectApListToFw]
  split
  · have hgo : ∀ (ts : List RejectType) (r : ℕ × List RejectAp),Kept now l r.2 →
        Kept now l (ts.foldl (fun r t =>
          fillRejectList cfg now t PDEV_MAX_NUM_BSSID_DISALLOW_LIST r.1 r.2) r).2 := by
      intro ts
      induction ts with
      | nil => exact fun r h => h
      | cons t ts ih => exact fun r h => ih _ (h.trans (fillRejectList_kept ..))
    exact hgo _ (0,l) (Kept.refl l)
  · exact Kept.refl _

theorem listed_of_inList {t : RejectType} {e : RejectAp} (h : e.inList t) : e.listed :=
  listed_iff.mpr ⟨t,h⟩

theorem good_of_enter {e : RejectAp} {t : RejectType} (hs : ∀ t,e.stamp t ≤ now)
    (hc : e.connectTimestamp ≤ now) : Good now (e.enter t now) where
  listed := listed_of_inList (t := t) (by simp)
  stamp t' := by
    rw [enter_stamp]
    split
    · exact le_rfl
    · exact hs t'
  connect := hc

/-- The types that callers pass. -/
def ValidInfo (info : RejectApInfo) : Prop :=
  info.type ≠ .DRIVER_BLACKLIST ∧ info.type ≠ .DRIVER_MONITOR

theorem handleAvoidList_good {e : RejectAp} (hs : ∀ t,e.stamp t ≤ now)
    (hc : e.connectTimestamp ≤ now) (ht : info.type ≠ .DRIVER_MONITOR) :
    Good now (handleAvoidList cfg now info e) := by
  have hg := good_of_enter (t := info.type) hs hc
  rw [handleAvoidList]
  split
  · exact good_of_enter (by simpa using hg.stamp) (by simpa using hg.connect)
  · refine ⟨listed_of_inList (t := info.type) ?_,hg.stamp,le_rfl⟩
    show ((e.enter info.type now).put .DRIVER_MONITOR false).inList info.type = true
    simp [ht]

theorem modifyEntry_good {e : RejectAp} (hv : ValidInfo info) (hs : ∀ t,e.stamp t ≤ now)
    (hc : e.connectTimestamp ≤ now) : Good now (modifyEntry cfg now info e) := by
  have hg := fun t => good_of_enter (e := e) (t := t) hs hc
  rw [modifyEntry]
  cases ht : info.type with
  | USERSPACE_AVOID | DRIVER_AVOID => exact handleAvoidList_good hs hc hv.2
  | USERSPACE_BLACKLIST =>
    exact ⟨(hg .USERSPACE_BLACKLIST).listed,(hg .USERSPACE_BLACKLIST).stamp,hc⟩
  | DRIVER_RSSI_REJECT => exact ⟨(hg .DRIVER_RSSI_REJECT).listed,(hg .DRIVER_RSSI_REJECT).stamp,hc⟩
  | DRIVER_BLACKLIST => exact absurd ht hv.1
  | DRIVER_MONITOR => exact absurd ht hv.2

theorem modifyEntry_bssid {e : RejectAp} (hv : ValidInfo info)
    (hb : e.inList .DRIVER_RSSI_REJECT → e.bssid = info.bssid) :
    (modifyEntry cfg now info e).bssid = info.bssid := by
  rw [modifyEntry]
  cases ht : info.type with
  | USERSPACE_AVOID | DRIVER_AVOID =>
    show (handleAvoidList cfg now info e).bssid = _
    rw [handleAvoidList]
    split <;> rfl
  | USERSPACE_BLACKLIST => rfl
  | DRIVER_RSSI_REJECT =>
    show (if e.inList .DRIVER_RSSI_REJECT then e.bssid else info.bssid) = _
    split
    · exact hb ‹_›
    · rfl
  | DRIVER_BLACKLIST => exact absurd ht hv.1
  | DRIVER_MONITOR => exact absurd ht hv.2

theorem findAndModify_kept (hv : ValidInfo info) (l : List RejectAp) :
    Kept now l (findAndModify cfg now info l).2 := by
  induction l with
  | nil => exact Kept.refl _
  | cons e es ih =>
    rw [findAndModify]
    by_cases hl : (updateApInfo cfg now none e).listed
    · simp only [if_pos hl]
      by_cases hb : (updateApInfo cfg now none e).bssid = info.bssid
      · rw [if_pos hb]
        refine (Kept.refl es).cons ?_ fun hg => ?_
        · rw [modifyEntry_bssid hv fun _ => hb,← hb,updateApInfo_bssid]
        · have hu : Good now (updateApInfo cfg now none e) := good_updateApInfo hg hl
          exact modifyEntry_good hv hu.stamp hu.connect
      · rw [if_neg hb]
        exact ih.cons (updateApInfo_bssid e) fun hg => good_updateApInfo hg hl
    · simp only [if_neg hl]
      exact ih.skip

/-- Where the access point is not found, it is not in the list, and the list is up to date. -/
theorem findAndModify_absent {l : List RejectAp} (h : (findAndModify cfg now info l).1 = false) :
    ∀ e ∈ (findAndModify cfg now info l).2,e.bssid ≠ info.bssid ∧ Fresh cfg now e := by
  induction l with
  | nil => simp [findAndModify]
  | cons e es ih =>
    rw [findAndModify] at h ⊢
    by_cases hl : (updateApInfo cfg now none e).listed
    · simp only [if_pos hl] at h ⊢
      by_cases hb : (updateApInfo cfg now none e).bssid = info.bssid
      · rw [if_pos hb] at h
        cases h
      · rw [if_neg hb] at h ⊢
        intro x hx
        rcases List.mem_cons.mp hx with rfl | hx
        · exact ⟨hb,fresh_updateApInfo e⟩
        · exact ih h x hx
    · simp only [if_neg hl] at h ⊢
      exact ih h

theorem connected_kept (bssid : ℕ) (l : List RejectAp) : Kept now l (connected now bssid l) := by
  induction l with
  | nil => exact Kept.refl _
  | cons e es ih =>
    rw [connected]
    split
    · exact (Kept.refl es).cons rfl fun hg => ⟨hg.listed,hg.stamp,le_rfl⟩
    · exact ih.cons rfl id

theorem actionOnBssid_kept (bssid : ℕ) (r : ℤ) (l : List RejectAp) :
    Kept now l (actionOnBssid cfg now bssid r l).2 := by
  induction l with
  | nil => exact Kept.refl _
  | cons e es ih =>
    rw [actionOnBssid]
    by_cases hb : e.bssid = bssid
    · rw [if_pos hb]
      by_cases hl : (updateApInfo cfg now (some r) e).listed
      · simp only [if_pos hl]
        exact (Kept.refl es).cons (updateApInfo_bssid e) fun hg => good_updateApInfo hg hl
      · simp only [if_neg hl]
        exact (Kept.refl es).skip
    · rw [if_neg hb]
      exact ih.cons rfl id

theorem clearUserspace_kept (l : List RejectAp) : Kept now l (clearUserspaceBlacklistInfo l) := by
  have hf : Kept now l (l.filter fun e => !presentOnly .USERSPACE_BLACKLIST e) :=
    kept_of_sublist List.filter_sublist
  refine ⟨?_,fun hg e he => ?_⟩
  · rw [clearUserspaceBlacklistInfo,List.map_map]
    exact hf.bssid
  · obtain ⟨x,hx,rfl⟩ := List.mem_map.mp he
    obtain ⟨hxl,hxo⟩ := List.mem_filter.mp hx
    have hgx := hg x hxl
    refine ⟨?_,hgx.stamp,hgx.connect⟩
    have hno : ¬ presentOnly .USERSPACE_BLACKLIST x := by simpa using hxo
    obtain ⟨t,ht⟩ := listed_iff.mp hgx.listed
    by_cases hu : t = .USERSPACE_BLACKLIST
    · -- the entry is in a second list
      have hex : ∃ t',t' ≠ .USERSPACE_BLACKLIST ∧ x.inList t' := by
        by_contra hne
        refine hno (presentOnly_iff.mpr fun t' => ⟨fun hin => ?_,fun he => by rw [he,← hu]; exact ht⟩)
        by_contra hne'
        exact hne ⟨t',hne',hin⟩
      obtain ⟨t',hne,hin⟩ := hex
      exact listed_of_inList (t := t') (by simpa [hne] using hin)
    · exact listed_of_inList (t := t) (by simpa [hu] using ht)

theorem disconnectEntry_good {e e' : RejectAp} (hg : Good now e)
    (hl : (updateApInfo cfg now none e).listed) (h : disconnectEntry cfg now e = some e') :
    e'.bssid = e.bssid ∧ Good now e' := by
  have hu := good_updateApInfo hg hl
  unfold disconnectEntry at h
  simp only at h
  split_ifs at h with hage hlist
  · cases h
    exact ⟨by simp [clearLists],hlist,hu.stamp,hu.connect⟩
  · cases h
    exact ⟨by simp,hu⟩

/-- A disconnection keeps the list good where it leaves no entry without a list. -/
theorem disconnected_kept {bssid : ℕ} {fw : Bool} {before l : List RejectAp}
    (h : ∀ e ∈ l,e.bssid = bssid →
      (updateApInfo cfg now none e).listed ∨ disconnectEntry cfg now e = none)
    (hg : ∀ e ∈ before++l,Good now e) :
    Kept now (before++l) (disconnected cfg now bssid fw before l) := by
  induction l generalizing before with
  | nil =>
    rw [List.append_nil]
    exact Kept.refl _
  | cons e es ih =>
    rw [disconnected]
    by_cases hb : e.bssid = bssid
    · rw [if_pos hb]
      cases hd : disconnectEntry cfg now e with
      | none =>
        refine (kept_of_sublist ?_).trans (sendRejectApListToFw_kept fw _)
        exact (List.sublist_cons_self e es).append_left before
      | some e' =>
        have hl := (h e (by simp) hb).resolve_right (by rw [hd]; simp)
        obtain ⟨hbe,hge⟩ := disconnectEntry_good (hg e (by simp)) hl hd
        refine ⟨?_,fun hall x hx => ?_⟩
        · simp [hbe]
        · rcases List.mem_append.mp hx with hx | hx
          · exact hall x (List.mem_append_left _ hx)
          · rcases List.mem_cons.mp hx with rfl | hx
            · exact hge
            · exact hall x (by simp [hx])
    · rw [if_neg hb]
      have hsplit : before++e::es = (before++[e])++es := by simp
      rw [hsplit] at hg ⊢
      exact ih (fun x hx => h x (List.mem_cons_of_mem _ hx)) hg

end Lists

/-- What every state of a run has: a sound list, and no time stamp ahead of the clock. -/
structure Inv (s : State) : Prop where
  sound : Sound s
  good : ∀ e ∈ s.list,Good s.now e

theorem inv_start (now : ℕ) : Inv (start now) :=
  ⟨⟨List.nodup_nil,Nat.zero_le _,by simp [start]⟩,by simp [start]⟩

section Steps
variable {cfg : Config} {s : State}

theorem Good.later {now : ℕ} {e : RejectAp} (h : Good now e) (dt : ℕ) : Good (now+dt) e :=
  ⟨h.listed,fun t => (h.stamp t).trans (Nat.le_add_right ..),h.connect.trans (Nat.le_add_right ..)⟩

/-- A list that is kept leaves the invariant as it is. -/
theorem Inv.kept (h : Inv s) {dt : ℕ} {l : List RejectAp} (hk : Kept (s.now+dt) s.list l) :
    Inv ⟨s.now+dt,l⟩ := by
  have hg := hk.good fun e he => (h.good e he).later dt
  exact ⟨⟨hk.bssid.nodup h.sound.distinct,hk.length_le.trans h.sound.bounded,
    fun e he => (hg e he).listed⟩,hg⟩

theorem evicted_sublist {now : ℕ} {l l' : List RejectAp} (h : Evicted cfg now l l') :
    l'.Sublist l ∧ l'.length+1 = l.length := by
  obtain ⟨t,i,v,hv,_,rfl⟩ := h
  obtain ⟨hi,_⟩ := List.getElem?_eq_some_iff.mp hv
  exact ⟨List.eraseIdx_sublist ..,by rw [List.length_eraseIdx_add_one hi]⟩

/-- The list to which a new entry goes: room is made where the list is full. -/
theorem makeRoom_spec {now : ℕ} {l : List RejectAp} (hle : l.length ≤ MAX_BAD_AP_LIST_SIZE)
    (hf : ∀ e ∈ l,Fresh cfg now e)
    (hc : l.length = MAX_BAD_AP_LIST_SIZE → CanEvict cfg now l) :
    ∃ l',makeRoom cfg now l = some l' ∧ l'.Sublist l ∧ l'.length < MAX_BAD_AP_LIST_SIZE ∧
      (l.length = MAX_BAD_AP_LIST_SIZE → Evicted cfg now l l') := by
  by_cases hfull : l.length = MAX_BAD_AP_LIST_SIZE
  · obtain ⟨l',hl',he⟩ := removeLowestDeltaEntry_spec hf (hc hfull)
    obtain ⟨hsub,hlen⟩ := evicted_sublist he
    exact ⟨l',by rw [makeRoom,if_pos hfull,hl'],hsub,by omega,fun _ => he⟩
  · exact ⟨l,by rw [makeRoom,if_neg hfull],List.Sublist.refl l,by omega,fun hh => absurd hh hfull⟩

/-- What adding an access point does. -/
theorem addBssidToRejectList_spec {now : ℕ} {info : RejectApInfo} (alloc fw : Bool)
    {l : List RejectAp} (hz : isZero info.bssid = false) (hgr : isGroup info.bssid = false)
    (hv : ValidInfo info) (hle : l.length ≤ MAX_BAD_AP_LIST_SIZE)
    (hc : (findAndModify cfg now info l).1 = false →
      (findAndModify cfg now info l).2.length = MAX_BAD_AP_LIST_SIZE →
      CanEvict cfg now (findAndModify cfg now info l).2) :
    ((findAndModify cfg now info l).1 = true ∧ addBssidToRejectList cfg now info alloc fw l
        = (.SUCCESS,sendRejectApListToFw cfg now fw (findAndModify cfg now info l).2)) ∨
    ((findAndModify cfg now info l).1 = false ∧
      ∃ l',l'.Sublist (findAndModify cfg now info l).2 ∧ l'.length < MAX_BAD_AP_LIST_SIZE ∧
        ((findAndModify cfg now info l).2.length = MAX_BAD_AP_LIST_SIZE →
          Evicted cfg now (findAndModify cfg now info l).2 l') ∧
        addBssidToRejectList cfg now info alloc fw l =
          if alloc then
            (.SUCCESS,sendRejectApListToFw cfg now fw (l'++[modifyEntry cfg now info newEntry]))
          else (.E_FAILURE,l')) := by
  have hk : Kept now l (findAndModify cfg now info l).2 := findAndModify_kept hv l
  cases hfound : (findAndModify cfg now info l).1 with
  | true =>
    refine Or.inl ⟨rfl,?_⟩
    simp [addBssidToRejectList,hz,hgr,hfound]
  | false =>
    obtain ⟨l',hl',hsub,hlt,hev⟩ := makeRoom_spec (hk.length_le.trans hle)
      (fun e he => (findAndModify_absent hfound e he).2) (hc hfound)
    refine Or.inr ⟨rfl,l',hsub,hlt,hev,?_⟩
    cases alloc <;> simp [addBssidToRejectList,hz,hgr,hfound,hl']

theorem inv_add (h : Inv s) {dt : ℕ} {info : RejectApInfo} {alloc fw : Bool}
    (hz : isZero info.bssid = false) (hgr : isGroup info.bssid = false) (hv : ValidInfo info)
    (hc : Holds cfg s (.add dt info alloc fw)) :
    Inv (step cfg s (.add dt info alloc fw)) ∧ Correct cfg s (.add dt info alloc fw) := by
  have hk : Kept (s.now+dt) s.list (findAndModify cfg (s.now+dt) info s.list).2 :=
    findAndModify_kept hv s.list
  rcases addBssidToRejectList_spec alloc fw hz hgr hv h.sound.bounded hc with
    ⟨hfound,hadd⟩ | ⟨hfound,l',hsub,hlt,hev,hadd⟩
  · refine ⟨?_,⟨fun _ => by rw [hadd],fun hno => by rw [hfound] at hno; cases hno⟩⟩
    show Inv ⟨s.now+dt,(addBssidToRejectList cfg (s.now+dt) info alloc fw s.list).2⟩
    rw [hadd]
    exact h.kept (hk.trans (sendRejectApListToFw_kept fw _))
  · have hk' := hk.trans (kept_of_sublist hsub)
    constructor
    swap
    · refine ⟨fun ha => by rw [hadd,if_pos ha],fun _ hfull => ⟨l',hev hfull,?_⟩⟩
      rw [hadd]
      split <;> rfl
    show Inv ⟨s.now+dt,(addBssidToRejectList cfg (s.now+dt) info alloc fw s.list).2⟩
    rw [hadd]
    cases alloc with
    | false => exact h.kept hk'
    | true =>
      rw [if_pos rfl]
      have hnew : Good (s.now+dt) (modifyEntry cfg (s.now+dt) info newEntry) :=
        modifyEntry_good hv (fun t => Nat.zero_le _) (Nat.zero_le _)
      have hbs : (modifyEntry cfg (s.now+dt) info newEntry).bssid = info.bssid :=
        modifyEntry_bssid hv fun hh => by cases hh
      have hinv : Inv ⟨s.now+dt,l'++[modifyEntry cfg (s.now+dt) info newEntry]⟩ := by
        have hi := h.kept hk'
        have hg : ∀ e ∈ l'++[modifyEntry cfg (s.now+dt) info newEntry],Good (s.now+dt) e := by
          intro e he
          rcases List.mem_append.mp he with he | he
          · exact hi.good e he
          · rw [List.mem_singleton.mp he]
            exact hnew
        refine ⟨⟨?_,?_,fun e he => (hg e he).listed⟩,hg⟩
        · show ((l'++[_]).map RejectAp.bssid).Nodup
          rw [List.map_append,List.nodup_append']
          refine ⟨hi.sound.distinct,List.nodup_singleton _,?_⟩
          intro b hb hb'
          rw [List.map_singleton,List.mem_singleton,hbs] at hb'
          obtain ⟨e,he,hbe⟩ := List.mem_map.mp hb
          exact (findAndModify_absent hfound e (hsub.subset he)).1 (hbe.trans hb')
        · show (l'++[_]).length ≤ _
          rw [List.length_append,List.length_singleton]
          omega
      have hsend : Kept (s.now+dt+0) (l'++[modifyEntry cfg (s.now+dt) info newEntry])
          (sendRejectApListToFw cfg (s.now+dt) fw _) := sendRejectApListToFw_kept fw _
      exact hinv.kept hsend

/-- An access point all of whose lists are over is not acted upon. -/
theorem getAction_of_over {now : ℕ} {rssi : ℤ} {e : RejectAp} (h : AllOver cfg now rssi e) :
    getAction (updateApInfo cfg now (some rssi) e) = .NO_ACTION := by
  have hout : ∀ t,t ≠ .DRIVER_MONITOR → (updateApInfo cfg now (some rssi) e).inList t = false := by
    intro t ht
    rw [updateApInfo_inList ht]
    by_cases hin : e.inList t
    · rw [if_pos (h t ht hin)]
    · split
      · rfl
      · simpa using hin
  simp [getAction,hout]

theorem actionOnBssid_of_over {now : ℕ} {bssid : ℕ} {rssi : ℤ} {l : List RejectAp}
    (hd : (l.map RejectAp.bssid).Nodup) {e : RejectAp} (he : e ∈ l) (hb : e.bssid = bssid)
    (h : AllOver cfg now rssi e) : (actionOnBssid cfg now bssid rssi l).1 = .NO_ACTION := by
  induction l with
  | nil => cases he
  | cons x es ih =>
    rw [List.map_cons,List.nodup_cons] at hd
    rw [actionOnBssid]
    rcases List.mem_cons.mp he with rfl | he
    · rw [if_pos hb]
      simp only
      split
      · exact getAction_of_over h
      · rfl
    · have hne : x.bssid ≠ bssid := fun hx =>
        hd.1 (List.mem_map.mpr ⟨e,he,hb.trans hx.symm⟩)
      rw [if_neg hne]
      exact ih hd.2 he

/-- One operation keeps the invariant and does what it is to do. -/
theorem inv_step (h : Inv s) {op : Op} (hv : op.Valid) (hc : Holds cfg s op) :
    Inv (step cfg s op) ∧ Correct cfg s op := by
  cases op with
  | add dt info alloc fw => exact inv_add h hv.1 hv.2.1 hv.2.2 hc
  | clearUserspace dt => exact ⟨h.kept (clearUserspace_kept _),trivial⟩
  | send dt fw => exact ⟨h.kept (sendRejectApListToFw_kept fw _),trivial⟩
  | connected dt bssid => exact ⟨h.kept (connected_kept bssid _),trivial⟩
  | disconnected dt bssid fw =>
    have hk : Kept (s.now+dt) ([]++s.list) (disconnected cfg (s.now+dt) bssid fw [] s.list) :=
      disconnected_kept hc fun e he => (h.good e he).later dt
    exact ⟨h.kept hk,trivial⟩
  | query dt bssid rssi =>
    refine ⟨h.kept (actionOnBssid_kept bssid rssi _),fun e he hb ho => ?_⟩
    exact actionOnBssid_of_over h.sound.distinct he hb ho

end Steps

/-- In a run from the empty list all of whose steps find what they ask for, every state is sound
and every operation does what it is to do. -/
theorem blm_sound (cfg : Config) (now : ℕ) (ops : List Op) (hv : ∀ op ∈ ops,op.Valid)
    (hg : Guarded (step cfg) (Holds cfg) (start now) ops) :
    Always (step cfg) Sound (start now) ops ∧
      Guarded (step cfg) (Correct cfg) (start now) ops := by
  have hgo : ∀ (ops : List Op) (s : State),Inv s → (∀ op ∈ ops,op.Valid) →
      Guarded (step cfg) (Holds cfg) s ops →
      Always (step cfg) Sound s ops ∧ Guarded (step cfg) (Correct cfg) s ops := by
    intro ops
    induction ops with
    | nil => exact fun s hi _ _ => ⟨(always_nil ..).mpr hi.sound,trivial⟩
    | cons op ops ih =>
      intro s hi hv hg
      obtain ⟨hi',hcor⟩ := inv_step hi (hv op (by simp)) hg.1
      obtain ⟨ha,hc⟩ := ih _ hi' (fun o ho => hv o (List.mem_cons_of_mem _ ho)) hg.2
      exact ⟨(always_cons ..).mpr ⟨hi.sound,ha⟩,hcor,hc⟩
  exact hgo ops _ (inv_start now) hv hg

/-- Access points to avoid, a millisecond apart, one more than fit. -/
def avoidOps : List Op :=
  (List.range 29).map fun i => .add 1 ⟨i+1,⟨0,0,0⟩,.DRIVER_AVOID⟩ true false

/-- The list is not full, or all its entries are only to be avoided and have time left. -/
def AvoidsOnly (cfg : Config) (s : State) (op : Op) : Prop :=
  match op with
  | .add dt info _ _ => (findAndModify cfg (s.now+dt) info s.list).2.length ≠ MAX_BAD_AP_LIST_SIZE ∨
      ∀ e ∈ (findAndModify cfg (s.now+dt) info s.list).2,
        presentOnly .DRIVER_AVOID e ∧ remaining cfg (s.now+dt) .DRIVER_AVOID e ≠ 0
  | _ => False

instance (cfg : Config) (s : State) (op : Op) : Decidable (AvoidsOnly cfg s op) :=
  match op with
  | .add _ _ _ _ => inferInstanceAs (Decidable (_ ∨ _))
  | .clearUserspace _ | .send _ _ | .connected _ _ | .disconnected _ _ _ | .query _ _ _ =>
    isFalse id

theorem holds_of_avoidsOnly {cfg : Config} {s : State} {op : Op} (h : AvoidsOnly cfg s op) :
    Holds cfg s op := by
  cases op with
  | add dt info alloc fw =>
    intro _ hfull
    have hall := h.resolve_left (not_not.mpr hfull)
    obtain ⟨e,es,hl⟩ := List.exists_cons_of_length_pos (hfull ▸ (by decide : 0 < MAX_BAD_AP_LIST_SIZE))
    have hmem : e ∈ (findAndModify cfg (s.now+dt) info s.list).2 := by simp [hl]
    refine ⟨.DRIVER_AVOID,⟨e,hmem,(hall e hmem).1⟩,fun x hx t hp => ?_,?_,Or.inl fun x hx _ => ?_⟩
    · have ht := (presentOnly_iff.mp (hall x hx).1 t).mp (inList_of_presentOnly hp)
      rw [ht]
    · intro hr
      cases hr
    · exact (hall x hx).2
  | _ => exact h.elim

/-- Avoid and blacklist for five minutes, forget after twenty. -/
def plainConfig : Config := ⟨5,5,1200,3⟩

theorem blm_sound_avoidOps :
    Always (step plainConfig) Sound (start 1) avoidOps ∧
      Guarded (step plainConfig) (Correct plainConfig) (start 1) avoidOps := by
  have hcheck : Guarded (step plainConfig) (AvoidsOnly plainConfig) (start 1) avoidOps := by
    decide +kernel
  have hg := Guarded.imp (I := fun _ => True) (fun _ _ _ _ => trivial)
    (fun _ _ _ h => holds_of_avoidsOnly h) trivial avoidOps hcheck
  exact blm_sound plainConfig 1 avoidOps (by decide) hg

/-- The steps of `blm_add_userspace_black_list` that are taken form a run. -/
theorem addUserspaceBlackList_run (cfg : Config) (dt dt' : ℕ) (fw : Bool) (is : List Item)
    (s : State) : ∃ n,(addUserspaceBlackList cfg dt dt' fw is s).2 =
      run (step cfg) s (.clearUserspace dt::.send dt' fw::
        (is.take n).map fun i => .add i.dt i.info i.alloc i.fw) := by
  have hgo : ∀ (is : List Item) (s : State),∃ n,(addItems cfg is s).2 =
      run (step cfg) s ((is.take n).map fun i => .add i.dt i.info i.alloc i.fw) := by
    intro is
    induction is with
    | nil => exact fun s => ⟨0,rfl⟩
    | cons i is ih =>
      intro s
      rw [addItems]
      by_cases hs : (addBssidToRejectList cfg (s.now+i.dt) i.info i.alloc i.fw s.list).1 = .SUCCESS
      · obtain ⟨n,hn⟩ := ih ⟨s.now+i.dt,
          (addBssidToRejectList cfg (s.now+i.dt) i.info i.alloc i.fw s.list).2⟩
        refine ⟨n+1,?_⟩
        simp only [if_pos hs,hn,List.take_succ_cons,List.map_cons,run_cons]
        rfl
      · refine ⟨1,?_⟩
        simp only [if_neg hs,List.take_succ_cons,List.take_zero,List.map_cons,List.map_nil,run_cons,
          run_nil]
        rfl
  obtain ⟨n,hn⟩ := hgo is (step cfg (step cfg s (.clearUserspace dt)) (.send dt' fw))
  exact ⟨n,hn⟩

/-- A poor signal is rejected for a second; the station connects and disconnects. -/
def reconnectOps : List Op :=
  [.add 0 ⟨2,⟨1000,0,1000⟩,.DRIVER_RSSI_REJECT⟩ true true,.connected 0 2,.disconnected 2000 2 true]

/-- Twenty-eight access points that userspace blacklists within one millisecond. -/
def fillOps : List Op :=
  (List.range 28).map fun i => .add 0 ⟨i+1,⟨0,0,0⟩,.USERSPACE_BLACKLIST⟩ true false

/-- Another one. -/
def oneMore : Op := .add 0 ⟨29,⟨0,0,0⟩,.USERSPACE_BLACKLIST⟩ true false

/-- The disconnection leaves an entry that is in no list, and the full list gives up no entry. -/
theorem not_blm_sound :
    (∀ op ∈ reconnectOps++fillOps++[oneMore],op.Valid) ∧
    ¬ Always (step plainConfig) Sound (start 1) reconnectOps ∧
    ¬ Guarded (step plainConfig) (Correct plainConfig) (start 1) (fillOps++[oneMore]) := by
  refine ⟨?_,fun h => ?_,fun h => ?_⟩
  · decide
  · have hlisted : (run (step plainConfig) (start 1) reconnectOps).list.map RejectAp.listed
        = [false] := by decide +kernel
    obtain ⟨e,he,hf⟩ : ∃ e ∈ (run (step plainConfig) (start 1) reconnectOps).list,
        e.listed = false := List.mem_map.mp (by rw [hlisted]; simp)
    have ht := h.last.listed e he
    rw [hf] at ht
    cases ht
  · have hc := ((guarded_append ..).mp h).2.1
    have hs := hc.status rfl
    have hfail : (addBssidToRejectList plainConfig
        ((run (step plainConfig) (start 1) fillOps).now+0) ⟨29,⟨0,0,0⟩,.USERSPACE_BLACKLIST⟩ true
        false (run (step plainConfig) (start 1) fillOps).list).1 = .E_FAILURE := by decide +kernel
    rw [hfail] at hs
    cases hs

end Blm
end MarbleModules
