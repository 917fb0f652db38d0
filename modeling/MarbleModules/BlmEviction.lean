import MarbleModules.Blm
import MarbleModules.ScanFold

/-! Which entry a full reject list gives up, and what an update leaves of an entry. -/
namespace MarbleModules
namespace Blm
open ScanFold

theorem RejectType.mem_order (t : RejectType) : t ∈ RejectType.order := by
  cases t <;> decide

/-- The place of a type in the order of removal. -/
def RejectType.rank (t : RejectType) : ℕ := RejectType.order.idxOf t

/-- The types that give up the entry that has been there longest. -/
def RejectType.aged : RejectType → Bool
  | .DRIVER_MONITOR | .USERSPACE_BLACKLIST => true
  | _ => false

theorem listed_iff {e : RejectAp} : e.listed ↔ ∃ t,e.inList t := by
  rw [RejectAp.listed,List.any_eq_true]
  exact ⟨fun ⟨t,_,h⟩ => ⟨t,h⟩,fun ⟨t,h⟩ => ⟨t,t.mem_order,h⟩⟩

theorem presentOnly_iff {t : RejectType} {e : RejectAp} :
    presentOnly t e ↔ ∀ t',e.inList t' ↔ t' = t := by
  rw [presentOnly,List.all_eq_true]
  constructor
  · intro h t'
    have hh := h t' t'.mem_order
    simp only [beq_iff_eq] at hh
    rw [hh,beq_iff_eq]
  · intro h t' _
    rw [beq_iff_eq,Bool.eq_iff_iff,beq_iff_eq]
    exact h t'

theorem inList_of_presentOnly {t : RejectType} {e : RejectAp} (h : presentOnly t e) : e.inList t :=
  (presentOnly_iff.mp h t).mpr rfl

section Update
variable {cfg : Config} {now : ℕ}

@[simp] theorem put_inList (e : RejectAp) (t t' : RejectType) (b : Bool) :
    (e.put t b).inList t' = if t' = t then b else e.inList t' := by
  simp [RejectAp.put,Function.update_apply]

@[simp] theorem put_stamp (e : RejectAp) (t : RejectType) (b : Bool) :
    (e.put t b).stamp = e.stamp := rfl

@[simp] theorem put_bssid (e : RejectAp) (t : RejectType) (b : Bool) :
    (e.put t b).bssid = e.bssid := rfl

@[simp] theorem put_rssiParams (e : RejectAp) (t : RejectType) (b : Bool) :
    (e.put t b).rssiParams = e.rssiParams := rfl

@[simp] theorem put_connectTimestamp (e : RejectAp) (t : RejectType) (b : Bool) :
    (e.put t b).connectTimestamp = e.connectTimestamp := rfl

@[simp] theorem enter_inList (e : RejectAp) (t t' : RejectType) (n : ℕ) :
    (e.enter t n).inList t' = if t' = t then true else e.inList t' := by
  simp [RejectAp.enter,Function.update_apply]

@[simp] theorem enter_stamp (e : RejectAp) (t t' : RejectType) (n : ℕ) :
    (e.enter t n).stamp t' = if t' = t then n else e.stamp t' := by
  simp [RejectAp.enter,Function.update_apply]

@[simp] theorem enter_bssid (e : RejectAp) (t : RejectType) (n : ℕ) :
    (e.enter t n).bssid = e.bssid := rfl

@[simp] theorem enter_rssiParams (e : RejectAp) (t : RejectType) (n : ℕ) :
    (e.enter t n).rssiParams = e.rssiParams := rfl

@[simp] theorem enter_connectTimestamp (e : RejectAp) (t : RejectType) (n : ℕ) :
    (e.enter t n).connectTimestamp = e.connectTimestamp := rfl

/-- The time of an entry in a list is over. -/
def Over (cfg : Config) (now : ℕ) (t : RejectType) (e : RejectAp) : Prop :=
  expiry cfg t ≤ now-e.stamp t

instance (t : RejectType) (e : RejectAp) : Decidable (Over cfg now t e) :=
  inferInstanceAs (Decidable (_ ≤ _))

theorem toMonitor_inList {t t' : RejectType} (ht : t' ≠ .DRIVER_MONITOR) (e : RejectAp) :
    (toMonitor cfg now t e).inList t'
      = if t' = t ∧ Over cfg now t e then false else e.inList t' := by
  rw [toMonitor]
  by_cases hc : e.inList t ∧ expiry cfg t ≤ now-e.stamp t
  · rw [if_pos hc]
    by_cases htt : t' = t
    · have ho : Over cfg now t e := hc.2
      simp [htt,ho]
      rw [← htt]
      exact fun h => absurd h ht
    · simp [ht,htt]
  · rw [if_neg hc]
    by_cases htt : t' = t ∧ Over cfg now t e
    · rw [if_pos htt,htt.1]
      exact Bool.eq_false_iff.mpr fun h => hc ⟨h,htt.2⟩
    · rw [if_neg htt]

theorem toMonitor_stamp {t t' : RejectType} (ht : t' ≠ .DRIVER_MONITOR) (e : RejectAp) :
    (toMonitor cfg now t e).stamp t' = e.stamp t' := by
  rw [toMonitor]
  split
  · simp [ht]
  · rfl

@[simp] theorem toMonitor_bssid (t : RejectType) (e : RejectAp) :
    (toMonitor cfg now t e).bssid = e.bssid := by
  rw [toMonitor]
  split <;> rfl

@[simp] theorem toMonitor_rssiParams (t : RejectType) (e : RejectAp) :
    (toMonitor cfg now t e).rssiParams = e.rssiParams := by
  rw [toMonitor]
  split <;> rfl

@[simp] theorem toMonitor_connectTimestamp (t : RejectType) (e : RejectAp) :
    (toMonitor cfg now t e).connectTimestamp = e.connectTimestamp := by
  rw [toMonitor]
  split <;> rfl

theorem toMonitor_stamp_le {t : RejectType} {e : RejectAp} (h : ∀ t',e.stamp t' ≤ now)
    (t' : RejectType) : (toMonitor cfg now t e).stamp t' ≤ now := by
  rw [toMonitor]
  split
  · rw [enter_stamp]
    split
    · exact le_rfl
    · exact h t'
  · exact h t'

variable {rssi : Option ℤ}

@[simp] theorem leaveRssi_bssid (e : RejectAp) : (leaveRssi now rssi e).bssid = e.bssid := by
  rw [leaveRssi]
  split <;> rfl

@[simp] theorem leaveRssi_stamp (e : RejectAp) : (leaveRssi now rssi e).stamp = e.stamp := by
  rw [leaveRssi]
  split <;> rfl

@[simp] theorem leaveRssi_rssiParams (e : RejectAp) :
    (leaveRssi now rssi e).rssiParams = e.rssiParams := by
  rw [leaveRssi]
  split <;> rfl

@[simp] theorem leaveRssi_connectTimestamp (e : RejectAp) :
    (leaveRssi now rssi e).connectTimestamp = e.connectTimestamp := by
  rw [leaveRssi]
  split <;> rfl

theorem leaveRssi_inList (t : RejectType) (e : RejectAp) : (leaveRssi now rssi e).inList t
    = if t = .DRIVER_RSSI_REJECT ∧ rssiOver now rssi e then false else e.inList t := by
  rw [leaveRssi]
  by_cases hc : e.inList .DRIVER_RSSI_REJECT ∧ rssiOver now rssi e
  · rw [if_pos hc]
    simp [hc.2]
  · rw [if_neg hc]
    by_cases ht : t = .DRIVER_RSSI_REJECT ∧ rssiOver now rssi e
    · rw [if_pos ht,ht.1]
      exact Bool.eq_false_iff.mpr fun h => hc ⟨h,ht.2⟩
    · rw [if_neg ht]

@[simp] theorem updateApInfo_bssid (e : RejectAp) :
    (updateApInfo cfg now rssi e).bssid = e.bssid := by
  simp [updateApInfo]

@[simp] theorem updateApInfo_rssiParams (e : RejectAp) :
    (updateApInfo cfg now rssi e).rssiParams = e.rssiParams := by
  simp [updateApInfo]

@[simp] theorem updateApInfo_connectTimestamp (e : RejectAp) :
    (updateApInfo cfg now rssi e).connectTimestamp = e.connectTimestamp := by
  simp [updateApInfo]

theorem updateApInfo_stamp {t : RejectType} (ht : t ≠ .DRIVER_MONITOR) (e : RejectAp) :
    (updateApInfo cfg now rssi e).stamp t = e.stamp t := by
  simp [updateApInfo,toMonitor_stamp ht]

theorem updateApInfo_stamp_le {e : RejectAp} (h : ∀ t,e.stamp t ≤ now) (t : RejectType) :
    (updateApInfo cfg now rssi e).stamp t ≤ now := by
  rw [updateApInfo,leaveRssi_stamp]
  exact toMonitor_stamp_le (toMonitor_stamp_le (toMonitor_stamp_le h)) t

/-- The membership of an entry that is over. -/
def MembershipOver (cfg : Config) (now : ℕ) (rssi : Option ℤ) (t : RejectType) (e : RejectAp) :
    Prop :=
  match t with
  | .USERSPACE_AVOID | .DRIVER_AVOID | .DRIVER_BLACKLIST => Over cfg now t e
  | .DRIVER_RSSI_REJECT => rssiOver now rssi e
  | .USERSPACE_BLACKLIST | .DRIVER_MONITOR => False

instance (t : RejectType) (e : RejectAp) : Decidable (MembershipOver cfg now rssi t e) := by
  unfold MembershipOver
  cases t <;> infer_instance

theorem over_toMonitor {t t' : RejectType} (ht : t' ≠ .DRIVER_MONITOR) (e : RejectAp) :
    Over cfg now t' (toMonitor cfg now t e) ↔ Over cfg now t' e := by
  rw [Over,Over,toMonitor_stamp ht]

theorem rssiOver_toMonitor (t : RejectType) (e : RejectAp) :
    rssiOver now rssi (toMonitor cfg now t e) ↔ rssiOver now rssi e := by
  rw [rssiOver,rssiOver,toMonitor_stamp (by decide),toMonitor_rssiParams]

/-- After an update an entry is in the lists it was in and whose time is not over. -/
theorem updateApInfo_inList {t : RejectType} (ht : t ≠ .DRIVER_MONITOR) (e : RejectAp) :
    (updateApInfo cfg now rssi e).inList t
      = if MembershipOver cfg now rssi t e then false else e.inList t := by
  simp only [updateApInfo,leaveRssi_inList,toMonitor_inList ht,rssiOver_toMonitor]
  by_cases ho : MembershipOver cfg now rssi t e
  · cases t <;> simp only [MembershipOver] at ho <;> simp [MembershipOver,over_toMonitor,ho]
  · cases t <;> simp only [MembershipOver] at ho <;> simp [MembershipOver,over_toMonitor,ho]

/-- An entry whose memberships that can end have not. -/
def Fresh (cfg : Config) (now : ℕ) (e : RejectAp) : Prop :=
  ∀ t,e.inList t → ¬ MembershipOver cfg now none t e

theorem fresh_updateApInfo (e : RejectAp) : Fresh cfg now (updateApInfo cfg now none e) := by
  intro t hin hover
  by_cases ht : t = .DRIVER_MONITOR
  · rw [ht] at hover
    exact hover
  · have hover' : MembershipOver cfg now none t e := by
      cases t <;> simp only [MembershipOver,Over,rssiOver] at hover ⊢ <;>
        simpa [updateApInfo_stamp ht] using hover
    rw [updateApInfo_inList ht,if_pos hover'] at hin
    cases hin

/-- What is left of the time of an entry in a list that it leaves by itself. -/
def remaining (cfg : Config) (now : ℕ) (t : RejectType) (e : RejectAp) : ℕ :=
  match t with
  | .DRIVER_RSSI_REJECT =>
    (if e.rssiParams.retryDelay ≠ 0 then e.rssiParams.retryDelay else 3600000)-(now-e.stamp t)
  | _ => expiry cfg t-(now-e.stamp t)

/-- The delay of an RSSI reject fits into the 32 bits of `disallowed_time`. -/
def FitsInt32 (now : ℕ) (e : RejectAp) : Prop :=
  e.rssiParams.retryDelay < 2^31 ∧
    (e.rssiParams.retryDelay = 0 → now-e.stamp .DRIVER_RSSI_REJECT ≤ 3600000+2^31)

theorem expiry_lt (cfg : Config) (t : RejectType) : expiry cfg t < 2^64 := by
  cases t <;> exact Nat.mod_lt _ (by decide)

theorem sub64_eq {a b : ℕ} (h : b ≤ a) (ha : a < 2^64) : sub64 a b = a-b := by
  rw [sub64]
  omega

theorem toInt32_toNat (a : ℕ) :
    (toInt32 a).toNat = if a % 2^32 < 2^31 then a % 2^32 else 0 := by
  rw [toInt32]
  split_ifs <;> omega

/-- The delta of an entry that is up to date is the time that it has left. -/
theorem getDeltaOfBssid_eq {t : RejectType} (ht : t.aged = false) {e : RejectAp} (hin : e.inList t)
    (hf : Fresh cfg now e) (hfit : t = .DRIVER_RSSI_REJECT → FitsInt32 now e) :
    getDeltaOfBssid cfg now t e = remaining cfg now t e := by
  have hexp := expiry_lt cfg t
  have hnot := hf t hin
  cases t with
  | USERSPACE_BLACKLIST => cases ht
  | DRIVER_MONITOR => cases ht
  | USERSPACE_AVOID | DRIVER_AVOID | DRIVER_BLACKLIST =>
    simp only [MembershipOver,Over] at hnot
    exact sub64_eq (by omega) hexp
  | DRIVER_RSSI_REJECT =>
    obtain ⟨hlt,hage⟩ := hfit rfl
    simp only [MembershipOver,rssiOver,reduceCtorEq,false_and,exists_false,or_false] at hnot
    simp only [getDeltaOfBssid,remaining]
    by_cases hr : e.rssiParams.retryDelay = 0
    · simp only [hr,ne_eq,not_true_eq_false,if_false]
      have hage := hage hr
      have hmin : minutesToMs RSSI_TIMEOUT_VALUE = 3600000 := by decide
      rw [hmin]
      generalize now-e.stamp .DRIVER_RSSI_REJECT = age at hage ⊢
      rw [toInt32_toNat,sub64]
      split_ifs <;> omega
    · simp only [hr,ne_eq,not_false_eq_true,if_true]
      have hage' : now-e.stamp .DRIVER_RSSI_REJECT < e.rssiParams.retryDelay := by
        by_contra hh
        exact hnot ⟨hr,by omega⟩
      rw [sub64_eq hage'.le (by omega)]
      generalize now-e.stamp .DRIVER_RSSI_REJECT = age at hage' ⊢
      rw [toInt32_toNat]
      split_ifs <;> omega

/-- An entry at a place of the list is of the lowest type there is and, of that type, the oldest or
the one with the least time left. -/
structure Lowest (cfg : Config) (now : ℕ) (l : List RejectAp) (t : RejectType) (v : RejectAp) :
    Prop where
  only : presentOnly t v
  rank : ∀ e ∈ l,∀ t',presentOnly t' e → t.rank ≤ t'.rank
  least : ∀ e ∈ l,presentOnly t e →
    if t.aged then now-e.stamp t ≤ now-v.stamp t else remaining cfg now t v ≤ remaining cfg now t e

/-- The list `l'` is `l` without such an entry. -/
def Evicted (cfg : Config) (now : ℕ) (l l' : List RejectAp) : Prop :=
  ∃ t i v,l[i]? = some v ∧ Lowest cfg now l t v ∧ l' = l.eraseIdx i

/-- The scan of one type can tell its entries apart from 0, its sign for none. -/
def Told (cfg : Config) (now : ℕ) (l : List RejectAp) (t : RejectType) : Prop :=
  if t.aged then ∃ e ∈ l,presentOnly t e ∧ e.stamp t < now
  else
    (t = .DRIVER_RSSI_REJECT → ∀ e ∈ l,presentOnly t e → FitsInt32 now e) ∧
    ((∀ e ∈ l,presentOnly t e → remaining cfg now t e ≠ 0) ∨
      ∃ l₁ e l₂,l = l₁++e::l₂ ∧ presentOnly t e ∧ remaining cfg now t e = 0 ∧
        ∀ x ∈ l₂,¬ presentOnly t x)

/-- Some entry is in exactly one list, and the scan of the lowest type of such entries finds it. -/
def CanEvict (cfg : Config) (now : ℕ) (l : List RejectAp) : Prop :=
  ∃ t,(∃ e ∈ l,presentOnly t e) ∧ (∀ e ∈ l,∀ t',presentOnly t' e → t.rank ≤ t'.rank) ∧
    Told cfg now l t

theorem oldestInList_eq (t : RejectType) (l : List RejectAp) :
    oldestInList cfg now t l = scan (fun e : RejectAp × ℕ => presentOnly t e.1)
      (fun e => getDeltaOfBssid cfg now t e.1) Prod.snd (isOldestEntry t) l.zipIdx := rfl

theorem isOldestEntry_aged {t : RejectType} (ht : t.aged) : isOldestEntry t = greater := by
  cases t <;> first | rfl | cases ht

theorem isOldestEntry_left {t : RejectType} (ht : t.aged = false) :
    isOldestEntry t = lessOrFirst := by
  cases t <;> first | rfl | cases ht

theorem getDeltaOfBssid_aged {t : RejectType} (ht : t.aged) (e : RejectAp) :
    getDeltaOfBssid cfg now t e = now-e.stamp t := by
  cases t <;> first | rfl | cases ht

theorem getElem?_of_mem_zipIdx {l : List RejectAp} {e : RejectAp × ℕ} (h : e ∈ l.zipIdx) :
    l[e.2]? = some e.1 := List.mem_zipIdx_iff_getElem?.mp h

theorem exists_zipIdx_of_mem {l : List RejectAp} {e : RejectAp} (h : e ∈ l) :
    ∃ i,(e,i) ∈ l.zipIdx := by
  obtain ⟨i,hi,he⟩ := List.getElem_of_mem h
  exact ⟨i,List.mem_zipIdx_iff_getElem?.mpr (List.getElem?_eq_some_iff.mpr ⟨hi,he⟩)⟩

/-- The scan of a type that gives up the oldest entry. -/
theorem oldestInList_aged {t : RejectType} {l : List RejectAp} (ha : t.aged)
    (ht : ∃ e ∈ l,presentOnly t e ∧ e.stamp t < now) :
    ∃ i v,l[i]? = some v ∧ (oldestInList cfg now t l).1 = some i ∧ presentOnly t v ∧
      ∀ e ∈ l,presentOnly t e → now-e.stamp t ≤ now-v.stamp t := by
  rw [oldestInList_eq,isOldestEntry_aged ha]
  simp only [getDeltaOfBssid_aged ha]
  have hfound := @scan_greater _ ℕ (fun e : RejectAp × ℕ => presentOnly t e.1) _
    (fun e => now-e.1.stamp t) Prod.snd l.zipIdx
  rcases hfound with ⟨_,hz⟩ | ⟨v,hv,hp,hs,hle⟩
  · obtain ⟨e,he,hp,hlt⟩ := ht
    obtain ⟨i,hi⟩ := exists_zipIdx_of_mem he
    have hh := hz (e,i) hi hp
    simp only at hh
    omega
  · refine ⟨v.2,v.1,getElem?_of_mem_zipIdx hv,by rw [hs],hp,fun e he hpe => ?_⟩
    obtain ⟨i,hi⟩ := exists_zipIdx_of_mem he
    exact hle (e,i) hi hpe

/-- The scan of a type that gives up the entry with the least time left. -/
theorem oldestInList_left {t : RejectType} {l : List RejectAp} (ha : t.aged = false)
    (hf : ∀ e ∈ l,Fresh cfg now e) (hsome : ∃ e ∈ l,presentOnly t e)
    (hfit : t = .DRIVER_RSSI_REJECT → ∀ e ∈ l,presentOnly t e → FitsInt32 now e)
    (ht : (∀ e ∈ l,presentOnly t e → remaining cfg now t e ≠ 0) ∨
      ∃ l₁ e l₂,l = l₁++e::l₂ ∧ presentOnly t e ∧ remaining cfg now t e = 0 ∧
        ∀ x ∈ l₂,¬ presentOnly t x) :
    ∃ i v,l[i]? = some v ∧ (oldestInList cfg now t l).1 = some i ∧ presentOnly t v ∧
      ∀ e ∈ l,presentOnly t e → remaining cfg now t v ≤ remaining cfg now t e := by
  have hd : ∀ e ∈ l,presentOnly t e →
      getDeltaOfBssid cfg now t e = remaining cfg now t e := fun e he hp =>
    getDeltaOfBssid_eq ha (inList_of_presentOnly hp) (hf e he) fun hr => hfit hr e he hp
  have hmem := fun (e : RejectAp × ℕ) (he : e ∈ l.zipIdx) =>
    List.mem_of_getElem? (getElem?_of_mem_zipIdx he)
  rw [oldestInList_eq,isOldestEntry_left ha]
  have hfound := @scan_less_mem _ ℕ (fun e : RejectAp × ℕ => presentOnly t e.1) _
    (fun e => getDeltaOfBssid cfg now t e.1) Prod.snd l.zipIdx
  rcases hfound with ⟨_,hn⟩ | ⟨v,hv,hp,hs⟩
  · obtain ⟨e,he,hp⟩ := hsome
    obtain ⟨i,hi⟩ := exists_zipIdx_of_mem he
    exact absurd hp (hn (e,i) hi)
  · refine ⟨v.2,v.1,getElem?_of_mem_zipIdx hv,by rw [hs],hp,fun e he hpe => ?_⟩
    obtain ⟨i,hi⟩ := exists_zipIdx_of_mem he
    have hval := congrArg Prod.snd hs
    simp only at hval
    rw [← hd v.1 (hmem v hv) hp,← hval]
    rcases ht with hne | ⟨l₁,z,l₂,rfl,hpz,hz,hlast⟩
    · rw [← hd e he hpe]
      refine scan_less_le l.zipIdx (fun x hx hpx => ?_) (e,i) hi hpe
      rw [hd x.1 (hmem x hx) hpx]
      exact hne x.1 (hmem x hx) hpx
    · have hzero := hd z (by simp) hpz
      rw [hz] at hzero
      have hsplit : (l₁++z::l₂).zipIdx
          = l₁.zipIdx++(z,l₁.length)::l₂.zipIdx (l₁.length+1) := by
        rw [List.zipIdx_append,List.zipIdx_cons]
        simp
      have hscan := @scan_less_zero _ ℕ (fun e : RejectAp × ℕ => presentOnly t e.1) _
        (fun e => getDeltaOfBssid cfg now t e.1) Prod.snd l₁.zipIdx (l₂.zipIdx (l₁.length+1))
        (z,l₁.length) hpz hzero fun x hx => hlast x.1 (List.fst_mem_of_mem_zipIdx hx)
      rw [hsplit,hscan]
      exact Nat.zero_le _

theorem tryDelete_of_none {t : RejectType} {l : List RejectAp} (h : ∀ e ∈ l,¬ presentOnly t e) :
    tryDeleteBssidInList cfg now t l = none := by
  have hkeep : ∀ (m : List (RejectAp × ℕ)) acc,(∀ e ∈ m,¬ presentOnly t e.1) →
      m.foldl (fun acc e =>
        if presentOnly t e.1 ∧ isOldestEntry t (getDeltaOfBssid cfg now t e.1) acc.2 then
          (some e.2,getDeltaOfBssid cfg now t e.1)
        else acc) acc = acc := by
    intro m
    induction m with
    | nil => intros; rfl
    | cons e m ih =>
      intro acc hm
      rw [List.foldl_cons,if_neg fun hh => hm e (by simp) hh.1]
      exact ih acc fun x hx => hm x (List.mem_cons_of_mem _ hx)
  rw [tryDeleteBssidInList,oldestInList,hkeep _ _ fun e he =>
    h e.1 (List.mem_of_getElem? (getElem?_of_mem_zipIdx he))]
  rfl

theorem tryDelete_of_told {t : RejectType} {l : List RejectAp} (hf : ∀ e ∈ l,Fresh cfg now e)
    (hsome : ∃ e ∈ l,presentOnly t e)
    (hrank : ∀ e ∈ l,∀ t',presentOnly t' e → t.rank ≤ t'.rank) (ht : Told cfg now l t) :
    ∃ i v,l[i]? = some v ∧ Lowest cfg now l t v ∧
      tryDeleteBssidInList cfg now t l = some (l.eraseIdx i) := by
  unfold Told at ht
  by_cases ha : t.aged
  · rw [if_pos ha] at ht
    obtain ⟨i,v,hv,hs,hp,hle⟩ := oldestInList_aged ha ht
    refine ⟨i,v,hv,⟨hp,hrank,fun e he hpe => ?_⟩,by rw [tryDeleteBssidInList,hs]; rfl⟩
    rw [if_pos ha]
    exact hle e he hpe
  · rw [if_neg ha] at ht
    obtain ⟨i,v,hv,hs,hp,hle⟩ := oldestInList_left (by simpa using ha) hf hsome ht.1 ht.2
    refine ⟨i,v,hv,⟨hp,hrank,fun e he hpe => ?_⟩,by rw [tryDeleteBssidInList,hs]; rfl⟩
    rw [if_neg ha]
    exact hle e he hpe

/-- A list that can give up an entry gives up one of the lowest type. -/
theorem removeLowestDeltaEntry_spec {l : List RejectAp} (hf : ∀ e ∈ l,Fresh cfg now e)
    (h : CanEvict cfg now l) :
    ∃ l',removeLowestDeltaEntry cfg now l = some l' ∧ Evicted cfg now l l' := by
  obtain ⟨t,hsome,hrank,ht⟩ := h
  obtain ⟨i,v,hv,hlow,hdel⟩ := tryDelete_of_told hf hsome hrank ht
  refine ⟨l.eraseIdx i,?_,t,i,v,hv,hlow,rfl⟩
  have hnone : ∀ t',t'.rank < t.rank → tryDeleteBssidInList cfg now t' l = none := by
    intro t' hlt
    refine tryDelete_of_none fun e he hp => ?_
    have hle := hrank e he t' hp
    omega
  have hgo : ∀ ts : List RejectType,t ∈ ts → ts.Pairwise (fun a b => a.rank < b.rank) →
      (∀ t' ∈ ts,t'.rank < t.rank → tryDeleteBssidInList cfg now t' l = none) →
      ts.findSome? (fun t => tryDeleteBssidInList cfg now t l) = some (l.eraseIdx i) := by
    intro ts
    induction ts with
    | nil => intro hm; cases hm
    | cons a ts ih =>
      intro hm hpw hno
      rw [List.pairwise_cons] at hpw
      rw [List.findSome?_cons]
      rcases List.mem_cons.mp hm with rfl | hm
      · rw [hdel]
      · rw [hno a (by simp) (hpw.1 t hm)]
        exact ih hm hpw.2 fun t' ht' => hno t' (List.mem_cons_of_mem _ ht')
  exact hgo _ t.mem_order (by decide) fun t' _ => hnone t'

end Update
end Blm
end MarbleModules
