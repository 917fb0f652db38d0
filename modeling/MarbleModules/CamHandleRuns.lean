import MarbleModules.CamHandles
import MarbleModules.Runs

/-! The handle table over all sequences of its operations, against the list of handles that
are live: those created and neither destroyed nor freed since. -/
namespace MarbleModules
namespace CamHandles

open Runs

variable {α : Type*}

/-- The operations, with the random byte a creation draws and whether the request manager is
open when a device's handle is asked for. -/
inductive Op (α : Type*)
  | createSession (rnd : UInt8) (priv : Option α)
  | createDevice (crmActive : Bool) (rnd : UInt8) (hdlData : CreateDevHdl α)
  | createLink (rnd : UInt8) (hdlData : CreateDevHdl α)
  | destroy (devHdl : UInt32) (devHdlType : ℤ)
  | freeHdls

/-- A live handle, with the type and the pointer it was created with. -/
structure Live (α : Type*) where
  hdl : UInt32
  type : HdlType
  priv : Option α

structure World (α : Type*) where
  table : Table α
  live : List (Live α)

def World.init : World α := ⟨CamHandles.init,[]⟩

/-- A creation adds the handle it returns. -/
def created (w : World α) (type : HdlType) (priv : Option α)
    (r : Except Errno UInt32 × Table α) : World α :=
  match r.1 with
  | .ok hdl => ⟨r.2,⟨hdl,type,priv⟩::w.live⟩
  | .error _ => ⟨r.2,w.live⟩

def step (w : World α) : Op α → World α
  | .createSession rnd priv =>
    created w .session priv (createSessionHdl w.table rnd priv)
  | .createDevice crmActive rnd hdlData =>
    created w .dev hdlData.priv (createDeviceHdl crmActive w.table rnd hdlData)
  | .createLink rnd hdlData =>
    created w .link hdlData.priv (createLinkHdl w.table rnd hdlData)
  | .destroy devHdl devHdlType =>
    match destroyHdl w.table devHdl devHdlType with
    | (.ok _,t) => ⟨t,w.live.filter fun e => e.hdl ≠ devHdl⟩
    | (.error _,t) => ⟨t,w.live⟩
  | .freeHdls => ⟨CamHandles.freeHdls w.table,[]⟩

/-- Slot `i` is active. -/
def Active (t : Table α) (i : ℕ) : Prop := (t.hdl i).state = .active

instance (t : Table α) (i : ℕ) : Decidable (Active t i) :=
  inferInstanceAs (Decidable (_ = _))

/-- Slot `i` holds a live handle. -/
structure Describes (h : Handle α) (i : ℕ) (e : Live α) : Prop where
  idx : ∃ rnd,e.hdl = getDevHandle rnd e.type i
  hdlValue : h.hdlValue = e.hdl
  priv : h.priv = e.priv

/-- The bitmap tells the active slots, and these hold the live handles. -/
structure Inv (w : World α) : Prop where
  bits : ∀ i < maxHandlesV2,w.table.bitmap i = true ↔ Active w.table i
  held : ∀ i < maxHandlesV2,Active w.table i → ∃ e ∈ w.live,Describes (w.table.hdl i) i e
  slot : ∀ e ∈ w.live,∃ i < maxHandlesV2,Active w.table i ∧ Describes (w.table.hdl i) i e
  nodup : (w.live.map (·.hdl)).Nodup

theorem inv_init : Inv (World.init : World α) where
  bits := fun i _ => by simp [World.init,CamHandles.init,Active]
  held := fun i _ h => absurd h (by simp [World.init,CamHandles.init,Active])
  slot := fun e he => absurd he (by simp [World.init])
  nodup := List.nodup_nil

theorem Describes.getHdlIdx {h : Handle α} {i : ℕ} {e : Live α} (hd : Describes h i e)
    (hi : i < maxHandlesV2) : getHdlIdx e.hdl = i := by
  obtain ⟨rnd,hr⟩ := hd.idx
  rw [hr]
  exact getHdlIdx_getDevHandle rnd e.type hi

theorem Describes.getHdlType {h : Handle α} {i : ℕ} {e : Live α} (hd : Describes h i e)
    (hi : i < maxHandlesV2) : getHdlType e.hdl = e.type.val := by
  obtain ⟨rnd,hr⟩ := hd.idx
  rw [hr]
  exact getHdlType_getDevHandle rnd e.type hi

theorem Describes.lt {h : Handle α} {i : ℕ} {e : Live α} (hd : Describes h i e)
    (hi : i < maxHandlesV2) : e.hdl.toNat < 2^31 := by
  obtain ⟨rnd,hr⟩ := hd.idx
  have hrnd := rnd.toNat_lt
  have htype := e.type.val_lt
  rw [hr,toNat_getDevHandle rnd e.type hi]
  simp only [maxHandlesV2] at hi
  omega

/-- The first free bit, when there is one. -/
theorem findFirstZeroBit_spec (bitmap : ℕ → Bool) (bits : ℕ) :
    findFirstZeroBit bitmap bits < bits ∧ bitmap (findFirstZeroBit bitmap bits) = false ∨
      findFirstZeroBit bitmap bits = bits ∧ ∀ i < bits,bitmap i = true := by
  rw [findFirstZeroBit]
  cases hf : (List.range bits).find? fun i => !bitmap i with
  | none =>
    refine Or.inr ⟨rfl,fun i hi => ?_⟩
    have hh := List.find?_eq_none.mp hf i (List.mem_range.mpr hi)
    simpa using hh
  | some i =>
    have hlt := List.mem_range.mp (List.mem_of_find?_eq_some hf)
    have hz := List.find?_some hf
    exact Or.inl ⟨hlt,by simpa using hz⟩

variable {w : World α}

/-- Filling a free slot with a new handle. -/
theorem Inv.fill (h : Inv w) {i : ℕ} (hi : i < maxHandlesV2) (hfree : w.table.bitmap i = false)
    {slot : Handle α} {e : Live α} (hs : slot.state = .active) (hd : Describes slot i e) :
    Inv ⟨⟨Function.update w.table.hdl i slot,Function.update w.table.bitmap i true⟩,
      e::w.live⟩ := by
  have hno : ¬ Active w.table i := fun ha => by simp [(h.bits i hi).mpr ha] at hfree
  refine ⟨fun j hj => ?_,fun j hj ha => ?_,fun e' he' => ?_,?_⟩
  · by_cases hji : j = i
    · subst hji
      simp [Active,hs]
    · simpa [Active,hji] using h.bits j hj
  · by_cases hji : j = i
    · subst hji
      exact ⟨e,List.mem_cons_self,by simpa using hd⟩
    · obtain ⟨e',he',hd'⟩ := h.held j hj (by simpa [Active,hji] using ha)
      exact ⟨e',List.mem_cons_of_mem e he',by simpa [hji] using hd'⟩
  · rcases List.mem_cons.mp he' with rfl | he'
    · exact ⟨i,hi,by simp [Active,hs],by simpa using hd⟩
    · obtain ⟨j,hj,ha,hd'⟩ := h.slot e' he'
      have hji : j ≠ i := fun hji => hno (hji ▸ ha)
      exact ⟨j,hj,by simpa [Active,hji] using ha,by simpa [hji] using hd'⟩
  · refine List.nodup_cons.mpr ⟨fun hmem => ?_,h.nodup⟩
    obtain ⟨e',he',heq⟩ := List.mem_map.mp hmem
    obtain ⟨j,hj,ha,hd'⟩ := h.slot e' he'
    have hji : j = i := by rw [← hd'.getHdlIdx hj,heq,hd.getHdlIdx hi]
    exact hno (hji ▸ ha)

theorem Inv.create (h : Inv w) (rnd : UInt8) (type : HdlType) (priv : Option α)
    (fill : UInt32 → Handle α) (hfill : ∀ hdl,(fill hdl).priv = priv) :
    Inv (created w type priv (createHdl w.table rnd type fill)) := by
  rw [createHdl]
  rcases findFirstZeroBit_spec w.table.bitmap maxHandlesV2 with ⟨hlt,hz⟩ | ⟨heq,-⟩
  · simp only [Nat.not_le.mpr hlt,if_false,created]
    exact h.fill hlt hz rfl ⟨⟨rnd,rfl⟩,rfl,hfill _⟩
  · simp only [heq,le_refl,if_true,created]
    exact h

theorem createDeviceHdl_open (t : Table α) (rnd : UInt8) (hdlData : CreateDevHdl α) :
    createDeviceHdl true t rnd hdlData = createHdl t rnd .dev fun handle =>
      ⟨hdlData.sessionHdl,handle,HdlType.dev.val,.active,hdlData.devId,hdlData.ops,
        hdlData.priv⟩ := rfl

/-- When `cam_destroy_hdl` accepts a handle. -/
def Accepts (t : Table α) (devHdl : UInt32) (devHdlType : ℤ) : Prop :=
  getHdlIdx devHdl < maxHandlesV2 ∧ Active t (getHdlIdx devHdl) ∧
    (getHdlType devHdl : ℤ) = devHdlType ∧ (t.hdl (getHdlIdx devHdl)).hdlValue = devHdl

theorem destroyHdl_of_accepts {t : Table α} {devHdl : UInt32} {devHdlType : ℤ}
    (h : Accepts t devHdl devHdlType) :
    destroyHdl t devHdl devHdlType = (.ok (),⟨Function.update t.hdl (getHdlIdx devHdl)
      { t.hdl (getHdlIdx devHdl) with state := .free,ops := none,priv := none },
      Function.update t.bitmap (getHdlIdx devHdl) false⟩) := by
  obtain ⟨hlt,ha,ht,hv⟩ := h
  have hstate : (t.hdl (getHdlIdx devHdl)).state = .active := ha
  simp [destroyHdl,Nat.not_le.mpr hlt,hstate,ht,hv]

/-- A rejected destroy changes nothing. -/
theorem destroyHdl_of_not_accepts {t : Table α} {devHdl : UInt32} {devHdlType : ℤ}
    (h : ¬ Accepts t devHdl devHdlType) :
    destroyHdl t devHdl devHdlType = (.error .einval,t) := by
  simp only [destroyHdl]
  split
  · rfl
  split
  · rfl
  split
  · rfl
  split
  · rfl
  · rename_i h1 h2 h3 h4
    exact absurd ⟨Nat.lt_of_not_le h1,not_not.mp h2,not_not.mp h3,not_not.mp h4⟩ h

theorem Inv.destroy (h : Inv w) {devHdl : UInt32} {devHdlType : ℤ}
    (hacc : Accepts w.table devHdl devHdlType) {slot : Handle α} (hs : slot.state = .free) :
    Inv ⟨⟨Function.update w.table.hdl (getHdlIdx devHdl) slot,
      Function.update w.table.bitmap (getHdlIdx devHdl) false⟩,
      w.live.filter fun e => e.hdl ≠ devHdl⟩ := by
  obtain ⟨hlt,-,-,hv⟩ := hacc
  have hidx : ∀ {j} {e : Live α},j < maxHandlesV2 → Describes (w.table.hdl j) j e →
      (e.hdl ≠ devHdl ↔ j ≠ getHdlIdx devHdl) := fun {j e} hj hd => by
    refine ⟨fun hne hji => hne ?_,fun hji hne => hji ?_⟩
    · rw [← hd.hdlValue,hji,hv]
    · rw [← hd.getHdlIdx hj,hne]
  refine ⟨fun j hj => ?_,fun j hj ha => ?_,fun e he => ?_,
    h.nodup.sublist (List.filter_sublist.map _)⟩
  · by_cases hji : j = getHdlIdx devHdl
    · subst hji
      simp [Active,hs]
    · simpa [Active,hji] using h.bits j hj
  · have hji : j ≠ getHdlIdx devHdl := fun hji => by simp [Active,hji,hs] at ha
    obtain ⟨e,he,hd⟩ := h.held j hj (by simpa [Active,hji] using ha)
    exact ⟨e,List.mem_filter.mpr ⟨he,by simpa using (hidx hj hd).mpr hji⟩,by simpa [hji] using hd⟩
  · obtain ⟨he,hne⟩ := List.mem_filter.mp he
    obtain ⟨j,hj,ha,hd⟩ := h.slot e he
    have hji := (hidx hj hd).mp (by simpa using hne)
    exact ⟨j,hj,by simpa [Active,hji] using ha,by simpa [hji] using hd⟩

theorem Inv.freeHdls (w : World α) : Inv ⟨CamHandles.freeHdls w.table,[]⟩ := by
  have hno : ∀ i < maxHandlesV2,¬ Active (CamHandles.freeHdls w.table) i := fun i hi ha => by
    simp only [Active,CamHandles.freeHdls,hi,true_and] at ha
    split at ha
    · simp at ha
    · rename_i hna
      exact hna ha
  refine ⟨fun i hi => ?_,fun i hi ha => absurd ha (hno i hi),
    fun e he => absurd he List.not_mem_nil,List.nodup_nil⟩
  have hbit : (CamHandles.freeHdls w.table).bitmap i = false := by
    simp [CamHandles.freeHdls,hi]
  simp [hbit,hno i hi]

theorem Inv.step (h : Inv w) (op : Op α) : Inv (step w op) := by
  cases op with
  | createSession rnd priv => exact h.create rnd .session priv _ fun _ => rfl
  | createDevice crmActive rnd hdlData =>
    cases crmActive with
    | false => exact h
    | true =>
      rw [CamHandles.step,createDeviceHdl_open]
      exact h.create rnd .dev hdlData.priv _ fun _ => rfl
  | createLink rnd hdlData => exact h.create rnd .link hdlData.priv _ fun _ => rfl
  | destroy devHdl devHdlType =>
    rw [CamHandles.step]
    by_cases hacc : Accepts w.table devHdl devHdlType
    · rw [destroyHdl_of_accepts hacc]
      exact h.destroy hacc rfl
    · rw [destroyHdl_of_not_accepts hacc]
      exact h
  | freeHdls => exact Inv.freeHdls w

/-- Every sequence of operations from the empty table keeps the invariant. -/
theorem inv_run (ops : List (Op α)) : Inv (run step World.init ops) :=
  run_invariant (I := Inv) (fun _ op h => Inv.step h op) inv_init ops

/-- The result of a creation. -/
def creation (t : Table α) : Op α → Option (Except Errno UInt32)
  | .createSession rnd priv => some (createSessionHdl t rnd priv).1
  | .createDevice crmActive rnd hdlData => some (createDeviceHdl crmActive t rnd hdlData).1
  | .createLink rnd hdlData => some (createLinkHdl t rnd hdlData).1
  | _ => none

/-- A creation for a device while the request manager is closed. -/
def Closed : Op α → Prop
  | .createDevice crmActive _ _ => crmActive = false
  | _ => False

/-- A creation that fails for want of a slot finds all of them active. -/
theorem Inv.createHdl_error (h : Inv w) {rnd : UInt8} {type : HdlType}
    {fill : UInt32 → Handle α} {e : Errno}
    (he : (createHdl w.table rnd type fill).1 = .error e) :
    ∀ i < maxHandlesV2,Active w.table i := by
  rw [createHdl] at he
  rcases findFirstZeroBit_spec w.table.bitmap maxHandlesV2 with ⟨hlt,-⟩ | ⟨-,hall⟩
  · simp [Nat.not_le.mpr hlt] at he
  · exact fun i hi => (h.bits i hi).mp (hall i hi)

theorem Inv.creation_error (h : Inv w) {op : Op α} {e : Errno}
    (he : creation w.table op = some (.error e)) :
    (∀ i < maxHandlesV2,Active w.table i) ∨ Closed op := by
  cases op with
  | createSession rnd priv => exact Or.inl (h.createHdl_error (Option.some.inj he))
  | createDevice crmActive rnd hdlData =>
    cases crmActive with
    | false => exact Or.inr rfl
    | true =>
      rw [creation,createDeviceHdl_open] at he
      exact Or.inl (h.createHdl_error (Option.some.inj he))
  | createLink rnd hdlData => exact Or.inl (h.createHdl_error (Option.some.inj he))
  | destroy => simp [creation] at he
  | freeHdls => simp [creation] at he

/-- A live handle is one its slot holds. -/
theorem Inv.mem_live (h : Inv w) {hdl : UInt32} :
    (∃ e ∈ w.live,e.hdl = hdl) ↔ getHdlIdx hdl < maxHandlesV2 ∧
      Active w.table (getHdlIdx hdl) ∧ (w.table.hdl (getHdlIdx hdl)).hdlValue = hdl := by
  constructor
  · rintro ⟨e,he,rfl⟩
    obtain ⟨i,hi,ha,hd⟩ := h.slot e he
    have hidx := hd.getHdlIdx hi
    rw [hidx]
    exact ⟨hi,ha,hd.hdlValue⟩
  · rintro ⟨hi,ha,hv⟩
    obtain ⟨e,he,hd⟩ := h.held _ hi ha
    exact ⟨e,he,hd.hdlValue.symm.trans hv⟩

/-- `cam_get_priv` of a live handle with its type. -/
theorem Inv.getPriv_live (h : Inv w) {e : Live α} (he : e ∈ w.live) :
    getPriv w.table e.hdl e.type.val = e.priv := by
  obtain ⟨i,hi,ha,hd⟩ := h.slot e he
  have hstate : (w.table.hdl i).state = .active := ha
  simp [getPriv,hd.getHdlIdx hi,hd.getHdlType hi,Nat.not_le.mpr hi,hd.hdlValue,hstate,hd.priv]

/-- `cam_get_priv` of anything else. -/
theorem Inv.getPriv_not_live (h : Inv w) {hdl : UInt32} {handleType : ℤ}
    (hno : ∀ e ∈ w.live,e.hdl = hdl → (e.type.val : ℤ) ≠ handleType) :
    getPriv w.table hdl handleType = none := by
  simp only [getPriv]
  split
  · rfl
  split
  · rfl
  split
  · rfl
  split
  · rfl
  · rename_i h1 h2 h3 h4
    obtain ⟨e,he,heq⟩ := h.mem_live.mpr ⟨Nat.lt_of_not_le h1,not_not.mp h3,not_not.mp h2⟩
    obtain ⟨i,hi,-,hd⟩ := h.slot e he
    have htype := hd.getHdlType hi
    rw [heq] at htype
    rw [not_not,htype] at h4
    exact absurd h4 (hno e he heq)

/-- `cam_handle_validate` accepts the live handles of their session. -/
theorem Inv.handleValidate_iff (h : Inv w) {sessionHdl hdl : UInt32} :
    handleValidate w.table sessionHdl hdl = true ↔
      (∃ e ∈ w.live,e.hdl = hdl) ∧ (w.table.hdl (getHdlIdx hdl)).sessionHdl = sessionHdl := by
  rw [h.mem_live]
  simp only [handleValidate,Active,← Nat.not_lt]
  split
  · simp_all
  split
  · simp_all
  split
  · rename_i h1
    simp only [Bool.false_eq_true,false_iff]
    rintro ⟨⟨-,-,hv⟩,hs⟩
    exact h1.elim (fun hh => hh hs) fun hh => hh hv
  · simp_all

/-- `cam_get_device_ops` of a handle that is not live -/
theorem Inv.getDeviceOps_not_live (h : Inv w) {hdl : UInt32} (hno : ∀ e ∈ w.live,e.hdl ≠ hdl) :
    getDeviceOps w.table hdl = none := by
  simp only [getDeviceOps]
  split
  · rfl
  split
  · rfl
  split
  · rfl
  split
  · rfl
  · rename_i h1 h2 h3 h4
    obtain ⟨e,he,heq⟩ := h.mem_live.mpr ⟨Nat.lt_of_not_le h1,not_not.mp h2,not_not.mp h4⟩
    exact absurd heq (hno e he)

/-- What is promised of the table and its live handles. -/
structure Promised (w : World α) : Prop where
  bits : ∀ i < maxHandlesV2,w.table.bitmap i = true ↔ Active w.table i
  creation : ∀ op e,creation w.table op = some (.error e) →
    (∀ i < maxHandlesV2,Active w.table i) ∨ Closed op
  nodup : (w.live.map (·.hdl)).Nodup
  nonneg : ∀ e ∈ w.live,e.hdl.toNat < 2^31
  getPriv_live : ∀ e ∈ w.live,getPriv w.table e.hdl e.type.val = e.priv
  getPriv_not_live : ∀ hdl handleType,
    (∀ e ∈ w.live,e.hdl = hdl → (e.type.val : ℤ) ≠ handleType) →
      getPriv w.table hdl handleType = none
  rejected : ∀ devHdl devHdlType e,(destroyHdl w.table devHdl devHdlType).1 = .error e →
    (destroyHdl w.table devHdl devHdlType).2 = w.table

/-- Every sequence of operations leaves the table as promised. -/
theorem promised_run (ops : List (Op α)) : Promised (run step World.init ops) := by
  have h := inv_run ops
  refine ⟨h.bits,fun op e => h.creation_error,h.nodup,fun e he => ?_,fun e => h.getPriv_live,
    fun hdl ty => h.getPriv_not_live,fun devHdl ty e he => ?_⟩
  · obtain ⟨i,hi,-,hd⟩ := h.slot e he
    exact hd.lt hi
  · by_cases hacc : Accepts (run step World.init ops).table devHdl ty
    · simp [destroyHdl_of_accepts hacc] at he
    · rw [destroyHdl_of_not_accepts hacc]

/-- With the request manager closed a device gets no handle even from an empty table. -/
theorem creation_closed : ¬ ∀ (ops : List (Op ℕ)) (op : Op ℕ) (e : Errno),
    creation (run step World.init ops).table op = some (.error e) →
      ∀ i < maxHandlesV2,Active (run step World.init ops).table i := by
  intro h
  have hh := h [] (.createDevice false 0 ⟨0,0,none,none⟩) .einval rfl 0 (by decide)
  exact absurd hh (by decide)

end CamHandles
end MarbleModules
