import MarbleModules.CamSyncSignal

/-! What one step does to fences, outcomes and notifications is said once; the accounting of
groups, the delivery of callbacks and the status of groups over whole runs follow from it. -/
namespace MarbleModules
namespace CamSync

section Progress

variable {dev dev' : SyncDev} {obj : ℕ} {op : Op} {row : Row}

/-- The fences of the events user space has been sent and of the waiters that have returned. -/
def told (dev : SyncDev) : List ℕ := dev.events.map Event.fence ++ dev.wakeups.map Wakeup.fence

/-- A payload is registered on a signaled row, and its status is reported at once. -/
def Reports (dev : SyncDev) (op : Op) (f : ℕ) : Prop :=
  ∃ obj p, op = .registerPayload obj p true ∧ obj ≠ 0 ∧ obj < maxObjs ∧
    (dev.table obj).state.IsSignaled ∧ (dev.table obj).fence = f

/-- What a step can do. Rows that stay valid keep their fence and their members, a new row has
the next fence, and whatever is reported is the status of a fence with an outcome or of one
that is no longer valid, unless a payload has been registered. -/
structure Progress (dev dev' : SyncDev) (op : Op) : Prop where
  old : ∀ i, (dev.table i).state ≠ .invalid → (dev'.table i).state ≠ .invalid →
    (dev'.table i).type = (dev.table i).type ∧ (dev'.table i).fence = (dev.table i).fence ∧
      (dev'.table i).members = (dev.table i).members
  new : ∀ i, (dev'.table i).state ≠ .invalid → (dev.table i).state ≠ .invalid ∨
    (dev'.table i).fence = dev.nextFence ∧ ∀ m ∈ (dev'.table i).members,
      ∃ c, (dev.table c).state ≠ .invalid ∧ (dev.table c).type = .indv ∧
        (dev.table c).fence = m ∧ (dev'.table c).state = (dev.table c).state
  kept : ∀ i, (dev.table i).state ≠ .invalid → (dev'.table i).state ≠ .invalid ∨ op = .destroy i
  active : ∀ i, (dev.table i).state ≠ .invalid → (dev'.table i).state = .active →
    (dev.table i).state = .active
  stays : ∀ c, (dev.table c).state = .active → (dev.table c).type = .indv →
    (dev'.table c).state = .active ∨ dev'.outcome (dev.table c).fence ≠ none ∨ op = .destroy c
  outcome : ∀ f, dev'.outcome f = dev.outcome f ∨ dev.outcome f = none ∧
    ∃ i, (dev'.table i).state ≠ .invalid ∧ (dev'.table i).fence = f
  nextFence : dev.nextFence ≤ dev'.nextFence
  told : ∀ f ∈ told dev', f ∈ told dev ∨ f < dev'.nextFence ∧ (dev'.outcome f ≠ none ∨
    (∀ i, (dev'.table i).state ≠ .invalid → (dev'.table i).fence ≠ f) ∨ Reports dev op f)

theorem Grows.progress (h : Grows dev dev') (op : Op) : Progress dev dev' op := by
  refine ⟨fun i hi _ => ?_,fun i hi => ?_,fun i hi => Or.inl ?_,fun i hi ha => ?_,
    fun c hc _ => Or.inl ?_,h.outcome,h.nextFence,fun f hf => Or.inl ?_⟩
  · exact ⟨(h.old i hi).type,(h.old i hi).fence,(h.old i hi).members⟩
  · rcases h.new i hi with hv | ⟨hf,hm⟩
    · exact Or.inl hv
    · refine Or.inr ⟨hf,fun m hmem => ?_⟩
      obtain ⟨c,hc,ht,hcf⟩ := hm m hmem
      exact ⟨c,hc,ht,hcf,(h.old c hc).state⟩
  · rw [(h.old i hi).state]
    exact hi
  · rw [(h.old i hi).state] at ha
    exact ha
  · rw [(h.old c (by rw [hc]; decide)).state]
    exact hc
  · unfold CamSync.told at hf ⊢
    rwa [h.events,h.wakeups] at hf

/-- Every row is as before, or it has become invalid because its fence is destroyed. -/
theorem Progress.ofRows (hrows : ∀ i, SameRow (dev.table i) (dev'.table i) ∨
      (dev'.table i).state = .invalid ∧ (op = .destroy i ∨ (dev.table i).state = .invalid))
    (hnext : dev'.nextFence = dev.nextFence) (hout : dev'.outcome = dev.outcome)
    (htold : ∀ f ∈ CamSync.told dev', f ∈ CamSync.told dev ∨ f < dev'.nextFence ∧
      (dev'.outcome f ≠ none ∨
        (∀ i, (dev'.table i).state ≠ .invalid → (dev'.table i).fence ≠ f) ∨ Reports dev op f)) :
    Progress dev dev' op := by
  have hvalid : ∀ i, (dev'.table i).state ≠ .invalid → SameRow (dev.table i) (dev'.table i) :=
    fun i hi => (hrows i).resolve_right fun hh => hi hh.1
  have hkept : ∀ i, (dev.table i).state ≠ .invalid →
      SameRow (dev.table i) (dev'.table i) ∨ op = .destroy i :=
    fun i hi => (hrows i).imp id fun hh => hh.2.resolve_right hi
  refine ⟨fun i _ hi => ?_,fun i hi => Or.inl ?_,fun i hi => ?_,fun i _ ha => ?_,
    fun c hc _ => ?_,fun f => Or.inl (by rw [hout]),le_of_eq hnext.symm,htold⟩
  · exact ⟨(hvalid i hi).type,(hvalid i hi).fence,(hvalid i hi).members⟩
  · rwa [(hvalid i hi).state] at hi
  · refine (hkept i hi).imp (fun hs => ?_) id
    rwa [hs.state]
  · rwa [(hvalid i (by rw [ha]; decide)).state] at ha
  · rcases hkept c (by rw [hc]; decide) with hs | hop
    · exact Or.inl (hs.state.trans hc)
    · exact Or.inr (Or.inr hop)

theorem Progress.ofSame (hrows : ∀ i, SameRow (dev.table i) (dev'.table i))
    (hnext : dev'.nextFence = dev.nextFence) (hout : dev'.outcome = dev.outcome)
    (htold : ∀ f ∈ CamSync.told dev', f ∈ CamSync.told dev ∨ f < dev'.nextFence ∧
      (dev'.outcome f ≠ none ∨
        (∀ i, (dev'.table i).state ≠ .invalid → (dev'.table i).fence ≠ f) ∨ Reports dev op f)) :
    Progress dev dev' op :=
  .ofRows (fun i => Or.inl (hrows i)) hnext hout htold

theorem Progress.refl (dev : SyncDev) (op : Op) : Progress dev dev op :=
  .ofSame (fun _ => .refl _) rfl rfl fun _ hf => Or.inl hf

theorem Progress.setRow (htable : dev'.table = Function.update dev.table obj row)
    (hrow : SameRow (dev.table obj) row)
    (hnext : dev'.nextFence = dev.nextFence) (hout : dev'.outcome = dev.outcome)
    (hevents : dev'.events = dev.events) (hwake : dev'.wakeups = dev.wakeups) :
    Progress dev dev' op := by
  refine .ofSame (fun i => ?_) hnext hout fun f hf => Or.inl ?_
  · rw [htable]
    by_cases hi : i = obj
    · subst hi
      simpa using hrow
    · simpa [hi] using SameRow.refl _
  · unfold CamSync.told at hf ⊢
    rwa [hevents,hwake] at hf

theorem registerPayload_progress (h : Inv dev) (obj : ℕ) (p : Payload) (alloc : Bool) :
    Progress dev (camSyncHandleRegisterUserPayload dev obj p alloc).1
      (.registerPayload obj p alloc) := by
  unfold camSyncHandleRegisterUserPayload
  split
  · exact .refl dev _
  · next hrange =>
    split
    · exact .refl dev _
    · next halloc =>
      dsimp only
      split
      · exact .refl dev _
      · split
        · next hsig =>
          obtain ⟨h0,hlt⟩ := not_or.mp hrange
          refine .ofSame (fun _ => .refl _) rfl rfl fun f hf => ?_
          simp only [told,sendV4l2Event,List.map_append,List.map_cons,List.map_nil,
            List.mem_append,List.mem_singleton] at hf ⊢
          rcases hf with (hf | hf) | hf
          · exact Or.inl (Or.inl hf)
          · right
            refine ⟨?_,Or.inr (Or.inr ⟨obj,p,?_,h0,Nat.not_le.mp hlt,hsig,hf.symm⟩)⟩
            · rw [hf]
              exact (h.rows obj).fence_lt
            · simpa using halloc
          · exact Or.inl (Or.inr hf)
        · split
          · exact .refl dev _
          · exact .setRow rfl ⟨rfl,rfl,rfl,rfl⟩ rfl rfl rfl rfl

theorem signal_progress (h : Inv dev) (obj status : ℕ) :
    Progress dev (camSyncSignal dev obj status).1 (.signal obj status) := by
  have hinv := signal_inv h obj status
  rcases camSyncSignal_cases dev obj status with
    heq | ⟨refCnt,heq⟩ | ⟨st,row,events,hst,htype,hactive,hrow,hevents,heq⟩
  · rw [heq]
    exact .refl dev _
  · rw [heq]
    exact .setRow rfl ⟨rfl,rfl,rfl,rfl⟩ rfl rfl rfl rfl
  · have htells := (foldl_signalParent hst _ _ (h.owing htype hactive hst row hrow events)).2
    rw [← heq] at htells
    have hvalid : (dev.table obj).state ≠ .invalid := by
      rw [hactive]
      decide
    have hst' : row.state = st := by rw [hrow]
    have hnone := h.outcome_active hactive
    have hself := htells.rows obj
    simp only [setRow_table,Function.update_self] at hself
    have hout : (camSyncSignal dev obj status).1.outcome (dev.table obj).fence ≠ none := by
      rw [htells.outcome_some (by simp)]
      simp
    have hrowType : row.type = (dev.table obj).type ∧ row.fence = (dev.table obj).fence ∧
        row.members = (dev.table obj).members := by
      rw [hrow]
      exact ⟨rfl,rfl,rfl⟩
    have htable : ∀ i, i ≠ obj → ToldRow (dev.table i) ((camSyncSignal dev obj status).1.table i) := by
      intro i hi
      have hh := htells.rows i
      simpa only [setRow_table,Function.update_of_ne hi] using hh
    have hobj : ((camSyncSignal dev obj status).1.table obj).state ≠ .invalid := by
      rw [hself.valid,hst']
      exact hst.ne_invalid
    have hrows : ∀ i, (((camSyncSignal dev obj status).1.table i).type = (dev.table i).type ∧
        ((camSyncSignal dev obj status).1.table i).fence = (dev.table i).fence ∧
          ((camSyncSignal dev obj status).1.table i).members = (dev.table i).members) ∧
        (((camSyncSignal dev obj status).1.table i).state ≠ .invalid ↔
          (dev.table i).state ≠ .invalid) ∧
        (((camSyncSignal dev obj status).1.table i).state = .active →
          (dev.table i).state = .active) := by
      intro i
      by_cases hi : i = obj
      · subst hi
        exact ⟨⟨hself.type.trans hrowType.1,hself.fence.trans hrowType.2.1,
          hself.members.trans hrowType.2.2⟩,iff_of_true hobj hvalid,fun _ => hactive⟩
      · have hh := htable i hi
        exact ⟨⟨hh.type,hh.fence,hh.members⟩,hh.valid,hh.active⟩
    refine ⟨fun i _ _ => (hrows i).1,fun i hi => Or.inl ((hrows i).2.1.mp hi),
      fun i hi => Or.inl ((hrows i).2.1.mpr hi),fun i _ => (hrows i).2.2,
      fun c hc ht => ?_,fun f => ?_,le_of_eq htells.nextFence.symm,fun f hf => ?_⟩
    · by_cases hi : c = obj
      · subst hi
        exact Or.inr (Or.inl hout)
      · left
        rw [(htable c hi).indv ht]
        exact hc
    · by_cases hf : f = (dev.table obj).fence
      · right
        rw [hf]
        exact ⟨hnone,obj,hobj,hself.fence.trans hrowType.2.1⟩
      · have hh := htells.outcome f
        simp only [Function.update_of_ne hf,setRow_table] at hh
        refine hh.imp id fun ⟨hn,i,hi,hif⟩ => ⟨hn,i,?_,?_⟩
        · exact (htells.rows i).valid.mpr hi
        · exact (htells.rows i).fence.trans hif
    · unfold told at hf ⊢
      rw [htells.wakeups] at hf
      rcases List.mem_append.mp hf with hf | hf
      · obtain ⟨e,he,rfl⟩ := List.mem_map.mp hf
        have hnews : e ∈ dev.events ∨ (camSyncSignal dev obj status).1.outcome e.fence ≠ none := by
          rcases htells.events e he with hold | hnew
          · rcases hevents e hold with hold' | hnew
            · exact Or.inl hold'
            · right
              rw [hnew]
              exact hout
          · exact Or.inr hnew
        rcases hnews with hold | hnew
        · exact Or.inl (List.mem_append.mpr (Or.inl (List.mem_map_of_mem hold)))
        · refine Or.inr ⟨?_,Or.inl hnew⟩
          by_contra hge
          exact hnew (hinv.fresh _ (Nat.not_lt.mp hge))
      · exact Or.inl (List.mem_append.mpr (Or.inr hf))

/-- Dropping the last reference of a row frees it. -/
theorem putWaitRef_rows (dev : SyncDev) (obj : ℕ) :
    (∀ j, j ≠ obj → SameRow (dev.table j) ((camSyncPutWaitRef dev obj).table j)) ∧
    ((dev.table obj).waitRefCnt ≠ 1 ∧
        SameRow (dev.table obj) ((camSyncPutWaitRef dev obj).table obj) ∧
        (camSyncPutWaitRef dev obj).events = dev.events ∨
      (dev.table obj).waitRefCnt = 1 ∧ ((camSyncPutWaitRef dev obj).table obj).state = .invalid ∧
        ∀ e ∈ (camSyncPutWaitRef dev obj).events,
          e ∈ dev.events ∨ e.fence = (dev.table obj).fence) ∧
    (camSyncPutWaitRef dev obj).nextFence = dev.nextFence ∧
    (camSyncPutWaitRef dev obj).outcome = dev.outcome ∧
    (camSyncPutWaitRef dev obj).wakeups = dev.wakeups := by
  unfold camSyncPutWaitRef
  dsimp only
  split
  · next hone =>
    have hd := deinited (dev.setRow obj
      { dev.table obj with waitRefCnt := (dev.table obj).waitRefCnt-1 }) obj
    refine ⟨fun j hj => ?_,Or.inr ⟨hone,?_,fun e he => ?_⟩,hd.nextFence,hd.outcome,hd.wakeups⟩
    · obtain ⟨ps,cs,hrow,_⟩ := hd.others j hj
      rw [hrow]
      simp only [setRow_table,Function.update_of_ne hj]
      exact ⟨rfl,rfl,rfl,rfl⟩
    · rw [hd.self]
      rfl
    · rw [hd.events] at he
      rcases List.mem_append.mp he with he | he
      · exact Or.inl he
      · obtain ⟨_,_,rfl⟩ := List.mem_map.mp he
        exact Or.inr (by simp)
  · next hone =>
    refine ⟨fun j hj => ?_,Or.inl ⟨hone,?_,rfl⟩,rfl,rfl,rfl⟩
    · simpa [hj] using SameRow.refl _
    · simp only [setRow_table,Function.update_self]
      exact ⟨rfl,rfl,rfl,rfl⟩

/-- A reference of the row `obj` is dropped, after the row has been destroyed or not. -/
theorem putWaitRef_progress (h : Inv dev) {dev₁ : SyncDev} (hf0 : (dev.table obj).fence ≠ 0)
    (htable : dev₁.table = Function.update dev.table obj row)
    (hnext : dev₁.nextFence = dev.nextFence) (hout : dev₁.outcome = dev.outcome)
    (hevents : dev₁.events = dev.events) (htype : row.type = (dev.table obj).type)
    (hfence : row.fence = (dev.table obj).fence) (hmembers : row.members = (dev.table obj).members)
    (hstate : row.state = .invalid ∧ (op = .destroy obj ∨ (dev.table obj).state = .invalid) ∨
      row.state = (dev.table obj).state ∧ row.waitRefCnt ≠ 1)
    (hwake : ∀ w ∈ dev₁.wakeups, w ∈ dev.wakeups ∨
      w.fence = (dev.table obj).fence ∧ (dev.outcome w.fence ≠ none ∨ row.state = .invalid)) :
    Progress dev (camSyncPutWaitRef dev₁ obj) op := by
  obtain ⟨hothers,hself,hnext',hout',hwake'⟩ := putWaitRef_rows dev₁ obj
  have hrow : dev₁.table obj = row := by simp [htable]
  have hsame : ∀ j, j ≠ obj → SameRow (dev.table j) ((camSyncPutWaitRef dev₁ obj).table j) := by
    intro j hj
    have hh := hothers j hj
    simpa only [htable,Function.update_of_ne hj] using hh
  -- the row has become invalid, or it is as before
  have hobj : ((camSyncPutWaitRef dev₁ obj).table obj).state = .invalid ∧
      (op = .destroy obj ∨ (dev.table obj).state = .invalid) ∨
      SameRow (dev.table obj) ((camSyncPutWaitRef dev₁ obj).table obj) ∧
        (camSyncPutWaitRef dev₁ obj).events = dev.events ∧ row.state = (dev.table obj).state := by
    rw [hrow] at hself
    rcases hself with ⟨_,hs,hev⟩ | ⟨hone,hs,_⟩
    · rcases hstate with ⟨hinv,hop⟩ | ⟨hst,_⟩
      · exact Or.inl ⟨hs.state.trans hinv,hop⟩
      · exact Or.inr ⟨⟨hs.type.trans htype,hs.state.trans hst,hs.fence.trans hfence,
          hs.members.trans hmembers⟩,hev.trans hevents,hst⟩
    · rcases hstate with ⟨_,hop⟩ | ⟨_,hne⟩
      · exact Or.inl ⟨hs,hop⟩
      · exact absurd hone hne
  -- a fence reported by the freed row is no longer valid
  have hnobody : ((camSyncPutWaitRef dev₁ obj).table obj).state = .invalid → ∀ i,
      ((camSyncPutWaitRef dev₁ obj).table i).state ≠ .invalid →
        ((camSyncPutWaitRef dev₁ obj).table i).fence ≠ (dev.table obj).fence := by
    intro hinv i hi hf
    have hio : i ≠ obj := by
      rintro rfl
      exact hi hinv
    rw [(hsame i hio).fence] at hf
    exact hio (h.links.fences i obj hf (hf ▸ hf0))
  refine .ofRows (fun i => ?_) (hnext'.trans hnext) (hout'.trans hout) fun f hf => ?_
  · by_cases hio : i = obj
    · subst hio
      exact hobj.symm.imp And.left id
    · exact Or.inl (hsame i hio)
  · unfold told at hf ⊢
    rw [hnext',hnext,hout',hout]
    rw [hwake'] at hf
    rcases List.mem_append.mp hf with hf | hf
    · obtain ⟨e,he,rfl⟩ := List.mem_map.mp hf
      rcases hself with ⟨_,_,hev⟩ | ⟨_,hinv,hev⟩
      · rw [hev,hevents] at he
        exact Or.inl (List.mem_append.mpr (Or.inl (List.mem_map_of_mem he)))
      · rcases hev e he with he | he
        · rw [hevents] at he
          exact Or.inl (List.mem_append.mpr (Or.inl (List.mem_map_of_mem he)))
        · rw [he,hrow,hfence]
          exact Or.inr ⟨(h.rows obj).fence_lt,Or.inr (Or.inl (hnobody hinv))⟩
    · obtain ⟨w,hw,rfl⟩ := List.mem_map.mp hf
      rcases hwake w hw with hw | ⟨hwf,hw⟩
      · exact Or.inl (List.mem_append.mpr (Or.inr (List.mem_map_of_mem hw)))
      · right
        rw [hwf] at hw ⊢
        refine ⟨(h.rows obj).fence_lt,hw.imp id fun hinv => Or.inl (hnobody ?_)⟩
        rcases hobj with ⟨hinv',_⟩ | ⟨hs,_,hst⟩
        · exact hinv'
        · rw [hs.state,← hst]
          exact hinv

theorem destroy_progress (h : Inv dev) (obj : ℕ) :
    Progress dev (camSyncDestroy dev obj).1 (.destroy obj) := by
  unfold camSyncDestroy
  split
  · exact .refl dev _
  · dsimp only
    split
    · exact .refl dev _
    · next hs =>
      have hr := h.rows obj
      exact putWaitRef_progress h (hr.fence (hr.alloc hs).1 (hr.alloc hs).2.1) rfl rfl rfl rfl rfl
        rfl rfl (Or.inl ⟨rfl,Or.inl rfl⟩) fun w hw => Or.inl hw

/-- Whatever is destroyed is invalid afterwards. -/
theorem destroy_invalid (hrange : ¬ (obj = 0 ∨ maxObjs ≤ obj))
    (hs : (dev.table obj).state ≠ .invalid) :
    ((camSyncDestroy dev obj).1.table obj).state = .invalid := by
  unfold camSyncDestroy
  rw [if_neg hrange]
  dsimp only
  rw [if_neg hs]
  obtain ⟨_,hself,_⟩ := putWaitRef_rows
    (dev.setRow obj { dev.table obj with state := .invalid, signaled := true }) obj
  rcases hself with ⟨_,hrow,_⟩ | ⟨_,hinv,_⟩
  · rw [hrow.state]
    simp
  · exact hinv

theorem waitEnd_progress (h : Inv dev) (obj : ℕ) (timedOut : Bool) :
    Progress dev (camSyncWaitEnd dev obj timedOut) (.waitEnd obj timedOut) := by
  unfold camSyncWaitEnd
  dsimp only
  split
  · exact .refl dev _
  · next hwait =>
    obtain ⟨hpos,hsig⟩ := not_or.mp hwait
    have hr := h.rows obj
    have hbit : dev.bitmap obj = true := by
      by_contra hb
      exact hpos (hr.free (by simpa using hb)).1
    have h0 : obj ≠ 0 := fun hh => hpos (hr.awake hh)
    have hf0 := hr.fence hbit h0
    have htable : dev.table = Function.update dev.table obj (dev.table obj) := by simp
    refine putWaitRef_progress h hf0 htable rfl rfl rfl rfl rfl rfl ?_ fun w hw => ?_
    · by_cases hs : (dev.table obj).state = .invalid
      · exact Or.inl ⟨hs,Or.inr hs⟩
      · right
        have hrefs := hr.refs hs
        exact ⟨rfl,by omega⟩
    · dsimp only at hw
      split at hw
      · exact Or.inl hw
      · next hto =>
        rcases List.mem_append.mp hw with hw | hw
        · exact Or.inl hw
        · rw [List.mem_singleton] at hw
          subst hw
          refine Or.inr ⟨rfl,?_⟩
          by_cases hs : (dev.table obj).state = .invalid
          · exact Or.inr hs
          · left
            refine (h.status obj hs).signaled.mp ?_
            by_contra hns
            exact hsig ⟨by simpa using hto,by simpa using hns⟩

theorem step_progress (h : Inv dev) (op : Op) : Progress dev (step dev op) op := by
  cases op with
  | create => exact (create_inv h).2.progress _
  | merge objs alloc => exact (merge_inv h objs alloc).2.progress _
  | getObjRef obj =>
    rw [step,camSyncGetObjRef]
    split
    · exact .refl dev _
    · split
      · exact .refl dev _
      · exact .setRow rfl ⟨rfl,rfl,rfl,rfl⟩ rfl rfl rfl rfl
  | putObjRef obj =>
    rw [step,camSyncPutObjRef]
    split
    · exact .refl dev _
    · exact .setRow rfl ⟨rfl,rfl,rfl,rfl⟩ rfl rfl rfl rfl
  | signal obj status => exact signal_progress h obj status
  | destroy obj => exact destroy_progress h obj
  | waitBegin obj =>
    rw [step,camSyncWaitBegin]
    split
    · exact .refl dev _
    · dsimp only
      split
      · exact .refl dev _
      · exact .setRow rfl ⟨rfl,rfl,rfl,rfl⟩ rfl rfl rfl rfl
  | waitEnd obj timedOut => exact waitEnd_progress h obj timedOut
  | registerCallback func data obj alloc =>
    rw [step,camSyncRegisterCallback]
    split
    · exact .refl dev _
    · dsimp only
      split
      · exact .refl dev _
      · split
        · exact .refl dev _
        · split
          · exact .ofSame (fun _ => .refl _) rfl rfl fun f hf => Or.inl hf
          · exact .setRow rfl ⟨rfl,rfl,rfl,rfl⟩ rfl rfl rfl rfl
  | deregisterCallback func data obj =>
    rw [step,camSyncDeregisterCallback]
    split
    · exact .refl dev _
    · dsimp only
      split
      · exact .refl dev _
      · exact .setRow rfl ⟨rfl,rfl,rfl,rfl⟩ rfl rfl rfl rfl
  | registerPayload obj p alloc => exact registerPayload_progress h obj p alloc
  | deregisterPayload obj p =>
    rw [step,camSyncHandleDeregisterUserPayload]
    split
    · exact .refl dev _
    · dsimp only
      split
      · exact .refl dev _
      · exact .setRow rfl ⟨rfl,rfl,rfl,rfl⟩ rfl rfl rfl rfl
  | setEventq on => exact .ofSame (fun _ => .refl _) rfl rfl fun f hf => Or.inl hf

end Progress

section Accounting

variable {dev dev' : SyncDev} {g : ℕ} {op : Op}

/-- The fences that are still active and still carry the group in their parents list. -/
def carriers (dev : SyncDev) (g : ℕ) : List ℕ :=
  (List.range maxObjs).filter fun c =>
    (dev.table c).state = .active ∧ g ∈ (dev.table c).parentsList

/-- Every fence merged into the group has been signaled or destroyed. -/
def Settled (dev : SyncDev) (g : ℕ) : Prop :=
  ∀ c, (dev.table c).fence ∈ (dev.table g).members → (dev.table c).state ≠ .active

/-- The accounting of groups: the counter is right, and a settled group is complete. -/
def Accounted (dev : SyncDev) : Prop :=
  ∀ g, (dev.table g).type = .group → (dev.table g).state ≠ .invalid →
    (dev.table g).remaining = (carriers dev g).length ∧
    (Settled dev g → (dev.table g).remaining = 0 ∧ (dev.table g).state.IsSignaled ∧
      (dev.table g).signaled = true ∧ (dev.table g).callbackList = [])

/-- No fence a valid group still waits for has been destroyed. -/
def Intact (dev : SyncDev) : Prop :=
  ∀ g, (dev.table g).type = .group → (dev.table g).state ≠ .invalid →
    ∀ m ∈ (dev.table g).members, dev.outcome m = none →
      ∃ c, (dev.table c).fence = m ∧ (dev.table c).state = .active

/-- `cam_sync_destroy` is not called on an active fence with a valid parent. -/
def KeepsCount (dev : SyncDev) : Op → Prop
  | .destroy obj => obj ≠ 0 → obj < maxObjs → (dev.table obj).state = .active →
      ∀ g ∈ (dev.table obj).parentsList, (dev.table g).state = .invalid
  | _ => True

theorem Inv.fence_inj (h : Inv dev) {i j : ℕ} (hi : (dev.table i).state ≠ .invalid)
    (heq : (dev.table i).fence = (dev.table j).fence) : i = j := by
  have hr := h.rows i
  exact h.links.fences i j heq (hr.fence (hr.alloc hi).1 (hr.alloc hi).2.1)

/-- An active member is a fence of its own and has no outcome. -/
theorem Inv.active_member (h : Inv dev) (hg : (dev.table g).state ≠ .invalid) {c : ℕ}
    (hm : (dev.table c).fence ∈ (dev.table g).members) (hc : (dev.table c).state = .active) :
    (dev.table c).type = .indv ∧ dev.outcome (dev.table c).fence = none := by
  have ht := h.links.indv g c hg hm
  refine ⟨ht,?_⟩
  rcases (h.status c (by rw [hc]; decide)).indv ht with ⟨_,ho⟩ | ⟨hsig,_⟩
  · exact ho
  · rw [hc] at hsig
    exact absurd hsig (by decide)

theorem mem_carriers {c : ℕ} : c ∈ carriers dev g ↔
    c < maxObjs ∧ (dev.table c).state = .active ∧ g ∈ (dev.table c).parentsList := by
  simp [carriers]

theorem Inv.carriers_nodup (h : Inv dev) : ((carriers dev g).map fun c => (dev.table c).fence).Nodup := by
  refine (List.nodup_map_iff_inj_on (List.nodup_range.filter _)).mpr fun c hc c' _ heq => ?_
  obtain ⟨_,hs,_⟩ := mem_carriers.mp hc
  exact h.fence_inj (by rw [hs]; decide) heq

/-- The fences that carry the group are among the members without outcome. -/
theorem Inv.carriers_subset (h : Inv dev) (hg : (dev.table g).state ≠ .invalid) :
    ((carriers dev g).map fun c => (dev.table c).fence) ⊆
      (dev.table g).members.filter fun m => dev.outcome m = none := by
  intro m hm
  obtain ⟨c,hc,rfl⟩ := List.mem_map.mp hm
  obtain ⟨_,hs,hp⟩ := mem_carriers.mp hc
  have hmem := (h.links.parents c g (by rw [hs]; decide) hp).2.2.2.2
  simp [hmem,(h.active_member hg hmem hs).2]

/-- When no member without outcome has been lost they are the same. -/
theorem Inv.subset_carriers (h : Inv dev) (hg : (dev.table g).state ≠ .invalid)
    (hintact : ∀ m ∈ (dev.table g).members, dev.outcome m = none →
      ∃ c, (dev.table c).fence = m ∧ (dev.table c).state = .active) :
    ((dev.table g).members.filter fun m => dev.outcome m = none) ⊆
      (carriers dev g).map fun c => (dev.table c).fence := by
  intro m hm
  obtain ⟨hm,hout⟩ := List.mem_filter.mp hm
  obtain ⟨c,rfl,hs⟩ := hintact m hm (by simpa using hout)
  refine List.mem_map.mpr ⟨c,mem_carriers.mpr ⟨?_,hs,h.links.carried g c hg hs hm⟩,rfl⟩
  exact ((h.rows c).alloc (by rw [hs]; decide)).2.2

theorem accounted_iff_intact (h : Inv dev) : Accounted dev ↔ Intact dev := by
  constructor
  · intro hacc g ht hg m hm hout
    have hgroup := (h.status g hg).group ht
    have hlen : ((dev.table g).members.filter fun m => dev.outcome m = none).length ≤
        ((carriers dev g).map fun c => (dev.table c).fence).length := by
      rw [List.length_map,← (hacc g ht hg).1,hgroup.remaining]
    have hperm := (h.carriers_nodup.subperm (h.carriers_subset hg)).perm_of_length_le hlen
    have hmem := hperm.mem_iff.mpr (List.mem_filter.mpr ⟨hm,by simpa using hout⟩)
    obtain ⟨c,hc,rfl⟩ := List.mem_map.mp hmem
    exact ⟨c,rfl,(mem_carriers.mp hc).2.1⟩
  · intro hintact g ht hg
    have hgroup := (h.status g hg).group ht
    have hsub := h.subset_carriers hg (hintact g ht hg)
    refine ⟨?_,fun hsettled => ?_⟩
    · have hle := (h.carriers_nodup.subperm (h.carriers_subset hg)).length_le
      have hge := ((hgroup.nodup.filter _).subperm hsub).length_le
      rw [List.length_map] at hle hge
      rw [hgroup.remaining]
      exact le_antisymm hge hle
    · have hzero : (dev.table g).remaining = 0 := by
        rw [hgroup.remaining,List.length_eq_zero_iff,List.eq_nil_iff_forall_not_mem]
        intro m hm
        obtain ⟨hm,hout⟩ := List.mem_filter.mp hm
        obtain ⟨c,rfl,hs⟩ := hintact g ht hg m hm (by simpa using hout)
        exact hsettled c hm hs
      obtain ⟨hsig,hout⟩ := hgroup.complete hzero
      refine ⟨hzero,hsig,(h.status g hg).signaled.mpr (by rw [hout]; simp),?_⟩
      rw [List.eq_nil_iff_forall_not_mem]
      intro cb hcb
      obtain ⟨_,hf,_,_,_,hnone⟩ := h.delivery.listed g cb hcb
      rw [hf,hout] at hnone
      cases hnone

/-- A fence that is active before and after the step is the same fence. -/
theorem Progress.stays_fence (hp : Progress dev dev' op) {c : ℕ}
    (hc : (dev.table c).state = .active) (hc' : (dev'.table c).state = .active) :
    (dev'.table c).fence = (dev.table c).fence :=
  (hp.old c (by rw [hc]; decide) (by rw [hc']; decide)).2.1

theorem intact_step (h : Inv dev) (hintact : Intact dev) (hop : KeepsCount dev op) :
    Intact (step dev op) := by
  have hp := step_progress h op
  intro g ht hg m hm hout
  have hold : dev.outcome m = none := by
    rcases hp.outcome m with heq | ⟨hnone,_⟩
    · rwa [heq] at hout
    · exact hnone
  rcases hp.new g hg with hv | ⟨_,hnew⟩
  · obtain ⟨ht',_,hm'⟩ := hp.old g hv hg
    rw [ht'] at ht
    rw [hm'] at hm
    obtain ⟨c,rfl,hs⟩ := hintact g ht hv m hm hold
    rcases hp.stays c hs (h.active_member hv hm hs).1 with hs' | hsome | rfl
    · exact ⟨c,hp.stays_fence hs hs',hs'⟩
    · exact absurd hout hsome
    · have halloc := (h.rows c).alloc (by rw [hs]; decide)
      exact absurd (hop halloc.2.1 halloc.2.2 hs g (h.links.carried g c hv hs hm)) hv
  · obtain ⟨c,hc,hct,rfl,hsame⟩ := hnew m hm
    rcases (h.status c hc).indv hct with ⟨hs,_⟩ | ⟨_,hsome⟩
    · have hs' := hsame.trans hs
      exact ⟨c,hp.stays_fence hs hs',hs'⟩
    · rw [hold] at hsome
      cases hsome

/-- Destroying an active child of a valid group loses it for good. -/
theorem not_intact_step (h : Inv dev) (hop : ¬ KeepsCount dev op) : ¬ Intact (step dev op) := by
  have hp := step_progress h op
  have hinv := step_inv h op
  cases op with
  | destroy obj =>
    simp only [KeepsCount,not_forall] at hop
    obtain ⟨h0,hlt,hs,g,hmem,hg⟩ := hop
    have hs' : (dev.table obj).state ≠ .invalid := by
      rw [hs]
      decide
    obtain ⟨_,ht,_,_,hm⟩ := h.links.parents obj g hs' hmem
    obtain ⟨htype,hnone⟩ := h.active_member hg hm hs
    have hgo : g ≠ obj := by
      rintro rfl
      rw [ht] at htype
      cases htype
    have hg' : ((step dev (.destroy obj)).table g).state ≠ .invalid :=
      (hp.kept g hg).resolve_right fun hh => hgo (Op.destroy.inj hh).symm
    obtain ⟨ht',_,hm'⟩ := hp.old g hg hg'
    intro hintact
    have hout : (step dev (.destroy obj)).outcome (dev.table obj).fence = none := by
      rcases hp.outcome (dev.table obj).fence with heq | ⟨_,i,hi,hif⟩
      · rw [heq]
        exact hnone
      · exfalso
        rcases hp.new i hi with hv | ⟨hf,_⟩
        · have hio : i = obj := h.fence_inj hv (((hp.old i hv hi).2.1).symm.trans hif)
          rw [hio] at hi
          exact hi (destroy_invalid (by omega) hs')
        · have := (h.rows obj).fence_lt
          omega
    obtain ⟨c,hcf,hc⟩ := hintact g (ht'.trans ht) hg' _ (hm' ▸ hm) hout
    have hcv : ((step dev (.destroy obj)).table c).state ≠ .invalid := by
      rw [hc]
      decide
    rcases hp.new c hcv with hv | ⟨hf,_⟩
    · have hco : c = obj := h.fence_inj hv (((hp.old c hv hcv).2.1).symm.trans hcf)
      rw [hco] at hcv
      exact hcv (destroy_invalid (by omega) hs')
    · have := (h.rows obj).fence_lt
      omega
  | _ => exact absurd trivial hop

/-- The accounting of groups is right throughout exactly the runs in which no active child of
a valid group is destroyed. -/
theorem accounted_always_iff (eventq trigger : Bool) (ops : List Op) :
    Runs.Always step Accounted (probe eventq trigger) ops ↔
      Runs.Guarded step KeepsCount (probe eventq trigger) ops := by
  have hinit : Inv (probe eventq trigger) ∧ Intact (probe eventq trigger) :=
    ⟨probe_inv eventq trigger,fun g _ hg => absurd rfl hg⟩
  have hP : ∀ dev, Inv dev ∧ Intact dev → Accounted dev :=
    fun dev hh => (accounted_iff_intact hh.1).mpr hh.2
  have hgood : ∀ dev op, Inv dev ∧ Intact dev → True → KeepsCount dev op →
      Inv (step dev op) ∧ Intact (step dev op) :=
    fun dev op hh _ hop => ⟨step_inv hh.1 op,intact_step hh.1 hh.2 hop⟩
  have hbad : ∀ dev op, Inv dev ∧ Intact dev → True → ¬ KeepsCount dev op →
      ¬ Accounted (step dev op) :=
    fun dev op hh _ hop hacc =>
      not_intact_step hh.1 hop ((accounted_iff_intact (step_inv hh.1 op)).mp hacc)
  exact Runs.always_iff_guarded hP hgood hbad hinit ops (Runs.guarded_true _ _ _)

/-- A merged fence with two children, one of which is destroyed without being signaled. -/
def destroyedChild : List Op := [.create,.create,.merge [1,2] fun _ => (true,true),.destroy 1]

theorem accounted_destroyedChild :
    ¬ Runs.Always step Accounted (probe true false) destroyedChild := by
  intro hh
  have hlast := (hh.last 3 (by decide +kernel) (by decide +kernel)).1
  exact absurd hlast (by decide +kernel)

end Accounting

section Callbacks

variable {dev dev' : SyncDev} {f : ℕ} {s : FenceState} {op : Op}

/-- The fence is signaled with nothing remaining. -/
def FinalState (dev : SyncDev) (f : ℕ) (s : FenceState) : Prop :=
  ∃ i, (dev.table i).fence = f ∧ (dev.table i).state = s ∧ s.IsSignaled ∧
    (dev.table i).remaining = 0

theorem FinalState.outcome (h : Inv dev) (hf : FinalState dev f s) : dev.outcome f = some s := by
  obtain ⟨i,rfl,rfl,hs,hr⟩ := hf
  have hv : (dev.table i).state ≠ .invalid := by
    intro hh
    rw [hh] at hs
    exact absurd hs (by decide)
  exact (h.status i hv).outcome_eq hs hr

/-- A valid row whose fence has an outcome is complete. -/
theorem Inv.finalState (h : Inv dev) {i : ℕ} (hi : (dev.table i).state ≠ .invalid)
    (hout : dev.outcome (dev.table i).fence = some s) : FinalState dev (dev.table i).fence s := by
  have hst := h.status i hi
  by_cases hc : (dev.table i).state.IsSignaled ∧ (dev.table i).remaining = 0
  · have heq := hst.outcome_eq hc.1 hc.2
    rw [hout] at heq
    obtain rfl := Option.some.inj heq
    exact ⟨i,rfl,rfl,hc.1,hc.2⟩
  · rw [hst.outcome_none (fun ht => ((h.rows i).indv ht).1) hc] at hout
    cases hout

/-- An outcome is final. -/
theorem run_outcome (h : Inv dev) (ops : List Op) (hf : dev.outcome f = some s) :
    (Runs.run step dev ops).outcome f = some s := by
  induction ops generalizing dev with
  | nil => exact hf
  | cons op ops ih =>
    refine ih (step_inv h op) ?_
    rcases (step_progress h op).outcome f with heq | ⟨hnone,_⟩
    · rw [heq]
      exact hf
    · rw [hnone] at hf
      cases hf

/-- An outcome is the final state its fence once had. -/
theorem outcome_once (h : Inv dev) (ops : List Op) (hnone : dev.outcome f = none)
    (hf : (Runs.run step dev ops).outcome f = some s) :
    ∃ pre, pre <+: ops ∧ FinalState (Runs.run step dev pre) f s := by
  induction ops generalizing dev with
  | nil =>
    rw [Runs.run_nil,hnone] at hf
    cases hf
  | cons op ops ih =>
    have hinv := step_inv h op
    rcases (step_progress h op).outcome f with heq | ⟨_,i,hi,rfl⟩
    · obtain ⟨pre,hpre,hfin⟩ := ih hinv (heq.trans hnone) hf
      exact ⟨op::pre,List.cons_prefix_cons.mpr ⟨rfl,hpre⟩,hfin⟩
    · cases ho : (step dev op).outcome ((step dev op).table i).fence with
      | none =>
        obtain ⟨pre,hpre,hfin⟩ := ih hinv ho hf
        exact ⟨op::pre,List.cons_prefix_cons.mpr ⟨rfl,hpre⟩,hfin⟩
      | some s' =>
        have hrest := run_outcome hinv ops ho
        rw [Runs.run_cons] at hf
        rw [hf] at hrest
        obtain rfl := Option.some.inj hrest
        exact ⟨[op],List.cons_prefix_cons.mpr ⟨rfl,List.nil_prefix⟩,hinv.finalState hi ho⟩

end Callbacks

section Status

variable {dev dev' : SyncDev} {g : ℕ} {op : Op}

/-- A complete group reports success exactly when every member has been signaled with success,
and otherwise the status of one of them. -/
def GroupStatus (dev : SyncDev) : Prop :=
  ∀ g, (dev.table g).type = .group → (dev.table g).state ≠ .invalid →
    (dev.table g).remaining = 0 →
      ((dev.table g).state = .signaledSuccess ↔
        ∀ m ∈ (dev.table g).members, dev.outcome m = some .signaledSuccess) ∧
      ((dev.table g).state ≠ .signaledSuccess →
        ((dev.table g).state = .signaledError ∨ (dev.table g).state = .signaledCancel) ∧
          ∃ m ∈ (dev.table g).members, dev.outcome m = some (dev.table g).state)

/-- Callbacks, waiters and user payloads of a valid group have heard nothing while one of its
children is active. -/
def Quiet (dev : SyncDev) : Prop :=
  ∀ g, (dev.table g).type = .group → (dev.table g).state ≠ .invalid →
    ((dev.table g).fence ∈ dev.dispatched.map (fun d => d.cb.fence) ∨
      (dev.table g).fence ∈ told dev) → Settled dev g

/-- No payload is registered on a signaled group while one of its children is active. -/
def Silent (dev : SyncDev) : Op → Prop
  | .registerPayload obj _ alloc => obj ≠ 0 → obj < maxObjs → alloc = true →
      (dev.table obj).type = .group → (dev.table obj).state.IsSignaled → Settled dev obj
  | _ => True

theorem groupStatus_of_inv (h : Inv dev) : GroupStatus dev := by
  intro g ht hg hz
  have hgroup := (h.status g hg).group ht
  have hsig := (hgroup.complete hz).1
  -- with nothing remaining every member has an outcome
  have hall : ∀ m ∈ (dev.table g).members, dev.outcome m ≠ none := by
    intro m hm hnone
    have hlen := hgroup.remaining
    rw [hz] at hlen
    have hnil := List.eq_nil_of_length_eq_zero hlen.symm
    have hin : m ∈ (dev.table g).members.filter fun m => dev.outcome m = none :=
      List.mem_filter.mpr ⟨hm,by simpa using hnone⟩
    rw [hnil] at hin
    cases hin
  constructor
  · constructor
    · intro hs m hm
      exact (hgroup.success (Or.inr hs) m hm).resolve_left (hall m hm)
    · intro hsucc
      refine hsig.resolve_right fun hs => ?_
      obtain ⟨m,hm,ho⟩ := hgroup.failure hs
      rw [hsucc m hm] at ho
      rw [← Option.some.inj ho] at hs
      exact absurd hs (by decide)
  · intro hs
    have hfail := hsig.resolve_left hs
    exact ⟨hfail,hgroup.failure hfail⟩

/-- The members of a group with an outcome are settled. -/
theorem Inv.settled (h : Inv dev) (ht : (dev.table g).type = .group)
    (hg : (dev.table g).state ≠ .invalid) (hout : dev.outcome (dev.table g).fence ≠ none) :
    Settled dev g := by
  have hgroup := (h.status g hg).group ht
  have hz : (dev.table g).remaining = 0 := by
    by_contra hz
    exact hout (hgroup.pending hz)
  intro c hm hc
  have hlen := hgroup.remaining
  rw [hz] at hlen
  have hnil := List.eq_nil_of_length_eq_zero hlen.symm
  have hin : (dev.table c).fence ∈ (dev.table g).members.filter fun m => dev.outcome m = none :=
    List.mem_filter.mpr ⟨hm,by simpa using (h.active_member hg hm hc).2⟩
  rw [hnil] at hin
  cases hin

theorem Progress.settled (hp : Progress dev dev' op) (h : Inv dev)
    (hg : (dev.table g).state ≠ .invalid) (hg' : (dev'.table g).state ≠ .invalid)
    (hs : Settled dev g) : Settled dev' g := by
  intro c hm hc
  have hcv : (dev'.table c).state ≠ .invalid := by
    rw [hc]
    decide
  rw [(hp.old g hg hg').2.2] at hm
  rcases hp.new c hcv with hv | ⟨hf,_⟩
  · rw [(hp.old c hv hcv).2.1] at hm
    exact hs c hm (hp.active c hv hc)
  · have := ((h.rows g).members _ hm).2
    omega

/-- Whoever has been told is a fence that exists. -/
def ToldBound (dev : SyncDev) : Prop := ∀ f ∈ told dev, f < dev.nextFence

theorem toldBound_step (h : Inv dev) (hb : ToldBound dev) (op : Op) : ToldBound (step dev op) := by
  have hp := step_progress h op
  intro f hf
  rcases hp.told f hf with hold | ⟨hlt,_⟩
  · exact lt_of_lt_of_le (hb f hold) hp.nextFence
  · exact hlt

theorem quiet_step (h : Inv dev) (hb : ToldBound dev) (hq : Quiet dev) (hop : Silent dev op) :
    Quiet (step dev op) := by
  have hp := step_progress h op
  have hinv := step_inv h op
  intro g ht hg hheard
  -- a fence that exists belongs to a group that was valid before
  have hold : ((step dev op).table g).fence < dev.nextFence → (dev.table g).state ≠ .invalid ∧
      (dev.table g).type = .group ∧ ((step dev op).table g).fence = (dev.table g).fence := by
    intro hlt
    rcases hp.new g hg with hv | ⟨hf,_⟩
    · obtain ⟨ht',hf',_⟩ := hp.old g hv hg
      exact ⟨hv,ht'.symm.trans ht,hf'⟩
    · omega
  rcases hheard with hdis | htold
  · obtain ⟨d,hd,hdf⟩ := List.mem_map.mp hdis
    rcases (hinv.delivery.dispatched d hd).2.2 with hout | ⟨_,_,hgone⟩
    · rw [hdf] at hout
      exact hinv.settled ht hg (by rw [hout]; simp)
    · exact absurd hdf.symm (hgone g)
  · rcases hp.told _ htold with hbefore | ⟨_,hout | hnobody | ⟨obj,p,rfl,h0,hlt,hsig,hf⟩⟩
    · obtain ⟨hv,ht',hf⟩ := hold (hb _ hbefore)
      rw [hf] at hbefore
      exact hp.settled h hv hg (hq g ht' hv (Or.inr hbefore))
    · exact hinv.settled ht hg hout
    · exact absurd rfl (hnobody g hg)
    · obtain ⟨hv,ht',hf'⟩ := hold (by rw [← hf]; exact (h.rows obj).fence_lt)
      have hgo : g = obj := h.fence_inj hv (hf'.symm.trans hf.symm)
      subst hgo
      exact hp.settled h hv hg (hop h0 hlt rfl ht' hsig)

/-- The payload registered on such a group hears of a status too early. -/
theorem not_quiet_step (hop : ¬ Silent dev op) : ¬ Quiet (step dev op) := by
  cases op with
  | registerPayload obj p alloc =>
    simp only [Silent,Classical.not_imp] at hop
    obtain ⟨h0,hlt,halloc,ht,hsig,hns⟩ := hop
    have hvalid : (dev.table obj).state ≠ .invalid := by
      intro hh
      rw [hh] at hsig
      exact absurd hsig (by decide)
    have hstep : step dev (.registerPayload obj p alloc) =
        sendV4l2Event dev obj (dev.table obj).state p := by
      simp only [step,camSyncHandleRegisterUserPayload]
      rw [if_neg (by omega),if_neg (by simp [halloc]),if_neg hvalid,if_pos hsig]
    intro hq
    rw [hstep] at hq
    exact hns (hq obj ht hvalid (Or.inr (by simp [told,sendV4l2Event])))
  | _ => exact absurd trivial hop

/-- Groups report success only when everything succeeded, in every run; they report nothing
early exactly in the runs in which no payload is registered on a signaled group with an
active child. -/
theorem groupStatus_quiet_always_iff (eventq trigger : Bool) (ops : List Op) :
    Runs.Always step (fun dev => GroupStatus dev ∧ Quiet dev) (probe eventq trigger) ops ↔
      Runs.Guarded step Silent (probe eventq trigger) ops := by
  have hinit : Inv (probe eventq trigger) ∧ ToldBound (probe eventq trigger) ∧
      Quiet (probe eventq trigger) :=
    ⟨probe_inv eventq trigger,(fun f hf => by cases hf),fun g _ hg => absurd rfl hg⟩
  have hP : ∀ dev, Inv dev ∧ ToldBound dev ∧ Quiet dev → GroupStatus dev ∧ Quiet dev :=
    fun dev hh => ⟨groupStatus_of_inv hh.1,hh.2.2⟩
  have hgood : ∀ dev op, Inv dev ∧ ToldBound dev ∧ Quiet dev → True → Silent dev op →
      Inv (step dev op) ∧ ToldBound (step dev op) ∧ Quiet (step dev op) :=
    fun dev op hh _ hop =>
      ⟨step_inv hh.1 op,toldBound_step hh.1 hh.2.1 op,quiet_step hh.1 hh.2.1 hh.2.2 hop⟩
  have hbad : ∀ dev op, Inv dev ∧ ToldBound dev ∧ Quiet dev → True → ¬ Silent dev op →
      ¬ (GroupStatus (step dev op) ∧ Quiet (step dev op)) :=
    fun dev op _ _ hop hh => not_quiet_step hop hh.2
  exact Runs.always_iff_guarded hP hgood hbad hinit ops (Runs.guarded_true _ _ _)

/-- A merged fence with two children, one of which is signaled before a payload is
registered on the merged fence. -/
def earlyPayload : List Op :=
  [.create,.create,.merge [1,2] fun _ => (true,true),.getObjRef 1,.signal 1 2,
    .registerPayload 3 (7,7) true]

theorem quiet_earlyPayload :
    ¬ Runs.Always step (fun dev => GroupStatus dev ∧ Quiet dev) (probe true false) earlyPayload := by
  intro hh
  have hlast := hh.last.2 3 (by decide +kernel) (by decide +kernel) (Or.inr (by decide +kernel))
  exact hlast 2 (by decide +kernel) (by decide +kernel)

end Status

end CamSync
end MarbleModules
