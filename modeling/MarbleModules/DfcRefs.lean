import Mathlib.Data.List.Perm.Basic
import Mathlib.Tactic
import MarbleModules.DfcFlowControl

/-! References between flows, bearers and queues: what each operation does to the counts,
and when every pointer leads to a listed bearer. -/
namespace MarbleModules
namespace Dfc

open Runs

/-- The flows that point to the bearer -/
def refs (flows : List Flow) (a : ℕ) : ℕ := flows.countP fun f => f.bearer = some a

/-- The bearers and queues account for exactly these flows. -/
structure Linked (s : Qos) (flows : List Flow) : Prop where
  keys : (flows.map Flow.key).Nodup
  flowBearer : ∀ f ∈ flows, ∀ a, f.bearer = some a →
    a ∈ s.bearerHead ∧ (s.bearer a).bearerId = f.bearerId
  mqBearer : ∀ i < maxMqNum, ∀ a, (s.mq i).bearer = some a → a ∈ s.bearerHead
  flowRef : ∀ a ∈ s.bearerHead, (s.bearer a).flowRef = refs flows a
  nodup : s.bearerHead.Nodup
  addr : ∀ a ∈ s.bearerHead, a < s.nextAddr
  freed : ∀ a ∈ s.freed, a ∉ s.bearerHead ∧ a < s.nextAddr
  removed : ∀ a, s.removedBearer = some a → a ∉ s.bearerHead ∧ a < s.nextAddr

theorem Linked.perm {s : Qos} {fs gs : List Flow} (h : Linked s fs) (hp : fs.Perm gs) :
    Linked s gs where
  keys := (hp.map _).nodup_iff.mp h.keys
  flowBearer f hf := h.flowBearer f (hp.mem_iff.mpr hf)
  mqBearer := h.mqBearer
  flowRef a ha := by rw [h.flowRef a ha,refs,refs,hp.countP_eq]
  nodup := h.nodup
  addr := h.addr
  freed := h.freed
  removed := h.removed

theorem Linked.congr {s s' : Qos} {flows : List Flow} (h : Linked s flows)
    (hs : SameMap s s') : Linked s' flows where
  keys := h.keys
  flowBearer f hf a ha := by
    rw [hs.bearerHead,hs.bearerId]
    exact h.flowBearer f hf a ha
  mqBearer i hi a ha := by
    rw [hs.mq] at ha
    rw [hs.bearerHead]
    exact h.mqBearer i hi a ha
  flowRef a ha := by
    rw [hs.bearerHead] at ha
    rw [hs.flowRef,h.flowRef a ha]
  nodup := hs.bearerHead ▸ h.nodup
  addr a ha := by
    rw [hs.bearerHead] at ha
    rw [hs.nextAddr]
    exact h.addr a ha
  freed a ha := by
    rw [hs.freed] at ha
    rw [hs.bearerHead,hs.nextAddr]
    exact h.freed a ha
  removed a ha := by
    rw [hs.removedBearer] at ha
    rw [hs.bearerHead,hs.nextAddr]
    exact h.removed a ha

/-! ## Putting a bearer -/

/-- What releasing the queues of a bearer leaves alone -/
structure SameButMq (s s' : Qos) : Prop where
  flowHead : s'.flowHead = s.flowHead
  bearerHead : s'.bearerHead = s.bearerHead
  bearer : s'.bearer = s.bearer
  nextAddr : s'.nextAddr = s.nextAddr
  removedBearer : s'.removedBearer = s.removedBearer
  freed : s'.freed = s.freed

theorem SameButMq.refl (s : Qos) : SameButMq s s := by
  constructor <;> rfl

theorem SameButMq.trans {s t u : Qos} (h : SameButMq s t) (h' : SameButMq t u) :
    SameButMq s u where
  flowHead := h'.flowHead.trans h.flowHead
  bearerHead := h'.bearerHead.trans h.bearerHead
  bearer := h'.bearer.trans h.bearer
  nextAddr := h'.nextAddr.trans h.nextAddr
  removedBearer := h'.removedBearer.trans h.removedBearer
  freed := h'.freed.trans h.freed

theorem flowControl_sameButMq (cfg : Cfg) (s : Qos) (i : ℕ) (enable : Bool) :
    SameButMq s (flowControl cfg s i enable) ∧ (flowControl cfg s i enable).mq = s.mq := by
  unfold flowControl
  split_ifs
  · exact ⟨SameButMq.refl s,rfl⟩
  · exact ⟨by constructor <;> rfl,rfl⟩

theorem releaseMq_spec (cfg : Cfg) (a : ℕ) (reset : Bool) (s : Qos) (i : ℕ) :
    SameButMq s (releaseMq cfg a reset s i) ∧
      ∀ j, ((releaseMq cfg a reset s i).mq j).bearer =
        if j = i ∧ (s.mq j).bearer = some a then none else (s.mq j).bearer := by
  by_cases h : (s.mq i).bearer = some a
  · have h1 := flowControl_sameButMq cfg
      { s with mq := Function.update s.mq i ⟨none,false,reset⟩ } i true
    have h2 := flowControl_sameButMq cfg (flowControl cfg
      { s with mq := Function.update s.mq i ⟨none,false,reset⟩ } i true) (i+ackMqOffset) true
    have h0 : SameButMq s { s with mq := Function.update s.mq i ⟨none,false,reset⟩ } := by
      constructor <;> rfl
    simp only [releaseMq,h,ne_eq,not_true_eq_false,if_false]
    refine ⟨(h0.trans h1.1).trans h2.1,fun j => ?_⟩
    rw [h2.2,h1.2]
    by_cases hj : j = i
    · subst hj
      simp [h]
    · simp [hj]
  · simp only [releaseMq,ne_eq,h,not_false_eq_true,if_true]
    refine ⟨SameButMq.refl s,fun j => ?_⟩
    rw [if_neg]
    rintro ⟨rfl,hj⟩
    exact h hj

theorem releaseMqs_spec (cfg : Cfg) (a : ℕ) (reset : Bool) (s : Qos) (n : ℕ) :
    SameButMq s ((List.range n).foldl (releaseMq cfg a reset) s) ∧
      ∀ j, (((List.range n).foldl (releaseMq cfg a reset) s).mq j).bearer =
        if j < n ∧ (s.mq j).bearer = some a then none else (s.mq j).bearer := by
  induction n with
  | zero => exact ⟨SameButMq.refl s,fun j => by simp⟩
  | succ n ih =>
    obtain ⟨ih1,ih2⟩ := ih
    rw [List.range_succ,List.foldl_append,List.foldl_cons,List.foldl_nil]
    obtain ⟨h1,h2⟩ := releaseMq_spec cfg a reset
      ((List.range n).foldl (releaseMq cfg a reset) s) n
    refine ⟨ih1.trans h1,fun j => ?_⟩
    rw [h2,ih2]
    by_cases hb : (s.mq j).bearer = some a
    · by_cases hj : j < n
      · simp [hb,hj,show j < n+1 by omega]
      · by_cases hn : j = n
        · subst hn
          simp [hb]
        · simp [hb,hj,hn,show ¬j < n+1 by omega]
    · simp [hb]

theorem refs_cons (f : Flow) (flows : List Flow) (a : ℕ) :
    refs (f::flows) a = refs flows a+if f.bearer = some a then 1 else 0 := by
  simp [refs,List.countP_cons]

/-- Once its flow is out of the count, a put bearer is accounted for again: it is off the
list if that was its last flow. -/
theorem Linked.bearerPut {s : Qos} {itm : Flow} {flows : List Flow}
    (h : Linked s (itm::flows)) (cfg : Cfg) (reset : Bool) :
    Linked (bearerPut cfg s itm.bearer reset) flows ∧
      (bearerPut cfg s itm.bearer reset).flowHead = s.flowHead := by
  have hkeys : (flows.map Flow.key).Nodup := (List.nodup_cons.mp h.keys).2
  cases hb : itm.bearer with
  | none =>
    refine ⟨⟨hkeys,fun f hf => h.flowBearer f (by simp [hf]),h.mqBearer,fun a ha => ?_,
      h.nodup,h.addr,h.freed,h.removed⟩,rfl⟩
    rw [Dfc.bearerPut,h.flowRef a ha,refs_cons]
    simp [hb]
  | some a =>
    obtain ⟨ha,-⟩ := h.flowBearer itm (by simp) a hb
    have hra : (s.bearer a).flowRef-1 = refs flows a := by
      rw [h.flowRef a ha,refs_cons]
      simp [hb]
    have hrc : ∀ c ∈ s.bearerHead, c ≠ a → (s.bearer c).flowRef = refs flows c := by
      intro c hc hne
      rw [h.flowRef c hc,refs_cons]
      simp [hb,hne.symm]
    have hid : ∀ c, ((s.setBearer a fun b => { b with flowRef := b.flowRef-1 }).bearer
        c).bearerId = (s.bearer c).bearerId := by
      intro c
      by_cases hc : c = a
      · subst hc
        simp
      · rw [setBearer_ne _ _ hc]
    simp only [Dfc.bearerPut,setBearer_self]
    split_ifs with h0
    · obtain ⟨hs,hmq⟩ := releaseMqs_spec cfg a reset
        (s.setBearer a fun b => { b with flowRef := b.flowRef-1 }) maxMqNum
      have hzero : refs flows a = 0 := by omega
      have hnone : ∀ f ∈ flows, f.bearer ≠ some a := by
        intro f hf hfa
        have := List.countP_eq_zero.mp hzero f hf
        simp [hfa] at this
      refine ⟨⟨hkeys,?_,?_,?_,?_,?_,?_,?_⟩,hs.flowHead⟩
      · intro f hf c hc
        obtain ⟨hm,hfid⟩ := h.flowBearer f (by simp [hf]) c hc
        have hne : c ≠ a := fun he => hnone f hf (he ▸ hc)
        refine ⟨(List.mem_erase_of_ne hne).mpr (hs.bearerHead ▸ hm),?_⟩
        simp only [hs.bearer]
        rw [hid,hfid]
      · intro i hi c hc
        have hc' : (if i < maxMqNum ∧ (s.mq i).bearer = some a then none
            else (s.mq i).bearer) = some c := (hmq i).symm.trans hc
        split_ifs at hc' with hca
        have hne : c ≠ a := fun he => hca ⟨hi,he ▸ hc'⟩
        exact (List.mem_erase_of_ne hne).mpr (hs.bearerHead ▸ h.mqBearer i hi c hc')
      · intro c hc
        have hc' := hs.bearerHead ▸ hc
        have hne : c ≠ a := fun he => (h.nodup.not_mem_erase) (he ▸ hc')
        simp only [hs.bearer]
        rw [setBearer_ne _ _ hne]
        exact hrc c (List.mem_of_mem_erase hc') hne
      · exact (hs.bearerHead ▸ h.nodup : List.Nodup _).erase a
      · intro c hc
        have hc' := hs.bearerHead ▸ hc
        exact hs.nextAddr ▸ h.addr c (List.mem_of_mem_erase hc')
      · intro c hc
        obtain ⟨hn,hlt⟩ := h.freed c (hs.freed ▸ hc)
        refine ⟨fun hm => hn ?_,hs.nextAddr ▸ hlt⟩
        exact List.mem_of_mem_erase (hs.bearerHead ▸ hm)
      · intro c hc
        obtain rfl : a = c := Option.some.inj hc
        refine ⟨fun hm => ?_,hs.nextAddr ▸ h.addr a ha⟩
        exact h.nodup.not_mem_erase (hs.bearerHead ▸ hm)
    · refine ⟨⟨hkeys,?_,h.mqBearer,?_,h.nodup,h.addr,h.freed,h.removed⟩,rfl⟩
      · intro f hf c hc
        obtain ⟨hm,hfid⟩ := h.flowBearer f (by simp [hf]) c hc
        exact ⟨hm,by rw [hid,hfid]⟩
      · intro c hc
        by_cases hca : c = a
        · subst hca
          rw [setBearer_self]
          exact hra
        · rw [setBearer_ne _ _ hca]
          exact hrc c hc hca

/-! ## Getting a bearer -/

/-- A bearer as `__qmi_rmnet_bearer_get` creates it, before it is counted -/
def newBearer (cfg : Cfg) (bearerId : ℕ) : Bearer :=
  { bearerId := bearerId, grantSize := defaultCallGrant,
    grantThresh := grantPer cfg defaultCallGrant, mqIdx := invalidMq, ackMqIdx := invalidMq }

/-- The map with a bearer more -/
def addBearer (cfg : Cfg) (s : Qos) (bearerId : ℕ) : Qos :=
  { s with
    bearer := Function.update s.bearer s.nextAddr (newBearer cfg bearerId)
    bearerHead := s.nextAddr::s.bearerHead
    nextAddr := s.nextAddr+1 }

/-- One more reference -/
def ref (s : Qos) (a : ℕ) : Qos := s.setBearer a fun b => { b with flowRef := b.flowRef+1 }

/-- Getting a bearer refers to one of the map, or to one added to it. -/
theorem bearerGet_some {cfg : Cfg} {s s' : Qos} {bearerId a : ℕ} {alloc : Bool}
    (h : bearerGet cfg s bearerId alloc = (s',some a)) :
    (getBearerMap s bearerId = some a ∧ s' = ref s a) ∨
      (getBearerMap s bearerId = none ∧ alloc = true ∧ a = s.nextAddr ∧
        s' = ref (addBearer cfg s bearerId) a) := by
  unfold bearerGet at h
  cases hb : getBearerMap s bearerId with
  | some c =>
    rw [hb] at h
    obtain ⟨rfl,hc⟩ := Prod.mk.inj h
    obtain rfl := Option.some.inj hc
    exact .inl ⟨rfl,rfl⟩
  | none =>
    rw [hb] at h
    dsimp only at h
    split_ifs at h with halloc
    swap
    · simp at h
    obtain ⟨rfl,hc⟩ := Prod.mk.inj h
    obtain rfl := Option.some.inj hc
    refine .inr ⟨rfl,halloc,rfl,?_⟩
    simp only [ref,addBearer,Qos.setBearer,Function.update_self,Function.update_idem,newBearer]
    rfl

theorem bearerGet_none {cfg : Cfg} {s s' : Qos} {bearerId : ℕ} {alloc : Bool}
    (h : bearerGet cfg s bearerId alloc = (s',none)) :
    s' = s ∧ getBearerMap s bearerId = none ∧ alloc = false := by
  unfold bearerGet at h
  cases hb : getBearerMap s bearerId with
  | some c =>
    rw [hb] at h
    simp at h
  | none =>
    rw [hb] at h
    dsimp only at h
    split_ifs at h with halloc
    · simp at h
    · exact ⟨(Prod.mk.inj h).1.symm,rfl,by simpa using halloc⟩

theorem getBearerMap_some {s : Qos} {bearerId a : ℕ} (h : getBearerMap s bearerId = some a) :
    a ∈ s.bearerHead ∧ (s.bearer a).bearerId = bearerId := by
  refine ⟨List.mem_of_find?_eq_some h,?_⟩
  simpa using List.find?_some h

theorem Linked.addBearer {s : Qos} {flows : List Flow} (h : Linked s flows) (cfg : Cfg)
    (bearerId : ℕ) : Linked (addBearer cfg s bearerId) flows := by
  have hne : ∀ c ∈ s.bearerHead, c ≠ s.nextAddr := fun c hc => (h.addr c hc).ne
  have hold : ∀ c ∈ s.bearerHead, (Dfc.addBearer cfg s bearerId).bearer c = s.bearer c := by
    intro c hc
    simp [Dfc.addBearer,hne c hc]
  have hnew : refs flows s.nextAddr = 0 := by
    refine List.countP_eq_zero.mpr fun f hf => ?_
    simp only [decide_eq_true_eq]
    exact fun hb => hne _ (h.flowBearer f hf _ hb).1 rfl
  refine ⟨h.keys,?_,?_,?_,?_,?_,?_,?_⟩
  · intro f hf c hc
    obtain ⟨hm,hid⟩ := h.flowBearer f hf c hc
    exact ⟨List.mem_cons_of_mem _ hm,by rw [hold c hm,hid]⟩
  · exact fun i hi c hc => List.mem_cons_of_mem _ (h.mqBearer i hi c hc)
  · intro c hc
    rcases List.mem_cons.mp hc with rfl|hc
    · rw [hnew]
      simp [Dfc.addBearer,newBearer]
    · rw [hold c hc,h.flowRef c hc]
  · exact List.nodup_cons.mpr ⟨fun hm => hne _ hm rfl,h.nodup⟩
  · intro c hc
    rcases List.mem_cons.mp hc with rfl|hc
    · exact Nat.lt_succ_self _
    · exact (h.addr c hc).trans (Nat.lt_succ_self _)
  · intro c hc
    obtain ⟨hn,hlt⟩ := h.freed c hc
    refine ⟨fun hm => ?_,hlt.trans (Nat.lt_succ_self _)⟩
    rcases List.mem_cons.mp hm with rfl|hm
    · exact lt_irrefl _ hlt
    · exact hn hm
  · intro c hc
    obtain ⟨hn,hlt⟩ := h.removed c hc
    refine ⟨fun hm => ?_,hlt.trans (Nat.lt_succ_self _)⟩
    rcases List.mem_cons.mp hm with rfl|hm
    · exact lt_irrefl _ hlt
    · exact hn hm

/-- A reference more, for a flow more -/
theorem Linked.ref {s : Qos} {flows : List Flow} (h : Linked s flows) {f : Flow} {a : ℕ}
    (ha : a ∈ s.bearerHead) (hf : f.bearer = some a)
    (hid : (s.bearer a).bearerId = f.bearerId) (hkey : f.key ∉ flows.map Flow.key) :
    Linked (ref s a) (f::flows) := by
  have hids : ∀ c, ((Dfc.ref s a).bearer c).bearerId = (s.bearer c).bearerId := by
    intro c
    by_cases hc : c = a
    · subst hc
      simp [Dfc.ref]
    · rw [Dfc.ref,setBearer_ne _ _ hc]
  refine ⟨List.nodup_cons.mpr ⟨hkey,h.keys⟩,?_,h.mqBearer,?_,h.nodup,h.addr,h.freed,
    h.removed⟩
  · intro g hg c hc
    rw [hids]
    rcases List.mem_cons.mp hg with rfl|hg
    · obtain rfl : a = c := Option.some.inj (hf.symm.trans hc)
      exact ⟨ha,hid⟩
    · exact h.flowBearer g hg c hc
  · intro c hc
    rw [refs_cons]
    by_cases hca : c = a
    · subst hca
      simp [Dfc.ref,hf,h.flowRef c ha]
    · rw [Dfc.ref,setBearer_ne _ _ hca,h.flowRef c hc]
      simp [hf,Ne.symm hca]

theorem Linked.getBearerNoref {s : Qos} {flows : List Flow} (h : Linked s flows) (cfg : Cfg)
    (bearerId : ℕ) (alloc : Bool) : Linked (getBearerNoref cfg s bearerId alloc).1 flows := by
  have hback : ∀ t : Qos, ∀ a, SameMap t ((Dfc.ref t a).setBearer a fun b =>
      { b with flowRef := b.flowRef-1 }) := by
    intro t a
    have hb : (Dfc.ref t a).setBearer a (fun b => { b with flowRef := b.flowRef-1 }) =
        t.setBearer a id := by
      simp [Dfc.ref,Qos.setBearer]
    rw [hb]
    exact sameMap_setBearer t a ⟨rfl,rfl,rfl,rfl⟩
  unfold Dfc.getBearerNoref
  cases hg : bearerGet cfg s bearerId alloc with
  | mk t r =>
    cases r with
    | none =>
      obtain ⟨rfl,-⟩ := bearerGet_none hg
      exact h
    | some a =>
      rcases bearerGet_some hg with ⟨-,rfl⟩|⟨-,-,-,rfl⟩
      · exact h.congr (hback s a)
      · exact (h.addBearer cfg bearerId).congr (hback _ a)

/-! ## Adding and deleting flows -/

theorem perm_cons_eraseP {p : Flow → Bool} {flows : List Flow} {f : Flow}
    (h : flows.find? p = some f) : flows.Perm (f::flows.eraseP p) := by
  induction flows with
  | nil => simp at h
  | cons g flows ih =>
    by_cases hg : p g
    · rw [List.find?_cons_of_pos hg] at h
      obtain rfl := Option.some.inj h
      rw [List.eraseP_cons_of_pos hg]
    · rw [List.find?_cons_of_neg hg] at h
      rw [List.eraseP_cons_of_neg hg]
      exact ((ih h).cons g).trans (List.Perm.swap f g _)

/-- Keys being unique, writing the flow with a key replaces one flow. -/
theorem perm_map_key (new : Flow) {flows rest : List Flow} {f : Flow}
    (hp : flows.Perm (f::rest)) (hf : f.key = new.key)
    (hrest : new.key ∉ rest.map Flow.key) :
    (flows.map fun g => if g.key = new.key then new else g).Perm (new::rest) := by
  refine (hp.map _).trans ?_
  rw [List.map_cons,if_pos hf]
  refine List.Perm.cons new (List.Perm.of_eq ?_)
  refine (List.map_congr_left fun g hg => if_neg fun hk => hrest ?_).trans (List.map_id rest)
  exact hk ▸ List.mem_map_of_mem hg

theorem getFlowMap_some {s : Qos} {flowId : ℕ} {ipType : ℤ} {f : Flow}
    (h : getFlowMap s flowId ipType = some f) :
    f ∈ s.flowHead ∧ f.key = (flowId,ipType) := by
  refine ⟨List.mem_of_find?_eq_some h,?_⟩
  simpa using List.find?_some h

theorem getFlowMap_none {s : Qos} {flowId : ℕ} {ipType : ℤ} :
    getFlowMap s flowId ipType = none ↔ (flowId,ipType) ∉ s.flowHead.map Flow.key := by
  simp [getFlowMap,List.find?_eq_none]

/-- Between calls the flows of the list are accounted for and no bearer waits to be freed. -/
def Counted (s : Qos) : Prop := Linked s s.flowHead ∧ s.removedBearer = none

theorem Linked.bearerClean {s : Qos} {flows : List Flow} (h : Linked s flows) :
    Linked (bearerClean s) flows ∧ (bearerClean s).removedBearer = none ∧
      (bearerClean s).flowHead = s.flowHead := by
  unfold Dfc.bearerClean
  split
  · rename_i hr
    exact ⟨h,hr,rfl⟩
  · rename_i a hr
    refine ⟨⟨h.keys,h.flowBearer,h.mqBearer,h.flowRef,h.nodup,h.addr,?_,by simp⟩,rfl,rfl⟩
    intro c hc
    rcases List.mem_append.mp hc with hc|hc
    · exact h.freed c hc
    · rw [List.mem_singleton.mp hc]
      exact h.removed a hr

theorem Linked.clean {s : Qos} (h : Linked s s.flowHead) : Counted (Dfc.bearerClean s) := by
  obtain ⟨hl,hr,hf⟩ := h.bearerClean
  exact ⟨hf ▸ hl,hr⟩

theorem Linked.updateMq {s : Qos} {flows : List Flow} (h : Linked s flows) (cfg : Cfg)
    {a : ℕ} (ha : a ∈ s.bearerHead) (mqIdx : ℕ) :
    Linked (updateMq cfg s a mqIdx) flows ∧ (updateMq cfg s a mqIdx).flowHead = s.flowHead := by
  simp only [Dfc.updateMq]
  split_ifs with h0 h1
  · exact ⟨h,rfl⟩
  · exact ⟨h,rfl⟩
  generalize ht : Qos.setBearer (Qos.setBearer _ a _) a _ = t
  have hfields : t.flowHead = s.flowHead ∧ t.bearerHead = s.bearerHead ∧
      t.nextAddr = s.nextAddr ∧ t.freed = s.freed ∧ t.removedBearer = s.removedBearer := by
    rw [← ht]
    exact ⟨rfl,rfl,rfl,rfl,rfl⟩
  obtain ⟨hfl,hhead,hnext,hfreed,hrem⟩ := hfields
  have hmq : ∀ i c, (t.mq i).bearer = some c → c ∈ s.bearerHead ∨ (s.mq i).bearer = some c := by
    intro i c hc
    rw [← ht] at hc
    simp only [Qos.setBearer,Function.update_apply] at hc
    split_ifs at hc with hi
    · exact .inl (Option.some.inj hc ▸ ha)
    · exact .inr hc
  have hid : ∀ c, (t.bearer c).bearerId = (s.bearer c).bearerId ∧
      (t.bearer c).flowRef = (s.bearer c).flowRef := by
    intro c
    rw [← ht]
    by_cases hc : c = a
    · subst hc
      simp only [setBearer_self]
      split_ifs <;> exact ⟨rfl,rfl⟩
    · rw [setBearer_ne _ _ hc,setBearer_ne _ _ hc]
      exact ⟨rfl,rfl⟩
  have hlinked : Linked t flows := by
    refine ⟨h.keys,?_,?_,?_,hhead ▸ h.nodup,?_,?_,?_⟩
    · intro f hf c hc
      rw [hhead,(hid c).1]
      exact h.flowBearer f hf c hc
    · intro i hi c hc
      rw [hhead]
      exact (hmq i c hc).elim id (h.mqBearer i hi c)
    · intro c hc
      rw [(hid c).2]
      exact h.flowRef c (hhead ▸ hc)
    · intro c hc
      rw [hnext]
      exact h.addr c (hhead ▸ hc)
    · intro c hc
      rw [hhead,hnext]
      exact h.freed c (hfreed ▸ hc)
    · intro c hc
      rw [hhead,hnext]
      exact h.removed c (hrem ▸ hc)
  have hs := (sameMap_flowControl cfg t mqIdx true).trans
    (sameMap_flowControl cfg (flowControl cfg t mqIdx true) (t.bearer a).ackMqIdx true)
  exact ⟨hlinked.congr hs,hs.flowHead.trans hfl⟩

/-- The flow with the key gets the bearer it has been counted for. -/
theorem Linked.setFlow {s : Qos} {new old : Flow} {rest : List Flow}
    (h : Linked s (new::rest)) (hp : s.flowHead.Perm (old::rest)) (hk : old.key = new.key) :
    Linked (setFlow s new) (setFlow s new).flowHead := by
  have hperm : (Dfc.setFlow s new).flowHead.Perm (new::rest) :=
    perm_map_key _ hp hk (List.nodup_cons.mp h.keys).1
  exact (Linked.mk h.keys h.flowBearer h.mqBearer h.flowRef h.nodup h.addr h.freed
    h.removed : Linked (Dfc.setFlow s new) (new::rest)).perm hperm.symm

/-- Getting a bearer for a flow that is out of the count, and binding the flow to it -/
theorem Linked.bind (newMap : Flow) {s s' : Qos} {old : Flow} {rest : List Flow} (h : Linked s rest)
    (cfg : Cfg) {alloc : Bool} {a : ℕ}
    (hget : bearerGet cfg s newMap.bearerId alloc = (s',some a))
    (hp : s.flowHead.Perm (old::rest)) (hk : old.key = newMap.key)
    (hkey : newMap.key ∉ rest.map Flow.key) :
    Counted (Dfc.bearerClean (Dfc.updateMq cfg
      (Dfc.setFlow s' { newMap with bearer := some a }) a newMap.mqIdx)) := by
  -- the state in which the bearer is listed but not yet counted
  obtain ⟨t,ht,hat,hidt,hft,rfl⟩ : ∃ t, Linked t rest ∧ a ∈ t.bearerHead ∧
      (t.bearer a).bearerId = newMap.bearerId ∧ t.flowHead = s.flowHead ∧ s' = Dfc.ref t a := by
    rcases bearerGet_some hget with ⟨hb,rfl⟩|⟨-,-,rfl,rfl⟩
    · obtain ⟨hm,hid⟩ := getBearerMap_some hb
      exact ⟨s,h,hm,hid,rfl,rfl⟩
    · refine ⟨_,h.addBearer cfg newMap.bearerId,by simp [Dfc.addBearer],?_,rfl,rfl⟩
      simp [Dfc.addBearer,newBearer]
  have href := ht.ref (f := { newMap with bearer := some a }) hat rfl hidt hkey
  have hset := href.setFlow (hft.symm ▸ hp : t.flowHead.Perm (old::rest)) hk
  obtain ⟨hu,hf⟩ := hset.updateMq cfg (show a ∈ (Dfc.setFlow (Dfc.ref t a)
    { newMap with bearer := some a }).bearerHead from hat) newMap.mqIdx
  exact (hf.symm ▸ hu).clean

theorem Counted.delFlow {s : Qos} (h : Counted s) (cfg : Cfg) (flowId : ℕ) (ipType : ℤ) :
    Counted (delFlow cfg s flowId ipType) ∧
      getFlowMap (delFlow cfg s flowId ipType) flowId ipType = none := by
  have hend : ∀ t : Qos, Linked t t.flowHead → (flowId,ipType) ∉ t.flowHead.map Flow.key →
      Counted (bearerClean (if t.flowHead = [] then { t with txStopped := fun _ => false }
        else t)) ∧ getFlowMap (bearerClean (if t.flowHead = [] then
          { t with txStopped := fun _ => false } else t)) flowId ipType = none := by
    intro t ht hk
    have hw : Linked (if t.flowHead = [] then { t with txStopped := fun _ => false } else t)
        (if t.flowHead = [] then { t with txStopped := fun _ => false } else t).flowHead ∧
        (if t.flowHead = [] then { t with txStopped := fun _ => false } else t).flowHead =
          t.flowHead := by
      split_ifs
      · exact ⟨⟨ht.keys,ht.flowBearer,ht.mqBearer,ht.flowRef,ht.nodup,ht.addr,ht.freed,
          ht.removed⟩,rfl⟩
      · exact ⟨ht,rfl⟩
    obtain ⟨-,-,hf⟩ := hw.1.bearerClean
    refine ⟨hw.1.clean,getFlowMap_none.mpr ?_⟩
    rw [hf,hw.2]
    exact hk
  simp only [Dfc.delFlow]
  cases hg : getFlowMap s flowId ipType with
  | none => exact hend s h.1 (getFlowMap_none.mp hg)
  | some itm =>
    have hp := perm_cons_eraseP hg
    have hl := h.1.perm hp
    obtain ⟨hput,hf⟩ := hl.bearerPut cfg true
    have hflows : (Dfc.bearerPut cfg s itm.bearer true).flowHead.eraseP
        (fun f => decide (f.key = (flowId,ipType))) =
          s.flowHead.eraseP fun f => decide (f.key = (flowId,ipType)) := by rw [hf]
    refine hend { Dfc.bearerPut cfg s itm.bearer true with
      flowHead := (Dfc.bearerPut cfg s itm.bearer true).flowHead.eraseP
        fun f => decide (f.key = (flowId,ipType)) } ?_ ?_
    · rw [hflows]
      exact ⟨hput.keys,hput.flowBearer,hput.mqBearer,hput.flowRef,hput.nodup,hput.addr,
        hput.freed,hput.removed⟩
    · dsimp only
      rw [hflows]
      have hk := (List.nodup_cons.mp hl.keys).1
      rwa [(getFlowMap_some hg).2] at hk

theorem Counted.createFlow {s : Qos} (h : Counted s) (cfg : Cfg) (newMap : Flow)
    (allocFlow allocBearer : Bool) (hk : newMap.key ∉ s.flowHead.map Flow.key) :
    Counted (createFlow cfg s newMap allocFlow allocBearer) := by
  simp only [Dfc.createFlow]
  split_ifs
  · exact h
  have hl : Linked { s with flowHead := { newMap with bearer := none }::s.flowHead }
      s.flowHead :=
    ⟨h.1.keys,h.1.flowBearer,h.1.mqBearer,h.1.flowRef,h.1.nodup,h.1.addr,h.1.freed,
      h.1.removed⟩
  cases hg : bearerGet cfg { s with flowHead := { newMap with bearer := none }::s.flowHead }
    newMap.bearerId allocBearer with
  | mk t r =>
    cases r with
    | none =>
      -- the flow stays without a bearer
      obtain ⟨rfl,-⟩ := bearerGet_none hg
      refine Linked.clean ⟨List.nodup_cons.mpr ⟨hk,hl.keys⟩,?_,hl.mqBearer,?_,hl.nodup,hl.addr,
        hl.freed,hl.removed⟩
      · intro f hf a ha
        rcases List.mem_cons.mp hf with rfl|hf
        · simp at ha
        · exact hl.flowBearer f hf a ha
      · intro a ha
        rw [refs_cons,hl.flowRef a ha]
        simp
    | some a => exact hl.bind _ cfg hg (List.Perm.refl _) rfl hk

/-- The state while a flow is rebound: its old bearer is put, the flow still lists it. -/
theorem Counted.rebindPut {s : Qos} (h : Counted s) (cfg : Cfg) {flowId : ℕ} {ipType : ℤ}
    {itm : Flow} (hg : getFlowMap s flowId ipType = some itm) :
    ∃ rest, Linked (bearerPut cfg s itm.bearer false) rest ∧
      (bearerPut cfg s itm.bearer false).flowHead = s.flowHead ∧
      s.flowHead.Perm (itm::rest) ∧ (flowId,ipType) ∉ rest.map Flow.key := by
  have hp := perm_cons_eraseP hg
  have hl := h.1.perm hp
  obtain ⟨hput,hf⟩ := hl.bearerPut cfg false
  have hk := (List.nodup_cons.mp hl.keys).1
  rw [(getFlowMap_some hg).2] at hk
  exact ⟨_,hput,hf,hp,hk⟩

/-- Since keys are unique, `qmi_rmnet_add_flow` goes round at most twice. -/
theorem addFlow_eq {s : Qos} (h : Counted s) (cfg : Cfg) (bearerId flowId : ℕ) (ipType : ℤ)
    {mqIdx : ℕ} (hmq : mqIdx < maxMqNum) (allocFlow allocBearer : Bool) :
    addFlow cfg s bearerId flowId ipType mqIdx allocFlow allocBearer =
      match getFlowMap s flowId ipType with
      | none => createFlow cfg s ⟨bearerId,flowId,ipType,mqIdx,none⟩ allocFlow allocBearer
      | some itm =>
        if itm.bearerId ≠ bearerId then
          bearerClean (rebindFlow cfg s itm ⟨bearerId,flowId,ipType,mqIdx,none⟩ allocBearer)
        else if itm.mqIdx ≠ mqIdx then
          createFlow cfg (delFlow cfg s flowId ipType) ⟨bearerId,flowId,ipType,mqIdx,none⟩
            allocFlow allocBearer
        else bearerClean s := by
  rw [addFlow,if_neg (by omega),addFlowAgain]
  cases hg : getFlowMap s flowId ipType with
  | none => rfl
  | some itm =>
    obtain ⟨hm,hk⟩ := getFlowMap_some hg
    obtain ⟨hfid,hip⟩ : itm.flowId = flowId ∧ itm.ipType = ipType := by
      simpa [Flow.key] using hk
    have hlen : 0 < s.flowHead.length := List.length_pos_of_mem hm
    dsimp only
    split_ifs
    · rfl
    · obtain ⟨n,hn⟩ : ∃ n, s.flowHead.length = n+1 := ⟨_,(Nat.succ_pred hlen.ne').symm⟩
      rw [hn,addFlowAgain,hfid,hip,(h.delFlow cfg flowId ipType).2]
    · rfl

/-- Rebinding puts the old bearer before it gets the new one; when the new one cannot be
allocated the flow keeps a pointer it is no longer counted for. -/
def HalfRebound (s : Qos) : Op → Prop
  | .addFlow bearerId flowId ipType mqIdx _ allocBearer =>
    mqIdx < maxMqNum ∧ allocBearer = false ∧ getBearerMap s bearerId = none ∧
      ∃ itm ∈ getFlowMap s flowId ipType, itm.bearerId ≠ bearerId ∧ itm.bearer ≠ none
  | _ => False

instance (s : Qos) : DecidablePred (HalfRebound s)
  | .addFlow .. => inferInstanceAs (Decidable (_ ∧ _ ∧ _ ∧ _))
  | .delFlow .. | .flowStatus .. | .txLinkStatus .. | .burstCheck .. | .watchdog .. |
    .enableAllFlows | .preparePsBearers .. => isFalse id

theorem getBearerMap_none {s : Qos} {bearerId : ℕ} :
    getBearerMap s bearerId = none ↔ ∀ a ∈ s.bearerHead, (s.bearer a).bearerId ≠ bearerId := by
  simp [getBearerMap,List.find?_eq_none]

/-- Putting a bearer takes no other off the list. -/
theorem bearerPut_head (cfg : Cfg) (s : Qos) (c : ℕ) (reset : Bool) :
    (∀ a, ((bearerPut cfg s (some c) reset).bearer a).bearerId = (s.bearer a).bearerId) ∧
      (bearerPut cfg s (some c) reset).bearerHead ⊆ s.bearerHead ∧
      ∀ a ∈ s.bearerHead, a ≠ c → a ∈ (bearerPut cfg s (some c) reset).bearerHead := by
  have hid : ∀ a, ((s.setBearer c fun b => { b with flowRef := b.flowRef-1 }).bearer
      a).bearerId = (s.bearer a).bearerId := by
    intro a
    by_cases ha : a = c
    · subst ha
      simp
    · rw [setBearer_ne _ _ ha]
  simp only [bearerPut,setBearer_self]
  split_ifs
  · obtain ⟨hs,-⟩ := releaseMqs_spec cfg c reset
      (s.setBearer c fun b => { b with flowRef := b.flowRef-1 }) maxMqNum
    have hhead := hs.bearerHead
    refine ⟨fun a => by rw [hs.bearer]; exact hid a,?_,?_⟩
    · intro a ha
      have ha' : a ∈ s.bearerHead.erase c := hhead ▸ ha
      exact List.mem_of_mem_erase ha'
    · intro a ha hne
      have ha' : a ∈ s.bearerHead.erase c := (List.mem_erase_of_ne hne).mpr ha
      rw [hhead]
      exact ha'
  · exact ⟨hid,fun a ha => ha,fun a ha _ => ha⟩

/-- Whether a bearer can be found is not changed by putting one with another identifier. -/
theorem getBearerMap_put (cfg : Cfg) (s : Qos) {c bearerId : ℕ} (reset : Bool)
    (hc : (s.bearer c).bearerId ≠ bearerId) :
    getBearerMap (bearerPut cfg s (some c) reset) bearerId = none ↔
      getBearerMap s bearerId = none := by
  obtain ⟨hid,hsub,hkeep⟩ := bearerPut_head cfg s c reset
  rw [getBearerMap_none,getBearerMap_none]
  constructor
  · intro h a ha
    by_cases hac : a = c
    · rw [hac]
      exact hc
    · rw [← hid a]
      exact h a (hkeep a ha hac)
  · intro h a ha
    rw [hid a]
    exact h a (hsub ha)

theorem Counted.rebindFlow {s : Qos} (h : Counted s) (cfg : Cfg) {bearerId flowId : ℕ}
    {ipType : ℤ} {mqIdx : ℕ} {itm : Flow} (hg : getFlowMap s flowId ipType = some itm)
    (hid : itm.bearerId ≠ bearerId) (alloc : Bool)
    (hok : ¬(alloc = false ∧ getBearerMap s bearerId = none ∧ itm.bearer ≠ none)) :
    Counted (bearerClean
      (rebindFlow cfg s itm ⟨bearerId,flowId,ipType,mqIdx,none⟩ alloc)) := by
  obtain ⟨rest,hl,hf,hp,hk⟩ := h.rebindPut cfg hg
  simp only [Dfc.rebindFlow]
  cases hget : bearerGet cfg (bearerPut cfg s itm.bearer false) bearerId alloc with
  | mk t r =>
    cases r with
    | some a =>
      exact hl.bind ⟨bearerId,flowId,ipType,mqIdx,none⟩ cfg hget (hf.symm ▸ hp)
        (getFlowMap_some hg).2 hk
    | none =>
      obtain ⟨rfl,hnone,halloc⟩ := bearerGet_none hget
      cases hb : itm.bearer with
      | none => exact h.1.clean
      | some c =>
        have hcid := (h.1.flowBearer itm (getFlowMap_some hg).1 c hb).2
        rw [hb,getBearerMap_put cfg s false (by rw [hcid]; exact hid)] at hnone
        exact absurd ⟨halloc,hnone,by simp [hb]⟩ hok

theorem Counted.addFlow {s : Qos} (h : Counted s) (cfg : Cfg) {bearerId flowId : ℕ}
    {ipType : ℤ} {mqIdx : ℕ} {allocFlow allocBearer : Bool}
    (hok : ¬HalfRebound s (.addFlow bearerId flowId ipType mqIdx allocFlow allocBearer)) :
    Counted (addFlow cfg s bearerId flowId ipType mqIdx allocFlow allocBearer) := by
  by_cases hmq : mqIdx < maxMqNum
  swap
  · rw [Dfc.addFlow,if_pos (by omega)]
    exact h
  rw [addFlow_eq h cfg bearerId flowId ipType hmq]
  cases hg : getFlowMap s flowId ipType with
  | none => exact h.createFlow cfg _ allocFlow allocBearer (getFlowMap_none.mp hg)
  | some itm =>
    dsimp only
    split_ifs with hid hm
    · refine h.rebindFlow cfg hg hid allocBearer fun hbad => hok ?_
      exact ⟨hmq,hbad.1,hbad.2.1,itm,hg,hid,hbad.2.2⟩
    · obtain ⟨hd,hn⟩ := h.delFlow cfg flowId ipType
      exact hd.createFlow cfg _ allocFlow allocBearer (getFlowMap_none.mp hn)
    · exact h.1.clean

theorem Counted.congr {s s' : Qos} (h : Counted s) (hs : SameMap s s') : Counted s' :=
  ⟨hs.flowHead ▸ h.1.congr hs,hs.removedBearer.trans h.2⟩

theorem Counted.updateFcMap {s : Qos} (h : Counted s) (cfg : Cfg) (ackReq : ℕ)
    (ancillary : Ancillary) (fcInfo : FcInfo) (isQuery alloc : Bool) :
    Counted (updateFcMap cfg s ackReq ancillary fcInfo isQuery alloc) := by
  have hnoref := h.1.getBearerNoref cfg fcInfo.bearerId alloc
  have hsame : (getBearerNoref cfg s fcInfo.bearerId alloc).1.flowHead = s.flowHead ∧
      (getBearerNoref cfg s fcInfo.bearerId alloc).1.removedBearer = s.removedBearer := by
    unfold getBearerNoref bearerGet
    cases getBearerMap s fcInfo.bearerId with
    | some a => exact ⟨rfl,rfl⟩
    | none => cases alloc <;> exact ⟨rfl,rfl⟩
  have hc : Counted (getBearerNoref cfg s fcInfo.bearerId alloc).1 :=
    ⟨hsame.1.symm ▸ hnoref,hsame.2.trans h.2⟩
  unfold Dfc.updateFcMap
  cases hb : getBearerMap s fcInfo.bearerId with
  | some a => exact h.congr (keeps_updateFcBearer ..).same
  | none =>
    dsimp only
    split_ifs
    · cases hn : getBearerNoref cfg s fcInfo.bearerId alloc with
      | mk t r =>
        rw [hn] at hc
        cases r with
        | none => exact hc
        | some a => exact hc.congr (keeps_updateFcBearer ..).same
    · exact h

theorem Counted.step {s : Qos} (h : Counted s) (cfg : Cfg) {op : Op}
    (hok : ¬HalfRebound s op) : Counted (step cfg s op) := by
  cases op with
  | addFlow => exact h.addFlow cfg hok
  | delFlow flowId ipType => exact (h.delFlow cfg flowId ipType).1
  | flowStatus ackReq ancillary fcInfo isQuery ignoreGrant alloc =>
    simp only [Dfc.step,burstFlowControl]
    split_ifs
    all_goals first
      | exact h
      | exact h.congr (visits_allBearerFlowCtl ..).same
      | exact h.updateFcMap ..
  | txLinkStatus txStatus bearerId =>
    rcases keeps_updateTx cfg s txStatus bearerId with he|⟨a,-,hk⟩
    · rw [Dfc.step,he]
      exact h
    · exact h.congr hk.same
  | burstCheck ipType mark len =>
    rcases keeps_burstCheck cfg s ipType mark len with he|⟨f,a,-,-,hk⟩
    · rw [Dfc.step,he]
      exact h
    · exact h.congr hk.same
  | watchdog a =>
    rcases keeps_watchdogFn cfg s a with he|⟨-,hk⟩
    · rw [Dfc.step,he]
      exact h
    · exact h.congr hk.same
  | enableAllFlows => exact h.congr (visits_enableAllFlows cfg s).same
  | preparePsBearers n => exact h.congr (visits_preparePsBearers cfg s n).same

theorem counted_initial : Counted initial := by
  refine ⟨⟨?_,?_,?_,?_,?_,?_,?_,?_⟩,rfl⟩ <;> simp [initial]

/-! ## Runs -/

/-- Flow keys are unique, every pointer leads to a listed bearer, every listed bearer counts
the flows that point to it, and nothing points to a freed bearer. -/
structure Refs (s : Qos) : Prop where
  keys : (s.flowHead.map Flow.key).Nodup
  flowBearer : ∀ f ∈ s.flowHead, ∀ a, f.bearer = some a → a ∈ s.bearerHead
  mqBearer : ∀ i < maxMqNum, ∀ a, (s.mq i).bearer = some a → a ∈ s.bearerHead
  flowRef : ∀ a ∈ s.bearerHead,
    (s.bearer a).flowRef = s.flowHead.countP fun f => f.bearer = some a
  freed : ∀ a ∈ s.freed, (∀ f ∈ s.flowHead, f.bearer ≠ some a) ∧
    ∀ i < maxMqNum, (s.mq i).bearer ≠ some a

theorem Counted.refs {s : Qos} (h : Counted s) : Refs s where
  keys := h.1.keys
  flowBearer f hf a ha := (h.1.flowBearer f hf a ha).1
  mqBearer := h.1.mqBearer
  flowRef := h.1.flowRef
  freed a ha := ⟨fun f hf hb => (h.1.freed a ha).1 (h.1.flowBearer f hf a hb).1,
    fun i hi hb => (h.1.freed a ha).1 (h.1.mqBearer i hi a hb)⟩

/-- A half rebound flow points to a bearer that is freed or that counts a flow too few. -/
theorem Counted.halfRebound {s : Qos} (h : Counted s) (cfg : Cfg) {op : Op}
    (hbad : HalfRebound s op) : ¬Refs (Dfc.step cfg s op) := by
  cases op with
  | addFlow bearerId flowId ipType mqIdx allocFlow allocBearer =>
    obtain ⟨hmq,halloc,hnone,itm,hg,hid,hb⟩ := hbad
    obtain ⟨c,hc⟩ := Option.ne_none_iff_exists'.mp hb
    obtain ⟨hmem,hcid⟩ := h.1.flowBearer itm (getFlowMap_some hg).1 c hc
    obtain ⟨rest,hl,hf,hp,hk⟩ := h.rebindPut cfg hg
    have hget : bearerGet cfg (bearerPut cfg s itm.bearer false) bearerId allocBearer =
        (bearerPut cfg s itm.bearer false,none) := by
      have hn := (getBearerMap_put cfg s (c := c) false (by rw [hcid]; exact hid)).mpr hnone
      rw [hc,bearerGet,hn]
      simp [halloc]
    have hstep : Dfc.step cfg s (.addFlow bearerId flowId ipType mqIdx allocFlow allocBearer) =
        bearerClean (bearerPut cfg s itm.bearer false) := by
      rw [Dfc.step,addFlow_eq h cfg bearerId flowId ipType hmq,hg]
      simp only [ne_eq,hid,not_false_eq_true,if_true,Dfc.rebindFlow,hget]
    rw [hstep]
    intro hr
    obtain ⟨hlc,-,hfc⟩ := hl.bearerClean
    have hflows : (bearerClean (bearerPut cfg s itm.bearer false)).flowHead.Perm
        (itm::rest) := by
      rw [hfc,hf]
      exact hp
    have hin : c ∈ (bearerClean (bearerPut cfg s itm.bearer false)).bearerHead :=
      hr.flowBearer itm (hflows.mem_iff.mpr (by simp)) c hc
    have h1 := hr.flowRef c hin
    rw [hlc.flowRef c hin,hflows.countP_eq] at h1
    have h2 := refs_cons itm rest c
    rw [if_pos hc] at h2
    have h3 : Dfc.refs rest c = Dfc.refs (itm::rest) c := by exact_mod_cast h1
    omega
  | delFlow => exact hbad.elim
  | flowStatus => exact hbad.elim
  | txLinkStatus => exact hbad.elim
  | burstCheck => exact hbad.elim
  | watchdog => exact hbad.elim
  | enableAllFlows => exact hbad.elim
  | preparePsBearers => exact hbad.elim

/-- The references are right in every state of a run exactly when no flow is half rebound. -/
theorem refs_always_iff (cfg : Cfg) (ops : List Op) :
    Always (step cfg) Refs initial ops ↔
      Guarded (step cfg) (fun s op => ¬HalfRebound s op) initial ops :=
  always_iff_guarded (I := Counted) (L := fun _ _ => True)
    (fun _ h => h.refs) (fun _ _ h _ hok => h.step cfg hok)
    (fun _ _ h _ hbad => h.halfRebound cfg (not_not.mp hbad)) counted_initial ops
    (guarded_true _ _ _)

/-- A flow alone on its bearer is rebound and the new bearer cannot be allocated: the flow
then points to a bearer that was freed. -/
def failedRebind : List Op := [.addFlow 5 1 4 1 true true,.addFlow 6 1 4 1 true false]

theorem refs_failedRebind : ¬∀ (cfg : Cfg) (ops : List Op),
    Always (step cfg) Refs initial ops := by
  intro h
  have hr := (h ⟨false,5,31⟩ failedRebind).last
  have hf := hr.freed 0 (by decide)
  exact hf.1 ⟨5,1,4,1,some 0⟩ (by decide) rfl

end Dfc
end MarbleModules
