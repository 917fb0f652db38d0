import MarbleModules.VidcCaps
import Mathlib.Data.List.Count

/-! What a successful adjustment leaves behind: the children list is empty and every capability is
adjusted after its parents, unless the walk added children while at its last entry. -/
namespace MarbleModules
namespace VidcCaps
open SafeWalk

/-- The entry of a capability is filled. -/
def CapDb.Initialised (db : CapDb) (i : ℕ) : Prop := (db.cap i).cap ≠ INST_CAP_NONE

/-- A capability that a root leads to through children. -/
def CapDb.Reachable (db : CapDb) (c : ℕ) : Prop :=
  ∃ i < INST_CAP_MAX,(db.cap i).root ∧ Relation.ReflTransGen (fun p c => c ∈ db.childIds p) i c

/-- No capability leads back to itself. -/
def CapDb.Acyclic (db : CapDb) : Prop :=
  ∀ c,¬ Relation.TransGen (fun p c => c ∈ db.childIds p) c c

/-- The children of the roots, in the order of the roots. -/
def CapDb.rootChildren (db : CapDb) : List ℕ :=
  ((List.range INST_CAP_MAX).filter fun i => (db.cap i).root).flatMap db.childIds

/-- After every change of `p` the history adjusts `c`. -/
def AdjustedAfter (log : List Visit) (p c : ℕ) : Prop :=
  ∀ l₁ v l₂,log = l₁++v::l₂ → v.cap = p → v.old ≠ v.new → ∃ w ∈ l₂,w.cap = c

/-- What `msm_vidc_adjust_v4l2_properties` is to leave behind. -/
structure Settled (db : CapDb) (s : Inst) : Prop where
  children : s.children = []
  adjusted : ∀ c,db.Initialised c → db.Reachable c → ∃ w ∈ s.log,w.cap = c
  after : ∀ c,db.Initialised c → db.Reachable c →
    ∀ p,c ∈ db.childIds p → AdjustedAfter s.log p c
  firmware : ∀ c,db.Initialised c → db.Reachable c → s.firmware.count c = 1

/-- What `msm_v4l2_op_s_ctrl` is to leave behind. -/
structure DynamicSettled (db : CapDb) (s : Inst) : Prop where
  children : s.children = []
  after : ∀ p,∀ c ∈ db.childIds p,(db.cap c).dynamicAllowed → AdjustedAfter s.log p c

theorem InstCap.childIds_subset (c : InstCap) : ∀ i ∈ c.childIds,i ∈ c.children := by
  intro i hi
  exact List.mem_of_mem_take ((List.takeWhile_sublist _).subset hi)

theorem CapDb.childIds_blank (db : CapDb) {i : ℕ} (h : (db.cap i).cap = INST_CAP_NONE) :
    db.childIds i = [] := by
  rw [CapDb.childIds,InstCap.childIds,db.blank i h]
  rfl

theorem CapDb.childIds_lt (db : CapDb) (p : ℕ) : ∀ c ∈ db.childIds p,c < INST_CAP_MAX :=
  fun c hc => db.child_lt p c (InstCap.childIds_subset _ c hc)

theorem CapDb.length_childIds (db : CapDb) (p : ℕ) : (db.childIds p).length ≤ MAX_CAP_CHILDREN := by
  have h1 := (List.takeWhile_sublist (p := fun i => i ≠ INST_CAP_NONE)
    (l := (db.cap p).children.take MAX_CAP_CHILDREN)).length_le
  have h2 := List.length_take_le MAX_CAP_CHILDREN (db.cap p).children
  exact h1.trans h2

theorem orExit_zero {r : ℤ × Inst} {k : Inst → ℤ × Inst} (h : (orExit r k).1 = 0) :
    r.1 = 0 ∧ (k r.2).1 = 0 ∧ orExit r k = k r.2 := by
  rw [orExit] at h ⊢
  by_cases hr : r.1 = 0
  · simpa [hr] using h
  · simp [hr] at h

/-- A list with `i` at its end unless it has `i`. -/
def insertLast (i : ℕ) (l : List ℕ) : List ℕ := if i ∈ l then l else l++[i]

theorem mem_insertLast {i j : ℕ} {l : List ℕ} : j ∈ insertLast i l ↔ j ∈ l ∨ j = i := by
  rw [insertLast]
  split
  · exact ⟨Or.inl,fun h => h.elim id fun h => h ▸ ‹_›⟩
  · simp

theorem nodup_insertLast {i : ℕ} {l : List ℕ} (h : l.Nodup) : (insertLast i l).Nodup := by
  rw [insertLast]
  split
  · exact h
  · exact List.Nodup.append h (List.nodup_singleton i) (by simpa using ‹_›)

/-- The children list has grown by `new` and the firmware list is `fw`; the values and the history
are as before. -/
structure Moved (new fw : List ℕ) (s s' : Inst) : Prop where
  value : s'.value = s.value
  log : s'.log = s.log
  firmware : s'.firmware = fw
  children : s'.children = s.children++new

/-- Capability `i` has been adjusted to `v` and its children `new` are queued. -/
structure Visited (i : ℕ) (v : ℤ) (new fw : List ℕ) (s s' : Inst) : Prop where
  log : s'.log = s.log++[⟨i,s.value i,v⟩]
  firmware : s'.firmware = fw
  children : s'.children = s.children++new

section Steps
variable {db : CapDb} {alloc : ℕ → Bool}

theorem Moved.visited {i : ℕ} {v : ℤ} {new fw fw' : List ℕ} {s s' s'' : Inst}
    (h : Moved new fw (s.adjustTo i v) s') (h' : Moved [] fw' s' s'') :
    Visited i v new fw' s s'' where
  log := by rw [h'.log,h.log]; rfl
  firmware := h'.firmware
  children := by rw [h'.children,h.children,List.append_nil]; rfl

theorem addCapids_spec {cs : List ℕ} {s : Inst} (h : (addCapids alloc cs s).1 = 0) :
    Moved cs s.firmware s (addCapids alloc cs s).2 := by
  induction cs generalizing s with
  | nil => exact ⟨rfl,rfl,rfl,(List.append_nil _).symm⟩
  | cons c cs ih =>
    obtain ⟨h1,h2,he⟩ := orExit_zero h
    rw [addCapids,he]
    have hq := ih h2
    have hc : (addCapidToList alloc c .CHILD_LIST s).2
        = {s with allocs := s.allocs+1,children := s.children++[c]} := by
      by_cases ha : alloc s.allocs = false
      · simp [addCapidToList,ha,ENOMEM] at h1
      · simp [addCapidToList,ha]
    rw [hc] at hq ⊢
    exact ⟨hq.value,hq.log,hq.firmware,by rw [hq.children,List.append_assoc]; rfl⟩

theorem addFirmware_spec {i : ℕ} {s : Inst} (h : (addCapidToList alloc i .FW_LIST s).1 = 0) :
    Moved [] (insertLast i s.firmware) s (addCapidToList alloc i .FW_LIST s).2 := by
  by_cases hi : i ∈ s.firmware
  · simp only [addCapidToList,hi,and_self,if_true]
    exact ⟨rfl,rfl,by simp [insertLast,hi],(List.append_nil _).symm⟩
  · by_cases ha : alloc s.allocs = false
    · simp [addCapidToList,hi,ha,ENOMEM] at h
    · have hc : (addCapidToList alloc i .FW_LIST s).2
          = {s with allocs := s.allocs+1,firmware := s.firmware++[i]} := by
        simp [addCapidToList,hi,ha]
      rw [hc]
      exact ⟨rfl,rfl,by simp [insertLast,hi],(List.append_nil _).symm⟩

/-- The value that capability `i` takes when it is adjusted. -/
def CapDb.adjusted (db : CapDb) (i : ℕ) (ctrl : Option ℤ) (s : Inst) : ℤ :=
  match (db.cap i).adjust with
  | some f => (f s.value ctrl).2
  | none => ctrl.getD (s.value i)

theorem callAdjust_snd (i : ℕ) (ctrl : Option ℤ) (s : Inst) :
    (callAdjust db i ctrl s).2 = s.adjustTo i (db.adjusted i ctrl s) := by
  unfold callAdjust CapDb.adjusted
  cases (db.cap i).adjust <;> rfl

theorem adjustProperty_blank {i : ℕ} (hi : (db.cap i).cap = INST_CAP_NONE) (s : Inst) :
    adjustProperty db alloc i s = (0,s) := by
  rw [adjustProperty,if_pos hi]

theorem adjustProperty_spec {i : ℕ} {s : Inst} (hi : db.Initialised i)
    (h : (adjustProperty db alloc i s).1 = 0) :
    Visited i (db.adjusted i none s) (db.childIds i) (insertLast i s.firmware) s
      (adjustProperty db alloc i s).2 := by
  rw [adjustProperty,if_neg hi] at h ⊢
  obtain ⟨_,h1,he⟩ := orExit_zero h
  rw [callAdjust_snd] at h1 he
  rw [he]
  obtain ⟨h2,h3,he⟩ := orExit_zero h1
  have hm : Moved (db.childIds i) s.firmware (s.adjustTo i (db.adjusted i none s))
    (addChildren db alloc i (s.adjustTo i (db.adjusted i none s))).2 := addCapids_spec h2
  have hf := addFirmware_spec h3
  rw [hm.firmware] at hf
  rw [he]
  exact hm.visited hf

/-- What the dynamic adjustment of `i` queues. -/
def CapDb.dynamicChildren (db : CapDb) (i : ℕ) (ctrl : Option ℤ) (s : Inst) : List ℕ :=
  if (db.cap i).dynamicAllowed ∧ db.adjusted i ctrl s ≠ s.value i then db.childIds i else []

theorem adjustDynamic_skip {i : ℕ} (hi : (db.cap i).dynamicAllowed = false) (ctrl : Option ℤ)
    (s : Inst) : adjustDynamicProperty db alloc i ctrl s = (0,s) := by
  rw [adjustDynamicProperty,if_pos hi]

theorem adjustDynamic_spec {i : ℕ} {ctrl : Option ℤ} {s : Inst} (hi : (db.cap i).dynamicAllowed)
    (h : (adjustDynamicProperty db alloc i ctrl s).1 = 0) :
    ∃ fw,Visited i (db.adjusted i ctrl s) (db.dynamicChildren i ctrl s) fw s
      (adjustDynamicProperty db alloc i ctrl s).2 := by
  rw [adjustDynamicProperty,if_neg (by simp [hi])] at h ⊢
  by_cases hn : ctrl = none ∧ (db.cap i).adjust.isNone
  · simp [hn,EINVAL] at h
  rw [if_neg hn] at h ⊢
  obtain ⟨_,h1,he⟩ := orExit_zero h
  rw [callAdjust_snd] at h1 he
  rw [he]
  obtain ⟨h2,h3,he⟩ := orExit_zero h1
  rw [he]
  have hval : (s.adjustTo i (db.adjusted i ctrl s)).value i = db.adjusted i ctrl s :=
    Function.update_self ..
  have hm : Moved (db.dynamicChildren i ctrl s) s.firmware (s.adjustTo i (db.adjusted i ctrl s))
      (if (s.adjustTo i (db.adjusted i ctrl s)).value i ≠ s.value i then
        addChildren db alloc i (s.adjustTo i (db.adjusted i ctrl s))
      else (0,s.adjustTo i (db.adjusted i ctrl s))).2 := by
    rw [hval] at h2 ⊢
    by_cases hc : db.adjusted i ctrl s ≠ s.value i
    · rw [if_pos hc] at h2 ⊢
      rw [CapDb.dynamicChildren,if_pos ⟨hi,hc⟩]
      exact addCapids_spec h2
    · rw [if_neg hc,CapDb.dynamicChildren,if_neg (fun hh => hc hh.2)]
      exact ⟨rfl,rfl,rfl,(List.append_nil _).symm⟩
  generalize (if (s.adjustTo i (db.adjusted i ctrl s)).value i ≠ s.value i then
        addChildren db alloc i (s.adjustTo i (db.adjusted i ctrl s))
      else (0,s.adjustTo i (db.adjusted i ctrl s))).2 = s'' at hm h3
  by_cases hgop : s''.value i = s.value i ∧ i = GOP_SIZE
  · rw [if_pos hgop]
    exact ⟨_,hm.visited ⟨rfl,rfl,rfl,(List.append_nil _).symm⟩⟩
  · rw [if_neg hgop] at h3 ⊢
    exact ⟨_,hm.visited (addFirmware_spec h3)⟩

/-- How the children list grows while it is walked. -/
theorem grows_adjustProperty :
    Grows childHead (adjustProperty db alloc) fun i _ => db.childIds i := by
  intro i s h
  by_cases hi : db.Initialised i
  · exact (adjustProperty_spec hi h).children
  · have hb : (db.cap i).cap = INST_CAP_NONE := not_not.mp hi
    simp only [adjustProperty_blank hb,db.childIds_blank hb,List.append_nil]

theorem grows_adjustDynamic :
    Grows childHead (fun i => adjustDynamicProperty db alloc i none)
      fun i s => db.dynamicChildren i none s := by
  intro i s h
  by_cases hi : (db.cap i).dynamicAllowed
  · obtain ⟨fw,hv⟩ := adjustDynamic_spec hi h
    exact hv.children
  · have hf : (db.cap i).dynamicAllowed = false := by simpa using hi
    simp only [adjustDynamic_skip hf,CapDb.dynamicChildren,hf]
    exact (List.append_nil _).symm

end Steps

/-- Every adjusted capability with a reason to queue its children has each of them that counts
adjusted later or in the list. -/
def Owed (db : CapDb) (reason : Visit → Prop) (counts : ℕ → Prop) (log : List Visit)
    (queue : List ℕ) : Prop :=
  ∀ l₁ v l₂,log = l₁++v::l₂ → reason v → ∀ c ∈ db.childIds v.cap,counts c →
    (∃ w ∈ l₂,w.cap = c) ∨ c ∈ queue

section Debts
variable {db : CapDb} {alloc : ℕ → Bool} {reason : Visit → Prop} {counts : ℕ → Prop}

theorem owed_nil (queue : List ℕ) : Owed db reason counts [] queue := by
  intro l₁ v l₂ hl
  simp at hl

theorem owed_snoc {log : List Visit} {queue queue' : List ℕ} {w : Visit}
    (h : Owed db reason counts log queue) (hq : ∀ c ∈ queue,c = w.cap ∨ c ∈ queue')
    (hw : reason w → ∀ c ∈ db.childIds w.cap,c ∈ queue') :
    Owed db reason counts (log++[w]) queue' := by
  intro l₁ v l₂ hl hv c hc hcount
  rcases List.eq_nil_or_concat l₂ with rfl | ⟨l,w',rfl⟩
  · obtain ⟨_,hww⟩ := List.append_inj' hl rfl
    cases hww
    exact Or.inr (hw hv c hc)
  · rw [List.concat_eq_append,← List.cons_append,← List.append_assoc] at hl
    obtain ⟨rfl,hww⟩ := List.append_inj' hl rfl
    cases hww
    rcases h l₁ v l rfl hv c hc hcount with ⟨u,hu,rfl⟩ | hmem
    · exact Or.inl ⟨u,by simp [hu],rfl⟩
    · rcases hq c hmem with rfl | hq
      · exact Or.inl ⟨w,by simp,rfl⟩
      · exact Or.inr hq

theorem owed_drop {log : List Visit} {x : ℕ} {queue : List ℕ}
    (h : Owed db reason counts log (x::queue)) (hx : ¬ counts x) :
    Owed db reason counts log queue := by
  intro l₁ v l₂ hl hv c hc hcount
  rcases h l₁ v l₂ hl hv c hc hcount with hw | hmem
  · exact Or.inl hw
  · rcases List.mem_cons.mp hmem with rfl | hmem
    · exact absurd hcount hx
    · exact Or.inr hmem

/-- Nothing is owed to an empty list. -/
theorem Owed.adjustedAfter {log : List Visit} (h : Owed db reason counts log []) {p c : ℕ}
    (hr : ∀ v : Visit,v.old ≠ v.new → reason v) (hc : c ∈ db.childIds p) (hcount : counts c) :
    AdjustedAfter log p c := by
  rintro l₁ v l₂ hl rfl hv
  exact (h l₁ v l₂ hl (hr v hv) c hc hcount).resolve_right (by simp)

end Debts

/-- The invariant of `msm_vidc_adjust_v4l2_properties`, with the roots adjusted so far. -/
structure RootsInv (db : CapDb) (roots : List ℕ) (s : Inst) : Prop where
  owed : Owed db (fun _ => True) db.Initialised s.log s.children
  roots : ∀ i ∈ roots,db.Initialised i → ∃ w ∈ s.log,w.cap = i
  logged : ∀ w ∈ s.log,w.cap ∈ s.firmware
  nodup : s.firmware.Nodup

section Static
variable {db : CapDb} {alloc : ℕ → Bool} {roots : List ℕ}

/-- A visit keeps the invariant whether or not the entry leaves the list afterwards. -/
theorem RootsInv.visited {i : ℕ} {v : ℤ} {s s' : Inst} {queue : List ℕ}
    (h : RootsInv db roots s)
    (hv : Visited i v (db.childIds i) (insertLast i s.firmware) s s')
    (hq : ∀ c ∈ s.children,c = i ∨ c ∈ queue) (hnew : ∀ c ∈ db.childIds i,c ∈ queue) :
    RootsInv db (i::roots) {s' with children := queue} where
  owed := by
    rw [hv.log]
    exact owed_snoc h.owed hq fun _ => hnew
  roots := by
    intro j hj hinit
    rw [hv.log]
    rcases List.mem_cons.mp hj with rfl | hj
    · exact ⟨_,List.mem_append_right _ (List.mem_singleton_self _),rfl⟩
    · obtain ⟨w,hw,rfl⟩ := h.roots j hj hinit
      exact ⟨w,List.mem_append_left _ hw,rfl⟩
  logged := by
    intro w hw
    rw [hv.log] at hw
    rw [hv.firmware,mem_insertLast]
    rcases List.mem_append.mp hw with hw | hw
    · exact Or.inl (h.logged w hw)
    · rw [List.mem_singleton.mp hw]
      exact Or.inr rfl
  nodup := by
    rw [hv.firmware]
    exact nodup_insertLast h.nodup

theorem RootsInv.subset {roots' : List ℕ} {s : Inst} (h : RootsInv db roots s)
    (hs : ∀ i ∈ roots',db.Initialised i → i ∈ roots) : RootsInv db roots' s where
  owed := h.owed
  roots i hi hinit := h.roots i (hs i hi hinit) hinit
  logged := h.logged
  nodup := h.nodup

theorem adjustRoots_spec {is : List ℕ} {s : Inst} (h : RootsInv db roots s)
    (hrc : (adjustRoots db alloc is s).1 = 0) :
    RootsInv db ((is.filter fun i => (db.cap i).root)++roots) (adjustRoots db alloc is s).2 ∧
      (adjustRoots db alloc is s).2.children
        = s.children++(is.filter fun i => (db.cap i).root).flatMap db.childIds := by
  induction is generalizing s roots with
  | nil => exact ⟨h,(List.append_nil _).symm⟩
  | cons i is ih =>
    rw [adjustRoots] at hrc ⊢
    by_cases hroot : (db.cap i).root
    swap
    · rw [if_neg hroot] at hrc ⊢
      rw [List.filter_cons_of_neg (by simpa using hroot)]
      exact ih h hrc
    rw [if_pos hroot] at hrc ⊢
    rw [List.filter_cons_of_pos (by simpa using hroot)]
    obtain ⟨h1,h2,he⟩ := orExit_zero hrc
    rw [he]
    by_cases hb : (db.cap i).cap = INST_CAP_NONE
    · have h0 : (db.cap INST_CAP_NONE).cap = INST_CAP_NONE := by
        rcases db.cap_self INST_CAP_NONE with h | h <;> exact h
      rw [hb,adjustProperty_blank h0] at h2 ⊢
      obtain ⟨hinv,hch⟩ := ih h h2
      refine ⟨hinv.subset ?_,?_⟩
      · intro j hj hinit
        rcases List.mem_cons.mp hj with rfl | hj
        · exact absurd hb hinit
        · exact hj
      · rw [hch,List.flatMap_cons,db.childIds_blank hb]
        rfl
    · rw [(db.cap_self i).resolve_left hb] at h1 h2 ⊢
      have hv := adjustProperty_spec hb h1
      have hinv : RootsInv db (i::roots) (adjustProperty db alloc i s).2 := by
        refine h.visited hv ?_ ?_ <;> rw [hv.children] <;> intro c hc
        · exact Or.inr (List.mem_append_left _ hc)
        · exact List.mem_append_right _ hc
      obtain ⟨hinv,hch⟩ := ih hinv h2
      refine ⟨hinv.subset ?_,?_⟩
      · intro j hj _
        simp only [List.mem_append,List.mem_cons,List.cons_append] at hj ⊢
        tauto
      · rw [hch,hv.children,List.flatMap_cons,List.append_assoc]

/-- The walk over the children keeps the invariant. -/
theorem RootsInv.step {x : ℕ} {rest : List ℕ} {s : Inst} (hl : childHead.list s = x::rest)
    (hrc : (adjustProperty db alloc x s).1 = 0) (h : RootsInv db roots s) :
    RootsInv db roots (childHead.pop (adjustProperty db alloc x s).2) := by
  have hs : s.children = x::rest := hl
  by_cases hx : db.Initialised x
  · have hv := adjustProperty_spec hx hrc
    have hch : (childHead.pop (adjustProperty db alloc x s).2).children
        = rest++db.childIds x := by
      show (adjustProperty db alloc x s).2.children.tail = _
      rw [hv.children,hs]
      rfl
    refine (h.visited hv ?_ ?_).subset fun i hi _ => List.mem_cons_of_mem _ hi
    · intro c hc
      rw [hs] at hc
      rw [hv.children,hs]
      exact (List.mem_cons.mp hc).imp_right fun hc => List.mem_append_left _ hc
    · intro c hc
      rw [hv.children,hs]
      exact List.mem_append_right _ hc
  · rw [adjustProperty_blank (not_not.mp hx)]
    have ho := h.owed
    rw [hs] at ho
    refine ⟨?_,h.roots,h.logged,h.nodup⟩
    show Owed db _ _ s.log s.children.tail
    rw [hs]
    exact owed_drop ho hx

/-- With an empty children list the invariant says what is to be left behind. -/
theorem RootsInv.settled {s : Inst} (h : RootsInv db roots s)
    (hroots : ∀ i < INST_CAP_MAX,(db.cap i).root → i ∈ roots) (hc : s.children = []) :
    Settled db s := by
  have ho := h.owed
  rw [hc] at ho
  have hadj : ∀ c,db.Initialised c → db.Reachable c → ∃ w ∈ s.log,w.cap = c := by
    rintro c hinit ⟨i,hi,hroot,hpath⟩
    induction hpath with
    | refl => exact h.roots i (hroots i hi hroot) hinit
    | @tail p c _ he ih =>
      have hp : db.Initialised p := by
        intro hb
        rw [db.childIds_blank hb] at he
        exact absurd he (by simp)
      obtain ⟨w,hw,rfl⟩ := ih hp
      obtain ⟨l₁,l₂,hl⟩ := List.append_of_mem hw
      obtain ⟨u,hu,rfl⟩ := (ho l₁ w l₂ hl trivial c he hinit).resolve_right (by simp)
      exact ⟨u,by rw [hl]; simp [hu],rfl⟩
  refine ⟨hc,hadj,?_,?_⟩
  · exact fun c hinit _ p hp => ho.adjustedAfter (fun _ _ => trivial) hp hinit
  · intro c hinit hreach
    obtain ⟨w,hw,rfl⟩ := hadj c hinit hreach
    exact List.count_eq_one_of_mem h.nodup (h.logged w hw)

theorem freeOnError_eq_zero {r : ℤ × Inst} {s : Inst} (h : freeOnError r = (0,s)) : r = (0,s) := by
  rw [freeOnError] at h
  split_ifs at h with hr
  · exact absurd (congrArg Prod.fst h) hr
  · exact h

/-- Roots first, then the walk: the two parts of a call that returns 0. -/
theorem adjustV4l2Properties_cases {fuel : ℕ} {s s' : Inst}
    (h : adjustV4l2Properties db alloc fuel s = some (0,s')) :
    (adjustRoots db alloc (List.range INST_CAP_MAX) s).1 = 0 ∧
      walk childHead (adjustProperty db alloc) fuel
        (adjustRoots db alloc (List.range INST_CAP_MAX) s).2 = some (0,s') := by
  rw [adjustV4l2Properties] at h
  by_cases hr : (adjustRoots db alloc (List.range INST_CAP_MAX) s).1 = 0
  · refine ⟨hr,?_⟩
    simp only [hr,ne_eq,not_true_eq_false,if_false,Option.map_eq_some_iff] at h
    obtain ⟨r,hw,hf⟩ := h
    rw [hw,freeOnError_eq_zero hf]
  · simp only [hr,ne_eq,not_false_eq_true,if_true,Option.some.injEq] at h
    exact absurd (congrArg Prod.fst (freeOnError_eq_zero h)) hr

theorem adjustV4l2Properties_settled_iff {fuel : ℕ} {s s' : Inst} (hlog : s.log = [])
    (hfw : s.firmware.Nodup) (h : adjustV4l2Properties db alloc fuel s = some (0,s')) :
    Settled db s' ↔
      ∀ k,¬ LastAlone db.childIds (generation db.childIds k (s.children++db.rootChildren)) := by
  obtain ⟨hrc,hw⟩ := adjustV4l2Properties_cases h
  have hinit : RootsInv db [] s :=
    ⟨by rw [hlog]; exact owed_nil _,by simp,by simp [hlog],hfw⟩
  obtain ⟨hinv,hch⟩ := adjustRoots_spec hinit hrc
  have hend := walk_keeps (RootsInv db _) (fun x rest s hl hrc hI => hI.step hl hrc) hw hinv
  have hempty := walk_list_eq_nil_iff grows_adjustProperty hw
  rw [passes_generation grows_adjustProperty hw] at hempty
  have hlist : childHead.list (adjustRoots db alloc (List.range INST_CAP_MAX) s).2
      = s.children++db.rootChildren := hch
  rw [hlist] at hempty
  rw [← hempty]
  refine ⟨fun hs => hs.children,fun hc => hend.settled ?_ hc⟩
  intro i hi hroot
  simp [hi,hroot]

end Static

section Dynamic
variable {db : CapDb} {alloc : ℕ → Bool}

/-- The debts of a dynamic adjustment: a changed value, children that may change. -/
def DynamicOwed (db : CapDb) (s : Inst) : Prop :=
  Owed db (fun v => v.old ≠ v.new) (fun c => (db.cap c).dynamicAllowed) s.log s.children

theorem DynamicOwed.visited {i : ℕ} {ctrl : Option ℤ} {fw queue : List ℕ} {s s' : Inst}
    (h : DynamicOwed db s)
    (hi : (db.cap i).dynamicAllowed)
    (hv : Visited i (db.adjusted i ctrl s) (db.dynamicChildren i ctrl s) fw s s')
    (hq : ∀ c ∈ s.children,c = i ∨ c ∈ queue) (hnew : ∀ c ∈ db.dynamicChildren i ctrl s,c ∈ queue) :
    DynamicOwed db {s' with children := queue} := by
  rw [DynamicOwed,hv.log]
  refine owed_snoc h hq fun hch c hc => hnew c ?_
  rw [CapDb.dynamicChildren,if_pos ⟨hi,Ne.symm hch⟩]
  exact hc

theorem DynamicOwed.step {x : ℕ} {rest : List ℕ} {s : Inst} (hl : childHead.list s = x::rest)
    (hrc : (adjustDynamicProperty db alloc x none s).1 = 0) (h : DynamicOwed db s) :
    DynamicOwed db (childHead.pop (adjustDynamicProperty db alloc x none s).2) := by
  have hs : s.children = x::rest := hl
  by_cases hx : (db.cap x).dynamicAllowed
  · obtain ⟨fw,hv⟩ := adjustDynamic_spec hx hrc
    refine h.visited hx hv ?_ ?_
    · intro c hc
      rw [hs] at hc
      rw [hv.children,hs]
      exact (List.mem_cons.mp hc).imp_right fun hc => List.mem_append_left _ hc
    · intro c hc
      rw [hv.children,hs]
      exact List.mem_append_right _ hc
  · rw [adjustDynamic_skip (by simpa using hx)]
    have ho := h
    rw [DynamicOwed,hs] at ho
    show Owed db _ _ s.log s.children.tail
    rw [hs]
    exact owed_drop ho hx

/-- The states in which `msm_v4l2_op_s_ctrl` takes an entry off the children list. -/
def dynamicPasses (db : CapDb) (alloc : ℕ → Bool) (fuel : ℕ) (id : ℕ) (val : ℤ) (s : Inst) :
    List Inst :=
  passes childHead (fun c => adjustDynamicProperty db alloc c none) fuel
    (adjustDynamicProperty db alloc (getCapId db id) (some val) s).2

theorem opSCtrl_cases {fuel : ℕ} {request : Bool} {id : ℕ} {val : ℤ} {s s' : Inst}
    (h : opSCtrl db alloc fuel request id val s = some (0,s')) :
    (db.cap (getCapId db id)).dynamicAllowed ∧
      (adjustDynamicProperty db alloc (getCapId db id) (some val) s).1 = 0 ∧
      ∃ t,walk childHead (fun c => adjustDynamicProperty db alloc c none) fuel
          (adjustDynamicProperty db alloc (getCapId db id) (some val) s).2 = some (0,t) ∧
        s'.children = t.children ∧ s'.log = t.log := by
  simp only [opSCtrl] at h
  by_cases h0 : getCapId db id = INST_CAP_NONE
  · simp [h0,EINVAL] at h
  rw [if_neg h0] at h
  by_cases hd : (db.cap (getCapId db id)).dynamicAllowed = false
  · simp [hd,EBUSY] at h
  rw [if_neg hd] at h
  refine ⟨by simpa using hd,?_⟩
  by_cases hr : (adjustDynamicProperty db alloc (getCapId db id) (some val) s).1 = 0
  · refine ⟨hr,?_⟩
    rw [if_neg (by simp [hr]),Option.map_eq_some_iff] at h
    obtain ⟨⟨rc,t⟩,hw,hf⟩ := h
    by_cases hreq : rc ≠ 0 ∨ request
    · rw [if_pos hreq] at hf
      cases freeOnError_eq_zero hf
      exact ⟨s',hw,rfl,rfl⟩
    · rw [if_neg hreq] at hf
      have hrc : rc = 0 := not_not.mp fun hh => hreq (Or.inl hh)
      have hset : {t with firmware := []} = s' :=
        congrArg Prod.snd (freeOnError_eq_zero hf)
      rw [hrc] at hw
      exact ⟨t,hw,by rw [← hset],by rw [← hset]⟩
  · rw [if_pos hr,Option.some.injEq] at h
    exact absurd (congrArg Prod.fst (freeOnError_eq_zero h)) hr

theorem opSCtrl_settled_iff {fuel : ℕ} {request : Bool} {id : ℕ} {val : ℤ} {s s' : Inst}
    (hlog : s.log = []) (h : opSCtrl db alloc fuel request id val s = some (0,s')) :
    DynamicSettled db s' ↔
      ∀ p ∈ dynamicPasses db alloc fuel id val s,∀ x,p.children = [x] →
        db.dynamicChildren x none p = [] := by
  obtain ⟨hd,hrc,t,hw,hch,hlg⟩ := opSCtrl_cases h
  have hinit : DynamicOwed db s := by
    rw [DynamicOwed,hlog]
    exact owed_nil _
  obtain ⟨fw,hv⟩ := adjustDynamic_spec hd hrc
  have hfirst : DynamicOwed db (adjustDynamicProperty db alloc (getCapId db id) (some val) s).2 := by
    refine hinit.visited hd hv ?_ ?_ <;> rw [hv.children] <;> intro c hc
    · exact Or.inr (List.mem_append_left _ hc)
    · exact List.mem_append_right _ hc
  have hend := walk_keeps (DynamicOwed db) (fun x rest s hl hrc hI => hI.step hl hrc) hw hfirst
  have hempty : t.children = [] ↔ _ := walk_list_eq_nil_iff grows_adjustDynamic hw
  refine Iff.trans ⟨fun hs => hch ▸ hs.children,fun hc => ?_⟩ hempty
  refine ⟨hch.trans hc,fun p c hcp hcd => ?_⟩
  rw [DynamicOwed,hc] at hend
  rw [hlg]
  exact hend.adjustedAfter (fun _ hh => hh) hcp hcd

end Dynamic

section Ends
variable {db : CapDb}

theorem adjustV4l2Properties_isSome (hac : db.Acyclic) (alloc : ℕ → Bool) (s : Inst) :
    ∃ n,∀ fuel > n,(adjustV4l2Properties db alloc fuel s).isSome := by
  obtain ⟨μ,_,hμ⟩ := exists_weight db.childIds_lt db.length_childIds hac
  refine ⟨(((adjustRoots db alloc (List.range INST_CAP_MAX) s).2.children).map μ).sum,?_⟩
  intro fuel hfuel
  rw [adjustV4l2Properties]
  by_cases hr : (adjustRoots db alloc (List.range INST_CAP_MAX) s).1 = 0
  · rw [if_neg (not_not.mpr hr),Option.isSome_map]
    exact walk_isSome grows_adjustProperty μ (fun x _ => hμ x) hfuel
  · rw [if_pos hr]
    rfl

theorem opSCtrl_isSome (hac : db.Acyclic) (alloc : ℕ → Bool) (request : Bool) (id : ℕ) (val : ℤ)
    (s : Inst) : ∃ n,∀ fuel > n,(opSCtrl db alloc fuel request id val s).isSome := by
  obtain ⟨μ,hpos,hμ⟩ := exists_weight db.childIds_lt db.length_childIds hac
  refine ⟨((adjustDynamicProperty db alloc (getCapId db id) (some val) s).2.children.map μ).sum,?_⟩
  intro fuel hfuel
  have hnew : ∀ x t,((db.dynamicChildren x none t).map μ).sum < μ x := by
    intro x t
    rw [CapDb.dynamicChildren]
    split
    · exact hμ x
    · exact hpos x
  have hg : Grows childHead (fun i => adjustDynamicProperty db alloc i none)
    fun i s => db.dynamicChildren i none s := grows_adjustDynamic
  have hw := walk_isSome hg μ hnew hfuel
  simp only [opSCtrl]
  split_ifs
  · rfl
  · rfl
  · rfl
  · rw [Option.isSome_map]
    exact hw

end Ends

/-- A capability that takes the value of its control and is a root if it is the first. -/
def plainCap (i : ℕ) (children : List ℕ) : InstCap where
  cap := i
  v4l2Id := i
  root := i = 1
  dynamicAllowed := true
  children := children
  adjust := some fun values ctrl => (0,ctrl.getD (values i))
  set := none

/-- A database of such capabilities. -/
def plainDb (children : ℕ → List ℕ) (h0 : children 0 = [])
    (hlt : ∀ i,∀ c ∈ children i,c < INST_CAP_MAX) : CapDb where
  cap i := plainCap i (children i)
  cap_self _ := Or.inr rfl
  blank := by rintro i (rfl : i = 0); exact h0
  child_lt := hlt

theorem acyclic_of_lt {db : CapDb} (h : ∀ p,∀ c ∈ db.childIds p,p < c) : db.Acyclic := by
  intro c hc
  have hlt : ∀ d,Relation.TransGen (fun p c => c ∈ db.childIds p) c d → c < d := by
    intro d hd
    induction hd with
    | single he => exact h _ _ he
    | tail _ he ih => exact ih.trans (h _ _ he)
  exact lt_irrefl c (hlt c hc)

/-- 1 has the child 2, and 2 the child 3. -/
def lineChildren : ℕ → List ℕ
  | 1 => [2]
  | 2 => [3]
  | _ => []

/-- 1 has the children 2 and 3, and 2 the child 4. -/
def forkChildren : ℕ → List ℕ
  | 1 => [2,3]
  | 2 => [4]
  | _ => []

def lineDb : CapDb := plainDb lineChildren rfl (by
  intro i c hc
  unfold lineChildren at hc
  split at hc <;> simp at hc <;> subst hc <;> decide)

def forkDb : CapDb := plainDb forkChildren rfl (by
  intro i c hc
  unfold forkChildren at hc
  split at hc <;> simp at hc <;> rcases hc with rfl | rfl <;> decide)

/-- An instance with both lists empty. -/
def freshInst : Inst := ⟨fun _ => 0,[],[],0,[]⟩

theorem lineDb_acyclic : lineDb.Acyclic := by
  apply acyclic_of_lt
  intro p c hc
  have hh := InstCap.childIds_subset _ c hc
  change c ∈ lineChildren p at hh
  unfold lineChildren at hh
  split at hh <;> simp at hh <;> omega

theorem forkDb_acyclic : forkDb.Acyclic := by
  apply acyclic_of_lt
  intro p c hc
  have hh := InstCap.childIds_subset _ c hc
  change c ∈ forkChildren p at hh
  unfold forkChildren at hh
  split at hh <;> simp at hh <;> omega

end VidcCaps
end MarbleModules
