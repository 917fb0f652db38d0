import MarbleModules.Runs
import MarbleModules.RxDefragChain

/-! Fragments and time-outs in any order: where every buffer is, when a list is reassembled, and which
runs keep to this. -/
namespace MarbleModules
namespace RxDefrag
open KeyInsert Runs

/-- The buffers that wait, have been freed or belong to an MSDU. -/
def Tid.owned (s : Tid) : List ℕ := bufs s.list++s.freed++s.msdus.flatten

/-- What holds in every state: every buffer is in one place, the list is in order and not complete,
and every list that has been reassembled was complete, with consecutive packet numbers where the
security of its first fragment has such. -/
structure Sound (cfg : Config) (s : Tid) : Prop where
  waiting : Waiting s
  incomplete : ¬Complete s.list
  owned : List.Perm s.owned (List.range s.next)
  complete : ∀ r ∈ s.runs,Complete r.1
  consecutive : ∀ r ∈ s.runs,r.2 = true → ∀ h,r.1.head? = some h →
    (cfg.sec h.mcast).needsPnCheck → Consecutive r.1

/-- The state and the fragment when a fragment comes to the list, if it does. -/
def arrival (s : Tid) (f : Frag) (rx : Rx) : Option Tid :=
  if rx.lenPositive || rx.consumed then none
  else accept {s with next := s.next+1} {f with buf := s.next} rx

/-- The fragments that wait together with one more, in the order of their numbers. -/
def together (s : Tid) (f : Frag) : List Frag := insertByKey Frag.number f s.list

/-- The list is reassembled in a step exactly when the fragment makes it complete. -/
def RunsWhenComplete (cfg : Config) (s : Tid) : Op → Prop
  | .timeout => (step cfg s .timeout).runs = s.runs
  | .store f rx =>
    match arrival s f rx with
    | none => (storeFragment cfg s f rx).runs = s.runs
    | some s1 =>
      let l := (fraglistInsert s1 {f with buf := s.next}).1.list
      (Complete l → ∃ ok,(storeFragment cfg s f rx).runs = s.runs++[(l,ok)]) ∧
        (¬Complete l → (storeFragment cfg s f rx).runs = s.runs)

/-- The ring descriptor of a new fragment 0 can be stored, and all packet numbers of a list that
becomes complete are looked at. -/
def Covered (cfg : Config) (s : Tid) : Op → Prop
  | .timeout => True
  | .store f rx => ∀ s1,arrival s f rx = some s1 →
    (f.number = 0 → (∀ g ∈ s1.list,g.number ≠ 0) → rx.ringDescAlloc = true) ∧
      (Complete (together s1 {f with buf := s.next}) →
        PnCovered cfg (together s1 {f with buf := s.next}))

section Steps
variable {cfg : Config} {s : Tid} {f : Frag} {rx : Rx}

theorem storeFragment_eq (cfg : Config) (s : Tid) (f : Frag) (rx : Rx) :
    storeFragment cfg s f rx =
      match arrival s f rx with
      | none => Tid.free {s with next := s.next+1} {f with buf := s.next}
      | some s1 => insertAndProcess cfg {f with buf := s.next} rx s1 := by
  unfold storeFragment arrival
  cases rx.lenPositive with
  | true => rfl
  | false =>
    cases rx.consumed with
    | true => rfl
    | false => rfl

theorem owned_cleanup (s : Tid) : List.Perm (cleanup s).owned s.owned := by
  show List.Perm (s.freed++bufs s.list++s.msdus.flatten) (bufs s.list++s.freed++s.msdus.flatten)
  exact List.perm_append_comm.append_right _

theorem owned_free (s : Tid) (f : Frag) : List.Perm (s.free f).owned (f.buf::s.owned) := by
  show List.Perm (bufs s.list++(s.freed++[f.buf])++s.msdus.flatten) _
  unfold Tid.owned
  rw [← List.append_assoc]
  refine (List.Perm.append_right _ List.perm_append_comm).trans ?_
  exact List.Perm.refl _

theorem waiting_of_nil {s : Tid} (hl : s.list = []) (ht : s.tail = none) : Waiting s where
  sorted := by rw [hl]; exact increasing_nil
  seq := by simp [hl]
  tail := by rw [hl,ht]; rfl
  curr := by simp [ht]

theorem not_complete_nil : ¬Complete [] := fun h => absurd h.1 (by simp)

/-- A list that nothing is left of. -/
theorem sound_cleanup {s' : Tid} (howned : List.Perm s'.owned (List.range s'.next))
    (hcomplete : ∀ r ∈ s'.runs,Complete r.1)
    (hcons : ∀ r ∈ s'.runs,r.2 = true → ∀ h,r.1.head? = some h →
      (cfg.sec h.mcast).needsPnCheck → Consecutive r.1) : Sound cfg (cleanup s') where
  waiting := waiting_of_nil rfl rfl
  incomplete := not_complete_nil
  owned := (owned_cleanup s').trans howned
  complete := hcomplete
  consecutive := hcons

/-- The state to which a fragment comes: it has the sequence number of the list, and its buffer is
the one that is nowhere yet. -/
structure Arrived (cfg : Config) (s s1 : Tid) (f : Frag) : Prop where
  waiting : Waiting s1
  incomplete : ¬Complete s1.list
  owned : List.Perm (f.buf::s1.owned) (List.range s1.next)
  runs : s1.runs = s.runs
  seq : f.seq = s1.currSeqNum

theorem perm_next (h : List.Perm s.owned (List.range s.next)) :
    List.Perm (s.next::s.owned) (List.range (s.next+1)) := by
  rw [List.range_succ]
  exact (h.cons _).trans (List.perm_append_singleton _ _).symm

/-- A fragment starts a list or goes to that of its sequence number. -/
theorem accept_spec {s1 : Tid} (h : accept s f rx = some s1) :
    s1 = {cleanup s with currSeqNum := f.seq} ∨ s1 = s ∧ f.seq = s.currSeqNum := by
  unfold accept flushFrag at h
  by_cases hlist : s.list = []
  · simp only [hlist,ne_eq,not_true_eq_false,if_false] at h
    split_ifs at h
    cases h
    exact Or.inl rfl
  · simp only [hlist,ne_eq,not_false_eq_true,if_true,and_false,if_false] at h
    by_cases hseq : f.seq = s.currSeqNum
    · simp only [hseq,not_true_eq_false,if_false] at h
      split_ifs at h
      cases h
      exact Or.inr ⟨rfl,hseq⟩
    · simp only [hseq,not_false_eq_true,if_true] at h
      split_ifs at h
      cases h
      exact Or.inl rfl

theorem arrived (h : Sound cfg s) {s1 : Tid} (hs1 : arrival s f rx = some s1) :
    Arrived cfg s s1 {f with buf := s.next} := by
  have hperm := perm_next h.owned
  have hclean : Arrived cfg s {cleanup {s with next := s.next+1} with currSeqNum := f.seq}
      {f with buf := s.next} :=
    { waiting := waiting_of_nil rfl rfl
      incomplete := not_complete_nil
      owned := ((owned_cleanup s).cons _).trans hperm
      runs := rfl
      seq := rfl }
  rw [arrival] at hs1
  split at hs1
  · cases hs1
  · rcases accept_spec hs1 with rfl | ⟨rfl,hseq⟩
    · exact hclean
    · exact {
        waiting := ⟨h.waiting.sorted,h.waiting.seq,h.waiting.tail,h.waiting.curr⟩
        incomplete := h.incomplete
        owned := hperm
        runs := rfl
        seq := hseq }

end Steps

section Processing
variable {cfg : Config} {s : Tid} {rx : Rx}

/-- What is left when the MSDU has been handed on, or has not. -/
def reinjected (cfg : Config) (rx : Rx) (s : Tid) : Tid :=
  let r := reoReinject cfg rx s
  if r.2 then {r.1 with list := [],tail := none} else r.1

theorem owned_handedOn (s : Tid) :
    List.Perm (Tid.owned {s with list := [],tail := none,msdus := s.msdus++[bufs s.list]})
      s.owned := by
  show List.Perm ([]++s.freed++(s.msdus++[bufs s.list]).flatten) _
  rw [List.flatten_append,List.flatten_singleton,List.nil_append,← List.append_assoc]
  refine List.perm_append_comm.trans ?_
  rw [← List.append_assoc]
  exact List.Perm.refl _

/-- All buffers of the chain are freed and there is one new. -/
theorem owned_copied {h : Frag} (hperm : List.Perm s.owned (List.range s.next)) :
    List.Perm (Tid.owned {s with
        list := [{h with buf := s.next}]
        next := s.next+1
        freed := s.freed++bufs s.list}) (List.range (s.next+1)) := by
  refine List.Perm.trans ?_ (perm_next hperm)
  show List.Perm (s.next::(s.freed++bufs s.list++s.msdus.flatten)) _
  exact (List.perm_append_comm.append_right _).cons _

theorem reinjected_spec (cfg : Config) (rx : Rx) (hperm : List.Perm s.owned (List.range s.next)) :
    List.Perm (reinjected cfg rx s).owned (List.range (reinjected cfg rx s).next) ∧
      (reinjected cfg rx s).runs = s.runs := by
  have hdone := (owned_handedOn s).trans hperm
  unfold reinjected reoReinject
  by_cases hd : cfg.doNotReinject = true
  · rw [if_pos hd]
    exact ⟨hdone,rfl⟩
  · rw [if_neg hd]
    split
    · exact ⟨hperm,rfl⟩
    · exact ⟨hperm,rfl⟩
    · have hcopy := owned_copied (h := ‹Frag›) hperm
      split
      · exact ⟨(owned_handedOn _).trans hcopy,rfl⟩
      · exact ⟨hcopy,rfl⟩
    · split
      · exact ⟨hdone,rfl⟩
      · exact ⟨hperm,rfl⟩

variable (rx) in
theorem processFragments_spec (hperm : List.Perm s.owned (List.range s.next))
    (hlist : Complete s.list) (hcov : PnCovered cfg s.list)
    (hcomplete : ∀ r ∈ s.runs,Complete r.1)
    (hcons : ∀ r ∈ s.runs,r.2 = true → ∀ h,r.1.head? = some h →
      (cfg.sec h.mcast).needsPnCheck → Consecutive r.1) :
    Sound cfg (processFragments cfg rx s) ∧
      (processFragments cfg rx s).runs = s.runs++[(s.list,(defrag cfg rx.micEqual s.list).ok)] := by
  have hbufs := bufs_defrag cfg rx.micEqual s.list
  have hpn : (defrag cfg rx.micEqual s.list).ok = true → ∀ h,s.list.head? = some h →
      (cfg.sec h.mcast).needsPnCheck → Consecutive s.list := by
    intro hok h hh hsec
    match hl : s.list with
    | [] => simp [hl] at hh
    | [_] => exact List.isChain_singleton _
    | a::b::l =>
      rw [hl] at hh hok hcov
      cases hh
      exact defrag_consecutive hcov hok hsec
  unfold processFragments
  generalize defrag cfg rx.micEqual s.list = c at hbufs hpn
  obtain ⟨ok,list,freed⟩ := c
  simp only at hbufs hpn ⊢
  have hrun1 : ∀ r ∈ s.runs++[(s.list,ok)],Complete r.1 := by
    intro r hr
    rcases List.mem_append.mp hr with hr | hr
    · exact hcomplete r hr
    · rw [List.mem_singleton.mp hr]
      exact hlist
  have hrun2 : ∀ r ∈ s.runs++[(s.list,ok)],r.2 = true → ∀ h,r.1.head? = some h →
      (cfg.sec h.mcast).needsPnCheck → Consecutive r.1 := by
    intro r hr hok
    rcases List.mem_append.mp hr with hr | hr
    · exact hcons r hr hok
    · rw [List.mem_singleton.mp hr] at hok ⊢
      exact hpn hok
  have hchain : List.Perm (Tid.owned {s with
      list := list,freed := s.freed++freed,runs := s.runs++[(s.list,ok)]})
      (List.range s.next) := by
    refine List.Perm.trans ?_ hperm
    unfold Tid.owned
    rw [← hbufs]
    refine List.Perm.append_right _ ?_
    rw [List.append_assoc]
    exact List.Perm.append_left _ List.perm_append_comm
  cases ok with
  | false => exact ⟨sound_cleanup hchain hrun1 hrun2,rfl⟩
  | true =>
    obtain ⟨hown,hruns⟩ := reinjected_spec cfg rx hchain
    change _ = s.runs++[(s.list,true)] at hruns
    rw [← hruns] at hrun1 hrun2
    exact ⟨sound_cleanup hown hrun1 hrun2,hruns⟩

end Processing

section Insertion
variable {cfg : Config} {s s1 : Tid} {f : Frag} {rx : Rx}

theorem bufs_nodup (h : Arrived cfg s s1 f) : (bufs s1.list).Nodup := by
  have hnodup := (h.owned.nodup_iff.mpr List.nodup_range).of_cons
  exact (List.nodup_append.mp (List.nodup_append.mp hnodup).1).1

theorem insertAndProcess_spec (h : Sound cfg s) (ha : Arrived cfg s s1 f)
    (hdesc : f.number = 0 → (∀ g ∈ s1.list,g.number ≠ 0) → rx.ringDescAlloc = true)
    (hcov : Complete (together s1 f) → PnCovered cfg (together s1 f)) :
    Sound cfg (insertAndProcess cfg f rx s1) ∧
      (Complete (fraglistInsert s1 f).1.list → ∃ ok,(insertAndProcess cfg f rx s1).runs
        = s.runs++[((fraglistInsert s1 f).1.list,ok)]) ∧
      (¬Complete (fraglistInsert s1 f).1.list → (insertAndProcess cfg f rx s1).runs = s.runs) := by
  have hcomplete : ∀ r ∈ s1.runs,Complete r.1 := by rw [ha.runs]; exact h.complete
  have hcons : ∀ r ∈ s1.runs,r.2 = true → ∀ h,r.1.head? = some h →
      (cfg.sec h.mcast).needsPnCheck → Consecutive r.1 := by rw [ha.runs]; exact h.consecutive
  by_cases hold : ∃ g ∈ s1.list,g.number = f.number
  · -- the duplicate is freed and the list stays
    have hins : fraglistInsert s1 f = (s1.free f,false,false) := by
      rw [fraglistInsert,insertList_none ha.waiting hold]
    have hres : insertAndProcess cfg f rx s1 = s1.free f := by
      simp [insertAndProcess,hins]
    rw [hres,hins]
    refine ⟨⟨?_,ha.incomplete,(owned_free s1 f).trans ha.owned,hcomplete,hcons⟩,
      fun hc => absurd hc ha.incomplete,fun _ => ha.runs⟩
    exact ⟨ha.waiting.sorted,ha.waiting.seq,ha.waiting.tail,ha.waiting.curr⟩
  · have hnew : ∀ g ∈ s1.list,g.number ≠ f.number := fun g hg hh => hold ⟨g,hg,hh⟩
    obtain ⟨n,hins,hn⟩ := insertList_some ha.waiting (bufs_nodup ha) hnew
    set s2 : Tid := {s1 with
      list := insertByKey Frag.number f s1.list
      tail := (insertByKey Frag.number f s1.list).getLast?
      currFragNum := n} with hs2
    have hwait : Waiting s2 := by
      refine ⟨increasing_insertByKey ha.waiting.sorted hnew,fun g hg => ?_,rfl,hn⟩
      rcases (mem_insertByKey Frag.number).mp hg with rfl | hg
      · exact ha.seq
      · exact ha.waiting.seq g hg
    have howned : List.Perm s2.owned (List.range s2.next) := by
      refine List.Perm.trans ?_ ha.owned
      show List.Perm (bufs (insertByKey Frag.number f s1.list)++s1.freed++s1.msdus.flatten)
        ((f.buf::bufs s1.list)++s1.freed++s1.msdus.flatten)
      refine List.Perm.append_right _ (List.Perm.append_right _ ?_)
      exact (perm_insertByKey Frag.number f s1.list).map Frag.buf
    have hall : (!s1.list.isEmpty && allFragPresent s2) = true ↔ Complete s2.list := by
      have hlen : s2.list.length = s1.list.length+1 := length_insertByKey Frag.number f s1.list
      cases hl : s1.list with
      | nil =>
        rw [hl,List.length_nil] at hlen
        refine ⟨fun hh => (by cases hh),fun hh => ?_⟩
        have hh := hh.1
        omega
      | cons c cs =>
        rw [hl,List.length_cons] at hlen
        exact allFragPresent_iff hwait (by omega)
    have hins' : fraglistInsert s1 f = (s2,true,!s1.list.isEmpty && allFragPresent s2) := by
      rw [fraglistInsert,hins]
    have hnodesc : ¬(f.number = 0 ∧ True ∧
        (s2.list.head?.map Frag.buf) = some f.buf ∧ rx.ringDescAlloc = false) := by
      rintro ⟨hzero,_,_,hfail⟩
      rw [hdesc hzero fun g hg hh => hnew g hg (hh.trans hzero.symm)] at hfail
      cases hfail
    simp only [insertAndProcess,hins',if_neg hnodesc]
    by_cases hc : Complete s2.list
    · rw [hall.mpr hc,if_neg Bool.noConfusion]
      obtain ⟨hsound,hruns⟩ := processFragments_spec rx howned hc (hcov hc) hcomplete hcons
      rw [show s2.runs = s.runs from ha.runs] at hruns
      exact ⟨hsound,fun _ => ⟨_,hruns⟩,fun hh => absurd hc hh⟩
    · have hfalse : (!s1.list.isEmpty && allFragPresent s2) = false := by
        rw [← Bool.not_eq_true,hall]
        exact hc
      simp only [hfalse,if_true]
      exact ⟨⟨hwait,hc,howned,hcomplete,hcons⟩,fun hh => absurd hh hc,fun _ => ha.runs⟩

end Insertion

section Run
variable {cfg : Config}

theorem step_sound {s : Tid} (h : Sound cfg s) (op : Op) (hcov : Covered cfg s op) :
    Sound cfg (step cfg s op) ∧ RunsWhenComplete cfg s op := by
  cases op with
  | timeout => exact ⟨sound_cleanup h.owned h.complete h.consecutive,rfl⟩
  | store f rx =>
    simp only [step,RunsWhenComplete,storeFragment_eq]
    simp only [Covered] at hcov
    cases ha : arrival s f rx with
    | none =>
      refine ⟨⟨⟨h.waiting.sorted,h.waiting.seq,h.waiting.tail,h.waiting.curr⟩,h.incomplete,?_,
        h.complete,h.consecutive⟩,rfl⟩
      exact (owned_free _ _).trans (perm_next h.owned)
    | some s1 =>
      obtain ⟨hdesc,hpn⟩ := hcov s1 ha
      exact insertAndProcess_spec h (arrived h ha) hdesc hpn

theorem sound_init (cfg : Config) : Sound cfg Tid.init where
  waiting := waiting_of_nil rfl rfl
  incomplete := not_complete_nil
  owned := List.Perm.refl _
  complete := by simp [Tid.init]
  consecutive := by simp [Tid.init]

/-- In every run whose steps are covered, every state is sound and a list is reassembled exactly when
it becomes complete. -/
theorem reassembly_sound (cfg : Config) (ops : List Op)
    (hcov : Guarded (step cfg) (Covered cfg) Tid.init ops) :
    Always (step cfg) (Sound cfg) Tid.init ops ∧
      Guarded (step cfg) (RunsWhenComplete cfg) Tid.init ops :=
  ⟨guarded_always (I := Sound cfg) (fun _ h => h) (fun _ op h hc => (step_sound h op hc).1) (sound_init cfg) ops hcov,
    Guarded.imp (I := Sound cfg) (fun _ op h hc => (step_sound h op hc).1) (fun _ op h hc => (step_sound h op hc).2)
      (sound_init cfg) ops hcov⟩

end Run

section Examples

/-- Everything that is called for a fragment succeeds. -/
def Rx.ok : Rx where
  lenPositive := false
  consumed := false
  peerKnown := true
  tidInRange := true
  seqControlValid := true
  frameControlValid := true
  arraySet := true
  ringDescAlloc := true
  micEqual := true
  ipa := .off
  ringEntry := true
  mapped := true
  accessStart := true

/-- A first fragment and a second one that is the last, of sequence number 7. -/
def fragZero (pn : Fin (2^48)) (mcast : Bool) : Frag :=
  ⟨0,7,0,4,pn,mcast,24,fun _ => true,1000⟩
def fragOne (pn : Fin (2^48)) (len : UInt32) : Frag :=
  ⟨0,7,1,0,pn,false,24,fun _ => true,len⟩

/-- A peer with the given ciphers for unicast and for group-addressed frames. -/
def peer (unicast group : SecType) : Config :=
  ⟨fun mcast => if mcast then group else unicast,400,false⟩

theorem reassembly_sound_pair :
    Always (step (peer .aes_ccmp .aes_ccmp)) (Sound (peer .aes_ccmp .aes_ccmp)) Tid.init
        [.store (fragZero 5 false) .ok,.store (fragOne 6 800) .ok] ∧
      (run (step (peer .aes_ccmp .aes_ccmp)) Tid.init
        [.store (fragZero 5 false) .ok,.store (fragOne 6 800) .ok]).msdus = [[0,1]] := by
  have hcov : ∀ s f,Covered (peer .aes_ccmp .aes_ccmp) s (.store f .ok) := by
    refine fun s f s1 _ => ⟨fun _ _ => rfl,fun _ => ⟨fun _ _ _ _ => rfl,fun h _ _ _ hsec => ?_⟩⟩
    cases hm : h.mcast <;> rw [hm] at hsec <;> cases hsec
  exact ⟨(reassembly_sound (peer .aes_ccmp .aes_ccmp) [.store (fragZero 5 false) .ok,
    .store (fragOne 6 800) .ok] ⟨hcov _ _,hcov _ _,trivial⟩).1,rfl⟩

/-- A fragment whose ring descriptor cannot be stored is freed and stays in the list; a last fragment
with only a MIC is not compared; and behind a group-addressed head the security is that for
unicast. -/
theorem not_reassembly_sound :
    ¬Sound (peer .aes_ccmp .aes_ccmp) (run (step (peer .aes_ccmp .aes_ccmp)) Tid.init
      [.store (fragZero 5 false) {Rx.ok with ringDescAlloc := false},.timeout]) ∧
    ¬Sound (peer .tkip .tkip) (run (step (peer .tkip .tkip)) Tid.init
      [.store (fragZero 5 false) .ok,.store (fragOne 99 448) .ok]) ∧
    ¬Sound (peer .none .aes_ccmp) (run (step (peer .none .aes_ccmp)) Tid.init
      [.store (fragZero 5 true) .ok,.store (fragOne 99 800) .ok]) := by
  refine ⟨fun h => ?_,fun h => ?_,fun h => ?_⟩
  · exact absurd h.owned.length_eq (by decide)
  · have hh := h.consecutive ([fragZero 5 false,{fragOne 99 448 with buf := 1}],true)
      List.mem_cons_self rfl (fragZero 5 false) rfl rfl
    exact absurd (List.isChain_cons_cons.mp hh).1 (by decide)
  · have hh := h.consecutive ([fragZero 5 true,{fragOne 99 800 with buf := 1}],true)
      List.mem_cons_self rfl (fragZero 5 true) rfl rfl
    exact absurd (List.isChain_cons_cons.mp hh).1 (by decide)

end Examples

end RxDefrag
end MarbleModules
