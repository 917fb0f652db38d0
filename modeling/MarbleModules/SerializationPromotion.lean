import MarbleModules.SerializationCounter

/-! No command is stranded: whoever may have kept a pending command back hands over to the next
promotion, cancels apart. -/
namespace MarbleModules
namespace Serialization

open Runs Stacks

/-- A promotion that looks at the whole pending list -/
def Frame.sweeps : Frame → Bool
  | .move _ b => b
  | .moveLoop .pdev => true
  | _ => false

/-- A promotion that looks at the pending commands of the vdev -/
def Frame.covers (v : ℕ) : Frame → Bool
  | .move w b => b || w = v
  | .moveLoop .pdev => true
  | _ => false

/-- A promotion; it looks at the whole pending list when a blocking command waits. -/
def Frame.mover : Frame → Bool
  | .move _ _ => true
  | .moveLoop .pdev => true
  | _ => false

/-- The next removal will look at the whole pending list. -/
def Held (q : Queue) : Prop := q.blockingCmdActive = true ∨ q.blockingCmdWaiting ≠ 0

/-- Every pending command that could be active has somebody to promote it. -/
structure Awaited (q : Queue) (F : List Frame) : Prop where
  vdev : ∀ n ∈ q.pending, ∀ c, (q.nodes n).cmd = some c → c.vdev ∉ q.bitmap →
    Held q ∨ ∃ f ∈ F, f.covers c.vdev
  blocking : q.bitmap = ∅ → ∀ n ∈ q.pending, isBlocking q n = true → ∃ f ∈ F, f.mover
  marked : ∀ n ∈ q.pending, isBlocking q n = false → (q.nodes n).markedForMovement = true →
    Held q ∨ ∃ f ∈ F, f.sweeps

/-- When a cancel has done its bookkeeping, every pending command still has somebody to promote
it. -/
def HandsOver (cfg : Cfg) (s : State) : Frame → Prop
  | .cancelled _ active _ _ c => Awaited (cancelFinish cfg s.store.q active c) (frames s)
  | _ => True

/-- Requests are counted exactly when they become pending, and cancels hand over. -/
def NothingDropped (cfg : Cfg) (s : State) : Op → Prop
  | .request c _ => CountsPending cfg s.store.q (numbered s.store c)
  | .advance i _ => ∀ f ∈ top s i, Followed cfg s.store.q f ∧ HandsOver cfg s f
  | _ => True

/-- When no call is in progress, an idle pdev has nothing pending, and neither has an idle vdev
unless a blocking command is active or pending. -/
structure Unstranded (s : State) : Prop where
  pdev : frames s = [] → s.store.q.active = [] → s.store.q.pending = []
  vdev : frames s = [] → ∀ v, (∀ n ∈ s.store.q.active, onVdev s.store.q v n = false) →
    (∀ n, n ∈ s.store.q.active ∨ n ∈ s.store.q.pending → isBlocking s.store.q n = false) →
    s.store.q.vdevPending v = []

/-- The flag is only set for a blocking command that is active or being cancelled. -/
def Flagged (flag : Bool) (l w : List Command) : Prop :=
  flag = true → ∃ c ∈ l ++ w, c.isBlocking = true

theorem flagged_books : Books Flagged where
  perm := fun hl hw h hf => by
    obtain ⟨c,hc,hb⟩ := h hf
    exact ⟨c,(hl.append hw).mem_iff.mp hc,hb⟩
  take := fun h hf => by
    obtain ⟨c,hc,hb⟩ := h hf
    exact ⟨c,List.perm_middle.symm.mem_iff.mp hc,hb⟩
  finish := fun {b c l w} h hf => by
    rw [Bool.and_eq_true,Bool.not_eq_true'] at hf
    obtain ⟨d,hd,hb⟩ := h hf.1
    rcases List.mem_cons.mp (List.perm_middle.mem_iff.mp hd) with rfl | hd
    · rw [hf.2] at hb
      cases hb
    · exact ⟨d,hd,hb⟩

theorem Flagged.join {flag : Bool} {l w : List Command} (h : Flagged flag l w) (c : Command) :
    Flagged (flag || c.isBlocking) (c::l) w := by
  intro hf
  rcases Bool.or_eq_true_iff.mp hf with hf | hb
  · obtain ⟨d,hd,hb⟩ := h hf
    exact ⟨d,List.mem_cons_of_mem _ hd,hb⟩
  · exact ⟨c,List.mem_cons_self,hb⟩

theorem covers_of_sweeps {f : Frame} (h : f.sweeps) (v : ℕ) : f.covers v := by
  cases f with
  | move w b => exact Bool.or_eq_true_iff.mpr (Or.inl h)
  | moveLoop l => cases l <;> simp_all [Frame.sweeps,Frame.covers]
  | _ => cases h

theorem mover_of_covers {f : Frame} {v : ℕ} (h : f.covers v) : f.mover := by
  cases f with
  | move w b => rfl
  | moveLoop l => cases l <;> simp_all [Frame.mover,Frame.covers]
  | _ => cases h

theorem mover_of_sweeps {f : Frame} (h : f.sweeps) : f.mover := mover_of_covers (covers_of_sweeps h 0)

theorem Frame.Plain.not_mover {f : Frame} (h : f.Plain) : ¬ f.mover := by
  cases f <;> first | exact Bool.false_ne_true | exact h.elim

section Awaited

variable {cfg : Cfg} (hk : cfg.kind = .nonScan) {q q' : Queue} {F F' : List Frame}

/-- A sweep will find whatever can be promoted. -/
theorem Awaited.of_sweeps {f : Frame} (hf : f ∈ F) (hs : f.sweeps) : Awaited q F where
  vdev := fun _ _ c _ _ => Or.inr ⟨f,hf,covers_of_sweeps hs c.vdev⟩
  blocking := fun _ _ _ _ => ⟨f,hf,(mover_of_sweeps hs)⟩
  marked := fun _ _ _ _ => Or.inr ⟨f,hf,hs⟩

/-- Fewer pending commands, marks and idle vdevs ask for no more promotions. -/
theorem Awaited.mono (h : Awaited q F) (hp : ∀ n ∈ q'.pending, n ∈ q.pending ∧
      (q'.nodes n).cmd = (q.nodes n).cmd ∧
      ((q'.nodes n).markedForMovement = true → (q.nodes n).markedForMovement = true))
    (hb : ∀ v ∈ q.bitmap, v ∈ q'.bitmap) (hheld : Held q → Held q')
    (hF : ∀ f ∈ F, f.mover → f ∈ F') : Awaited q' F' where
  vdev := fun n hn c hc hv => by
    obtain ⟨hn',hcn,-⟩ := hp n hn
    rw [hcn] at hc
    rcases h.vdev n hn' c hc fun hh => hv (hb _ hh) with hh | ⟨f,hf,hcov⟩
    · exact Or.inl (hheld hh)
    · exact Or.inr ⟨f,hF f hf (mover_of_covers hcov),hcov⟩
  blocking := fun he n hn hbl => by
    obtain ⟨hn',hcn,-⟩ := hp n hn
    rw [isBlocking_congr hcn] at hbl
    have he' : q.bitmap = ∅ := Finset.eq_empty_of_forall_notMem fun v hv => by
      have hh := hb v hv
      rw [he] at hh
      exact Finset.notMem_empty v hh
    obtain ⟨f,hf,hm⟩ := h.blocking he' n hn' hbl
    exact ⟨f,hF f hf hm,hm⟩
  marked := fun n hn hbl hmark => by
    obtain ⟨hn',hcn,hm⟩ := hp n hn
    rw [isBlocking_congr hcn] at hbl
    rcases h.marked n hn' hbl (hm hmark) with hh | ⟨f,hf,hs⟩
    · exact Or.inl (hheld hh)
    · exact Or.inr ⟨f,hF f hf (mover_of_sweeps hs),hs⟩

theorem Held.congr (hf : q'.blockingCmdActive = q.blockingCmdActive)
    (hw : q'.blockingCmdWaiting = q.blockingCmdWaiting) (h : Held q) : Held q' := by
  rwa [Held,hf,hw]

theorem Awaited.marks (h : Awaited q F) (hq : Marks q q') (hm : SameMoves q q')
    (hF : ∀ f ∈ F, f.mover → f ∈ F') : Awaited q' F' :=
  h.mono (fun n hn => ⟨hq.pending ▸ hn,hq.cmd n,fun hh => (hm n).symm.trans hh⟩)
    (fun _ hv => hq.bitmap.symm ▸ hv) (Held.congr hq.blockingCmdActive hq.blockingCmdWaiting) hF

theorem Awaited.perm (h : Awaited q F) (hp : F.Perm F') : Awaited q F' :=
  h.marks (Marks.refl q) (fun _ => rfl) fun _ hf _ => hp.mem_iff.mp hf

/-- A command that a cancel takes out is not missed. -/
theorem Awaited.taken {f : Filter} {active timerFound : Bool} {p p' : Option ℕ} {k k' : ℕ}
    {q₁ : Queue} {n : ℕ} {c : Command} (h : Awaited q F) (hwf : Wf cfg q)
    (ht : Taken cfg q f active timerFound p k q₁ n c p' k')
    (hF : ∀ f ∈ F, f.mover → f ∈ F') : Awaited (takeOut cfg q₁ n c.vdev active) F' := by
  have hbase : Awaited q₁ F := h.marks ht.marks ht.moves fun _ hf _ => hf
  have hwf' := hwf.of_marks ht.marks
  have hn : n ∈ q₁.pdevList active := ht.marks.pdevList active ▸ ht.mem
  refine hbase.mono (fun m hm => ?_) (fun v hv => (takeOut_bitmap ..).symm ▸ hv)
    (Held.congr (takeOut_blockingCmdActive ..) (takeOut_blockingCmdWaiting ..)) hF
  have hmem : m ∈ q₁.pending ∧ m ≠ n := by
    rw [takeOut_pending] at hm
    cases active with
    | true => exact ⟨hm,fun hh => hwf'.not_mem_pending hn (hh ▸ hm)⟩
    | false => exact ⟨List.mem_of_mem_erase hm,(hwf'.pending_nodup.mem_erase_iff.mp hm).1⟩
  rw [takeOut_nodes,Function.update_of_ne hmem.2]
  exact ⟨hmem.1,rfl,id⟩

/-- A removal hands over to the promotion it starts. -/
theorem Awaited.dequeued (hk : cfg.kind = .nonScan) (h : Awaited q F) (hwf : Wf cfg q) {n : ℕ}
    {c : Command} (hn : n ∈ q.active) (hF : ∀ f ∈ F, f.mover → f ∈ F')
    (hmove : Frame.move c.vdev c.isBlocking ∈ F') :
    Awaited (cancelFinish cfg (takeOut cfg q n c.vdev true) true c) F' := by
  have hpend : ∀ m ∈ (cancelFinish cfg (takeOut cfg q n c.vdev true) true c).pending,
      m ∈ q.pending ∧ m ≠ n := fun m hm => by
    rw [(cancelFinish_parts ..).1.pending,takeOut_pending,if_pos rfl] at hm
    exact ⟨hm,fun hh => hwf.not_mem_pending hn (hh ▸ hm)⟩
  have hnodes : ∀ m, m ≠ n → (cancelFinish cfg (takeOut cfg q n c.vdev true) true c).nodes m =
      q.nodes m := fun m hm => by
    rw [(cancelFinish_parts ..).2,takeOut_nodes,Function.update_of_ne hm]
  cases hb : c.isBlocking with
  | true =>
    rw [hb] at hmove
    exact .of_sweeps hmove rfl
  | false =>
    have hheld : Held q → Held (cancelFinish cfg (takeOut cfg q n c.vdev true) true c) :=
      Held.congr (by simp [cancelFinish,hk,hb]) (by simp [cancelFinish,hk])
    have hbit : (cancelFinish cfg (takeOut cfg q n c.vdev true) true c).bitmap =
        q.bitmap.erase c.vdev := by simp [cancelFinish,hk]
    refine ⟨fun m hm d hd hv => ?_,fun _ _ _ _ => ⟨_,hmove,rfl⟩,fun m hm hbl hmark => ?_⟩
    · obtain ⟨hm',hmn⟩ := hpend m hm
      rw [hnodes m hmn] at hd
      by_cases hdv : d.vdev = c.vdev
      · exact Or.inr ⟨_,hmove,by simp [Frame.covers,hdv]⟩
      · rw [hbit,Finset.mem_erase] at hv
        rcases h.vdev m hm' d hd fun hh => hv ⟨hdv,hh⟩ with hh | ⟨f,hf,hcov⟩
        · exact Or.inl (hheld hh)
        · exact Or.inr ⟨f,hF f hf (mover_of_covers hcov),hcov⟩
    · obtain ⟨hm',hmn⟩ := hpend m hm
      rw [hnodes m hmn] at hmark
      have hbl' := (isBlocking_congr (congrArg CommandList.cmd (hnodes m hmn))).symm.trans hbl
      rcases h.marked m hm' hbl' hmark with hh | ⟨f,hf,hs⟩
      · exact Or.inl (hheld hh)
      · exact Or.inr ⟨f,hF f hf (mover_of_sweeps hs),hs⟩

/-- A waiting blocking command is pending when no cancel holds one. -/
theorem Counted.waiting {w : List Command} (h : Counted q w) :
    (∀ n ∈ q.pending, isBlocking q n = true → q.blockingCmdWaiting ≠ 0) := by
  intro n hn hb
  have hpos : 0 < (q.pendingCmds ++ w).countP Command.isBlocking := by
    rw [List.countP_append,← countP_isBlocking]
    have hh := List.length_pos_of_mem (List.mem_filter.mpr ⟨hn,hb⟩)
    omega
  rw [h.exact]
  omega

/-- The sweep ends at a blocking command, which waits for an active vdev, or behind commands
all of whose vdevs are active. -/
theorem Awaited.sweep_none {w : List Command} (hwf : Wf cfg q) (hcount : Counted q w)
    (hs : (scanPending q q.pending).2 = none) (F : List Frame) :
    Awaited (scanPending q q.pending).1 F := by
  obtain ⟨hwalk,hstop⟩ := scanPending_spec hwf.pending_nodup
    fun n hn => hwf.not_mem_pool (Or.inr hn)
  rw [hs] at hstop
  cases hstop with
  | blocked n hn hb hne =>
    have hheld : Held (scanPending q q.pending).1 :=
      Or.inr (hwalk.blockingCmdWaiting ▸ hcount.waiting n hn hb)
    exact ⟨fun _ _ _ _ _ => Or.inl hheld,fun hh => absurd (hwalk.bitmap ▸ hh) hne,
      fun _ _ _ _ => Or.inl hheld⟩
  | finish hv hb hm =>
    refine ⟨fun n hn c hc hnot => ?_,fun _ n hn hbl => ?_,fun n hn _ hmark => ?_⟩
    · have hact := hv n (hwalk.pending ▸ hn)
      rw [vdevCmdActive_eq ((hwalk.cmd n).symm.trans hc),decide_eq_true_eq] at hact
      exact absurd (hwalk.bitmap.symm ▸ hact) hnot
    · rw [isBlocking_congr (hwalk.cmd n),hb n (hwalk.pending ▸ hn)] at hbl
      cases hbl
    · rw [hm n (hwalk.pending ▸ hn)] at hmark
      cases hmark

/-- The front of the vdev's queue stays when its vdev is active, or when it is marked because a
sweep has seen it. -/
theorem Awaited.front_none {v : ℕ} {w : List Command} (hk : cfg.kind = .nonScan)
    (hwf : Wf cfg q) (hcount : Counted q w) (hw : q.blockingCmdWaiting = 0)
    (hs : vdevFront q v = none) (h : Awaited q (.move v false::F)) : Awaited q F := by
  have hnone : ∀ n ∈ q.pending, isBlocking q n = false := fun n hn => by
    rw [← Bool.not_eq_true]
    exact fun hb => hcount.waiting n hn hb hw
  have hsweep : (∃ f ∈ Frame.move v false::F, f.sweeps) → ∃ f ∈ F, f.sweeps := by
    rintro ⟨f,hf,hsw⟩
    rcases List.mem_cons.mp hf with rfl | hf
    · exact absurd hsw Bool.false_ne_true
    · exact ⟨f,hf,hsw⟩
  refine ⟨fun n hn c hc hv => ?_,fun _ n hn hb => ?_,fun n hn hb hm => ?_⟩
  · rcases h.vdev n hn c hc hv with hh | ⟨f,hf,hcov⟩
    · exact Or.inl hh
    · rcases List.mem_cons.mp hf with rfl | hf
      · have hcv : v = c.vdev := by simpa [Frame.covers] using hcov
        have hmem : n ∈ q.vdevPending v := by
          rw [← vdevList_false,hwf.vdevs hk]
          exact List.mem_filter.mpr ⟨hn,by rw [onVdev_of_cmd hc,hcv]; simp⟩
        cases hl : q.vdevPending v with
        | nil =>
          rw [hl] at hmem
          cases hmem
        | cons m rest =>
          have hm : m ∈ q.vdevPending v := by rw [hl]; exact List.mem_cons_self
          rw [← vdevList_false,hwf.vdevs hk] at hm
          obtain ⟨d,hd,-⟩ := hwf.held m (Or.inr (List.mem_of_mem_filter hm))
          have hdv := (List.mem_filter.mp hm).2
          rw [onVdev_of_cmd hd,decide_eq_true_eq] at hdv
          have hinactive : vdevCmdActive q m = false := by
            rw [vdevCmdActive_eq hd,hdv,hcv,decide_eq_false_iff_not]
            exact hv
          have hmark : (q.nodes m).markedForMovement = true := by
            by_contra hno
            simp [vdevFront,hl,hinactive,hno] at hs
          have hmp := List.mem_of_mem_filter hm
          rcases h.marked m hmp (hnone m hmp) hmark with hh | hh
          · exact Or.inl hh
          · obtain ⟨f,hf,hsw⟩ := hsweep hh
            exact Or.inr ⟨f,hf,covers_of_sweeps hsw c.vdev⟩
      · exact Or.inr ⟨f,hf,hcov⟩
  · rw [hnone n hn] at hb
    cases hb
  · exact (h.marked n hn hb hm).imp_right hsweep

/-- A promotion that finds nothing leaves nothing to promote behind. -/
theorem Awaited.idle {f : Frame} {w : List Command} (h : Awaited q (f::F)) (hinv : Inv cfg q (f::F))
    (hcount : Counted q w) (hflag : Flagged q.blockingCmdActive q.activeCmds (taking (f::F)))
    (hk : cfg.kind = .nonScan) (hf : Idle cfg q f q') : Awaited q' F := by
  have hdrop : ¬ f.mover → Awaited q F := fun hn => h.marks (Marks.refl q) (fun _ => rfl)
    fun g hg hm => (List.mem_cons.mp hg).resolve_left fun hh => hn (hh ▸ hm)
  cases hf with
  | scan hk' => rw [hk] at hk'; cases hk'
  | vdev v => exact hdrop Bool.false_ne_true
  | blocked hset =>
    -- the blocking command that keeps the flag set has its bit
    obtain ⟨c,hc,hb⟩ := hflag hset
    have hne : q.bitmap ≠ ∅ := fun hh => by
      have hmem := ((hinv.booked hk).mem c.vdev).mpr (List.mem_map_of_mem hc)
      rw [hh] at hmem
      exact Finset.notMem_empty _ hmem
    exact ⟨fun _ _ _ _ _ => Or.inl (Or.inl hset),fun hh => absurd hh hne,
      fun _ _ _ _ => Or.inl (Or.inl hset)⟩
  | @looked f l hk' hl hs =>
    have hpdev : l = .pdev → Awaited (select q l).1 F := by
      rintro rfl
      exact .sweep_none hinv.wf hcount hs F
    cases hl with
    | again => exact hpdev rfl
    | move v b =>
      by_cases hv : b = false ∧ q.blockingCmdWaiting = 0
      · obtain ⟨rfl,hw⟩ := hv
        have hlookup : lookupFor q v false = .vdev v := if_pos ⟨rfl,hw⟩
        rw [hlookup] at hs ⊢
        exact h.front_none hk hinv.wf hcount hw hs
      · exact hpdev (if_neg hv)

theorem vdevFront_some {v n : ℕ} {c : Command} (hk : cfg.kind = .nonScan) (hwf : Wf cfg q)
    (hs : vdevFront q v = some n) (hc : (q.nodes n).cmd = some c) : c.vdev = v := by
  have hn : n ∈ q.vdevPending v := by
    rw [vdevFront] at hs
    cases hl : q.vdevPending v with
    | nil =>
      rw [hl] at hs
      cases hs
    | cons m rest =>
      simp only [hl] at hs
      split at hs
      · cases hs
      · split at hs
        · cases hs
        · cases hs
          exact List.mem_cons_self
  rw [← vdevList_false,hwf.vdevs hk] at hn
  have hh := (List.mem_filter.mp hn).2
  rwa [onVdev_of_cmd hc,decide_eq_true_eq] at hh

/-- After a promotion the sweep goes on; the vdev's own promotion is done with its vdev. -/
theorem Awaited.promoted {f : Frame} {gs : List Frame} {n : ℕ} {c : Command} {q₁ : Queue}
    {w : List Command} (hk : cfg.kind = .nonScan) (h : Awaited q (f::F)) (hwf : Wf cfg q)
    (hcount : Counted q w) (hf : Chosen cfg q n f q₁ gs) (hp : Promoted cfg q₁ n c q') :
    Awaited q' (.activate n c.uid::gs ++ F) := by
  cases hf with
  | scan hk' => rw [hk] at hk'; cases hk'
  | @looked f l hk' hl hs =>
    have hpdev : l = .pdev → Awaited q' (.activate n c.uid::[.moveLoop l] ++ F) := by
      rintro rfl
      exact .of_sweeps (f := .moveLoop .pdev) (by simp) rfl
    cases hl with
    | again => exact hpdev rfl
    | move v b =>
      by_cases hv : b = false ∧ q.blockingCmdWaiting = 0
      · obtain ⟨rfl,hw⟩ := hv
        have hlookup : lookupFor q v false = .vdev v := if_pos ⟨rfl,hw⟩
        rw [hlookup] at hs hp ⊢
        have hcv := vdevFront_some hk hwf hs hp.cmd
        have hnb : c.isBlocking = false := by
          rw [← isBlocking_of_cmd hp.cmd,← Bool.not_eq_true]
          exact fun hb => hcount.waiting n hp.mem hb hw
        have hpend : ∀ m ∈ q'.pending, m ∈ q.pending ∧ q'.nodes m = q.nodes m := fun m hm => by
          rw [hp.pending] at hm
          have hmn := (hwf.pending_nodup.mem_erase_iff.mp hm).1
          rw [hp.nodes,Function.update_of_ne hmn]
          exact ⟨List.mem_of_mem_erase hm,rfl⟩
        have hheld : Held q → Held q' := fun hh => by
          have hflag := hp.blockingCmdActive hk
          have hwait := hp.blockingCmdWaiting hk
          rw [hnb,Bool.or_false] at hflag
          rw [if_neg (by simp [hnb])] at hwait
          exact Held.congr hflag hwait hh
        refine ⟨fun m hm d hd hnot => ?_,fun he => ?_,fun m hm hb hmark => ?_⟩
        · obtain ⟨hm',hmn⟩ := hpend m hm
          rw [hmn] at hd
          rw [hp.bitmap hk,Finset.mem_insert,not_or] at hnot
          rcases h.vdev m hm' d hd hnot.2 with hh | ⟨g,hg,hcov⟩
          · exact Or.inl (hheld hh)
          · rcases List.mem_cons.mp hg with rfl | hg
            · have hvd : v = d.vdev := by simpa [Frame.covers] using hcov
              exact absurd (hvd.symm.trans hcv.symm) hnot.1
            · exact Or.inr ⟨g,List.mem_append_right _ hg,hcov⟩
        · rw [hp.bitmap hk] at he
          exact absurd he (Finset.insert_ne_empty _ _)
        · obtain ⟨hm',hmn⟩ := hpend m hm
          rw [hmn] at hmark
          have hb' := (isBlocking_congr (congrArg CommandList.cmd hmn)).symm.trans hb
          rcases h.marked m hm' hb' hmark with hh | ⟨g,hg,hsw⟩
          · exact Or.inl (hheld hh)
          · rcases List.mem_cons.mp hg with rfl | hg
            · exact absurd hsw Bool.false_ne_true
            · exact Or.inr ⟨g,List.mem_append_right _ hg,hsw⟩
      · exact hpdev (if_neg hv)

/-- What a turn does to the promotions that are due. -/
theorem Awaited.turn {s s' : Store} {env : Env} {f : Frame} {gs : List Frame} {w : List Command}
    (hk : cfg.kind = .nonScan) (hinv : Inv cfg s.q (f::F)) (hcount : Counted s.q w)
    (hflag : Flagged s.q.blockingCmdActive s.q.activeCmds (taking (f::F)))
    (h : Awaited s.q (f::F)) (ht : Turn cfg s env f s' gs)
    (hover : ∀ fl active p k c, f = .cancelled fl active p k c →
      Awaited (cancelFinish cfg s.q active c) F) : Awaited s'.q (gs ++ F) := by
  have htail : ∀ gs', ¬ f.mover → ∀ g ∈ f::F, g.mover → g ∈ gs' ++ F := fun gs' hn g hg hm =>
    List.mem_append_right _ ((List.mem_cons.mp hg).resolve_left fun hh => hn (hh ▸ hm))
  cases ht with
  | plain hf hgs hq hm => exact h.marks hq hm (htail _ hf.not_mover)
  | activate n uid =>
    refine h.mono (fun m hm => ⟨hm,?_⟩) (fun _ => id) id (htail _ Bool.false_ne_true)
    by_cases hmn : m = n
    · rw [hmn,setNode_nodes,Function.update_self]
      exact ⟨rfl,id⟩
    · rw [setNode_nodes,Function.update_of_ne hmn]
      exact ⟨rfl,id⟩
  | dequeue hr hn hc hm => exact h.dequeued hk hinv.wf hn (htail _ Bool.false_ne_true) (by simp)
  | idle hf => exact h.idle hinv hcount hflag hk hf
  | promote hf hp => exact h.promoted hk hinv.wf hcount hf hp
  | release c => exact h.marks (Marks.refl s.q) (fun _ => rfl) (htail _ Bool.false_ne_true)
  | take ht => exact h.taken hinv.wf ht (htail _ Bool.false_ne_true)
  | finish hq hm hb => exact (hover _ _ _ _ _ rfl).marks hq hm fun _ hf _ => hf
  | finishTake ht =>
    exact (hover _ _ _ _ _ rfl).taken (hinv.wf.of_cancelFinish _ _) ht
      fun _ hf _ => List.mem_append_right _ hf

/-- The counter stays when the pending commands do, and does not go down when one joins. -/
theorem Counted.held {w : List Command} (h : Counted q w) (h' : Counted q' w)
    (hp : q.pendingCmds.Sublist q'.pendingCmds ∨
      ∃ c, q'.pendingCmds.Perm (c::q.pendingCmds))
    (hf : q.blockingCmdActive = true → q'.blockingCmdActive = true) (hh : Held q) : Held q' := by
  refine hh.imp hf fun hw => ?_
  rw [h.exact,List.countP_append] at hw
  rw [h'.exact,List.countP_append]
  rcases hp with hp | ⟨c,hp⟩
  · have hle := hp.countP_le (p := Command.isBlocking)
    omega
  · rw [hp.countP_eq,List.countP_cons]
    omega

theorem Awaited.rejected {others : ℕ} {c : Command} {w : List Command} (h : Awaited q F)
    (hcount : Counted q w) (hcount' : Counted q' w) (hr : Rejected cfg others q c q') :
    Awaited q' F := by
  refine h.mono (fun n hn => ⟨hr.pending ▸ hn,by rw [hr.nodes],fun hh => by rwa [hr.nodes] at hh⟩)
    (fun v hv => hr.bitmap.symm ▸ hv) (hcount.held hcount' (Or.inl ?_) fun hh => ?_)
    fun _ hf _ => hf
  · rw [hr.cmds.2]
  · rwa [hr.blockingCmdActive]

/-- A request that has to wait waits for somebody. -/
theorem Awaited.enqueued {others : ℕ} {n : ℕ} {c : Command} {active : Bool} {w : List Command}
    (hk : cfg.kind = .nonScan) (h : Awaited q F) (hwf : Wf cfg q) (hcount : Counted q w)
    (hcount' : Counted q' w) (he : Enqueued cfg others q n c active q')
    (hcond : CountsPending cfg q c) : Awaited q' F := by
  have hcmds := he.cmds hwf
  have hne : ∀ m ∈ q.pending, m ≠ n := fun m hm hh =>
    hwf.not_mem_pool (Or.inr hm) (hh ▸ he.mem_pool)
  have hflag : q.blockingCmdActive = true → q'.blockingCmdActive = true := fun hh => by
    rw [he.blockingCmdActive hk,hh,Bool.true_or]
  have hpend := he.pending_eq
  have hbit := he.bitmap hk
  cases active with
  | true =>
    refine h.mono (fun m hm => ?_) (fun v hv => ?_)
      (hcount.held hcount' (Or.inl (by rw [hcmds.2])) hflag) fun _ hf _ => hf
    · rw [hpend,if_pos rfl] at hm
      rw [he.nodes_of_ne (hne m hm)]
      exact ⟨hm,rfl,id⟩
    · rw [hbit]
      exact Finset.mem_insert_of_mem hv
  | false =>
    have hheld := hcount.held hcount' (Or.inr ⟨c,hcmds.2⟩) hflag
    rw [if_neg (by decide)] at hpend hbit
    have hcases : ∀ m ∈ q'.pending, m = n ∨ m ∈ q.pending ∧ q'.nodes m = q.nodes m := by
      intro m hm
      rw [hpend,mem_place] at hm
      exact hm.imp_right fun hm => ⟨hm,he.nodes_of_ne (hne m hm)⟩
    have hnew : c.isBlocking = true → Held q' := fun hb => by
      refine Or.inr ?_
      rw [hcount'.exact,List.countP_append,hcmds.2.countP_eq,List.countP_cons,if_pos hb]
      omega
    refine ⟨fun m hm d hd hnot => ?_,fun hempty m hm hb => ?_,fun m hm hb hmark => ?_⟩
    · rw [hbit] at hnot
      rcases hcases m hm with rfl | ⟨hm',hnodes⟩
      · rw [he.cmd] at hd
        cases hd
        cases hb : c.isBlocking with
        | true => exact Or.inl (hnew hb)
        | false =>
          -- not allowed to be active, for want of what?
          have hallowed := he.allowed
          rw [← Bool.not_eq_true,isActiveCmdAllowed_nonScan hk,if_neg (by simp [hb])] at hallowed
          by_cases hnil : q.vdevPending c.vdev = []
          · refine Or.inl (hheld ?_)
            by_contra hno
            rw [Held,not_or,Bool.not_eq_true,not_not] at hno
            exact hallowed ⟨hnil,hno.1,by rw [hno.2,Nat.zero_mod],hnot⟩
          · obtain ⟨a,ha⟩ := List.exists_mem_of_ne_nil _ hnil
            rw [← vdevList_false,hwf.vdevs hk] at ha
            obtain ⟨e,hec,-⟩ := hwf.held a (Or.inr (List.mem_of_mem_filter ha))
            have hev := (List.mem_filter.mp ha).2
            rw [onVdev_of_cmd hec,decide_eq_true_eq] at hev
            have hh := h.vdev a (List.mem_of_mem_filter ha) e hec (by rwa [hev])
            rw [hev] at hh
            exact hh.imp_left hheld
      · rw [hnodes] at hd
        exact (h.vdev m hm' d hd hnot).imp_left hheld
    · rw [hbit] at hempty
      rcases hcases m hm with rfl | ⟨hm',hnodes⟩
      · rw [isBlocking_of_cmd he.cmd] at hb
        exact absurd hempty (hcond.bitmap_ne hk he hb)
      · exact h.blocking hempty m hm' ((isBlocking_congr (congrArg CommandList.cmd hnodes)).symm.trans hb)
    · rcases hcases m hm with rfl | ⟨hm',hnodes⟩
      · rw [he.nodes,Function.update_self] at hmark
        cases hmark
      · rw [hnodes] at hmark
        exact (h.marked m hm' ((isBlocking_congr (congrArg CommandList.cmd hnodes)).symm.trans hb)
          hmark).imp_left hheld

end Awaited

/-- The invariant under which nothing is dropped -/
structure Cared (q : Queue) (F : List Frame) : Prop where
  counted : Counted q (withdrawn F)
  flagged : Flagged q.blockingCmdActive q.activeCmds (taking F)
  awaited : Awaited q F

theorem Cared.perm {q : Queue} {F F' : List Frame} (hp : F.Perm F') (h : Cared q F) :
    Cared q F' where
  counted := h.counted.perm (hp.filterMap _)
  flagged := flagged_books.perm (List.Perm.refl _) (hp.filterMap _) h.flagged
  awaited := h.awaited.perm hp

theorem step_cared {cfg : Cfg} (hk : cfg.kind = .nonScan) {s : State} {op : Op}
    (hinv : Inv cfg s.store.q (frames s)) (hlegal : Legal cfg s op)
    (hcond : NothingDropped cfg s op) (h : Cared s.store.q (frames s)) :
    Cared (step cfg s op).store.q (frames (step cfg s op)) := by
  refine step_rule (I := fun d F => Cared d.q F) (fun d F F' hp hh => hh.perm hp) hinv hlegal h
    (fun gs hgs => ⟨?_,?_,?_⟩) ?_ ?_ ?_
  · rw [withdrawn,plain_filterMap (fun f => Frame.Plain.cancelledPending (f := f)) hgs]
    exact h.counted
  · rw [taking,plain_filterMap (fun f => Frame.Plain.cancelledActive (f := f)) hgs]
    exact h.flagged
  · exact h.awaited.marks (Marks.refl _) (fun _ => rfl) fun _ hf _ => List.mem_append_right _ hf
  · rintro c others q' rfl hr
    have hcount := h.counted.rejected hk hr hcond
    exact ⟨hcount,books_congr h.flagged hr.cmds.1 hr.blockingCmdActive,
      h.awaited.rejected h.counted hcount hr⟩
  · rintro c others n active q' rfl he
    have hcount := h.counted.enqueued hk hinv.wf he hcond
    refine ⟨?_,?_,?_⟩
    · rw [withdrawn_activate]
      exact hcount
    · rw [taking_activate]
      exact flagged_books.enqueued hk hinv.wf he h.flagged fun _ => h.flagged.join _
    · exact (h.awaited.enqueued hk hinv.wf h.counted hcount he hcond).marks (Marks.refl _)
        (fun _ => rfl) fun _ hf _ => List.mem_append_right _ hf
  · rintro i env f F s' gs rfl htop hp hinv' hh ht
    refine ⟨hh.counted.turn hk hinv' ht,flagged_books.turn hk hinv' hh.flagged ht
      fun n c q₁ gs _ _ hb => hb.join c,hh.awaited.turn hk hinv' hh.counted hh.flagged ht ?_⟩
    rintro fl active p k c rfl
    have hover : Awaited (cancelFinish cfg s.store.q active c) (frames s) := (hcond _ htop).2
    exact (hover.perm hp).marks (Marks.refl _) (fun _ => rfl) fun g hg hm =>
      (List.mem_cons.mp hg).resolve_left fun hh => by rw [hh] at hm; cases hm

/-- What the invariants say of a state without calls in progress. -/
theorem unstranded_of_inv {cfg : Cfg} (hk : cfg.kind = .nonScan) {s : State}
    (hinv : Inv cfg s.store.q (frames s)) (h : Cared s.store.q (frames s)) : Unstranded s := by
  have hbooked : Booked (s.store.q.activeCmds ++ taking (frames s)) s.store.q.bitmap :=
    hinv.booked hk
  have hcounted := h.counted.exact
  have hflagged := h.flagged
  have hawaited := h.awaited
  -- without calls a pending command of an idle vdev is held back by a blocking command
  have hheld : frames s = [] → ∀ n ∈ s.store.q.pending, ∀ c, (s.store.q.nodes n).cmd = some c →
      c.vdev ∉ s.store.q.bitmap → ∃ m, (m ∈ s.store.q.active ∨ m ∈ s.store.q.pending) ∧
        isBlocking s.store.q m = true := by
    intro hnil n hn c hc hv
    rw [hnil] at hflagged hawaited hcounted
    rcases hawaited.vdev n hn c hc hv with (hf | hw) | ⟨f,hf,-⟩
    · obtain ⟨d,hd,hb⟩ := hflagged hf
      rw [taking,List.filterMap_nil,List.append_nil] at hd
      obtain ⟨m,hm,hdm⟩ := mem_commands.mp hd
      exact ⟨m,Or.inl hm,(isBlocking_of_cmd hdm).trans hb⟩
    · rw [withdrawn,List.filterMap_nil,List.append_nil] at hcounted
      obtain ⟨d,hd,hb⟩ := List.countP_pos_iff.mp (Nat.pos_of_ne_zero (hcounted ▸ hw))
      obtain ⟨m,hm,hdm⟩ := mem_commands.mp hd
      exact ⟨m,Or.inr hm,(isBlocking_of_cmd hdm).trans hb⟩
    · cases hf
  constructor
  · intro hnil hactive
    have hempty : s.store.q.bitmap = ∅ := Finset.eq_empty_of_forall_notMem fun v hv => by
      rw [hbooked.mem,hnil,Queue.activeCmds,hactive] at hv
      cases hv
    refine List.eq_nil_iff_forall_not_mem.mpr fun n hn => ?_
    obtain ⟨c,hc,-⟩ := hinv.wf.held n (Or.inr hn)
    obtain ⟨m,hm,hb⟩ := hheld hnil n hn c hc (hempty ▸ Finset.notMem_empty _)
    rw [hactive] at hm
    obtain ⟨f,hf,-⟩ := hawaited.blocking hempty m (hm.resolve_left (List.not_mem_nil)) hb
    rw [hnil] at hf
    cases hf
  · intro hnil v hidle hnone
    have hv : v ∉ s.store.q.bitmap := fun hv => by
      rw [hbooked.mem,hnil,taking,List.filterMap_nil,List.append_nil] at hv
      obtain ⟨c,hc,hcv⟩ := List.mem_map.mp hv
      obtain ⟨n,hn,hcn⟩ := mem_commands.mp hc
      have hh := hidle n hn
      rw [onVdev_of_cmd hcn,decide_eq_false_iff_not] at hh
      exact hh hcv
    rw [← vdevList_false,hinv.wf.vdevs hk,List.filter_eq_nil_iff]
    intro n hn hon
    obtain ⟨c,hc,-⟩ := hinv.wf.held n (Or.inr hn)
    rw [onVdev_of_cmd hc,decide_eq_true_eq] at hon
    obtain ⟨m,hm,hb⟩ := hheld hnil n hn c hc (by rwa [hon])
    rw [hnone m hm] at hb
    cases hb

instance decidableHeld (q : Queue) : Decidable (Held q) :=
  inferInstanceAs (Decidable (q.blockingCmdActive = true ∨ q.blockingCmdWaiting ≠ 0))

instance decidableAwaited (q : Queue) (F : List Frame) : Decidable (Awaited q F) :=
  decidable_of_iff ((∀ n ∈ q.pending, ∀ c ∈ (q.nodes n).cmd, c.vdev ∉ q.bitmap →
      Held q ∨ ∃ f ∈ F, f.covers c.vdev) ∧
      (q.bitmap = ∅ → ∀ n ∈ q.pending, isBlocking q n = true → ∃ f ∈ F, f.mover) ∧
      ∀ n ∈ q.pending, isBlocking q n = false → (q.nodes n).markedForMovement = true →
        Held q ∨ ∃ f ∈ F, f.sweeps)
    ⟨fun hh => ⟨hh.1,hh.2.1,hh.2.2⟩,fun hh => ⟨hh.vdev,hh.blocking,hh.marked⟩⟩

instance decidableHandsOver (cfg : Cfg) (s : State) : ∀ f, Decidable (HandsOver cfg s f)
  | .cancelled _ active _ _ c => decidableAwaited (cancelFinish cfg s.store.q active c) (frames s)
  | .activate _ _ => isTrue trivial
  | .activated _ _ _ => isTrue trivial
  | .timeout _ => isTrue trivial
  | .dequeue _ => isTrue trivial
  | .move _ _ => isTrue trivial
  | .moveLoop _ => isTrue trivial
  | .release _ => isTrue trivial
  | .cancel _ _ => isTrue trivial

instance decidableNothingDropped (cfg : Cfg) (s : State) :
    ∀ op, Decidable (NothingDropped cfg s op)
  | .request c _ => decidableCountsPending cfg s.store.q (numbered s.store c)
  | .advance i _ => inferInstanceAs (Decidable (∀ f ∈ top s i,
      Followed cfg s.store.q f ∧ HandsOver cfg s f))
  | .removeCmd _ => isTrue trivial
  | .timeout _ => isTrue trivial
  | .cancelRequest _ _ _ => isTrue trivial

/-- A command is removed and the next one promoted, which is then cancelled with nothing left
to promote. -/
def promotedThenCancelled : List Op :=
  [.request ⟨2,1,1,false,false,false,0⟩ 0,.advance 0 ⟨true,true,0⟩,.advance 0 ⟨true,true,0⟩,
    .request ⟨2,2,1,false,false,false,0⟩ 0,.removeCmd ⟨2,1,1⟩,.advance 2 ⟨true,true,0⟩,
    .advance 2 ⟨true,true,0⟩,.advance 2 ⟨true,true,0⟩,.advance 2 ⟨true,true,0⟩,
    .advance 2 ⟨true,true,0⟩,.advance 2 ⟨true,true,0⟩,.cancelRequest (.cmd ⟨2,2,1⟩) true false,
    .advance 3 ⟨true,true,0⟩,.advance 3 ⟨true,true,0⟩]

/-- The active command of vdev 1 is cancelled while another one is pending. -/
def cancelledAhead : List Op :=
  [.request ⟨2,1,1,false,false,false,0⟩ 0,.advance 0 ⟨true,true,0⟩,.advance 0 ⟨true,true,0⟩,
    .request ⟨2,2,1,false,false,false,0⟩ 0,.cancelRequest (.cmd ⟨2,1,1⟩) true false,
    .advance 2 ⟨true,true,0⟩,.advance 2 ⟨true,true,0⟩]

end Serialization
end MarbleModules
