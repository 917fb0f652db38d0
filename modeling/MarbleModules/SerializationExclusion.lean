import MarbleModules.SerializationInvariant

/-! Blocking commands run alone: what the flag and the bitmap say about the active commands, and
when promotions keep it so. -/
namespace MarbleModules
namespace Serialization

open Runs Stacks

/-- A blocking command is promoted when nothing is active or being cancelled, another one when
no active command is blocking. -/
def Compatible (q : Queue) (n : ℕ) : Prop :=
  if isBlocking q n = true then q.active = [] ∧ q.blockingCmdActive = false
  else ∀ m ∈ q.active, isBlocking q m = false

/-- Where the frame looks for a command to promote -/
def Frame.lookup (q : Queue) : Frame → Option Lookup
  | .move v b => some (lookupFor q v b)
  | .moveLoop .pdev => if q.blockingCmdActive then none else some .pdev
  | _ => none

theorem Looks.lookup {q : Queue} {f : Frame} {l : Lookup} (h : Looks q f l) :
    f.lookup q = some l := by
  cases h with
  | move v b => rfl
  | again h => rw [Frame.lookup,h]; rfl

/-- Every promotion is compatible with the active commands. -/
def PromotesCompatible (cfg : Cfg) (s : State) : Op → Prop
  | .advance i _ => ∀ f ∈ top s i, Followed cfg s.store.q f ∧
      ∀ l ∈ f.lookup s.store.q, ∀ n ∈ (select s.store.q l).2, Compatible s.store.q n
  | _ => True

/-- The active command that the next pass of a cancel loop takes out -/
def passResult (cfg : Cfg) (q : Queue) (timerFound : Bool) : Frame → Option Command
  | .cancel f true =>
    (cancelCmd cfg q f true timerFound none q.active.length).2.map fun r => r.2.1
  | .cancelled f true p k c =>
    (cancelCmd cfg (cancelFinish cfg q true c) f true timerFound p k).2.map fun r => r.2.1
  | _ => none

/-- No cancel takes out an active blocking command. -/
def CancelsNonBlocking (cfg : Cfg) (s : State) : Op → Prop
  | .advance i env => ∀ f ∈ top s i, ∀ c ∈ passResult cfg s.store.q env.timerFound f,
      c.isBlocking = false
  | _ => True

/-- What exclusion says of a state. -/
structure Exclusive (s : State) : Prop where
  one : ∀ v, (s.store.q.active.filter (onVdev s.store.q v)).length ≤ 1
  alone : ∀ n ∈ s.store.q.active, isBlocking s.store.q n = true → s.store.q.active = [n]
  flag : taking (frames s) = [] →
    (s.store.q.blockingCmdActive = true ↔ ∃ n ∈ s.store.q.active, isBlocking s.store.q n = true)
  bits : taking (frames s) = [] →
    ∀ v, v ∈ s.store.q.bitmap ↔ ∃ n ∈ s.store.q.active, onVdev s.store.q v n = true

/-- The flag says whether an active command is blocking. -/
def FlagExact (s : State) : Prop :=
  s.store.q.blockingCmdActive = true ↔ ∃ n ∈ s.store.q.active, isBlocking s.store.q n = true

/-- The flag counts the blocking commands, of which there is at most one. -/
def Counts (flag : Bool) (l : List Command) : Prop := l.countP Command.isBlocking = flag.toNat

theorem Counts.perm {flag : Bool} {l l' : List Command} (h : Counts flag l) (hp : l.Perm l') :
    Counts flag l' := (hp.countP_eq _).symm.trans h

theorem Counts.erase {flag : Bool} {c : Command} {l : List Command} (h : Counts flag (c::l)) :
    Counts (flag && !c.isBlocking) l := by
  rw [Counts,List.countP_cons] at h
  rw [Counts]
  cases flag <;> cases hb : c.isBlocking <;> simp [hb] at h ⊢ <;> omega

theorem Counts.insert {flag : Bool} {c : Command} {l : List Command} (h : Counts flag l)
    (hc : c.isBlocking = true → flag = false) : Counts (flag || c.isBlocking) (c::l) := by
  rw [Counts] at h
  rw [Counts,List.countP_cons,h]
  cases hb : c.isBlocking with
  | false => simp
  | true => simp [hc hb]

/-- The invariant of exclusion for the active commands `l` and those being cancelled `w` -/
structure Excl (flag : Bool) (l w : List Command) : Prop where
  alone : ∀ c ∈ l, c.isBlocking = true → l.length ≤ 1
  flag : Counts flag (l ++ w)

theorem excl_books : Books Excl where
  perm := fun hl hw h => ⟨fun c hc hb => hl.length_eq ▸ h.alone c (hl.mem_iff.mpr hc) hb,
    h.flag.perm (hl.append hw)⟩
  take := fun h => by
    refine ⟨fun d hd hb => ?_,h.flag.perm List.perm_middle.symm⟩
    have hh := h.alone d (List.mem_cons_of_mem _ hd) hb
    rw [List.length_cons] at hh
    omega
  finish := fun h => ⟨h.alone,(h.flag.perm List.perm_middle).erase⟩

/-- A command joins active commands that it is compatible with. -/
theorem Excl.join {flag : Bool} {l w : List Command} {c : Command} (h : Excl flag l w)
    (hb : c.isBlocking = true → l = [] ∧ flag = false)
    (hn : c.isBlocking = false → ∀ d ∈ l, d.isBlocking = false) :
    Excl (flag || c.isBlocking) (c::l) w := by
  refine ⟨fun d hd hdb => ?_,h.flag.insert fun hh => (hb hh).2⟩
  cases hcb : c.isBlocking with
  | true =>
    rw [(hb hcb).1]
    exact le_refl 1
  | false =>
    rcases List.mem_cons.mp hd with rfl | hd
    · rw [hcb] at hdb
      cases hdb
    · rw [hn hcb d hd] at hdb
      cases hdb

/-- No active command is blocking when the flag is not set. -/
theorem Excl.none_blocking {l w : List Command} (h : Excl false l w) :
    ∀ d ∈ l, d.isBlocking = false := by
  intro d hd
  have hflag := h.flag
  rw [Counts,Bool.toNat_false,List.countP_eq_zero] at hflag
  have hh := hflag d (List.mem_append_left _ hd)
  simpa using hh

theorem Compatible.cmds {q : Queue} {n : ℕ} {c : Command} (h : Compatible q n)
    (hc : (q.nodes n).cmd = some c) :
    (c.isBlocking = true → q.activeCmds = [] ∧ q.blockingCmdActive = false) ∧
      (c.isBlocking = false → ∀ d ∈ q.activeCmds, d.isBlocking = false) := by
  rw [Compatible,isBlocking_of_cmd hc] at h
  constructor
  · intro hb
    rw [if_pos hb] at h
    exact ⟨by rw [Queue.activeCmds,h.1]; rfl,h.2⟩
  · intro hb d hd
    rw [if_neg (by simp [hb])] at h
    obtain ⟨m,hm,hcm⟩ := mem_commands.mp hd
    exact isBlocking_of_cmd hcm ▸ h m hm

/-- A request that becomes active is compatible by the test. -/
theorem Excl.enqueued {cfg : Cfg} (hk : cfg.kind = .nonScan) {others : ℕ} {q q' : Queue} {n : ℕ}
    {c : Command} {active : Bool} {F : List Frame} (hinv : Inv cfg q F)
    (h : Excl q.blockingCmdActive q.activeCmds (taking F))
    (he : Enqueued cfg others q n c active q') :
    Excl q'.blockingCmdActive q'.activeCmds (taking F) := by
  refine excl_books.enqueued hk hinv.wf he h fun hactive => ?_
  have hallowed := he.allowed
  rw [hactive,isActiveCmdAllowed_nonScan hk] at hallowed
  refine h.join (fun hb => ?_) fun hb => ?_
  · have hempty := hallowed.2
    rw [if_pos hb] at hempty
    have hbooked := hinv.booked hk
    have hnil : q.activeCmds ++ taking F = [] := by
      refine List.eq_nil_iff_forall_not_mem.mpr fun d hd => ?_
      have hv := (hbooked.mem d.vdev).mpr (List.mem_map_of_mem hd)
      rw [hempty] at hv
      exact Finset.notMem_empty _ hv
    refine ⟨(List.append_eq_nil_iff.mp hnil).1,?_⟩
    have hcount := h.flag
    rw [hnil,Counts,List.countP_nil] at hcount
    cases hf : q.blockingCmdActive with
    | false => rfl
    | true => simp [hf] at hcount
  · have hflag := hallowed.2
    rw [if_neg (by simp [hb])] at hflag
    rw [hflag.1] at h
    exact h.none_blocking

/-- What exclusion asks of the queue and the frames -/
abbrev ExclAt (q : Queue) (F : List Frame) : Prop :=
  Excl q.blockingCmdActive q.activeCmds (taking F)

theorem step_excl {cfg : Cfg} (hk : cfg.kind = .nonScan) {s : State} {op : Op}
    (hinv : Inv cfg s.store.q (frames s)) (hlegal : Legal cfg s op)
    (hcond : PromotesCompatible cfg s op) (h : ExclAt s.store.q (frames s)) :
    ExclAt (step cfg s op).store.q (frames (step cfg s op)) := by
  refine step_rule (I := fun d F => ExclAt d.q F)
    (fun d F F' hp hh => excl_books.perm (List.Perm.refl _) (hp.filterMap _) hh) hinv hlegal h
    (fun gs hgs => ?_) ?_ ?_ ?_
  · rwa [ExclAt,taking,plain_filterMap (fun f => Frame.Plain.cancelledActive (f := f)) hgs]
  · exact fun c others q' _ hr => books_congr h hr.cmds.1 hr.blockingCmdActive
  · intro c others n active q' _ he
    rw [ExclAt,taking_activate]
    exact Excl.enqueued hk hinv h he
  · rintro i env f F s' gs rfl htop - hinv' hh ht
    refine excl_books.turn hk hinv' hh ht fun n c q₁ gs hf hc hbase => ?_
    have hcompat : Compatible s.store.q n := by
      cases hf with
      | scan hk' => rw [hk] at hk'; cases hk'
      | looked hk' hl hs => exact (hcond f htop).2 _ hl.lookup n hs
    exact hbase.join (hcompat.cmds hc).1 (hcompat.cmds hc).2

theorem countP_onVdev (q : Queue) (l : List ℕ) (v : ℕ) :
    (l.filter (onVdev q v)).length = ((q.commands l).map Command.vdev).count v := by
  rw [← List.countP_eq_length_filter,List.count,List.countP_map,Queue.commands,
    List.countP_filterMap]
  refine List.countP_congr fun n _ => ?_
  cases hc : (q.nodes n).cmd <;> simp [onVdev,hc]

/-- The flag is exact as long as the commands being cancelled are not blocking. -/
theorem flag_exact {cfg : Cfg} {s : State} (hinv : Inv cfg s.store.q (frames s))
    (h : ExclAt s.store.q (frames s))
    (hw : ∀ c ∈ taking (frames s), c.isBlocking = false) : FlagExact s := by
  have hflag := h.flag
  have hzero : (taking (frames s)).countP Command.isBlocking = 0 :=
    List.countP_eq_zero.mpr fun c hc => by simp [hw c hc]
  rw [Counts,List.countP_append,hzero,Nat.add_zero] at hflag
  have hex : (∃ n ∈ s.store.q.active, isBlocking s.store.q n = true) ↔
      0 < s.store.q.activeCmds.countP Command.isBlocking := by
    rw [List.countP_pos_iff]
    constructor
    · rintro ⟨n,hn,hb⟩
      obtain ⟨c,hc,-⟩ := hinv.wf.held n (Or.inl hn)
      exact ⟨c,mem_commands.mpr ⟨n,hn,hc⟩,isBlocking_of_cmd hc ▸ hb⟩
    · rintro ⟨c,hc,hb⟩
      obtain ⟨n,hn,hcn⟩ := mem_commands.mp hc
      exact ⟨n,hn,(isBlocking_of_cmd hcn).trans hb⟩
  rw [FlagExact,hex,hflag]
  cases s.store.q.blockingCmdActive <;> simp

/-- What the invariants say of a state. -/
theorem exclusive_of_inv {cfg : Cfg} (hk : cfg.kind = .nonScan) {s : State}
    (hinv : Inv cfg s.store.q (frames s)) (h : ExclAt s.store.q (frames s)) :
    Exclusive s := by
  have hbooked : Booked (s.store.q.activeCmds ++ taking (frames s)) s.store.q.bitmap :=
    hinv.booked hk
  have hex : ∀ p : Command → Prop, (∃ c ∈ s.store.q.activeCmds, p c) ↔
      ∃ n ∈ s.store.q.active, ∃ c, (s.store.q.nodes n).cmd = some c ∧ p c := by
    intro p
    constructor
    · rintro ⟨c,hc,hp⟩
      obtain ⟨n,hn,hcn⟩ := mem_commands.mp hc
      exact ⟨n,hn,c,hcn,hp⟩
    · rintro ⟨n,hn,c,hcn,hp⟩
      exact ⟨c,mem_commands.mpr ⟨n,hn,hcn⟩,hp⟩
  constructor
  · intro v
    rw [countP_onVdev]
    have hnodup := hbooked.nodup
    rw [List.map_append] at hnodup
    exact List.nodup_iff_count_le_one.mp (List.nodup_append.mp hnodup).1 v
  · intro n hn hb
    obtain ⟨c,hc,-⟩ := hinv.wf.held n (Or.inl hn)
    rw [isBlocking_of_cmd hc] at hb
    have hlen := h.alone c (mem_commands.mpr ⟨n,hn,hc⟩) hb
    rw [hinv.wf.activeCmds_length] at hlen
    obtain ⟨m,hm⟩ := List.length_eq_one_iff.mp (Nat.le_antisymm hlen (List.length_pos_of_mem hn))
    rw [hm,List.mem_singleton] at hn
    rw [hm,hn]
  · exact fun hw => flag_exact hinv h fun d hd => by rw [hw] at hd; cases hd
  · intro hw v
    rw [hw,List.append_nil] at hbooked
    rw [hbooked.mem,List.mem_map,hex]
    refine exists_congr fun n => and_congr_right fun _ => ?_
    rw [onVdev,decide_eq_true_eq,Option.map_eq_some_iff]

/-- The commands that cancels have taken out are those that their passes gave. -/
theorem taking_turn {cfg : Cfg} {s s' : Store} {env : Env} {f : Frame} {F gs : List Frame}
    (ht : Turn cfg s env f s' gs) : ∀ c ∈ taking (gs ++ F), c ∈ taking F ∨
      passResult cfg s.q env.timerFound f = some c := by
  have hcancelled : ∀ (f : Filter) (active : Bool) (p : Option ℕ) (k : ℕ) (c : Command),
      taking (.cancelled f active p k c::F) = if active then c::taking F else taking F :=
    fun f active p k c => by cases active <;> rfl
  intro c hc
  cases ht with
  | plain hf hgs hq hm =>
    rw [taking,plain_filterMap (fun f => Frame.Plain.cancelledActive (f := f)) hgs] at hc
    exact Or.inl hc
  | promote hf hp =>
    obtain ⟨-,rfl | ⟨-,l,rfl⟩⟩ := hf.frames <;> exact Or.inl hc
  | @take f active q₁ n d p k ht =>
    rw [List.singleton_append,hcancelled] at hc
    cases active with
    | false => exact Or.inl hc
    | true =>
      rcases List.mem_cons.mp hc with rfl | hc
      · have hres := ht.result
        rw [pdevList_true] at hres
        exact Or.inr (by rw [passResult,hres]; rfl)
      · exact Or.inl hc
  | @finishTake f active p p' k k' d c' q₁ n ht =>
    rw [List.singleton_append,hcancelled] at hc
    cases active with
    | false => exact Or.inl hc
    | true =>
      rcases List.mem_cons.mp hc with rfl | hc
      · exact Or.inr (by rw [passResult,ht.result]; rfl)
      · exact Or.inl hc
  | _ => exact Or.inl hc

/-- As long as cancels take out no active blocking command, none is being cancelled. -/
theorem step_taking {cfg : Cfg} {s : State} {op : Op}
    (hinv : Inv cfg s.store.q (frames s)) (hlegal : Legal cfg s op)
    (hcond : CancelsNonBlocking cfg s op) (h : ∀ c ∈ taking (frames s), c.isBlocking = false) :
    ∀ c ∈ taking (frames (step cfg s op)), c.isBlocking = false := by
  refine step_rule (I := fun _ F => ∀ c ∈ taking F, c.isBlocking = false)
    (fun d F F' hp hh c hc => hh c ((hp.filterMap _).mem_iff.mpr hc)) hinv hlegal h
    (fun gs hgs => ?_) (fun c others q' _ hr => h) ?_ ?_
  · rwa [taking,plain_filterMap (fun f => Frame.Plain.cancelledActive (f := f)) hgs]
  · intro c others n active q' _ he
    rwa [taking_activate]
  · rintro i env f F s' gs rfl htop - hinv' hh ht c hc
    rcases taking_turn ht c hc with hc | hc
    · refine hh c ?_
      rw [taking,List.filterMap_cons]
      split
      · exact hc
      · exact List.mem_cons_of_mem _ hc
    · exact hcond f htop c hc

/-- In runs whose promotions are compatible blocking commands run alone, and the flag and the
bitmap are exact outside cancels; the flag always is when no cancel takes out an active blocking
command. -/
theorem exclusive_always {cfg : Cfg} (hk : cfg.kind = .nonScan) (ops : List Op)
    (hlegal : Guarded (step cfg) (Legal cfg) (initial cfg) ops)
    (hcomp : Guarded (step cfg) (PromotesCompatible cfg) (initial cfg) ops) :
    Always (step cfg) Exclusive (initial cfg) ops ∧
      (Guarded (step cfg) (CancelsNonBlocking cfg) (initial cfg) ops →
        Always (step cfg) FlagExact (initial cfg) ops) := by
  have hstart : Inv cfg (initial cfg).store.q (frames (initial cfg)) ∧
      ExclAt (initial cfg).store.q (frames (initial cfg)) :=
    ⟨initial_inv (Cfg.bounded_nonScan hk),⟨by simp [initial,initialQueue,Queue.activeCmds,Queue.commands],rfl⟩⟩
  have hstep : ∀ s op, Inv cfg s.store.q (frames s) ∧ ExclAt s.store.q (frames s) →
      Legal cfg s op ∧ PromotesCompatible cfg s op →
      Inv cfg (step cfg s op).store.q (frames (step cfg s op)) ∧
        ExclAt (step cfg s op).store.q (frames (step cfg s op)) :=
    fun s op hh hc => ⟨step_inv hh.1 hc.1,step_excl hk hh.1 hc.1 hc.2 hh.2⟩
  refine ⟨guarded_always (fun s hh => exclusive_of_inv hk hh.1 hh.2) hstep hstart ops
    (hlegal.and hcomp),fun htake => ?_⟩
  have hnone : ∀ c ∈ taking (frames (initial cfg)), c.isBlocking = false := fun c hc => by cases hc
  exact guarded_always (I := fun s => (Inv cfg s.store.q (frames s) ∧
      ExclAt s.store.q (frames s)) ∧ ∀ c ∈ taking (frames s), c.isBlocking = false)
    (fun s hh => flag_exact hh.1.1 hh.1.2 hh.2)
    (fun s op hh hc => ⟨hstep s op hh.1 hc.1,step_taking hh.1.1 hc.1.1 hc.2 hh.2⟩)
    ⟨hstart,hnone⟩ ops ((hlegal.and hcomp).and htake)

instance decidableCompatible (q : Queue) (n : ℕ) : Decidable (Compatible q n) :=
  inferInstanceAs (Decidable (if isBlocking q n = true then
    q.active = [] ∧ q.blockingCmdActive = false else ∀ m ∈ q.active, isBlocking q m = false))

instance decidablePromotesCompatible (cfg : Cfg) (s : State) :
    ∀ op, Decidable (PromotesCompatible cfg s op)
  | .advance i _ => inferInstanceAs (Decidable (∀ f ∈ top s i, Followed cfg s.store.q f ∧
      ∀ l ∈ f.lookup s.store.q, ∀ n ∈ (select s.store.q l).2, Compatible s.store.q n))
  | .request _ _ => isTrue trivial
  | .removeCmd _ => isTrue trivial
  | .timeout _ => isTrue trivial
  | .cancelRequest _ _ _ => isTrue trivial

instance decidableCancelsNonBlocking (cfg : Cfg) (s : State) :
    ∀ op, Decidable (CancelsNonBlocking cfg s op)
  | .advance i env => inferInstanceAs (Decidable (∀ f ∈ top s i,
      ∀ c ∈ passResult cfg s.store.q env.timerFound f, c.isBlocking = false))
  | .request _ _ => isTrue trivial
  | .removeCmd _ => isTrue trivial
  | .timeout _ => isTrue trivial
  | .cancelRequest _ _ _ => isTrue trivial

/-- A request, an activation, a second request that waits, and the removal of the first: the
second command is promoted and activated. -/
def handedOver : List Op :=
  [.request ⟨2,1,1,false,false,false,0⟩ 0,.advance 0 ⟨true,true,0⟩,.advance 0 ⟨true,true,0⟩,
    .request ⟨2,2,1,false,false,false,0⟩ 0,.removeCmd ⟨2,1,1⟩,.advance 2 ⟨true,true,0⟩,
    .advance 2 ⟨true,true,0⟩,.advance 2 ⟨true,true,0⟩]

theorem exclusive_handedOver : Always (step nonScanCfg) Exclusive (initial nonScanCfg) handedOver ∧
    Always (step nonScanCfg) FlagExact (initial nonScanCfg) handedOver :=
  have hk : nonScanCfg.kind = .nonScan := rfl
  have hh := exclusive_always hk handedOver (by decide +kernel) (by decide +kernel)
  ⟨hh.1,hh.2 (by decide +kernel)⟩

/-- Between the removal of the command of vdev 1 and the promotion of the next one a blocking
command of vdev 2 becomes active. -/
def overtaken : List Op :=
  [.request ⟨2,1,1,false,false,false,0⟩ 0,.advance 0 ⟨true,true,0⟩,.advance 0 ⟨true,true,0⟩,
    .request ⟨2,2,1,false,false,false,0⟩ 0,.removeCmd ⟨2,1,1⟩,.advance 2 ⟨true,true,0⟩,
    .request ⟨2,3,2,false,true,false,0⟩ 0,.advance 2 ⟨true,true,0⟩]

theorem exclusive_overtaken :
    Guarded (step nonScanCfg) (Legal nonScanCfg) (initial nonScanCfg) overtaken ∧
      ¬ Always (step nonScanCfg) Exclusive (initial nonScanCfg) overtaken := by
  refine ⟨by decide +kernel,fun hh => ?_⟩
  have halone := hh.last.alone 2 (by decide +kernel) (by decide +kernel)
  revert halone
  decide +kernel

end Serialization
end MarbleModules
