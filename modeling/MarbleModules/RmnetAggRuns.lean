import MarbleModules.RmnetAgg

/-! What becomes of the frames: through all interleavings of the senders, the timer and the work,
each frame is in one place, and the frames of one sender stay in order but for those that are
sent past the buffer. -/
namespace MarbleModules
namespace RmnetAgg

open Runs AggregationState

variable {w w' : AggregationState} {f g : Frame} {op : Op} {s : ℕ}

namespace AggregationState

/-- The frames in the order in which they have gone out or are going to -/
def listed (w : AggregationState) : List Frame := w.sent.flatten++w.buffer

def held (w : AggregationState) (s : ℕ) : Option Frame := (w.place s).held

end AggregationState

section Projections

variable (w : AggregationState) (s : ℕ) (p : Place) (frames : List Frame) (f : Frame)

@[simp] theorem move_listed : (w.move s p).listed = w.listed := rfl
@[simp] theorem move_submitted : (w.move s p).submitted = w.submitted := rfl
@[simp] theorem move_held : (w.move s p).held = Function.update w.held s p.held := by
  funext t
  rcases eq_or_ne t s with rfl | ht
  · simp [held,move]
  · simp [held,move,ht]

@[simp] theorem schedule_sent : w.schedule.sent = w.sent := by fun_cases schedule <;> rfl
@[simp] theorem schedule_aggSkb : w.schedule.aggSkb = w.aggSkb := by fun_cases schedule <;> rfl
@[simp] theorem schedule_submitted : w.schedule.submitted = w.submitted := by
  fun_cases schedule <;> rfl
@[simp] theorem schedule_place : w.schedule.place = w.place := by fun_cases schedule <;> rfl

@[simp] theorem sendAggSkb_aggSkb : w.sendAggSkb.aggSkb = none := by
  fun_cases sendAggSkb with
  | case1 h => exact h
  | case2 skb h => rfl
@[simp] theorem sendAggSkb_submitted : w.sendAggSkb.submitted = w.submitted := by
  fun_cases sendAggSkb <;> rfl
@[simp] theorem sendAggSkb_place : w.sendAggSkb.place = w.place := by fun_cases sendAggSkb <;> rfl

theorem sendAggSkb_sent : w.sendAggSkb.sent.flatten = w.listed := by
  fun_cases sendAggSkb with
  | case1 h => simp [listed,buffer,h]
  | case2 skb h => simp [listed,buffer,send,h]

theorem sendAggSkb_listed : w.sendAggSkb.listed = w.listed := by
  rw [← sendAggSkb_sent w]
  simp [listed,buffer]

end Projections

/-- The frame that comes in with an operation -/
def incoming : Op → Option Frame
  | .egress f => some f
  | .qmapCmd f _ => some f
  | _ => none

/-- What a step can do to the frames: it leaves them where they are, it takes in one of a sender
that has none, or a sender passes its frame on. Then the frame comes last, unless it is sent past
the buffer. -/
inductive Moves (w : AggregationState) (op : Op) (w' : AggregationState) : Prop
  | keeps (hlisted : w'.listed = w.listed) (hsubmitted : w'.submitted = w.submitted)
      (hheld : w'.held = w.held)
  | comes (f : Frame) (hidle : w.held f.sender = none) (hnr : f.nr = w.submitted.length)
      (hop : ∃ g, incoming op = some g ∧ f.bytes = g.bytes)
      (hlisted : w'.listed = w.listed) (hsubmitted : w'.submitted = w.submitted++[f])
      (hheld : w'.held = Function.update w.held f.sender (some f))
  | appends (f : Frame) (hold : w.held f.sender = some f) (hlisted : w'.listed = w.listed++[f])
      (hsubmitted : w'.submitted = w.submitted)
      (hheld : w'.held = Function.update w.held f.sender none)
  | passes (f : Frame) (hold : w.place f.sender = .sends f)
      (hop : ∃ now built, op = .turn f.sender now built)
      (hlisted : w'.listed = w.sent.flatten++f::w.buffer)
      (hsubmitted : w'.submitted = w.submitted)
      (hheld : w'.held = Function.update w.held f.sender none)

/-- A sender holds its own frames. -/
def Own (w : AggregationState) : Prop := ∀ s f, w.held s = some f → f.sender = s

theorem held_sends (h : w.place s = .sends f) : w.held s = some f := by simp [held,h,Place.held]

theorem moves_of_held {p : Place} (hw : w.held s = some f) (hp : p.held = some f)
    (hlisted : w'.listed = w.listed) (hsubmitted : w'.submitted = w.submitted)
    (hplace : w'.held = Function.update w.held s p.held) : Moves w op w' := by
  refine .keeps hlisted hsubmitted ?_
  rw [hplace,hp,← hw,Function.update_eq_self]

section Steps

theorem held_congr (h : w'.place = w.place) : w'.held = w.held := by
  funext t
  simp [held,h]

theorem flushFirst_moves (hf : w.held f.sender = some f) : Moves w op (w.flushFirst f) := by
  refine moves_of_held (p := if w.aggSkb.isSome then .cancels f false else .sends f) hf ?_ ?_ ?_ ?_
  · split <;> rfl
  · rw [flushFirst,move_listed,sendAggSkb_listed]
  · simp [flushFirst]
  · rw [flushFirst,move_held,held_congr (sendAggSkb_place w)]

theorem Moves.of_stamp {now : ℤ} (h : Moves (w.stamp now) op w') : Moves w op w' := by
  cases h with
  | keeps hlisted hsubmitted hheld => exact .keeps hlisted hsubmitted hheld
  | comes f hidle hnr hop hlisted hsubmitted hheld =>
    exact .comes f hidle hnr hop hlisted hsubmitted hheld
  | appends f hold hlisted hsubmitted hheld => exact .appends f hold hlisted hsubmitted hheld
  | passes f hold hop hlisted hsubmitted hheld =>
    exact .passes f hold hop hlisted hsubmitted hheld

theorem aggregateFirst_listed (hskb : w.aggSkb = none) (diff now : ℤ) (built : Bool) :
    (w.aggregateFirst f diff now built).listed = w.listed++[f] := by
  fun_cases aggregateFirst with
  | case1 h => simp [listed,buffer,send,hskb]
  | case2 h hbuilt => simp [listed,buffer,copyInto,hskb]
  | case3 h hbuilt => simp [listed,buffer,send,hskb]

theorem aggregateFirst_submitted (diff now : ℤ) (built : Bool) :
    (w.aggregateFirst f diff now built).submitted = w.submitted := by
  fun_cases aggregateFirst with
  | case1 h => rfl
  | case2 h hbuilt => exact schedule_submitted _
  | case3 h hbuilt => rfl

theorem aggregateFirst_place (diff now : ℤ) (built : Bool) :
    (w.aggregateFirst f diff now built).place = w.place := by
  fun_cases aggregateFirst with
  | case1 h => rfl
  | case2 h hbuilt => exact schedule_place _
  | case3 h hbuilt => rfl

theorem aggregateNext_moves {skb : AggSkb} (hf : w.held f.sender = some f)
    (hskb : w.aggSkb = some skb) (now : ℤ) : Moves w op (w.aggregateNext skb f now) := by
  fun_cases aggregateNext with
  | case1 h =>
    refine moves_of_held (p := .cancels f true) hf rfl ?_ ?_ ?_
    · rw [move_listed,sendAggSkb_listed]
    · rw [move_submitted,sendAggSkb_submitted]
    · rw [move_held,held_congr (sendAggSkb_place w)]
  | case2 h =>
    refine .appends f hf ?_ ?_ ?_
    · rw [move_listed]
      simp [listed,buffer,copyInto,hskb]
    · rw [move_submitted,schedule_submitted]
      rfl
    · rw [move_held,held_congr (schedule_place _)]
      rfl

theorem txAggregate_moves (hf : w.held f.sender = some f) (now : ℤ) (built : Bool) :
    Moves w op (w.txAggregate f now built) := by
  have hf' : (w.stamp now).held f.sender = some f := hf
  fun_cases txAggregate with
  | case1 h => exact (flushFirst_moves hf').of_stamp
  | case2 h hskb =>
    have hskb' : (w.stamp now).aggSkb = none := hskb
    refine .appends f hf ?_ ?_ ?_
    · rw [move_listed,aggregateFirst_listed hskb']
      rfl
    · rw [move_submitted,aggregateFirst_submitted]
      rfl
    · rw [move_held,held_congr (aggregateFirst_place _ _ _)]
      rfl
  | case3 h skb hskb => exact (aggregateNext_moves hf' hskb now).of_stamp

theorem turn_moves (hw : Own w) (s : ℕ) (now : ℤ) (built : Bool) :
    Moves w (.turn s now built) (w.turn s now built) := by
  fun_cases turn with
  | case1 hs => exact .keeps rfl rfl rfl
  | case2 f hs =>
    have hheld : w.held s = some f := by simp [held,hs,Place.held]
    obtain rfl := hw s f hheld
    exact txAggregate_moves hheld now built
  | case3 f hs =>
    have hheld : w.held s = some f := by simp [held,hs,Place.held]
    obtain rfl := hw s f hheld
    exact flushFirst_moves hheld
  | case4 f newPacket hs =>
    have hheld : w.held s = some f := by simp [held,hs,Place.held]
    refine moves_of_held (p := if newPacket then .enters f else .sends f) hheld ?_ rfl rfl ?_
    · split <;> rfl
    · rw [move_held]
      rfl
  | case5 f hs =>
    obtain rfl := hw s f (held_sends hs)
    refine .passes f hs ⟨now,built,rfl⟩ ?_ rfl (by rw [move_held]; rfl)
    simp [listed,buffer,send,move]

theorem submit_moves (hop : incoming op = some f) (place : Frame → Place)
    (hplace : ∀ f, (place f).held = some f) : Moves w op (w.submit f place) := by
  fun_cases submit with
  | case1 hidle f' =>
    refine .comes f' (by simp [held,hidle,Place.held,f']) rfl ⟨f,hop,rfl⟩ rfl rfl ?_
    rw [move_held,hplace]
    rfl
  | case2 h => exact .keeps rfl rfl rfl

theorem timerFires_moves : Moves w op w.timerFires := by
  fun_cases timerFires <;> exact .keeps rfl rfl rfl

theorem workStart_moves : Moves w op w.workStart := by
  fun_cases workStart <;> exact .keeps rfl rfl rfl

theorem workFlush_moves : Moves w op w.workFlush := by
  fun_cases workFlush with
  | case1 hworking v hprogress =>
    exact .keeps (sendAggSkb_listed v) (sendAggSkb_submitted v) (held_congr (sendAggSkb_place v))
  | case2 hworking v hprogress => exact .keeps rfl rfl rfl
  | case3 hworking => exact .keeps rfl rfl rfl

theorem updateUlAggConfig_moves (size : UInt16) (count : UInt8) :
    Moves w op (w.updateUlAggConfig size count) := by
  fun_cases updateUlAggConfig with
  | case1 h => exact .keeps rfl rfl rfl
  | case2 h => refine .keeps ?_ ?_ ?_ <;> simp only [listed,buffer,held,funext_iff,implies_true]

theorem step_moves (hw : Own w) (op : Op) : Moves w op (step w op) := by
  cases op with
  | egress f =>
    refine submit_moves rfl w.egressPlace fun f => ?_
    fun_cases egressPlace <;> rfl
  | qmapCmd f flush =>
    refine submit_moves rfl (fun f => w.qmapCmdPlace f flush) fun f => ?_
    fun_cases qmapCmdPlace <;> rfl
  | turn s now built => exact turn_moves hw s now built
  | timerFires => exact timerFires_moves
  | workStart => exact workStart_moves
  | workFlush => exact workFlush_moves
  | config size count => exact updateUlAggConfig_moves size count

end Steps

/-! ## Every frame once -/

/-- The frames are numbered as they come in, and each one that a sender has brought is listed or
in its hand, once. -/
structure Ledger (w : AggregationState) : Prop where
  own : Own w
  numbers : w.submitted.map Frame.nr = List.range w.submitted.length
  once : ∀ s, ((w.listed++(w.held s).toList).filter (·.sender = s)).Perm
    (w.submitted.filter (·.sender = s))

theorem Moves.own (h : Moves w op w') (hw : Own w) : Own w' := by
  intro s g hg
  cases h with
  | keeps hlisted hsubmitted hheld => exact hw s g (hheld ▸ hg)
  | comes f hidle hnr hop hlisted hsubmitted hheld =>
    rw [hheld] at hg
    rcases eq_or_ne s f.sender with rfl | hs
    · rw [Function.update_self,Option.some.injEq] at hg
      rw [hg]
    · rw [Function.update_of_ne hs] at hg
      exact hw s g hg
  | appends f hold hlisted hsubmitted hheld =>
    rw [hheld] at hg
    rcases eq_or_ne s f.sender with rfl | hs
    · simp at hg
    · rw [Function.update_of_ne hs] at hg
      exact hw s g hg
  | passes f hold hop hlisted hsubmitted hheld =>
    rw [hheld] at hg
    rcases eq_or_ne s f.sender with rfl | hs
    · simp at hg
    · rw [Function.update_of_ne hs] at hg
      exact hw s g hg

theorem Moves.numbers (h : Moves w op w')
    (hw : w.submitted.map Frame.nr = List.range w.submitted.length) :
    w'.submitted.map Frame.nr = List.range w'.submitted.length := by
  cases h with
  | keeps hlisted hsubmitted hheld => rwa [hsubmitted]
  | comes f hidle hnr hop hlisted hsubmitted hheld => simp [hsubmitted,hw,hnr,List.range_succ]
  | appends f hold hlisted hsubmitted hheld => rwa [hsubmitted]
  | passes f hold hop hlisted hsubmitted hheld => rwa [hsubmitted]

/-- A sender puts the frame in its hand somewhere into the list. -/
theorem once_insert {xs ys : List Frame} (hf : w.held f.sender = some f)
    (hxs : w.listed = xs++ys) (hlisted : w'.listed = xs++f::ys)
    (hsubmitted : w'.submitted = w.submitted)
    (hheld : w'.held = Function.update w.held f.sender none)
    (hw : ((w.listed++(w.held s).toList).filter (·.sender = s)).Perm
      (w.submitted.filter (·.sender = s))) :
    ((w'.listed++(w'.held s).toList).filter (·.sender = s)).Perm
      (w'.submitted.filter (·.sender = s)) := by
  rw [hlisted,hsubmitted,hheld]
  rw [hxs] at hw
  rcases eq_or_ne s f.sender with rfl | hs
  · rw [hf] at hw
    refine List.Perm.trans ?_ hw
    refine List.Perm.filter _ ?_
    simp only [Function.update_self,Option.toList_none,List.append_nil,Option.toList_some]
    exact List.perm_middle.trans (List.perm_append_singleton f (xs++ys)).symm
  · simpa [Function.update_of_ne hs,hs.symm] using hw

theorem Moves.once (h : Moves w op w') (s : ℕ)
    (hw : ((w.listed++(w.held s).toList).filter (·.sender = s)).Perm
      (w.submitted.filter (·.sender = s))) :
    ((w'.listed++(w'.held s).toList).filter (·.sender = s)).Perm
      (w'.submitted.filter (·.sender = s)) := by
  cases h with
  | keeps hlisted hsubmitted hheld => rwa [hlisted,hsubmitted,hheld]
  | comes f hidle hnr hop hlisted hsubmitted hheld =>
    rw [hlisted,hsubmitted,hheld]
    rcases eq_or_ne s f.sender with rfl | hs
    · rw [hidle,Option.toList_none,List.append_nil] at hw
      simpa using hw.append_right [f]
    · simpa [Function.update_of_ne hs,hs.symm] using hw
  | appends f hold hlisted hsubmitted hheld =>
    exact once_insert hold (List.append_nil _).symm hlisted hsubmitted hheld hw
  | passes f hold hop hlisted hsubmitted hheld =>
    exact once_insert (held_sends hold) rfl hlisted hsubmitted hheld hw

theorem step_ledger (hw : Ledger w) (op : Op) : Ledger (step w op) :=
  have h := step_moves hw.own op
  ⟨h.own hw.own,h.numbers hw.numbers,fun s => h.once s (hw.once s)⟩


theorem ledger_init (dataFormat : BitVec 32) : Ledger (txAggregateInit dataFormat) := by
  refine ⟨fun s f h => ?_,rfl,fun s => List.Perm.refl _⟩
  exact absurd h (Option.some_ne_none f).symm

/-! ## Order -/

/-- What a sender brings later is listed behind what it has brought before. -/
def SendersOrdered (w : AggregationState) : Prop :=
  w.listed.Pairwise fun f g => f.sender = g.sender → f.nr < g.nr

/-- A sender sends a frame past the buffer while one of its frames is in it. -/
def Overtakes (w : AggregationState) (op : Op) : Prop :=
  match op with
  | .turn s _ _ => (∃ f, w.place s = .sends f) ∧ ∃ g ∈ w.buffer, g.sender = s
  | _ => False

/-- A frame in hand is newer than what its sender has in the list. -/
structure Sequenced (w : AggregationState) : Prop where
  own : Own w
  listed_lt : ∀ g ∈ w.listed, g.nr < w.submitted.length
  held_lt : ∀ s f, w.held s = some f →
    f.nr < w.submitted.length ∧ ∀ g ∈ w.listed, g.sender = s → g.nr < f.nr

theorem sequenced_insert (hw : Sequenced w) (hf : w.held f.sender = some f) (hown : Own w')
    (hlisted : ∀ g, g ∈ w'.listed ↔ g = f ∨ g ∈ w.listed) (hsubmitted : w'.submitted = w.submitted)
    (hheld : w'.held = Function.update w.held f.sender none) : Sequenced w' := by
  refine ⟨hown,fun g hg => ?_,fun s g hg => ?_⟩
  · rw [hsubmitted]
    rcases (hlisted g).mp hg with rfl | hg
    · exact (hw.held_lt _ _ hf).1
    · exact hw.listed_lt g hg
  · rw [hheld] at hg
    rcases eq_or_ne s f.sender with rfl | hs
    · simp at hg
    · rw [Function.update_of_ne hs] at hg
      obtain ⟨hlt,hnew⟩ := hw.held_lt s g hg
      refine ⟨hsubmitted ▸ hlt,fun g' hg' hsender => ?_⟩
      rcases (hlisted g').mp hg' with rfl | hg'
      · exact absurd hsender.symm hs
      · exact hnew g' hg' hsender

theorem Moves.sequenced (h : Moves w op w') (hw : Sequenced w) : Sequenced w' := by
  have hown := h.own hw.own
  cases h with
  | keeps hlisted hsubmitted hheld =>
    refine ⟨hown,?_,?_⟩
    · rw [hlisted,hsubmitted]
      exact hw.listed_lt
    · rw [hlisted,hsubmitted,hheld]
      exact hw.held_lt
  | comes f hidle hnr hop hlisted hsubmitted hheld =>
    have hlength : w'.submitted.length = w.submitted.length+1 := by simp [hsubmitted]
    refine ⟨hown,fun g hg => ?_,fun s g hg => ?_⟩
    · have := hw.listed_lt g (hlisted ▸ hg)
      omega
    · rw [hheld] at hg
      rw [hlength,hlisted]
      rcases eq_or_ne s f.sender with rfl | hs
      · rw [Function.update_self,Option.some.injEq] at hg
        subst hg
        exact ⟨by omega,fun g' hg' _ => hnr ▸ hw.listed_lt g' hg'⟩
      · rw [Function.update_of_ne hs] at hg
        obtain ⟨hlt,hnew⟩ := hw.held_lt s g hg
        exact ⟨by omega,hnew⟩
  | appends f hold hlisted hsubmitted hheld =>
    exact sequenced_insert hw hold hown (fun g => by simp [hlisted,or_comm]) hsubmitted hheld
  | passes f hold hop hlisted hsubmitted hheld =>
    refine sequenced_insert hw (held_sends hold) hown (fun g => ?_) hsubmitted hheld
    rw [hlisted,List.mem_append,List.mem_cons,listed,List.mem_append]
    tauto

theorem Moves.ordered (h : Moves w op w') (hw : Sequenced w) (hop : ¬Overtakes w op)
    (horder : SendersOrdered w) : SendersOrdered w' := by
  unfold SendersOrdered at horder ⊢
  cases h with
  | keeps hlisted hsubmitted hheld => rwa [hlisted]
  | comes f hidle hnr hop hlisted hsubmitted hheld => rwa [hlisted]
  | appends f hold hlisted hsubmitted hheld =>
    rw [hlisted,List.pairwise_append]
    refine ⟨horder,List.pairwise_singleton _ _,fun g hg f' hf' hsender => ?_⟩
    obtain rfl := List.mem_singleton.mp hf'
    exact (hw.held_lt _ _ hold).2 g hg hsender
  | passes f hold hpass hlisted hsubmitted hheld =>
    obtain ⟨now,built,rfl⟩ := hpass
    rw [hlisted,List.pairwise_append,List.pairwise_cons]
    obtain ⟨hsent,hbuffer,hbetween⟩ := List.pairwise_append.mp horder
    refine ⟨hsent,⟨fun g hg hsender => ?_,hbuffer⟩,fun g hg f' hf' hsender => ?_⟩
    · exact absurd ⟨⟨f,hold⟩,g,hg,hsender.symm⟩ hop
    · rcases List.mem_cons.mp hf' with rfl | hf'
      · exact (hw.held_lt _ _ (held_sends hold)).2 g (List.mem_append_left _ hg) hsender
      · exact hbetween g hg f' hf' hsender

theorem overtakes_breaks (hw : Sequenced w) (hop : Overtakes w op) : ¬SendersOrdered (step w op) := by
  cases op with
  | turn s now built =>
    obtain ⟨⟨f,hplace⟩,g,hg,hsender⟩ := hop
    have hown : f.sender = s := hw.own s f (held_sends hplace)
    have hlisted : (step w (.turn s now built)).listed = w.sent.flatten++f::w.buffer := by
      simp [step,turn,hplace,listed,buffer,send,move]
    intro horder
    rw [SendersOrdered,hlisted,List.pairwise_append,List.pairwise_cons] at horder
    have hnew := (hw.held_lt s f (held_sends hplace)).2 g (List.mem_append_right _ hg) hsender
    have hlt := horder.2.1.1 g hg (hown.trans hsender.symm)
    omega
  | egress f => exact absurd hop id
  | qmapCmd f flush => exact absurd hop id
  | timerFires => exact absurd hop id
  | workStart => exact absurd hop id
  | workFlush => exact absurd hop id
  | config size count => exact absurd hop id

theorem sequenced_init (dataFormat : BitVec 32) : Sequenced (txAggregateInit dataFormat) := by
  refine ⟨(ledger_init dataFormat).own,fun g hg => ?_,fun s f h => ?_⟩
  · exact absurd hg (List.not_mem_nil)
  · exact absurd h (Option.some_ne_none f).symm

/-- The frames of each sender leave in the order in which it has brought them, through all
interleavings, just as long as no sender sends a frame past the buffer that holds one of its
frames. -/
theorem sendersOrdered_always_iff (dataFormat : BitVec 32) (ops : List Op) :
    Always step SendersOrdered (txAggregateInit dataFormat) ops ↔
      Guarded step (fun w op => ¬Overtakes w op) (txAggregateInit dataFormat) ops := by
  refine always_iff_guarded (L := fun _ _ => True)
    (I := fun w => Sequenced w ∧ SendersOrdered w) (fun _ h => h.2) (fun w op h _ hop => ?_)
    (fun w op h _ hop => overtakes_breaks h.1 (not_not.mp hop))
    ⟨sequenced_init dataFormat,List.Pairwise.nil⟩ ops (guarded_true step _ ops)
  have hmoves := step_moves h.1.own op
  exact ⟨hmoves.sequenced h.1,hmoves.ordered h.1 hop h.2⟩

end RmnetAgg
end MarbleModules
