import MarbleModules.RmnetAggRuns

/-! The buffer: how much it holds, when a frame can run over its end, and that the timer or the
work gets to it, unless a sender cancels the timer of a buffer that is not the one it has sent. -/
namespace MarbleModules
namespace RmnetAgg

open Runs AggregationState

variable {w w' : AggregationState} {f g : Frame} {op : Op} {s : ℕ}

/-! ## Fields that a part of a step leaves alone -/

section Projections

variable (w : AggregationState) (s : ℕ) (p : Place) (f : Frame)

theorem sendAggSkb_inProgress (h : w.inProgress = w.aggSkb.isSome) :
    w.sendAggSkb.inProgress = false := by
  fun_cases sendAggSkb with
  | case1 hskb => simpa [hskb] using h
  | case2 skb hskb => rfl

theorem schedule_inProgress : w.schedule.inProgress = true := by
  fun_cases schedule with
  | case1 h => exact h
  | case2 h => rfl

@[simp] theorem schedule_aggCount : w.schedule.aggCount = w.aggCount := by
  fun_cases schedule <;> rfl
@[simp] theorem schedule_paramsCount : w.schedule.paramsCount = w.paramsCount := by
  fun_cases schedule <;> rfl
@[simp] theorem schedule_paramsSize : w.schedule.paramsSize = w.paramsSize := by
  fun_cases schedule <;> rfl
@[simp] theorem schedule_aggSizeOrder : w.schedule.aggSizeOrder = w.aggSizeOrder := by
  fun_cases schedule <;> rfl
@[simp] theorem schedule_overPanic : w.schedule.overPanic = w.overPanic := by
  fun_cases schedule <;> rfl

@[simp] theorem sendAggSkb_paramsCount : w.sendAggSkb.paramsCount = w.paramsCount := by
  fun_cases sendAggSkb <;> rfl
@[simp] theorem sendAggSkb_paramsSize : w.sendAggSkb.paramsSize = w.paramsSize := by
  fun_cases sendAggSkb <;> rfl
@[simp] theorem sendAggSkb_aggSizeOrder : w.sendAggSkb.aggSizeOrder = w.aggSizeOrder := by
  fun_cases sendAggSkb <;> rfl
@[simp] theorem sendAggSkb_overPanic : w.sendAggSkb.overPanic = w.overPanic := by
  fun_cases sendAggSkb <;> rfl

end Projections

/-! ## The timer -/

/-- The work runs when the timer has fired, and sends the buffer. -/
def TimerOrWork (op : Op) : Prop := op = .timerFires ∨ op = .workStart ∨ op = .workFlush

/-- The buffer goes out although no frame comes any more. -/
def Flushable (w : AggregationState) : Prop :=
  ∃ ops, (∀ op ∈ ops, TimerOrWork op) ∧ (run step w ops).aggSkb = none

/-- A sender cancels the timer when there is a new buffer that has only its timer. -/
def CancelsLate (w : AggregationState) (op : Op) : Prop :=
  match op with
  | .turn s _ _ => (∃ f newPacket, w.place s = .cancels f newPacket) ∧ w.aggSkb.isSome ∧
      w.aggWq = false ∧ w.working = false
  | _ => False

/-- A buffer has its timer or the work, and `agg_state` says whether there is one. -/
structure Armed (w : AggregationState) : Prop where
  inProgress : w.inProgress = w.aggSkb.isSome
  armed : w.aggSkb.isSome → w.hrtimer = true ∨ w.aggWq = true ∨ w.working = true

theorem armed_of_none (hskb : w.aggSkb = none) (h : w.inProgress = false) : Armed w := by
  refine ⟨by simp [hskb,h],fun hsome => ?_⟩
  simp [hskb] at hsome

theorem Armed.sendAggSkb (hw : Armed w) (s : ℕ) (p : Place) : Armed (w.sendAggSkb.move s p) :=
  armed_of_none (sendAggSkb_aggSkb w) (sendAggSkb_inProgress w hw.inProgress)

theorem Armed.copyInto (hw : Armed w) (skb : AggSkb) (f : Frame) (count : ℕ) (time : ℤ) :
    Armed (w.copyInto skb f count time).schedule := by
  refine ⟨by simp [schedule_inProgress,AggregationState.copyInto],fun _ => ?_⟩
  fun_cases schedule with
  | case1 h => exact hw.armed (hw.inProgress ▸ h)
  | case2 h => exact Or.inl rfl

theorem Armed.txAggregate (hw : Armed w) (f : Frame) (now : ℤ) (built : Bool) :
    Armed (w.txAggregate f now built) := by
  have hstamp : Armed (w.stamp now) := ⟨hw.inProgress,hw.armed⟩
  fun_cases AggregationState.txAggregate with
  | case1 h => exact hstamp.sendAggSkb _ _
  | case2 h hskb =>
    have hprogress : w.inProgress = false := by simp [hw.inProgress,hskb]
    unfold aggregateFirst
    split
    · exact armed_of_none hskb hprogress
    split
    · have := hstamp.copyInto ⟨[],buildSize w.aggSizeOrder⟩ f 1 now
      exact ⟨this.inProgress,this.armed⟩
    · exact armed_of_none hskb hprogress
  | case3 h skb hskb =>
    unfold aggregateNext
    split
    · exact hstamp.sendAggSkb _ _
    · have := hstamp.copyInto skb f ((w.aggCount+1)%2^8) w.aggTime
      exact ⟨this.inProgress,this.armed⟩

theorem Armed.turn (hw : Armed w) {now : ℤ} {built : Bool}
    (hop : ¬CancelsLate w (.turn s now built)) : Armed (w.turn s now built) := by
  fun_cases AggregationState.turn with
  | case1 hs => exact hw
  | case2 f hs => exact hw.txAggregate f now built
  | case3 f hs => exact hw.sendAggSkb _ _
  | case4 f newPacket hs =>
    refine ⟨hw.inProgress,fun hsome => Or.inr ?_⟩
    by_contra hno
    simp only [not_or,Bool.not_eq_true] at hno
    exact hop ⟨⟨f,newPacket,hs⟩,hsome,hno.1,hno.2⟩
  | case5 f hs => exact ⟨hw.inProgress,hw.armed⟩

theorem Armed.workFlush (hw : Armed w) : Armed w.workFlush := by
  fun_cases AggregationState.workFlush with
  | case1 hworking v hprogress => exact armed_of_none (sendAggSkb_aggSkb v) rfl
  | case2 hworking v hprogress =>
    refine armed_of_none ?_ (Bool.not_eq_true _ ▸ hprogress)
    have : w.inProgress = false := Bool.not_eq_true _ ▸ hprogress
    rw [hw.inProgress] at this
    exact Option.isSome_eq_false_iff.mp this |> Option.isNone_iff_eq_none.mp
  | case3 hworking => exact hw

theorem Armed.submit (hw : Armed w) (f : Frame) (place : Frame → Place) :
    Armed (w.submit f place) := by
  fun_cases AggregationState.submit with
  | case1 hidle f' => exact ⟨hw.inProgress,hw.armed⟩
  | case2 h => exact hw

theorem Armed.timerFires (hw : Armed w) : Armed w.timerFires := by
  fun_cases AggregationState.timerFires with
  | case1 h => exact ⟨hw.inProgress,fun _ => Or.inr (Or.inl rfl)⟩
  | case2 h => exact hw

theorem Armed.workStart (hw : Armed w) : Armed w.workStart := by
  fun_cases AggregationState.workStart with
  | case1 h => exact ⟨hw.inProgress,fun _ => Or.inr (Or.inr rfl)⟩
  | case2 h => exact hw

theorem Armed.config (hw : Armed w) (size : UInt16) (count : UInt8) :
    Armed (w.updateUlAggConfig size count) := by
  fun_cases updateUlAggConfig with
  | case1 h => exact ⟨hw.inProgress,hw.armed⟩
  | case2 h => exact ⟨hw.inProgress,hw.armed⟩

theorem step_armed (hw : Armed w) (hop : ¬CancelsLate w op) : Armed (step w op) := by
  cases op with
  | egress f => exact hw.submit f _
  | qmapCmd f flush => exact hw.submit f fun f => w.qmapCmdPlace f flush
  | turn s now built => exact hw.turn hop
  | timerFires => exact hw.timerFires
  | workStart => exact hw.workStart
  | workFlush => exact hw.workFlush
  | config size count => exact hw.config size count

theorem workFlush_aggSkb (hw : Armed w) (hworking : w.working = true) :
    w.workFlush.aggSkb = none := by
  fun_cases AggregationState.workFlush with
  | case1 _ v hprogress => exact sendAggSkb_aggSkb v
  | case2 _ v hprogress =>
    have hidle : w.inProgress = false := Bool.not_eq_true _ ▸ hprogress
    rw [hw.inProgress,Option.isSome_eq_false_iff] at hidle
    exact Option.isNone_iff_eq_none.mp hidle
  | case3 h => exact absurd hworking h

theorem Flushable.of_step (op : Op) (hop : TimerOrWork op) (h : Flushable (step w op)) : Flushable w := by
  obtain ⟨ops,hops,hnone⟩ := h
  exact ⟨op::ops,List.forall_mem_cons.mpr ⟨hop,hops⟩,hnone⟩

theorem flushable_of_working (hw : Armed w) (hworking : w.working = true) : Flushable w :=
  Flushable.of_step .workFlush (Or.inr (Or.inr rfl))
    ⟨[],fun _ h => absurd h List.not_mem_nil,workFlush_aggSkb hw hworking⟩

theorem flushable_of_queued (hw : Armed w) (hqueued : w.aggWq = true) : Flushable w := by
  by_cases hworking : w.working = true
  · exact flushable_of_working hw hworking
  · refine Flushable.of_step .workStart (Or.inr (Or.inl rfl)) ?_
    refine flushable_of_working (step_armed hw id) ?_
    simp [step,workStart,hqueued,hworking]

theorem Armed.flushable (hw : Armed w) : Flushable w := by
  by_cases hsome : w.aggSkb.isSome
  · rcases hw.armed hsome with htimer | hqueued | hworking
    · refine Flushable.of_step .timerFires (Or.inl rfl) ?_
      refine flushable_of_queued (step_armed hw id) ?_
      simp [step,AggregationState.timerFires,htimer]
    · exact flushable_of_queued hw hqueued
    · exact flushable_of_working hw hworking
  · exact ⟨[],fun _ h => absurd h List.not_mem_nil,by simpa using hsome⟩

/-- Without its timer and the work a buffer stays. -/
structure Stuck (w : AggregationState) : Prop where
  buffered : w.aggSkb.isSome
  hrtimer : w.hrtimer = false
  aggWq : w.aggWq = false
  working : w.working = false

theorem Stuck.step (hw : Stuck w) (hop : TimerOrWork op) : RmnetAgg.step w op = w := by
  rcases hop with rfl | rfl | rfl
  · simp [RmnetAgg.step,AggregationState.timerFires,hw.hrtimer]
  · simp [RmnetAgg.step,workStart,hw.aggWq]
  · simp [RmnetAgg.step,workFlush,hw.working]

theorem Stuck.not_flushable (hw : Stuck w) : ¬Flushable w := by
  rintro ⟨ops,hops,hnone⟩
  have hrun : run RmnetAgg.step w ops = w := by
    induction ops with
    | nil => rfl
    | cons op ops ih =>
      obtain ⟨hop,hops⟩ := List.forall_mem_cons.mp hops
      rw [run_cons,hw.step hop] at hnone ⊢
      exact ih hops hnone
  rw [hrun] at hnone
  simpa [hnone] using hw.buffered

theorem cancelsLate_sticks (hop : CancelsLate w op) : Stuck (step w op) := by
  cases op with
  | turn s now built =>
    obtain ⟨⟨f,newPacket,hplace⟩,hsome,hwq,hworking⟩ := hop
    simp only [step,AggregationState.turn,hplace]
    exact ⟨hsome,rfl,hwq,hworking⟩
  | egress f => exact absurd hop id
  | qmapCmd f flush => exact absurd hop id
  | timerFires => exact absurd hop id
  | workStart => exact absurd hop id
  | workFlush => exact absurd hop id
  | config size count => exact absurd hop id

/-- The timer and the work alone can always send the buffer, just as long as no sender cancels,
behind the lock, the timer of a buffer that another one has begun meanwhile. -/
theorem flushable_always_iff (dataFormat : BitVec 32) (ops : List Op) :
    Always step Flushable (txAggregateInit dataFormat) ops ↔
      Guarded step (fun w op => ¬CancelsLate w op) (txAggregateInit dataFormat) ops :=
  always_iff_guarded (L := fun _ _ => True) (I := Armed) (fun _ h => h.flushable)
    (fun _ _ h _ hop => step_armed h hop)
    (fun _ _ _ _ hop => (cancelsLate_sticks (not_not.mp hop)).not_flushable)
    (armed_of_none rfl rfl) ops (guarded_true step _ ops)

/-! ## What is in a buffer -/

/-- What is sent at once: some frames, fewer than `agg_count` can count, and no more bytes than the
largest buffer has unless one has been overrun. -/
structure Load (overPanic : Bool) (frames : List Frame) : Prop where
  nonempty : frames ≠ []
  length_lt : frames.length < 2^8
  fits : overPanic = false → 2 ≤ frames.length → (bytesOf frames).length ≤ buildSize 4

theorem load_single (overPanic : Bool) (f : Frame) : Load overPanic [f] := by
  refine ⟨List.cons_ne_nil f [],by simp,fun _ h => ?_⟩
  simp at h

theorem Load.mono {overPanic overPanic' : Bool} {frames : List Frame} (h : Load overPanic frames)
    (himp : overPanic' = false → overPanic = false) : Load overPanic' frames :=
  ⟨h.nonempty,h.length_lt,fun hno => h.fits (himp hno)⟩

/-- The buffer holds a load, and no more than its size as long as none has been overrun. -/
structure Fits (overPanic : Bool) (skb : AggSkb) : Prop where
  load : Load overPanic skb.frames
  size_le : skb.size ≤ buildSize 4
  fits : overPanic = false → (bytesOf skb.frames).length ≤ skb.size

/-- The configured size is below a page, or that of the buffers that are made. -/
structure Sized (w : AggregationState) : Prop where
  order_le : w.aggSizeOrder ≤ 4
  size : w.paramsSize < pageSize ∨ w.paramsSize = buildSize w.aggSizeOrder

structure Buffered (w : AggregationState) : Prop where
  inProgress : w.inProgress = w.aggSkb.isSome
  paramsCount_lt : w.paramsCount < 2^8
  aggCount : w.aggCount = w.buffer.length
  sized : Sized w
  skb : ∀ skb, w.aggSkb = some skb → Fits w.overPanic skb
  sent : ∀ frames ∈ w.sent, Load w.overPanic frames

theorem Buffered.congr (hw : Buffered w) (hsized : Sized w') (hparams : w'.paramsCount < 2^8)
    (hskb : w'.aggSkb = w.aggSkb) (hprogress : w'.inProgress = w.inProgress)
    (hcount : w'.aggCount = w.aggCount) (hsent : w'.sent = w.sent)
    (hpanic : w'.overPanic = w.overPanic) : Buffered w' := by
  refine ⟨?_,hparams,?_,hsized,?_,?_⟩
  · rw [hprogress,hskb,hw.inProgress]
  · rw [hcount,hw.aggCount,buffer,buffer,hskb]
  · rw [hskb,hpanic]
    exact hw.skb
  · rw [hsent,hpanic]
    exact hw.sent

theorem Sized.congr (hw : Sized w) (horder : w'.aggSizeOrder = w.aggSizeOrder)
    (hsize : w'.paramsSize = w.paramsSize) : Sized w' := by
  refine ⟨horder ▸ hw.order_le,?_⟩
  rw [hsize,horder]
  exact hw.size

theorem buildSize_le {order : ℕ} (h : order ≤ 4) : buildSize order ≤ buildSize 4 :=
  Nat.sub_le_sub_right (Nat.mul_le_mul_left _ (Nat.pow_le_pow_right (by omega) h)) _

theorem Buffered.of_sent (hw : Buffered w) (hskb : w'.aggSkb = none) (hcount : w'.aggCount = 0)
    (hprogress : w'.inProgress = false) (hparams : w'.paramsCount = w.paramsCount)
    (hsized : Sized w') (hpanic : w'.overPanic = w.overPanic)
    (hsent : ∀ frames ∈ w'.sent, Load w.overPanic frames) : Buffered w' := by
  refine ⟨by simp [hskb,hprogress],hparams ▸ hw.paramsCount_lt,by simp [buffer,hskb,hcount],
    hsized,fun skb h => ?_,hpanic ▸ hsent⟩
  simp [hskb] at h

theorem aggCount_of_none (hw : Buffered w) (hskb : w.aggSkb = none) : w.aggCount = 0 := by
  simp [hw.aggCount,buffer,hskb]

theorem inProgress_of_none (hw : Buffered w) (hskb : w.aggSkb = none) : w.inProgress = false := by
  simp [hw.inProgress,hskb]

theorem Buffered.send (hw : Buffered w) (f : Frame) : Buffered (w.send [f]) := by
  refine ⟨hw.inProgress,hw.paramsCount_lt,hw.aggCount,(hw.sized.congr rfl rfl),hw.skb,
    fun frames h => ?_⟩
  rcases List.mem_append.mp h with h | h
  · exact hw.sent frames h
  · obtain rfl := List.mem_singleton.mp h
    exact load_single _ f

theorem Buffered.sendAggSkb (hw : Buffered w) : Buffered w.sendAggSkb := by
  fun_cases AggregationState.sendAggSkb with
  | case1 hskb => exact hw
  | case2 skb hskb =>
    refine hw.of_sent rfl rfl rfl rfl (hw.sized.congr rfl rfl) rfl fun frames h => ?_
    rcases List.mem_append.mp h with h | h
    · exact hw.sent frames h
    · obtain rfl := List.mem_singleton.mp h
      exact (hw.skb skb hskb).load

theorem Buffered.move (hw : Buffered w) (s : ℕ) (p : Place) : Buffered (w.move s p) :=
  hw.congr (hw.sized.congr rfl rfl) hw.paramsCount_lt rfl rfl rfl rfl rfl

theorem Buffered.stamp (hw : Buffered w) (now : ℤ) : Buffered (w.stamp now) :=
  hw.congr (hw.sized.congr rfl rfl) hw.paramsCount_lt rfl rfl rfl rfl rfl

/-- A buffer takes one more frame. -/
theorem Buffered.copyInto (hw : Buffered w) {skb : AggSkb} {count : ℕ} {time : ℤ}
    (hcount : count = skb.frames.length+1) (hlt : skb.frames.length+1 < 2^8)
    (hsize : skb.size ≤ buildSize 4)
    (hfits : w.overPanic = false → (bytesOf skb.frames).length ≤ skb.size) :
    Buffered (w.copyInto skb f count time).schedule := by
  have hpanic : (w.overPanic || decide (skb.tailroom < f.len)) = false →
      w.overPanic = false ∧ (bytesOf (skb.frames++[f])).length ≤ skb.size := by
    intro h
    rw [Bool.or_eq_false_iff,decide_eq_false_iff_not] at h
    have := hfits h.1
    have hlen : (bytesOf (skb.frames++[f])).length = (bytesOf skb.frames).length+f.len := by
      simp [bytesOf,Frame.len]
    have hroom : f.len ≤ skb.size-(bytesOf skb.frames).length := not_lt.mp h.2
    exact ⟨h.1,by omega⟩
  refine ⟨by simp [schedule_inProgress,AggregationState.copyInto],?_,?_,⟨?_,?_⟩,?_,?_⟩
  · simpa [AggregationState.copyInto] using hw.paramsCount_lt
  · simp [buffer,AggregationState.copyInto,hcount]
  · simpa [AggregationState.copyInto] using hw.sized.order_le
  · simpa [AggregationState.copyInto] using hw.sized.size
  · intro skb' h
    simp only [schedule_aggSkb,AggregationState.copyInto,Option.some.injEq] at h
    subst h
    rw [schedule_overPanic]
    refine ⟨⟨by simp,by simpa using hlt,fun h _ => ?_⟩,hsize,fun h => (hpanic h).2⟩
    exact (hpanic h).2.trans hsize
  · rw [schedule_sent,schedule_overPanic]
    exact fun frames h => (hw.sent frames h).mono fun hno => (hpanic hno).1

theorem Buffered.aggregateFirst (hw : Buffered w) (hskb : w.aggSkb = none) (f : Frame)
    (diff now : ℤ) (built : Bool) : Buffered (w.aggregateFirst f diff now built) := by
  fun_cases AggregationState.aggregateFirst with
  | case1 h => exact hw.send f
  | case2 h hbuilt =>
    exact hw.copyInto rfl (by simp) (buildSize_le hw.sized.order_le) fun _ => Nat.zero_le _
  | case3 h hbuilt =>
    have hw' : Buffered { w with aggCount := 0, aggTime := 0 } :=
      hw.congr (hw.sized.congr rfl rfl) hw.paramsCount_lt rfl rfl (aggCount_of_none hw hskb).symm
        rfl rfl
    exact hw'.send f

theorem Buffered.aggregateNext (hw : Buffered w) {skb : AggSkb} (hskb : w.aggSkb = some skb)
    (f : Frame) (now : ℤ) : Buffered (w.aggregateNext skb f now) := by
  fun_cases AggregationState.aggregateNext with
  | case1 h => exact hw.sendAggSkb.move _ _
  | case2 h =>
    have hcount : w.aggCount = skb.frames.length := by simp [hw.aggCount,buffer,hskb]
    have hfits := hw.skb skb hskb
    have hlt : w.aggCount+1 < 2^8 := by
      have := hw.paramsCount_lt
      omega
    refine Buffered.move (hw.copyInto ?_ (hcount ▸ hlt) hfits.size_le hfits.fits) _ _
    rw [Nat.mod_eq_of_lt hlt,hcount]

theorem Buffered.txAggregate (hw : Buffered w) (f : Frame) (now : ℤ) (built : Bool) :
    Buffered (w.txAggregate f now built) := by
  fun_cases AggregationState.txAggregate with
  | case1 h => exact (hw.stamp now).sendAggSkb.move _ _
  | case2 h hskb => exact ((hw.stamp now).aggregateFirst hskb f _ now built).move _ _
  | case3 h skb hskb => exact (hw.stamp now).aggregateNext hskb f now

theorem Buffered.turn (hw : Buffered w) (s : ℕ) (now : ℤ) (built : Bool) :
    Buffered (w.turn s now built) := by
  fun_cases AggregationState.turn with
  | case1 hs => exact hw
  | case2 f hs => exact hw.txAggregate f now built
  | case3 f hs => exact hw.sendAggSkb.move _ _
  | case4 f newPacket hs =>
    have hw' : Buffered { w with hrtimer := false } :=
      hw.congr (hw.sized.congr rfl rfl) hw.paramsCount_lt rfl rfl rfl rfl rfl
    exact hw'.move _ _
  | case5 f hs => exact (hw.send f).move _ _

theorem getOrder_le (size : UInt16) : getOrder size.toNat ≤ 4 := by
  have hlt : size.toNat < 2^16 := size.toNat_lt
  refine Nat.clog_le_of_le_pow ?_
  simp only [pageSize]
  omega

/-- The size is put back right: what is lost for the largest buffer comes back when the shared
info is taken off. -/
theorem configSize_eq {order : ℕ} (h : order ≤ 4) :
    (pageSize*2^order%2^16+2^16-sharedInfoSize)%2^16 = buildSize order := by
  interval_cases order <;> rfl

theorem Buffered.config (hw : Buffered w) (size : UInt16) (count : UInt8) :
    Buffered (w.updateUlAggConfig size count) := by
  have hcount : count.toNat < 2^8 := count.toNat_lt
  fun_cases updateUlAggConfig with
  | case1 h => exact hw.congr ⟨hw.sized.order_le,Or.inl h⟩ hcount rfl rfl rfl rfl rfl
  | case2 h =>
    rw [configSize_eq (getOrder_le size)]
    exact hw.congr ⟨getOrder_le size,Or.inr rfl⟩ hcount rfl rfl rfl rfl rfl

theorem Buffered.workFlush (hw : Buffered w) : Buffered w.workFlush := by
  have hidle : Buffered { w with working := false } :=
    hw.congr (hw.sized.congr rfl rfl) hw.paramsCount_lt rfl rfl rfl rfl rfl
  fun_cases AggregationState.workFlush with
  | case1 hworking v hprogress =>
    have hsent : Buffered v.sendAggSkb := hidle.sendAggSkb
    have hskb := sendAggSkb_aggSkb v
    exact hsent.congr (hsent.sized.congr rfl rfl) hsent.paramsCount_lt rfl
      (inProgress_of_none hsent hskb).symm rfl rfl rfl
  | case2 hworking v hprogress => exact hidle
  | case3 hworking => exact hw

theorem step_buffered (hw : Buffered w) (op : Op) : Buffered (step w op) := by
  cases op with
  | egress f =>
    change Buffered (w.submit f w.egressPlace)
    fun_cases AggregationState.submit with
    | case1 hidle f' =>
      exact hw.congr (hw.sized.congr rfl rfl) hw.paramsCount_lt rfl rfl rfl rfl rfl
    | case2 h => exact hw
  | qmapCmd f flush =>
    change Buffered (w.submit f fun f => w.qmapCmdPlace f flush)
    fun_cases AggregationState.submit with
    | case1 hidle f' =>
      exact hw.congr (hw.sized.congr rfl rfl) hw.paramsCount_lt rfl rfl rfl rfl rfl
    | case2 h => exact hw
  | turn s now built => exact hw.turn s now built
  | timerFires =>
    change Buffered w.timerFires
    fun_cases AggregationState.timerFires with
    | case1 h =>
      exact hw.congr (hw.sized.congr rfl rfl) hw.paramsCount_lt rfl rfl rfl rfl rfl
    | case2 h => exact hw
  | workStart =>
    change Buffered w.workStart
    fun_cases AggregationState.workStart with
    | case1 h =>
      exact hw.congr (hw.sized.congr rfl rfl) hw.paramsCount_lt rfl rfl rfl rfl rfl
    | case2 h => exact hw
  | workFlush => exact hw.workFlush
  | config size count => exact hw.config size count

theorem buffered_init (dataFormat : BitVec 32) : Buffered (txAggregateInit dataFormat) := by
  refine Buffered.config ⟨rfl,by simp,rfl,⟨by simp,Or.inl (by simp [pageSize])⟩,fun skb h => ?_,
    fun frames h => ?_⟩ 4095 20
  · exact absurd h (Option.some_ne_none skb).symm
  · exact absurd h List.not_mem_nil

theorem reached_buffered (dataFormat : BitVec 32) (ops : List Op) :
    Buffered (run step (txAggregateInit dataFormat) ops) :=
  run_invariant (I := Buffered) (fun _ op h => step_buffered h op) (buffered_init dataFormat) ops

/-- Each frame of a sender is in what has been sent, in the buffer or in the hand of the sender,
and there once; `agg_state` and `agg_count` say what is in the buffer, and what has been sent at
once is never empty and fits into a buffer unless one has been overrun. -/
theorem frames_accounted (dataFormat : BitVec 32) (ops : List Op) :
    let w := run step (txAggregateInit dataFormat) ops
    (∀ s, ((w.sent.flatten++w.buffer++(w.held s).toList).filter (·.sender = s)).Perm
      (w.submitted.filter (·.sender = s))) ∧
    w.inProgress = w.aggSkb.isSome ∧ w.aggCount = w.buffer.length ∧
    ∀ frames ∈ w.sent, Load w.overPanic frames := by
  have hledger := run_invariant (I := Ledger) (fun _ op h => step_ledger h op)
    (ledger_init dataFormat) ops
  have hbuffered := reached_buffered dataFormat ops
  exact ⟨hledger.once,hbuffered.inProgress,hbuffered.aggCount,hbuffered.sent⟩

/-! ## The end of the buffer -/

theorem aggregateNext_overPanic (skb : AggSkb) (f : Frame) (now : ℤ) :
    (w.aggregateNext skb f now).overPanic = w.overPanic := by
  fun_cases AggregationState.aggregateNext with
  | case1 h => exact sendAggSkb_overPanic w
  | case2 h =>
    refine (schedule_overPanic _).trans ?_
    simp only [not_or] at h
    simp [AggregationState.copyInto,h.1]

theorem aggregateFirst_overPanic (f : Frame) (diff now : ℤ) (built : Bool) :
    (w.aggregateFirst f diff now built).overPanic = true ↔ w.overPanic = true ∨
      (longer diff aggBypassTime = false ∧ f.len < w.paramsSize ∧ built = true ∧
        buildSize w.aggSizeOrder < f.len) := by
  fun_cases AggregationState.aggregateFirst with
  | case1 h =>
    simp only [AggregationState.send]
    grind
  | case2 h hbuilt =>
    rw [schedule_overPanic]
    simp only [AggregationState.copyInto,AggSkb.tailroom,bytesOf,List.flatMap_nil,List.length_nil]
    grind
  | case3 h hbuilt =>
    simp only [AggregationState.send]
    grind

theorem txAggregate_overPanic {now : ℤ} {built : Bool} :
    (w.txAggregate f now built).overPanic = true → w.overPanic = true ∨
      (w.aggSkb = none ∧ f.len < w.paramsSize ∧ buildSize w.aggSizeOrder < f.len) := by
  fun_cases AggregationState.txAggregate with
  | case1 h =>
    intro hpanic
    exact Or.inl ((sendAggSkb_overPanic (w.stamp now)).symm.trans hpanic)
  | case2 h hskb =>
    intro hpanic
    rcases (aggregateFirst_overPanic (w := w.stamp now) f _ now built).mp hpanic with hw | hfirst
    · exact Or.inl hw
    · exact Or.inr ⟨hskb,hfirst.2.1,hfirst.2.2.2⟩
  | case3 h skb hskb =>
    intro hpanic
    exact Or.inl ((aggregateNext_overPanic (w := w.stamp now) skb f now).symm.trans hpanic)

/-- A frame that is too long for the buffer and short enough for `agg_size` -/
theorem too_long_iff (hw : Sized w) : (∃ len, len < w.paramsSize ∧ buildSize w.aggSizeOrder < len) ↔
    w.aggSizeOrder = 0 ∧ buildSize 0+1 < w.paramsSize ∧ w.paramsSize < pageSize := by
  obtain ⟨horder,hsize⟩ := hw
  constructor
  · rintro ⟨len,hlen,hroom⟩
    rcases hsize with hsize | hsize
    · rcases Nat.eq_zero_or_pos w.aggSizeOrder with h0 | hpos
      · rw [h0] at hroom
        exact ⟨h0,by omega,hsize⟩
      · have hpow : 2^1 ≤ 2^w.aggSizeOrder := Nat.pow_le_pow_right (by omega) hpos
        simp only [buildSize,pageSize,sharedInfoSize] at hroom hsize
        omega
    · omega
  · rintro ⟨h0,hlt,_⟩
    exact ⟨buildSize 0+1,hlt,by rw [h0]; omega⟩

/-- The frames that overrun the buffer come where the configured size is below a page and beyond
what a page has room for, as it is from the start. -/
theorem overPanic_iff (dataFormat : BitVec 32) (ops : List Op)
    (hno : (run step (txAggregateInit dataFormat) ops).overPanic = false) :
    let w := run step (txAggregateInit dataFormat) ops
    (∃ f now built, (w.txAggregate f now built).overPanic = true) ↔
      w.aggSkb = none ∧ w.aggSizeOrder = 0 ∧ buildSize 0+1 < w.paramsSize ∧
        w.paramsSize < pageSize := by
  intro w
  rw [← too_long_iff (reached_buffered dataFormat ops).sized]
  constructor
  · rintro ⟨f,now,built,hpanic⟩
    rcases txAggregate_overPanic hpanic with hw | ⟨hskb,hlt,hroom⟩
    · exact absurd hw (Bool.eq_false_iff.mp hno)
    · exact ⟨hskb,f.len,hlt,hroom⟩
  · rintro ⟨hskb,len,hlen,hroom⟩
    let f : Frame := ⟨0,0,0,false,false,List.replicate len 0⟩
    have hf : f.len = len := List.length_replicate
    refine ⟨f,w.aggLast,true,?_⟩
    have htx : w.txAggregate f w.aggLast true =
        ((w.stamp w.aggLast).aggregateFirst f (w.aggLast-w.aggLast) w.aggLast true).move 0 .idle := by
      simp [AggregationState.txAggregate,hskb,f]
    rw [htx]
    refine (aggregateFirst_overPanic (w := w.stamp w.aggLast) f _ _ _).mpr (Or.inr ⟨?_,?_,rfl,?_⟩)
    · rw [sub_self]
      rfl
    · exact hf ▸ hlen
    · exact hf ▸ hroom

theorem overPanic_at_start :
    ∃ f now built, ((txAggregateInit 0).txAggregate f now built).overPanic = true :=
  (overPanic_iff 0 [] rfl).mpr ⟨rfl,rfl,by decide,by decide⟩

end RmnetAgg
end MarbleModules
