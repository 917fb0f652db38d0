import MarbleModules.RankedLists
import MarbleModules.IpaRuleAttrib
import MarbleModules.IpaRuleTable

/-! The equations that a generated bitmap enables, the order in which the hardware takes them, and
what the counters of the generator have to do with both. -/
namespace MarbleModules
namespace IpaRule
open TwoCursors RankedLists

section Order

/-- The place of an equation in the order of the hardware; a byte of no equation has none. -/
def Eqn.rank : Eqn → ℕ
  | .pureAck => 0
  | .tos _ => 0
  | .protocol _ => 1
  | .tc _ => 2
  | .ofstMeq128 _ => 3
  | .ofstMeq32 _ => 4
  | .ihlOfstMeq32 _ => 5
  | .metaData _ _ => 6
  | .ihlOfstRng16 _ => 7
  | .fl _ => 8
  | .frag => 9
  | .stray _ => 10

def Eqn.tosByte : Eqn → Option UInt8
  | .pureAck => some 0
  | .tos v => some v
  | _ => none

def Eqn.protocolByte : Eqn → Option UInt8
  | .protocol v => some v
  | _ => none

def Eqn.tcByte : Eqn → Option UInt8
  | .tc v => some v
  | _ => none

def Eqn.meq128 : Eqn → Option MaskEq128
  | .ofstMeq128 e => some e
  | _ => none

def Eqn.meq32 : Eqn → Option MaskEq32
  | .ofstMeq32 e => some e
  | _ => none

def Eqn.ihlMeq32 : Eqn → Option MaskEq32
  | .ihlOfstMeq32 e => some e
  | _ => none

def Eqn.metadataMeq32 : Eqn → Option MaskEq32
  | .metaData mask value => some ⟨0,mask,value⟩
  | _ => none

def Eqn.range16 : Eqn → Option RangeEq16
  | .ihlOfstRng16 e => some e
  | _ => none

def Eqn.flow : Eqn → Option UInt32
  | .fl v => some (v &&& 0xFFFFF)
  | _ => none

variable {α : Type}

/-- The first two of a list. -/
def slots (l : List α) (z : α) : α × α := (l.getD 0 z,l.getD 1 z)

/-- The equations that `en_rule` enables, each with the parameters that its attribute has given it:
the slots of a kind are given out in order. -/
def Gen.ruleEq (hw : HwType) (s : Gen) : RuleEq :=
  {presentFromBitmap hw (RuleEq.zeroed s.enRule) with
    tosEq := (s.out.filterMap Eqn.tosByte).headD 0
    protocolEq := (s.out.filterMap Eqn.protocolByte).headD 0
    tcEq := (s.out.filterMap Eqn.tcByte).headD 0
    offsetMeq128 := slots (s.out.filterMap Eqn.meq128) .zero
    offsetMeq32 := slots (s.out.filterMap Eqn.meq32) .zero
    ihlOffsetMeq32 := slots (s.out.filterMap Eqn.ihlMeq32) .zero
    metadataMeq32 := (s.out.filterMap Eqn.metadataMeq32).headD .zero
    ihlOffsetRange16 := slots (s.out.filterMap Eqn.range16) .zero
    flEq := (s.out.filterMap Eqn.flow).headD 0}

end Order

section Bits
variable {hw : HwType}

/-- The kind and the slot of an equation that there are two of. -/
def Equation.slot : Equation → Option (Kind × ℕ)
  | .OFFSET_MEQ128_0 => some (.ofstMeq128,0)
  | .OFFSET_MEQ128_1 => some (.ofstMeq128,1)
  | .OFFSET_MEQ32_0 => some (.ofstMeq32,0)
  | .OFFSET_MEQ32_1 => some (.ofstMeq32,1)
  | .IHL_OFFSET_MEQ32_0 => some (.ihlOfstMeq32,0)
  | .IHL_OFFSET_MEQ32_1 => some (.ihlOfstMeq32,1)
  | .IHL_OFFSET_RANGE16_0 => some (.ihlOfstRng16,0)
  | .IHL_OFFSET_RANGE16_1 => some (.ihlOfstRng16,1)
  | _ => none

theorem Kind.slot_slot (k : Kind) {n : ℕ} (h : n < 2) : (k.slot n).slot = some (k,n) := by
  match n,h with
  | 0,_ => cases k <;> rfl
  | 1,_ => cases k <;> rfl

theorem Equation.eq_slot {q : Equation} {k : Kind} {i : ℕ} (h : q.slot = some (k,i)) :
    q = k.slot i ∧ i < 2 := by
  cases q <;> simp only [Equation.slot,Option.some.injEq,Prod.mk.injEq,reduceCtorEq] at h <;>
    · obtain ⟨rfl,rfl⟩ := h
      exact ⟨rfl,by omega⟩

theorem Eqn.slot_of_single {e : Eqn} {q : Equation} (h : e.single = some q) : q.slot = none := by
  cases e <;> simp only [Eqn.single,Option.some.injEq,reduceCtorEq] at h <;>
    · subst h
      rfl

/-- How many equations of a kind there are. -/
def count (k : Kind) (l : List Eqn) : ℕ := (l.filter fun e => e.kind = some k).length

/-- Whether the equation `q` is in use. -/
def enabledBy (l : List Eqn) (q : Equation) : Bool :=
  match q.slot with
  | some (k,i) => i < count k l
  | none => l.any fun e => e.single = some q

/-- The equation of a bit. -/
def eqOfBit (hw : HwType) : ℕ → Equation
  | 0 => if isRuleEqValid hw .TOS_EQ then .TOS_EQ else .IS_PURE_ACK
  | 1 => .PROTOCOL_EQ
  | 2 => .TC_EQ
  | 3 => .OFFSET_MEQ128_0
  | 4 => .OFFSET_MEQ128_1
  | 5 => .OFFSET_MEQ32_0
  | 6 => .OFFSET_MEQ32_1
  | 7 => .IHL_OFFSET_MEQ32_0
  | 8 => .IHL_OFFSET_MEQ32_1
  | 9 => .METADATA_COMPARE
  | 10 => .IHL_OFFSET_RANGE16_0
  | 11 => .IHL_OFFSET_RANGE16_1
  | 12 => .IHL_OFFSET_EQ_32
  | 13 => .IHL_OFFSET_EQ_16
  | 14 => .FL_EQ
  | _ => .IS_FRAG

theorem eqOfBit_eqBitfield {q : Equation} (h : isRuleEqValid hw q = true) :
    eqOfBit hw (eqBitfield hw q) = q := by
  cases hw <;> cases q <;> first | rfl | exact absurd h (by decide)

theorem eqBitfield_lt {q : Equation} (h : isRuleEqValid hw q = true) : eqBitfield hw q < 16 := by
  cases hw <;> cases q <;> first | decide | exact absurd h (by decide)

theorem valid_slot (hw : HwType) (k : Kind) (n : ℕ) : isRuleEqValid hw (k.slot n) = true := by
  cases n <;> cases k <;> cases hw <;> rfl

theorem hasEq_or {b : ℕ} {q q' : Equation} (h : isRuleEqValid hw q = true)
    (h' : isRuleEqValid hw q' = true) :
    hasEq hw (b ||| 2^eqBitfield hw q') q = (hasEq hw b q || decide (q' = q)) := by
  have hinj : eqBitfield hw q' = eqBitfield hw q ↔ q' = q := by
    refine ⟨fun hh => ?_,fun hh => congrArg _ hh⟩
    rw [← eqOfBit_eqBitfield h',hh,eqOfBit_eqBitfield h]
  simp only [hasEq,Nat.testBit_or,Nat.testBit_two_pow,hinj]

end Bits

section Invariant
variable {hw : HwType} {s : Gen} {e : Eqn}

/-- The bitmap says what has been written. -/
structure Gen.Sound (hw : HwType) (s : Gen) : Prop where
  le : ∀ k, count k s.out ≤ 2
  bits : ∀ q, isRuleEqValid hw q = true → hasEq hw s.enRule q = enabledBy s.out q
  lt : s.enRule < 2^16
  valid : ∀ e ∈ s.out, ∀ q, e.single = some q → isRuleEqValid hw q = true

/-- The counters count it as well. -/
structure Gen.Inv (hw : HwType) (s : Gen) : Prop extends s.Sound hw where
  used : ∀ k, s.used k = count k s.out

theorem inv_start (hw : HwType) : Gen.start.Inv hw := by
  refine ⟨⟨fun _ => Nat.zero_le _,fun q _ => ?_,by decide,fun e he => ?_⟩,fun _ => rfl⟩
  · simp only [Gen.start,hasEq,Nat.zero_testBit,enabledBy]
    split <;> rfl
  · cases he

theorem count_append (k : Kind) (l : List Eqn) (e : Eqn) :
    count k (l++[e]) = count k l+if e.kind = some k then 1 else 0 := by
  simp only [count,List.filter_append,List.length_append]
  split <;> simp_all

theorem Gen.takes_slot {k : Kind} (hk : e.kind = some k) (h : s.takes hw e = true) :
    s.used k < 2 := by
  simpa [Gen.takes,hk] using h

theorem Gen.takes_single {q : Equation} (hk : e.kind = none) (hq : e.single = some q)
    (h : s.takes hw e = true) : isRuleEqValid hw q = true := by
  simpa [Gen.takes,hk,hq] using h

/-- The equation that gets its bit is there in the version. -/
theorem Gen.valid_equation {q : Equation} (h : s.takes hw e = true)
    (hq : e.equation s.used = some q) : isRuleEqValid hw q = true := by
  unfold Eqn.equation at hq
  cases hk : e.kind with
  | some k =>
    rw [hk] at hq
    obtain rfl := Option.some.inj hq
    exact valid_slot hw k _
  | none =>
    rw [hk] at hq
    exact Gen.takes_single hk hq h

/-- An equation more is in use. -/
theorem enabledBy_append (hs : ∀ k, s.used k = count k s.out) (h : s.takes hw e = true)
    (q : Equation) :
    enabledBy (s.out++[e]) q = (enabledBy s.out q || decide (e.equation s.used = some q)) := by
  cases hk : e.kind with
  | some k =>
    have hlt := Gen.takes_slot hk h
    have heq : e.equation s.used = some (k.slot (s.used k)) := by simp [Eqn.equation,hk]
    have hsingle : e.single = none := by cases e <;> first | rfl | cases hk
    have hslot := k.slot_slot hlt
    rw [heq,enabledBy,enabledBy]
    cases hq : q.slot with
    | none =>
      have hne : k.slot (s.used k) ≠ q := by
        rintro rfl
        rw [hslot] at hq
        cases hq
      simp [hsingle,hne]
    | some x =>
      obtain ⟨k',i⟩ := x
      obtain ⟨rfl,hi⟩ := Equation.eq_slot hq
      have hiff : k.slot (s.used k) = k'.slot i ↔ k = k' ∧ s.used k = i := by
        constructor
        · intro hh
          rw [hh,k'.slot_slot hi] at hslot
          cases hslot
          exact ⟨rfl,rfl⟩
        · rintro ⟨rfl,rfl⟩
          rfl
      simp only [count_append,hk,Option.some.injEq,hiff]
      by_cases hkk : k = k'
      · subst hkk
        rw [hs k]
        have hlast : i < count k s.out+1 ↔ i < count k s.out ∨ count k s.out = i := by omega
        simp only [if_true,true_and,hlast,Bool.decide_or]
      · simp [hkk]
  | none =>
    have heq : e.equation s.used = e.single := by simp [Eqn.equation,hk]
    rw [heq,enabledBy,enabledBy]
    cases hq : q.slot with
    | none => simp
    | some x =>
      have hne : e.single ≠ some q := by
        intro hh
        rw [Eqn.slot_of_single hh] at hq
        cases hq
      simp [count_append,hk,hne]

theorem Gen.Inv.add (hs : s.Inv hw) (h : s.takes hw e = true) : (s.add hw e).Inv hw := by
  refine ⟨⟨fun k => ?_,fun q hq => ?_,?_,fun e' he' q hq => ?_⟩,fun k => ?_⟩
  · show count k (s.out++[e]) ≤ 2
    rw [count_append]
    have hle := hs.le k
    split
    next hk =>
      have hlt := Gen.takes_slot hk h
      rw [hs.used k] at hlt
      omega
    next => exact hle
  · show hasEq hw (s.add hw e).enRule q = enabledBy (s.out++[e]) q
    rw [enabledBy_append hs.used h,← hs.bits q hq,Gen.add]
    cases he : e.equation s.used with
    | none => simp
    | some q' => simp [hasEq_or hq (Gen.valid_equation h he)]
  · rw [Gen.add]
    cases he : e.equation s.used with
    | none => exact hs.lt
    | some q' =>
      have hb := eqBitfield_lt (Gen.valid_equation h he)
      exact Nat.or_lt_two_pow hs.lt (Nat.pow_lt_pow_right (by omega) hb)
  · rcases List.mem_append.1 he' with he' | he'
    · exact hs.valid e' he' q hq
    · rw [List.mem_singleton] at he'
      subst he'
      have hk : e'.kind = none := by cases e' <;> first | rfl | cases hq
      exact Gen.takes_single hk hq h
  · show (s.add hw e).used k = count k (s.out++[e])
    rw [count_append,← hs.used k,Gen.add]
    cases hk : e.kind with
    | none => simp
    | some k' =>
      by_cases hkk : k = k'
      · subst hkk
        simp
      · simp [hkk,Ne.symm hkk]

end Invariant

end IpaRule
end MarbleModules
