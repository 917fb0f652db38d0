import MarbleModules.IpaRuleOrder

/-! What the equations of a generated rule look like in the order of the hardware, and what a parser
makes of a body that keeps this order. -/
namespace MarbleModules
namespace IpaRule
open TwoCursors RankedLists

section Lists
variable {α : Type}

theorem putIf_slots (put : α → List Put) (z : α) {l : List α} (h : l.length ≤ 2) :
    putIf (decide (0 < l.length)) (put (slots l z).1)++
      putIf (decide (1 < l.length)) (put (slots l z).2) = l.flatMap put := by
  match l,h with
  | [],_ => rfl
  | [_],_ => simp [putIf,slots]
  | [_,_],_ => simp [putIf,slots]

theorem putIf_head (put : α → List Put) (z : α) {l : List α} (h : l.length ≤ 1) :
    putIf (decide (0 < l.length)) (put (l.headD z)) = l.flatMap put := by
  match l,h with
  | [],_ => rfl
  | [_],_ => simp [putIf]

/-- The equations of one rank. -/
def ranked (r : ℕ) (l : List Eqn) : List Eqn := l.filter fun e => e.rank = r

/-- The parameters of one rank, taken out and written. -/
theorem flatMap_ranked {r : ℕ} {f : Eqn → Option α} {w : α → List Put}
    (hf : ∀ e, (e.rank = r ∧ ∃ x, f e = some x ∧ e.puts = w x) ∨ (e.rank ≠ r ∧ f e = none))
    (l : List Eqn) :
    (l.filterMap f).length = (ranked r l).length ∧
      (ranked r l).flatMap Eqn.puts = (l.filterMap f).flatMap w := by
  induction l with
  | nil => exact ⟨rfl,rfl⟩
  | cons e l ih =>
    rcases hf e with ⟨hr,x,hx,hput⟩ | ⟨hr,hx⟩
    · simp only [ranked,List.filter_cons_of_pos,hr,decide_true,List.filterMap_cons_some hx,
        List.length_cons,List.flatMap_cons,hput]
      exact ⟨congrArg _ ih.1,congrArg _ ih.2⟩
    · rw [List.filterMap_cons_none hx,ranked,List.filter_cons_of_neg (by simpa using hr)]
      exact ih

/-- The rank of an equation that there are two of. -/
def Kind.rank : Kind → ℕ
  | .ofstMeq128 => 3
  | .ofstMeq32 => 4
  | .ihlOfstMeq32 => 5
  | .ihlOfstRng16 => 7

theorem count_eq (k : Kind) (l : List Eqn) : count k l = (ranked k.rank l).length := by
  rw [count,ranked]
  congr 1
  apply List.filter_congr
  intro e _
  cases k <;> cases e <;> rfl

/-- The rank of an equation that there is one of. -/
theorem any_single {q : Equation} {r : ℕ} (h : ∀ e : Eqn, e.single = some q ↔ e.rank = r)
    (l : List Eqn) : (l.any fun e => e.single = some q) = decide (0 < (ranked r l).length) := by
  rw [Bool.eq_iff_iff]
  simp only [List.any_eq_true,decide_eq_true_eq,h,List.length_pos_iff_exists_mem,ranked,
    List.mem_filter]

end Lists

section Canon
variable {hw : HwType} {s : Gen}

/-- Of an equation that there is one of, there is at most one. -/
def Singles (l : List Eqn) : Prop := ∀ r ∈ [0,1,2,6,8], (ranked r l).length ≤ 1

theorem Gen.Sound.hasEq_slot (hs : s.Sound hw) (k : Kind) {i : ℕ} (hi : i < 2) :
    hasEq hw s.enRule (k.slot i) = decide (i < (ranked k.rank s.out).length) := by
  simp only [hs.bits _ (valid_slot hw k i),enabledBy,k.slot_slot hi,count_eq]

theorem Gen.Sound.slots_eq (hs : s.Sound hw) (k : Kind) :
    (hasEq hw s.enRule (k.slot 0)).toNat+(hasEq hw s.enRule (k.slot 1)).toNat =
      (ranked k.rank s.out).length := by
  have hle := hs.le k
  rw [count_eq] at hle
  rw [hs.hasEq_slot k (by omega),hs.hasEq_slot k (by omega)]
  exact slots_toNat hle

theorem Gen.Sound.hasEq_single (hs : s.Sound hw) {q : Equation} {r : ℕ}
    (hv : isRuleEqValid hw q = true) (hq : q.slot = none)
    (h : ∀ e : Eqn, e.single = some q ↔ e.rank = r) :
    hasEq hw s.enRule q = decide (0 < (ranked r s.out).length) := by
  rw [hs.bits q hv,enabledBy,hq]
  exact any_single h s.out

/-- An equation there is one of is present when it was put in. -/
theorem Gen.Sound.present (hs : s.Sound hw) (q : Equation) {r : ℕ}
    (hv : isRuleEqValid hw q = true) (hq : q.slot = none)
    (h : ∀ e : Eqn, e.single = some q ↔ e.rank = r) :
    (false || hasEq hw s.enRule q) = decide (0 < (ranked r s.out).length) := by
  rw [Bool.false_or]
  exact hs.hasEq_single hv hq h

theorem Gen.Sound.protocolEqPresent (hs : s.Sound hw) :
    (s.ruleEq hw).protocolEqPresent = decide (0 < (ranked 1 s.out).length) := by
  apply hs.present .PROTOCOL_EQ (by cases hw <;> rfl) rfl
  intro e
  cases e <;> simp [Eqn.single,Eqn.rank]

theorem Gen.Sound.tcEqPresent (hs : s.Sound hw) :
    (s.ruleEq hw).tcEqPresent = decide (0 < (ranked 2 s.out).length) := by
  apply hs.present .TC_EQ (by cases hw <;> rfl) rfl
  intro e
  cases e <;> simp [Eqn.single,Eqn.rank]

theorem Gen.Sound.metadataMeq32Present (hs : s.Sound hw) :
    (s.ruleEq hw).metadataMeq32Present = decide (0 < (ranked 6 s.out).length) := by
  apply hs.present .METADATA_COMPARE (by cases hw <;> rfl) rfl
  intro e
  cases e <;> simp [Eqn.single,Eqn.rank]

theorem Gen.Sound.flEqPresent (hs : s.Sound hw) :
    (s.ruleEq hw).flEqPresent = decide (0 < (ranked 8 s.out).length) := by
  apply hs.present .FL_EQ (by cases hw <;> rfl) rfl
  intro e
  cases e <;> simp [Eqn.single,Eqn.rank]

/-- No attribute asks for the equations that compare a whole word or half-word. -/
theorem Gen.Sound.no_eq (hs : s.Sound hw) {q : Equation} (hv : isRuleEqValid hw q = true)
    (hq : q.slot = none) (h : ∀ e : Eqn, e.single ≠ some q) : hasEq hw s.enRule q = false := by
  rw [hs.bits q hv,enabledBy,hq]
  simp [h]

/-- Type of service or pure ACK, whichever the version has. -/
theorem Gen.Sound.tosEqPresent (hs : s.Sound hw) :
    (s.ruleEq hw).tosEqPresent = decide (0 < (ranked 0 s.out).length) := by
  show (false || (isRuleEqValid hw .IS_PURE_ACK && hasEq hw s.enRule .IS_PURE_ACK) ||
    (isRuleEqValid hw .TOS_EQ && hasEq hw s.enRule .TOS_EQ)) = _
  have hany : ∀ q : Equation, q.slot = none → (isRuleEqValid hw q && hasEq hw s.enRule q) =
      s.out.any fun e => e.single = some q := by
    intro q hq
    cases hv : isRuleEqValid hw q with
    | true =>
      rw [hs.bits q hv,enabledBy,hq,Bool.true_and]
    | false =>
      rw [Bool.false_and,eq_comm,List.any_eq_false]
      intro e he hh
      have hval := hs.valid e he q (by simpa using hh)
      rw [hv] at hval
      cases hval
  rw [Bool.false_or,hany _ rfl,hany _ rfl,Bool.eq_iff_iff]
  simp only [Bool.or_eq_true,List.any_eq_true,decide_eq_true_eq,List.length_pos_iff_exists_mem,
    ranked,List.mem_filter]
  constructor
  · rintro (⟨e,he,hh⟩ | ⟨e,he,hh⟩) <;> exact ⟨e,he,by cases e <;> first | rfl | cases hh⟩
  · rintro ⟨e,he,hh⟩
    cases e <;> first | exact Or.inl ⟨_,he,rfl⟩ | exact Or.inr ⟨_,he,rfl⟩ | cases hh

/-- The byte of a pure ACK is zero. -/
theorem Gen.Sound.tosEq_zero (hs : s.Sound hw) (hv : isRuleEqValid hw .IS_PURE_ACK = true) :
    (s.ruleEq hw).tosEq = 0 := by
  have htos : isRuleEqValid hw .TOS_EQ = false := by cases hw <;> first | rfl | cases hv
  show (s.out.filterMap Eqn.tosByte).headD 0 = 0
  have hall : ∀ b ∈ s.out.filterMap Eqn.tosByte, b = 0 := by
    intro b hb
    obtain ⟨e,he,hh⟩ := List.mem_filterMap.1 hb
    cases e with
    | pureAck => exact (Option.some.inj hh).symm
    | tos v =>
      have hval := hs.valid _ he .TOS_EQ rfl
      rw [htos] at hval
      cases hval
    | _ => cases hh
  cases hl : s.out.filterMap Eqn.tosByte with
  | nil => rfl
  | cons b l => exact hall b (by rw [hl]; exact List.mem_cons_self)

variable {α : Type} {f : Eqn → Option α} {w : α → List Put}

/-- An equation that there is one of, written if it is present. -/
theorem putIf_single {r : ℕ} {present : Bool} (z : α)
    (hf : ∀ e, (e.rank = r ∧ ∃ x, f e = some x ∧ e.puts = w x) ∨ (e.rank ≠ r ∧ f e = none))
    (hle : (ranked r s.out).length ≤ 1) (hp : present = decide (0 < (ranked r s.out).length)) :
    putIf present (w ((s.out.filterMap f).headD z)) = (ranked r s.out).flatMap Eqn.puts := by
  obtain ⟨hlen,hputs⟩ := flatMap_ranked hf s.out
  rw [hputs,hp,← hlen]
  rw [← hlen] at hle
  exact putIf_head w z hle

/-- The two equations of a kind, written as far as they are counted. -/
theorem Gen.Sound.putIf_kind (hs : s.Sound hw) (k : Kind) {n : ℕ} (z : α)
    (hf : ∀ e, (e.rank = k.rank ∧ ∃ x, f e = some x ∧ e.puts = w x) ∨
      (e.rank ≠ k.rank ∧ f e = none))
    (hn : n = 0+(hasEq hw s.enRule (k.slot 0)).toNat+(hasEq hw s.enRule (k.slot 1)).toNat) :
    putIf (decide (0 < n)) (w (slots (s.out.filterMap f) z).1)++
      putIf (decide (1 < n)) (w (slots (s.out.filterMap f) z).2) =
        (ranked k.rank s.out).flatMap Eqn.puts := by
  obtain ⟨hlen,hputs⟩ := flatMap_ranked hf s.out
  have hle := hs.le k
  rw [count_eq,← hlen] at hle
  rw [Nat.zero_add,hs.slots_eq k,← hlen] at hn
  rw [hputs,hn]
  exact putIf_slots w z hle

/-- The writer of equations puts them in the order of their ranks. -/
theorem Gen.Sound.bdyPuts_eq (hs : s.Sound hw) (h1 : Singles s.out) :
    bdyPuts hw (s.ruleEq hw) = (byRank Eqn.rank 9 s.out).flatMap Eqn.puts := by
  have htos : putIf (s.ruleEq hw).tosEqPresent
      [.extra (if isRuleEqValid hw .IS_PURE_ACK then 0 else (s.ruleEq hw).tosEq)] =
        (ranked 0 s.out).flatMap Eqn.puts := by
    have hbyte : (if isRuleEqValid hw .IS_PURE_ACK then 0 else (s.ruleEq hw).tosEq) =
        (s.ruleEq hw).tosEq := by
      split
      next hv => exact (hs.tosEq_zero hv).symm
      next => rfl
    rw [hbyte]
    exact putIf_single (f := Eqn.tosByte) (w := fun v => [.extra v]) 0
      (fun e => by cases e <;> simp [Eqn.rank,Eqn.tosByte,Eqn.puts]) (h1 0 (by simp))
      hs.tosEqPresent
  have hprotocol : putIf (s.ruleEq hw).protocolEqPresent [.extra (s.ruleEq hw).protocolEq] =
      (ranked 1 s.out).flatMap Eqn.puts :=
    putIf_single (f := Eqn.protocolByte) (w := fun v => [.extra v]) 0
      (fun e => by cases e <;> simp [Eqn.rank,Eqn.protocolByte,Eqn.puts]) (h1 1 (by simp))
      hs.protocolEqPresent
  have htc : putIf (s.ruleEq hw).tcEqPresent [.extra (s.ruleEq hw).tcEq] =
      (ranked 2 s.out).flatMap Eqn.puts :=
    putIf_single (f := Eqn.tcByte) (w := fun v => [.extra v]) 0
      (fun e => by cases e <;> simp [Eqn.rank,Eqn.tcByte,Eqn.puts]) (h1 2 (by simp))
      hs.tcEqPresent
  have h128 := hs.putIf_kind .ofstMeq128 (f := Eqn.meq128) (w := putMeq128) .zero
    (fun e => by cases e <;> simp [Eqn.rank,Kind.rank,Eqn.meq128,Eqn.puts]) rfl
  have h32 := hs.putIf_kind .ofstMeq32 (f := Eqn.meq32) (w := putMeq32) .zero
    (fun e => by cases e <;> simp [Eqn.rank,Kind.rank,Eqn.meq32,Eqn.puts]) rfl
  have hihl := hs.putIf_kind .ihlOfstMeq32 (f := Eqn.ihlMeq32) (w := putMeq32) .zero
    (fun e => by cases e <;> simp [Eqn.rank,Kind.rank,Eqn.ihlMeq32,Eqn.puts]) rfl
  have hmeta : putIf (s.ruleEq hw).metadataMeq32Present
      [put32 (s.ruleEq hw).metadataMeq32.mask,put32 (s.ruleEq hw).metadataMeq32.value] =
        (ranked 6 s.out).flatMap Eqn.puts :=
    putIf_single (f := Eqn.metadataMeq32) (w := fun e => [put32 e.mask,put32 e.value]) .zero
      (fun e => by cases e <;> simp [Eqn.rank,Eqn.metadataMeq32,Eqn.puts]) (h1 6 (by simp))
      hs.metadataMeq32Present
  have hrange := hs.putIf_kind .ihlOfstRng16 (f := Eqn.range16) (w := putRange16) .zero
    (fun e => by cases e <;> simp [Eqn.rank,Kind.rank,Eqn.range16,Eqn.puts]) rfl
  have hfl : putIf (s.ruleEq hw).flEqPresent [put32 ((s.ruleEq hw).flEq &&& 0xFFFFF)] =
      (ranked 8 s.out).flatMap Eqn.puts :=
    putIf_single (f := Eqn.flow) (w := fun v => [put32 (v &&& 0xFFFFF)]) 0
      (fun e => by cases e <;> simp [Eqn.rank,Eqn.flow,Eqn.puts,UInt32.and_assoc])
      (h1 8 (by simp)) hs.flEqPresent
  have heq32 : (s.ruleEq hw).ihlOffsetEq32Present = false := by
    show (false || hasEq hw s.enRule .IHL_OFFSET_EQ_32) = false
    rw [Bool.false_or]
    exact hs.no_eq (by cases hw <;> rfl) rfl fun e => by cases e <;> simp [Eqn.single]
  have heq16 : (s.ruleEq hw).ihlOffsetEq16Present = false := by
    show (false || hasEq hw s.enRule .IHL_OFFSET_EQ_16) = false
    rw [Bool.false_or]
    exact hs.no_eq (by cases hw <;> rfl) rfl fun e => by cases e <;> simp [Eqn.single]
  have hcanon : (byRank Eqn.rank 9 s.out).flatMap Eqn.puts =
      (List.range 9).flatMap fun r => (ranked r s.out).flatMap Eqn.puts := by
    simp only [byRank,ranked,List.flatMap_assoc]
  have hrange9 : List.range 9 = [0,1,2,3,4,5,6,7,8] := by decide
  rw [hcanon,hrange9]
  simp only [List.flatMap_cons,List.flatMap_nil,List.append_nil]
  rw [← htos,← hprotocol,← htc,← hmeta,← hfl]
  simp only [Kind.rank] at h128 h32 hihl hrange
  rw [← h128,← h32,← hihl,← hrange]
  simp only [bdyPuts,heq32,heq16,List.flatten_cons,List.flatten_nil,List.append_assoc,
    List.append_nil]
  rfl

end Canon

section Parse
variable {hw : HwType} {s : Gen} {α : Type} {f : Eqn → Option α}

theorem headD_cases (l : List α) (z : α) : l.headD z = z ∨ l.headD z ∈ l := by
  cases l with
  | nil => exact Or.inl rfl
  | cons x l => exact Or.inr List.mem_cons_self

theorem Gen.Sound.slotsAgree (hs : s.Sound hw) (k : Kind) {num : ℕ}
    (hn : num = 0+(hasEq hw s.enRule (k.slot 0)).toNat+(hasEq hw s.enRule (k.slot 1)).toNat) :
    SlotsAgree hw s.enRule num (k.slot 0) (k.slot 1) := by
  refine ⟨by rw [hn,Nat.zero_add],?_⟩
  rw [hs.hasEq_slot k (by omega),hs.hasEq_slot k (by omega)]
  simp only [decide_eq_true_eq]
  omega

/-- The flags and counts of the equations are those of the bitmap. -/
theorem Gen.Sound.agrees (hs : s.Sound hw) : Agrees hw (s.ruleEq hw) where
  bitmap := hs.lt
  tos := by
    show (false || _ || _) = _
    rw [Bool.false_or]
    rfl
  pureAck hv _ := hs.tosEq_zero hv
  protocol := Bool.false_or _
  tc := Bool.false_or _
  offsetMeq128 := hs.slotsAgree .ofstMeq128 rfl
  offsetMeq32 := hs.slotsAgree .ofstMeq32 rfl
  ihlOffsetMeq32 := hs.slotsAgree .ihlOfstMeq32 rfl
  metadata := Bool.false_or _
  metadataOffset _ := by
    show ((s.out.filterMap Eqn.metadataMeq32).headD .zero).offset = 0
    rcases headD_cases (s.out.filterMap Eqn.metadataMeq32) .zero with hh | hh
    · rw [hh]
      rfl
    · obtain ⟨e,_,he⟩ := List.mem_filterMap.1 hh
      cases e with
      | metaData mask value => rw [← Option.some.inj he]
      | _ => cases he
  ihlOffsetRange16 := hs.slotsAgree .ihlOfstRng16 rfl
  eq32 := Bool.false_or _
  eq16 := Bool.false_or _
  fl := Bool.false_or _
  flLt _ := by
    show ((s.out.filterMap Eqn.flow).headD 0).toNat < 2^20
    rcases headD_cases (s.out.filterMap Eqn.flow) 0 with hh | hh
    · rw [hh]
      decide
    · obtain ⟨e,_,he⟩ := List.mem_filterMap.1 hh
      cases e with
      | fl v =>
        rw [← Option.some.inj he,UInt32.toNat_and]
        exact Nat.lt_of_le_of_lt Nat.and_le_right (by decide)
      | _ => cases he
  frag := Bool.false_or _

theorem headD_unused {r : ℕ} {present : Bool} (z : α)
    (hf : ∀ e, (e.rank = r ∧ ∃ x, f e = some x) ∨ (e.rank ≠ r ∧ f e = none))
    (hp : present = decide (0 < (ranked r s.out).length)) :
    (if present then (s.out.filterMap f).headD z else z) = (s.out.filterMap f).headD z := by
  split
  next => rfl
  next hne =>
    have hnil : ranked r s.out = [] := by
      rw [hp] at hne
      simpa using hne
    have hfm : s.out.filterMap f = [] := by
      rw [List.filterMap_eq_nil_iff]
      intro e he
      rcases hf e with ⟨hr,_⟩ | ⟨_,hnone⟩
      · have hmem : e ∈ ranked r s.out := List.mem_filter.2 ⟨he,by simpa using hr⟩
        rw [hnil] at hmem
        cases hmem
      · exact hnone
    rw [hfm]
    rfl

theorem slots_unused {n : ℕ} (l : List α) (z : α) (h : l.length = n) :
    (if 0 < n then (slots l z).1 else z,if 1 < n then (slots l z).2 else z) = slots l z := by
  subst h
  match l with
  | [] => rfl
  | [_] => rfl
  | _::_::_ => simp

theorem Gen.Sound.slots_clean (hs : s.Sound hw) (k : Kind) {n : ℕ} (z : α)
    (hf : ∀ e, (e.rank = k.rank ∧ ∃ x, f e = some x) ∨ (e.rank ≠ k.rank ∧ f e = none))
    (hn : n = 0+(hasEq hw s.enRule (k.slot 0)).toNat+(hasEq hw s.enRule (k.slot 1)).toNat) :
    (if 0 < n then (slots (s.out.filterMap f) z).1 else z,
      if 1 < n then (slots (s.out.filterMap f) z).2 else z) = slots (s.out.filterMap f) z := by
  apply slots_unused
  rw [hn,Nat.zero_add,hs.slots_eq k,ranked]
  clear hn hs
  induction s.out with
  | nil => rfl
  | cons e l ih =>
    rcases hf e with ⟨hr,x,hx⟩ | ⟨hr,hx⟩
    · rw [List.filterMap_cons_some hx,List.filter_cons_of_pos (by simpa using hr)]
      exact congrArg _ ih
    · rw [List.filterMap_cons_none hx,List.filter_cons_of_neg (by simpa using hr)]
      exact ih

/-- What no attribute has asked for is zero. -/
theorem Gen.Sound.clean_eq (hs : s.Sound hw) : (s.ruleEq hw).clean = s.ruleEq hw := by
  have htos : (if (s.ruleEq hw).tosEqPresent then (s.ruleEq hw).tosEq else 0) =
      (s.ruleEq hw).tosEq := headD_unused (f := Eqn.tosByte) 0
    (fun e => by cases e <;> simp [Eqn.rank,Eqn.tosByte]) hs.tosEqPresent
  have hprotocol : (if (s.ruleEq hw).protocolEqPresent then (s.ruleEq hw).protocolEq else 0) =
      (s.ruleEq hw).protocolEq := headD_unused (f := Eqn.protocolByte) 0
    (fun e => by cases e <;> simp [Eqn.rank,Eqn.protocolByte]) hs.protocolEqPresent
  have htc : (if (s.ruleEq hw).tcEqPresent then (s.ruleEq hw).tcEq else 0) =
      (s.ruleEq hw).tcEq := headD_unused (f := Eqn.tcByte) 0
    (fun e => by cases e <;> simp [Eqn.rank,Eqn.tcByte]) hs.tcEqPresent
  have hmeta : (if (s.ruleEq hw).metadataMeq32Present then (s.ruleEq hw).metadataMeq32
      else .zero) = (s.ruleEq hw).metadataMeq32 := headD_unused (f := Eqn.metadataMeq32) .zero
    (fun e => by cases e <;> simp [Eqn.rank,Eqn.metadataMeq32]) hs.metadataMeq32Present
  have hfl : (if (s.ruleEq hw).flEqPresent then (s.ruleEq hw).flEq else 0) =
      (s.ruleEq hw).flEq := headD_unused (f := Eqn.flow) 0
    (fun e => by cases e <;> simp [Eqn.rank,Eqn.flow]) hs.flEqPresent
  have h128 : (if 0 < (s.ruleEq hw).numOffsetMeq128 then (s.ruleEq hw).offsetMeq128.1 else .zero,
      if 1 < (s.ruleEq hw).numOffsetMeq128 then (s.ruleEq hw).offsetMeq128.2 else .zero) =
        (s.ruleEq hw).offsetMeq128 := hs.slots_clean .ofstMeq128 (f := Eqn.meq128) .zero
    (fun e => by cases e <;> simp [Eqn.rank,Kind.rank,Eqn.meq128]) rfl
  have h32 : (if 0 < (s.ruleEq hw).numOffsetMeq32 then (s.ruleEq hw).offsetMeq32.1 else .zero,
      if 1 < (s.ruleEq hw).numOffsetMeq32 then (s.ruleEq hw).offsetMeq32.2 else .zero) =
        (s.ruleEq hw).offsetMeq32 := hs.slots_clean .ofstMeq32 (f := Eqn.meq32) .zero
    (fun e => by cases e <;> simp [Eqn.rank,Kind.rank,Eqn.meq32]) rfl
  have hihl : (if 0 < (s.ruleEq hw).numIhlOffsetMeq32 then (s.ruleEq hw).ihlOffsetMeq32.1
        else .zero,
      if 1 < (s.ruleEq hw).numIhlOffsetMeq32 then (s.ruleEq hw).ihlOffsetMeq32.2 else .zero) =
        (s.ruleEq hw).ihlOffsetMeq32 := hs.slots_clean .ihlOfstMeq32 (f := Eqn.ihlMeq32) .zero
    (fun e => by cases e <;> simp [Eqn.rank,Kind.rank,Eqn.ihlMeq32]) rfl
  have hrange : (if 0 < (s.ruleEq hw).numIhlOffsetRange16 then (s.ruleEq hw).ihlOffsetRange16.1
        else .zero,
      if 1 < (s.ruleEq hw).numIhlOffsetRange16 then (s.ruleEq hw).ihlOffsetRange16.2
        else .zero) =
        (s.ruleEq hw).ihlOffsetRange16 := hs.slots_clean .ihlOfstRng16 (f := Eqn.range16) .zero
    (fun e => by cases e <;> simp [Eqn.rank,Kind.rank,Eqn.range16]) rfl
  have heq32 : (if (s.ruleEq hw).ihlOffsetEq32Present then (s.ruleEq hw).ihlOffsetEq32
      else .zero) = (s.ruleEq hw).ihlOffsetEq32 := ite_self Eq32.zero
  have heq16 : (if (s.ruleEq hw).ihlOffsetEq16Present then (s.ruleEq hw).ihlOffsetEq16
      else .zero) = (s.ruleEq hw).ihlOffsetEq16 := ite_self Eq16.zero
  rw [RuleEq.clean,htos,hprotocol,htc,hmeta,hfl,heq32,heq16,h128,h32,hihl,hrange]

/-- `pad64` fills up to a multiple of 8. -/
theorem length_pad64 (bs : List UInt8) : (pad64 bs).length = alignRule bs.length := by
  rw [pad64,List.length_append,List.length_replicate,alignRule]
  omega

theorem bdyStart_snd {n : ℕ} (hn : n ≤ 13) (buf : ℕ) : (bdyStart n buf).2 = buf+alignRule n := by
  unfold bdyStart IPA3_0_HW_TBL_HDR_WIDTH alignRule
  split
  · show buf+8*2 = _
    omega
  · split
    · show buf+8 = _
      omega
    · show buf = _
      omega

/-- The two buffers, read back from where they were copied to. -/
theorem Gen.Sound.parse_body (hs : s.Sound hw)
    (hextra : extras s.puts = extras (bdyPuts hw (s.ruleEq hw)))
    (hrest : rests s.puts = rests (bdyPuts hw (s.ruleEq hw))) (mem : Mem) {addr : ℕ}
    (haddr : 8 ∣ addr) :
    parseHwRuleEq hw (write mem (addr+8) s.body) addr 8 (RuleEq.zeroed s.enRule) =
      .ok (s.ruleEq hw,8+s.body.length) := by
  have hagrees := hs.agrees
  have hn := calcExtraWrdBytes_le hagrees
  have hlen := length_extras_bdyPuts hagrees
  have hstart := bdyStart_snd hn (addr+8)
  have hbody := holds_write mem (addr+8) s.body
  have hpad : (pad64 (extras s.puts)).length = alignRule (calcExtraWrdBytes (s.ruleEq hw)) := by
    rw [length_pad64,hextra,hlen]
  have hlength : s.body.length = alignRule (calcExtraWrdBytes (s.ruleEq hw))+
      alignRule (rests s.puts).length := by
    rw [Gen.body,List.length_append,hpad,length_pad64]
  nth_rewrite 2 [Gen.body] at hbody
  obtain ⟨hfirst,hsecond⟩ := holds_append.1 hbody
  rw [pad64,holds_append,hextra] at hfirst
  rw [hpad,← hstart,pad64,holds_append,hrest] at hsecond
  have hat : At (write mem (addr+8) s.body) (bodyCursor (s.ruleEq hw) (addr+8))
      (bdyPuts hw (s.ruleEq hw)) := by
    refine ⟨?_,hsecond.1⟩
    unfold bodyCursor
    cases hsome : (bdyStart (calcExtraWrdBytes (s.ruleEq hw)) (addr+8)).1 with
    | none =>
      rw [bdyStart_none hsome,List.length_eq_zero_iff] at hlen
      rw [hlen]
      exact holds_nil _ _
    | some e =>
      obtain ⟨rfl,_⟩ := bdyStart_some hn (by omega) hsome
      exact hfirst.1
  have hparse := parseHwRuleEq_spec hagrees hat
  rw [hs.clean_eq] at hparse
  refine hparse.trans ?_
  rw [hlength,bodyEnd,hstart,← hrest]
  congr 3
  unfold alignRule
  omega

end Parse

end IpaRule
end MarbleModules
