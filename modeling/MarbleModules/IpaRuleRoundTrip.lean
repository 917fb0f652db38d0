import MarbleModules.IpaRuleEq

/-! What is written for a set of equations is read back as the same set, rule by rule through a
table. -/
namespace MarbleModules
namespace IpaRule
open TwoCursors

/-- The set of equations with all that is not in use zeroed. -/
def RuleEq.clean (a : RuleEq) : RuleEq :=
  {a with
    tosEq := if a.tosEqPresent then a.tosEq else 0
    protocolEq := if a.protocolEqPresent then a.protocolEq else 0
    tcEq := if a.tcEqPresent then a.tcEq else 0
    offsetMeq128 := (if 0 < a.numOffsetMeq128 then a.offsetMeq128.1 else .zero,
      if 1 < a.numOffsetMeq128 then a.offsetMeq128.2 else .zero)
    offsetMeq32 := (if 0 < a.numOffsetMeq32 then a.offsetMeq32.1 else .zero,
      if 1 < a.numOffsetMeq32 then a.offsetMeq32.2 else .zero)
    ihlOffsetMeq32 := (if 0 < a.numIhlOffsetMeq32 then a.ihlOffsetMeq32.1 else .zero,
      if 1 < a.numIhlOffsetMeq32 then a.ihlOffsetMeq32.2 else .zero)
    metadataMeq32 := if a.metadataMeq32Present then a.metadataMeq32 else .zero
    ihlOffsetRange16 := (if 0 < a.numIhlOffsetRange16 then a.ihlOffsetRange16.1 else .zero,
      if 1 < a.numIhlOffsetRange16 then a.ihlOffsetRange16.2 else .zero)
    ihlOffsetEq32 := if a.ihlOffsetEq32Present then a.ihlOffsetEq32 else .zero
    ihlOffsetEq16 := if a.ihlOffsetEq16Present then a.ihlOffsetEq16 else .zero
    flEq := if a.flEqPresent then a.flEq else 0}

/-- The flags and counts of a set of equations, without its parameters. -/
def RuleEq.blank (a : RuleEq) : RuleEq :=
  {RuleEq.zeroed a.ruleEqBitmap with
    tosEqPresent := a.tosEqPresent
    protocolEqPresent := a.protocolEqPresent
    tcEqPresent := a.tcEqPresent
    numOffsetMeq128 := a.numOffsetMeq128
    numOffsetMeq32 := a.numOffsetMeq32
    numIhlOffsetMeq32 := a.numIhlOffsetMeq32
    metadataMeq32Present := a.metadataMeq32Present
    numIhlOffsetRange16 := a.numIhlOffsetRange16
    ihlOffsetEq32Present := a.ihlOffsetEq32Present
    ihlOffsetEq16Present := a.ihlOffsetEq16Present
    flEqPresent := a.flEqPresent
    ipv4FragEqPresent := a.ipv4FragEqPresent}

/-- A count is that of the two slots, of which the second is in use only with the first. -/
def SlotsAgree (hw : HwType) (bitmap num : ℕ) (eq0 eq1 : Equation) : Prop :=
  num = (hasEq hw bitmap eq0).toNat+(hasEq hw bitmap eq1).toNat ∧
    (hasEq hw bitmap eq1 → hasEq hw bitmap eq0)

/-- Flags and counts agree with the bitmap, and the parameters are what a rule can hold. -/
structure Agrees (hw : HwType) (a : RuleEq) : Prop where
  bitmap : a.ruleEqBitmap < 2^16
  tos : a.tosEqPresent = ((isRuleEqValid hw .IS_PURE_ACK && hasEq hw a.ruleEqBitmap .IS_PURE_ACK) ||
    (isRuleEqValid hw .TOS_EQ && hasEq hw a.ruleEqBitmap .TOS_EQ))
  pureAck : isRuleEqValid hw .IS_PURE_ACK → a.tosEqPresent → a.tosEq = 0
  protocol : a.protocolEqPresent = hasEq hw a.ruleEqBitmap .PROTOCOL_EQ
  tc : a.tcEqPresent = hasEq hw a.ruleEqBitmap .TC_EQ
  offsetMeq128 : SlotsAgree hw a.ruleEqBitmap a.numOffsetMeq128 .OFFSET_MEQ128_0 .OFFSET_MEQ128_1
  offsetMeq32 : SlotsAgree hw a.ruleEqBitmap a.numOffsetMeq32 .OFFSET_MEQ32_0 .OFFSET_MEQ32_1
  ihlOffsetMeq32 :
    SlotsAgree hw a.ruleEqBitmap a.numIhlOffsetMeq32 .IHL_OFFSET_MEQ32_0 .IHL_OFFSET_MEQ32_1
  metadata : a.metadataMeq32Present = hasEq hw a.ruleEqBitmap .METADATA_COMPARE
  metadataOffset : a.metadataMeq32Present → a.metadataMeq32.offset = 0
  ihlOffsetRange16 :
    SlotsAgree hw a.ruleEqBitmap a.numIhlOffsetRange16 .IHL_OFFSET_RANGE16_0 .IHL_OFFSET_RANGE16_1
  eq32 : a.ihlOffsetEq32Present = hasEq hw a.ruleEqBitmap .IHL_OFFSET_EQ_32
  eq16 : a.ihlOffsetEq16Present = hasEq hw a.ruleEqBitmap .IHL_OFFSET_EQ_16
  fl : a.flEqPresent = hasEq hw a.ruleEqBitmap .FL_EQ
  flLt : a.flEqPresent → a.flEq.toNat < 2^20
  frag : a.ipv4FragEqPresent = hasEq hw a.ruleEqBitmap .IS_FRAG

section Parameters

theorem Bytes16.ofList_coe (b : Bytes16) : Bytes16.ofList b.1 = b := by
  rw [Bytes16.ofList,dif_pos b.2]

theorem Bytes16.ofList_halves (b : Bytes16) :
    Bytes16.ofList (b.1.take 8++b.1.drop 8) = b := by
  rw [List.take_append_drop,Bytes16.ofList_coe]

/-- A byte string of known length is read back. -/
theorem inverse_getRest_of_length (bs : List UInt8) {n : ℕ} (h : bs.length = n) :
    Inverse [.rest bs] (getRest n) bs := h ▸ inverse_getRest bs

theorem inverse_get16 (w : UInt16) : Inverse ([put16 w]++[]) get16 w := by
  refine (inverse_getRest_of_length _ (length_leBytes 2 w.toNat)).bind ?_
  rw [leVal_leBytes_of_lt w.toNat_lt,UInt16.ofNat_toNat]
  exact inverse_pure w

theorem inverse_get32 (w : UInt32) : Inverse ([put32 w]++[]) get32 w := by
  refine (inverse_getRest_of_length _ (length_leBytes 4 w.toNat)).bind ?_
  rw [leVal_leBytes_of_lt w.toNat_lt,UInt32.ofNat_toNat]
  exact inverse_pure w

theorem inverse_getMeq128 (e : MaskEq128) : Inverse (putMeq128 e) getMeq128 e := by
  have hm := e.mask.2
  have hv := e.value.2
  refine (inverse_getExtra e.offset).bind ?_
  refine (inverse_getRest_of_length (e.mask.1.take 8) (by simp [hm])).bind ?_
  refine (inverse_getRest_of_length (e.value.1.take 8) (by simp [hv])).bind ?_
  refine (inverse_getRest_of_length (e.mask.1.drop 8) (by simp [hm])).bind ?_
  refine (inverse_getRest_of_length (e.value.1.drop 8) (by simp [hv])).bind ?_
  rw [Bytes16.ofList_halves,Bytes16.ofList_halves]
  exact inverse_pure e

theorem inverse_getMeq32 (e : MaskEq32) : Inverse (putMeq32 e) getMeq32 e := by
  refine (inverse_getExtra e.offset).bind ?_
  refine (inverse_get32 e.mask).bind ?_
  exact (inverse_get32 e.value).bind (inverse_pure e)

theorem inverse_getMetadata {e : MaskEq32} (h : e.offset = 0) :
    Inverse [put32 e.mask,put32 e.value] (getMetadata 0) e := by
  refine (inverse_get32 e.mask).bind ?_
  refine (inverse_get32 e.value).bind ?_
  rw [← h]
  exact inverse_pure e

theorem inverse_getRange16 (e : RangeEq16) : Inverse (putRange16 e) getRange16 e := by
  refine (inverse_getExtra e.offset).bind ?_
  refine (inverse_get16 e.rangeHigh).bind ?_
  exact (inverse_get16 e.rangeLow).bind (inverse_pure e)

theorem inverse_getEq32 (e : Eq32) : Inverse [.extra e.offset,put32 e.value] getEq32 e := by
  refine (inverse_getExtra e.offset).bind ?_
  exact (inverse_get32 e.value).bind (inverse_pure e)

theorem inverse_getEq16 (e : Eq16) :
    Inverse [.extra e.offset,put16 e.value,put16 0] getEq16 e := by
  refine (inverse_getExtra e.offset).bind ?_
  refine (inverse_get16 e.value).bind ?_
  exact (inverse_getRest_of_length _ (length_leBytes 2 (0 : UInt16).toNat)).bind (inverse_pure e)

/-- The byte of a pure ACK is skipped. -/
theorem inverse_getAck :
    Inverse [.extra 0] (do let _ ← getExtra; pure 0 : Get UInt8) 0 :=
  (inverse_getExtra 0).bind (inverse_pure 0)

theorem and_flMask {w : UInt32} (h : w.toNat < 2^20) : w &&& 0xFFFFF = w := by
  apply UInt32.toNat_inj.mp
  rw [UInt32.toNat_and]
  show w.toNat &&& (2^20-1) = _
  rw [Nat.and_two_pow_sub_one_eq_mod,Nat.mod_eq_of_lt h]

theorem inverse_getFl {w : UInt32} (h : w.toNat < 2^20) :
    Inverse ([put32 (w &&& 0xFFFFF)]++[]) getFl w := by
  rw [and_flMask h]
  refine (inverse_get32 w).bind ?_
  rw [and_flMask h]
  exact inverse_pure w

end Parameters

section Rule
variable {hw : HwType} {a : RuleEq}

/-- A parser that starts from a zeroed structure finds the flags and counts in the bitmap. -/
theorem presentFromBitmap_zeroed (h : Agrees hw a) :
    presentFromBitmap hw (RuleEq.zeroed a.ruleEqBitmap) = a.blank := by
  simp only [presentFromBitmap,RuleEq.zeroed,RuleEq.blank,Bool.false_or,Nat.zero_add,
    h.tos,h.protocol,h.tc,h.offsetMeq128.1,h.offsetMeq32.1,h.ihlOffsetMeq32.1,h.metadata,
    h.ihlOffsetRange16.1,h.eq32,h.eq16,h.fl,h.frag]

/-- Type of service and pure ACK, of which a version has one. -/
theorem putTos_eq (hw : HwType) (p : Bool) (tos : UInt8) :
    putIf p [.extra (if isRuleEqValid hw .IS_PURE_ACK then 0 else tos)] =
      putIf (isRuleEqValid hw .TOS_EQ && p) [.extra tos]++
        putIf (isRuleEqValid hw .IS_PURE_ACK && p) [.extra 0] := by
  cases hw <;> cases p <;> rfl

theorem cleanTos_eq (h : Agrees hw a) :
    (if isRuleEqValid hw .IS_PURE_ACK && a.tosEqPresent then 0
      else if isRuleEqValid hw .TOS_EQ && a.tosEqPresent then a.tosEq else 0)
      = a.clean.tosEq := by
  show _ = if a.tosEqPresent then a.tosEq else 0
  have hp := h.pureAck
  cases ht : a.tosEqPresent
  · simp
  · rw [ht] at hp
    cases hw with
    | v3_0 | v4_0 | v4_2 => rfl
    | v4_5 | v5_0 => exact (hp rfl rfl).symm

/-- The parser of the parameters takes back what the writer has written. -/
theorem inverse_readEqs (h : Agrees hw a) :
    Inverse (bdyPuts hw a) (readEqs hw a.blank) a.clean := by
  have htos := cleanTos_eq h
  have hmeta : a.metadataMeq32Present →
      Inverse [put32 a.metadataMeq32.mask,put32 a.metadataMeq32.value]
        (getMetadata a.blank.metadataMeq32.offset) a.metadataMeq32 :=
    fun hm => inverse_getMetadata (h.metadataOffset hm)
  simp only [bdyPuts,List.flatten_cons,List.flatten_nil,putTos_eq,List.append_assoc]
  refine (Inverse.ite fun _ => inverse_getExtra a.tosEq).bind ?_
  refine (Inverse.ite fun _ => inverse_getAck).bind ?_
  refine (Inverse.ite fun _ => inverse_getExtra a.protocolEq).bind ?_
  refine (Inverse.ite fun _ => inverse_getExtra a.tcEq).bind ?_
  refine (Inverse.ite fun _ => inverse_getMeq128 a.offsetMeq128.1).bind ?_
  refine (Inverse.ite fun _ => inverse_getMeq128 a.offsetMeq128.2).bind ?_
  refine (Inverse.ite fun _ => inverse_getMeq32 a.offsetMeq32.1).bind ?_
  refine (Inverse.ite fun _ => inverse_getMeq32 a.offsetMeq32.2).bind ?_
  refine (Inverse.ite fun _ => inverse_getMeq32 a.ihlOffsetMeq32.1).bind ?_
  refine (Inverse.ite fun _ => inverse_getMeq32 a.ihlOffsetMeq32.2).bind ?_
  refine (Inverse.ite hmeta).bind ?_
  refine (Inverse.ite fun _ => inverse_getRange16 a.ihlOffsetRange16.1).bind ?_
  refine (Inverse.ite fun _ => inverse_getRange16 a.ihlOffsetRange16.2).bind ?_
  refine (Inverse.ite fun _ => inverse_getEq32 a.ihlOffsetEq32).bind ?_
  refine (Inverse.ite fun _ => inverse_getEq16 a.ihlOffsetEq16).bind ?_
  refine (Inverse.ite fun hf => inverse_getFl (h.flLt hf)).bind ?_
  simp only [decide_eq_true_eq]
  show Inverse [] (pure {a.clean with
    tosEq := if isRuleEqValid hw .IS_PURE_ACK && a.tosEqPresent then 0
      else if isRuleEqValid hw .TOS_EQ && a.tosEqPresent then a.tosEq else 0}) a.clean
  rw [htos]
  exact inverse_pure a.clean

end Rule
end IpaRule
end MarbleModules
