import MarbleModules.QdfIntParse

/-! Which strings the 64-bit integer parsers get right: a literal without digits is taken for
zero, and a numeral that is too large for 64 bits slips through when its running value never
drops modulo 2^64. -/
namespace MarbleModules
namespace QdfTypes

/-- The range of `int64_t`. -/
def InRange (n : ℤ) : Prop := -2^63 ≤ n ∧ n < 2^63

/-- The parsers of 64 bits are exact on `s`. -/
structure Exact64 (s : List UInt8) : Prop where
  uint64 : ∀ v, uint64Parse s = .ok v ↔
    ∃ l : Literal, l.IsNumeral ∧ l.sign ≠ .minus ∧ l.Writes s ∧ l.magnitude = v.toNat
  uint64_range : ∀ l : Literal, l.IsNumeral → l.sign ≠ .minus → l.Writes s →
    2^64 ≤ l.magnitude → uint64Parse s = .error .eRange
  int64 : ∀ v, int64Parse s = .ok v ↔
    ∃ l : Literal, l.IsNumeral ∧ l.Writes s ∧ l.value = v.toInt
  int64_range : ∀ l : Literal, l.IsNumeral → l.Writes s →
    ¬ InRange l.value → int64Parse s = .error .eRange

/-- `s` announces a radix and has no digit. -/
def BareRadix (s : List UInt8) : Prop := ∃ l : Literal, l.Writes s ∧ ¬ l.IsNumeral

/-- `s` is a numeral of more than 64 bits whose running value never drops modulo 2^64; a
negative one slips through `qdf_int64_parse` only. -/
def SlipsOver (s : List UInt8) : Prop :=
  ∃ l : Literal, l.Writes s ∧ 2^64 ≤ l.magnitude ∧
    Numerals.Rising (2^64) l.radix.base 0 (l.digits.map digitValue) ∧
      (l.sign = .minus → l.magnitude % 2^64 ≤ 2^63)

def signed (negate : Bool) (v : ℕ) : ℤ := if negate then -(v : ℤ) else v

theorem toInt_toInt64 (v : UInt64) :
    v.toInt64.toInt = if v.toNat < 2^63 then (v.toNat : ℤ) else v.toNat-2^64 := by
  have hlt := v.toNat_lt
  change v.toBitVec.toInt = _
  rw [BitVec.toInt_eq_toNat_cond]
  change (if 2*v.toNat < 2^64 then _ else _) = _
  split_ifs <;> first | rfl | omega

theorem toNat_neg (v : UInt64) : (-v).toNat = if v.toNat = 0 then 0 else 2^64-v.toNat := by
  have hlt := v.toNat_lt
  rw [UInt64.toNat_neg]
  split_ifs with h0
  · simp [h0]
  · exact Nat.mod_eq_of_lt (by simp; omega)

/-- A range check that is right about `n` lets exactly the values in range through. -/
theorem checked_iff_inRange {x : Int64} {bad : Prop} [Decidable bad] {n : ℤ}
    (hok : ¬ bad → x.toInt = n) (hbad : bad → ¬ InRange n) :
    (∀ r, (if bad then .error .eRange else .ok x : Except QdfStatus Int64) = .ok r ↔
      r.toInt = n) ∧
      (¬ InRange n → (if bad then .error .eRange else .ok x : Except QdfStatus Int64) =
        .error .eRange) := by
  have hrange (r : Int64) : InRange r.toInt := ⟨r.le_toInt,r.toInt_lt⟩
  by_cases h : bad
  · simp only [if_pos h,reduceCtorEq,false_iff,implies_true,and_true]
    rintro r rfl
    exact hbad h (hrange r)
  · simp only [if_neg h,Except.ok.injEq,← hok h,Int64.toInt_inj]
    exact ⟨fun r => eq_comm,fun hn => absurd (hrange x) hn⟩

/-- `qdf_int64_parse` gives the signed value, or is out of range. -/
theorem int64Parse_of_intParse {s : List UInt8} {v : UInt64} {negate : Bool}
    (h : intParse s = .ok (v,negate)) :
    (∀ r, int64Parse s = .ok r ↔ r.toInt = signed negate v.toNat) ∧
      (¬ InRange (signed negate v.toNat) → int64Parse s = .error .eRange) := by
  have hlt := v.toNat_lt
  rw [int64Parse,h]
  cases negate with
  | true =>
    have hneg := toInt_toInt64 (-v)
    rw [toNat_neg] at hneg
    have hsign : 0 < (-v).toInt64 ↔ 2^63 < v.toNat := by
      rw [Int64.lt_iff_toInt_lt,hneg,Int64.toInt_zero]
      split_ifs <;> omega
    refine checked_iff_inRange (fun hok => ?_) fun hbad => ?_
    · rw [hsign] at hok
      rw [hneg,signed,if_pos rfl]
      split_ifs <;> omega
    · rw [hsign] at hbad
      rw [InRange,signed,if_pos rfl]
      omega
  | false =>
    have hpos := toInt_toInt64 v
    have hsign : v.toInt64 < 0 ↔ 2^63 ≤ v.toNat := by
      rw [Int64.lt_iff_toInt_lt,hpos,Int64.toInt_zero]
      split_ifs <;> omega
    refine checked_iff_inRange (fun hok => ?_) fun hbad => ?_
    · rw [hsign] at hok
      rw [hpos,signed,if_neg Bool.false_ne_true,if_pos (by omega)]
    · rw [hsign] at hbad
      rw [InRange,signed,if_neg Bool.false_ne_true]
      omega

theorem signed_magnitude (l : Literal) :
    signed (decide (l.sign = .minus)) l.magnitude = l.value := by
  by_cases h : l.sign = .minus <;> simp [signed,Literal.value,h]

theorem uint64Parse_of_intParse {s : List UInt8} {v : UInt64} {negate : Bool}
    (h : intParse s = .ok (v,negate)) :
    uint64Parse s = if negate then .error .eRange else .ok v := by rw [uint64Parse,h]

theorem int64Parse_of_error {s : List UInt8} {status : QdfStatus}
    (h : intParse s = .error status) : int64Parse s = .error status := by rw [int64Parse,h]

theorem uint64Parse_of_error {s : List UInt8} {status : QdfStatus}
    (h : intParse s = .error status) : uint64Parse s = .error status := by rw [uint64Parse,h]

/-- The literals of a string agree on having digits. -/
theorem isNumeral_of_writes {l l' : Literal} {s : List UInt8} (h : l.Writes s)
    (h' : l'.Writes s) (hnum : l.IsNumeral) : l'.IsNumeral := by
  obtain ⟨front,_,back,hfront,hback,rfl,hs⟩ := h
  obtain ⟨front',_,back',hfront',hback',rfl,hs'⟩ := h'
  obtain ⟨radix,_,hradix⟩ := consumeRadix_append l (delimits_of_blank hback)
  obtain ⟨radix',_,hradix'⟩ := consumeRadix_append l' (delimits_of_blank hback')
  have hsign := consumeSign_skipSpaces l hfront back
  have hsign' := consumeSign_skipSpaces l' hfront' back'
  rw [← hs] at hsign
  rw [← hs',hsign,Prod.mk.injEq] at hsign'
  rw [hsign'.2,hradix',Prod.mk.injEq] at hradix
  -- digits cannot be the white space at the end
  intro hnil
  obtain ⟨c,t,hdigits⟩ := List.exists_cons_of_ne_nil hnum
  have hback'c : back' = c::(t++back) := by
    rw [← List.cons_append,← hdigits,← hradix.2,hnil,List.nil_append]
  obtain ⟨d,hd,_⟩ := l.isDigit c (by rw [hdigits]; exact List.mem_cons_self)
  have hnone := (delimits_of_blank hback' c (by rw [hback'c]; rfl)).1
  rw [hd] at hnone
  cases hnone

theorem Literal.accumulated_exact {l : Literal} (h : l.magnitude < 2^64) :
    l.accumulated = some l.magnitude :=
  Numerals.accumulate_exact l.radix.base_pos h

theorem Literal.isNumeral_of_magnitude {l : Literal} (h : 0 < l.magnitude) : l.IsNumeral := by
  intro hnil
  rw [Literal.magnitude,hnil] at h
  exact absurd h (lt_irrefl 0)

/-- A numeral that does not slip through is accumulated exactly, or is a negative one that
`qdf_int64_parse` refuses all the same. -/
theorem accumulated_of_not_slips {l : Literal} {s : List UInt8} {v : ℕ} (hslip : ¬ SlipsOver s)
    (hl : l.Writes s) (hacc : l.accumulated = some v) :
    v = l.magnitude ∨ l.sign = .minus ∧ 2^64 ≤ l.magnitude ∧ 2^63 < v := by
  obtain ⟨hrise,rfl⟩ := (l.accumulated_eq_some_iff v).mp hacc
  rcases Nat.lt_or_ge l.magnitude (2^64) with hlt | hge
  · exact Or.inl (Nat.mod_eq_of_lt hlt)
  · by_contra hcontra
    rw [not_or] at hcontra
    refine hslip ⟨l,hl,hge,hrise,fun hminus => ?_⟩
    by_contra hlarge
    exact hcontra.2 ⟨hminus,hge,Nat.lt_of_not_le hlarge⟩

theorem not_bare_of_exact {s : List UInt8} (h : Exact64 s) : ¬ BareRadix s := by
  rintro ⟨l,hl,hno⟩
  have hmag : l.magnitude = 0 := by
    rw [Literal.magnitude,not_not.mp hno]
    rfl
  have hacc : l.accumulated = some (0 : UInt64).toNat := by
    rw [Literal.accumulated_exact (by rw [hmag]; decide),hmag]
    rfl
  have hparse := (intParse_eq_ok_iff s 0 _).mpr ⟨l,hl,hacc,rfl⟩
  have hzero : int64Parse s = .ok 0 := by
    refine ((int64Parse_of_intParse hparse).1 0).mpr ?_
    cases decide (l.sign = .minus) <;> rfl
  obtain ⟨l',hnum,hl',_⟩ := (h.int64 0).mp hzero
  exact hno (isNumeral_of_writes hl' hl hnum)

theorem not_slips_of_exact {s : List UInt8} (h : Exact64 s) : ¬ SlipsOver s := by
  rintro ⟨l,hl,hbig,hrise,hminus⟩
  have hnum : l.IsNumeral := Literal.isNumeral_of_magnitude (by omega)
  have hlt : l.magnitude % 2^64 < 2^64 := Nat.mod_lt _ (by decide)
  have hacc : l.accumulated = some (UInt64.ofNat (l.magnitude % 2^64)).toNat := by
    rw [UInt64.toNat_ofNat_of_lt' hlt]
    exact (l.accumulated_eq_some_iff _).mpr ⟨hrise,rfl⟩
  have hparse := (intParse_eq_ok_iff s _ _).mpr ⟨l,hl,hacc,rfl⟩
  by_cases hsign : l.sign = .minus
  · have hrange : int64Parse s = .error .eRange := by
      refine h.int64_range l hnum hl fun hin => ?_
      rw [InRange,Literal.value,if_pos hsign] at hin
      omega
    have hle := hminus hsign
    obtain ⟨r,hr⟩ : ∃ r : Int64, r.toInt = -((l.magnitude % 2^64 : ℕ) : ℤ) :=
      ⟨Int64.ofInt (-((l.magnitude % 2^64 : ℕ) : ℤ)),
        Int64.toInt_ofInt_of_le (by omega) (by omega)⟩
    have hok := ((int64Parse_of_intParse hparse).1 r).mpr (by
      rw [UInt64.toNat_ofNat_of_lt' hlt,hr,decide_eq_true hsign]
      rfl)
    rw [hrange] at hok
    cases hok
  · have hok := uint64Parse_of_intParse hparse
    rw [decide_eq_false hsign,h.uint64_range l hnum hsign hl hbig] at hok
    cases hok

theorem isNumeral_of_not_bare {l : Literal} {s : List UInt8} (h : ¬ BareRadix s)
    (hl : l.Writes s) : l.IsNumeral := by
  by_contra hno
  exact h ⟨l,hl,hno⟩

theorem intParse_of_magnitude {l : Literal} {s : List UInt8} (hl : l.Writes s)
    (h : l.magnitude < 2^64) :
    intParse s = .ok (UInt64.ofNat l.magnitude,decide (l.sign = .minus)) := by
  rw [intParse_of_writes hl,Literal.accumulated_exact h]

theorem exact_uint64 {s : List UInt8} (hbare : ¬ BareRadix s) (hslip : ¬ SlipsOver s)
    (v : UInt64) : uint64Parse s = .ok v ↔
      ∃ l : Literal, l.IsNumeral ∧ l.sign ≠ .minus ∧ l.Writes s ∧ l.magnitude = v.toNat := by
  constructor
  · intro h
    rcases hparse : intParse s with status | ⟨value,negate⟩
    · rw [uint64Parse_of_error hparse] at h
      cases h
    rw [uint64Parse_of_intParse hparse] at h
    split_ifs at h with hneg
    obtain rfl := Except.ok.inj h
    obtain ⟨l,hl,hacc,hsign⟩ := (intParse_eq_ok_iff s _ _).mp hparse
    have hplus : l.sign ≠ .minus := by simpa [hsign] using hneg
    refine ⟨l,isNumeral_of_not_bare hbare hl,hplus,hl,?_⟩
    obtain hv | ⟨hminus,_⟩ := accumulated_of_not_slips hslip hl hacc
    · exact hv.symm
    · exact absurd hminus hplus
  · rintro ⟨l,_,hsign,hl,hmag⟩
    have hparse := intParse_of_magnitude hl (hmag ▸ v.toNat_lt)
    rw [uint64Parse_of_intParse hparse,decide_eq_false hsign,hmag,UInt64.ofNat_toNat]
    rfl

theorem exact_uint64_range {s : List UInt8} (hslip : ¬ SlipsOver s) {l : Literal}
    (hsign : l.sign ≠ .minus) (hl : l.Writes s) (hbig : 2^64 ≤ l.magnitude) :
    uint64Parse s = .error .eRange := by
  have hparse := intParse_of_writes hl
  cases hacc : l.accumulated with
  | none =>
    rw [hacc] at hparse
    exact uint64Parse_of_error hparse
  | some v =>
    obtain ⟨_,hv⟩ := (l.accumulated_eq_some_iff v).mp hacc
    obtain heq | ⟨hminus,_⟩ := accumulated_of_not_slips hslip hl hacc
    · omega
    · exact absurd hminus hsign

theorem exact_int64 {s : List UInt8} (hbare : ¬ BareRadix s) (hslip : ¬ SlipsOver s)
    (v : Int64) : int64Parse s = .ok v ↔
      ∃ l : Literal, l.IsNumeral ∧ l.Writes s ∧ l.value = v.toInt := by
  have hlow := v.le_toInt
  have hhigh := v.toInt_lt
  constructor
  · intro h
    rcases hparse : intParse s with status | ⟨value,negate⟩
    · rw [int64Parse_of_error hparse] at h
      cases h
    have hv := ((int64Parse_of_intParse hparse).1 v).mp h
    obtain ⟨l,hl,hacc,rfl⟩ := (intParse_eq_ok_iff s _ _).mp hparse
    refine ⟨l,isNumeral_of_not_bare hbare hl,hl,?_⟩
    obtain hmag | ⟨hminus,_,hlarge⟩ := accumulated_of_not_slips hslip hl hacc
    · rw [hv,hmag,signed_magnitude]
    · rw [decide_eq_true hminus,signed,if_pos rfl] at hv
      omega
  · rintro ⟨l,_,hl,hvalue⟩
    have hmag : l.magnitude < 2^64 := by
      rw [Literal.value] at hvalue
      split_ifs at hvalue <;> omega
    have hparse := intParse_of_magnitude hl hmag
    rw [(int64Parse_of_intParse hparse).1,UInt64.toNat_ofNat_of_lt' hmag,signed_magnitude,
      hvalue]

theorem exact_int64_range {s : List UInt8} (hslip : ¬ SlipsOver s) {l : Literal}
    (hl : l.Writes s) (hout : ¬ InRange l.value) : int64Parse s = .error .eRange := by
  have hparse := intParse_of_writes hl
  cases hacc : l.accumulated with
  | none =>
    rw [hacc] at hparse
    exact int64Parse_of_error hparse
  | some v =>
    rw [hacc] at hparse
    obtain ⟨_,hv⟩ := (l.accumulated_eq_some_iff v).mp hacc
    have hlt : v < 2^64 := hv ▸ Nat.mod_lt _ (by decide)
    refine (int64Parse_of_intParse hparse).2 ?_
    rw [UInt64.toNat_ofNat_of_lt' hlt]
    obtain heq | ⟨hminus,_,hlarge⟩ := accumulated_of_not_slips hslip hl hacc
    · rwa [heq,signed_magnitude]
    · rw [decide_eq_true hminus,InRange,signed,if_pos rfl]
      omega

/-- The 64-bit parsers are exact, but for what announces a radix without a digit and for what
slips through the overflow check. -/
theorem exact64_iff (s : List UInt8) : Exact64 s ↔ ¬ BareRadix s ∧ ¬ SlipsOver s :=
  ⟨fun h => ⟨not_bare_of_exact h,not_slips_of_exact h⟩,fun ⟨hbare,hslip⟩ =>
    ⟨exact_uint64 hbare hslip,fun _ _ hsign hl hbig => exact_uint64_range hslip hsign hl hbig,
      exact_int64 hbare hslip,fun _ _ hl hout => exact_int64_range hslip hl hout⟩⟩

/-- `0x` and 17 digits `1` -/
def slippingNumeral : Literal where
  sign := .absent
  radix := .hexadecimal
  digits := List.replicate 17 49
  isDigit := by
    intro c hc
    obtain rfl := List.eq_of_mem_replicate hc
    exact ⟨1,by decide,by decide⟩
  leading := by simp

/-- Neither parser is exact on `0x`, nor on `0x11111111111111111`, which is reduced modulo
2^64. -/
theorem not_exact_bare_and_slipping :
    ¬ Exact64 [48,120] ∧
      uint64Parse [48,120] = .ok 0 ∧
      ¬ Exact64 slippingNumeral.text ∧
      2^64 < slippingNumeral.magnitude ∧
      uint64Parse slippingNumeral.text = .ok 0x1111111111111111 := by
  have hbare : uint64Parse [48,120] = .ok 0 := by decide
  have hmag : 2^64 < slippingNumeral.magnitude := by decide
  have hok : uint64Parse slippingNumeral.text = .ok 0x1111111111111111 := by decide
  refine ⟨fun h => ?_,hbare,fun h => ?_,hmag,hok⟩
  · obtain ⟨l,hnum,_,hl,_⟩ := (h.uint64 0).mp hbare
    let bare : Literal := ⟨.absent,.hexadecimal,[],by simp,by simp⟩
    have hwrites : bare.Writes [48,120] := ⟨[],_,[],by simp [Blank],by simp [Blank],rfl,rfl⟩
    exact isNumeral_of_writes hl hwrites hnum rfl
  · have hwrites : slippingNumeral.Writes slippingNumeral.text :=
      ⟨[],_,[],by simp [Blank],by simp [Blank],rfl,by simp⟩
    have hnum := Literal.isNumeral_of_magnitude ((Nat.zero_lt_succ _).trans hmag)
    have hrange := h.uint64_range slippingNumeral hnum (by decide) hwrites hmag.le
    rw [hok] at hrange
    cases hrange

end QdfTypes
end MarbleModules
