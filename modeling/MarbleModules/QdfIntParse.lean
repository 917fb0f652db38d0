import MarbleModules.QdfConsume

/-! The integer parsers of `qdf_types.c`, and the numerals they are for. -/
namespace MarbleModules
namespace QdfTypes

open Consumers
open ActionOui (isSpace skipSpaces)

/-- The sign of `__qdf_int_parse_lazy`: whether to negate, and the cursor. -/
def consumeSign (str : List UInt8) : Bool × List UInt8 :=
  match consumeChar 45 str with
  | (some _,str) => (true,str)
  | (none,str) => (false,(consumeChar 43 str).2)

/-- The loop of `__qdf_int_parse_lazy` over `qdf_consume_hex`. -/
def consumeDigits (radix : UInt8) :
    UInt64 → List UInt8 → Except QdfStatus (UInt64 × List UInt8)
  | value,[] => .ok (value,[])
  | value,c::str =>
    match hexDigit c with
    | none => .ok (value,c::str)
    | some digit =>
      if radix ≤ digit then .error .eFailure
      else
        let nextValue := value*radix.toUInt64+digit.toUInt64
        if nextValue < value then .error .eRange else consumeDigits radix nextValue str

/-- `__qdf_int_parse_lazy`: the value, whether it is negated, and what was not read. -/
def intParseLazy (intStr : List UInt8) : Except QdfStatus (UInt64 × Bool × List UInt8) :=
  match consumeSign (skipSpaces intStr) with
  | (negate,str) =>
    match consumeRadix str with
    | (none,_) => .error .eFailure
    | (some radix,str) =>
      match consumeDigits radix 0 str with
      | .error status => .error status
      | .ok (value,str) => .ok (value,negate,str)

/-- `qdf_int_parse` -/
def intParse (intStr : List UInt8) : Except QdfStatus (UInt64 × Bool) :=
  match intParseLazy intStr with
  | .error status => .error status
  | .ok (value,negate,str) =>
    if skipSpaces str ≠ [] then .error .eFailure else .ok (value,negate)

/-- `qdf_int64_parse` -/
def int64Parse (intStr : List UInt8) : Except QdfStatus Int64 :=
  match intParse intStr with
  | .error status => .error status
  | .ok (value,negate) =>
    if negate then
      let signedValue := (-value).toInt64
      if 0 < signedValue then .error .eRange else .ok signedValue
    else
      let signedValue := value.toInt64
      if signedValue < 0 then .error .eRange else .ok signedValue

/-- `qdf_uint64_parse` -/
def uint64Parse (intStr : List UInt8) : Except QdfStatus UInt64 :=
  match intParse intStr with
  | .error status => .error status
  | .ok (value,negate) => if negate then .error .eRange else .ok value

/-- `qdf_int32_parse` -/
def int32Parse (intStr : List UInt8) : Except QdfStatus Int32 :=
  match int64Parse intStr with
  | .error status => .error status
  | .ok value => if value.toInt32.toInt64 ≠ value then .error .eRange else .ok value.toInt32

/-- `qdf_uint32_parse` -/
def uint32Parse (intStr : List UInt8) : Except QdfStatus UInt32 :=
  match uint64Parse intStr with
  | .error status => .error status
  | .ok value => if value.toUInt32.toUInt64 ≠ value then .error .eRange else .ok value.toUInt32

section Literals

inductive Sign
  | absent | plus | minus
  deriving DecidableEq

def Sign.text : Sign → List UInt8
  | .absent => []
  | .plus => [43]
  | .minus => [45]

inductive Radix
  | binary | octal | decimal | hexadecimal
  deriving DecidableEq

def Radix.base : Radix → ℕ
  | .binary => 2
  | .octal => 8
  | .decimal => 10
  | .hexadecimal => 16

/-- What announces the radix: `0b`, `0o`, nothing or `0x`. -/
def Radix.marker : Radix → List UInt8
  | .binary => [48,98]
  | .octal => [48,111]
  | .decimal => []
  | .hexadecimal => [48,120]

/-- A sign, a radix and digits of it; a decimal has a digit. -/
structure Literal where
  sign : Sign
  radix : Radix
  digits : List UInt8
  isDigit : ∀ c ∈ digits, IsDigit radix.base c
  leading : radix = .decimal → digits ≠ []

namespace Literal

/-- A numeral is a literal with a digit. -/
def IsNumeral (l : Literal) : Prop := l.digits ≠ []

def body (l : Literal) : List UInt8 := l.radix.marker++l.digits

def text (l : Literal) : List UInt8 := l.sign.text++l.body

def magnitude (l : Literal) : ℕ := numeralValue l.radix.base l.digits

def value (l : Literal) : ℤ := if l.sign = .minus then -(l.magnitude : ℤ) else l.magnitude

/-- `s` is the literal between white space. -/
def Writes (l : Literal) (s : List UInt8) : Prop := Trimmed (· = l.text) s

/-- What the accumulator of 64 bits makes of the digits. -/
def accumulated (l : Literal) : Option ℕ :=
  Numerals.accumulate (2^64) l.radix.base 0 (l.digits.map digitValue)

end Literal

theorem Radix.base_pos (r : Radix) : 0 < r.base := by cases r <;> decide

/-- The characters of a decimal digit. -/
theorem isDigit_ten_iff (c : UInt8) : IsDigit 10 c ↔ 48 ≤ c ∧ c ≤ 57 := by
  simp only [IsDigit,hexDigit_eq_some_iff,UInt8.le_iff_toNat_le]
  constructor
  · rintro ⟨d,hd,hlt⟩
    simp
    omega
  · rintro ⟨hlow,hhigh⟩
    have hsub : (c-48).toNat = c.toNat-48 :=
      UInt8.toNat_sub_of_le _ _ (UInt8.le_iff_toNat_le.mpr hlow)
    simp at hlow hhigh
    exact ⟨c-48,by omega,by omega⟩

theorem not_isSpace_of_dec {c : UInt8} (h : 48 ≤ c ∧ c ≤ 57) : isSpace c = false := by
  simp only [UInt8.le_iff_toNat_le] at h
  simp only [isSpace,decide_eq_false_iff_not,UInt8.le_iff_toNat_le,← UInt8.toNat_inj]
  simp at h ⊢
  omega

/-- The body of a literal starts with a decimal digit. -/
theorem Literal.body_head (l : Literal) : ∃ c t, l.body = c::t ∧ 48 ≤ c ∧ c ≤ 57 := by
  obtain ⟨sign,radix,digits,hdigit,hleading⟩ := l
  cases radix with
  | decimal =>
    obtain ⟨c,t,rfl⟩ := List.exists_cons_of_ne_nil (hleading rfl)
    exact ⟨c,t,rfl,(isDigit_ten_iff c).mp (hdigit c (by simp))⟩
  | binary | octal | hexadecimal => exact ⟨48,_,rfl,by decide,by decide⟩

theorem Literal.text_dark (l : Literal) : StartsDark (· = l.text) := by
  rintro _ rfl
  obtain ⟨c,t,hbody,hc⟩ := l.body_head
  rw [Literal.text,hbody]
  cases l.sign with
  | absent => exact ⟨c,t,rfl,not_isSpace_of_dec hc⟩
  | plus => exact ⟨43,_,rfl,by decide⟩
  | minus => exact ⟨45,_,rfl,by decide⟩

end Literals

section Steps

theorem consumeChar_self (c : UInt8) (s : List UInt8) : consumeChar c (c::s) = (some (),s) := by
  rw [consumeChar,item,if_pos rfl]

theorem consumeChar_of_ne {c : UInt8} {s : List UInt8} (h : ∀ d ∈ s.head?, d ≠ c) :
    consumeChar c s = (none,s) :=
  item_of_noItem fun d hd => if_neg (h d hd)

theorem consumeChar_cases (c : UInt8) (s : List UInt8) :
    (∃ t, s = c::t) ∨ consumeChar c s = (none,s) := by
  obtain hno | ⟨d,_,t,rfl,hd⟩ := item_cases (fun d => if d = c then some () else none) s
  · exact Or.inr (item_of_noItem hno)
  · by_cases hc : d = c
    · exact Or.inl ⟨t,by rw [hc]⟩
    · rw [if_neg hc] at hd
      cases hd

theorem consumeSign_append (sign : Sign) {c : UInt8} {t : List UInt8} (hc : 48 ≤ c ∧ c ≤ 57) :
    consumeSign (sign.text++c::t) = (decide (sign = .minus),c::t) := by
  have hne (k : UInt8) (hk : k < 48) : ∀ d ∈ (c::t).head?, d ≠ k := by
    rintro d hd rfl
    obtain rfl : c = d := by simpa using hd
    exact absurd hc.1 (UInt8.not_le.mpr hk)
  cases sign with
  | absent =>
    change consumeSign (c::t) = _
    rw [consumeSign,consumeChar_of_ne (hne 45 (by decide))]
    dsimp only
    rw [consumeChar_of_ne (hne 43 (by decide))]
    rfl
  | plus =>
    change consumeSign (43::c::t) = _
    rw [consumeSign,consumeChar_of_ne (by simp)]
    dsimp only
    rw [consumeChar_self]
    rfl
  | minus =>
    change consumeSign (45::c::t) = _
    rw [consumeSign,consumeChar_self]
    rfl

theorem consumeSign_sound (s : List UInt8) :
    ∃ sign : Sign, s = sign.text++(consumeSign s).2 ∧
      (consumeSign s).1 = decide (sign = .minus) := by
  rw [consumeSign]
  obtain ⟨t,rfl⟩ | hminus := consumeChar_cases 45 s
  · rw [consumeChar_self]
    exact ⟨.minus,rfl,rfl⟩
  rw [hminus]
  obtain ⟨t,rfl⟩ | hplus := consumeChar_cases 43 s
  · dsimp only
    rw [consumeChar_self]
    exact ⟨.plus,rfl,rfl⟩
  · dsimp only
    rw [hplus]
    exact ⟨.absent,rfl,rfl⟩

/-- Nothing that could go on with a literal. -/
def Delimits (s : List UInt8) : Prop := ∀ c ∈ s.head?, hexDigit c = none ∧ c ≠ 111 ∧ c ≠ 120

theorem Delimits.noItem {s : List UInt8} (h : Delimits s) : NoItem hexDigit s :=
  fun c hc => (h c hc).1

theorem consumeRadix_dec {c : UInt8} {s : List UInt8} (hc : 48 ≤ c ∧ c ≤ 57)
    (hs : ∀ d ∈ s.head?, d ≠ 98 ∧ d ≠ 111 ∧ d ≠ 120) :
    consumeRadix (c::s) = (some 10,c::s) := by
  unfold consumeRadix
  split
  · next heq => obtain ⟨rfl,rfl⟩ := List.cons.inj heq; simp at hs
  · next heq => obtain ⟨rfl,rfl⟩ := List.cons.inj heq; simp at hs
  · next heq => obtain ⟨rfl,rfl⟩ := List.cons.inj heq; simp at hs
  · next heq => cases heq
  · next heq =>
    obtain ⟨rfl,rfl⟩ := List.cons.inj heq
    rw [if_pos hc]

theorem consumeRadix_append (l : Literal) {rest : List UInt8} (hrest : Delimits rest) :
    ∃ radix : UInt8, radix.toNat = l.radix.base ∧
      consumeRadix (l.radix.marker++(l.digits++rest)) = (some radix,l.digits++rest) := by
  obtain ⟨sign,radix,digits,hdigit,hleading⟩ := l
  cases radix with
  | binary => exact ⟨2,rfl,rfl⟩
  | octal => exact ⟨8,rfl,rfl⟩
  | hexadecimal => exact ⟨16,rfl,rfl⟩
  | decimal =>
    obtain ⟨c,t,rfl⟩ := List.exists_cons_of_ne_nil (hleading rfl)
    refine ⟨10,rfl,consumeRadix_dec ((isDigit_ten_iff c).mp (hdigit c (by simp))) ?_⟩
    -- the digit after a leading zero is none of the letters that announce a radix
    intro d hd
    cases t with
    | nil =>
      obtain ⟨hhex,ho,hx⟩ := hrest d hd
      refine ⟨?_,ho,hx⟩
      rintro rfl
      cases hhex
    | cons e t =>
      obtain rfl : e = d := by simpa using hd
      have he := (isDigit_ten_iff e).mp (hdigit e (by simp))
      have hne (k : UInt8) (hk : 57 < k) : e ≠ k := by
        rintro rfl
        exact absurd he.2 (UInt8.not_le.mpr hk)
      exact ⟨hne 98 (by decide),hne 111 (by decide),hne 120 (by decide)⟩

theorem consumeRadix_sound {s str : List UInt8} {radix : UInt8}
    (h : consumeRadix s = (some radix,str)) :
    ∃ r : Radix, radix.toNat = r.base ∧ s = r.marker++str ∧
      (r = .decimal → ∃ c t, str = c::t ∧ 48 ≤ c ∧ c ≤ 57) := by
  unfold consumeRadix at h
  split at h
  · cases h
    exact ⟨.binary,rfl,rfl,by simp⟩
  · cases h
    exact ⟨.octal,rfl,rfl,by simp⟩
  · cases h
    exact ⟨.hexadecimal,rfl,rfl,by simp⟩
  · cases h
  · next c t _ _ _ =>
    split_ifs at h with hc
    · cases h
      exact ⟨.decimal,rfl,rfl,fun _ => ⟨c,t,rfl,hc⟩⟩
    · cases h

theorem next_toNat (value : UInt64) (radix digit : UInt8) :
    (value*radix.toUInt64+digit.toUInt64).toNat =
      (value.toNat*radix.toNat+digit.toNat) % 2^64 := by
  simp [UInt64.toNat_add,UInt64.toNat_mul]

/-- Digits up to something else: the loop is the accumulator of 64 bits. -/
theorem consumeDigits_append {radix : UInt8} {value : UInt64} {cs rest : List UInt8}
    (hcs : ∀ c ∈ cs, IsDigit radix.toNat c) (hrest : NoItem hexDigit rest) :
    consumeDigits radix value (cs++rest) =
      match Numerals.accumulate (2^64) radix.toNat value.toNat (cs.map digitValue) with
      | some v => .ok (UInt64.ofNat v,rest)
      | none => .error .eRange := by
  induction cs generalizing value with
  | nil =>
    rw [List.map_nil,Numerals.accumulate]
    dsimp only
    rw [UInt64.ofNat_toNat]
    cases rest with
    | nil => rfl
    | cons c rest => rw [List.nil_append,consumeDigits,(noItem_cons _ c rest).mp hrest]
  | cons c cs ih =>
    rw [List.forall_mem_cons] at hcs
    obtain ⟨⟨digit,hdigit,hlt⟩,hcs⟩ := hcs
    have hradix : ¬ radix ≤ digit := by
      rw [UInt8.le_iff_toNat_le]
      omega
    rw [List.cons_append,consumeDigits,hdigit,List.map_cons,Numerals.accumulate,
      digitValue_eq hdigit]
    simp only [if_neg hradix,UInt64.lt_iff_toNat_lt,next_toNat]
    split_ifs
    · rfl
    · rw [← next_toNat]
      exact ih hcs

theorem consumeDigits_sound {radix : UInt8} {value v : UInt64} {s rest : List UInt8}
    (h : consumeDigits radix value s = .ok (v,rest)) :
    ∃ cs, s = cs++rest ∧ (∀ c ∈ cs, IsDigit radix.toNat c) ∧ NoItem hexDigit rest ∧
      Numerals.accumulate (2^64) radix.toNat value.toNat (cs.map digitValue) = some v.toNat := by
  induction s generalizing value with
  | nil =>
    cases h
    exact ⟨[],rfl,by simp,noItem_nil _,rfl⟩
  | cons c s ih =>
    rw [consumeDigits] at h
    cases hdigit : hexDigit c with
    | none =>
      rw [hdigit] at h
      cases h
      exact ⟨[],rfl,by simp,(noItem_cons _ c s).mpr hdigit,rfl⟩
    | some digit =>
      rw [hdigit] at h
      dsimp only at h
      split_ifs at h with hradix hdrop
      obtain ⟨cs,rfl,hcs,hrest,hacc⟩ := ih h
      rw [UInt8.le_iff_toNat_le] at hradix
      rw [UInt64.lt_iff_toNat_lt] at hdrop
      rw [next_toNat] at hdrop hacc
      refine ⟨c::cs,rfl,List.forall_mem_cons.mpr ⟨⟨digit,hdigit,by omega⟩,hcs⟩,hrest,?_⟩
      rw [List.map_cons,digitValue_eq hdigit,Numerals.accumulate]
      exact (if_neg hdrop).trans hacc

/-- The sign of a literal behind white space. -/
theorem consumeSign_skipSpaces {front : List UInt8} (l : Literal) (hfront : Blank front)
    (rest : List UInt8) :
    consumeSign (skipSpaces (front++(l.text++rest))) =
      (decide (l.sign = .minus),l.radix.marker++(l.digits++rest)) := by
  obtain ⟨c,t,hbody,hc⟩ := l.body_head
  obtain ⟨d,u,htext,hd⟩ := l.text_dark l.text rfl
  have hskip : skipSpaces (front++(l.text++rest)) = l.text++rest := by
    rw [skipSpaces_append hfront,htext,List.cons_append,skipSpaces_cons hd]
  rw [hskip,← List.append_assoc,← Literal.body,Literal.text,hbody,List.append_assoc]
  exact consumeSign_append l.sign hc

/-- White space, a literal and what cannot go on with it: the lazy parser accumulates the
digits and leaves the rest. -/
theorem intParseLazy_append {front rest : List UInt8} (l : Literal) (hfront : Blank front)
    (hrest : Delimits rest) :
    intParseLazy (front++(l.text++rest)) =
      match l.accumulated with
      | some v => .ok (UInt64.ofNat v,decide (l.sign = .minus),rest)
      | none => .error .eRange := by
  obtain ⟨radix,hradix,hconsume⟩ := consumeRadix_append l hrest
  have hdigits : consumeDigits radix 0 (l.digits++rest) = _ :=
    consumeDigits_append (hradix ▸ l.isDigit) hrest.noItem
  rw [hradix,UInt64.toNat_zero,← Literal.accumulated] at hdigits
  rw [intParseLazy,consumeSign_skipSpaces l hfront]
  dsimp only
  rw [hconsume]
  dsimp only
  rw [hdigits]
  cases l.accumulated <;> rfl

theorem Literal.accumulated_eq_some_iff (l : Literal) (v : ℕ) :
    l.accumulated = some v ↔
      Numerals.Rising (2^64) l.radix.base 0 (l.digits.map digitValue) ∧
        v = l.magnitude % 2^64 := by
  have hacc := Numerals.accumulate_eq_some_iff (2^64) l.radix.base 0 v (l.digits.map digitValue)
  rwa [Nat.zero_mod] at hacc

theorem intParseLazy_sound {s rest : List UInt8} {v : UInt64} {negate : Bool}
    (h : intParseLazy s = .ok (v,negate,rest)) :
    ∃ front, ∃ l : Literal, Blank front ∧ s = front++(l.text++rest) ∧ NoItem hexDigit rest ∧
      l.accumulated = some v.toNat ∧ negate = decide (l.sign = .minus) := by
  obtain ⟨front,hfront,hs⟩ := exists_blank_front s
  obtain ⟨sign,hsign,hneg⟩ := consumeSign_sound (skipSpaces s)
  rw [intParseLazy] at h
  dsimp only at h
  rcases hradix : consumeRadix (consumeSign (skipSpaces s)).2 with ⟨_ | radix,str⟩
  · rw [hradix] at h
    cases h
  rw [hradix] at h
  dsimp only at h
  obtain ⟨r,hr,hmarker,hlead⟩ := consumeRadix_sound hradix
  rcases hdigits : consumeDigits radix 0 str with _ | ⟨value,str'⟩
  · rw [hdigits] at h
    cases h
  rw [hdigits] at h
  obtain ⟨cs,rfl,hcs,hrest,hacc⟩ := consumeDigits_sound hdigits
  rw [hr] at hcs hacc
  have hne : r = .decimal → cs ≠ [] := by
    rintro hdec rfl
    obtain ⟨c,t,rfl,hc⟩ := hlead hdec
    obtain ⟨d,hd,_⟩ := (isDigit_ten_iff c).mpr hc
    rw [noItem_cons,hd] at hrest
    cases hrest
  cases h
  refine ⟨front,⟨sign,r,cs,hcs,hne⟩,hfront,?_,hrest,hacc,hneg⟩
  rw [Literal.text,Literal.body,List.append_assoc,List.append_assoc,← hmarker,← hsign]
  exact hs

theorem delimits_of_blank {back : List UInt8} (h : Blank back) : Delimits back := by
  intro c hc
  have hspace := h c (List.mem_of_mem_head? hc)
  refine ⟨Option.eq_none_iff_forall_ne_some.mpr fun d hd => ?_,?_,?_⟩
  · rw [hexDigit_eq_some_iff] at hd
    simp [isSpace,UInt8.le_iff_toNat_le,← UInt8.toNat_inj] at hspace
    omega
  · rintro rfl
    cases hspace
  · rintro rfl
    cases hspace

/-- A literal between white space is parsed by its accumulator. -/
theorem intParse_of_writes {l : Literal} {s : List UInt8} (h : l.Writes s) :
    intParse s =
      match l.accumulated with
      | some v => .ok (UInt64.ofNat v,decide (l.sign = .minus))
      | none => .error .eRange := by
  obtain ⟨front,_,back,hfront,hback,rfl,rfl⟩ := h
  rw [intParse,intParseLazy_append l hfront (delimits_of_blank hback)]
  cases l.accumulated with
  | none => rfl
  | some v =>
    dsimp only
    rw [(skipSpaces_eq_nil_iff back).mpr hback]
    rfl

theorem intParse_eq_ok_iff (s : List UInt8) (v : UInt64) (negate : Bool) :
    intParse s = .ok (v,negate) ↔ ∃ l : Literal, l.Writes s ∧ l.accumulated = some v.toNat ∧
      negate = decide (l.sign = .minus) := by
  constructor
  · intro h
    rw [intParse] at h
    rcases hlazy : intParseLazy s with _ | ⟨value,neg,str⟩
    · rw [hlazy] at h
      cases h
    rw [hlazy] at h
    dsimp only at h
    split_ifs at h with hnil
    · cases h
      obtain ⟨front,l,hfront,hs,_,hacc,hneg⟩ := intParseLazy_sound hlazy
      have hback : Blank str := (skipSpaces_eq_nil_iff str).mp (by simpa using hnil)
      exact ⟨l,⟨front,l.text,str,hfront,hback,rfl,hs⟩,hacc,hneg⟩
  · rintro ⟨l,hl,hacc,rfl⟩
    rw [intParse_of_writes hl,hacc]
    dsimp only
    rw [UInt64.ofNat_toNat]

end Steps

end QdfTypes
end MarbleModules
