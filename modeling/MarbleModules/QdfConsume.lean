import MarbleModules.ActionOui
import MarbleModules.Consumers
import MarbleModules.Numerals

/-! The consumers of `qdf_types.c`: each takes what it wants from the front of a string, or
leaves the cursor where it was. A string is the list of the bytes before its NUL. -/
namespace MarbleModules
namespace QdfTypes

open Consumers

/-- The statuses the parsers give, of `QDF_STATUS`. -/
inductive QdfStatus
  | success | eFailure | eRange
  deriving DecidableEq

/-- `qdf_consume_char` -/
def consumeChar (c : UInt8) : Consume UInt8 Unit := item fun d => if d = c then some () else none

def decDigit (c : UInt8) : Option UInt8 :=
  if 48 ≤ c ∧ c ≤ 57 then some (c-48) else none

def hexDigit (c : UInt8) : Option UInt8 :=
  if 48 ≤ c ∧ c ≤ 57 then some (c-48)
  else if 97 ≤ c ∧ c ≤ 102 then some (c-97+10)
  else if 65 ≤ c ∧ c ≤ 70 then some (c-65+10)
  else none

/-- `qdf_consume_dec` -/
def consumeDec : Consume UInt8 UInt8 := item decDigit

/-- `qdf_consume_hex` -/
def consumeHex : Consume UInt8 UInt8 := item hexDigit

/-- The cursor `str` into `s`, moved back by `len`. -/
def rewind (s str : List UInt8) (len : ℕ) : List UInt8 := s.drop (s.length-str.length-len)

/-- The loop over at most `n` digits: their number, the value and the cursor after them. -/
def consumeUpTo (consume : Consume UInt8 UInt8) (next : UInt16 → UInt8 → UInt16) :
    ℕ → ℕ → UInt16 → List UInt8 → ℕ × UInt16 × List UInt8
  | 0,len,value,str => (len,value,str)
  | n+1,len,value,str =>
    match consume str with
    | (none,str) => (len,value,str)
    | (some digit,str) => consumeUpTo consume next n (len+1) (next value digit) str

def nextOctet (octet : UInt16) (digit : UInt8) : UInt16 := octet*10+digit.toUInt16

/-- `qdf_consume_octet_dec` -/
def consumeOctetDec : Consume UInt8 UInt8 := fun s =>
  match consumeUpTo consumeDec nextOctet 3 0 0 s with
  | (len,octet,str) =>
    if len = 0 then (none,str)
    else if 255 < octet then (none,rewind s str len)
    else (some octet.toUInt8,str)

/-- `qdf_consume_hex_pair` -/
def consumeHexPair : Consume UInt8 UInt8 := fun s =>
  match consumeHex s with
  | (none,str) => (none,str)
  | (some hi,str) =>
    match consumeHex str with
    | (none,str') => (none,rewind s str' 1)
    | (some low,str) => (some (hi <<< 4 ||| low),str)

def nextHextet (hextet : UInt16) (digit : UInt8) : UInt16 := hextet <<< 4 + digit.toUInt16

/-- `qdf_consume_hextet` -/
def consumeHextet : Consume UInt8 UInt16 := fun s =>
  match consumeUpTo consumeHex nextHextet 4 0 0 s with
  | (len,hextet,str) => if len = 0 then (none,str) else (some hextet,str)

/-- `qdf_consume_radix`: the radix, the cursor behind what announces it. -/
def consumeRadix : Consume UInt8 UInt8
  | 48::98::str => (some 2,str)
  | 48::111::str => (some 8,str)
  | 48::120::str => (some 16,str)
  | [] => (none,[])
  | c::str => if 48 ≤ c ∧ c ≤ 57 then (some 10,c::str) else (none,c::str)

section Digits

def digitValue (c : UInt8) : ℕ := ((hexDigit c).getD 0).toNat

/-- `c` is a digit of base `b`. -/
def IsDigit (b : ℕ) (c : UInt8) : Prop := ∃ d, hexDigit c = some d ∧ d.toNat < b

/-- The value of digits of base `b`. -/
def numeralValue (b : ℕ) (cs : List UInt8) : ℕ := Numerals.value b (cs.map digitValue)

/-- `text` is between `lo` and `hi` digits of base `b`, with value `v`. -/
structure IsNumeral (b lo hi : ℕ) (v : ℕ) (text : List UInt8) : Prop where
  le_length : lo ≤ text.length
  length_le : text.length ≤ hi
  isDigit : ∀ c ∈ text, IsDigit b c
  value_eq : numeralValue b text = v

theorem sub_eq_iff {c k d : UInt8} (h : k ≤ c) : c-k = d ↔ c.toNat = k.toNat+d.toNat := by
  rw [UInt8.le_iff_toNat_le] at h
  rw [← UInt8.toNat_inj,UInt8.toNat_sub_of_le _ _ (UInt8.le_iff_toNat_le.mpr h)]
  omega

/-- A digit is its character's distance from `0`, `a` or `A`. -/
theorem hexDigit_eq_some_iff (c d : UInt8) : hexDigit c = some d ↔
    (c.toNat = 48+d.toNat ∧ d.toNat < 10) ∨
      ((c.toNat = 87+d.toNat ∨ c.toNat = 55+d.toNat) ∧ 10 ≤ d.toNat ∧ d.toNat < 16) := by
  have hlower : c-97+10 = c-87 := by grind
  have hupper : c-65+10 = c-55 := by grind
  have hle (k : UInt8) : k ≤ c ↔ k.toNat ≤ c.toNat := UInt8.le_iff_toNat_le
  have hge (k : UInt8) : c ≤ k ↔ c.toNat ≤ k.toNat := UInt8.le_iff_toNat_le
  unfold hexDigit
  rw [hlower,hupper]
  split_ifs with hdec hlow hup
  · rw [Option.some.injEq,sub_eq_iff hdec.1]
    simp [hle,hge] at hdec ⊢
    omega
  · have h87 : 87 ≤ c := by simp [hle] at hlow ⊢; omega
    rw [Option.some.injEq,sub_eq_iff h87]
    simp [hle,hge] at hlow ⊢
    omega
  · have h55 : 55 ≤ c := by simp [hle] at hup ⊢; omega
    rw [Option.some.injEq,sub_eq_iff h55]
    simp [hle,hge] at hup ⊢
    omega
  · simp [hle,hge] at hdec hlow hup ⊢
    omega

theorem hexDigit_lt {c d : UInt8} (h : hexDigit c = some d) : d.toNat < 16 := by
  have hcases := (hexDigit_eq_some_iff c d).mp h
  omega

theorem digitValue_eq {c d : UInt8} (h : hexDigit c = some d) : digitValue c = d.toNat := by
  simp [digitValue,h]

theorem decDigit_eq_some_iff (c d : UInt8) :
    decDigit c = some d ↔ hexDigit c = some d ∧ d.toNat < 10 := by
  have hle (k : UInt8) : k ≤ c ↔ k.toNat ≤ c.toNat := UInt8.le_iff_toNat_le
  have hge (k : UInt8) : c ≤ k ↔ c.toNat ≤ k.toNat := UInt8.le_iff_toNat_le
  rw [hexDigit_eq_some_iff]
  unfold decDigit
  split_ifs with hdec
  · rw [Option.some.injEq,sub_eq_iff hdec.1]
    simp [hle,hge] at hdec ⊢
    omega
  · simp [hle,hge] at hdec ⊢
    omega

theorem hexDigit_iff (c d : UInt8) :
    hexDigit c = some d ↔ hexDigit c = some d ∧ d.toNat < 16 :=
  ⟨fun h => ⟨h,hexDigit_lt h⟩,fun h => h.1⟩

end Digits

section UpTo

variable {f : UInt8 → Option UInt8} {next : UInt16 → UInt8 → UInt16} {b : ℕ}

/-- The loop has taken digits and no more than it may. -/
theorem consumeUpTo_sound {n len len' : ℕ} {value value' : UInt16} {s rest : List UInt8}
    (h : consumeUpTo (item f) next n len value s = (len',value',rest)) :
    ∃ cs ds : List UInt8, s = cs++rest ∧ cs.map f = ds.map some ∧ cs.length ≤ n ∧
      len' = len+cs.length ∧ value' = ds.foldl next value := by
  induction n generalizing len value s with
  | zero =>
    cases h
    exact ⟨[],[],rfl,rfl,le_rfl,rfl,rfl⟩
  | succ n ih =>
    rw [consumeUpTo] at h
    obtain hno | ⟨c,d,t,rfl,hc⟩ := item_cases f s
    · rw [item_of_noItem hno] at h
      cases h
      exact ⟨[],[],rfl,rfl,Nat.zero_le _,rfl,rfl⟩
    · rw [item_cons hc] at h
      obtain ⟨cs,ds,rfl,hds,hlen,rfl,rfl⟩ := ih h
      refine ⟨c::cs,d::ds,rfl,by rw [List.map_cons,List.map_cons,hc,hds],?_,?_,rfl⟩
      · exact Nat.succ_le_succ hlen
      · rw [List.length_cons]
        omega

theorem consumeUpTo_append {n len : ℕ} {value : UInt16} {cs ds rest : List UInt8}
    (hds : cs.map f = ds.map some) (hlen : cs.length ≤ n) (hrest : NoItem f rest) :
    consumeUpTo (item f) next n len value (cs++rest) =
      (len+cs.length,ds.foldl next value,rest) := by
  induction cs generalizing n len value ds with
  | nil =>
    have hnil : ds = [] := by simpa using hds.symm
    subst hnil
    cases n with
    | zero => rfl
    | succ n => rw [List.nil_append,consumeUpTo,item_of_noItem hrest]; rfl
  | cons c cs ih =>
    cases ds with
    | nil => cases hds
    | cons d ds =>
      rw [List.map_cons,List.map_cons,List.cons.injEq] at hds
      cases n with
      | zero => cases hlen
      | succ n =>
        rw [List.cons_append,consumeUpTo,item_cons hds.1]
        dsimp only
        rw [ih hds.2 (Nat.le_of_succ_le_succ hlen),List.length_cons,List.foldl_cons]
        congr 1
        omega

/-- A 16-bit accumulator is exact while the value fits. -/
theorem foldl_next (hb : 0 < b)
    (hnext : ∀ v d, (next v d).toNat = (v.toNat*b+d.toNat) % 65536)
    {ds : List UInt8} {v : UInt16}
    (h : Numerals.readOn b v.toNat (ds.map UInt8.toNat) < 65536) :
    (ds.foldl next v).toNat = Numerals.readOn b v.toNat (ds.map UInt8.toNat) := by
  induction ds generalizing v with
  | nil => rfl
  | cons d ds ih =>
    rw [List.map_cons,Numerals.readOn_cons] at h ⊢
    have hlt := (Numerals.le_readOn hb (v.toNat*b+d.toNat) (ds.map UInt8.toNat)).trans_lt h
    have hv : (next v d).toNat = v.toNat*b+d.toNat := by rw [hnext,Nat.mod_eq_of_lt hlt]
    rw [← hv] at h ⊢
    exact ih h

end UpTo

section Specs

/-- `f` is the digits of base `b`. -/
def TakesDigits (f : UInt8 → Option UInt8) (b : ℕ) : Prop :=
  ∀ c d, f c = some d ↔ hexDigit c = some d ∧ d.toNat < b

theorem isDigit_iff {f : UInt8 → Option UInt8} {b : ℕ} (hf : TakesDigits f b)
    (cs : List UInt8) :
    (∀ c ∈ cs, IsDigit b c) ↔ ∃ ds : List UInt8, cs.map f = ds.map some := by
  induction cs with
  | nil => exact ⟨fun _ => ⟨[],rfl⟩,fun _ => by simp⟩
  | cons c cs ih =>
    rw [List.forall_mem_cons,ih]
    constructor
    · rintro ⟨⟨d,hd⟩,ds,hds⟩
      exact ⟨d::ds,by rw [List.map_cons,List.map_cons,(hf c d).mpr hd,hds]⟩
    · rintro ⟨_ | ⟨d,ds⟩,hds⟩
      · cases hds
      · rw [List.map_cons,List.map_cons,List.cons.injEq] at hds
        exact ⟨⟨d,(hf c d).mp hds.1⟩,ds,hds.2⟩

theorem numeralValue_eq {f : UInt8 → Option UInt8} {b : ℕ} (hf : TakesDigits f b)
    {cs ds : List UInt8} (h : cs.map f = ds.map some) :
    numeralValue b cs = Numerals.readOn b 0 (ds.map UInt8.toNat) := by
  have hval : cs.map digitValue = ds.map UInt8.toNat := by
    induction cs generalizing ds with
    | nil => cases ds with
      | nil => rfl
      | cons d ds => cases h
    | cons c cs ih => cases ds with
      | nil => cases h
      | cons d ds =>
        rw [List.map_cons,List.map_cons,List.cons.injEq] at h
        rw [List.map_cons,List.map_cons,ih h.2,digitValue_eq ((hf c d).mp h.1).1]
  rw [numeralValue,hval,Numerals.value]

theorem numeralValue_lt {b : ℕ} (hb : 1 < b) {cs : List UInt8} (h : ∀ c ∈ cs, IsDigit b c) :
    numeralValue b cs < b^cs.length := by
  rw [← List.length_map digitValue]
  refine Numerals.value_lt hb fun v hv => ?_
  obtain ⟨c,hc,rfl⟩ := List.mem_map.mp hv
  obtain ⟨d,hd,hlt⟩ := h c hc
  rwa [digitValue_eq hd]

theorem takesDigits_dec : TakesDigits decDigit 10 := decDigit_eq_some_iff

theorem takesDigits_hex : TakesDigits hexDigit 16 := hexDigit_iff

/-- The accumulator of at most `n` digits ends with their value. -/
theorem consumeUpTo_value {f : UInt8 → Option UInt8} {next : UInt16 → UInt8 → UInt16} {b n : ℕ}
    (hb : 1 < b) (hf : TakesDigits f b) (hn : b^n ≤ 65536)
    (hnext : ∀ v d, (next v d).toNat = (v.toNat*b+d.toNat) % 65536) {cs ds : List UInt8}
    (hds : cs.map f = ds.map some) (hlen : cs.length ≤ n) :
    (ds.foldl next 0).toNat = numeralValue b cs := by
  have hlt := numeralValue_lt hb ((isDigit_iff hf cs).mpr ⟨ds,hds⟩)
  have hpow : b^cs.length ≤ b^n := Nat.pow_le_pow_right (by omega) hlen
  rw [numeralValue_eq hf hds] at hlt ⊢
  exact foldl_next (by omega) hnext (hlt.trans_le (hpow.trans hn))

/-- What the loop takes is a numeral of base `b`, with its value. -/
theorem consumeUpTo_numeral {f : UInt8 → Option UInt8} {next : UInt16 → UInt8 → UInt16}
    {b n len : ℕ} {value : UInt16} {s rest : List UInt8} (hb : 1 < b) (hf : TakesDigits f b)
    (hn : b^n ≤ 65536) (hnext : ∀ v d, (next v d).toNat = (v.toNat*b+d.toNat) % 65536)
    (h : consumeUpTo (item f) next n 0 0 s = (len,value,rest)) :
    ∃ text, s = text++rest ∧ len = text.length ∧ IsNumeral b len n value.toNat text := by
  obtain ⟨cs,ds,rfl,hds,hlen,hcs,rfl⟩ := consumeUpTo_sound h
  rw [Nat.zero_add] at hcs
  exact ⟨cs,rfl,hcs,hcs.le,hlen,(isDigit_iff hf cs).mpr ⟨ds,hds⟩,
    (consumeUpTo_value hb hf hn hnext hds hlen).symm⟩

/-- A numeral is taken whole, up to what is no digit. -/
theorem consumeUpTo_of_numeral {f : UInt8 → Option UInt8} {next : UInt16 → UInt8 → UInt16}
    {b n lo v : ℕ} {text rest : List UInt8} (hb : 1 < b) (hf : TakesDigits f b)
    (hn : b^n ≤ 65536) (hnext : ∀ v d, (next v d).toNat = (v.toNat*b+d.toNat) % 65536)
    (h : IsNumeral b lo n v text) (hrest : NoItem f rest) :
    ∃ value, value.toNat = v ∧
      consumeUpTo (item f) next n 0 0 (text++rest) = (text.length,value,rest) := by
  obtain ⟨ds,hds⟩ := (isDigit_iff hf text).mp h.isDigit
  have hvalue := consumeUpTo_value hb hf hn hnext hds h.length_le
  refine ⟨_,hvalue.trans h.value_eq,?_⟩
  rw [consumeUpTo_append hds h.length_le hrest,Nat.zero_add]

theorem nextOctet_toNat (v : UInt16) (d : UInt8) :
    (nextOctet v d).toNat = (v.toNat*10+d.toNat) % 65536 := by
  simp [nextOctet,UInt16.toNat_add,UInt16.toNat_mul]

theorem nextHextet_toNat (v : UInt16) (d : UInt8) :
    (nextHextet v d).toNat = (v.toNat*16+d.toNat) % 65536 := by
  simp [nextHextet,UInt16.toNat_add,UInt16.toNat_shiftLeft,Nat.shiftLeft_eq]

/-- A decimal octet is one to three digits. -/
def IsOctet (a : UInt8) : List UInt8 → Prop := IsNumeral 10 1 3 a.toNat

theorem consumeOctetDec_reads : Reads consumeOctetDec IsOctet (NoItem decDigit) where
  sound {s a rest} h := by
    rcases hup : consumeUpTo consumeDec nextOctet 3 0 0 s with ⟨len,octet,str⟩
    obtain ⟨text,rfl,rfl,htext⟩ :=
      consumeUpTo_numeral (by decide) takesDigits_dec (by decide) nextOctet_toNat hup
    rw [consumeOctetDec,hup] at h
    dsimp only at h
    by_cases hzero : text.length = 0
    · rw [if_pos hzero] at h
      cases h
    by_cases hbig : 255 < octet
    · rw [if_neg hzero,if_pos hbig] at h
      cases h
    rw [if_neg hzero,if_neg hbig,Prod.mk.injEq,Option.some.injEq] at h
    obtain ⟨rfl,rfl⟩ := h
    refine ⟨text,⟨by omega,htext.length_le,htext.isDigit,?_⟩,rfl⟩
    have hle : octet.toNat ≤ 255 := by simpa [UInt16.lt_iff_toNat_lt] using hbig
    rw [htext.value_eq,UInt16.toNat_toUInt8,Nat.mod_eq_of_lt (by omega)]
  complete {a text rest} h hrest := by
    obtain ⟨octet,hoctet,hup⟩ := consumeUpTo_of_numeral (by decide) takesDigits_dec (by decide)
      nextOctet_toNat h hrest
    have hpos : ¬ text.length = 0 := by have hle := h.le_length; omega
    have hsmall : ¬ 255 < octet := by
      rw [UInt16.lt_iff_toNat_lt,hoctet]
      simpa using Nat.le_of_lt_succ a.toNat_lt
    rw [consumeOctetDec,consumeDec,hup]
    dsimp only
    rw [if_neg hpos,if_neg hsmall]
    congr 2
    rw [← UInt8.toNat_inj,UInt16.toNat_toUInt8,hoctet,Nat.mod_eq_of_lt a.toNat_lt]

/-- A hextet is one to four hexadecimal digits. -/
def IsHextet (a : UInt16) : List UInt8 → Prop := IsNumeral 16 1 4 a.toNat

theorem consumeHextet_reads : Reads consumeHextet IsHextet (NoItem hexDigit) where
  sound {s a rest} h := by
    rcases hup : consumeUpTo consumeHex nextHextet 4 0 0 s with ⟨len,hextet,str⟩
    obtain ⟨text,rfl,rfl,htext⟩ :=
      consumeUpTo_numeral (by decide) takesDigits_hex (by decide) nextHextet_toNat hup
    rw [consumeHextet,hup] at h
    dsimp only at h
    by_cases hzero : text.length = 0
    · rw [if_pos hzero] at h
      cases h
    rw [if_neg hzero,Prod.mk.injEq,Option.some.injEq] at h
    obtain ⟨rfl,rfl⟩ := h
    exact ⟨text,⟨by omega,htext.length_le,htext.isDigit,htext.value_eq⟩,rfl⟩
  complete {a text rest} h hrest := by
    obtain ⟨hextet,hhextet,hup⟩ := consumeUpTo_of_numeral (by decide) takesDigits_hex (by decide)
      nextHextet_toNat h hrest
    have hpos : ¬ text.length = 0 := by have hle := h.le_length; omega
    rw [consumeHextet,consumeHex,hup]
    dsimp only
    rw [if_neg hpos,UInt16.toNat_inj.mp hhextet]

/-- A hexadecimal pair is two digits. -/
def IsHexPair (a : UInt8) : List UInt8 → Prop := IsNumeral 16 2 2 a.toNat

theorem pair_toNat {hi low : UInt8} (hhi : hi.toNat < 16) (hlow : low.toNat < 16) :
    (hi <<< 4 ||| low).toNat = hi.toNat*16+low.toNat := by
  have hlow' : low.toNat < 2^4 := hlow
  have hshift : (hi <<< 4).toNat = hi.toNat <<< 4 := by
    rw [UInt8.toNat_shiftLeft,Nat.shiftLeft_eq,Nat.shiftLeft_eq]
    exact Nat.mod_eq_of_lt (by simp; omega)
  rw [UInt8.toNat_or,hshift,← Nat.shiftLeft_add_eq_or_of_lt hlow' hi.toNat,Nat.shiftLeft_eq]

theorem consumeHexPair_reads : Reads consumeHexPair IsHexPair fun _ => True where
  sound {s a rest} h := by
    rw [consumeHexPair,consumeHex] at h
    obtain hno | ⟨c,hi,t,rfl,hc⟩ := item_cases hexDigit s
    · rw [item_of_noItem hno] at h
      cases h
    rw [item_cons hc] at h
    dsimp only at h
    obtain hno | ⟨c',low,t,rfl,hc'⟩ := item_cases hexDigit t
    · rw [item_of_noItem hno] at h
      cases h
    rw [item_cons hc'] at h
    dsimp only at h
    rw [Prod.mk.injEq,Option.some.injEq] at h
    obtain ⟨rfl,rfl⟩ := h
    refine ⟨[c,c'],⟨le_rfl,le_rfl,?_,?_⟩,rfl⟩
    · simpa using ⟨⟨hi,hc,hexDigit_lt hc⟩,low,hc',hexDigit_lt hc'⟩
    · rw [pair_toNat (hexDigit_lt hc) (hexDigit_lt hc')]
      simp [numeralValue,Numerals.value,digitValue_eq hc,digitValue_eq hc']
  complete {a text rest} h _ := by
    obtain ⟨c,c',rfl⟩ := List.length_eq_two.mp (h.length_le.antisymm h.le_length)
    obtain ⟨hi,hc,hhi⟩ := h.isDigit c (by simp)
    obtain ⟨low,hc',hlow⟩ := h.isDigit c' (by simp)
    have hvalue := h.value_eq
    simp only [numeralValue,Numerals.value,List.map_cons,List.map_nil,Numerals.readOn_cons,
      Numerals.readOn_nil,digitValue_eq hc,digitValue_eq hc',zero_mul,zero_add] at hvalue
    have ha : hi <<< 4 ||| low = a := by
      rw [← UInt8.toNat_inj,pair_toNat hhi hlow,hvalue]
    rw [consumeHexPair,consumeHex,List.cons_append,item_cons hc]
    dsimp only
    rw [List.cons_append,item_cons hc']
    dsimp only
    rw [ha,List.nil_append]

/-- A consumer that fails leaves the cursor where it was. -/
def Stays {α : Type} (c : Consume UInt8 α) : Prop := ∀ s, (c s).1 = none → (c s).2 = s

theorem consumeHextet_stays : Stays consumeHextet := by
  intro s h
  rcases hup : consumeUpTo consumeHex nextHextet 4 0 0 s with ⟨len,hextet,str⟩
  obtain ⟨text,rfl,rfl,-⟩ :=
    consumeUpTo_numeral (by decide) takesDigits_hex (by decide) nextHextet_toNat hup
  rw [consumeHextet,hup] at h ⊢
  dsimp only at h ⊢
  by_cases hzero : text.length = 0
  · rw [if_pos hzero,List.eq_nil_of_length_eq_zero hzero,List.nil_append]
  · rw [if_neg hzero] at h
    cases h

end Specs

section Trim

open ActionOui (isSpace skipSpaces)

def Blank (s : List UInt8) : Prop := ∀ c ∈ s, isSpace c = true

/-- `s` is a text of `G` between white space. -/
def Trimmed (G : List UInt8 → Prop) (s : List UInt8) : Prop :=
  ∃ front text back, Blank front ∧ Blank back ∧ G text ∧ s = front++(text++back)

theorem skipSpaces_eq_nil_iff (s : List UInt8) : skipSpaces s = [] ↔ Blank s :=
  List.dropWhile_eq_nil_iff

theorem skipSpaces_cons {c : UInt8} (h : isSpace c = false) (s : List UInt8) :
    skipSpaces (c::s) = c::s := List.dropWhile_cons_of_neg (by simp [h])

theorem skipSpaces_append {front : List UInt8} (h : Blank front) (s : List UInt8) :
    skipSpaces (front++s) = skipSpaces s := by
  induction front with
  | nil => rfl
  | cons c front ih =>
    rw [Blank,List.forall_mem_cons] at h
    rw [List.cons_append,skipSpaces,List.dropWhile_cons_of_pos h.1]
    exact ih h.2

theorem exists_blank_front (s : List UInt8) : ∃ front, Blank front ∧ s = front++skipSpaces s :=
  ⟨s.takeWhile isSpace,fun _ hc => List.mem_takeWhile_imp hc,
    List.takeWhile_append_dropWhile.symm⟩

theorem skipSpaces_text {front text back : List UInt8} (hfront : Blank front)
    (hdark : ∃ c t, text = c::t ∧ isSpace c = false) :
    skipSpaces (front++(text++back)) = text++back := by
  obtain ⟨c,t,rfl,hc⟩ := hdark
  rw [skipSpaces_append hfront,List.cons_append,skipSpaces_cons hc]

/-- White space at both ends can be taken off in one way. -/
theorem trimmed_text {front text back front' text' back' : List UInt8} (hfront : Blank front)
    (hfront' : Blank front') (hback : Blank back) (hback' : Blank back')
    (hdark : ∃ c t, text = c::t ∧ isSpace c = false)
    (hdark' : ∃ c t, text' = c::t ∧ isSpace c = false)
    (hend : ∃ u c, text = u++[c] ∧ isSpace c = false)
    (hend' : ∃ u c, text' = u++[c] ∧ isSpace c = false)
    (h : front++(text++back) = front'++(text'++back')) : text = text' := by
  have hrev {t b : List UInt8} (hb : Blank b) (ht : ∃ u c, t = u++[c] ∧ isSpace c = false) :
      skipSpaces (t++b).reverse = t.reverse := by
    obtain ⟨u,c,rfl,hc⟩ := ht
    have hb' : Blank b.reverse := fun d hd => hb d (List.mem_reverse.mp hd)
    rw [List.reverse_append,skipSpaces_append hb',List.reverse_append]
    exact skipSpaces_cons hc _
  have hcut := congrArg skipSpaces h
  rw [skipSpaces_text hfront hdark,skipSpaces_text hfront' hdark'] at hcut
  have hsame := congrArg (skipSpaces ∘ List.reverse) hcut
  rw [Function.comp_apply,Function.comp_apply,hrev hback hend,hrev hback' hend'] at hsame
  exact List.reverse_injective hsame

/-- No text of `G` starts with white space. -/
def StartsDark (G : List UInt8 → Prop) : Prop :=
  ∀ text, G text → ∃ c t, text = c::t ∧ isSpace c = false

/-- A consumer between the two trims reads texts between white space. -/
theorem trimmed_iff {α : Type} {c : Consume UInt8 α} {G : α → List UInt8 → Prop}
    {Ends : List UInt8 → Prop} (hc : Reads c G Ends) (hends : ∀ back, Blank back → Ends back)
    {a : α} (hdark : StartsDark (G a)) (s : List UInt8) :
    (∃ rest, c (skipSpaces s) = (some a,rest) ∧ skipSpaces rest = []) ↔ Trimmed (G a) s := by
  constructor
  · rintro ⟨rest,hrest,hnil⟩
    obtain ⟨text,htext,heq⟩ := hc.sound hrest
    obtain ⟨front,hfront,hs⟩ := exists_blank_front s
    exact ⟨front,text,rest,hfront,(skipSpaces_eq_nil_iff rest).mp hnil,htext,heq ▸ hs⟩
  · rintro ⟨front,text,back,hfront,hback,htext,rfl⟩
    refine ⟨back,?_,(skipSpaces_eq_nil_iff back).mpr hback⟩
    rw [skipSpaces_text hfront (hdark text htext)]
    exact hc.complete htext (hends back hback)

end Trim

end QdfTypes
end MarbleModules
