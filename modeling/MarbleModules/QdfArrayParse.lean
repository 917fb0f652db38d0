import Mathlib.Logic.Function.Basic
import MarbleModules.QdfIntParse

/-! The array parsers of `qdf_types.c`: they go over the unsplit string with the lazy integer
parser, and do what the scalar parser would do with the pieces between the commas. -/
namespace MarbleModules
namespace QdfTypes

open Consumers
open ActionOui (isSpace skipSpaces)

/-- The conversions to an unsigned type of at most 32 bits, and back. -/
structure Width (α : Type) where
  narrow : UInt64 → α
  widen : α → UInt64
  le_32 : ∀ v, widen (narrow v) = v → v.toUInt32.toUInt64 = v

def Width.Fits {α : Type} (w : Width α) (v : UInt64) : Prop := w.widen (w.narrow v) = v

instance {α : Type} (w : Width α) (v : UInt64) : Decidable (w.Fits v) :=
  inferInstanceAs (Decidable (_ = _))

/-- The status of an array parser, the array and the size it was given. -/
structure ArrayOut (α : Type) where
  status : QdfStatus
  outArray : ℕ → α
  outSize : ℕ

section Code

variable {α : Type}

/-- The loop of the array parsers, with room for as many more values. -/
def arrayLoop (w : Width α) (outSize : ℕ) : ℕ → ℕ → (ℕ → α) → List UInt8 → ArrayOut α
  | 0,_,outArray,_ => ⟨.eFailure,outArray,outSize⟩
  | n+1,size,outArray,inStr =>
    match intParseLazy inStr with
    | .error status => ⟨status,outArray,outSize⟩
    | .ok (value,negate,inStr) =>
      if ¬ w.Fits value ∨ negate then ⟨.eRange,outArray,outSize⟩
      else
        match skipSpaces inStr with
        | [] => ⟨.success,Function.update outArray size (w.narrow value),size+1⟩
        | c::inStr =>
          if c = 44 then
            arrayLoop w outSize n (size+1) (Function.update outArray size (w.narrow value)) inStr
          else ⟨.eFailure,outArray,outSize⟩

/-- An array parser: what it leaves in `out_array` and `out_size`, given their contents. -/
def arrayParse (w : Width α) (inStr : List UInt8) (arraySize : ℕ) (outArray : ℕ → α)
    (outSize : ℕ) : ArrayOut α :=
  arrayLoop w outSize arraySize 0 outArray inStr

end Code

def u32 : Width UInt32 := ⟨UInt64.toUInt32,UInt32.toUInt64,fun _ h => h⟩

theorem toUInt32_of_lt {v : UInt64} (h : v.toNat < 2^32) : v.toUInt32.toUInt64 = v := by
  rw [← UInt64.toNat_inj]
  simpa using Nat.mod_eq_of_lt h

def u16 : Width UInt16 where
  narrow := UInt64.toUInt16
  widen := UInt16.toUInt64
  le_32 v h := by
    refine toUInt32_of_lt ?_
    rw [← h,UInt16.toNat_toUInt64]
    exact v.toUInt16.toNat_lt.trans (by decide)

def u8 : Width UInt8 where
  narrow := UInt64.toUInt8
  widen := UInt8.toUInt64
  le_32 v h := by
    refine toUInt32_of_lt ?_
    rw [← h,UInt8.toNat_toUInt64]
    exact v.toUInt8.toNat_lt.trans (by decide)

/-- `qdf_uint32_array_parse` -/
def uint32ArrayParse := arrayParse u32

/-- `qdf_uint16_array_parse` -/
def uint16ArrayParse := arrayParse u16

/-- `qdf_uint8_array_parse` -/
def uint8ArrayParse := arrayParse u8

section Pieces

variable {α : Type}

/-- `qdf_uint32_parse` with its range restricted to the width. -/
def restrictedParse (w : Width α) (s : List UInt8) : Except QdfStatus α :=
  match uint32Parse s with
  | .error status => .error status
  | .ok v => if w.Fits v.toUInt64 then .ok (w.narrow v.toUInt64) else .error .eRange

def pieces (s : List UInt8) : List (List UInt8) := s.splitOn 44

/-- An array parser's outcome `r` is that of `parse` on the pieces of `s`; `reject` is the
status for a rejected piece. -/
structure AgreesWith (parse : List UInt8 → Except QdfStatus α)
    (reject : List UInt8 → QdfStatus → QdfStatus) (n : ℕ) (s : List UInt8)
    (r : ArrayOut α) : Prop where
  success_iff : r.status = .success ↔
    1 ≤ (pieces s).length ∧ (pieces s).length ≤ n ∧ ∀ p ∈ pieces s, ∃ v, parse p = .ok v
  size_eq : r.status = .success → r.outSize = (pieces s).length
  entry : r.status = .success → ∀ i p, (pieces s)[i]? = some p → parse p = .ok (r.outArray i)
  rejected : ∀ i < n, ∀ p status, (pieces s)[i]? = some p →
    (∀ q ∈ (pieces s).take i, ∃ v, parse q = .ok v) → parse p = .error status →
      r.status = reject p status
  full : n < (pieces s).length → (∀ p ∈ (pieces s).take n, ∃ v, parse p = .ok v) →
    r.status = .eFailure

/-- What the array parsers do with one piece: the range is checked before what follows. -/
def pieceParse (w : Width α) (p : List UInt8) : Except QdfStatus α :=
  match intParseLazy p with
  | .error status => .error status
  | .ok (value,negate,rest) =>
    if ¬ w.Fits value ∨ negate then .error .eRange
    else if skipSpaces rest ≠ [] then .error .eFailure
    else .ok (w.narrow value)

/-- The loop over pieces that are already apart. -/
def fillPieces (parse : List UInt8 → Except QdfStatus α) (outSize : ℕ) :
    ℕ → ℕ → (ℕ → α) → List (List UInt8) → ArrayOut α
  | 0,_,out,_ => ⟨.eFailure,out,outSize⟩
  | _+1,_,out,[] => ⟨.eFailure,out,outSize⟩
  | n+1,size,out,p::ps =>
    match parse p with
    | .error status => ⟨status,out,outSize⟩
    | .ok v =>
      if ps = [] then ⟨.success,Function.update out size v,size+1⟩
      else fillPieces parse outSize n (size+1) (Function.update out size v) ps

end Pieces

section Unsplit

theorem skipSpaces_append_comma (s t : List UInt8) :
    skipSpaces (s++44::t) = skipSpaces s++44::t := by
  induction s with
  | nil => rfl
  | cons c s ih =>
    cases h : isSpace c with
    | true =>
      rw [List.cons_append,skipSpaces,List.dropWhile_cons_of_pos h,skipSpaces,
        List.dropWhile_cons_of_pos h]
      exact ih
    | false => rw [List.cons_append,skipSpaces_cons h,skipSpaces_cons h,List.cons_append]

theorem item_append_comma {α : Type} {f : UInt8 → Option α} (h : f 44 = none)
    (s t : List UInt8) : item f (s++44::t) = ((item f s).1,(item f s).2++44::t) := by
  obtain hno | ⟨c,a,u,rfl,hc⟩ := item_cases f s
  · rw [item_of_noItem hno]
    cases s with
    | nil => exact item_of_noItem ((noItem_cons f 44 t).mpr h)
    | cons c s => exact item_of_noItem ((noItem_cons f c _).mpr ((noItem_cons f c s).mp hno))
  · rw [item_cons hc,List.cons_append,item_cons hc]

theorem consumeChar_append_comma {c : UInt8} (hc : c ≠ 44) (s t : List UInt8) :
    consumeChar c (s++44::t) = ((consumeChar c s).1,(consumeChar c s).2++44::t) :=
  item_append_comma (if_neg hc.symm) s t

theorem consumeSign_append_comma (s t : List UInt8) :
    consumeSign (s++44::t) = ((consumeSign s).1,(consumeSign s).2++44::t) := by
  rw [consumeSign,consumeSign,consumeChar_append_comma (by decide)]
  rcases consumeChar 45 s with ⟨_ | _,str⟩
  · dsimp only
    rw [consumeChar_append_comma (by decide)]
  · rfl

theorem consumeRadix_of_ne {c : UInt8} (hc : c ≠ 48) (s : List UInt8) :
    consumeRadix (c::s) =
      if 48 ≤ c ∧ c ≤ 57 then (some 10,c::s) else (none,c::s) := by
  unfold consumeRadix
  split
  · next heq => exact absurd (List.cons.inj heq).1 hc
  · next heq => exact absurd (List.cons.inj heq).1 hc
  · next heq => exact absurd (List.cons.inj heq).1 hc
  · next heq => cases heq
  · next heq =>
    obtain ⟨rfl,rfl⟩ := List.cons.inj heq
    rfl

theorem consumeRadix_append_comma (s t : List UInt8) :
    consumeRadix (s++44::t) = ((consumeRadix s).1,(consumeRadix s).2++44::t) := by
  cases s with
  | nil => exact consumeRadix_of_ne (by decide) t
  | cons c s =>
    by_cases hc : c = 48
    · subst hc
      cases s with
      | nil => rfl
      | cons d u =>
        by_cases hb : d = 98
        · subst hb; rfl
        by_cases ho : d = 111
        · subst ho; rfl
        by_cases hx : d = 120
        · subst hx; rfl
        have hd : ∀ v : List UInt8, ∀ e ∈ (d::v).head?, e ≠ 98 ∧ e ≠ 111 ∧ e ≠ 120 := by
          rintro v e he
          obtain rfl : d = e := by simpa using he
          exact ⟨hb,ho,hx⟩
        rw [List.cons_append,List.cons_append,consumeRadix_dec (by decide) (hd _),
          consumeRadix_dec (by decide) (hd _)]
        rfl
    · rw [List.cons_append,consumeRadix_of_ne hc,consumeRadix_of_ne hc]
      split_ifs <;> rfl

theorem consumeDigits_append_comma (radix : UInt8) (value : UInt64) (s t : List UInt8) :
    consumeDigits radix value (s++44::t) =
      match consumeDigits radix value s with
      | .error status => .error status
      | .ok (v,rest) => .ok (v,rest++44::t) := by
  induction s generalizing value with
  | nil => rfl
  | cons c s ih =>
    rw [List.cons_append,consumeDigits,consumeDigits]
    cases hexDigit c with
    | none => rfl
    | some digit =>
      dsimp only
      split_ifs
      · rfl
      · rfl
      · exact ih _

/-- A comma stops the lazy parser. -/
theorem intParseLazy_append_comma (s t : List UInt8) :
    intParseLazy (s++44::t) =
      match intParseLazy s with
      | .error status => .error status
      | .ok (v,negate,rest) => .ok (v,negate,rest++44::t) := by
  rw [intParseLazy,intParseLazy,skipSpaces_append_comma,consumeSign_append_comma]
  dsimp only
  rw [consumeRadix_append_comma]
  rcases consumeRadix (consumeSign (skipSpaces s)).2 with ⟨_ | radix,str⟩
  · rfl
  · dsimp only
    rw [consumeDigits_append_comma]
    rcases consumeDigits radix 0 str with _ | ⟨v,rest⟩ <;> rfl

theorem head_ne_comma {p rest : List UInt8} {v : UInt64} {negate : Bool} {c : UInt8}
    {u : List UInt8} (hp : 44 ∉ p) (h : intParseLazy p = .ok (v,negate,rest))
    (hrest : skipSpaces rest = c::u) : c ≠ 44 := by
  rintro rfl
  obtain ⟨front,l,_,rfl,_⟩ := intParseLazy_sound h
  refine hp ?_
  have hmem : 44 ∈ skipSpaces rest := hrest ▸ List.mem_cons_self
  simp [(List.dropWhile_suffix isSpace).subset hmem]

variable {α : Type} (w : Width α) (outSize : ℕ)

/-- The loop at the last piece. -/
theorem arrayLoop_last {p : List UInt8} (hp : 44 ∉ p) (n size : ℕ) (out : ℕ → α) :
    arrayLoop w outSize (n+1) size out p =
      match pieceParse w p with
      | .error status => ⟨status,out,outSize⟩
      | .ok v => ⟨.success,Function.update out size v,size+1⟩ := by
  rw [arrayLoop,pieceParse]
  rcases hlazy : intParseLazy p with status | ⟨value,negate,rest⟩
  · rfl
  dsimp only
  split_ifs with hrange hjunk
  · rfl
  · obtain ⟨c,u,hcu⟩ := List.exists_cons_of_ne_nil hjunk
    rw [hcu]
    exact if_neg (head_ne_comma hp hlazy hcu)
  · rw [not_not.mp hjunk]

/-- The loop at a piece before a comma. -/
theorem arrayLoop_comma {p : List UInt8} (hp : 44 ∉ p) (t : List UInt8) (n size : ℕ)
    (out : ℕ → α) :
    arrayLoop w outSize (n+1) size out (p++44::t) =
      match pieceParse w p with
      | .error status => ⟨status,out,outSize⟩
      | .ok v => arrayLoop w outSize n (size+1) (Function.update out size v) t := by
  rw [arrayLoop,pieceParse,intParseLazy_append_comma]
  rcases hlazy : intParseLazy p with status | ⟨value,negate,rest⟩
  · rfl
  dsimp only
  rw [skipSpaces_append_comma]
  split_ifs with hrange hjunk
  · rfl
  · obtain ⟨c,u,hcu⟩ := List.exists_cons_of_ne_nil hjunk
    rw [hcu]
    exact if_neg (head_ne_comma hp hlazy hcu)
  · rw [not_not.mp hjunk]
    exact if_pos rfl

theorem arrayLoop_eq (n size : ℕ) (out : ℕ → α) (s : List UInt8) :
    arrayLoop w outSize n size out s =
      fillPieces (pieceParse w) outSize n size out (pieces s) := by
  induction n generalizing size out s with
  | zero => rfl
  | succ n ih =>
    by_cases hs : 44 ∈ s
    · obtain ⟨p,t,rfl,hp⟩ := List.eq_append_cons_of_mem hs
      have hpieces : pieces (p++44::t) = p::pieces t :=
        List.splitOn_append_cons_self_of_not_mem hp t
      have hne : pieces t ≠ [] := List.splitOn_ne_nil 44 t
      rw [hpieces,arrayLoop_comma w outSize hp,fillPieces]
      cases pieceParse w p with
      | error status => rfl
      | ok v =>
        dsimp only
        rw [if_neg hne]
        exact ih _ _ _
    · have hpieces : pieces s = [s] := List.splitOn_eq_singleton hs
      rw [hpieces,arrayLoop_last w outSize hs,fillPieces]
      cases pieceParse w s <;> rfl

end Unsplit

section Filled

variable {α : Type} {parse : List UInt8 → Except QdfStatus α} {outSize : ℕ}

theorem fillPieces_complete {ps : List (List UInt8)} (hne : ps ≠ []) {n : ℕ}
    (hlen : ps.length ≤ n) (hok : ∀ p ∈ ps, ∃ v, parse p = .ok v) (size : ℕ) (out : ℕ → α) :
    (fillPieces parse outSize n size out ps).status = .success := by
  induction ps generalizing n size out with
  | nil => exact absurd rfl hne
  | cons p ps ih =>
    rw [List.forall_mem_cons] at hok
    obtain ⟨⟨v,hv⟩,hok⟩ := hok
    cases n with
    | zero => cases hlen
    | succ n =>
      rw [fillPieces,hv]
      dsimp only
      split_ifs with hnil
      · rfl
      · exact ih hnil (Nat.le_of_succ_le_succ hlen) hok _ _

/-- What a success tells; the entries before `size` are left alone. -/
theorem fillPieces_sound (herr : ∀ p, parse p ≠ .error .success) {n size : ℕ} {out : ℕ → α}
    {ps : List (List UInt8)}
    (h : (fillPieces parse outSize n size out ps).status = .success) :
    ps.length ≤ n ∧ (fillPieces parse outSize n size out ps).outSize = size+ps.length ∧
      (∀ i p, ps[i]? = some p →
        parse p = .ok ((fillPieces parse outSize n size out ps).outArray (size+i))) ∧
      ∀ i < size, (fillPieces parse outSize n size out ps).outArray i = out i := by
  induction ps generalizing n size out with
  | nil => cases n <;> cases h
  | cons p ps ih =>
    cases n with
    | zero => cases h
    | succ n =>
      rw [fillPieces] at h ⊢
      cases hp : parse p with
      | error status =>
        rw [hp] at h
        exact absurd (h ▸ hp) (herr p)
      | ok v =>
        rw [hp] at h
        dsimp only at h ⊢
        by_cases hnil : ps = []
        · subst hnil
          rw [if_pos rfl]
          refine ⟨Nat.succ_le_succ (Nat.zero_le n),rfl,fun i q hq => ?_,fun i hi => ?_⟩
          · cases i with
            | zero =>
              obtain rfl : p = q := by simpa using hq
              simpa using hp
            | succ i => simp at hq
          · exact Function.update_of_ne (by omega) _ _
        · rw [if_neg hnil] at h ⊢
          obtain ⟨hlen,hsize,hentry,hbefore⟩ := ih h
          refine ⟨Nat.succ_le_succ hlen,?_,fun i q hq => ?_,fun i hi => ?_⟩
          · rw [hsize,List.length_cons]
            omega
          · cases i with
            | zero =>
              obtain rfl : p = q := by simpa using hq
              have hsame := hbefore size (Nat.lt_succ_self size)
              rw [Function.update_self] at hsame
              exact hp.trans (congrArg Except.ok hsame.symm)
            | succ i =>
              rw [List.getElem?_cons_succ] at hq
              rw [show size+(i+1) = size+1+i by omega]
              exact hentry i q hq
          · rw [hbefore i (by omega)]
            exact Function.update_of_ne (by omega) _ _

theorem fillPieces_rejected {n i : ℕ} (hi : i < n) {ps : List (List UInt8)} {p : List UInt8}
    {status : QdfStatus} (hp : ps[i]? = some p)
    (hok : ∀ q ∈ ps.take i, ∃ v, parse q = .ok v) (herr : parse p = .error status) (size : ℕ)
    (out : ℕ → α) : (fillPieces parse outSize n size out ps).status = status := by
  induction ps generalizing n i size out with
  | nil => simp at hp
  | cons q ps ih =>
    cases n with
    | zero => cases hi
    | succ n =>
      rw [fillPieces]
      cases i with
      | zero =>
        obtain rfl : q = p := by simpa using hp
        rw [herr]
      | succ i =>
        rw [List.take_succ_cons,List.forall_mem_cons] at hok
        obtain ⟨⟨v,hv⟩,hok⟩ := hok
        rw [List.getElem?_cons_succ] at hp
        have hne : ps ≠ [] := by
          rintro rfl
          simp at hp
        rw [hv]
        dsimp only
        rw [if_neg hne]
        exact ih (Nat.lt_of_succ_lt_succ hi) hp hok _ _

theorem fillPieces_full {n : ℕ} {ps : List (List UInt8)} (hlen : n < ps.length)
    (hok : ∀ p ∈ ps.take n, ∃ v, parse p = .ok v) (size : ℕ) (out : ℕ → α) :
    (fillPieces parse outSize n size out ps).status = .eFailure := by
  induction ps generalizing n size out with
  | nil => cases hlen
  | cons p ps ih =>
    cases n with
    | zero => rfl
    | succ n =>
      rw [List.take_succ_cons,List.forall_mem_cons] at hok
      obtain ⟨⟨v,hv⟩,hok⟩ := hok
      have hlt : n < ps.length := Nat.lt_of_succ_lt_succ hlen
      have hne : ps ≠ [] := by
        rintro rfl
        cases hlt
      rw [fillPieces,hv]
      dsimp only
      rw [if_neg hne]
      exact ih hlt hok _ _

end Filled

section Agreement

variable {α : Type} (w : Width α)

theorem consumeDigits_error {radix : UInt8} {value : UInt64} {s : List UInt8}
    {status : QdfStatus} (h : consumeDigits radix value s = .error status) :
    status ≠ .success := by
  induction s generalizing value with
  | nil => cases h
  | cons c s ih =>
    rw [consumeDigits] at h
    cases hdigit : hexDigit c with
    | none =>
      rw [hdigit] at h
      cases h
    | some digit =>
      rw [hdigit] at h
      dsimp only at h
      split_ifs at h with hradix hdrop
      · cases h
        decide
      · cases h
        decide
      · exact ih h

theorem intParseLazy_error {s : List UInt8} {status : QdfStatus}
    (h : intParseLazy s = .error status) : status ≠ .success := by
  rw [intParseLazy] at h
  dsimp only at h
  rcases hradix : consumeRadix (consumeSign (skipSpaces s)).2 with ⟨_ | radix,str⟩
  · rw [hradix] at h
    cases h
    decide
  rw [hradix] at h
  dsimp only at h
  rcases hdigits : consumeDigits radix 0 str with status' | ⟨v,rest⟩
  · rw [hdigits] at h
    cases h
    exact consumeDigits_error hdigits
  · rw [hdigits] at h
    cases h

theorem pieceParse_error (p : List UInt8) : pieceParse w p ≠ .error .success := by
  rw [pieceParse]
  rcases hlazy : intParseLazy p with status | ⟨v,negate,rest⟩
  · intro h
    exact intParseLazy_error hlazy (Except.error.inj h)
  · dsimp only
    split_ifs <;> simp

/-- `qdf_uint32_parse` at the width, from the lazy parser. -/
theorem restrictedParse_eq (p : List UInt8) :
    restrictedParse w p =
      match intParseLazy p with
      | .error status => .error status
      | .ok (v,negate,rest) =>
        if skipSpaces rest ≠ [] then .error .eFailure
        else if ¬ w.Fits v ∨ negate then .error .eRange
        else .ok (w.narrow v) := by
  rw [restrictedParse,uint32Parse,uint64Parse,intParse]
  rcases intParseLazy p with status | ⟨v,negate,rest⟩
  · rfl
  dsimp only
  by_cases hjunk : skipSpaces rest = []
  · simp only [hjunk,ne_eq,not_true_eq_false,if_false]
    cases negate with
    | true => simp
    | false =>
      simp only [Bool.false_eq_true,if_false,or_false]
      by_cases h32 : v.toUInt32.toUInt64 = v
      · simp only [h32,not_true_eq_false,if_false]
        split_ifs with hfits <;> rfl
      · have hfits : ¬ w.Fits v := fun h => h32 (w.le_32 v h)
        rw [if_pos h32,if_pos hfits]
  · simp [hjunk]

/-- A value that does not fit, or a negative one, and something other than white space after
it. -/
def outOfRangeThenJunk (p : List UInt8) : Bool :=
  match intParseLazy p with
  | .error _ => false
  | .ok (v,negate,rest) => decide ((¬ w.Fits v ∨ negate = true) ∧ skipSpaces rest ≠ [])

/-- The status of the array parsers for a piece that the scalar parser rejects. -/
def rejectStatus (p : List UInt8) (status : QdfStatus) : QdfStatus :=
  if outOfRangeThenJunk w p then .eRange else status

theorem pieceParse_ok_iff (p : List UInt8) (v : α) :
    pieceParse w p = .ok v ↔ restrictedParse w p = .ok v := by
  rw [restrictedParse_eq,pieceParse]
  rcases intParseLazy p with status | ⟨value,negate,rest⟩
  · exact Iff.rfl
  · dsimp only
    split_ifs <;> simp

theorem pieceParse_of_error {p : List UInt8} {status : QdfStatus}
    (h : restrictedParse w p = .error status) :
    pieceParse w p = .error (rejectStatus w p status) := by
  rw [restrictedParse_eq] at h
  rw [rejectStatus,outOfRangeThenJunk,pieceParse]
  rcases hlazy : intParseLazy p with status' | ⟨value,negate,rest⟩
  · rw [hlazy] at h
    exact h
  · rw [hlazy] at h
    dsimp only at h ⊢
    split_ifs at h ⊢ <;> simp_all

/-- The array parsers agree with the scalar parser, but for the status of a piece that is out of
range before it goes wrong. -/
theorem arrayParse_agrees (s : List UInt8) (n : ℕ) (out : ℕ → α) (outSize : ℕ) :
    AgreesWith (restrictedParse w) (rejectStatus w) n s (arrayParse w s n out outSize) := by
  have heq : arrayParse w s n out outSize =
      fillPieces (pieceParse w) outSize n 0 out (pieces s) := arrayLoop_eq w outSize n 0 out s
  have hne : pieces s ≠ [] := List.splitOn_ne_nil 44 s
  have hok (p : List UInt8) :
      (∃ v, restrictedParse w p = .ok v) ↔ ∃ v, pieceParse w p = .ok v :=
    exists_congr fun v => (pieceParse_ok_iff w p v).symm
  have hsound (h : (arrayParse w s n out outSize).status = .success) :=
    fillPieces_sound (pieceParse_error w) (heq ▸ h)
  rw [← heq] at hsound
  refine ⟨⟨fun h => ?_,?_⟩,fun h => ?_,fun h i p hp => ?_,?_,?_⟩
  · obtain ⟨hlen,_,hentry,_⟩ := hsound h
    refine ⟨List.length_pos_of_ne_nil hne,hlen,fun p hp => ?_⟩
    obtain ⟨i,hi⟩ := List.mem_iff_getElem?.mp hp
    exact (hok p).mpr ⟨_,hentry i p hi⟩
  · rintro ⟨_,hlen,hall⟩
    rw [heq]
    exact fillPieces_complete hne hlen (fun p hp => (hok p).mp (hall p hp)) 0 out
  · rw [(hsound h).2.1,Nat.zero_add]
  · have hentry := (hsound h).2.2.1 i p hp
    rw [Nat.zero_add] at hentry
    exact (pieceParse_ok_iff w p _).mp hentry
  · intro i hi p status hp hall herr
    rw [heq]
    exact fillPieces_rejected hi hp (fun q hq => (hok q).mp (hall q hq))
      (pieceParse_of_error w herr) 0 out
  · intro hlen hall
    rw [heq]
    exact fillPieces_full hlen (fun p hp => (hok p).mp (hall p hp)) 0 out

/-- At 32 bits nothing is restricted. -/
theorem restrictedParse_u32 : restrictedParse u32 = uint32Parse := by
  funext s
  rw [restrictedParse]
  cases uint32Parse s with
  | error status => rfl
  | ok v =>
    have hfits : u32.Fits v.toUInt64 := by
      change v.toUInt64.toUInt32.toUInt64 = v.toUInt64
      rw [UInt32.toUInt32_toUInt64]
    dsimp only
    rw [if_pos hfits]
    exact congrArg Except.ok (UInt32.toUInt32_toUInt64 v)

/-- The three array parsers are scalar parsing piece by piece. -/
theorem arrayParses_agree (s : List UInt8) (n : ℕ) (out32 : ℕ → UInt32) (out16 : ℕ → UInt16)
    (out8 : ℕ → UInt8) (outSize : ℕ) :
    AgreesWith uint32Parse (rejectStatus u32) n s (uint32ArrayParse s n out32 outSize) ∧
      AgreesWith (restrictedParse u16) (rejectStatus u16) n s
        (uint16ArrayParse s n out16 outSize) ∧
      AgreesWith (restrictedParse u8) (rejectStatus u8) n s
        (uint8ArrayParse s n out8 outSize) := by
  refine ⟨?_,arrayParse_agrees u16 s n out16 outSize,arrayParse_agrees u8 s n out8 outSize⟩
  have h32 := arrayParse_agrees u32 s n out32 outSize
  rwa [restrictedParse_u32] at h32

/-- `-1x` is out of range for the array parser, and no number for the scalar one. -/
theorem not_agrees_minus_one_junk :
    uint32Parse [45,49,120] = .error .eFailure ∧
      (uint32ArrayParse [45,49,120] 1 (fun _ => 0) 0).status = .eRange ∧
      ¬ AgreesWith uint32Parse (fun _ status => status) 1 [45,49,120]
        (uint32ArrayParse [45,49,120] 1 (fun _ => 0) 0) := by
  have hscalar : uint32Parse [45,49,120] = .error .eFailure := by decide
  have harray : (uint32ArrayParse [45,49,120] 1 (fun _ => 0) 0).status = .eRange := by decide
  refine ⟨hscalar,harray,fun h => ?_⟩
  have hpieces : pieces [45,49,120] = [[45,49,120]] := by decide
  have hstatus := h.rejected 0 (by decide) [45,49,120] .eFailure (by rw [hpieces]; rfl)
    (by simp) hscalar
  rw [harray] at hstatus
  cases hstatus

end Agreement

end QdfTypes
end MarbleModules
