import Mathlib.Data.List.DropRight
import Mathlib.Data.Nat.Notation

/-! The action OUI strings of the ini file: the tokens, their conversion and the extensions the
parser stores. -/
namespace MarbleModules
namespace ActionOui

def maxOuiLength : ℕ := 5
def maxDataLength : ℕ := 20
def maxDataMaskLength : ℕ := 3
def maxExtensions : ℕ := 10
def macMaskLength : ℕ := 1
def maxCapabilityLength : ℕ := 1
def macAddrSize : ℕ := 6

def infoOui : UInt32 := 0x01
def infoMacAddress : UInt32 := 0x02
def infoNss : UInt32 := 0x04
def infoHt : UInt32 := 0x08
def infoVht : UInt32 := 0x10
def infoBand : UInt32 := 0x20
def infoMaskAll : UInt32 := 0x3f

def capabilityNssMask : UInt8 := 0x0f
def capabilityHtEnableMask : UInt8 := 0x10
def capabilityVhtEnableMask : UInt8 := 0x20
def capability2gBandMask : UInt8 := 0x40
def capability5gBandMask : UInt8 := 0x80
def capabilityBandMask : UInt8 := 0xc0

/-- `struct action_oui_extension` -/
structure Extension where
  infoMask : UInt32
  ouiLength : ℕ
  dataLength : ℕ
  dataMaskLength : ℕ
  macAddrLength : ℕ
  macMaskLength : ℕ
  capabilityLength : ℕ
  oui : Fin 5 → UInt8
  data : Fin 20 → UInt8
  dataMask : Fin 3 → UInt8
  macAddr : Fin 6 → UInt8
  macMask : Fin 1 → UInt8
  capability : Fin 1 → UInt8

/-- An extension with all its bytes zero. -/
def Extension.zero : Extension :=
  ⟨0,0,0,0,0,0,0,fun _ => 0,fun _ => 0,fun _ => 0,fun _ => 0,fun _ => 0,fun _ => 0⟩

/-- Whether the bits `m` meet `info_mask`. -/
def Extension.has (e : Extension) (m : UInt32) : Prop := e.infoMask &&& m ≠ 0

instance (e : Extension) (m : UInt32) : Decidable (e.has m) := inferInstanceAs (Decidable (_ ≠ _))

/-- An array after `bytes` were written from its start. -/
def fill {n : ℕ} (a : Fin n → UInt8) (bytes : List UInt8) : Fin n → UInt8 :=
  fun i => bytes.getD i (a i)

section Strings

/-- `isspace` -/
def isSpace (c : UInt8) : Bool := decide (c = 32 ∨ (9 ≤ c ∧ c ≤ 13) ∨ c = 160)

def skipSpaces (s : List UInt8) : List UInt8 := s.dropWhile isSpace

def strim (s : List UInt8) : List UInt8 := skipSpaces (s.rdropWhile isSpace)

/-- `strsep` at blanks: the token, and what is after the blank unless there is none. -/
def strsep (s : List UInt8) : List UInt8 × Option (List UInt8) :=
  (s.takeWhile (· ≠ 32),
    match s.dropWhile (· ≠ 32) with
    | [] => none
    | _::r => some r)

def hexToBin (c : UInt8) : Option UInt8 :=
  if 48 ≤ c ∧ c ≤ 57 then some (c-48)
  else if 65 ≤ c ∧ c ≤ 70 then some (c-55)
  else if 97 ≤ c ∧ c ≤ 102 then some (c-87)
  else none

def hex2bin : List UInt8 → Option (List UInt8)
  | hi::lo::s =>
    match hexToBin hi,hexToBin lo,hex2bin s with
    | some h,some l,some bytes => some ((h <<< 4 ||| l)::bytes)
    | _,_,_ => none
  | _ => some []

/-- `kstrtou8` at base 16 -/
def kstrtou8 (s : List UInt8) : Option UInt8 :=
  let s := match s with
    | 43::r => r
    | _ => s
  let s := match s with
    | 48::120::r => r
    | 48::88::r => r
    | _ => s
  let digits := s.takeWhile fun c => (hexToBin c).isSome
  let rest := s.dropWhile fun c => (hexToBin c).isSome
  let v := digits.foldl (fun v c => v*16+((hexToBin c).getD 0).toNat) 0
  if digits = [] ∨ 256 ≤ v then none
  -- one trailing newline is forgiven
  else if rest = [] ∨ rest = [10] then some (UInt8.ofNat v)
  else none

/-- `action_oui_string_to_hex` -/
def stringToHex (token : List UInt8) (possibleLengths : List ℕ) : Option (List UInt8) :=
  if token.length = 0 ∨ token.length % 2 = 1 then none
  else if token.length ∈ possibleLengths then hex2bin token
  else none

theorem stringToHex_length {token bytes : List UInt8} {lengths : List ℕ}
    (h : stringToHex token lengths = some bytes) : token.length ∈ lengths := by
  unfold stringToHex at h
  split_ifs at h with _ hmem
  exact hmem

end Strings

/-- `enum action_oui_token_type` -/
inductive Token
  | oui | dataLength | data | dataMask | infoMask | macAddr | macMask | capability | endToken
  deriving DecidableEq

def validateAndConvertOui (token : List UInt8) (ext : Extension) :
    Option (Extension × Token) :=
  (stringToHex token [6,10]).map fun b =>
    ({ ext with oui := fill ext.oui b, ouiLength := token.length/2 },.dataLength)

def validateAndConvertDataLength (token : List UInt8) (ext : Extension) :
    Option (Extension × Token) :=
  if token.length ≠ 1 ∧ token.length ≠ 2 then none
  else match kstrtou8 token with
    | none => none
    | some len =>
      if maxDataLength < len.toNat then none
      else some ({ ext with dataLength := len.toNat },
        if len.toNat = 0 then .infoMask else .data)

def validateAndConvertData (token : List UInt8) (ext : Extension) :
    Option (Extension × Token) :=
  (stringToHex token [2*ext.dataLength]).map fun b =>
    ({ ext with data := fill ext.data b },.dataMask)

/-- `data_mask_length`: a bit for each byte of data. -/
def maskLengthFor (dataLength : ℕ) : ℕ :=
  if dataLength % 8 = 0 then dataLength/8 else dataLength/8+1

@[simp] theorem maskLengthFor_zero : maskLengthFor 0 = 0 := by simp [maskLengthFor]

def validateAndConvertDataMask (token : List UInt8) (ext : Extension) :
    Option (Extension × Token) :=
  let n := maskLengthFor ext.dataLength
  if maxDataMaskLength < n then none
  else (stringToHex token [2*n]).map fun b =>
    ({ ext with dataMask := fill ext.dataMask b, dataMaskLength := n },.infoMask)

def validateAndConvertInfoMask (token : List UInt8) (ext : Extension) :
    Option (Extension × Token) :=
  if token.length ≠ 2 then none
  else match kstrtou8 token with
    | none => none
    | some v =>
      let infoMask := v.toUInt32
      let ext := { ext with infoMask := infoMask }
      if infoMask = 0 ∨ infoMask &&& ~~~infoOui = 0 then some (ext,.endToken)
      else if infoMask &&& ~~~infoMaskAll ≠ 0 then none
      else
        let ext := if infoMask &&& infoOui = 0 then
            { ext with ouiLength := 0, dataLength := 0, dataMaskLength := 0 }
          else ext
        some (ext,if infoMask &&& infoMacAddress ≠ 0 then .macAddr else .capability)

def validateAndConvertMacAddr (token : List UInt8) (ext : Extension) :
    Option (Extension × Token) :=
  (stringToHex token [2*macAddrSize]).map fun b =>
    ({ ext with macAddr := fill ext.macAddr b, macAddrLength := macAddrSize },.macMask)

def validateAndConvertMacMask (token : List UInt8) (ext : Extension) :
    Option (Extension × Token) :=
  match stringToHex token [2] with
  | none => none
  | some b =>
    if macMaskLength < token.length/2 then none
    else some ({ ext with macMask := fill ext.macMask b, macMaskLength := token.length/2 },
      if ext.has infoNss ∨ ext.has infoHt ∨ ext.has infoVht ∨ ext.has infoBand then .capability
      else .endToken)

def validateAndConvertCapability (token : List UInt8) (ext : Extension) :
    Option (Extension × Token) :=
  match stringToHex token [2] with
  | none => none
  | some b =>
    let ext := { ext with capability := fill ext.capability b }
    if maxCapabilityLength < token.length/2 then none
    else if ext.has infoNss ∧ ext.capability 0 &&& capabilityNssMask = 0 then none
    else if ext.has infoBand ∧ ext.capability 0 &&& capabilityBandMask = 0 then none
    else some ({ ext with capabilityLength := token.length/2 },.endToken)

/-- The switch over the expected token. -/
def convert (expected : Token) (token : List UInt8) (ext : Extension) :
    Option (Extension × Token) :=
  match expected with
  | .oui => validateAndConvertOui token ext
  | .dataLength => validateAndConvertDataLength token ext
  | .data => validateAndConvertData token ext
  | .dataMask => validateAndConvertDataMask token ext
  | .infoMask => validateAndConvertInfoMask token ext
  | .macAddr => validateAndConvertMacAddr token ext
  | .macMask => validateAndConvertMacMask token ext
  | .capability => validateAndConvertCapability token ext
  | .endToken => none

/-- `action_oui_extension_store`, with whether the allocation succeeds. -/
def extensionStore (mallocOk : Bool) (list : List Extension) (ext : Extension) :
    Option (List Extension) :=
  if list.length = maxExtensions then none
  else if mallocOk then some (list++[ext])
  else none

/-- The loop of `action_oui_parse`: how many extensions it stored, and the list. -/
def parseLoop (mallocOk : ℕ → Bool) :
    ℕ → List UInt8 → Extension → Token → ℕ → List Extension → ℕ × List Extension
  | 0,_,_,_,index,list => (index,list)
  | n+1,str1,ext,expected,index,list =>
    let str2 := skipSpaces str1
    if str2 = [] then (index,list)
    else
      match convert expected (strsep str2).1 ext with
      | none => (index,list)
      | some (ext,.endToken) =>
        match extensionStore (mallocOk index) list ext with
        | none => (index,list)
        | some list =>
          if index+1 = maxExtensions then (index+1,list)
          else match (strsep str2).2 with
            | none => (index+1,list)
            | some str1 => parseLoop mallocOk n str1 Extension.zero .oui (index+1) list
      | some (ext,expected) =>
        match (strsep str2).2 with
        | none => (index,list)
        | some str1 => parseLoop mallocOk n str1 ext expected index list

inductive Status
  | success | eInval
  deriving DecidableEq

/-- `action_oui_parse` -/
def actionOuiParse (mallocOk : ℕ → Bool) (ouiPriv : Option (List Extension))
    (ouiString : Option (List UInt8)) : Status × Option (List Extension) :=
  match ouiString,ouiPriv with
  | some s,some list =>
    let r := parseLoop mallocOk (s.length+1) (strim s) Extension.zero .oui 0 list
    (if r.1 = 0 then .eInval else .success,some r.2)
  | _,_ => (.eInval,ouiPriv)

/-- The extensions that a run of the parser has added to a list. -/
def Stored (e : Extension) : Prop :=
  ∃ (mallocOk : ℕ → Bool) (list after : List Extension) (s : List UInt8),
    (actionOuiParse mallocOk (some list) (some s)).2 = some (list++after) ∧ e ∈ after

/-- The lengths that belong together in an extension the parser has accepted. -/
structure Extension.Sound (e : Extension) : Prop where
  oui_le : e.ouiLength ≤ maxOuiLength
  data_le : e.dataLength ≤ maxDataLength
  mask_eq : e.dataMaskLength = maskLengthFor e.dataLength

/-- What holds of the extension when the parser expects a token. -/
def Token.Expects : Token → Extension → Prop
  | .oui,e | .dataLength,e =>
    e.ouiLength ≤ maxOuiLength ∧ e.dataLength = 0 ∧ e.dataMaskLength = 0
  | .data,e | .dataMask,e => e.ouiLength ≤ maxOuiLength ∧ e.dataLength ≤ maxDataLength
  | .infoMask,e | .macAddr,e | .macMask,e | .capability,e | .endToken,e => e.Sound

theorem validateAndConvertInfoMask_sound {token : List UInt8} {e e' : Extension} {t : Token}
    (he : e.Sound) (h : validateAndConvertInfoMask token e = some (e',t)) : t.Expects e' := by
  unfold validateAndConvertInfoMask at h
  split at h
  · simp at h
  split at h
  · simp at h
  simp only at h
  split at h
  · simp only [Option.some.injEq,Prod.mk.injEq] at h
    rcases h with ⟨rfl,rfl⟩
    exact ⟨he.oui_le,he.data_le,he.mask_eq⟩
  split at h
  · simp at h
  simp only [Option.some.injEq,Prod.mk.injEq] at h
  rcases h with ⟨rfl,rfl⟩
  have hs : ∀ (p : Prop) [Decidable p] (x : Extension), x.Sound →
      Token.Expects (if p then Token.macAddr else .capability) x := by
    intro p _ x hx
    split <;> exact hx
  apply hs
  split
  · exact ⟨Nat.zero_le _,Nat.zero_le _,maskLengthFor_zero.symm⟩
  · exact ⟨he.oui_le,he.data_le,he.mask_eq⟩

theorem convert_expects {t t' : Token} {token : List UInt8} {e e' : Extension}
    (he : t.Expects e) (h : convert t token e = some (e',t')) : t'.Expects e' := by
  cases t with
  | oui =>
    simp only [convert,validateAndConvertOui,Option.map_eq_some_iff] at h
    rcases h with ⟨b,hhex,hb⟩
    cases hb
    have hlen := stringToHex_length hhex
    simp only [List.mem_cons,List.not_mem_nil,or_false] at hlen
    refine ⟨?_,he.2⟩
    change token.length/2 ≤ 5
    omega
  | dataLength =>
    simp only [convert,validateAndConvertDataLength] at h
    split at h
    · simp at h
    split at h
    · simp at h
    next len _ =>
    split at h
    · simp at h
    next hle =>
    simp only [Option.some.injEq,Prod.mk.injEq] at h
    rcases h with ⟨rfl,rfl⟩
    by_cases h0 : len.toNat = 0
    · simp only [h0,if_true]
      exact ⟨he.1,Nat.zero_le _,he.2.2.trans maskLengthFor_zero.symm⟩
    · simp only [h0,if_false]
      exact ⟨he.1,Nat.le_of_not_lt hle⟩
  | data =>
    simp only [convert,validateAndConvertData,Option.map_eq_some_iff] at h
    rcases h with ⟨b,-,hb⟩
    cases hb
    exact he
  | dataMask =>
    simp only [convert,validateAndConvertDataMask] at h
    split at h
    · simp at h
    rcases Option.map_eq_some_iff.1 h with ⟨b,-,hb⟩
    cases hb
    exact ⟨he.1,he.2,rfl⟩
  | infoMask => exact validateAndConvertInfoMask_sound he h
  | macAddr =>
    simp only [convert,validateAndConvertMacAddr,Option.map_eq_some_iff] at h
    rcases h with ⟨b,-,hb⟩
    cases hb
    exact ⟨he.oui_le,he.data_le,he.mask_eq⟩
  | macMask =>
    simp only [convert,validateAndConvertMacMask] at h
    split at h
    · simp at h
    split at h
    · simp at h
    simp only [Option.some.injEq,Prod.mk.injEq] at h
    rcases h with ⟨rfl,rfl⟩
    split <;> exact ⟨he.oui_le,he.data_le,he.mask_eq⟩
  | capability =>
    simp only [convert,validateAndConvertCapability] at h
    split at h
    · simp at h
    split_ifs at h
    cases h
    exact ⟨he.oui_le,he.data_le,he.mask_eq⟩
  | endToken => simp [convert] at h

/-- The loop only appends, and what it appends is sound. -/
theorem parseLoop_stored (mallocOk : ℕ → Bool) (n : ℕ) :
    ∀ (s : List UInt8) (e : Extension) (t : Token) (index : ℕ) (list : List Extension),
      t.Expects e →
      ∃ after, (parseLoop mallocOk n s e t index list).2 = list++after ∧ ∀ x ∈ after, x.Sound := by
  induction n with
  | zero => exact fun _ _ _ _ _ _ => ⟨[],by simp [parseLoop],by simp⟩
  | succ n ih =>
    intro s e t index list he
    have hnone : ∃ after, list = list++after ∧ ∀ x ∈ after, x.Sound := ⟨[],by simp,by simp⟩
    rw [parseLoop]
    split
    · exact hnone
    cases hc : convert t (strsep (skipSpaces s)).1 e with
    | none => exact hnone
    | some r =>
      have hr := convert_expects he hc
      by_cases hend : r.2 = .endToken
      · obtain ⟨e',t'⟩ := r
        cases hend
        simp only [extensionStore]
        by_cases hfull : list.length = maxExtensions
        · simpa only [hfull,if_true] using hnone
        by_cases hok : mallocOk index
        · simp only [hfull,hok,if_true,if_false]
          have hone : ∃ after, list++[e'] = list++after ∧ ∀ x ∈ after, x.Sound :=
            ⟨[e'],rfl,fun x hx => List.mem_singleton.1 hx ▸ hr⟩
          split
          · exact hone
          split
          · exact hone
          · next str1 _ =>
            obtain ⟨after,hafter,hall⟩ := ih str1 Extension.zero .oui (index+1) (list++[e'])
              ⟨Nat.zero_le _,rfl,rfl⟩
            refine ⟨e'::after,by simp [hafter],?_⟩
            exact List.forall_mem_cons.2 ⟨hr,hall⟩
        · simp [hfull,hok]
      · obtain ⟨e',t'⟩ := r
        cases t' <;> first
          | exact absurd rfl hend
          | (simp only
             split
             · exact hnone
             · exact ih _ _ _ _ _ hr)

theorem skipSpaces_length_le (s : List UInt8) : (skipSpaces s).length ≤ s.length :=
  (List.dropWhile_sublist _).length_le

theorem strsep_length_lt {s t : List UInt8} (h : (strsep s).2 = some t) : t.length < s.length := by
  have hle := (List.dropWhile_sublist (l := s) (· ≠ (32:UInt8))).length_le
  simp only [strsep] at h
  split at h
  · simp at h
  next hdrop =>
  simp only [Option.some.injEq] at h
  rw [hdrop,List.length_cons,h] at hle
  omega

/-- The loop ends before its fuel does. -/
theorem parseLoop_fuel (mallocOk : ℕ → Bool) (n : ℕ) :
    ∀ (s : List UInt8) (e : Extension) (t : Token) (index : ℕ) (list : List Extension),
      s.length < n →
      parseLoop mallocOk (n+1) s e t index list = parseLoop mallocOk n s e t index list := by
  induction n with
  | zero =>
    intro s e t index list h
    omega
  | succ n ih =>
    intro s e t index list h
    have hrest : ∀ str1 e t index list, (strsep (skipSpaces s)).2 = some str1 →
        parseLoop mallocOk (n+1) str1 e t index list =
          parseLoop mallocOk n str1 e t index list := by
      intro str1 e t index list hsep
      apply ih
      have hlt := strsep_length_lt hsep
      have hle := skipSpaces_length_le s
      omega
    rw [parseLoop,parseLoop.eq_2]
    cases hsep : (strsep (skipSpaces s)).2 with
    | none => rfl
    | some str1 => simp only [hrest str1 _ _ _ _ hsep]

theorem Stored.sound {e : Extension} (h : Stored e) : e.Sound := by
  obtain ⟨mallocOk,list,after,s,hparse,hmem⟩ := h
  obtain ⟨after',hafter,hall⟩ :=
    parseLoop_stored mallocOk (s.length+1) (strim s) Extension.zero .oui 0 list
      ⟨Nat.zero_le _,rfl,rfl⟩
  simp only [actionOuiParse,hafter,Option.some.injEq,List.append_cancel_left_eq] at hparse
  exact hall e (hparse ▸ hmem)

end ActionOui
end MarbleModules
