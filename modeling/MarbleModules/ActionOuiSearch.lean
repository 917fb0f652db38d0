import Mathlib.Algebra.GroupWithZero.Nat
import Mathlib.Data.List.Basic
import MarbleModules.ActionOui

/-! The search for an action OUI in the elements of a beacon, what the parser promises of the
extensions the search goes through, and the loop over the masked bytes. -/
namespace MarbleModules
namespace ActionOui

/-- `struct action_oui_search_attr`; a missing element buffer is an empty one. -/
structure SearchAttr where
  ieData : List UInt8
  macAddr : Fin 6 → UInt8
  nss : UInt32
  htCap : Bool
  vhtCap : Bool
  enable2g : Bool
  enable5g : Bool

def eidVendor : UInt8 := 221

/-- `wlan_get_ie_ptr_from_eid_n_oui`: the buffer from the element on. -/
def getIePtr (eid : UInt8) (oui : List UInt8) : ℕ → List UInt8 → Option (List UInt8)
  | 0,_ => none
  | n+1,elemId::elemLen::rest =>
    if rest.length < elemLen.toNat then none
    else if eid = elemId then
      if rest.length < oui.length then none
      else if rest.take oui.length = oui then some (elemId::elemLen::rest)
      else getIePtr eid oui n (rest.drop elemLen.toNat)
    else getIePtr eid oui n (rest.drop elemLen.toNat)
  | _+1,_ => none

def Extension.ouiBytes (e : Extension) : List UInt8 := (List.ofFn e.oui).take e.ouiLength

/-- The bytes that `ie_length` lets the walk see: it is passed on in 16 bits. -/
def SearchAttr.seen (attr : SearchAttr) : List UInt8 :=
  attr.ieData.take (attr.ieData.length % 65536)

/-- `action_oui_get_oui_ptr` -/
def getOuiPtr (e : Extension) (attr : SearchAttr) : Option (List UInt8) :=
  getIePtr eidVendor e.ouiBytes attr.ieData.length attr.seen

/-- The byte at `i` of an array. -/
def byteAt {n : ℕ} (a : Fin n → UInt8) (i : ℕ) : UInt8 := if h : i < n then a ⟨i,h⟩ else 0

/-- `extension->data[i]`: past its end stand the mask and then the MAC address. -/
def Extension.dataAt (e : Extension) (i : ℕ) : UInt8 :=
  if i < 20 then byteAt e.data i
  else if i < 23 then byteAt e.dataMask (i-20)
  else byteAt e.macAddr (i-23)

/-- The loop over the bytes after the OUI, with `i`, `j` and the mask that moves right. -/
def dataLoop (e : Extension) : List UInt8 → ℕ → ℕ → UInt8 → Bool
  | [],_,_,_ => true
  | b::bs,i,j,m =>
    if j < e.dataMaskLength then
      if byteAt e.dataMask j &&& m ≠ 0 ∧ e.dataAt i ≠ b then false
      else if m >>> 1 = 0 then dataLoop e bs (i+1) (j+1) 0x80
      else dataLoop e bs (i+1) j (m >>> 1)
    else true

/-- The length byte of the element and the bytes after its OUI. -/
def elemLen (p : List UInt8) : ℕ := (p.getD 1 0).toNat

def elemData (e : Extension) (p : List UInt8) : List UInt8 :=
  (p.drop (2+e.ouiLength)).take (elemLen p-e.ouiLength)

def checkForVendorOuiData (e : Extension) (ouiPtr : Option (List UInt8)) : Bool :=
  match ouiPtr with
  | none => false
  | some p =>
    if elemLen p < e.ouiLength then false
    else if elemLen p-e.ouiLength < e.dataLength then false
    else dataLoop e (elemData e p) 0 0 0x80

/-- An array of one byte has an index 0. -/
local instance oneByte : NeZero 1 := ⟨Nat.one_ne_zero⟩

def macLoop (e : Extension) (attr : SearchAttr) : List (Fin 6) → UInt8 → Bool
  | [],_ => true
  | i::is,m =>
    if e.macMask 0 &&& m ≠ 0 ∧ e.macAddr i ≠ attr.macAddr i then false
    else macLoop e attr is (m >>> 1)

def checkForVendorApMac (e : Extension) (attr : SearchAttr) : Bool :=
  macLoop e attr (List.finRange 6) 0x80

/-- `1 << (nss - 1)` in 8 bits; the machine takes the shift modulo 32. -/
def nssMask (nss : UInt32) : UInt8 := ((1:UInt32) <<< (nss-1)).toUInt8

def checkForVendorApCapabilities (e : Extension) (attr : SearchAttr) : Bool :=
  if e.has infoNss ∧ e.capability 0 &&& capabilityNssMask &&& nssMask attr.nss = 0 then false
  else if e.has infoHt ∧
      (if e.capability 0 &&& capabilityHtEnableMask ≠ 0 then attr.htCap = false
        else attr.htCap = true) then false
  else if e.has infoVht ∧
      (if e.capability 0 &&& capabilityVhtEnableMask ≠ 0 then attr.vhtCap = false
        else attr.vhtCap = true) then false
  else if e.has infoBand ∧
      ((attr.enable5g = true ∧ e.capability 0 &&& capability5gBandMask = 0) ∨
        (attr.enable2g = true ∧ e.capability 0 &&& capability2gBandMask = 0)) then false
  else true

/-- The loop over the list, with `wildcard_oui`. -/
def searchLoop (attr : SearchAttr) : List Extension → Bool → Bool
  | [],_ => false
  | e::es,wildcard =>
    let wildcard := if e.has infoOui then wildcard else true
    let ouiPtr := getOuiPtr e attr
    if ouiPtr = none ∧ wildcard = false then searchLoop attr es false
    else if e.dataLength ≠ 0 ∧ wildcard = false ∧ checkForVendorOuiData e ouiPtr = false then
      searchLoop attr es false
    else if e.has infoMacAddress ∧ checkForVendorApMac e attr = false then
      searchLoop attr es false
    else if checkForVendorApCapabilities e attr = false then searchLoop attr es false
    else true

/-- `action_oui_search` -/
def actionOuiSearch (ouiPriv : Option (List Extension)) (attr : SearchAttr) : Bool :=
  match ouiPriv with
  | none => false
  | some [] => false
  | some list => searchLoop attr list false

section Loops

/-- Bit `i` of a mask, counted from the top bit of its first byte. -/
def maskBit {n : ℕ} (a : Fin n → UInt8) (i : ℕ) : Prop :=
  byteAt a (i/8) &&& (0x80 >>> UInt8.ofNat (i % 8)) ≠ 0

instance {n : ℕ} (a : Fin n → UInt8) (i : ℕ) : Decidable (maskBit a i) :=
  inferInstanceAs (Decidable (_ ≠ _))

theorem shift_last : ∀ k < 8,
    ((0x80:UInt8) >>> UInt8.ofNat k) >>> 1 = 0 ↔ k = 7 := by decide

theorem shift_next : ∀ k < 7,
    ((0x80:UInt8) >>> UInt8.ofNat k) >>> 1 = 0x80 >>> UInt8.ofNat (k+1) := by decide

/-- The loop compares the bytes whose mask bit is set, as far as the mask goes. -/
theorem dataLoop_eq_true_iff (e : Extension) (bs : List UInt8) :
    ∀ i, dataLoop e bs i (i/8) (0x80 >>> UInt8.ofNat (i % 8)) = true ↔
      ∀ k (hk : k < bs.length), i+k < 8*e.dataMaskLength → maskBit e.dataMask (i+k) →
        e.dataAt (i+k) = bs[k] := by
  induction bs with
  | nil => simp [dataLoop]
  | cons b bs ih =>
    intro i
    rw [dataLoop]
    by_cases hj : i/8 < e.dataMaskLength
    · have hstep : (if (0x80 >>> UInt8.ofNat (i % 8) : UInt8) >>> 1 = 0 then
          dataLoop e bs (i+1) (i/8+1) 0x80
          else dataLoop e bs (i+1) (i/8) ((0x80 >>> UInt8.ofNat (i % 8)) >>> 1)) =
          dataLoop e bs (i+1) ((i+1)/8) (0x80 >>> UInt8.ofNat ((i+1) % 8)) := by
        by_cases h7 : i % 8 = 7
        · have hd : (i+1)/8 = i/8+1 := by omega
          have hm : (i+1) % 8 = 0 := by omega
          rw [if_pos ((shift_last _ (Nat.mod_lt _ (by omega))).2 h7),hd,hm]
          rfl
        · have hd : (i+1)/8 = i/8 := by omega
          have hm : (i+1) % 8 = i % 8+1 := by omega
          rw [if_neg (mt (shift_last _ (Nat.mod_lt _ (by omega))).1 h7),hd,hm,
            shift_next _ (by omega)]
      rw [if_pos hj,hstep]
      have hfirst : (byteAt e.dataMask (i/8) &&& (0x80 >>> UInt8.ofNat (i % 8)) ≠ 0 ∧
          e.dataAt i ≠ b) ↔ (maskBit e.dataMask i ∧ e.dataAt i ≠ b) := Iff.rfl
      by_cases hbad : maskBit e.dataMask i ∧ e.dataAt i ≠ b
      · rw [if_pos (hfirst.2 hbad)]
        constructor
        · simp
        · intro hall
          exact absurd (hall 0 (by simp) (by omega) hbad.1) hbad.2
      · rw [if_neg (mt hfirst.1 hbad),ih (i+1)]
        constructor
        · intro hall k hk hlt hbit
          cases k with
          | zero => exact not_not.1 fun hne => hbad ⟨hbit,hne⟩
          | succ k =>
            have hik : i+(k+1) = i+1+k := by omega
            rw [hik] at hlt hbit ⊢
            exact hall k (Nat.lt_of_succ_lt_succ hk) hlt hbit
        · intro hall k hk hlt hbit
          have hik : i+(k+1) = i+1+k := by omega
          have hh := hall (k+1) (Nat.succ_lt_succ hk)
          rw [hik] at hh
          exact hh hlt hbit
    · rw [if_neg hj]
      simp only [true_iff]
      intro k _ hlt
      omega

theorem macLoop_eq_true_iff (e : Extension) (attr : SearchAttr) :
    checkForVendorApMac e attr = true ↔
      ∀ i : Fin 6, maskBit e.macMask i → e.macAddr i = attr.macAddr i := by
  have hbyte : ∀ i : Fin 6, maskBit e.macMask i ↔
      e.macMask 0 &&& (0x80 >>> UInt8.ofNat i) ≠ 0 := by
    intro i
    have hd : (i:ℕ)/8 = 0 := by omega
    have hm : (i:ℕ) % 8 = i := by omega
    simp [maskBit,byteAt,hd,hm]
  have hlist : List.finRange 6 = [0,1,2,3,4,5] := by decide
  have hcons : ∀ (i : Fin 6) (is : List (Fin 6)) (m : UInt8),
      macLoop e attr (i::is) m = true ↔
        (e.macMask 0 &&& m ≠ 0 → e.macAddr i = attr.macAddr i) ∧
          macLoop e attr is (m >>> 1) = true := by
    intro i is m
    rw [macLoop]
    split <;> simp_all
  have hnil : ∀ m, macLoop e attr [] m = true := fun _ => rfl
  simp only [checkForVendorApMac,hbyte,hlist,hcons,hnil,and_true]
  constructor
  · rintro ⟨h0,h1,h2,h3,h4,h5⟩ i
    match i with
    | 0 => exact h0
    | 1 => exact h1
    | 2 => exact h2
    | 3 => exact h3
    | 4 => exact h4
    | 5 => exact h5
  · intro h
    exact ⟨h 0,h 1,h 2,h 3,h 4,h 5⟩

end Loops

end ActionOui
end MarbleModules
