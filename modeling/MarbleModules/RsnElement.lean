import Mathlib.Data.BitVec
import MarbleModules.LeBytes

/-! The RSN element: the builder and the parser of the crypto component, with the two
tables of suite selectors each of them uses. -/
namespace MarbleModules
namespace Rsn

/-- `wlan_crypto_cipher_type` -/
inductive Cipher
  | wep | tkip | aesOcb | aesCcm | wapiSms4 | ckip | aesCmac | aesCcm256 | aesCmac256
  | aesGcm | aesGcm256 | aesGmac | aesGmac256 | wapiGcm4 | filsAead | wep40 | wep104 | none
  deriving DecidableEq, Repr

def Cipher.val : Cipher → ℕ
  | .wep => 0 | .tkip => 1 | .aesOcb => 2 | .aesCcm => 3 | .wapiSms4 => 4 | .ckip => 5
  | .aesCmac => 6 | .aesCcm256 => 7 | .aesCmac256 => 8 | .aesGcm => 9 | .aesGcm256 => 10
  | .aesGmac => 11 | .aesGmac256 => 12 | .wapiGcm4 => 13 | .filsAead => 14 | .wep40 => 15
  | .wep104 => 16 | .none => 17

/-- `wlan_crypto_key_mgmt` -/
inductive KeyMgmt
  | ieee8021x | psk | none | ieee8021xNoWpa | wpaNone | ftIeee8021x | ftPsk
  | ieee8021xSha256 | pskSha256 | wps | sae | ftSae | wapiPsk | wapiCert | cckm | osen
  | ieee8021xSuiteB | ieee8021xSuiteB192 | filsSha256 | filsSha384 | ftFilsSha256
  | ftFilsSha384 | owe | dpp | ftIeee8021xSha384 | ftPskSha384 | pskSha384
  deriving DecidableEq, Repr

def KeyMgmt.val : KeyMgmt → ℕ
  | .ieee8021x => 0 | .psk => 1 | .none => 2 | .ieee8021xNoWpa => 3 | .wpaNone => 4
  | .ftIeee8021x => 5 | .ftPsk => 6 | .ieee8021xSha256 => 7 | .pskSha256 => 8 | .wps => 9
  | .sae => 10 | .ftSae => 11 | .wapiPsk => 12 | .wapiCert => 13 | .cckm => 14 | .osen => 15
  | .ieee8021xSuiteB => 16 | .ieee8021xSuiteB192 => 17 | .filsSha256 => 18
  | .filsSha384 => 19 | .ftFilsSha256 => 20 | .ftFilsSha384 => 21 | .owe => 22 | .dpp => 23
  | .ftIeee8021xSha384 => 24 | .ftPskSha384 => 25 | .pskSha384 => 26

/-- `WLAN_RSN_SEL`: the selector `00-0f-ac-x` as the little-endian word it is read as. -/
def rsnSel (x : ℕ) : ℕ := x*2^24+0xac0f00

def rsnAuthKeyMgmtCckm : ℕ := 0x00964000
def rsnAuthKeyMgmtOsen : ℕ := 0x019a6f50
def rsnAuthKeyMgmtDpp : ℕ := 0x029A6F50

def rsnCipherToSuite : Cipher → Option ℕ
  | .tkip => some (rsnSel 2)
  | .aesCcm => some (rsnSel 4)
  | .aesCcm256 => some (rsnSel 10)
  | .aesGcm => some (rsnSel 8)
  | .aesGcm256 => some (rsnSel 9)
  | .aesCmac => some (rsnSel 6)
  | .aesCmac256 => some (rsnSel 13)
  | .aesGmac => some (rsnSel 11)
  | .aesGmac256 => some (rsnSel 12)
  | .none => some (rsnSel 0)
  | _ => Option.none

def rsnKeymgmtToSuite : KeyMgmt → Option ℕ
  | .none => some (rsnSel 0)
  | .ieee8021x => some (rsnSel 1)
  | .psk => some (rsnSel 2)
  | .ftIeee8021x => some (rsnSel 3)
  | .ftPsk => some (rsnSel 4)
  | .ieee8021xSha256 => some (rsnSel 5)
  | .pskSha256 => some (rsnSel 6)
  | .sae => some (rsnSel 8)
  | .ftSae => some (rsnSel 9)
  | .ieee8021xSuiteB => some (rsnSel 11)
  | .ieee8021xSuiteB192 => some (rsnSel 12)
  | .cckm => some rsnAuthKeyMgmtCckm
  | .osen => some rsnAuthKeyMgmtOsen
  | .filsSha256 => some (rsnSel 14)
  | .filsSha384 => some (rsnSel 15)
  | .ftFilsSha256 => some (rsnSel 16)
  | .ftFilsSha384 => some (rsnSel 17)
  | .owe => some (rsnSel 18)
  | .dpp => some rsnAuthKeyMgmtDpp
  | .ftIeee8021xSha384 => some (rsnSel 13)
  | _ => Option.none

def rsnSuiteToCipher (w : ℕ) : Option Cipher :=
  if w = rsnSel 2 then some .tkip
  else if w = rsnSel 4 then some .aesCcm
  else if w = rsnSel 10 then some .aesCcm256
  else if w = rsnSel 8 then some .aesGcm
  else if w = rsnSel 9 then some .aesGcm256
  else if w = rsnSel 6 then some .aesCmac
  else if w = rsnSel 13 then some .aesCmac256
  else if w = rsnSel 11 then some .aesGmac
  else if w = rsnSel 12 then some .aesGmac256
  else if w = rsnSel 0 then some .none
  else Option.none

def rsnSuiteToKeymgmt (w : ℕ) : Option KeyMgmt :=
  if w = rsnSel 1 then some .ieee8021x
  else if w = rsnSel 2 then some .psk
  else if w = rsnSel 3 then some .ftIeee8021x
  else if w = rsnSel 4 then some .ftPsk
  else if w = rsnSel 5 then some .ieee8021xSha256
  else if w = rsnSel 6 then some .pskSha256
  else if w = rsnSel 8 then some .sae
  else if w = rsnSel 9 then some .ftSae
  else if w = rsnSel 11 then some .ieee8021xSuiteB
  else if w = rsnSel 12 then some .ieee8021xSuiteB192
  else if w = rsnAuthKeyMgmtCckm then some .cckm
  else if w = rsnAuthKeyMgmtOsen then some .osen
  else if w = rsnSel 14 then some .filsSha256
  else if w = rsnSel 15 then some .filsSha384
  else if w = rsnSel 16 then some .ftFilsSha256
  else if w = rsnSel 17 then some .ftFilsSha384
  else if w = rsnSel 18 then some .owe
  else if w = rsnAuthKeyMgmtDpp then some .dpp
  else if w = rsnSel 13 then some .ftIeee8021xSha384
  else if w = rsnSel 19 then some .ftPskSha384
  else if w = rsnSel 20 then some .pskSha384
  else Option.none

/-- The fields of `wlan_crypto_params` that the element carries; a set is a word with the
bits of its members. -/
structure CryptoParams where
  authmodeset : BitVec 32
  ucastcipherset : BitVec 32
  mcastcipherset : BitVec 32
  mgmtcipherset : BitVec 32
  keyMgmt : BitVec 32
  rsnCaps : BitVec 16
  deriving DecidableEq, Repr

/-- `HAS_PARAM` -/
def hasParam (s : BitVec 32) (v : ℕ) : Bool := s.getLsbD v

/-- `SET_PARAM` -/
def setParam (s : BitVec 32) (v : ℕ) : BitVec 32 := s ||| 1#32 <<< v

def authRsna : ℕ := 6
def rsnVersion : ℕ := 1
def elemidRsn : UInt8 := 48
def pmkidLen : ℕ := 16

/-- `WLAN_CRYPTO_RSN_CAP_MFP_ENABLED` is set. -/
def mfpEnabled (caps : BitVec 16) : Bool := caps &&& 0x80#16 != 0#16

structure Pmksa where
  pmkid : List UInt8
  len : pmkid.length = pmkidLen

/-- `WLAN_CRYPTO_ADDSELECTOR`; a suite the table lacks is -1 as a word. -/
def addSelector (suite : Option ℕ) : List UInt8 := leBytes 4 (suite.getD 0xffffffff)

/-- A selector list: the count, whose low byte alone is counted up, then the suites of the
members of the set in the order of the code. -/
def addSuites {α : Type} (val : α → ℕ) (suite : α → Option ℕ) (order : List α)
    (s : BitVec 32) : List UInt8 :=
  let present := order.filter fun c => hasParam s (val c)
  [UInt8.ofNat present.length,0] ++ present.flatMap fun c => addSelector (suite c)

def addMcast (s : BitVec 32) : List UInt8 :=
  if hasParam s Cipher.tkip.val then addSelector (rsnCipherToSuite .tkip)
  else if hasParam s Cipher.aesCcm.val then addSelector (rsnCipherToSuite .aesCcm)
  else if hasParam s Cipher.aesCcm256.val then addSelector (rsnCipherToSuite .aesCcm256)
  else if hasParam s Cipher.aesGcm.val then addSelector (rsnCipherToSuite .aesGcm)
  else if hasParam s Cipher.aesGcm256.val then addSelector (rsnCipherToSuite .aesGcm256)
  else []

def ucastOrder : List Cipher := [.aesCcm256,.aesGcm256,.aesCcm,.aesGcm,.tkip]

def keyMgmtOrder : List KeyMgmt :=
  [.ieee8021x,.psk,.ftIeee8021x,.ftPsk,.ieee8021xSha256,.pskSha256,.sae,.ftSae,
    .ieee8021xSuiteB,.ieee8021xSuiteB192,.filsSha256,.filsSha384,.ftFilsSha256,.ftFilsSha384,
    .owe,.dpp,.osen,.ftIeee8021xSha384]

def mgmtOrder : List Cipher := [.aesCmac,.aesGmac,.aesCmac256,.aesGmac256]

/-- The AKM list; nothing is added after CCKM. -/
def addKeyMgmt (s : BitVec 32) : List UInt8 :=
  if hasParam s KeyMgmt.cckm.val then [1,0] ++ addSelector (rsnKeymgmtToSuite .cckm)
  else addSuites KeyMgmt.val rsnKeymgmtToSuite keyMgmtOrder s

def addMgmt (s : BitVec 32) : List UInt8 :=
  (mgmtOrder.filter fun c => hasParam s c.val).flatMap fun c => addSelector (rsnCipherToSuite c)

def addPmkid (p : CryptoParams) (pmksa : Option Pmksa) : List UInt8 :=
  if mfpEnabled p.rsnCaps then
    (match pmksa with
      | some k => [1,0] ++ k.pmkid
      | none => [0,0]) ++ addMgmt p.mgmtcipherset
  else
    match pmksa with
    | some k => [1,0] ++ k.pmkid
    | none => []

/-- `wlan_crypto_build_rsnie_with_pmksa` on a vdev with these parameters -/
def buildRsnieWithPmksa (p : CryptoParams) (pmksa : Option Pmksa) : List UInt8 :=
  let frm := leBytes 2 rsnVersion ++ (addMcast p.mcastcipherset ++
    (addSuites Cipher.val rsnCipherToSuite ucastOrder p.ucastcipherset ++
      (addKeyMgmt p.keyMgmt ++ (leBytes 2 p.rsnCaps.toNat ++ addPmkid p pmksa))))
  elemidRsn::UInt8.ofNat frm.length::frm

/-- `LE_READ_2` -/
def leRead2 (frm : List UInt8) : ℕ := leVal (frm.take 2)

/-- `LE_READ_4` -/
def leRead4 (frm : List UInt8) : ℕ := leVal (frm.take 4)

/-- The loop over `n` suites, an unknown one skipped: the set and the bytes behind. -/
def readSuites {α : Type} (val : α → ℕ) (cipher : ℕ → Option α) :
    ℕ → BitVec 32 → List UInt8 → BitVec 32 × List UInt8
  | 0,s,frm => (s,frm)
  | n+1,s,frm =>
    readSuites val cipher n
      (match cipher (leRead4 frm) with
        | some c => setParam s (val c)
        | none => s) (frm.drop 4)

/-- The management cipher, last of the element. The shift by -1 that an unknown suite
leads to is undefined in C; the machine's is by 31. -/
def checkMgmt (p : CryptoParams) (frm : List UInt8) : Option CryptoParams :=
  if frm.length = 0 then
    if mfpEnabled p.rsnCaps then
      some { p with mgmtcipherset := setParam p.mgmtcipherset Cipher.aesCmac.val }
    else some p
  else if frm.length < 4 then none
  else
    let w := match rsnSuiteToCipher (leRead4 frm) with
      | some c => c.val
      | none => 31
    some { p with mgmtcipherset := setParam p.mgmtcipherset w }

def checkPmkid (p : CryptoParams) (frm : List UInt8) : Option CryptoParams :=
  if 2 ≤ frm.length then
    let n := leRead2 frm
    let rest := frm.drop 2
    if n ≠ 0 ∧ rest.length ≠ 0 then
      if n*pmkidLen ≤ rest.length then checkMgmt p (rest.drop (n*pmkidLen)) else none
    else if n ≠ 0 ∧ rest.length = 0 then none
    else checkMgmt p rest
  else if frm.length = 1 then none
  else checkMgmt p frm

def checkCaps (p : CryptoParams) (frm : List UInt8) : Option CryptoParams :=
  if 2 ≤ frm.length then
    checkPmkid { p with rsnCaps := BitVec.ofNat 16 (leRead2 frm) } (frm.drop 2)
  else if frm.length ≠ 0 ∧ frm.length < 2 then none
  else checkPmkid p frm

def checkKeyMgmt (p : CryptoParams) (frm : List UInt8) : Option CryptoParams :=
  if frm.length = 0 then
    some { p with keyMgmt := setParam p.keyMgmt KeyMgmt.ieee8021x.val }
  else if frm.length < 2 then none
  else
    let n := leRead2 frm
    let rest := frm.drop 2
    if n ≠ 0 then
      if rest.length < n*4 then none
      else
        let r := readSuites KeyMgmt.val rsnSuiteToKeymgmt n p.keyMgmt rest
        if r.1 = 0#32 then none else checkCaps { p with keyMgmt := r.1 } r.2
    else
      checkCaps { p with keyMgmt := setParam p.keyMgmt KeyMgmt.ieee8021x.val } rest

def checkUcast (p : CryptoParams) (frm : List UInt8) : Option CryptoParams :=
  if frm.length = 0 then
    some { p with
      ucastcipherset := setParam p.ucastcipherset Cipher.aesCcm.val
      keyMgmt := setParam p.keyMgmt KeyMgmt.ieee8021x.val }
  else if frm.length < 2 then none
  else
    let n := leRead2 frm
    let rest := frm.drop 2
    if n ≠ 0 then
      if rest.length < n*4 then none
      else
        let r := readSuites Cipher.val rsnSuiteToCipher n p.ucastcipherset rest
        if r.1 = 0#32 then none else checkKeyMgmt { p with ucastcipherset := r.1 } r.2
    else
      checkKeyMgmt { p with ucastcipherset := setParam p.ucastcipherset Cipher.aesCcm.val } rest

def checkMcast (p : CryptoParams) (frm : List UInt8) : Option CryptoParams :=
  if frm.length = 0 then
    some { p with
      mcastcipherset := setParam p.mcastcipherset Cipher.aesCcm.val
      ucastcipherset := setParam p.ucastcipherset Cipher.aesCcm.val
      keyMgmt := setParam p.keyMgmt KeyMgmt.ieee8021x.val }
  else if frm.length < 4 then none
  else
    match rsnSuiteToCipher (leRead4 frm) with
    | none => none
    | some c =>
      let p := { p with mcastcipherset := setParam p.mcastcipherset c.val }
      if p.mcastcipherset = 0#32 then none else checkUcast p (frm.drop 4)

def zeroParams : CryptoParams := ⟨0,0,0,0,0,0⟩

/-- `wlan_crypto_rsnie_check`. The pointer and the remaining length of the code are the
list of the bytes of the element that are still to be read. -/
def rsnieCheck (frm : List UInt8) : Option CryptoParams :=
  let len := (frm.getD 1 0).toNat
  let body := (frm.drop 2).take len
  if len < 2 then none
  else if leRead2 body ≠ rsnVersion then none
  else checkMcast { zeroParams with authmodeset := setParam 0#32 authRsna } (body.drop 2)

end Rsn
end MarbleModules
