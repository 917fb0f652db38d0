import MarbleModules.LinkedLists

/-! The host's check of packet numbers against replay: a list of MSDUs is taken apart into its
MPDUs, which are put on the list returned or freed one after another. -/
namespace MarbleModules
namespace OlRxPn

open LinkedLists

variable {α : Type*} [DecidableEq α]

/-- `enum htt_sec_type` -/
inductive SecType
  | none | wep128 | wep104 | wep40 | tkip | tkipNomic | aesCcmp | wapi | aesCcmp256 | aesGcmp
  | aesGcmp256
  deriving DecidableEq

/-- `enum wlan_op_mode` -/
inductive OpMode
  | unknown | ap | ibss | sta | monitor | ocb | ndi
  deriving DecidableEq

/-- `union htt_rx_pn_t`; the first word is `pn48` as well. -/
structure Pn where
  pn128₀ : UInt64
  pn128₁ : UInt64
  deriving DecidableEq

/-- What the check reads of a buffer's receive descriptor. The PN is what
`htt_rx_mpdu_desc_pn` leaves in the union. -/
structure RxDesc where
  isWlanMcast : Bool
  isEncrypted : Bool
  completesMpdu : Bool
  pn : Pn

/-- `pdev->rx_pn[].len` -/
def rxPnLen : SecType → ℕ
  | .tkip | .tkipNomic | .aesCcmp | .aesCcmp256 | .aesGcmp | .aesGcmp256 => 48
  | .wapi => 128
  | .none | .wep128 | .wep104 | .wep40 => 0

/-- `ol_rx_pn_cmp48` -/
def cmp48 (newPn oldPn : Pn) (strictChk : Bool) : Bool :=
  if strictChk then
    decide ((newPn.pn128₀ &&& 0xffffffffffff)-(oldPn.pn128₀ &&& 0xffffffffffff) ≠ 1)
  else decide (newPn.pn128₀ &&& 0xffffffffffff ≤ oldPn.pn128₀ &&& 0xffffffffffff)

/-- `ol_rx_pn_wapi_cmp` -/
def wapiCmp (newPn oldPn : Pn) (isUnicast : Bool) (opmode : OpMode) : Bool :=
  let pnIsReplay :=
    if newPn.pn128₁ = oldPn.pn128₁ then decide (newPn.pn128₀ ≤ oldPn.pn128₀)
    else decide (newPn.pn128₁ < oldPn.pn128₁)
  if isUnicast then
    if opmode = .ap then pnIsReplay || decide (newPn.pn128₀ &&& 1 ≠ 0)
    else pnIsReplay || decide (newPn.pn128₀ &&& 1 ≠ 1)
  else pnIsReplay

/-- `pdev->rx_pn[].cmp`; a type without PNs has none, and is never compared. -/
def rxPnCmp (secType : SecType) (newPn oldPn : Pn) (isUnicast : Bool) (opmode : OpMode)
    (strictChk : Bool) : Bool :=
  match secType with
  | .tkip | .tkipNomic | .aesCcmp | .aesCcmp256 | .aesGcmp | .aesGcmp256 =>
    cmp48 newPn oldPn strictChk
  | .wapi => wapiCmp newPn oldPn isUnicast opmode
  | .none | .wep128 | .wep104 | .wep40 => false

/-- The virtual device's and the peer's settings. `security` is asked with `index ==
txrx_sec_ucast`. -/
structure Config where
  opmode : OpMode
  fwPnCheck : Bool
  security : Bool → SecType

/-- `tids_last_pn_valid`, `tids_last_pn` and `tids_rekey_flag` of a TID -/
structure TidPn where
  lastPnValid : Bool
  lastPn : Pn
  rekeyFlag : Bool

/-- The state of the loop; the local `last_pn_valid` is always the peer's. -/
structure Checking (α : Type*) where
  tid : TidPn
  next : α → Option α
  outList : Ends α
  freed : List α

/-- What a call does: the TID and the links after it, the list returned and the buffers freed,
in this order. -/
structure Checked (α : Type*) where
  tid : TidPn
  next : α → Option α
  returned : Option α
  freed : List α

/-- `ol_rx_mpdu_list_next`: the buffers of the first MPDU. A list that ends without the flag of
a last MSDU ends its MPDU, too. -/
def mpduListNext (fuel : ℕ) (desc : α → RxDesc) (next : α → Option α) (mpdu : α) :
    Option (List α) :=
  walkTo next (fun msdu => (desc msdu).completesMpdu || (next msdu).isNone) fuel (some mpdu)

/-- Whether the PN of an encrypted MPDU is a replay. -/
def isReplay (c : Config) (ucast strictChk : Bool) (tid : TidPn) (newPn : Pn) : Bool :=
  tid.lastPnValid && rxPnCmp (c.security ucast) newPn tid.lastPn ucast c.opmode strictChk

/-- Remembering the PN of an MPDU. The exception is for the one packet with an old PN after a
rekey of WAPI. -/
def remember (c : Config) (ucast : Bool) (tid : TidPn) (newPn : Pn) : TidPn :=
  if c.security ucast = .wapi ∧ tid.rekeyFlag ∧ ucast then { tid with rekeyFlag := false }
  else { tid with lastPn := newPn }

/-- One turn of the loop of `ol_rx_pn_check_base`; the first component is the next MPDU. -/
def checkMpdu (fuel : ℕ) (desc : α → RxDesc) (c : Config) (ucast strictChk : Bool) (mpdu : α)
    (s : Checking α) : Option (Option α × Checking α) := do
  let mpduTail := (← mpduListNext fuel desc s.next mpdu).getLast?
  let nextMpdu := mpduTail.bind s.next
  let added := append s.next s.outList ⟨some mpdu,mpduTail⟩
  if (desc mpdu).isEncrypted then
    let newPn := (desc mpdu).pn
    let tid := { s.tid with lastPnValid := true }
    if isReplay c ucast strictChk s.tid newPn then
      let msdus ← walkTo s.next (fun msdu => some msdu = mpduTail) fuel (some mpdu)
      pure (nextMpdu,{ s with tid := tid,freed := s.freed++msdus })
    else
      pure (nextMpdu,{ s with
        tid := remember c ucast tid newPn
        next := added.1
        outList := added.2 })
  else pure (nextMpdu,{ s with next := added.1,outList := added.2 })

/-- The loop of `ol_rx_pn_check_base` -/
def checkLoop (fuel : ℕ) (desc : α → RxDesc) (c : Config) (ucast strictChk : Bool) :
    ℕ → Option α → Checking α → Option (Checking α)
  | _, none, s => some s
  | 0, some _, _ => none
  | turns+1, some mpdu, s => do
    let (nextMpdu,s) ← checkMpdu fuel desc c ucast strictChk mpdu s
    checkLoop fuel desc c ucast strictChk turns nextMpdu s

/-- `ol_rx_pn_check_base` -/
def checkBase (fuel : ℕ) (desc : α → RxDesc) (c : Config) (tid : TidPn) (next : α → Option α)
    (msduList : α) (strictChk : Bool) : Option (Checked α) :=
  if c.fwPnCheck ∨ c.opmode = .ibss then some ⟨tid,next,some msduList,[]⟩
  else
    let ucast := !(desc msduList).isWlanMcast
    if rxPnLen (c.security ucast) = 0 then some ⟨tid,next,some msduList,[]⟩
    else do
      let s ← checkLoop fuel desc c ucast strictChk fuel (some msduList)
        ⟨tid,next,Ends.empty,[]⟩
      pure ⟨s.tid,setNext s.next s.outList.tail none,s.outList.head,s.freed⟩

end OlRxPn
end MarbleModules
