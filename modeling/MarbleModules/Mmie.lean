import Mathlib.Logic.Function.Basic
import MarbleModules.LeBytes
import MarbleModules.RsnElement

/-! Broadcast integrity protection: the sender that appends a management MIC element to a
frame, the receiver that checks it, and a channel between them that loses, repeats and
reorders frames. -/
namespace MarbleModules
namespace Mmie

open Rsn (Cipher)

def elemidMmie : UInt8 := 76
def maxKeyIdx : ℕ := 4
def maxIgtkKeyIdx : ℕ := 2
/-- `sizeof(struct wlan_frame_hdr)` -/
def hdrlen : ℕ := 24
/-- `sizeof(struct wlan_crypto_mmie)` -/
def mmieSize : ℕ := 26
/-- `WLAN_FC1_RETRY | WLAN_FC1_PWRMGT | WLAN_FC1_MOREDATA` -/
def fc1Masked : UInt8 := 0x38

/-- The fields of `wlan_crypto_key` that the two functions use. Of the receive counters
there is one a TID; the element is checked against the first. -/
structure CryptoKey where
  keyix : ℕ
  keyval : List UInt8
  keylen : ℕ
  keytsc : ℕ
  keyrsc : ℕ
  deriving DecidableEq

structure CryptoPriv where
  igtkKey : ℕ → Option CryptoKey
  igtkKeyType : Cipher
  defIgtkTxKeyid : ℕ

def CryptoPriv.setKey (priv : CryptoPriv) (i : ℕ) (key : CryptoKey) : CryptoPriv :=
  { priv with igtkKey := Function.update priv.igtkKey i (some key) }

/-- The 16 bytes that the MIC functions leave. -/
structure Mic where
  bytes : List UInt8
  len : bytes.length = 16

/-- `omac1_aes_128`, `omac1_aes_256` and `wlan_crypto_aes_gmac`, none when they fail -/
structure Macs where
  omac1Aes128 : List UInt8 → List UInt8 → Option Mic
  omac1Aes256 : List UInt8 → List UInt8 → Option Mic
  aesGmac : List UInt8 → ℕ → List UInt8 → List UInt8 → Option Mic

/-- `wlan_crypto_gmac_pn_swap` -/
def gmacPnSwap (pn : List UInt8) : List UInt8 := (pn.take 6).reverse

/-- The MIC over a buffer, by the type of the group key -/
def computeMic (m : Macs) (type : Cipher) (keyval : List UInt8) (keylen : ℕ)
    (addr2 pn buf : List UInt8) : Option Mic :=
  match type with
  | .aesCmac => m.omac1Aes128 keyval buf
  | .aesCmac256 => m.omac1Aes256 keyval buf
  | .aesGmac | .aesGmac256 => m.aesGmac keyval keylen (addr2 ++ gmacPnSwap pn) buf
  | _ => none

def micLen (type : Cipher) : ℕ := if type = .aesCmac then 8 else 16

/-- The loop that counts the packet number up, byte 0 first. -/
def incPn : ℕ → List UInt8 → List UInt8
  | n+1,b::pn => if b+1 ≠ 0 then (b+1)::pn else (b+1)::incPn n pn
  | _,pn => pn

def addr2 (frm : List UInt8) : List UInt8 := (frm.drop 10).take 6

/-- FC (masked) || A1 || A2 || A3, an address at a time -/
def txAad (frm : List UInt8) : List UInt8 :=
  [frm.getD 0 0,frm.getD 1 0 &&& ~~~fc1Masked] ++
    ((frm.drop 4).take 6 ++ addr2 frm ++ (frm.drop 16).take 6)

/-- FC (masked) || A1 || A2 || A3, the addresses in one piece -/
def rxAad (frm : List UInt8) : List UInt8 :=
  [frm.getD 0 0,frm.getD 1 0 &&& ~~~fc1Masked] ++ (frm.drop 4).take 18

/-- The element up to its MIC: id, length, key id and packet number. -/
def mmieHead (type : Cipher) (keyix : ℕ) (pn : List UInt8) : List UInt8 :=
  [elemidMmie,UInt8.ofNat (if micLen type = 8 then mmieSize-2-8 else mmieSize-2)] ++
    (leBytes 2 keyix ++ pn)

/-- `wlan_crypto_add_mmie`: the frame with the element behind it, or none, and the state
with the counter counted up. `bufOk` tells whether the buffer is allocated. -/
def addMmie (m : Macs) (priv : CryptoPriv) (bfrm : List UInt8) (bufOk : Bool) :
    Option (List UInt8) × CryptoPriv :=
  if maxIgtkKeyIdx ≤ priv.defIgtkTxKeyid then (none,priv)
  else
    match priv.igtkKey priv.defIgtkTxKeyid with
    | none => (none,priv)
    | some key =>
      let tsc := leVal (incPn 6 (leBytes 8 key.keytsc))
      let priv' := priv.setKey priv.defIgtkTxKeyid { key with keytsc := tsc }
      let pn := (leBytes 8 tsc).take 6
      let head := mmieHead priv.igtkKeyType key.keyix pn
      let zeros := List.replicate (micLen priv.igtkKeyType) 0
      if bufOk = false then (none,priv')
      else
        match computeMic m priv.igtkKeyType key.keyval key.keylen (addr2 bfrm) pn
          (txAad bfrm ++ (bfrm.drop hdrlen ++ (head ++ zeros))) with
        | none => (none,priv')
        | some mic => (some (bfrm ++ (head ++ mic.bytes.take (micLen priv.igtkKeyType))),priv')

/-- `qdf_mem_cmp` on strings of one length: the difference at the first byte in which they
differ. -/
def memCmp : List UInt8 → List UInt8 → ℤ
  | a::as,b::bs => if a = b then memCmp as bs else (a.toNat : ℤ)-b.toNat
  | _,_ => 0

/-- `wlan_crypto_is_mmie_valid`. `bufOk` and `micOk` tell whether the two buffers are
allocated; the length is kept in 16 bits. -/
def isMmieValid (m : Macs) (priv : CryptoPriv) (frm : List UInt8) (bufOk micOk : Bool) :
    Bool × CryptoPriv :=
  if frm.length < hdrlen then (false,priv)
  else
    let len := frm.length % 65536
    let mmie := frm.drop (frm.length-(if micLen priv.igtkKeyType = 8 then mmieSize-8 else mmieSize))
    let keyId := leVal ((mmie.drop 2).take 2)
    let ipn := (mmie.drop 4).take 6
    if mmie.getD 0 0 ≠ elemidMmie then (false,priv)
    else if maxKeyIdx+maxIgtkKeyIdx ≤ keyId ∨ keyId < maxKeyIdx then (false,priv)
    else
      match priv.igtkKey (keyId-maxKeyIdx) with
      | none => (false,priv)
      | some key =>
        let rsc := leBytes 8 key.keyrsc
        let body := (frm.drop hdrlen).take (len-hdrlen)
        let buf := rxAad frm ++ (body.take (body.length-micLen priv.igtkKeyType) ++
          List.replicate (micLen priv.igtkKeyType) 0)
        if memCmp ipn (rsc.take 6) ≤ 0 then (false,priv)
        else if bufOk = false then (false,priv)
        else if micOk = false then (false,priv)
        else
          match computeMic m priv.igtkKeyType key.keyval key.keylen (addr2 frm) ipn buf with
          | none => (false,priv)
          | some mic =>
            if mic.bytes.take (micLen priv.igtkKeyType) ≠
                (mmie.drop 10).take (micLen priv.igtkKeyType) then (false,priv)
            else
              (true,priv.setKey (keyId-maxKeyIdx) { key with keyrsc := leVal (ipn ++ rsc.drop 6) })

/-- A management frame without the element: at least a header, and short enough for a
16-bit length with the element. -/
structure Frame where
  bytes : List UInt8
  header : hdrlen ≤ bytes.length
  fits : bytes.length+mmieSize < 65536

/-- A protected frame on the air, with the packet number its sender counted up to. -/
structure Sent where
  pn : ℕ
  bytes : List UInt8
  deriving DecidableEq

structure World where
  sender : CryptoPriv
  receiver : CryptoPriv
  air : List Sent
  /-- The frames the receiver accepted, by their places on the air, the last one first -/
  accepted : List ℕ

inductive Act
  | protect (frm : Frame) (bufOk : Bool)
  | deliver (i : ℕ) (bufOk micOk : Bool)

/-- The low 48 bits of the transmit counter -/
def txPn (priv : CryptoPriv) : ℕ :=
  match priv.igtkKey priv.defIgtkTxKeyid with
  | some key => key.keytsc % 2^48
  | none => 0

/-- What the receiver says to the frame at this place on the air -/
def verdict (m : Macs) (w : World) (i : ℕ) (bufOk micOk : Bool) : Bool :=
  match w.air[i]? with
  | some f => (isMmieValid m w.receiver f.bytes bufOk micOk).1
  | none => false

/-- A frame that was delivered stays on the air, so it can come again, and any frame can
stay away or overtake another. -/
def step (m : Macs) (w : World) : Act → World
  | .protect frm bufOk =>
    let r := addMmie m w.sender frm.bytes bufOk
    { w with
      sender := r.2
      air := match r.1 with
        | some bytes => w.air ++ [⟨txPn r.2,bytes⟩]
        | none => w.air }
  | .deliver i bufOk micOk =>
    match w.air[i]? with
    | some f =>
      { w with
        receiver := (isMmieValid m w.receiver f.bytes bufOk micOk).2
        accepted := if verdict m w i bufOk micOk then i::w.accepted else w.accepted }
    | none => w

/-- The number of the frame is above that of every frame accepted before. -/
def Fresh (w : World) (f : Sent) : Prop :=
  ∀ j ∈ w.accepted, ∀ g, w.air[j]? = some g → g.pn < f.pn

/-- A delivered frame is accepted exactly when it is fresh. -/
def Exact (m : Macs) (w : World) : Act → Prop
  | .protect _ _ => True
  | .deliver i bufOk micOk =>
    ∀ f, w.air[i]? = some f → (verdict m w i bufOk micOk = true ↔ Fresh w f)

end Mmie
end MarbleModules
