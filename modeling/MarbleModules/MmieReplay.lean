import Mathlib.Data.List.GetD
import MarbleModules.Mmie
import MarbleModules.Runs

/-! Which delivered frames the receiver accepts. The frames on the air all come from
`addMmie` under the same group key, so the MIC never decides; what decides is the order in
which the receiver compares packet numbers. -/
namespace MarbleModules
namespace Mmie

open Rsn (Cipher)
open Runs

@[simp] theorem length_incPn (n : ℕ) (pn : List UInt8) : (incPn n pn).length = pn.length := by
  induction n generalizing pn with
  | zero => cases pn <;> rfl
  | succ n ih =>
    cases pn with
    | nil => rfl
    | cons b pn =>
      rw [incPn]
      split
      · rfl
      · rw [List.length_cons,ih,List.length_cons]

/-- The loop adds one to the little-endian number. -/
theorem leVal_incPn (n : ℕ) (pn : List UInt8) (h : n ≤ pn.length) :
    leVal ((incPn n pn).take n) = (leVal (pn.take n)+1) % 256^n := by
  induction n generalizing pn with
  | zero => rw [Nat.pow_zero,Nat.mod_one]; rfl
  | succ n ih =>
    cases pn with
    | nil => cases h
    | cons b pn =>
      have hn : n ≤ pn.length := Nat.le_of_succ_le_succ h
      have hlen : (pn.take n).length = n := by rw [List.length_take,Nat.min_eq_left hn]
      have hlt := leVal_lt (pn.take n)
      rw [hlen] at hlt
      have hb := b.toNat_lt
      have hp : 256^(n+1) = 256*256^n := by rw [Nat.pow_succ,Nat.mul_comm]
      rw [incPn,hp]
      by_cases hc : b+1 = 0
      · have hbv : b.toNat = 255 := by
          have hz := congrArg UInt8.toNat hc
          rw [UInt8.toNat_add] at hz
          have h1 : (1 : UInt8).toNat = 1 := rfl
          have h0 : (0 : UInt8).toNat = 0 := rfl
          omega
        have h0 : (0 : UInt8).toNat = 0 := rfl
        have hsum : 255+256*leVal (pn.take n)+1 = 256*(leVal (pn.take n)+1) := by omega
        rw [if_neg (not_not_intro hc),List.take_succ_cons,List.take_succ_cons,leVal,leVal,ih pn hn,
          hc,h0,hbv,hsum,Nat.mul_mod_mul_left,Nat.zero_add]
      · have hbv : (b+1).toNat = b.toNat+1 := by
          have hz : (b+1).toNat ≠ 0 := fun hz => hc (UInt8.toNat.inj hz)
          rw [UInt8.toNat_add] at hz ⊢
          have h1 : (1 : UInt8).toNat = 1 := rfl
          omega
        rw [if_pos hc,List.take_succ_cons,List.take_succ_cons,leVal,leVal,hbv,Nat.mod_eq_of_lt]
        · omega
        · have hb1 := (b+1).toNat_lt
          omega

/-- What the two stations share -/
structure Igtk where
  type : Cipher
  idx : ℕ
  keyval : List UInt8
  keylen : ℕ

/-- The station holds the group key. -/
structure HasKey (g : Igtk) (priv : CryptoPriv) (key : CryptoKey) : Prop where
  type : priv.igtkKeyType = g.type
  held : priv.igtkKey g.idx = some key
  keyval : key.keyval = g.keyval
  keylen : key.keylen = g.keylen

/-- The station sends under the group key. -/
structure SendsUnder (g : Igtk) (priv : CryptoPriv) (key : CryptoKey) : Prop
    extends HasKey g priv key where
  tx : priv.defIgtkTxKeyid = g.idx
  idx : g.idx < maxIgtkKeyIdx
  keyix : key.keyix = maxKeyIdx+g.idx

/-- The protected frame with this packet number -/
def sealFrame (m : Macs) (g : Igtk) (bfrm pn : List UInt8) : Option (List UInt8) :=
  let head := mmieHead g.type (maxKeyIdx+g.idx) pn
  match computeMic m g.type g.keyval g.keylen (addr2 bfrm) pn
    (txAad bfrm ++ (bfrm.drop hdrlen ++ (head ++ List.replicate (micLen g.type) 0))) with
  | none => none
  | some mic => some (bfrm ++ (head ++ mic.bytes.take (micLen g.type)))

theorem take6_leBytes8 (v : ℕ) : (leBytes 8 v).take 6 = leBytes 6 v := rfl

theorem leVal_leBytes6 (v : ℕ) : leVal (leBytes 6 v) = v % 2^48 := leVal_leBytes 6 v

/-- The counter after the loop -/
def nextTsc (tsc : ℕ) : ℕ := leVal (incPn 6 (leBytes 8 tsc))

theorem nextTsc_mod (tsc : ℕ) : nextTsc tsc % 2^48 = (tsc % 2^48+1) % 2^48 := by
  have hmod := leVal_mod (incPn 6 (leBytes 8 tsc)) (n := 6)
    (by rw [length_incPn,length_leBytes]; decide)
  have hinc := leVal_incPn 6 (leBytes 8 tsc) (by rw [length_leBytes]; decide)
  rw [take6_leBytes8,leVal_leBytes6] at hinc
  exact hmod.trans hinc

theorem HasKey.setKey {g : Igtk} {priv : CryptoPriv} {key : CryptoKey} (h : HasKey g priv key)
    (key' : CryptoKey) (hv : key'.keyval = key.keyval) (hl : key'.keylen = key.keylen) :
    HasKey g (priv.setKey g.idx key') key' where
  type := h.type
  held := Function.update_self ..
  keyval := hv.trans h.keyval
  keylen := hl.trans h.keylen

/-- The sender seals the frame under the next packet number. -/
theorem addMmie_eq {g : Igtk} {priv : CryptoPriv} {key : CryptoKey} (h : SendsUnder g priv key)
    (m : Macs) (bfrm : List UInt8) (bufOk : Bool) :
    addMmie m priv bfrm bufOk =
      (if bufOk then sealFrame m g bfrm (leBytes 6 (nextTsc key.keytsc)) else none,
        priv.setKey g.idx { key with keytsc := nextTsc key.keytsc }) := by
  have hidx := h.idx
  rw [addMmie,h.tx,if_neg (by omega),h.held,h.type,sealFrame,← h.keyval,← h.keylen,← h.keyix]
  simp only [take6_leBytes8,nextTsc]
  cases bufOk with
  | false => rfl
  | true =>
    rw [if_neg (by decide),if_pos rfl]
    split <;> rename_i hm <;> simp only [hm]

theorem micLen_cases (type : Cipher) :
    micLen type = 8 ∨ micLen type = 16 := by
  unfold micLen
  split
  · exact Or.inl rfl
  · exact Or.inr rfl

/-- The element reaches from its first byte to the end of the frame. -/
theorem mmie_offset (type : Cipher) :
    (if micLen type = 8 then mmieSize-8 else mmieSize) = 10+micLen type := by
  rcases micLen_cases type with h | h <;> rw [h] <;> rfl

theorem drop_take_append {bs cs : List UInt8} {k n : ℕ} (h : k+n ≤ bs.length) :
    ((bs ++ cs).drop k).take n = (bs.drop k).take n := by
  rw [List.drop_append_of_le_length (by omega),
    List.take_append_of_le_length (by rw [List.length_drop]; omega)]

/-- Both sides authenticate the same header, whatever follows it. -/
theorem rxAad_append {frm : List UInt8} (h : hdrlen ≤ frm.length) (cs : List UInt8) :
    rxAad (frm ++ cs) = txAad frm := by
  unfold hdrlen at h
  have h0 : (frm ++ cs).getD 0 0 = frm.getD 0 0 := List.getD_append _ _ _ _ (by omega)
  have h1 : (frm ++ cs).getD 1 0 = frm.getD 1 0 := List.getD_append _ _ _ _ (by omega)
  have hsplit : (frm.drop 4).take 18 =
      (frm.drop 4).take 6 ++ addr2 frm ++ (frm.drop 16).take 6 := by
    rw [show (18 : ℕ) = 6+6+6 from rfl,List.take_add,List.take_add,List.drop_drop,List.drop_drop]
    rfl
  rw [rxAad,h0,h1,drop_take_append (by omega),hsplit]
  rfl

theorem addr2_append {frm : List UInt8} (h : hdrlen ≤ frm.length) (cs : List UInt8) :
    addr2 (frm ++ cs) = addr2 frm := by
  unfold hdrlen at h
  exact drop_take_append (by omega)

theorem length_mmieHead (type : Cipher) (keyix : ℕ) {pn : List UInt8} (h : pn.length = 6) :
    (mmieHead type keyix pn).length = 10 := by
  rw [mmieHead,List.length_append,List.length_append,length_leBytes,h]
  rfl

/-- A frame sealed under the group key is rejected only as a replay or for want of memory. -/
theorem isMmieValid_seal {g : Igtk} (hg : g.idx < maxIgtkKeyIdx) {priv : CryptoPriv}
    {key : CryptoKey} (h : HasKey g priv key) {m : Macs} {frm : Frame} {pn bytes : List UInt8}
    (hpn : pn.length = 6) (hs : sealFrame m g frm.bytes pn = some bytes) (bufOk micOk : Bool) :
    isMmieValid m priv bytes bufOk micOk =
      if 0 < memCmp pn (leBytes 6 key.keyrsc) ∧ bufOk = true ∧ micOk = true then
        (true,priv.setKey g.idx
          { key with keyrsc := leVal (pn ++ (leBytes 8 key.keyrsc).drop 6) })
      else (false,priv) := by
  unfold maxIgtkKeyIdx at hg
  have hlong := frm.header
  have hfits := frm.fits
  rw [sealFrame] at hs
  set head := mmieHead g.type (maxKeyIdx+g.idx) pn with hhead
  have hhl : head.length = 10 := length_mmieHead _ _ hpn
  have hL : micLen g.type ≤ 16 := by rcases micLen_cases g.type with h | h <;> omega
  cases hmic : computeMic m g.type g.keyval g.keylen (addr2 frm.bytes) pn
      (txAad frm.bytes ++ (frm.bytes.drop hdrlen ++
        (head ++ List.replicate (micLen g.type) 0))) with
  | none => rw [hmic] at hs; cases hs
  | some mic =>
    rw [hmic] at hs
    obtain rfl := Option.some.inj hs
    have hml : (mic.bytes.take (micLen g.type)).length = micLen g.type := by
      rw [List.length_take,mic.len,Nat.min_eq_left hL]
    set tail := mic.bytes.take (micLen g.type) with htail
    have hlen : (frm.bytes ++ (head ++ tail)).length = frm.bytes.length+(10+micLen g.type) := by
      rw [List.length_append,List.length_append,hhl,hml]
    have hdrop : (frm.bytes ++ (head ++ tail)).drop
        ((frm.bytes ++ (head ++ tail)).length-(10+micLen g.type)) = head ++ tail := by
      rw [hlen,Nat.add_sub_cancel]
      exact List.drop_left
    have hid : (head ++ tail).getD 0 0 = elemidMmie := rfl
    have hkey : ((head ++ tail).drop 2).take 2 = leBytes 2 (maxKeyIdx+g.idx) := rfl
    have hipn : ((head ++ tail).drop 4).take 6 = pn := by
      show (pn ++ tail).take 6 = pn
      exact List.take_left' hpn
    have htl : ((head ++ tail).drop 10).take (micLen g.type) = tail := by
      rw [List.drop_left' hhl,List.take_of_length_le (by omega)]
    have hkv : leVal (leBytes 2 (maxKeyIdx+g.idx)) = maxKeyIdx+g.idx :=
      leVal_leBytes_of_lt (by unfold maxKeyIdx; omega)
    have hbody : ((frm.bytes ++ (head ++ tail)).drop hdrlen).take
        ((frm.bytes ++ (head ++ tail)).length % 65536-hdrlen) =
          frm.bytes.drop hdrlen ++ (head ++ tail) := by
      unfold mmieSize at hfits
      rw [List.drop_append_of_le_length hlong,Nat.mod_eq_of_lt (by omega),
        List.take_of_length_le]
      simp only [List.length_append,List.length_drop]
      omega
    have hzero : (frm.bytes.drop hdrlen ++ (head ++ tail)).take
        ((frm.bytes.drop hdrlen ++ (head ++ tail)).length-micLen g.type) =
          frm.bytes.drop hdrlen ++ head := by
      rw [← List.append_assoc,List.length_append,hml,Nat.add_sub_cancel]
      exact List.take_left
    rw [isMmieValid,h.type,mmie_offset,if_neg (by omega)]
    simp only [hdrop,hid,hkey,hkv,hipn,hbody,hzero,htl]
    have hix : maxKeyIdx+g.idx-maxKeyIdx = g.idx := by omega
    rw [if_neg (by simp),if_neg (by unfold maxKeyIdx maxIgtkKeyIdx; omega),hix,h.held]
    simp only [take6_leBytes8,h.keyval,h.keylen,rxAad_append hlong,addr2_append hlong,
      List.append_assoc,hmic]
    by_cases hc : 0 < memCmp pn (leBytes 6 key.keyrsc)
    · rw [if_neg (by omega)]
      cases bufOk <;> cases micOk <;> simp [hc,htail]
    · rw [if_pos (by omega),if_neg (fun hh => hc hh.1)]

/-- The six bytes the receiver compares the next packet number with -/
def lastIpn (w : World) : List UInt8 :=
  match w.receiver.igtkKey w.sender.defIgtkTxKeyid with
  | some key => leBytes 6 key.keyrsc
  | none => []

/-- The memory order of the packet number and the last accepted one is the order of the
numbers; while nothing is accepted, the packet number comes after the start in memory. A
buffer is missing only for a frame that would not be accepted anyway. -/
def OrdersAgree (w : World) : Act → Prop
  | .protect _ _ => True
  | .deliver i bufOk micOk => ∀ f, w.air[i]? = some f →
    if bufOk = true ∧ micOk = true then
      if w.accepted = [] then 0 < memCmp (leBytes 6 f.pn) (lastIpn w)
      else 0 < memCmp (leBytes 6 f.pn) (lastIpn w) ↔ leVal (lastIpn w) < f.pn
    else w.accepted ≠ [] ∧ f.pn ≤ leVal (lastIpn w)

/-- The frames on the air are sealed under the key both stations hold, and the receiver
remembers the highest number it accepted. -/
structure Inv (m : Macs) (g : Igtk) (w : World) : Prop where
  sends : ∃ key, SendsUnder g w.sender key
  receives : ∃ key, HasKey g w.receiver key
  air : ∀ f ∈ w.air, f.pn < 2^48 ∧
    ∃ frm : Frame, sealFrame m g frm.bytes (leBytes 6 f.pn) = some f.bytes
  le_last : ∀ j ∈ w.accepted, ∃ f, w.air[j]? = some f ∧ f.pn ≤ leVal (lastIpn w)
  last : w.accepted ≠ [] → ∃ j ∈ w.accepted, ∃ f, w.air[j]? = some f ∧ leVal (lastIpn w) = f.pn

variable {m : Macs} {g : Igtk} {w : World}

/-- The packet number is the counter in memory. -/
theorem leVal_pn {n : ℕ} (h : n < 2^48) : leVal (leBytes 6 n) = n := leVal_leBytes_of_lt h

theorem lastIpn_eq {ks kr : CryptoKey} (hs : SendsUnder g w.sender ks)
    (hr : HasKey g w.receiver kr) : lastIpn w = leBytes 6 kr.keyrsc := by
  rw [lastIpn,hs.tx,hr.held]

/-- The receiver's verdict on a frame on the air -/
theorem Inv.verdict_iff (h : Inv m g w) {i : ℕ} {f : Sent} (hf : w.air[i]? = some f)
    (bufOk micOk : Bool) :
    verdict m w i bufOk micOk = true ↔
      0 < memCmp (leBytes 6 f.pn) (lastIpn w) ∧ bufOk = true ∧ micOk = true := by
  obtain ⟨ks,hs⟩ := h.sends
  obtain ⟨kr,hr⟩ := h.receives
  obtain ⟨-,frm,hseal⟩ := h.air f (List.mem_of_getElem? hf)
  rw [verdict,hf,lastIpn_eq hs hr]
  simp only [isMmieValid_seal hs.idx hr (length_leBytes 6 f.pn) hseal]
  split <;> simp_all

/-- What the receiver holds after it accepted a frame -/
theorem Inv.receiver_accept (h : Inv m g w) {i : ℕ} {f : Sent} (hf : w.air[i]? = some f)
    {bufOk micOk : Bool} (hv : verdict m w i bufOk micOk = true) :
    ∃ key, HasKey g (isMmieValid m w.receiver f.bytes bufOk micOk).2 key ∧
      leBytes 6 key.keyrsc = leBytes 6 f.pn := by
  obtain ⟨ks,hs⟩ := h.sends
  obtain ⟨kr,hr⟩ := h.receives
  obtain ⟨-,frm,hseal⟩ := h.air f (List.mem_of_getElem? hf)
  have hacc := (h.verdict_iff hf bufOk micOk).mp hv
  rw [lastIpn_eq hs hr] at hacc
  rw [isMmieValid_seal hs.idx hr (length_leBytes 6 f.pn) hseal,if_pos hacc]
  refine ⟨_,hr.setKey _ rfl rfl,?_⟩
  have hl : (leBytes 6 f.pn ++ (leBytes 8 kr.keyrsc).drop 6).length = 8 := by
    rw [List.length_append,length_leBytes,List.length_drop,length_leBytes]
  have hb := leBytes_leVal (leBytes 6 f.pn ++ (leBytes 8 kr.keyrsc).drop 6)
  rw [hl] at hb
  show (leBytes 8 _).take 6 = _
  rw [hb]
  exact List.take_left' (length_leBytes 6 f.pn)

theorem Inv.receiver_reject (h : Inv m g w) {i : ℕ} {f : Sent} (hf : w.air[i]? = some f)
    {bufOk micOk : Bool} (hv : verdict m w i bufOk micOk ≠ true) :
    (isMmieValid m w.receiver f.bytes bufOk micOk).2 = w.receiver := by
  obtain ⟨ks,hs⟩ := h.sends
  obtain ⟨kr,hr⟩ := h.receives
  obtain ⟨-,frm,hseal⟩ := h.air f (List.mem_of_getElem? hf)
  have hrej := mt (h.verdict_iff hf bufOk micOk).mpr hv
  rw [lastIpn_eq hs hr] at hrej
  rw [isMmieValid_seal hs.idx hr (length_leBytes 6 f.pn) hseal,if_neg hrej]

/-- Once something is accepted, fresh means above the last accepted number. -/
theorem Inv.fresh_iff (h : Inv m g w) (f : Sent) :
    Fresh w f ↔ w.accepted = [] ∨ leVal (lastIpn w) < f.pn := by
  constructor
  · intro hfr
    by_cases hnil : w.accepted = []
    · exact Or.inl hnil
    · obtain ⟨j,hj,f',hf',hlast⟩ := h.last hnil
      exact Or.inr (hlast ▸ hfr j hj f' hf')
  · rintro (hnil | hlt) j hj f' hf'
    · rw [hnil] at hj
      cases hj
    · obtain ⟨f'',hf'',hle⟩ := h.le_last j hj
      rw [hf'] at hf''
      cases hf''
      omega

theorem Inv.exact_iff_ordersAgree (h : Inv m g w) (a : Act) : Exact m w a ↔ OrdersAgree w a := by
  cases a with
  | protect frm bufOk => exact Iff.rfl
  | deliver i bufOk micOk =>
    refine forall_congr' fun f => imp_congr_right fun hf => ?_
    rw [h.verdict_iff hf,h.fresh_iff]
    by_cases hok : bufOk = true ∧ micOk = true
    · rw [if_pos hok]
      by_cases hnil : w.accepted = []
      · rw [if_pos hnil]
        tauto
      · rw [if_neg hnil]
        tauto
    · rw [if_neg hok,← Nat.not_lt]
      tauto

/-- A frame is sealed under the next number, or none is sent; the counter is up by one. -/
theorem Inv.protect (h : Inv m g w) (frm : Frame) (bufOk : Bool) :
    ∃ key, SendsUnder g (step m w (.protect frm bufOk)).sender key ∧
      key.keytsc % 2^48 = (txPn w.sender+1) % 2^48 ∧
      ((step m w (.protect frm bufOk)).air = w.air ∨
        ∃ bytes, sealFrame m g frm.bytes (leBytes 6 ((txPn w.sender+1) % 2^48)) = some bytes ∧
          (step m w (.protect frm bufOk)).air = w.air ++ [⟨(txPn w.sender+1) % 2^48,bytes⟩]) := by
  obtain ⟨ks,hs⟩ := h.sends
  have hadd := addMmie_eq hs m frm.bytes bufOk
  have hkey := hs.toHasKey.setKey { ks with keytsc := nextTsc ks.keytsc } rfl rfl
  have htx : txPn w.sender = ks.keytsc % 2^48 := by rw [txPn,hs.tx,hs.held]
  have hpn : nextTsc ks.keytsc % 2^48 = (txPn w.sender+1) % 2^48 := by rw [htx,nextTsc_mod]
  have hbytes : leBytes 6 (nextTsc ks.keytsc) = leBytes 6 ((txPn w.sender+1) % 2^48) := by
    apply leVal_inj (by rw [length_leBytes,length_leBytes])
    rw [leVal_leBytes6,leVal_leBytes6,hpn,Nat.mod_mod]
  have hsend : SendsUnder g (step m w (.protect frm bufOk)).sender
      { ks with keytsc := nextTsc ks.keytsc } := by
    rw [step,hadd]
    exact ⟨hkey,hs.tx,hs.idx,hs.keyix⟩
  refine ⟨_,hsend,hpn,?_⟩
  have hnew : txPn (addMmie m w.sender frm.bytes bufOk).2 = (txPn w.sender+1) % 2^48 := by
    have hheld := hsend.held
    rw [step] at hheld
    rw [hadd] at hheld ⊢
    rw [← hpn,txPn]
    show (match (w.sender.setKey g.idx _).igtkKey w.sender.defIgtkTxKeyid with
      | some key => key.keytsc % 2^48
      | none => 0) = _
    rw [hs.tx,hkey.held]
  rw [step,hnew,hadd,hbytes]
  cases bufOk with
  | false => exact Or.inl rfl
  | true =>
    rw [if_pos rfl]
    cases hseal : sealFrame m g frm.bytes (leBytes 6 ((txPn w.sender+1) % 2^48)) with
    | none => exact Or.inl rfl
    | some bytes => exact Or.inr ⟨bytes,rfl,rfl⟩

theorem getElem?_air_protect {frm : Frame} {bufOk : Bool} {j : ℕ} {f : Sent}
    (h : w.air[j]? = some f) : (step m w (.protect frm bufOk)).air[j]? = some f := by
  rw [step]
  cases (addMmie m w.sender frm.bytes bufOk).1 with
  | none => exact h
  | some bytes =>
    rw [← h]
    exact List.getElem?_append_left (List.getElem?_eq_some_iff.mp h).1

theorem lastIpn_protect (h : Inv m g w) (frm : Frame) (bufOk : Bool) :
    lastIpn (step m w (.protect frm bufOk)) = lastIpn w := by
  obtain ⟨ks,hs,-⟩ := h.protect frm bufOk
  obtain ⟨ks',hs'⟩ := h.sends
  obtain ⟨kr,hr⟩ := h.receives
  rw [lastIpn_eq hs' hr,lastIpn_eq hs (show HasKey g _ kr from hr)]

theorem Inv.step_protect (h : Inv m g w) (frm : Frame) (bufOk : Bool) :
    Inv m g (step m w (.protect frm bufOk)) := by
  obtain ⟨ks,hs,-,hair⟩ := h.protect frm bufOk
  refine ⟨⟨ks,hs⟩,h.receives,?_,?_,?_⟩
  · rcases hair with hair | ⟨bytes,hseal,hair⟩
    · rw [hair]
      exact h.air
    · intro f hf
      rw [hair,List.mem_append,List.mem_singleton] at hf
      rcases hf with hf | rfl
      · exact h.air f hf
      · exact ⟨Nat.mod_lt _ (by decide),frm,hseal⟩
  · intro j hj
    obtain ⟨f,hf,hle⟩ := h.le_last j hj
    exact ⟨f,getElem?_air_protect hf,by rwa [lastIpn_protect h]⟩
  · intro hne
    obtain ⟨j,hj,f,hf,hlast⟩ := h.last hne
    exact ⟨j,hj,f,getElem?_air_protect hf,by rwa [lastIpn_protect h]⟩

theorem step_deliver {i : ℕ} {f : Sent} (hf : w.air[i]? = some f) (bufOk micOk : Bool) :
    step m w (.deliver i bufOk micOk) =
      { w with
        receiver := (isMmieValid m w.receiver f.bytes bufOk micOk).2
        accepted := if verdict m w i bufOk micOk then i::w.accepted else w.accepted } := by
  rw [step,hf]

theorem Inv.step_deliver (h : Inv m g w) (i : ℕ) (bufOk micOk : Bool)
    (he : Exact m w (.deliver i bufOk micOk)) : Inv m g (step m w (.deliver i bufOk micOk)) := by
  cases hf : w.air[i]? with
  | none =>
    rw [step,hf]
    exact h
  | some f =>
    obtain ⟨ks,hs⟩ := h.sends
    rw [Mmie.step_deliver hf]
    by_cases hv : verdict m w i bufOk micOk = true
    · obtain ⟨kr,hr,hlow⟩ := h.receiver_accept hf hv
      have hfresh := (he f hf).mp hv
      rw [if_pos hv]
      have hlast : lastIpn { w with
          receiver := (isMmieValid m w.receiver f.bytes bufOk micOk).2
          accepted := i::w.accepted } = leBytes 6 f.pn := by
        rw [← hlow]
        exact lastIpn_eq (w := { w with
          receiver := (isMmieValid m w.receiver f.bytes bufOk micOk).2
          accepted := i::w.accepted }) hs hr
      have hpn := leVal_pn (h.air f (List.mem_of_getElem? hf)).1
      refine ⟨⟨ks,hs⟩,⟨kr,hr⟩,h.air,?_,?_⟩
      · intro j hj
        rw [hlast,hpn]
        rcases List.mem_cons.mp hj with rfl | hj
        · exact ⟨f,hf,le_refl _⟩
        · obtain ⟨f',hf',-⟩ := h.le_last j hj
          exact ⟨f',hf',(hfresh j hj f' hf').le⟩
      · intro _
        exact ⟨i,List.mem_cons_self ..,f,hf,by rw [hlast,hpn]⟩
    · rw [h.receiver_reject hf hv,if_neg hv]
      exact h

theorem Inv.step (h : Inv m g w) (a : Act) (he : Exact m w a) : Inv m g (step m w a) := by
  cases a with
  | protect frm bufOk => exact h.step_protect frm bufOk
  | deliver i bufOk micOk => exact h.step_deliver i bufOk micOk he

/-- Two stations that start with the same key and the same counter, and no frame yet -/
structure Paired (g : Igtk) (w : World) : Prop where
  keys : ∃ ks kr, SendsUnder g w.sender ks ∧ HasKey g w.receiver kr ∧
    ks.keytsc % 2^48 = kr.keyrsc % 2^48
  air : w.air = []
  accepted : w.accepted = []

theorem Paired.inv (h : Paired g w) (m : Macs) : Inv m g w := by
  obtain ⟨ks,kr,hs,hr,-⟩ := h.keys
  refine ⟨⟨ks,hs⟩,⟨kr,hr⟩,?_,?_,fun hne => absurd h.accepted hne⟩
  · rw [h.air]
    exact fun _ hf => absurd hf List.not_mem_nil
  · rw [h.accepted]
    exact fun _ hj => absurd hj List.not_mem_nil

/-- A frame that is accepted has not been accepted before. -/
theorem nodup_step (hn : w.accepted.Nodup) (a : Act) (he : Exact m w a) :
    (step m w a).accepted.Nodup := by
  cases a with
  | protect frm bufOk => exact hn
  | deliver i bufOk micOk =>
    cases hf : w.air[i]? with
    | none => rwa [step,hf]
    | some f =>
      rw [step_deliver hf]
      by_cases hv : verdict m w i bufOk micOk = true
      · have hnew : i ∉ w.accepted := fun hi => lt_irrefl _ ((he f hf).mp hv i hi f hf)
        rw [if_pos hv]
        exact List.nodup_cons.mpr ⟨hnew,hn⟩
      · rwa [if_neg hv]

def Act.isProtect : Act → Bool
  | .protect _ _ => true
  | .deliver _ _ _ => false

/-- The number of frames given to the sender -/
def protects (ops : List Act) : ℕ := ops.countP Act.isProtect

/-- A frame that was sent after every accepted one is accepted. -/
def InOrder (m : Macs) (w : World) : Act → Prop
  | .protect _ _ => True
  | .deliver i bufOk micOk => ∀ f, w.air[i]? = some f → (∀ j ∈ w.accepted, j < i) →
    verdict m w i bufOk micOk = true

/-- The numbers on the air count up to the sender's counter. -/
structure Counts (w : World) : Prop where
  sorted : w.air.Pairwise fun f f' => f.pn < f'.pn
  le_tx : ∀ f ∈ w.air, f.pn ≤ txPn w.sender

theorem Counts.step_protect (h : Counts w) (hi : Inv m g w) (frm : Frame) (bufOk : Bool)
    (hwrap : txPn w.sender+1 < 2^48) :
    Counts (step m w (.protect frm bufOk)) ∧
      txPn (step m w (.protect frm bufOk)).sender = txPn w.sender+1 := by
  obtain ⟨key,hs,htsc,hair⟩ := hi.protect frm bufOk
  rw [Nat.mod_eq_of_lt hwrap] at htsc hair
  have htx : txPn (step m w (.protect frm bufOk)).sender = txPn w.sender+1 := by
    rw [txPn,hs.tx,hs.held]
    exact htsc
  refine ⟨⟨?_,?_⟩,htx⟩
  · rcases hair with hair | ⟨bytes,-,hair⟩ <;> rw [hair]
    · exact h.sorted
    · refine List.pairwise_append.mpr ⟨h.sorted,List.pairwise_singleton ..,?_⟩
      intro f hf f' hf'
      obtain rfl := List.mem_singleton.mp hf'
      exact Nat.lt_succ_of_le (h.le_tx f hf)
  · intro f hf
    rw [htx]
    rcases hair with hair | ⟨bytes,-,hair⟩ <;> rw [hair] at hf
    · exact (h.le_tx f hf).trans (Nat.le_succ _)
    · rcases List.mem_append.mp hf with hf | hf
      · exact (h.le_tx f hf).trans (Nat.le_succ _)
      · obtain rfl := List.mem_singleton.mp hf
        exact le_refl _

theorem step_deliver_frame (i : ℕ) (bufOk micOk : Bool) :
    (step m w (.deliver i bufOk micOk)).air = w.air ∧
      (step m w (.deliver i bufOk micOk)).sender = w.sender := by
  rw [step]
  cases w.air[i]? with
  | none => exact ⟨rfl,rfl⟩
  | some f => exact ⟨rfl,rfl⟩

theorem Counts.inOrder (h : Counts w) {a : Act} (he : Exact m w a) :
    InOrder m w a := by
  cases a with
  | protect frm bufOk => trivial
  | deliver i bufOk micOk =>
    intro f hf hlt
    refine (he f hf).mpr fun j hj f' hf' => ?_
    obtain ⟨hjl,rfl⟩ := List.getElem?_eq_some_iff.mp hf'
    obtain ⟨hil,rfl⟩ := List.getElem?_eq_some_iff.mp hf
    exact List.pairwise_iff_getElem.mp h.sorted j i hjl hil (hlt j hj)

/-- As long as the counter does not wrap, frames delivered in order are all accepted. -/
theorem guarded_inOrder (hi : Inv m g w) (hc : Counts w) (ops : List Act)
    (hwrap : txPn w.sender+protects ops < 2^48) (he : Guarded (step m) (Exact m) w ops) :
    Guarded (step m) (InOrder m) w ops := by
  induction ops generalizing w with
  | nil => trivial
  | cons a ops ih =>
    refine ⟨hc.inOrder he.1,?_⟩
    have hi' := hi.step a he.1
    cases a with
    | protect frm bufOk =>
      have hcount : protects (.protect frm bufOk::ops) = protects ops+1 := by
        rw [protects,List.countP_cons_of_pos rfl,protects]
      rw [hcount] at hwrap
      obtain ⟨hc',htx⟩ := hc.step_protect hi frm bufOk (by omega)
      exact ih hi' hc' (by rw [htx]; omega) he.2
    | deliver i bufOk micOk =>
      have hcount : protects (.deliver i bufOk micOk::ops) = protects ops := by
        rw [protects,List.countP_cons_of_neg Bool.false_ne_true,protects]
      obtain ⟨hair,hsend⟩ := step_deliver_frame (m := m) (w := w) i bufOk micOk
      refine ih hi' ⟨by rw [hair]; exact hc.sorted,?_⟩ (by rw [hsend]; omega) he.2
      rw [hair,hsend]
      exact hc.le_tx

/-- In every run the receiver accepts exactly the fresh frames if and only if the memory
order of the packet numbers it compares is the order of the numbers; then no frame is
accepted twice, and, as long as the counter does not wrap, frames in order are all accepted. -/
theorem mmie_replay_iff (m : Macs) (g : Igtk) (w : World) (ops : List Act) (h : Paired g w) :
    (Guarded (step m) (Exact m) w ops ↔ Guarded (step m) OrdersAgree w ops) ∧
      (Guarded (step m) (Exact m) w ops → (run (step m) w ops).accepted.Nodup ∧
        (txPn w.sender+protects ops < 2^48 → Guarded (step m) (InOrder m) w ops)) := by
  have hi := h.inv m
  refine ⟨⟨fun he => ?_,fun ho => ?_⟩,fun he => ⟨?_,fun hwrap => ?_⟩⟩
  · exact he.imp (I := Inv m g) (fun s a hs hx => hs.step a hx)
      (fun s a hs hx => (hs.exact_iff_ordersAgree a).mp hx) hi ops
  · exact ho.imp (I := Inv m g) (fun s a hs hx => hs.step a ((hs.exact_iff_ordersAgree a).mpr hx))
      (fun s a hs hx => (hs.exact_iff_ordersAgree a).mpr hx) hi ops
  · have hn : w.accepted.Nodup := by rw [h.accepted]; exact List.nodup_nil
    exact (guarded_invariant (I := fun s => Inv m g s ∧ s.accepted.Nodup)
      (fun s a hs hx => ⟨hs.1.step a hx,nodup_step hs.2 a hx⟩) ⟨hi,hn⟩ ops he).2
  · refine guarded_inOrder hi ⟨?_,?_⟩ ops hwrap he
    · rw [h.air]
      exact List.Pairwise.nil
    · rw [h.air]
      exact fun _ hf => absurd hf List.not_mem_nil

/-- A station with an all-zero key whose counters stand at `n` -/
def station (n : ℕ) : CryptoPriv :=
  ⟨fun i => if i = 0 then some ⟨maxKeyIdx,[],16,n,n⟩ else none,.aesCmac,0⟩

def start (n : ℕ) : World := ⟨station n,station n,[],[]⟩

def zeroMacs : Macs :=
  let mic : Mic := ⟨List.replicate 16 0,rfl⟩
  ⟨fun _ _ => some mic,fun _ _ => some mic,fun _ _ _ _ => some mic⟩

def emptyFrame : Frame := ⟨List.replicate 24 0,by decide,by decide⟩

theorem paired_start (n : ℕ) : Paired ⟨.aesCmac,0,[],16⟩ (start n) where
  keys := ⟨⟨maxKeyIdx,[],16,n,n⟩,⟨maxKeyIdx,[],16,n,n⟩,
    ⟨⟨rfl,rfl,rfl,rfl⟩,rfl,by decide,rfl⟩,⟨rfl,rfl,rfl,rfl⟩,rfl⟩
  air := rfl
  accepted := rfl

theorem mmie_replay_first : Guarded (step zeroMacs) (Exact zeroMacs) (start 0)
    [.protect emptyFrame true,.deliver 0 true true] := by
  refine (mmie_replay_iff zeroMacs _ (start 0) _ (paired_start 0)).1.mpr ⟨trivial,?_,trivial⟩
  intro f hf
  cases hf
  decide

/-- The frame after number 255 is rejected although nothing was accepted before. -/
theorem mmie_replay_after255 : Paired ⟨.aesCmac,0,[],16⟩ (start 255) ∧
    ¬Guarded (step zeroMacs) (Exact zeroMacs) (start 255)
      [.protect emptyFrame true,.deliver 0 true true] := by
  refine ⟨paired_start 255,fun h => ?_⟩
  have hrej : verdict zeroMacs (step zeroMacs (start 255) (.protect emptyFrame true)) 0 true true =
      false := by decide
  have hacc := (h.2.1 _ rfl).mpr fun _ hj => absurd hj List.not_mem_nil
  rw [hrej] at hacc
  cases hacc

end Mmie
end MarbleModules
