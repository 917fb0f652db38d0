import MarbleModules.Michael

/-! The check of the Michael code of a TKIP frame over its fragments, as `dp_rx_defrag.c` makes
it on the chain of their buffers. A read or a trim that leaves the payload of a buffer is an
outcome of its own. -/
namespace MarbleModules
namespace TkipMic

open Michael (Byte Word)

/-- `dp_rx_rotl` -/
def rxRotl (val : Word) (bits : ℕ) : Word := (val <<< bits) ||| (val >>> (32-bits))

/-- `dp_rx_rotr` -/
def rxRotr (val : Word) (bits : ℕ) : Word := (val >>> bits) ||| (val <<< (32-bits))

/-- `dp_rx_xswap` -/
def rxXswap (val : Word) : Word := ((val &&& 0x00ff00ff) <<< 8) ||| ((val &&& 0xff00ff00) >>> 8)

/-- `dp_rx_get_le32_split` -/
def getLe32Split (b0 b1 b2 b3 : Byte) : Word :=
  b0.setWidth 32 ||| (b1.setWidth 32 <<< 8) ||| (b2.setWidth 32 <<< 16) |||
    (b3.setWidth 32 <<< 24)

/-- `dp_rx_get_le32` at an offset. -/
def getLe32 (p : ℕ → Byte) (off : ℕ) : Word :=
  getLe32Split (p off) (p (off+1)) (p (off+2)) (p (off+3))

/-- `dp_rx_put_le32` -/
def putLe32 (v : Word) : List Byte :=
  [(v &&& 0xff).setWidth 8,((v >>> 8) &&& 0xff).setWidth 8,((v >>> 16) &&& 0xff).setWidth 8,
    ((v >>> 24) &&& 0xff).setWidth 8]

/-- The variables `l` and `r`. -/
structure Halves where
  l : Word
  r : Word

/-- `dp_rx_michael_block` -/
def michaelBlock (s : Halves) : Halves :=
  let r := s.r ^^^ rxRotl s.l 17
  let l := s.l+r
  let r := r ^^^ rxXswap l
  let l := l+r
  let r := r ^^^ rxRotl l 3
  let l := l+r
  let r := r ^^^ rxRotr l 2
  ⟨l+r,r⟩

/-- `l ^= w` and then the block. -/
def mixIn (s : Halves) (w : Word) : Halves := michaelBlock ⟨s.l ^^^ w,s.r⟩

/-- `sizeof(struct ieee80211_frame)` -/
def sizeofFrame : ℕ := 24

/-- `IEEE80211_WEP_MICLEN`, the `ic_miclen` of `dp_f_tkip`. -/
def micLen : ℕ := 8

/-- `dp_rx_defrag_michdr` on the bytes of a frame: the address fields of the frame are at 4, 10,
16 and 24, and `i_qos` behind the last of them. -/
def michdr (wh : ℕ → Byte) : ℕ → Byte :=
  let dir := wh 1 &&& 0x03
  let (da,sa) := if dir = 0x00 then (4,10) else if dir = 0x01 then (16,10)
    else if dir = 0x02 then (4,16) else (16,24)
  let tid := if wh 0 &&& 0x80 ≠ 0 then (if dir = 0x03 then wh 30 else wh 24) &&& 0x0f else 0
  fun i => if i < 6 then wh (da+i) else if i < 12 then wh (sa+(i-6)) else if i = 12 then tid else 0

/-- A buffer: the frame behind the descriptor, and the payload behind the header. -/
structure Nbuf where
  frame : ℕ → Byte
  payload : List Byte

inductive Result (α : Type)
  | ok (a : α)
  | error
  | outside
  deriving DecidableEq

/-- The inner loop of `dp_rx_defrag_mic`, on what is left of the buffer and of the lengths; none
where a byte behind the payload is read. -/
def collect : Halves → List Byte → ℕ → ℕ → Option (Halves × List Byte × ℕ × ℕ)
  | s,b0::b1::b2::b3::data,space+4,dataLen =>
    collect (mixIn s (getLe32Split b0 b1 b2 b3)) data space (dataLen-4)
  | s,data,space,dataLen => if space < 4 then some (s,data,space,dataLen) else none

/-- The switch over `space` for a block that straddles two buffers. -/
def straddle (s : Halves) : ℕ → List Byte → List Byte → Option (Halves × List Byte)
  | 1,b0::_,c0::c1::c2::next => some (mixIn s (getLe32Split b0 c0 c1 c2),next)
  | 2,b0::b1::_,c0::c1::next => some (mixIn s (getLe32Split b0 b1 c0 c1),next)
  | 3,b0::b1::b2::_,c0::next => some (mixIn s (getLe32Split b0 b1 b2 c0),next)
  | _,_,_ => none

/-- The last block, with the padding. -/
def lastBlock (s : Halves) : ℕ → List Byte → Result (List Byte)
  | 0,_ => fin s (getLe32Split 0x5a 0 0 0)
  | 1,b0::_ => fin s (getLe32Split b0 0x5a 0 0)
  | 2,b0::b1::_ => fin s (getLe32Split b0 b1 0x5a 0)
  | 3,b0::b1::b2::_ => fin s (getLe32Split b0 b1 b2 0x5a)
  | _,_ => .outside
where
  fin (s : Halves) (w : Word) : Result (List Byte) :=
    let s := michaelBlock (mixIn s w)
    .ok (putLe32 s.l++putLe32 s.r)

/-- The loop of `dp_rx_defrag_mic` over the buffers. The length of a buffer that the straddling
block is checked against is that with the header. -/
def micLoop (off : ℕ) : List Nbuf → Halves → List Byte → ℕ → ℕ → Result (List Byte)
  | rest,s,data,space,dataLen =>
    match collect s data (if dataLen < space then dataLen else space) dataLen with
    | none => .outside
    | some (s,data,space,dataLen) =>
      if dataLen < 4 then lastBlock s dataLen data
      else match rest with
        | [] => .error
        | wbuf::rest =>
          if space ≠ 0 then
            if off+wbuf.payload.length < 4-space then .error
            else match straddle s space data wbuf.payload with
              | none => .outside
              | some (s,data) =>
                micLoop off rest s data (wbuf.payload.length-(4-space)) (dataLen-4)
          else micLoop off rest s wbuf.payload wbuf.payload.length dataLen

/-- A key of eight bytes has an index 0. -/
local instance keyByte : NeZero 8 := ⟨by decide⟩

/-- `dp_rx_defrag_mic` -/
def defragMic (key : Fin 8 → Byte) (wbuf : Nbuf) (rest : List Nbuf) (off dataLen : ℕ) :
    Result (List Byte) :=
  let hdr := michdr wbuf.frame
  let s : Halves := ⟨getLe32Split (key 0) (key 1) (key 2) (key 3),
    getLe32Split (key 4) (key 5) (key 6) (key 7)⟩
  let s := mixIn s (getLe32 hdr 0)
  let s := mixIn s (getLe32 hdr 4)
  let s := mixIn s (getLe32 hdr 8)
  let s := mixIn s (getLe32 hdr 12)
  micLoop off rest s wbuf.payload wbuf.payload.length dataLen

/-- `qdf_nbuf_trim_tail` -/
def Nbuf.trimTail (nbuf : Nbuf) (len : ℕ) : Nbuf :=
  {nbuf with payload := nbuf.payload.take (nbuf.payload.length-len)}

/-- The tail of a payload that `qdf_nbuf_copy_bits` reads. -/
def Nbuf.tail (nbuf : Nbuf) (len : ℕ) : List Byte :=
  nbuf.payload.drop (nbuf.payload.length-len)

/-- What `dp_rx_defrag_tkip_demic` does once the code is cut off: a last buffer with nothing
left is freed, and the code is compared with that over the rest. -/
def compareMic (key : Fin 8 → Byte) (hdrlen pktlen : ℕ) (mic0 : List Byte) (before : List Nbuf)
    (prev : Nbuf) : Result (List Nbuf) :=
  let chain := if prev.payload.length = 0 ∧ before ≠ [] then before else before++[prev]
  match chain with
  | [] => .error
  | wbuf::rest =>
    match defragMic key wbuf rest hdrlen (((pktlen+2^32-micLen)%2^32)%2^16) with
    | .ok mic => if mic = mic0 then .ok chain else .error
    | .error => .error
    | .outside => .outside

/-- `dp_rx_defrag_tkip_demic`, on the chain of the buffers from `msdu` on. -/
def tkipDemic (key : Fin 8 → Byte) (msdu : List Nbuf) (hdrlen : ℕ) : Result (List Nbuf) :=
  let pktlen := (msdu.map fun nbuf => nbuf.payload.length).sum%2^32
  match msdu.reverse with
  | [] => .error
  | prev::before =>
    if prev.payload.length < micLen then
      match before with
      | [] => .error
      | prev0::before =>
        let len0 := micLen-prev.payload.length
        if prev0.payload.length < len0 then .outside
        else compareMic key hdrlen pktlen (prev0.tail len0++prev.tail (micLen-len0))
          (before.reverse++[prev0.trimTail len0]) (prev.trimTail (micLen-len0))
    else compareMic key hdrlen pktlen (prev.tail micLen) before.reverse (prev.trimTail micLen)

end TkipMic
end MarbleModules
