import MarbleModules.PrefixFraming
import MarbleModules.RmnetFragments

/-! QMAP deaggregation: cutting the page fragments of a received skb into descriptors,
one for each aggregated frame. -/
namespace MarbleModules
namespace Rmnet

open PrefixFraming FragDescriptor

/-! ## QMAP headers -/

/-- `sizeof(struct rmnet_map_header)` -/
def mapHeaderSize : ℕ := 4
/-- `sizeof(struct rmnet_map_dl_csum_trailer)` -/
def dlCsumTrailerSize : ℕ := 8
/-- `sizeof(struct rmnet_map_v5_csum_header)` -/
def v5CsumHeaderSize : ℕ := 4
/-- `sizeof(struct rmnet_map_v5_coal_header)`: four bytes and six NL pairs. -/
def v5CoalHeaderSize : ℕ := 28

/-- `RMNET_FLAGS_INGRESS_MAP_CKSUMV4` -/
def flagsIngressMapCksumv4 : BitVec 32 := 1 <<< 2
/-- `RMNET_FLAGS_INGRESS_COALESCE` -/
def flagsIngressCoalesce : BitVec 32 := 1 <<< 4
/-- `RMNET_PRIV_FLAGS_INGRESS_MAP_CKSUMV5` -/
def privFlagsIngressMapCksumv5 : BitVec 32 := 1 <<< 5

/-- `enum rmnet_map_v5_header_type` -/
def mapHeaderTypeCoalescing : ℕ := 1
def mapHeaderTypeCsumOffload : ℕ := 2

/-- `ntohs(maph->pkt_len)` -/
def mapPktLen (maph : List UInt8) : ℕ := (maph.getD 2 0).toNat*256+(maph.getD 3 0).toNat

/-- `maph->cd_bit`, the top bit of the first byte. -/
def mapCdBit (maph : List UInt8) : Bool := (maph.getD 0 0).toNat.testBit 7

/-- The data format has one of the flags. -/
def hasFlags (dataFormat flags : BitVec 32) : Bool := dataFormat &&& flags != 0

/-- The switch on the header type; the type is the upper seven bits of its byte. -/
def v5HeaderSize (type : UInt8) : ℕ :=
  if (type &&& 0xFE).toNat/2 = mapHeaderTypeCoalescing then v5CoalHeaderSize
  else if (type &&& 0xFE).toNat/2 = mapHeaderTypeCsumOffload then v5CsumHeaderSize
  else 0

/-! ## The code -/

/-- An skb without linear data: its page fragments. -/
structure Skb where
  frags : List Fragment
  fits : ∀ f ∈ frags, f.Fits

def Skb.len (skb : Skb) : ℕ := (skb.frags.map Fragment.size).sum
def Skb.bytes (skb : Skb) : List UInt8 := contents skb.frags

/-- What `skb_copy_bits` promises: the bytes asked for, or an error when the skb has not
that many. -/
def CopiesBits (skbCopyBits : Skb → ℕ → ℕ → Option (List UInt8)) : Prop :=
  ∀ skb offset len, skbCopyBits skb offset len =
    if offset+len ≤ skb.len then some ((skb.bytes.drop offset).take len) else none

/-- The first loop of `rmnet_frag_deaggregate_one`: the fragment `start` lies in and the
offset of that fragment in the skb. -/
def findStartFrag (start : ℕ) : List Fragment → ℕ → ℕ → ℕ × ℕ
  | [],startFrag,offset => (startFrag,offset)
  | f::fs,startFrag,offset =>
    if start < f.size+offset then (startFrag,offset)
    else findStartFrag start fs (startFrag+1) (offset+f.size)

/-- The loop that adds the fragments with the packet data: the descriptor and the bytes
still missing. `none` when the loop did not end within the fuel. -/
def addPacketFrags (frags : List Fragment) (startFrag startFragSize startFragOff : ℕ) :
    ℕ → FragDescriptor → ℕ → ℕ → ℕ → Option (FragDescriptor × ℕ)
  | 0,_,_,_,_ => none
  | fuel+1,fragDesc,i,pktLen,copyLen =>
    if 0 < pktLen then
      match frags[i]? with
      | none => some (fragDesc,pktLen)
      | some frag =>
        let size := if i = startFrag then startFragSize else frag.size
        let off := if i = startFrag then startFragOff else frag.off
        let copy := min size pktLen
        let fragDesc := fragDesc.addFrag frag.page off copy
        if size = copyLen+copy then
          addPacketFrags frags startFrag startFragSize startFragOff fuel fragDesc (i+1)
            (pktLen-copy) 0
        else
          addPacketFrags frags startFrag startFragSize startFragOff fuel fragDesc i
            (pktLen-copy) (copyLen+copy)
    else some (fragDesc,pktLen)

/-- What one call of `rmnet_frag_deaggregate_one` does: the length it returns (`none` is
-1), the descriptor it appends and the port afterwards. -/
structure Deaggregated where
  rc : Option ℕ
  appended : List FragDescriptor
  port : Port

section Code

variable (skbCopyBits : Skb → ℕ → ℕ → Option (List UInt8))

/-- The header type byte, in place or copied. -/
def typeByte (skb : Skb) (frag : Fragment) (start startFragSize startFragOff : ℕ) :
    Option UInt8 :=
  if mapHeaderSize+1 ≤ startFragSize then
    some ((frag.page.drop startFragOff).getD mapHeaderSize 0)
  else (skbCopyBits skb (start+mapHeaderSize) 1).map (·.getD 0 0)

/-- The length of the whole frame: what is added to `pkt_len` for the header and, by the
data format, for a trailer or a second header. `none` when the type byte is missing. -/
def frameLength (dataFormat : BitVec 32) (maph : List UInt8) (type : Option UInt8) :
    Option ℕ :=
  let pktLen := mapPktLen maph+mapHeaderSize
  if hasFlags dataFormat flagsIngressMapCksumv4 then some (pktLen+dlCsumTrailerSize)
  else if hasFlags dataFormat (privFlagsIngressMapCksumv5 ||| flagsIngressCoalesce) &&
      !mapCdBit maph then
    type.map fun type => pktLen+v5HeaderSize type
  else some pktLen

/-- `rmnet_frag_deaggregate_one` -/
def deaggregateOne (fuel : ℕ) (skb : Skb) (port : Port) (start priority : ℕ) :
    Option Deaggregated :=
  let found := findStartFrag start skb.frags 0 0
  let startFrag := found.1
  let offset := found.2
  match skb.frags[startFrag]? with
  | none => some ⟨none,[],port⟩
  | some frag =>
    let startFragSize := frag.size-(start-offset)
    let startFragOff := frag.off+(start-offset)
    let maph? :=
      if mapHeaderSize ≤ startFragSize then
        some ((frag.page.drop startFragOff).take mapHeaderSize)
      else skbCopyBits skb start mapHeaderSize
    match maph? with
    | none => some ⟨none,[],port⟩
    | some maph =>
      if mapPktLen maph = 0 then some ⟨none,[],port⟩
      else
        let got := getFragDescriptor port
        let fragDesc := { got.1 with priority := priority }
        match frameLength port.dataFormat maph
          (typeByte skbCopyBits skb frag start startFragSize startFragOff) with
        | none => some ⟨none,[],got.2⟩  -- the descriptor is not put back
        | some pktLen =>
          match addPacketFrags skb.frags startFrag startFragSize startFragOff fuel fragDesc
            startFrag pktLen 0 with
          | none => none
          | some (fragDesc,missing) =>
            if missing = 0 then some ⟨some fragDesc.len,[fragDesc],got.2⟩
            else some ⟨none,[],recycleFragDescriptor got.2⟩

/-- The loop of `rmnet_frag_deaggregate` from `start` on; `bound` is the fuel of each
inner loop. -/
def deaggregateFrom (bound : ℕ) (skb : Skb) (priority : ℕ) :
    ℕ → Port → List FragDescriptor → ℕ → Option (List FragDescriptor × Port)
  | 0,_,_,_ => none
  | fuel+1,port,list,start =>
    if start < skb.len then
      match deaggregateOne skbCopyBits bound skb port start priority with
      | none => none
      | some one =>
        match one.rc with
        | none => some (list++one.appended,one.port)
        | some rc =>
          deaggregateFrom bound skb priority fuel one.port (list++one.appended) (start+rc)
    else some (list,port)

/-- `rmnet_frag_deaggregate`; `none` when a loop did not end within the fuel. -/
def deaggregate (fuel : ℕ) (skb : Skb) (port : Port) (list : List FragDescriptor)
    (priority : ℕ) : Option (List FragDescriptor × Port) :=
  deaggregateFrom skbCopyBits fuel skb priority fuel port list 0

end Code

end Rmnet
end MarbleModules
