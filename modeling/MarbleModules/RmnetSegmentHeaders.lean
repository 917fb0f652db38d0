import MarbleModules.RmnetDeaggregateFrames
import MarbleModules.RmnetSegment

/-! The packet formats behind the header walk: IPv4, and IPv6 with any chain of extension
headers, with TCP or UDP on top. The walk finds the headers of every such packet, however
its bytes are spread over fragments. -/
namespace MarbleModules
namespace Rmnet

open FragDescriptor

/-- Byte `k` as a number. -/
def byteAt (bs : List UInt8) (k : ℕ) : ℕ := (bs.getD k 0).toNat

/-- A chain of IPv6 extension headers from `start` on, the first of type `nexthdr`: where
it ends, what follows, and whether one of them is a fragment header. A packet with such a
chain is not itself a fragment. -/
inductive ExtChain (bs : List UInt8) : ℕ → ℕ → ℕ → ℕ → Bool → Prop
  | done {start nexthdr : ℕ} (h : ipv6ExtHdr nexthdr = false) :
      ExtChain bs start nexthdr start nexthdr false
  | fragment {start stop proto : ℕ} {frag : Bool} (hl : start+4 ≤ bs.length)
      (ho : be16 bs (start+2) = 0)
      (h : ExtChain bs (start+8) (byteAt bs start) stop proto frag) :
      ExtChain bs start nexthdrFragment stop proto true
  | header {start nexthdr stop proto : ℕ} {frag : Bool} (he : ipv6ExtHdr nexthdr = true)
      (hn : nexthdr ≠ nexthdrNone) (hf : nexthdr ≠ nexthdrFragment)
      (hl : start+2 ≤ bs.length)
      (h : ExtChain bs (start+extHdrLen nexthdr (byteAt bs (start+1))) (byteAt bs start)
        stop proto frag) :
      ExtChain bs start nexthdr stop proto frag

/-- What the headers of a packet say; `plain` when they have neither options nor
extensions. -/
structure PacketHeaders where
  ipProto : ℕ
  ipLen : ℕ
  transProto : ℕ
  transLen : ℕ
  plain : Bool
  deriving DecidableEq

def PacketHeaders.hlen (h : PacketHeaders) : ℕ := h.ipLen+h.transLen

/-- The IP header of the packet is of this kind. -/
inductive IpPacket (bs : List UInt8) (h : PacketHeaders) : Prop
  | ipv4 (hv : bs.getD 0 0 &&& 0xF0 = 0x40) (hl : 20 ≤ bs.length) (hp : h.ipProto = 4)
      (hi : h.ipLen = byteAt bs 0%16*4) (ht : h.transProto = byteAt bs 9)
      (hs : h.plain = decide (byteAt bs 0%16 = 5))
  | ipv6 {frag : Bool} (hv : bs.getD 0 0 &&& 0xF0 = 0x60) (hl : 40 ≤ bs.length)
      (hp : h.ipProto = 6) (hc : ExtChain bs 40 (byteAt bs 6) h.ipLen h.transProto frag)
      (hs : h.plain = (!frag && !decide (40 < h.ipLen)))

/-- A TCP or UDP header lies behind the IP header. -/
inductive TransportPacket (bs : List UInt8) (h : PacketHeaders) : Prop
  | tcp (ht : h.transProto = ipprotoTcp) (hl : h.transLen = byteAt bs (h.ipLen+12)/16*4)
      (hm : 20 ≤ h.transLen)
  | udp (ht : h.transProto = ipprotoUdp) (hl : h.transLen = 8)

/-- A TCP or UDP packet over IPv4 or IPv6, no longer than its 16-bit lengths allow. -/
structure Packeted (bs : List UInt8) (h : PacketHeaders) : Prop where
  ip : IpPacket bs h
  transport : TransportPacket bs h
  covered : h.hlen ≤ bs.length
  short : bs.length < 2^16

/-- A UDP packet over IPv4 that carries no checksum. -/
def zeroCsum (bs : List UInt8) (h : PacketHeaders) : Bool :=
  decide (h.transProto = ipprotoUdp) && (h.ipProto == 4 && be16 bs (h.ipLen+6) == 0)

/-! ## Reading a header -/

/-- Every fragment holds a byte of the packet. -/
def Solid (d : FragDescriptor) : Prop := ∀ f ∈ d.frags, 0 < f.size

instance (d : FragDescriptor) : Decidable (Solid d) :=
  inferInstanceAs (Decidable (∀ f ∈ d.frags, _))

theorem getD_slice {bs : List UInt8} {off n k : ℕ} (h : k < n) :
    ((bs.drop off).take n).getD k 0 = bs.getD (off+k) 0 := by
  rw [getD_take h,getD_drop]

theorem be16_slice {bs : List UInt8} {off n k : ℕ} (h : k+1 < n) :
    be16 ((bs.drop off).take n) k = be16 bs (off+k) := by
  rw [be16,be16,getD_slice (by omega),getD_slice h,Nat.add_assoc]

theorem be32_slice {bs : List UInt8} {off n k : ℕ} (h : k+3 < n) :
    be32 ((bs.drop off).take n) k = be32 bs (off+k) := by
  rw [be32,be32,be16_slice (by omega),be16_slice (by omega),Nat.add_assoc]

/-- The byte behind the data pointer is the first one of the packet. -/
theorem dataPtr_version {d : FragDescriptor} (hw : d.Wf) (hs : Solid d)
    (hl : 0 < d.bytes.length) :
    ∃ data, dataPtr d = some data ∧ data.getD 0 0 = d.bytes.getD 0 0 := by
  rcases hf : d.frags with _|⟨f,fs⟩
  · rw [bytes,hf] at hl
    simp at hl
  · refine ⟨f.page.drop f.off,by simp [dataPtr,hf],?_⟩
    have hb := (hw.fits f (by simp [hf])).length_bytes
    have hp : 0 < f.size := hs f (by simp [hf])
    rw [bytes,hf,contents_cons,getD_append _ (by omega),Fragment.bytes,getD_take hp]

theorem readHeader {d : FragDescriptor} (hw : d.Wf) (off n : ℕ) (h : off+n ≤ d.bytes.length) :
    headerPtr d off n = some ((d.bytes.drop off).take n) :=
  headerPtr_eq hw (by rw [← hw.length_bytes]; exact h)

/-! ## The walk -/

/-- One turn of the search over an extension header that is no later fragment. -/
theorem ipv6SkipExthdr_step {d : FragDescriptor} {s s' : Exthdrs} {hp : List UInt8}
    (he : ipv6ExtHdr s.nexthdr = true) (hn : s.nexthdr ≠ nexthdrNone)
    (hh : headerPtr d s.start 2 = some hp) (hf : readFragOff d s = some s')
    (h0 : s'.fragOff = 0) :
    ipv6SkipExthdr d s = ipv6SkipExthdr d { s' with
      start := s'.start+extHdrLen s.nexthdr (hp.getD 1 0).toNat
      nexthdr := (hp.getD 0 0).toNat } := by
  rw [ipv6SkipExthdr,if_pos he,if_neg hn]
  split
  · rename_i hh'
    rw [hh] at hh'
    cases hh'
  · rename_i hp' hh'
    rw [hh] at hh'
    cases hh'
    split
    · rename_i hf'
      rw [hf] at hf'
      cases hf'
    · rename_i s₁ hf'
      rw [hf] at hf'
      cases hf'
      rw [if_neg (by simp [h0])]

/-- The search ends where the chain ends, behind the last extension header. -/
theorem ipv6SkipExthdr_chain {d : FragDescriptor} (hw : d.Wf) {start nexthdr stop proto : ℕ}
    {frag : Bool} (h : ExtChain d.bytes start nexthdr stop proto frag) (seen : Bool) :
    ipv6SkipExthdr d ⟨start,nexthdr,0,seen⟩ = some ⟨stop,proto,0,frag || seen⟩ := by
  induction h generalizing seen with
  | done h =>
    rw [ipv6SkipExthdr]
    simp [h]
  | @fragment start _ _ _ hl ho h ih =>
    have hh := readHeader hw start 2 (by omega)
    have hf : readFragOff d ⟨start,nexthdrFragment,0,seen⟩ =
        some ⟨start,nexthdrFragment,0,true⟩ := by
      have h2 := readHeader hw (start+2) 2 (by omega)
      rw [readFragOff,if_pos rfl,h2,Option.map_some,be16_slice (by omega),ho]
    have he : ipv6ExtHdr nexthdrFragment = true := by decide
    have hn : nexthdrFragment ≠ nexthdrNone := by decide
    rw [ipv6SkipExthdr_step he hn hh hf rfl]
    have hb : ((d.bytes.drop start).take 2).getD 0 0 = d.bytes.getD start 0 :=
      getD_slice (by omega)
    have hih := ih true
    rw [Bool.or_true] at hih
    rw [hb,extHdrLen,if_pos rfl]
    exact hih
  | @header start nexthdr _ _ _ he hn hf hl h ih =>
    have hh := readHeader hw start 2 (by omega)
    have hr : readFragOff d ⟨start,nexthdr,0,seen⟩ = some ⟨start,nexthdr,0,seen⟩ := by
      rw [readFragOff,if_neg hf]
    rw [ipv6SkipExthdr_step he hn hh hr rfl]
    have hb : ((d.bytes.drop start).take 2).getD 0 0 = d.bytes.getD start 0 :=
      getD_slice (by omega)
    have hb' : ((d.bytes.drop start).take 2).getD 1 0 = d.bytes.getD (start+1) 0 :=
      getD_slice (by omega)
    rw [hb,hb']
    exact ih seen

/-- The descriptor with the protocols and lengths of its packet. -/
def withHeaders (d : FragDescriptor) (h : PacketHeaders) : FragDescriptor :=
  { d with
    ipProto := h.ipProto
    ipLen := h.ipLen
    transProto := h.transProto
    transLen := h.transLen
    hdrsValid := true
    coalBytes := d.len
    coalBufsize := d.coalBufsize+(d.frags.map fun f => f.page.length).sum }

theorem networkHeader_eq {d : FragDescriptor} {h : PacketHeaders} (hw : d.Wf) (hs : Solid d)
    (hp : Packeted d.bytes h) (gro : Bool) :
    networkHeader d gro = some ({ d with
      ipProto := h.ipProto, ipLen := h.ipLen, transProto := h.transProto },gro && h.plain) := by
  have hcov := hp.covered
  have hshort := hp.short
  rw [PacketHeaders.hlen] at hcov
  cases hp.ip with
  | ipv4 hv hl hpr hi ht hpl =>
    obtain ⟨data,hd,h0⟩ := dataPtr_version hw hs (by omega)
    have hh := readHeader hw 0 20 (by omega)
    have hb (k : ℕ) (hk : k < 20) :
        ((d.bytes.drop 0).take 20).getD k 0 = d.bytes.getD k 0 := by
      rw [getD_slice hk,Nat.zero_add]
    simp only [networkHeader,hd,h0,if_pos hv,hh]
    rw [hb 0 (by omega),hb 9 (by omega),hpr,hi,ht,hpl]
    simp [byteAt,Bool.beq_eq_decide_eq]
  | @ipv6 frag hv hl hpr hc hpl =>
    obtain ⟨data,hd,h0⟩ := dataPtr_version hw hs (by omega)
    have hh := readHeader hw 0 40 (by omega)
    have hv4 : ¬(d.bytes.getD 0 0 &&& 0xF0 = 0x40) := by
      rw [hv]
      decide
    have hb : ((d.bytes.drop 0).take 40).getD 6 0 = d.bytes.getD 6 0 := by
      rw [getD_slice (by omega),Nat.zero_add]
    have hsk := ipv6SkipExthdr_chain hw hc false
    rw [byteAt] at hsk
    simp only [networkHeader,hd,h0,if_neg hv4,if_pos hv,hh,hb,hsk]
    rw [if_neg (by simp),Nat.mod_eq_of_lt (by omega),hpr,hpl]
    simp [Bool.and_assoc]

theorem transportHeader_eq {d : FragDescriptor} {h : PacketHeaders} (hw : d.Wf)
    (hp : Packeted d.bytes h) (hi : d.ipLen = h.ipLen) (ht : d.transProto = h.transProto)
    (hr : d.ipProto = h.ipProto) :
    transportHeader d = some ({ d with transLen := h.transLen },zeroCsum d.bytes h) := by
  have hcov := hp.covered
  rw [PacketHeaders.hlen] at hcov
  cases hp.transport with
  | tcp htp hl hm =>
    have hh := readHeader hw d.ipLen 20 (by omega)
    have hne : ¬ipprotoTcp = ipprotoUdp := by decide
    rw [transportHeader,ht,if_pos htp,hh,Option.map_some,getD_slice (by omega),hi,hl,zeroCsum,htp]
    simp [byteAt,hne]
  | udp htp hl =>
    have hh := readHeader hw d.ipLen 8 (by omega)
    have hne : ¬h.transProto = ipprotoTcp := by
      rw [htp]
      decide
    rw [transportHeader,ht,if_neg hne,if_pos htp,hh,Option.map_some,be16_slice (by omega),hi,hl,
      hr,zeroCsum,htp]
    simp

/-- The walk finds the headers of every packet, however its bytes are spread. -/
theorem walkHeaders_eq {d : FragDescriptor} {h : PacketHeaders} (hw : d.Wf) (hs : Solid d)
    (hp : Packeted d.bytes h) (gro : Bool) :
    walkHeaders d gro =
      some ⟨withHeaders d h,gro && h.plain,zeroCsum d.bytes h⟩ := by
  have hw' : Wf { d with ipProto := h.ipProto, ipLen := h.ipLen, transProto := h.transProto } :=
    ⟨hw.fits,hw.len⟩
  rw [walkHeaders,networkHeader_eq hw hs hp gro]
  simp only [transportHeader_eq hw' hp rfl rfl rfl]
  rfl

end Rmnet
end MarbleModules
