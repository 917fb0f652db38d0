import Mathlib.Algebra.Group.Nat.Defs
import Mathlib.Data.List.Basic
import Mathlib.Data.Fin.Basic

/-! Reassembly of the fragments of one peer and TID: the list the fragments wait in, the checks of a
list that is complete, and what becomes of every buffer. -/
namespace MarbleModules
namespace RxDefrag

/-- `enum cdp_sec_type` -/
inductive SecType
  | none
  | wep128
  | wep104
  | wep40
  | tkip
  | tkip_nomic
  | aes_ccmp
  | wapi
  | aes_ccmp_256
  | aes_gcmp
  | aes_gcmp_256
deriving DecidableEq

/-- `needs_pn_check` of `dp_rx_construct_fraglist` -/
def SecType.needsPnCheck : SecType → Bool
  | .none | .wep128 | .wep104 | .wep40 => false
  | _ => true

/-- `DEFRAG_IEEE80211_FCS_LEN` -/
def FCS_LEN : UInt32 := 4
/-- `ic_header` and `ic_trailer` of `dp_f_tkip`, and its `ic_miclen`. -/
def TKIP_HEADER : UInt16 := 8
def TKIP_TRAILER : UInt32 := 4
def TKIP_MICLEN : UInt32 := 8
/-- `ic_header` and `ic_trailer` of `dp_f_ccmp`, `dp_f_wep` and `dp_f_gcmp`. -/
def CCMP_HEADER : UInt16 := 8
def CCMP_TRAILER : UInt32 := 8
def WEP_HEADER : UInt16 := 4
def WEP_TRAILER : UInt32 := 4
def GCMP_HEADER : UInt16 := 8
def GCMP_TRAILER : UInt32 := 16

/-- What the driver reads of a fragment: the buffer, the sequence number of the ring descriptor,
`i_seq` and `i_fc[1]` of the frame, the packet number, `hal_rx_msdu_is_wlan_mcast`, the result of
`dp_rx_defrag_hdrsize`, the `EXTIV` bit behind a header of a size, and the length of the buffer. -/
structure Frag where
  buf : ℕ
  seq : ℕ
  seqCtl : UInt16
  fc1 : UInt8
  pn : Fin (2^48)
  mcast : Bool
  hdrSize : UInt16
  extIv : UInt16 → Bool
  len : UInt32

/-- `dp_rx_frag_get_mpdu_frag_number` -/
def Frag.number (f : Frag) : ℕ := f.seqCtl.toNat % 16

/-- `dp_rx_frag_get_more_frag_bit` -/
def Frag.moreFrag (f : Frag) : Bool := f.fc1.toNat.testBit 2

/-- `hal_rx_tlv_get_pn_num`: the two words of a packet number of 48 bits. -/
def Frag.pn128 (f : Frag) : UInt64 × UInt64 := (UInt64.ofNat f.pn.val,0)

/-- The security of the peer for unicast and for group-addressed frames, the size of the TLVs
before a frame, and whether the build has `RX_DEFRAG_DO_NOT_REINJECT`. -/
structure Config where
  sec : Bool → SecType
  tlvSize : UInt16
  doNotReinject : Bool

/-- What `dp_ipa_handle_rx_reo_reinject` does with a chain of buffers. -/
inductive Ipa
  | off
  | allocFails
  | jumbo
  | copied
deriving DecidableEq

/-- The results of what is called for one fragment: the early checks, whether the emergency pool
takes the buffer, the allocation of the copy of the ring descriptor, the comparison of the MIC and
the steps of a reinjection. -/
structure Rx where
  lenPositive : Bool
  consumed : Bool
  peerKnown : Bool
  tidInRange : Bool
  seqControlValid : Bool
  frameControlValid : Bool
  arraySet : Bool
  ringDescAlloc : Bool
  micEqual : Bool
  ipa : Ipa
  ringEntry : Bool
  mapped : Bool
  accessStart : Bool

/-- The part of `struct dp_rx_tid` that reassembly uses, with `rx_reorder_array_elem`: the chain
from `head`, `tail`, and the two numbers. Besides, the number of buffers so far, the buffers that
have been freed, those of each MSDU that has been handed on, and the calls of `dp_rx_defrag` with
their results. -/
structure Tid where
  list : List Frag
  tail : Option Frag
  currFragNum : ℕ
  currSeqNum : ℕ
  next : ℕ
  freed : List ℕ
  msdus : List (List ℕ)
  runs : List (List Frag × Bool)

def Tid.init : Tid := ⟨[],none,0,0,0,[],[],[]⟩

def bufs (l : List Frag) : List ℕ := l.map Frag.buf

/-- `dp_rx_defrag_cleanup`; the head frees its own list of further buffers. -/
def cleanup (s : Tid) : Tid :=
  {s with list := [],tail := none,currFragNum := 0,currSeqNum := 0,freed := s.freed++bufs s.list}

/-- `dp_rx_reorder_flush_frag` -/
def flushFrag (s : Tid) : Tid := cleanup s

/-- `qdf_nbuf_free` -/
def Tid.free (s : Tid) (f : Frag) : Tid := {s with freed := s.freed++[f.buf]}

/-- `qdf_nbuf_set_next(*tail_addr, frag)`: the chain up to the tail, and the fragment. -/
def appendTail (l : List Frag) (tail : Option Frag) (f : Frag) : List Frag :=
  match tail with
  | none => l
  | some t => l.takeWhile (fun g => g.buf ≠ t.buf)++[t,f]

/-- The loop that looks for the place of an out of sequence fragment; no place for a duplicate. -/
def insertMiddle (f : Frag) : List Frag → Option (List Frag)
  | [] => some [f]
  | c::cs =>
    if c.number < f.number then (insertMiddle f cs).map (c::·)
    else if f.number = c.number then none
    else some (f::c::cs)

/-- The loop that checks whether all fragments behind the head are present. -/
def numbersFrom (count : ℕ) : List Frag → Bool
  | [] => true
  | n::ns => n.number = count+1 && numbersFrom (count+1) ns

/-- `all_frag_present` after an insertion. -/
def allFragPresent (s : Tid) : Bool :=
  match s.tail with
  | none => false
  | some t => !t.moreFrag && numbersFrom 0 s.list.tail

/-- What `dp_rx_defrag_fraglist_insert` does to the list, without its result for a duplicate. -/
def insertList (s : Tid) (f : Frag) : Option Tid :=
  match s.list with
  | [] => some {s with list := [f],tail := some f,currFragNum := f.number}
  | h::hs =>
    if s.currFragNum < f.number then
      some {s with
        list := appendTail (h::hs) s.tail f
        tail := some f
        currFragNum := f.number}
    else if f.number = h.number then none
    else if f.number < h.number then some {s with list := f::h::hs}
    else (insertMiddle f (h::hs)).map fun l => {s with list := l}

/-- `dp_rx_defrag_fraglist_insert`: the list, whether it is a success and `all_frag_present`. -/
def fraglistInsert (s : Tid) (f : Frag) : Tid × Bool × Bool :=
  match insertList s f with
  | none => (s.free f,false,false)
  | some s' => (s',true,!s.list.isEmpty && allFragPresent s')

/-- `qdf_nbuf_trim_tail` -/
def trimTail (n : UInt32) (f : Frag) : Frag := if n ≤ f.len then {f with len := f.len-n} else f

/-- The loops of `dp_rx_defrag` over `dp_rx_defrag_tkip_decap`, `dp_rx_defrag_ccmp_demic` and
`dp_rx_defrag_gcmp_demic`, which differ in the trailer. -/
def decapLoop (trailer : UInt32) (hdrlen : UInt16) : List Frag → Bool × List Frag
  | [] => (true,[])
  | f::fs =>
    if f.extIv hdrlen then
      let r := decapLoop trailer hdrlen fs
      (r.1,trimTail trailer f::r.2)
    else (false,f::fs)

/-- The decapsulation of a security type: whether it is a success, the fragments, and the size of
the header with what the cipher adds. -/
def decap (sec : SecType) (hdrSize : UInt16) (l : List Frag) : Bool × List Frag × UInt16 :=
  match sec with
  | .tkip | .tkip_nomic =>
    let r := decapLoop TKIP_TRAILER hdrSize l
    (r.1,r.2,hdrSize+TKIP_HEADER)
  | .aes_ccmp =>
    let r := decapLoop CCMP_TRAILER hdrSize l
    (r.1,r.2,hdrSize+CCMP_HEADER)
  | .wep40 | .wep104 | .wep128 => (true,l.map (trimTail WEP_TRAILER),hdrSize+WEP_HEADER)
  | .aes_gcmp | .aes_gcmp_256 =>
    let r := decapLoop GCMP_TRAILER hdrSize l
    (r.1,r.2,hdrSize+GCMP_HEADER)
  | _ => (true,l,hdrSize)

/-- `qdf_nbuf_trim_tail` of the last fragment of a chain. -/
def trimLast (n : UInt32) (l : List Frag) : List Frag :=
  match l.getLast? with
  | none => []
  | some t => l.dropLast++[trimTail n t]

/-- The result of a function that works on the chain: whether it is a success, the chain, and the
buffers it has freed. -/
structure Chain where
  ok : Bool
  list : List Frag
  freed : List ℕ

/-- `dp_rx_defrag_tkip_demic`: a MIC that starts in the last but one fragment ends in the last,
and a last fragment without data is freed. -/
def tkipDemic (micEqual : Bool) (hdrlen : UInt16) (l : List Frag) : Chain :=
  match l.getLast? with
  | none => ⟨false,l,[]⟩
  | some prev =>
    let hdr := hdrlen.toUInt32
    let dataLen := prev.len-hdr
    if dataLen < TKIP_MICLEN ∧ l.length = 1 then ⟨false,l,[]⟩
    else
      let len0 := if dataLen < TKIP_MICLEN then TKIP_MICLEN-dataLen else 0
      let front := trimLast len0 l.dropLast
      let prev := trimTail (TKIP_MICLEN-len0) prev
      if prev.len-hdr = 0 ∧ l.length ≠ 1 then ⟨micEqual,front,[prev.buf]⟩
      else ⟨micEqual,front++[prev],[]⟩

/-- `dp_rx_defrag_pn_check`: whether the fragment is out of order. -/
def pnCheck (cur prev : UInt64 × UInt64) : Bool :=
  if cur.2 = prev.2 then cur.1-prev.1 ≠ 1 else cur.2-prev.2 ≠ 1

/-- The loop of `dp_rx_construct_fraglist`. -/
def constructLoop (needsPnCheck : Bool) (prev : UInt64 × UInt64) : List Frag → Bool
  | [] => true
  | f::fs =>
    let cur := if needsPnCheck then f.pn128 else (0,0)
    if needsPnCheck && pnCheck cur prev then false
    else if f.mcast then false
    else constructLoop needsPnCheck cur fs

/-- The last two steps of `dp_rx_defrag`: `dp_rx_defrag_nwifi_to_8023`, which keeps the packet number
of the head, and `dp_rx_construct_fraglist` of what follows it. -/
def construct (cfg : Config) : List Frag → Bool
  | h::f::fs => constructLoop (cfg.sec f.mcast).needsPnCheck h.pn128 (f::fs)
  | _ => true

/-- `dp_rx_defrag` -/
def defrag (cfg : Config) (micEqual : Bool) (l : List Frag) : Chain :=
  match l with
  | [] => ⟨false,[],[]⟩
  | h::_ =>
    let sec := cfg.sec h.mcast
    let r := decap sec h.hdrSize (l.map (trimTail FCS_LEN))
    if r.1 = false then ⟨false,r.2.1,[]⟩
    else
      let c := if sec = .tkip then tkipDemic micEqual (cfg.tlvSize+r.2.2) r.2.1
        else ⟨true,r.2.1,[]⟩
      if c.ok = false then c else {c with ok := construct cfg c.list}

/-- `dp_rx_defrag_reo_reinject`, in its two builds: whether the MSDU has been handed on. -/
def reoReinject (cfg : Config) (rx : Rx) (s : Tid) : Tid × Bool :=
  if cfg.doNotReinject then ({s with list := [],tail := none,msdus := s.msdus++[bufs s.list]},true)
  else
    match (if s.list.length ≤ 1 then Ipa.off else rx.ipa),s.list with
    | .allocFails,_ | .jumbo,_ => (s,false)
    | .copied,h::_ =>
      -- all data is in one new buffer
      let s := {s with
        list := [{h with buf := s.next}]
        next := s.next+1
        freed := s.freed++bufs s.list}
      if rx.ringEntry && rx.mapped && rx.accessStart then
        ({s with msdus := s.msdus++[bufs s.list]},true)
      else (s,false)
    | _,_ =>
      if rx.ringEntry && rx.mapped && rx.accessStart then
        ({s with msdus := s.msdus++[bufs s.list]},true)
      else (s,false)

/-- `dp_rx_defrag_store_fragment` up to the insertion: the state into which the fragment goes, or
nothing if the fragment is discarded. -/
def accept (s : Tid) (f : Frag) (rx : Rx) : Option Tid :=
  if rx.peerKnown = false then none
  else if rx.tidInRange = false then none
  else if rx.seqControlValid = false then none
  else if rx.frameControlValid = false then none
  else if rx.arraySet = false then none
  else if f.moreFrag = false ∧ f.number = 0 ∧ s.list = [] then none
  else if s.list ≠ [] then
    if f.seq ≠ s.currSeqNum then some {flushFrag s with currSeqNum := f.seq} else some s
  else if f.number ≠ 0 then none
  else some {cleanup s with currSeqNum := f.seq}

/-- What follows on a list with all fragments. -/
def processFragments (cfg : Config) (rx : Rx) (s : Tid) : Tid :=
  let c := defrag cfg rx.micEqual s.list
  let s := {s with
    list := c.list
    freed := s.freed++c.freed
    runs := s.runs++[(s.list,c.ok)]}
  if c.ok = false then cleanup s
  else
    let r := reoReinject cfg rx s
    cleanup (if r.2 then {r.1 with list := [],tail := none} else r.1)

/-- The rest of `dp_rx_defrag_store_fragment`, from the insertion on. -/
def insertAndProcess (cfg : Config) (f : Frag) (rx : Rx) (s : Tid) : Tid :=
  let r := fraglistInsert s f
  -- the fragment is discarded, but the list still has it
  if f.number = 0 ∧ r.2.1 ∧ (r.1.list.head?.map Frag.buf) = some f.buf ∧ rx.ringDescAlloc = false
  then r.1.free f
  else if r.2.2 = false then r.1
  else processFragments cfg rx r.1

/-- `dp_rx_defrag_store_fragment` of a fragment in a new buffer. -/
def storeFragment (cfg : Config) (s : Tid) (f : Frag) (rx : Rx) : Tid :=
  let f := {f with buf := s.next}
  let s := {s with next := s.next+1}
  if rx.lenPositive then s.free f
  -- `dp_rx_buffer_pool_nbuf_free` has taken the buffer back
  else if rx.consumed then s.free f
  else
    match accept s f rx with
    | none => s.free f
    | some s => insertAndProcess cfg f rx s

inductive Op
  | store (f : Frag) (rx : Rx)
  | timeout

def step (cfg : Config) (s : Tid) : Op → Tid
  | .store f rx => storeFragment cfg s f rx
  | .timeout => flushFrag s

end RxDefrag
end MarbleModules
