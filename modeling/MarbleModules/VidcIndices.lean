import MarbleModules.VidcQueue

/-! The accesses of the video driver's queues when the firmware, which shares the queue
headers, leaves any value in them. Every quantity is a 32-bit word as in the source, so the
byte offset of a corrupted index wraps round. -/
namespace MarbleModules
namespace VidcIndices

open VidcQueue (varHugePktSize)

/-- `HFI_Q_ID_CTRL_TO_HOST_MSG_Q` -/
def ctrlToHostMsgQ : UInt32 := 0x01

/-- The memory of one queue, `q_array`. -/
structure QArray where
  memSize : UInt32
  huge : varHugePktSize ≤ memSize.toNat
  aligned : memSize.toNat%4 = 0
  bound : memSize.toNat < 2^31

/-- `mem_size >> 2` -/
def QArray.words (q : QArray) : UInt32 := q.memSize >>> 2

/-- What the two sides share: `struct hfi_queue_header` and the words from the ring's address
on. -/
structure Queue where
  type : UInt32
  rxReq : UInt32
  txReq : UInt32
  readIdx : UInt32
  writeIdx : UInt32
  mem : ℕ → UInt32

/-- A packet to write; its first word is its size in bytes. -/
structure Packet where
  word : ℕ → UInt32
  huge : (word 0).toNat ≤ varHugePktSize

inductive Status
  | ok | enodata | enotempty
  deriving DecidableEq

/-- One `memcpy` between the ring and a packet: the byte offsets in the two and the number of
bytes. -/
structure Copy where
  ring : UInt32
  packet : UInt32
  bytes : UInt32
  deriving DecidableEq

/-- Every word of the ring side lies in the ring. -/
def Copy.InRing (c : Copy) (q : QArray) : Prop :=
  ∀ k < c.bytes.toNat/4,c.ring.toNat/4+k < q.words.toNat

/-- Words copied from `src` to `dst`, both given by word numbers. -/
def copyWords (dst src : ℕ → UInt32) (d s n : ℕ) : ℕ → UInt32 :=
  fun i => if d ≤ i ∧ i < d+n then src (s+(i-d)) else dst i

def Copy.toRing (c : Copy) (mem packet : ℕ → UInt32) : ℕ → UInt32 :=
  copyWords mem packet (c.ring.toNat/4) (c.packet.toNat/4) (c.bytes.toNat/4)

def Copy.toPacket (c : Copy) (mem packet : ℕ → UInt32) : ℕ → UInt32 :=
  copyWords packet mem (c.packet.toNat/4) (c.ring.toNat/4) (c.bytes.toNat/4)

/-- The copies of a packet that starts at a word index: one piece, or two round the end. The
second component is the index after it. -/
def copies (q : QArray) (idx size : UInt32) : List Copy × UInt32 :=
  if idx+size < q.words then ([⟨idx <<< 2,0,size <<< 2⟩],idx+size)
  else
    let new := idx+size-q.words
    ([⟨idx <<< 2,0,(size-new) <<< 2⟩,⟨0,(size-new) <<< 2,new <<< 2⟩],new)

def emptySpace (q : QArray) (w : Queue) : UInt32 :=
  if w.readIdx ≤ w.writeIdx then q.words-(w.writeIdx-w.readIdx) else w.readIdx-w.writeIdx

/-- What a call of `__write_queue` does: its result, the queue after it and its copies. -/
structure Written where
  rc : Status
  queue : Queue
  copied : List Copy
  rxReqIsSet : Bool

def writeQueue (q : QArray) (w : Queue) (p : Packet) : Written :=
  let size := p.word 0 >>> 2
  if size = 0 ∨ q.words < size then ⟨.enodata,w,[],false⟩
  else if emptySpace q w ≤ size then ⟨.enotempty,{ w with txReq := 1 },[],false⟩
  else if q.memSize < w.writeIdx <<< 2 then ⟨.enodata,{ w with txReq := 0 },[],false⟩
  else
    let (cs,new) := copies q w.writeIdx size
    ⟨.ok,{ w with
      txReq := 0
      mem := cs.foldl (fun mem c => c.toRing mem p.word) w.mem
      writeIdx := new },cs,true⟩

/-- What a call of `__read_queue` does: its result, the queue after it, the byte offset of the
size it loads, its copies, the packet buffer and what it stores to `pb_tx_req_is_set`. -/
structure Read where
  rc : Status
  queue : Queue
  loaded : Option UInt32
  copied : List Copy
  packet : ℕ → UInt32
  txReqIsSet : Option Bool

def readQueue (q : QArray) (w : Queue) (packet : ℕ → UInt32) : Read :=
  let receiveRequest := if w.type &&& ctrlToHostMsgQ ≠ 0 then 1 else 0
  if w.readIdx = w.writeIdx then
    ⟨.enodata,{ w with rxReq := receiveRequest },none,[],packet,some false⟩
  else
    let ptr := w.readIdx <<< 2
    if q.memSize-4 < ptr then ⟨.enodata,w,none,[],packet,none⟩
    else
      let size := w.mem (ptr.toNat/4) >>> 2
      if size = 0 then ⟨.enodata,w,some ptr,[],packet,none⟩
      else if (size <<< 2).toNat ≤ varHugePktSize ∧ w.readIdx ≤ q.words then
        let (cs,new) := copies q w.readIdx size
        ⟨.ok,{ w with rxReq := receiveRequest,readIdx := new },some ptr,cs,
          cs.foldl (fun packet c => c.toPacket w.mem packet) packet,some (decide (w.txReq = 1))⟩
      else
        ⟨.enodata,{ w with rxReq := receiveRequest,readIdx := w.writeIdx },some ptr,[],packet,
          some (decide (w.txReq = 1))⟩

theorem toNat_shiftLeft_two (a : UInt32) : (a <<< 2).toNat = a.toNat*4%2^32 := by
  simp [UInt32.toNat_shiftLeft,Nat.shiftLeft_eq]

theorem toNat_shiftRight_two (a : UInt32) : (a >>> 2).toNat = a.toNat/4 := by
  simp [Nat.shiftRight_eq_div_pow]

namespace QArray

variable (q : QArray)

theorem toNat_words : q.words.toNat = q.memSize.toNat/4 := toNat_shiftRight_two _

theorem memSize_eq : q.memSize.toNat = 4*q.words.toNat := by
  have hh := q.aligned
  have hw := q.toNat_words
  omega

theorem words_bound : 3072 ≤ q.words.toNat ∧ q.words.toNat < 2^29 := by
  have hl := q.huge
  have hb := q.bound
  have hw := q.toNat_words
  simp only [varHugePktSize] at hl
  omega

end QArray

/-- The index after a packet. -/
theorem copies_snd_toNat (q : QArray) {idx size : UInt32} (hi : idx.toNat ≤ q.words.toNat)
    (hs : size.toNat ≤ q.words.toNat) :
    (copies q idx size).2.toNat = VidcQueue.wrap q.words.toNat (idx.toNat+size.toNat) := by
  have hb := q.words_bound.2
  have hadd : (idx+size).toNat = idx.toNat+size.toNat := by
    rw [UInt32.toNat_add]
    omega
  simp only [copies,VidcQueue.wrap,UInt32.lt_iff_toNat_lt,hadd]
  split
  · exact hadd
  · rw [UInt32.toNat_sub,hadd]
    omega

/-- From an index of the ring no copy leaves the ring or the packet. -/
theorem copies_inRing (q : QArray) {idx size : UInt32} (hi : idx.toNat ≤ q.words.toNat)
    (hs : size.toNat ≤ q.words.toNat) {c : Copy} (hc : c ∈ (copies q idx size).1) :
    c.InRing q ∧ c.packet.toNat+c.bytes.toNat ≤ 4*size.toNat := by
  have hb := q.words_bound.2
  have hadd : (idx+size).toNat = idx.toNat+size.toNat := by
    rw [UInt32.toNat_add]
    omega
  simp only [copies,UInt32.lt_iff_toNat_lt,hadd] at hc
  split at hc
  · simp only [List.mem_singleton] at hc
    subst hc
    simp only [Copy.InRing,toNat_shiftLeft_two]
    refine ⟨fun k hk => ?_,?_⟩
    · omega
    · simp only [UInt32.toNat_zero]
      omega
  · have hnew : (idx+size-q.words).toNat = idx.toNat+size.toNat-q.words.toNat := by
      rw [UInt32.toNat_sub,hadd]
      omega
    have hrest : (size-(idx+size-q.words)).toNat = q.words.toNat-idx.toNat := by
      rw [UInt32.toNat_sub,hnew]
      omega
    simp only [List.mem_cons,List.not_mem_nil,or_false] at hc
    rcases hc with rfl | rfl <;>
      simp only [Copy.InRing,toNat_shiftLeft_two,hnew,hrest,UInt32.toNat_zero] <;>
      refine ⟨fun k hk => ?_,?_⟩ <;> omega

/-- From an index whose byte offset wrapped round, the index after the packet is out of the
ring. -/
theorem copies_snd_wrapped (q : QArray) {idx size : UInt32} (hi : q.words.toNat < idx.toNat)
    (hw : (idx <<< 2).toNat ≤ q.memSize.toNat) (hs : size.toNat ≤ q.words.toNat) :
    q.words.toNat ≤ (copies q idx size).2.toNat := by
  have hb := q.words_bound.2
  have hm := q.memSize_eq
  have hlt := idx.toNat_lt
  rw [toNat_shiftLeft_two] at hw
  have hadd : (idx+size).toNat = idx.toNat+size.toNat := by
    rw [UInt32.toNat_add]
    omega
  simp only [copies,UInt32.lt_iff_toNat_lt,hadd]
  split
  · omega
  · simp only [UInt32.toNat_sub,hadd]
    omega

/-- The checks of `__write_queue` pass. -/
def Admitted (q : QArray) (w : Queue) (p : Packet) : Prop :=
  p.word 0 >>> 2 ≠ 0 ∧ p.word 0 >>> 2 ≤ q.words ∧ p.word 0 >>> 2 < emptySpace q w ∧
    w.writeIdx <<< 2 ≤ q.memSize

/-- The ring words `__write_queue` writes and the index it stores are in the ring. -/
def WriteInRing (q : QArray) (r : Written) : Prop :=
  (∀ c ∈ r.copied,c.InRing q) ∧ (r.rc = .ok → r.queue.writeIdx < q.words)

/-- The ring words `__read_queue` reads, the bytes of the packet it writes and the index it
stores are in their bounds. -/
def ReadInRing (q : QArray) (r : Read) : Prop :=
  (∀ ptr ∈ r.loaded,ptr.toNat/4 < q.words.toNat) ∧
    (∀ c ∈ r.copied,c.InRing q ∧ c.packet.toNat+c.bytes.toNat ≤ varHugePktSize) ∧
    (r.rc = .ok → r.queue.readIdx < q.words)

/-- An admitted packet keeps to the ring when its start and its end do. -/
theorem writeQueue_inRing_iff (q : QArray) (w : Queue) (p : Packet) :
    WriteInRing q (writeQueue q w p) ↔
      (Admitted q w p → w.writeIdx.toNat ≤ q.words.toNat ∧
        w.writeIdx.toNat+(p.word 0 >>> 2).toNat < 2*q.words.toNat) := by
  by_cases ha : Admitted q w p
  · obtain ⟨h0,hs,he,hp⟩ := ha
    have hrun : writeQueue q w p = ⟨.ok,{ w with
        txReq := 0
        mem := (copies q w.writeIdx (p.word 0 >>> 2)).1.foldl
          (fun mem c => c.toRing mem p.word) w.mem
        writeIdx := (copies q w.writeIdx (p.word 0 >>> 2)).2 },
        (copies q w.writeIdx (p.word 0 >>> 2)).1,true⟩ := by
      simp [writeQueue,h0,UInt32.not_lt.mpr hs,UInt32.not_le.mpr he,UInt32.not_lt.mpr hp]
    simp only [hrun,WriteInRing,UInt32.lt_iff_toNat_lt,forall_const,
      show Admitted q w p from ⟨h0,hs,he,hp⟩]
    rw [UInt32.le_iff_toNat_le] at hs hp
    by_cases hi : w.writeIdx.toNat ≤ q.words.toNat
    · have hin := fun c hc => (copies_inRing q hi hs (c := c) hc).1
      rw [copies_snd_toNat q hi hs,VidcQueue.wrap]
      simp only [hi,true_and]
      have hc : (if w.writeIdx.toNat+(p.word 0 >>> 2).toNat < q.words.toNat then
          w.writeIdx.toNat+(p.word 0 >>> 2).toNat
          else w.writeIdx.toNat+(p.word 0 >>> 2).toNat-q.words.toNat) < q.words.toNat ↔
          w.writeIdx.toNat+(p.word 0 >>> 2).toNat < 2*q.words.toNat := by
        split <;> omega
      rw [hc]
      exact ⟨fun h => h.2,fun h => ⟨hin,h⟩⟩
    · have hout := copies_snd_wrapped q (Nat.lt_of_not_le hi) hp hs
      exact ⟨fun h => absurd h.2 (Nat.not_lt.mpr hout),fun h => absurd h.1 hi⟩
  · have hrun : (writeQueue q w p).copied = [] ∧ (writeQueue q w p).rc ≠ .ok := by
      simp only [writeQueue]
      split
      · simp
      split
      · simp
      split
      · simp
      · rename_i h1 h2 h3
        rw [not_or,UInt32.not_lt] at h1
        exact absurd ⟨h1.1,h1.2,UInt32.not_le.mp h2,UInt32.not_lt.mp h3⟩ ha
    simp [WriteInRing,hrun.1,hrun.2,ha]

/-- `__read_queue` keeps to the ring, whatever the header and the ring hold. -/
theorem readQueue_inRing (q : QArray) (w : Queue) (packet : ℕ → UInt32) :
    ReadInRing q (readQueue q w packet) := by
  have hm := q.memSize_eq
  have hb := q.words_bound
  have h4 : (q.memSize-4).toNat = q.memSize.toNat-4 := by
    have hlt := q.memSize.toNat_lt
    rw [UInt32.toNat_sub,show (4:UInt32).toNat = 4 from rfl]
    omega
  simp only [readQueue]
  split
  · simp [ReadInRing]
  split
  · simp [ReadInRing]
  rename_i hp
  rw [UInt32.not_lt,UInt32.le_iff_toNat_le,h4] at hp
  have hload : (w.readIdx <<< 2).toNat/4 < q.words.toNat := by omega
  split
  · simpa [ReadInRing] using hload
  split
  · rename_i hs
    have hidx : w.readIdx.toNat < q.words.toNat := by
      have hi := UInt32.le_iff_toNat_le.mp hs.2
      rw [toNat_shiftLeft_two] at hload
      omega
    have hsize : 4*(w.mem ((w.readIdx <<< 2).toNat/4) >>> 2).toNat ≤ varHugePktSize := by
      have hlt := (w.mem ((w.readIdx <<< 2).toNat/4)).toNat_lt
      have hh := hs.1
      rw [toNat_shiftLeft_two,toNat_shiftRight_two] at hh
      rw [toNat_shiftRight_two]
      omega
    have hle := hsize
    simp only [varHugePktSize] at hle
    simp only [ReadInRing,Option.mem_some_iff,forall_eq',hload,true_and,forall_const]
    refine ⟨fun c hc => ?_,?_⟩
    · have hcopy := copies_inRing q hidx.le (by omega) hc
      exact ⟨hcopy.1,hcopy.2.trans hsize⟩
    · rw [UInt32.lt_iff_toNat_lt,copies_snd_toNat q hidx.le (by omega),VidcQueue.wrap]
      split <;> omega
  · simpa [ReadInRing] using hload

/-- Corrupted headers move no access out of the ring exactly when a packet that the checks of
`__write_queue` admit starts at an index of the ring and ends before its second end. -/
theorem accesses_inRing_iff (q : QArray) (w : Queue) (p : Packet) :
    WriteInRing q (writeQueue q w p) ∧ (∀ packet,ReadInRing q (readQueue q w packet)) ↔
      (Admitted q w p → w.writeIdx.toNat ≤ q.words.toNat ∧
        w.writeIdx.toNat+(p.word 0 >>> 2).toNat < 2*q.words.toNat) := by
  rw [writeQueue_inRing_iff]
  exact and_iff_left (readQueue_inRing q w)

/-- A queue of `VIDC_IFACEQ_QUEUE_SIZE` bytes. -/
def ifaceqArray : QArray := ⟨1024*50*16,by decide,by decide,by decide⟩

/-- With a write index of 2^30 a packet of two words is written far out of the ring, and the
index stored is out of the ring as well. -/
theorem accesses_inRing_wrapped :
    ¬ ∀ (q : QArray) (w : Queue) (p : Packet),
      WriteInRing q (writeQueue q w p) ∧ ∀ packet,ReadInRing q (readQueue q w packet) := by
  intro h
  have hh := (h ifaceqArray ⟨0,0,0,0,0x40000000,fun _ => 0⟩
    ⟨fun _ => 8,by decide⟩).1
  have hmem := hh.1 ⟨0,0x32000*4,4*(0x40000002-0x32000)⟩ (by decide)
  have hword := hmem 0x32000 (by decide)
  exact absurd hword (by decide)

end VidcIndices
end MarbleModules
