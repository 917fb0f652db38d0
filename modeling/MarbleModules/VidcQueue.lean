import Mathlib.Logic.Function.Basic
import Mathlib.Data.List.Basic
import MarbleModules.HfiResponse

/-! The message queue between the video firmware and its driver: one ring of words in shared
memory, a producer that writes whole packets into it and a consumer that reads them out.
Both proceed one memory access at a time. -/
namespace MarbleModules
namespace VidcQueue

/-- `VIDC_IFACEQ_VAR_HUGE_PKT_SIZE`, in bytes -/
def varHugePktSize : ℕ := 1024*12

/-- A packet: its first word is its size in bytes. -/
structure Packet where
  words : List ℕ
  size : words.head? = some (4*words.length)
  huge : 4*words.length ≤ varHugePktSize

/-- `*(u32 *)packet >> 2` -/
def Packet.sizeInWords (p : Packet) : ℕ := p.words.headD 0/4

/-- Where `__write_queue` stands. The indices are those it loaded. -/
inductive Writer
  | idle
  | loaded (p : Packet) (readIdx writeIdx : ℕ)
  | copying (p : Packet) (writeIdx k : ℕ)

/-- Where `__iface_msgq_read` stands. A packet that is dropped has no bytes. -/
inductive Reader
  | idle
  | loaded (readIdx writeIdx : ℕ)
  | copying (readIdx size : ℕ) (buf : List ℕ)
  | publishing (newReadIdx : ℕ) (packet : Option (List ℕ))
  | checking (packet : Option (List ℕ))

/-- The shared ring with its header, and the two sides. `sent` are the packets written
successfully, `taken` how many of them the read index has passed, `handed` what reached
`handle_response`; `overrun` tells that a packet did not fit the response buffer. -/
structure World where
  mem : ℕ → ℕ
  readIdx : ℕ
  writeIdx : ℕ
  txReq : Bool
  writer : Writer
  reader : Reader
  sent : List Packet
  taken : ℕ
  handed : List (List ℕ)
  overrun : Bool

/-- An index advanced by at most a ring, as the two pieces of the copy have it. -/
def wrap (n i : ℕ) : ℕ := if i < n then i else i-n

/-- `empty_space` of `__write_queue` -/
def emptySpace (n readIdx writeIdx : ℕ) : ℕ :=
  if readIdx ≤ writeIdx then n-(writeIdx-readIdx) else readIdx-writeIdx

/-- A call of `__write_queue`, up to its loads of the indices -/
def beginWrite (n : ℕ) (w : World) (p : Packet) : World :=
  match w.writer with
  | .idle =>
    if p.sizeInWords = 0 ∨ n < p.sizeInWords then w
    else { w with writer := .loaded p w.readIdx w.writeIdx }
  | _ => w

/-- The next access of `__write_queue`: the decision with the store to `qhdr_tx_req`, one
word of the copy, or the store to the write index. -/
def writerStep (n : ℕ) (w : World) : World :=
  match w.writer with
  | .idle => w
  | .loaded p readIdx writeIdx =>
    if emptySpace n readIdx writeIdx ≤ p.sizeInWords then
      { w with txReq := true, writer := .idle }
    else if n < writeIdx then { w with txReq := false, writer := .idle }
    else { w with txReq := false, writer := .copying p writeIdx 0 }
  | .copying p writeIdx k =>
    if k < p.sizeInWords then
      { w with
        mem := Function.update w.mem (wrap n (writeIdx+k)) (p.words.getD k 0)
        writer := .copying p writeIdx (k+1) }
    else
      { w with
        writeIdx := wrap n (writeIdx+p.sizeInWords)
        writer := .idle
        sent := w.sent ++ [p] }

/-- The next access of `__iface_msgq_read` as `__response_handler` calls it: the loads of
the indices, the load of the size, one word of the copy, the store to the read index, the
load of `qhdr_tx_req`. -/
def readerStep (n : ℕ) (w : World) : World :=
  match w.reader with
  | .idle =>
    if w.readIdx = w.writeIdx then w
    else { w with reader := .loaded w.readIdx w.writeIdx }
  | .loaded readIdx writeIdx =>
    let size := w.mem readIdx/4
    if n-1 < readIdx then { w with reader := .idle }
    else if size = 0 then { w with reader := .idle }
    else if 4*size ≤ varHugePktSize ∧ readIdx ≤ n then
      { w with
        reader := .copying readIdx size []
        overrun := w.overrun || decide (HfiResponse.packetSize < 4*size) }
    else { w with reader := .publishing writeIdx none }
  | .copying readIdx size buf =>
    if buf.length < size then
      { w with reader := .copying readIdx size (buf ++ [w.mem (wrap n (readIdx+buf.length))]) }
    else { w with reader := .publishing (wrap n (readIdx+size)) (some buf) }
  | .publishing newReadIdx packet =>
    { w with
      readIdx := newReadIdx
      reader := .checking packet
      taken := if packet.isSome then w.taken+1 else w.taken }
  | .checking packet =>
    match packet with
    | some buf =>
      if w.txReq then { w with reader := .idle }
      else { w with reader := .idle, handed := w.handed ++ [buf] }
    | none => { w with reader := .idle }

inductive Act
  | write (p : Packet)
  | writer
  | reader

def step (n : ℕ) (w : World) : Act → World
  | .write p => beginWrite n w p
  | .writer => writerStep n w
  | .reader => readerStep n w

/-- The queue as `__set_queue_hdr_defaults` leaves it, whatever its memory holds. -/
def start (mem : ℕ → ℕ) : World := ⟨mem,0,0,false,.idle,.idle,[],0,[],false⟩

/-- The words of packets, one after the other -/
def wordsOf (l : List Packet) : List ℕ := l.flatMap Packet.words

/-- The unread words of the stream lie between these two positions. -/
def World.lo (w : World) : ℕ := (wordsOf (w.sent.take w.taken)).length

def World.hi (w : World) : ℕ := (wordsOf w.sent).length

/-- The packets that a call of `__iface_msgq_read` still has in hand -/
def Reader.inHand : Reader → ℕ
  | .checking _ => 1
  | _ => 0

/-- Every packet is delivered once, in order: the writer is about to store no word over an
unread one, the ring is not taken for empty while packets are unread, and what was handed on
is what was taken, byte for byte. -/
structure Delivered (n : ℕ) (w : World) : Prop where
  noOverwrite : ∀ p writeIdx k, w.writer = .copying p writeIdx k → k < p.sizeInWords →
    ∀ i, w.lo ≤ i → i < w.hi → i % n ≠ wrap n (writeIdx+k)
  notEmpty : w.readIdx = w.writeIdx → w.taken = w.sent.length
  handed : w.handed = (w.sent.take (w.taken-w.reader.inHand)).map Packet.words
  inBuffer : w.overrun = false

/-- No read that has a packet in hand finds `qhdr_tx_req` set, and no packet that is read is
longer than the response buffer. -/
def Clear (w : World) : Act → Prop
  | .reader =>
    match w.reader with
    | .checking (some _) => w.txReq = false
    | .loaded readIdx _ => 4*(w.mem readIdx/4) ≤ HfiResponse.packetSize
    | _ => True
  | _ => True

end VidcQueue
end MarbleModules
