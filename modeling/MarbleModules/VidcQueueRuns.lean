import Mathlib.Data.List.GetD
import MarbleModules.RingWindow
import MarbleModules.Runs
import MarbleModules.VidcQueue

/-! The runs of the message queue. The stream of the words written is unbounded; the ring
holds a window of it, which the producer extends word by word ahead of the index it
publishes. -/
namespace MarbleModules
namespace VidcQueue

open RingWindow Runs

theorem Packet.sizeInWords_eq (p : Packet) : p.sizeInWords = p.words.length := by
  have h := p.size
  cases hw : p.words with
  | nil => rw [hw] at h; cases h
  | cons a l =>
    rw [hw] at h
    have ha : a = 4*(a::l).length := Option.some.inj h
    rw [Packet.sizeInWords,hw,List.headD_cons]
    omega

theorem Packet.pos (p : Packet) : 0 < p.words.length := by
  have h := p.size
  cases hw : p.words with
  | nil => rw [hw] at h; cases h
  | cons a l => exact Nat.succ_pos _

/-! ## The stream -/

theorem wordsOf_append (l l' : List Packet) : wordsOf (l ++ l') = wordsOf l ++ wordsOf l' :=
  List.flatMap_append

@[simp] theorem wordsOf_singleton (p : Packet) : wordsOf [p] = p.words := by
  rw [wordsOf,List.flatMap_cons,List.flatMap_nil,List.append_nil]

/-- The stream around packet `t` -/
theorem wordsOf_split {l : List Packet} {t : ℕ} {p : Packet} (h : l[t]? = some p) :
    wordsOf l = wordsOf (l.take t) ++ (p.words ++ wordsOf (l.drop (t+1))) := by
  obtain ⟨ht,hp⟩ := List.getElem?_eq_some_iff.mp h
  have hsplit : l = l.take t ++ (p::l.drop (t+1)) := by
    rw [← hp,List.getElem_cons_drop,List.take_append_drop]
  conv_lhs => rw [hsplit]
  rw [wordsOf_append]
  rfl

theorem wordsOf_take_succ {l : List Packet} {t : ℕ} {p : Packet} (h : l[t]? = some p) :
    wordsOf (l.take (t+1)) = wordsOf (l.take t) ++ p.words := by
  rw [List.take_add_one,h,wordsOf_append]
  exact congrArg _ (wordsOf_singleton p)

theorem length_wordsOf_take_le (l : List Packet) (t : ℕ) :
    (wordsOf (l.take t)).length ≤ (wordsOf l).length := by
  have h := congrArg List.length (wordsOf_append (l.take t) (l.drop t))
  rw [List.take_append_drop,List.length_append] at h
  omega

/-- As long as a packet is unread, so is a word. -/
theorem length_wordsOf_take_lt {l : List Packet} {t : ℕ} {p : Packet} (h : l[t]? = some p) :
    (wordsOf (l.take t)).length+p.words.length ≤ (wordsOf l).length := by
  rw [wordsOf_split h,List.length_append,List.length_append]
  omega

theorem getElem?_stream {l : List Packet} {t j : ℕ} {p : Packet} (h : l[t]? = some p)
    (hj : j < p.words.length) :
    (wordsOf l)[(wordsOf (l.take t)).length+j]? = p.words[j]? := by
  rw [wordsOf_split h,List.getElem?_append_right (by omega),Nat.add_sub_cancel_left,
    List.getElem?_append_left hj]

/-! ## The ring -/

theorem wrap_eq {n i k : ℕ} (hn : 0 < n) (hk : k ≤ n) : wrap n (i % n+k) = (i+k) % n := by
  have hi := Nat.mod_lt i hn
  have hm : (i+k) % n = (i % n+k) % n := (Nat.mod_add_mod i n k).symm
  rw [hm,wrap]
  split_ifs with hlt
  · rw [Nat.mod_eq_of_lt hlt]
  · have hs : (i % n+k) % n = (i % n+k-n) % n := Nat.mod_eq_sub_mod (by omega)
    exact (hs.trans (Nat.mod_eq_of_lt (by omega))).symm

/-- The empty space is what a window between the two positions leaves of the ring. -/
theorem emptySpace_eq {n lo hi : ℕ} (hn : 0 < n) (hle : lo ≤ hi) (hlt : hi < lo+n) :
    emptySpace n (lo % n) (hi % n) = n-(hi-lo) := by
  have hd := dist_slots hn hle hlt
  have hl := Nat.mod_lt lo hn
  have hh := Nat.mod_lt hi hn
  rw [emptySpace]
  split_ifs with hc
  · rw [dist_eq_of_le hc hh] at hd
    rw [hd]
  · rw [dist_eq_of_lt (by omega) hl.le] at hd
    omega

/-- The words that are written but not yet published -/
def Writer.pending : Writer → List ℕ
  | .copying p _ _ => p.words
  | _ => []

def Writer.written : Writer → ℕ
  | .copying _ _ k => k
  | _ => 0

/-- What the producer knows: its own index, and a read index that was right once. -/
def WriterInv (n lo hi : ℕ) : Writer → Prop
  | .idle => True
  | .loaded p readIdx writeIdx =>
    p.words.length ≤ n ∧ writeIdx = hi % n ∧
      ∃ lo' ≤ lo, lo' ≤ hi ∧ hi < lo'+n ∧ readIdx = lo' % n
  | .copying p writeIdx k =>
    p.words.length ≤ n ∧ writeIdx = hi % n ∧ k ≤ p.words.length ∧ hi+p.words.length < lo+n

/-- What the consumer has of the first unread packet -/
def ReaderInv (n : ℕ) (w : World) : Reader → Prop
  | .idle => True
  | .loaded readIdx _ => readIdx = w.lo % n ∧ w.taken < w.sent.length
  | .copying readIdx size buf =>
    readIdx = w.lo % n ∧ ∃ p, w.sent[w.taken]? = some p ∧ size = p.words.length ∧
      buf.length ≤ p.words.length ∧ buf = p.words.take buf.length
  | .publishing newReadIdx packet =>
    ∃ p, w.sent[w.taken]? = some p ∧ packet = some p.words ∧
      newReadIdx = (w.lo+p.words.length) % n
  | .checking packet =>
    ∃ t p, w.taken = t+1 ∧ w.sent[t]? = some p ∧ packet = some p.words

structure Inv (n : ℕ) (w : World) : Prop where
  taken_le : w.taken ≤ w.sent.length
  readIdx : w.readIdx = w.lo % n
  writeIdx : w.writeIdx = w.hi % n
  room : w.hi < w.lo+n
  writer : WriterInv n w.lo w.hi w.writer
  reader : ReaderInv n w w.reader
  held : Holds n w.mem (fun i v => (wordsOf w.sent ++ w.writer.pending)[i]? = some v) w.lo
    (w.hi+w.writer.written)
  handed : w.handed = (w.sent.take (w.taken-w.reader.inHand)).map Packet.words
  inBuffer : w.overrun = false

variable {n : ℕ} {w : World}

theorem Inv.lo_le_hi (_h : Inv n w) : w.lo ≤ w.hi := length_wordsOf_take_le w.sent w.taken

theorem Inv.delivered (h : Inv n w) (hn : 0 < n) : Delivered n w where
  noOverwrite := by
    intro p writeIdx k hw hk i hlo hhi
    have hwi := h.writer
    rw [hw] at hwi
    obtain ⟨hpn,rfl,-,hroom⟩ := hwi
    rw [p.sizeInWords_eq] at hk
    rw [wrap_eq hn (by omega)]
    exact slot_ne (by omega) (by omega)
  notEmpty := by
    intro heq
    rw [h.readIdx,h.writeIdx] at heq
    have hlohi := slot_inj h.lo_le_hi h.room heq
    by_contra hne
    have ht : w.taken < w.sent.length := Nat.lt_of_le_of_ne h.taken_le hne
    have hlt := length_wordsOf_take_lt (List.getElem?_eq_getElem ht)
    have hpos := (w.sent[w.taken]).pos
    unfold World.lo World.hi at hlohi
    omega
  handed := h.handed
  inBuffer := h.inBuffer

theorem Inv.start (hn : 0 < n) (mem : ℕ → ℕ) : Inv n (start mem) where
  taken_le := le_refl _
  readIdx := rfl
  writeIdx := rfl
  room := by
    show 0 < 0+n
    omega
  writer := trivial
  reader := trivial
  held := Holds.empty n mem _ 0
  handed := rfl
  inBuffer := rfl

/-! ## The producer's steps -/

theorem Inv.beginWrite (h : Inv n w) (p : Packet) : Inv n (beginWrite n w p) := by
  unfold VidcQueue.beginWrite
  cases hw : w.writer with
  | loaded q r wi => exact h
  | copying q wi k => exact h
  | idle =>
    simp only []
    split_ifs with hc
    · exact h
    · rw [not_or,p.sizeInWords_eq] at hc
      have hheld := h.held
      rw [hw] at hheld
      exact ⟨h.taken_le,h.readIdx,h.writeIdx,h.room,
        ⟨by omega,h.writeIdx,w.lo,le_refl _,h.lo_le_hi,h.room,h.readIdx⟩,h.reader,hheld,h.handed,
        h.inBuffer⟩

/-- The decision of the producer: a packet is only written where it leaves a word free. -/
theorem Inv.writer_loaded (h : Inv n w) (hn : 0 < n) {p : Packet} {r wi : ℕ}
    (hw : w.writer = .loaded p r wi) : Inv n (writerStep n w) := by
  have hwi := h.writer
  have hheld := h.held
  rw [hw] at hwi hheld
  obtain ⟨hpn,rfl,lo',hlo,hle,hlt,rfl⟩ := hwi
  have hh := Nat.mod_lt w.hi hn
  rw [writerStep,hw]
  simp only []
  rw [emptySpace_eq hn hle hlt,p.sizeInWords_eq]
  split_ifs with hc hi
  · exact ⟨h.taken_le,h.readIdx,h.writeIdx,h.room,trivial,h.reader,hheld,h.handed,h.inBuffer⟩
  · omega
  · refine ⟨h.taken_le,h.readIdx,h.writeIdx,h.room,⟨hpn,rfl,Nat.zero_le _,?_⟩,h.reader,?_,
      h.handed,h.inBuffer⟩
    · show w.hi+p.words.length < w.lo+n
      omega
    · refine hheld.imp fun i v _ hi hv => ?_
      have hil : i < (wordsOf w.sent).length := hi
      have hold : (wordsOf w.sent ++ [])[i]? = some v := hv
      rw [List.append_nil] at hold
      exact (List.getElem?_append_left hil).trans hold

/-- One word of the copy goes to the next position behind the window. -/
theorem Inv.writer_copying (h : Inv n w) (hn : 0 < n) {p : Packet} {wi k : ℕ}
    (hw : w.writer = .copying p wi k) (hk : k < p.words.length) : Inv n (writerStep n w) := by
  have hwi := h.writer
  have hheld := h.held
  rw [hw] at hwi hheld
  obtain ⟨hpn,rfl,-,hroom⟩ := hwi
  rw [writerStep,hw]
  simp only []
  rw [if_pos (by rwa [p.sizeInWords_eq]),wrap_eq hn (by omega)]
  refine ⟨h.taken_le,h.readIdx,h.writeIdx,h.room,⟨hpn,rfl,hk,hroom⟩,h.reader,?_,h.handed,h.inBuffer⟩
  refine hheld.push (by show w.hi+k < w.lo+n; omega) ?_
  show (wordsOf w.sent ++ p.words)[w.hi+k]? = _
  rw [World.hi,List.getElem?_append_right (by omega),Nat.add_sub_cancel_left,
    List.getElem?_eq_getElem hk,List.getD_eq_getElem _ _ hk]

theorem lo_snoc (ht : w.taken ≤ w.sent.length) (p : Packet) :
    (w.sent ++ [p]).take w.taken = w.sent.take w.taken :=
  List.take_append_of_le_length ht

/-- What the consumer knows is not touched by a new packet. -/
theorem ReaderInv.snoc {r : Reader} (h : ReaderInv n w r) (ht : w.taken ≤ w.sent.length)
    {w' : World} {p : Packet} (hsent : w'.sent = w.sent ++ [p]) (htaken : w'.taken = w.taken) :
    ReaderInv n w' r := by
  have hlo : w'.lo = w.lo := by rw [World.lo,hsent,htaken,lo_snoc ht,World.lo]
  have hget : ∀ {t : ℕ} {q : Packet}, w.sent[t]? = some q → w'.sent[t]? = some q := by
    intro t q hq
    rw [hsent,List.getElem?_append_left (List.getElem?_eq_some_iff.mp hq).1]
    exact hq
  cases r with
  | idle => trivial
  | loaded ri wi =>
    refine ⟨by rw [hlo]; exact h.1,?_⟩
    rw [hsent,htaken,List.length_append]
    exact Nat.lt_add_right _ h.2
  | copying ri size buf =>
    obtain ⟨hri,q,hq,hrest⟩ := h
    exact ⟨by rw [hlo]; exact hri,q,by rw [htaken]; exact hget hq,hrest⟩
  | publishing nr pkt =>
    obtain ⟨q,hq,hp,hnr⟩ := h
    exact ⟨q,by rw [htaken]; exact hget hq,hp,by rw [hlo]; exact hnr⟩
  | checking pkt =>
    obtain ⟨t,q,ht',hq,hp⟩ := h
    exact ⟨t,q,by rw [htaken,ht'],hget hq,hp⟩

/-- The store to the write index publishes the packet. -/
theorem Inv.writer_publish (h : Inv n w) (hn : 0 < n) {p : Packet} {wi k : ℕ}
    (hw : w.writer = .copying p wi k) (hk : ¬k < p.words.length) : Inv n (writerStep n w) := by
  have hwi := h.writer
  have hheld := h.held
  rw [hw] at hwi hheld
  obtain ⟨hpn,rfl,hkle,hroom⟩ := hwi
  have hkeq : k = p.words.length := by omega
  subst hkeq
  have ht := h.taken_le
  rw [writerStep,hw]
  simp only []
  rw [if_neg (by rwa [p.sizeInWords_eq]),p.sizeInWords_eq,wrap_eq hn hpn]
  have hlo : (wordsOf ((w.sent ++ [p]).take w.taken)).length = w.lo := by rw [lo_snoc ht,World.lo]
  have hhi : (wordsOf (w.sent ++ [p])).length = w.hi+p.words.length := by
    rw [wordsOf_append,wordsOf_singleton,List.length_append,World.hi]
  refine ⟨?_,?_,?_,?_,trivial,h.reader.snoc ht rfl rfl,?_,?_,h.inBuffer⟩
  · show w.taken ≤ (w.sent ++ [p]).length
    rw [List.length_append]
    omega
  · show w.readIdx = _ % n
    rw [World.lo,hlo]
    exact h.readIdx
  · show (w.hi+p.words.length) % n = (wordsOf (w.sent ++ [p])).length % n
    rw [hhi]
  · show (wordsOf (w.sent ++ [p])).length < (wordsOf ((w.sent ++ [p]).take w.taken)).length+n
    rw [hlo,hhi]
    exact hroom
  · show Holds n w.mem (fun i v => (wordsOf (w.sent ++ [p]) ++ [])[i]? = some v)
      (wordsOf ((w.sent ++ [p]).take w.taken)).length ((wordsOf (w.sent ++ [p])).length+0)
    rw [hlo,hhi,wordsOf_append,wordsOf_singleton,List.append_nil]
    exact hheld
  · show w.handed = ((w.sent ++ [p]).take (w.taken-w.reader.inHand)).map Packet.words
    rw [List.take_append_of_le_length (by omega)]
    exact h.handed

theorem Inv.writerStep (h : Inv n w) (hn : 0 < n) : Inv n (writerStep n w) := by
  cases hw : w.writer with
  | idle =>
    rw [VidcQueue.writerStep,hw]
    exact h
  | loaded p r wi => exact h.writer_loaded hn hw
  | copying p wi k =>
    by_cases hk : k < p.words.length
    · exact h.writer_copying hn hw hk
    · exact h.writer_publish hn hw hk

/-! ## The consumer's steps -/

theorem Inv.reader_idle (h : Inv n w) (hr : w.reader = .idle) :
    Inv n (readerStep n w) := by
  have hhand := h.handed
  rw [hr] at hhand
  rw [readerStep,hr]
  simp only []
  split_ifs with heq
  · exact h
  · refine ⟨h.taken_le,h.readIdx,h.writeIdx,h.room,h.writer,⟨h.readIdx,?_⟩,h.held,hhand,h.inBuffer⟩
    refine Nat.lt_of_le_of_ne h.taken_le fun ht => heq ?_
    show w.readIdx = w.writeIdx
    rw [h.readIdx,h.writeIdx,World.lo,World.hi,ht,List.take_length]

/-- Word `j` of the first unread packet, where the consumer reads it -/
theorem Inv.mem_packet (h : Inv n w) {p : Packet} (hp : w.sent[w.taken]? = some p) {j : ℕ}
    (hj : j < p.words.length) : w.mem ((w.lo+j) % n) = p.words.getD j 0 := by
  have hle := length_wordsOf_take_lt hp
  have hpos : w.lo+j < (wordsOf w.sent).length := by
    unfold World.lo
    omega
  have hheld : (wordsOf w.sent ++ w.writer.pending)[w.lo+j]? = some (w.mem ((w.lo+j) % n)) :=
    h.held (w.lo+j) (Nat.le_add_right ..) (by unfold World.hi; omega)
  rw [List.getElem?_append_left hpos,World.lo,getElem?_stream hp hj,
    List.getElem?_eq_getElem hj] at hheld
  rw [List.getD_eq_getElem _ _ hj]
  exact (Option.some.inj hheld).symm

theorem Packet.words_zero (p : Packet) : p.words.getD 0 0 = 4*p.words.length := by
  have h := p.size
  cases hw : p.words with
  | nil => rw [hw] at h; cases h
  | cons a l =>
    rw [hw] at h
    exact Option.some.inj h

/-- The size that is read is that of the first unread packet. -/
theorem Inv.size_read (h : Inv n w) (hn : 0 < n) {ri wi : ℕ} (hr : w.reader = .loaded ri wi) :
    ri < n ∧ ∃ p, w.sent[w.taken]? = some p ∧ w.mem ri = 4*p.words.length := by
  have hrd := h.reader
  rw [hr] at hrd
  obtain ⟨rfl,ht⟩ := hrd
  refine ⟨Nat.mod_lt _ hn,w.sent[w.taken],List.getElem?_eq_getElem ht,?_⟩
  have hz := h.mem_packet (List.getElem?_eq_getElem ht) (w.sent[w.taken]).pos
  rwa [Packet.words_zero] at hz

theorem Inv.reader_loaded (h : Inv n w) (hn : 0 < n) {ri wi : ℕ} (hr : w.reader = .loaded ri wi)
    {p : Packet} (hm : w.mem ri = 4*p.words.length) :
    readerStep n w = { w with
      reader := .copying ri p.words.length []
      overrun := w.overrun || decide (HfiResponse.packetSize < 4*p.words.length) } := by
  obtain ⟨hlt,-⟩ := h.size_read hn hr
  have hsize : w.mem ri/4 = p.words.length := by omega
  have hpos := p.pos
  have hhuge := p.huge
  rw [readerStep,hr]
  simp only [hsize]
  rw [if_neg (by omega),if_neg (by omega),if_pos ⟨hhuge,by omega⟩]

theorem Inv.reader_copying (h : Inv n w) (hn : 0 < n) (hn' : varHugePktSize ≤ 4*n)
    {ri size : ℕ} {buf : List ℕ} (hr : w.reader = .copying ri size buf) :
    Inv n (readerStep n w) := by
  have hrd := h.reader
  have hhand := h.handed
  rw [hr] at hrd hhand
  obtain ⟨rfl,p,hp,rfl,hlen,hbuf⟩ := hrd
  have hhuge := p.huge
  rw [readerStep,hr]
  simp only []
  split_ifs with hlt
  · refine ⟨h.taken_le,h.readIdx,h.writeIdx,h.room,h.writer,⟨rfl,p,hp,rfl,?_,?_⟩,h.held,hhand,
      h.inBuffer⟩
    · rw [List.length_append]
      exact hlt
    · rw [wrap_eq hn (by omega),h.mem_packet hp hlt,List.length_append,List.length_singleton,
        List.take_add_one,← hbuf,List.getD_eq_getElem?_getD,List.getElem?_eq_getElem hlt]
      rfl
  · have hall : buf = p.words := by
      rw [hbuf,List.take_of_length_le (by omega)]
    rw [wrap_eq hn (by omega)]
    exact ⟨h.taken_le,h.readIdx,h.writeIdx,h.room,h.writer,⟨p,hp,congrArg some hall,rfl⟩,h.held,
      hhand,h.inBuffer⟩

/-- The store to the read index frees the packet's words. -/
theorem Inv.reader_publish (h : Inv n w) {nr : ℕ} {pkt : Option (List ℕ)}
    (hr : w.reader = .publishing nr pkt) : Inv n (readerStep n w) := by
  have hrd := h.reader
  have hhand := h.handed
  rw [hr] at hrd hhand
  obtain ⟨p,hp,rfl,rfl⟩ := hrd
  have hlt := (List.getElem?_eq_some_iff.mp hp).1
  have hle := length_wordsOf_take_lt hp
  have hroom := h.room
  have hlo : (wordsOf (w.sent.take (w.taken+1))).length = w.lo+p.words.length := by
    rw [wordsOf_take_succ hp,List.length_append,World.lo]
  rw [readerStep,hr]
  simp only [Option.isSome_some,if_true]
  refine ⟨hlt,?_,h.writeIdx,?_,?_,⟨w.taken,p,rfl,hp,rfl⟩,?_,hhand,h.inBuffer⟩
  · show (w.lo+p.words.length) % n = (wordsOf (w.sent.take (w.taken+1))).length % n
    rw [hlo]
  · show w.hi < (wordsOf (w.sent.take (w.taken+1))).length+n
    rw [hlo]
    omega
  · show WriterInv n (wordsOf (w.sent.take (w.taken+1))).length w.hi w.writer
    rw [hlo]
    have hwi := h.writer
    cases hw : w.writer with
    | idle => trivial
    | loaded q r wi =>
      rw [hw] at hwi
      obtain ⟨hq,hwr,lo',hlo',hrest⟩ := hwi
      exact ⟨hq,hwr,lo',by omega,hrest⟩
    | copying q wi k =>
      rw [hw] at hwi
      obtain ⟨hq,hwr,hk,hr⟩ := hwi
      exact ⟨hq,hwr,hk,by omega⟩
  · show Holds n w.mem _ (wordsOf (w.sent.take (w.taken+1))).length _
    rw [hlo]
    exact h.held.mono (Nat.le_add_right ..) (le_refl _)

/-- The load of `qhdr_tx_req` decides whether the packet is handed on. -/
theorem Inv.reader_check (h : Inv n w) {pkt : Option (List ℕ)} (hr : w.reader = .checking pkt) :
    ∃ t p, w.taken = t+1 ∧ w.sent[t]? = some p ∧ pkt = some p.words ∧
      w.handed = (w.sent.take t).map Packet.words ∧
      readerStep n w =
        if w.txReq then { w with reader := .idle }
        else { w with reader := .idle, handed := w.handed ++ [p.words] } := by
  have hrd := h.reader
  have hhand := h.handed
  rw [hr] at hrd hhand
  obtain ⟨t,p,ht,hp,rfl⟩ := hrd
  refine ⟨t,p,ht,hp,rfl,?_,?_⟩
  · rw [ht] at hhand
    exact hhand
  · rw [readerStep,hr]

theorem Inv.readerStep (h : Inv n w) (hn : 0 < n) (hn' : varHugePktSize ≤ 4*n)
    (hc : Clear w .reader) : Inv n (readerStep n w) := by
  unfold Clear at hc
  cases hr : w.reader with
  | idle => exact h.reader_idle hr
  | loaded ri wi =>
    rw [hr] at hc
    obtain ⟨-,p,hp,hm⟩ := h.size_read hn hr
    have hrd := h.reader
    have hhand := h.handed
    rw [hr] at hrd hhand
    have hfit : 4*p.words.length ≤ HfiResponse.packetSize := by
      have hfit : 4*(w.mem ri/4) ≤ HfiResponse.packetSize := hc
      omega
    rw [h.reader_loaded hn hr hm]
    refine ⟨h.taken_le,h.readIdx,h.writeIdx,h.room,h.writer,
      ⟨hrd.1,p,hp,rfl,Nat.zero_le _,rfl⟩,h.held,hhand,?_⟩
    show (w.overrun || _) = false
    rw [h.inBuffer,Bool.false_or,decide_eq_false (by omega)]
  | copying ri size buf => exact h.reader_copying hn hn' hr
  | publishing nr pkt => exact h.reader_publish hr
  | checking pkt =>
    obtain ⟨t,p,ht,hp,rfl,hhand,hstep⟩ := h.reader_check hr
    have htx : w.txReq = false := by rw [hr] at hc; exact hc
    rw [hstep,htx,if_neg Bool.false_ne_true]
    refine ⟨h.taken_le,h.readIdx,h.writeIdx,h.room,h.writer,trivial,h.held,?_,h.inBuffer⟩
    show w.handed ++ [p.words] = (w.sent.take w.taken).map Packet.words
    rw [hhand,ht,List.take_add_one,hp,List.map_append]
    rfl

/-! ## Runs -/

theorem Inv.step (h : Inv n w) (hn : varHugePktSize ≤ 4*n) (a : Act) (hc : Clear w a) :
    Inv n (step n w a) := by
  have hpos : 0 < n := by unfold varHugePktSize at hn; omega
  cases a with
  | write p => exact h.beginWrite p
  | writer => exact h.writerStep hpos
  | reader => exact h.readerStep hpos hn hc

/-- A read that finds `qhdr_tx_req` set loses its packet; one of a packet that is too long
runs over the response buffer. -/
theorem Inv.not_delivered (h : Inv n w) (hn : varHugePktSize ≤ 4*n) (a : Act) (hc : ¬Clear w a) :
    ¬Delivered n (VidcQueue.step n w a) := by
  have hpos : 0 < n := by unfold varHugePktSize at hn; omega
  intro hd
  cases a with
  | write p => exact hc trivial
  | writer => exact hc trivial
  | reader =>
    unfold Clear at hc
    have hhanded := hd.handed
    have hbuf := hd.inBuffer
    rw [VidcQueue.step] at hhanded hbuf
    cases hr : w.reader with
    | idle => rw [hr] at hc; exact hc trivial
    | loaded ri wi =>
      rw [hr] at hc
      obtain ⟨-,p,-,hm⟩ := h.size_read hpos hr
      rw [h.reader_loaded hpos hr hm] at hbuf
      have hbig : HfiResponse.packetSize < 4*p.words.length := by
        have hbig : ¬4*(w.mem ri/4) ≤ HfiResponse.packetSize := hc
        omega
      have hover : (w.overrun || decide (HfiResponse.packetSize < 4*p.words.length)) = false := hbuf
      rw [decide_eq_true hbig,Bool.or_true] at hover
      cases hover
    | copying ri size buf => rw [hr] at hc; exact hc trivial
    | publishing nr pkt => rw [hr] at hc; exact hc trivial
    | checking pkt =>
      obtain ⟨t,p,ht,hp,rfl,hhand,hstep⟩ := h.reader_check hr
      have htx : w.txReq = true := by
        rw [hr] at hc
        exact Bool.eq_true_of_not_eq_false hc
      rw [hstep,if_pos htx] at hhanded
      have hlt := (List.getElem?_eq_some_iff.mp hp).1
      have hlen : w.handed.length = ((w.sent.take w.taken).map Packet.words).length :=
        congrArg List.length hhanded
      rw [hhand,List.length_map,List.length_map,List.length_take,List.length_take] at hlen
      omega

/-- In every interleaving the queue delivers every packet once, in order and whole, if and
only if no read that has a packet finds `qhdr_tx_req` set and no packet that is read is
longer than the response buffer. -/
theorem delivered_iff (n : ℕ) (mem : ℕ → ℕ) (ops : List Act) (hn : varHugePktSize ≤ 4*n) :
    Always (step n) (Delivered n) (start mem) ops ↔ Guarded (step n) Clear (start mem) ops := by
  have hpos : 0 < n := by unfold varHugePktSize at hn; omega
  exact always_iff_guarded (I := Inv n) (L := fun _ _ => True)
    (fun s hs => hs.delivered hpos) (fun s a hs _ hc => hs.step hn a hc)
    (fun s a hs _ hc => hs.not_delivered hn a hc) (Inv.start hpos mem) ops (guarded_true ..)

/-- A packet of one word and one of the largest size -/
def smallPacket : Packet := ⟨[4],rfl,by decide⟩

def hugePacket : Packet where
  words := 12288::List.replicate 3071 0
  size := by rw [List.length_cons,List.length_replicate]; rfl
  huge := by rw [List.length_cons,List.length_replicate]; decide

/-- One packet is written and read. -/
def writeAndRead : List Act :=
  [.write smallPacket,.writer,.writer,.writer,.reader,.reader,.reader,.reader,.reader,.reader]

theorem delivered_writeAndRead :
    Always (step 3072) (Delivered 3072) (start fun _ => 0) writeAndRead :=
  (delivered_iff 3072 (fun _ => 0) writeAndRead (by decide)).mpr
    ⟨trivial,trivial,trivial,trivial,trivial,by show 4*(4/4) ≤ 4096; decide,trivial,trivial,trivial,
      rfl,trivial⟩

/-- While the first packet is unread, a second one does not fit; the first is then read with
`qhdr_tx_req` set, and lost. -/
def writeTwiceAndRead : List Act :=
  [.write smallPacket,.writer,.writer,.writer,.write hugePacket,.writer,.reader,.reader,.reader,
    .reader,.reader,.reader]

theorem not_delivered_writeTwice :
    ¬Always (step 3072) (Delivered 3072) (start fun _ => 0) writeTwiceAndRead := by
  intro h
  have hhanded := h.last.handed
  have hnone : (run (step 3072) (start fun _ => 0) writeTwiceAndRead).handed = [] := rfl
  have hsent : (run (step 3072) (start fun _ => 0) writeTwiceAndRead).sent = [smallPacket] := rfl
  have htaken : (run (step 3072) (start fun _ => 0) writeTwiceAndRead).taken = 1 := rfl
  have hidle : (run (step 3072) (start fun _ => 0) writeTwiceAndRead).reader = .idle := rfl
  rw [hnone,hsent,htaken,hidle] at hhanded
  cases hhanded

end VidcQueue
end MarbleModules
