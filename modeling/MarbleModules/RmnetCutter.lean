import MarbleModules.RmnetSegmentFrames

/-! The loops that cut a coalesced frame, without its bytes: which packets go into which
piece, and the packet counter that each piece is given. Both receive paths do this. -/
namespace MarbleModules
namespace Rmnet

/-- One piece cut off a frame: the packet counter it is given, how many packets it has, where
its payload starts and how long each packet is. -/
structure Piece where
  pktId : ℕ
  packets : ℕ
  offset : ℕ
  size : ℕ
  deriving DecidableEq

/-- What the loops keep between two pieces. -/
structure Cutter where
  pktId : ℕ := 0
  dataOffset : ℕ := 0
  size : ℕ := 0
  segs : ℕ := 0
  totalPkt : ℕ := 0
  out : List Piece := []
  deriving DecidableEq

namespace Cutter

/-- The packets counted in `segs` are cut off; the next piece gets the counter after `pktId`. -/
def cut (s : Cutter) (pktId : ℕ) : Cutter :=
  { s with
    pktId := (pktId+1)%2^8
    dataOffset := s.dataOffset+s.size*s.segs
    segs := 0
    out := s.out++[⟨s.pktId,s.segs,s.dataOffset,s.size⟩] }

def setSegs (s : Cutter) (n : ℕ) : Cutter := { s with segs := n }

/-- Good packets that wait are cut off. -/
def flush (s : Cutter) : Cutter := if s.segs ≠ 0 then s.cut s.totalPkt else s

@[simp] theorem flush_size (s : Cutter) : s.flush.size = s.size := by
  rw [flush]
  split_ifs <;> rfl

@[simp] theorem flush_totalPkt (s : Cutter) : s.flush.totalPkt = s.totalPkt := by
  rw [flush]
  split_ifs <;> rfl

@[simp] theorem flush_segs (s : Cutter) : s.flush.segs = 0 := by
  rw [flush]
  split_ifs with h
  · rfl
  · exact not_not.mp h

theorem flush_eq_self {s : Cutter} (h : s.segs = 0) : s.flush = s := by
  rw [flush,h,if_neg (not_not.mpr rfl)]

def takePacket (gro : Bool) (s : Cutter) (p : Packet) : Cutter :=
  if gro = false then (s.setSegs 1).cut s.totalPkt
  else if p.csumErr then (s.flush.setSegs 1).cut s.totalPkt
  else s.setSegs (s.segs+1)

@[simp] theorem takePacket_totalPkt (gro : Bool) (s : Cutter) (p : Packet) :
    (s.takePacket gro p).totalPkt = s.totalPkt := by
  rw [takePacket]
  split_ifs
  · rfl
  · exact s.flush_totalPkt
  · rfl

theorem takePacket_segs_le (gro : Bool) (s : Cutter) (p : Packet) :
    (s.takePacket gro p).segs ≤ s.segs+1 := by
  rw [takePacket]
  split_ifs
  · exact Nat.zero_le _
  · exact Nat.zero_le _
  · exact le_rfl

def next (s : Cutter) : Cutter := { s with totalPkt := (s.totalPkt+1)%2^8 }

def takePackets (gro : Bool) (s : Cutter) (ps : List Packet) : Cutter :=
  ps.foldl (fun s p => (s.takePacket gro p).next) s

def setSize (s : Cutter) (n : ℕ) : Cutter := { s with size := n }

def takeNlo (gro : Bool) (s : Cutter) (size : ℕ) (ps : List Packet) : Cutter :=
  ((s.setSize size).takePackets gro ps).flush

/-- The loop over the NLOs, `k` packets being in front of them. -/
def takeNlos (gro : Bool) (hlen mask : ℕ) : ℕ → ℕ → List NlPair → Cutter → Cutter
  | _,_,[],s => s
  | nlo,k,p::ps,s =>
    takeNlos gro hlen mask (nlo+1) (k+p.numPackets) ps
      (s.takeNlo gro (p.pktLen-hlen) (nloPackets hlen mask nlo k p))

end Cutter

/-! ## What the pieces should look like -/

/-- Every piece is given the number of packets in front of it. -/
def InOrder : ℕ → List Piece → Prop
  | _,[] => True
  | k,x::xs => x.pktId = k ∧ InOrder (k+x.packets) xs

instance decidableInOrder : ∀ k xs, Decidable (InOrder k xs)
  | _,[] => isTrue trivial
  | k,x::xs =>
    haveI := decidableInOrder (k+x.packets) xs
    inferInstanceAs (Decidable (_ ∧ _))

def packetsOf (xs : List Piece) : ℕ := (xs.map Piece.packets).sum

@[simp] theorem packetsOf_append (xs ys : List Piece) :
    packetsOf (xs++ys) = packetsOf xs+packetsOf ys := by
  simp [packetsOf]

theorem inOrder_snoc (k : ℕ) (xs : List Piece) (x : Piece) :
    InOrder k (xs++[x]) ↔ InOrder k xs ∧ x.pktId = k+packetsOf xs := by
  induction xs generalizing k with
  | nil => simp [InOrder,packetsOf]
  | cons y xs ih =>
    simp only [List.cons_append,InOrder,ih,and_assoc,packetsOf,List.map_cons,List.sum_cons]
    rw [Nat.add_assoc]

/-- The pieces hold the packets one after the other. -/
inductive Holds : List Packet → List Piece → Prop
  | nil : Holds [] []
  | snoc {done g : List Packet} {xs : List Piece} {x : Piece} (h : Holds done xs)
      (hn : x.packets = g.length) (ho : x.offset = sizes done)
      (hs : x.size*x.packets = sizes g) : Holds (done++g) (xs++[x])

theorem Holds.count {done : List Packet} {xs : List Piece} (h : Holds done xs) :
    packetsOf xs = done.length := by
  induction h with
  | nil => rfl
  | snoc _ hn _ _ ih =>
    rw [packetsOf_append,ih,List.length_append,← hn]
    simp [packetsOf]

/-! ## When the counters are right -/

/-- The packet `q` joins the good packets that `p` is one of. -/
def Continues (gro : Bool) (p q : Packet) : Prop :=
  gro = true ∧ p.csumErr = false ∧ q.csumErr = false ∧ p.nlo = q.nlo

instance (gro : Bool) (p q : Packet) : Decidable (Continues gro p q) :=
  inferInstanceAs (Decidable (_ ∧ _))

/-- The packet is a piece of its own. -/
def Alone (gro : Bool) (p : Packet) : Prop := gro = false ∨ p.csumErr = true

instance (gro : Bool) (p : Packet) : Decidable (Alone gro p) :=
  inferInstanceAs (Decidable (_ ∨ _))

theorem Alone.not_continues {gro : Bool} {p : Packet} (h : Alone gro p) (q : Packet) :
    ¬ Continues gro p q := by
  rintro ⟨hg,hp,-,-⟩
  rcases h with h|h
  · rw [hg] at h
    cases h
  · rw [hp] at h
    cases h

theorem Alone.not_continued {gro : Bool} {q : Packet} (h : Alone gro q) (p : Packet) :
    ¬ Continues gro p q := by
  rintro ⟨hg,-,hq,-⟩
  rcases h with h|h
  · rw [hg] at h
    cases h
  · rw [hq] at h
    cases h

/-- Packet `k+1` goes on with the piece of packet `k`, or packet `k` is a piece of its own and
the counter, which has 8 bits, has not wrapped. -/
def Link (gro : Bool) (ps : List Packet) (k : ℕ) : Prop :=
  ∀ p q, ps[k]? = some p → ps[k+1]? = some q → Continues gro p q ∨ Alone gro p ∧ k+1 < 2^8

/-- No piece of several packets, or of a packet that might have had company, has another
piece behind it. -/
def Linked (gro : Bool) (ps : List Packet) : Prop := ∀ k, Link gro ps k

/-- A run of packets goes behind others exactly when its first packet is linked. -/
theorem linked_append {gro : Bool} {cut run : List Packet} {p q : Packet}
    (hp : cut.getLast? = some p) (hq : run.head? = some q)
    (hrun : ∀ k p q, run[k]? = some p → run[k+1]? = some q → Continues gro p q) :
    Linked gro (cut++run) ↔
      Linked gro cut ∧ (Continues gro p q ∨ Alone gro p ∧ cut.length < 2^8) := by
  rw [List.getLast?_eq_getElem?] at hp
  rw [List.head?_eq_getElem?] at hq
  have hpos : 0 < cut.length := by
    have := (List.getElem?_eq_some_iff.mp hp).1
    omega
  have hlen : cut.length-1+1 = cut.length := by omega
  constructor
  · intro h
    refine ⟨fun k a b ha hb => h k a b ?_ ?_,?_⟩
    · rw [List.getElem?_append_left (List.getElem?_eq_some_iff.mp ha).1,ha]
    · rw [List.getElem?_append_left (List.getElem?_eq_some_iff.mp hb).1,hb]
    · rw [← hlen]
      refine h (cut.length-1) p q ?_ ?_
      · rw [List.getElem?_append_left (by omega),hp]
      · rw [hlen,List.getElem?_append_right le_rfl,Nat.sub_self,hq]
  · rintro ⟨hcut,hjoint⟩ k a b ha hb
    rcases Nat.lt_trichotomy (k+1) cut.length with hlt|heq|hgt
    · rw [List.getElem?_append_left (by omega)] at ha
      rw [List.getElem?_append_left hlt] at hb
      exact hcut k a b ha hb
    · obtain rfl : k = cut.length-1 := by omega
      rw [List.getElem?_append_left (by omega),hp] at ha
      rw [hlen,List.getElem?_append_right le_rfl,Nat.sub_self,hq] at hb
      cases ha
      cases hb
      rwa [hlen]
    · rw [List.getElem?_append_right (by omega)] at ha hb
      have hk : k+1-cut.length = k-cut.length+1 := by omega
      rw [hk] at hb
      exact Or.inl (hrun _ a b ha hb)

theorem linked_of_run {gro : Bool} {run : List Packet}
    (hrun : ∀ k p q, run[k]? = some p → run[k+1]? = some q → Continues gro p q) :
    Linked gro run :=
  fun k p q hp hq => Or.inl (hrun k p q hp hq)

/-! ## The loops -/

/-- The counter that the piece behind `cut` will be given. -/
structure NextId (gro : Bool) (cut : List Packet) (pktId : ℕ) : Prop where
  first : cut = [] → pktId = 0
  alone : ∀ p, cut.getLast? = some p → Alone gro p → pktId = cut.length%2^8
  run : ∀ p, cut.getLast? = some p → ¬ Alone gro p → pktId = (cut.length+1)%2^8

/-- All packets in `cut` are cut off and none waits. -/
structure Settled (gro : Bool) (cut : List Packet) (s : Cutter) : Prop where
  total : s.totalPkt = cut.length%2^8
  segs : s.segs = 0
  holds : Holds cut s.out
  dataOffset : s.dataOffset = sizes cut
  nextId : NextId gro cut s.pktId
  small : ∀ x ∈ s.out, x.pktId < 2^8
  right : InOrder 0 s.out ↔ Linked gro cut

/-- The packets in `cut` are cut off, and the good packets `run` of the present NLO wait. -/
structure Waiting (gro : Bool) (nlo : ℕ) (cut run : List Packet) (s : Cutter) : Prop where
  total : s.totalPkt = (cut.length+run.length)%2^8
  segs : s.segs = run.length
  holds : Holds cut s.out
  dataOffset : s.dataOffset = sizes cut
  nextId : NextId gro cut s.pktId
  small : ∀ x ∈ s.out, x.pktId < 2^8
  right : InOrder 0 s.out ↔ Linked gro cut
  good : ∀ p ∈ run, gro = true ∧ p = ⟨nlo,false,s.size⟩
  nlos : ∀ p ∈ cut, p.nlo ≤ nlo
  broken : ∀ p, cut.getLast? = some p → Alone gro p ∨ p.nlo ≠ nlo

variable {gro : Bool} {nlo : ℕ} {cut run : List Packet} {s : Cutter}

/-- The counter of a run is right exactly when the run is linked to what is in front. -/
theorem NextId.right_iff {pktId : ℕ} (h : NextId gro cut pktId) {q : Packet}
    (hq : run.head? = some q)
    (hb : ∀ p, cut.getLast? = some p → ¬ Continues gro p q)
    (hrun : ∀ k p q, run[k]? = some p → run[k+1]? = some q → Continues gro p q) :
    Linked gro (cut++run) ↔ Linked gro cut ∧ pktId = cut.length := by
  cases hlast : cut.getLast? with
  | none =>
    obtain rfl := List.getLast?_eq_none_iff.mp hlast
    rw [h.first rfl]
    simpa using ⟨fun _ => linked_of_run (fun k p q hp => by simp at hp),
      fun _ => linked_of_run hrun⟩
  | some p =>
    rw [linked_append hlast hq hrun,and_congr_right_iff]
    intro _
    by_cases ha : Alone gro p
    · rw [h.alone p hlast ha]
      exact ⟨fun hh => Nat.mod_eq_of_lt (hh.resolve_left (hb p hlast)).2,
        fun hh => Or.inr ⟨ha,by omega⟩⟩
    · rw [h.run p hlast ha]
      refine ⟨fun hh => absurd (hh.resolve_left (hb p hlast)).1 ha,fun hh => ?_⟩
      omega

theorem NextId.lt {pktId : ℕ} (h : NextId gro cut pktId) : pktId < 2^8 := by
  cases hlast : cut.getLast? with
  | none =>
    rw [h.first (List.getLast?_eq_none_iff.mp hlast)]
    decide
  | some p =>
    by_cases ha : Alone gro p
    · rw [h.alone p hlast ha]
      exact Nat.mod_lt _ (by decide)
    · rw [h.run p hlast ha]
      exact Nat.mod_lt _ (by decide)

theorem NextId.small {x : Piece} {xs : List Piece} (h : NextId gro cut x.pktId)
    (hs : ∀ y ∈ xs, y.pktId < 2^8) : ∀ y ∈ xs++[x], y.pktId < 2^8 := by
  intro y hy
  rcases List.mem_append.mp hy with hy|hy
  · exact hs y hy
  · rw [List.mem_singleton.mp hy]
    exact h.lt

theorem NextId.of_last {pktId : ℕ} {p : Packet} (hp : cut.getLast? = some p)
    (ha : Alone gro p → pktId = cut.length%2^8)
    (hr : ¬ Alone gro p → pktId = (cut.length+1)%2^8) : NextId gro cut pktId where
  first h := by
    rw [h] at hp
    cases hp
  alone q hq hh := by
    obtain rfl := Option.some.inj (hp.symm.trans hq)
    exact ha hh
  run q hq hh := by
    obtain rfl := Option.some.inj (hp.symm.trans hq)
    exact hr hh

/-- The packets of a run are linked. -/
theorem Waiting.continues (h : Waiting gro nlo cut run s) (k : ℕ) (p q : Packet)
    (hp : run[k]? = some p) (hq : run[k+1]? = some q) : Continues gro p q := by
  obtain ⟨hg,hp'⟩ := h.good p (List.mem_of_getElem? hp)
  obtain ⟨-,hq'⟩ := h.good q (List.mem_of_getElem? hq)
  rw [hp',hq']
  exact ⟨hg,rfl,rfl,rfl⟩

theorem Waiting.notAlone (h : Waiting gro nlo cut run s) {p : Packet} (hp : p ∈ run) :
    ¬ Alone gro p := by
  obtain ⟨hg,hp'⟩ := h.good p hp
  rw [hp',hg]
  rintro (hh|hh) <;> cases hh

/-- What waits is cut off. -/
theorem Waiting.flush (h : Waiting gro nlo cut run s) : Settled gro (cut++run) s.flush := by
  rw [Cutter.flush,h.segs]
  by_cases h0 : run.length = 0
  · obtain rfl := List.eq_nil_of_length_eq_zero h0
    rw [if_neg (not_not.mpr h0),List.append_nil]
    exact ⟨h.total,h.segs,h.holds,h.dataOffset,h.nextId,h.small,h.right⟩
  have hne : run ≠ [] := fun hh => h0 (by rw [hh]; rfl)
  have hsize : s.size*s.segs = sizes run := by
    rw [h.segs]
    exact (sizes_const fun p hp => by rw [(h.good p hp).2]).symm
  have hlast : (cut++run).getLast? = some (run.getLast hne) := by
    rw [List.getLast?_append,List.getLast?_eq_some_getLast hne]
    rfl
  have hhead : run.head? = some (run.head hne) := List.head?_eq_some_head hne
  have hbroken : ∀ p, cut.getLast? = some p → ¬ Continues gro p (run.head hne) := by
    intro p hp hc
    rcases h.broken p hp with ha|hn
    · exact ha.not_continues _ hc
    · refine hn (hc.2.2.2.trans ?_)
      rw [(h.good _ (List.head_mem hne)).2]
  rw [if_pos h0]
  exact {
    total := by
      rw [List.length_append]
      exact h.total
    segs := rfl
    holds := h.holds.snoc h.segs h.dataOffset hsize
    dataOffset := by
      rw [sizes_append,← hsize]
      exact congrArg (·+s.size*s.segs) h.dataOffset
    nextId := by
      refine .of_last hlast (fun ha => absurd ha (h.notAlone (List.getLast_mem hne))) fun _ => ?_
      change (s.totalPkt+1)%2^8 = _
      rw [h.total,List.length_append]
      omega
    small := h.nextId.small h.small
    right := by
      rw [h.nextId.right_iff hhead hbroken h.continues,← h.right]
      change InOrder 0 (s.out++_) ↔ _
      rw [inOrder_snoc,h.holds.count,Nat.zero_add] }

/-- A packet that is a piece of its own is cut off when none waits. -/
theorem Settled.single (h : Settled gro cut s) {p : Packet} (ha : Alone gro p)
    (hs : p.size = s.size) :
    Settled gro (cut++[p]) ((s.setSegs 1).cut s.totalPkt).next where
  total := by
    change (s.totalPkt+1)%2^8 = _
    rw [h.total,List.length_append,List.length_singleton]
    omega
  segs := rfl
  holds := h.holds.snoc rfl h.dataOffset (by
    change s.size*1 = _
    rw [sizes_singleton,hs,Nat.mul_one])
  dataOffset := by
    change s.dataOffset+s.size*1 = _
    rw [sizes_append,sizes_singleton,h.dataOffset,hs,Nat.mul_one]
  nextId := by
    have hlast : (cut++[p]).getLast? = some p := List.getLast?_concat
    refine .of_last hlast (fun _ => ?_) fun hh => absurd ha hh
    change (s.totalPkt+1)%2^8 = _
    rw [h.total,List.length_append,List.length_singleton]
    omega
  small := h.nextId.small h.small
  right := by
    have hrun : ∀ (k : ℕ) (a b : Packet), [p][k]? = some a → [p][k+1]? = some b →
        Continues gro a b := fun k a b _ hb => by simp at hb
    rw [h.nextId.right_iff rfl (fun q _ => ha.not_continued q) hrun,← h.right]
    change InOrder 0 (s.out++_) ↔ _
    rw [inOrder_snoc,h.holds.count,Nat.zero_add]
    rfl

theorem Settled.waiting (h : Settled gro cut s) (hn : ∀ p ∈ cut, p.nlo ≤ nlo)
    (hb : ∀ p, cut.getLast? = some p → Alone gro p ∨ p.nlo ≠ nlo) :
    Waiting gro nlo cut [] s where
  total := h.total
  segs := h.segs
  holds := h.holds
  dataOffset := h.dataOffset
  nextId := h.nextId
  small := h.small
  right := h.right
  good := by simp
  nlos := hn
  broken := hb

theorem Waiting.all_nlos (h : Waiting gro nlo cut run s) : ∀ p ∈ cut++run, p.nlo ≤ nlo := by
  intro p hp
  rcases List.mem_append.mp hp with hp|hp
  · exact h.nlos p hp
  · rw [(h.good p hp).2]

/-- One more packet of the NLO waits, or it is cut off with all those before it. -/
theorem Waiting.takePacket (h : Waiting gro nlo cut run s) {p : Packet} (hn : p.nlo = nlo)
    (hs : p.size = s.size) :
    ∃ cut' run', cut'++run' = cut++run++[p] ∧
      Waiting gro nlo cut' run' (s.takePacket gro p).next ∧
      (s.takePacket gro p).next.size = s.size := by
  have halone (ha : Alone gro p) (hset : Settled gro (cut++run) s.flush) :
      Waiting gro nlo (cut++run++[p]) [] ((s.flush.setSegs 1).cut s.flush.totalPkt).next := by
    refine (hset.single ha (hs.trans s.flush_size.symm)).waiting (fun q hq => ?_) fun q hq => ?_
    · rcases List.mem_append.mp hq with hq|hq
      · exact h.all_nlos q hq
      · rw [List.mem_singleton.mp hq,hn]
    · rw [List.getLast?_concat] at hq
      exact Or.inl (Option.some.inj hq ▸ ha)
  rw [Cutter.takePacket]
  by_cases hg : gro = false
  · rw [if_pos hg]
    have hrun : run = [] := by
      cases run with
      | nil => rfl
      | cons q _ =>
        have hgro := (h.good q (by simp)).1
        rw [hg] at hgro
        cases hgro
    have hw := halone (Or.inl hg) h.flush
    rw [Cutter.flush_eq_self (by rw [h.segs,hrun]; rfl)] at hw
    exact ⟨_,[],List.append_nil _,hw,rfl⟩
  rw [if_neg hg]
  by_cases he : p.csumErr = true
  · rw [if_pos he,← s.flush_totalPkt]
    exact ⟨_,[],List.append_nil _,halone (Or.inr he) h.flush,s.flush_size⟩
  · rw [if_neg he]
    refine ⟨cut,run++[p],(List.append_assoc ..).symm,?_,rfl⟩
    exact {
      total := by
        change (s.totalPkt+1)%2^8 = _
        rw [h.total,List.length_append,List.length_singleton]
        omega
      segs := by
        change s.segs+1 = _
        rw [h.segs,List.length_append,List.length_singleton]
      holds := h.holds
      dataOffset := h.dataOffset
      nextId := h.nextId
      small := h.small
      right := h.right
      good := by
        intro q hq
        rcases List.mem_append.mp hq with hq|hq
        · exact h.good q hq
        · obtain rfl := List.mem_singleton.mp hq
          obtain ⟨qnlo,qerr,qsize⟩ := q
          dsimp only at hn hs he
          rw [hn,hs,Bool.eq_false_of_not_eq_true he]
          exact ⟨Bool.eq_true_of_not_eq_false hg,rfl⟩
      nlos := h.nlos
      broken := h.broken }

theorem Waiting.takePackets (h : Waiting gro nlo cut run s) (ps : List Packet)
    (hps : ∀ p ∈ ps, p.nlo = nlo ∧ p.size = s.size) :
    ∃ cut' run', cut'++run' = cut++run++ps ∧ Waiting gro nlo cut' run' (s.takePackets gro ps) := by
  induction ps generalizing cut run s with
  | nil => exact ⟨cut,run,(List.append_nil _).symm,h⟩
  | cons p ps ih =>
    obtain ⟨hn,hs⟩ := hps p (by simp)
    obtain ⟨cut₁,run₁,hdone₁,hw₁,hsize⟩ := h.takePacket hn hs
    obtain ⟨cut₂,run₂,hdone₂,hw₂⟩ := ih hw₁ fun q hq => by
      rw [hsize]
      exact hps q (by simp [hq])
    refine ⟨cut₂,run₂,?_,hw₂⟩
    rw [hdone₂,hdone₁,List.append_assoc _ [p],List.singleton_append]

/-- All NLOs are treated, and the counters are right exactly when all packets are linked. -/
theorem Settled.takeNlos (hlen mask : ℕ) (ps : List NlPair) (nlo : ℕ)
    (h : Settled gro cut s) (hn : ∀ p ∈ cut, p.nlo < nlo) :
    Settled gro (cut++packetsFrom hlen mask nlo cut.length ps)
      (s.takeNlos gro hlen mask nlo cut.length ps) := by
  induction ps generalizing nlo cut s with
  | nil => simpa [packetsFrom,Cutter.takeNlos] using h
  | cons p ps ih =>
    have hset : Settled gro cut (s.setSize (p.pktLen-hlen)) :=
      ⟨h.total,h.segs,h.holds,h.dataOffset,h.nextId,h.small,h.right⟩
    have hw : Waiting gro nlo cut [] (s.setSize (p.pktLen-hlen)) :=
      hset.waiting (fun q hq => (hn q hq).le) fun q hq =>
        Or.inr (hn q (List.mem_of_getLast? hq)).ne
    obtain ⟨cut',run',hdone,hw'⟩ := hw.takePackets (nloPackets hlen mask nlo cut.length p)
      fun q hq => by
        obtain ⟨i,-,rfl⟩ := List.mem_map.mp hq
        exact ⟨rfl,rfl⟩
    have hnext := hw'.flush
    rw [hdone,List.append_nil] at hnext
    have hlen : (cut++nloPackets hlen mask nlo cut.length p).length = cut.length+p.numPackets := by
      rw [List.length_append,length_nloPackets]
    have hih := ih (nlo+1) hnext fun q hq => by
      rcases List.mem_append.mp hq with hq|hq
      · exact (hn q hq).trans (Nat.lt_succ_self _)
      · obtain ⟨i,-,rfl⟩ := List.mem_map.mp hq
        exact Nat.lt_succ_self _
    rw [hlen,List.append_assoc] at hih
    exact hih

theorem settled_start (gro : Bool) : Settled gro [] {} where
  total := rfl
  segs := rfl
  holds := .nil
  dataOffset := rfl
  nextId := ⟨fun _ => rfl,by simp,by simp⟩
  small := by simp
  right := ⟨fun _ => linked_of_run (by simp),fun _ => trivial⟩

end Rmnet
end MarbleModules
