import MarbleModules.RmnetMapIpId

/-! The check of a coalescing header, which both receive paths make before they cut a frame up:
what it lets through, and when that keeps the packet counter of the loops from wrapping. -/
namespace MarbleModules
namespace Rmnet

open FragDescriptor

/-- `RMNET_MAP_V5_MAX_PACKETS` -/
def maxPackets : ℕ := 48

/-- The two bytes of an NL pair that the check adds up. -/
def csumErrorBitmap (bs : List UInt8) (i : ℕ) : BitVec 8 := (bs.getD (4+4*i+2) 0).toBitVec
def pairPackets (bs : List UInt8) (i : ℕ) : BitVec 8 := (bs.getD (4+4*i+3) 0).toBitVec

/-- How the check ends: `-EINVAL` without a header or with the error it counts, or with the
mask and the number of packets, which goes to the statistics. -/
inductive CoalCheck
  | noHeader
  | nloErr
  | pktErr
  | ok (nloErrMask : BitVec 64) (pkts : BitVec 8)
  deriving DecidableEq

/-- The loop over the NL pairs, from pair `i` on. -/
def checkPairs (bs : List UInt8) : ℕ → ℕ → BitVec 64 → BitVec 8 → CoalCheck
  | 0,_,mask,pkts => .ok mask pkts
  | n+1,i,mask,pkts =>
    let mask := mask ||| (csumErrorBitmap bs i).setWidth 64 <<< (8*i)
    let pkts := pkts+pairPackets bs i
    if maxPackets < pkts.toNat then .pktErr else checkPairs bs n (i+1) mask pkts

/-- What the two checks do with the bytes of the header. -/
def checkCoalHeader (bs : List UInt8) : CoalCheck :=
  if (coalHeader bs).numNlos = 0 ∨ maxNlos < (coalHeader bs).numNlos then .nloErr
  else checkPairs bs maxNlos 0 0 0

/-- `rmnet_frag_data_check_coal_header` -/
def fragDataCheckCoalHeader (fragDesc : FragDescriptor) : CoalCheck :=
  match headerPtr fragDesc mapHeaderSize v5CoalHeaderSize with
  | none => .noHeader
  | some bs => checkCoalHeader bs

/-- `rmnet_map_data_check_coal_header`, which does not look whether there is a header. -/
def mapDataCheckCoalHeader (skb : MapSkb) : CoalCheck :=
  checkCoalHeader (skb.data.drop mapHeaderSize)

/-! ## The packet counters of the loops -/

/-- The loops of the descriptor path in front of packet `k` of an NLO. -/
def descAtPacket (gro : Bool) (s : Segmenting) (ps : List NlPair) (nlo k : ℕ) : Segmenting :=
  let s := (ps.take nlo).foldl (takeNlo gro) s
  takePackets gro k { s with
    coalDesc := { s.coalDesc with gsoSize := gsoSizeOf s.coalDesc (ps.getD nlo ⟨0,0⟩) } }

/-- The loops of the skb path in front of packet `k` of an NLO. -/
def skbAtPacket (allocSkb : ℕ → Bool) (gro : Bool) (s : SkbSegmenting) (ps : List NlPair)
    (nlo k : ℕ) : SkbSegmenting :=
  let s := (ps.take nlo).foldl (takeSkbNlo allocSkb gro) s
  takeSkbPackets allocSkb gro k { s with
    coalMeta := { s.coalMeta with dataLen := dataLenOf s.coalMeta (ps.getD nlo ⟨0,0⟩) } }

/-- The number of packets in the NLOs in front of `nlo`. -/
def packetsBefore (ps : List NlPair) (nlo : ℕ) : ℕ := ((ps.take nlo).map NlPair.numPackets).sum

/-- At every packet both paths have counted all packets in front of it, fewer than 48. -/
structure Counted (ps : List NlPair) : Prop where
  small : ∀ nlo p k, ps[nlo]? = some p → k < p.numPackets → packetsBefore ps nlo+k < maxPackets
  desc : ∀ gro (s : Segmenting), s.totalPkt = 0 → ∀ nlo p k, ps[nlo]? = some p →
    k < p.numPackets → (descAtPacket gro s ps nlo k).totalPkt = packetsBefore ps nlo+k
  skb : ∀ allocSkb gro (s : SkbSegmenting), s.totalPkt = 0 → ∀ nlo p k, ps[nlo]? = some p →
    k < p.numPackets → (skbAtPacket allocSkb gro s ps nlo k).totalPkt = packetsBefore ps nlo+k

/-- What a check that lets a header through is to guarantee. -/
structure Checked (bs : List UInt8) (nloErrMask : BitVec 64) : Prop where
  nlos : 1 ≤ (coalHeader bs).numNlos ∧ (coalHeader bs).numNlos ≤ maxNlos
  packets : ((coalHeader bs).pairs.map NlPair.numPackets).sum ≤ maxPackets
  counted : Counted (coalHeader bs).pairs
  bits : ∀ i j, i < maxNlos → j < 8 →
    nloErrMask.getLsbD (8*i+j) = (csumErrorBitmap bs i).getLsbD j

/-! ## The counters count -/

theorem takePackets_totalPkt (gro : Bool) (n : ℕ) {s : Segmenting} (h : s.totalPkt < 2^8) :
    (takePackets gro n s).totalPkt = (s.totalPkt+n)%2^8 := by
  induction n generalizing s with
  | zero => exact (Nat.mod_eq_of_lt h).symm
  | succ n ih =>
    rw [takePackets,ih (Nat.mod_lt _ (by decide))]
    dsimp only
    rw [takePacket_totalPkt]
    omega

theorem takeNlos_totalPkt (gro : Bool) (ps : List NlPair) {s : Segmenting}
    (h : s.totalPkt < 2^8) :
    (ps.foldl (takeNlo gro) s).totalPkt = (s.totalPkt+(ps.map NlPair.numPackets).sum)%2^8 := by
  induction ps generalizing s with
  | nil => exact (Nat.mod_eq_of_lt h).symm
  | cons p ps ih =>
    have hone : (takeNlo gro s p).totalPkt = (s.totalPkt+p.numPackets)%2^8 := by
      rw [takeNlo,flushSegs_totalPkt]
      exact takePackets_totalPkt gro p.numPackets h
    rw [List.foldl_cons,ih (by rw [hone]; exact Nat.mod_lt _ (by decide)),hone,List.map_cons,
      List.sum_cons]
    omega

theorem takeSkbPackets_totalPkt (allocSkb : ℕ → Bool) (gro : Bool) (n : ℕ) {s : SkbSegmenting}
    (h : s.totalPkt < 2^8) :
    (takeSkbPackets allocSkb gro n s).totalPkt = (s.totalPkt+n)%2^8 := by
  induction n generalizing s with
  | zero => exact (Nat.mod_eq_of_lt h).symm
  | succ n ih =>
    have hone : (takeSkbPacket allocSkb gro s).totalPkt = s.totalPkt := by
      rw [takeSkbPacket]
      split_ifs
      · exact segmentSkb_totalPkt ..
      · exact (segmentSkb_totalPkt ..).trans (flushSkbSegs_frame allocSkb s).1
      · rfl
    rw [takeSkbPackets,ih (Nat.mod_lt _ (by decide))]
    dsimp only
    rw [hone]
    omega

theorem takeSkbNlos_totalPkt (allocSkb : ℕ → Bool) (gro : Bool) (ps : List NlPair)
    {s : SkbSegmenting} (h : s.totalPkt < 2^8) :
    (ps.foldl (takeSkbNlo allocSkb gro) s).totalPkt =
      (s.totalPkt+(ps.map NlPair.numPackets).sum)%2^8 := by
  induction ps generalizing s with
  | nil => exact (Nat.mod_eq_of_lt h).symm
  | cons p ps ih =>
    have hone : (takeSkbNlo allocSkb gro s p).totalPkt = (s.totalPkt+p.numPackets)%2^8 := by
      rw [takeSkbNlo,(flushSkbSegs_frame allocSkb _).1]
      exact takeSkbPackets_totalPkt allocSkb gro p.numPackets h
    rw [List.foldl_cons,ih (by rw [hone]; exact Nat.mod_lt _ (by decide)),hone,List.map_cons,
      List.sum_cons]
    omega

theorem packetsBefore_add_lt {ps : List NlPair} {nlo k : ℕ} {p : NlPair} (hp : ps[nlo]? = some p)
    (hk : k < p.numPackets) :
    packetsBefore ps nlo+k < (ps.map NlPair.numPackets).sum := by
  have hsplit := List.take_append_drop nlo ps
  obtain ⟨hlt,hget⟩ := List.getElem?_eq_some_iff.mp hp
  have hsum : (ps.map NlPair.numPackets).sum =
      packetsBefore ps nlo+((ps.drop nlo).map NlPair.numPackets).sum := by
    rw [packetsBefore,← List.sum_append,← List.map_append,hsplit]
  rw [hsum,List.drop_eq_getElem_cons hlt,List.map_cons,List.sum_cons,hget]
  omega

theorem descAtPacket_totalPkt (gro : Bool) {s : Segmenting} (h : s.totalPkt = 0)
    (ps : List NlPair) (nlo k : ℕ) :
    (descAtPacket gro s ps nlo k).totalPkt = (packetsBefore ps nlo+k)%2^8 := by
  have hnlos := takeNlos_totalPkt gro (ps.take nlo) (show s.totalPkt < 2^8 by omega)
  rw [h,Nat.zero_add] at hnlos
  rw [descAtPacket,takePackets_totalPkt gro k (by dsimp only; omega)]
  dsimp only
  rw [hnlos,Nat.mod_add_mod]
  rfl

theorem skbAtPacket_totalPkt (allocSkb : ℕ → Bool) (gro : Bool) {s : SkbSegmenting}
    (h : s.totalPkt = 0) (ps : List NlPair) (nlo k : ℕ) :
    (skbAtPacket allocSkb gro s ps nlo k).totalPkt = (packetsBefore ps nlo+k)%2^8 := by
  have hnlos := takeSkbNlos_totalPkt allocSkb gro (ps.take nlo) (show s.totalPkt < 2^8 by omega)
  rw [h,Nat.zero_add] at hnlos
  rw [skbAtPacket,takeSkbPackets_totalPkt allocSkb gro k (by dsimp only; omega)]
  dsimp only
  rw [hnlos,Nat.mod_add_mod]
  rfl

/-- The counters cannot wrap when there are at most 48 packets. -/
theorem counted_of_le {ps : List NlPair} (h : (ps.map NlPair.numPackets).sum ≤ maxPackets) :
    Counted ps := by
  have hsmall (nlo : ℕ) (p : NlPair) (k : ℕ) (hp : ps[nlo]? = some p) (hk : k < p.numPackets) :
      packetsBefore ps nlo+k < maxPackets := (packetsBefore_add_lt hp hk).trans_le h
  have hmod (nlo : ℕ) (p : NlPair) (k : ℕ) (hp : ps[nlo]? = some p) (hk : k < p.numPackets) :
      (packetsBefore ps nlo+k)%2^8 = packetsBefore ps nlo+k :=
    Nat.mod_eq_of_lt ((hsmall nlo p k hp hk).trans (by decide))
  exact {
    small := hsmall
    desc := fun gro s h0 nlo p k hp hk =>
      (descAtPacket_totalPkt gro h0 ps nlo k).trans (hmod nlo p k hp hk)
    skb := fun allocSkb gro s h0 nlo p k hp hk =>
      (skbAtPacket_totalPkt allocSkb gro h0 ps nlo k).trans (hmod nlo p k hp hk) }

/-! ## The running total -/

/-- The packets of the first `i` pairs. -/
def runningTotal (bs : List UInt8) (i : ℕ) : ℕ :=
  ((List.range i).map fun j => (pairPackets bs j).toNat).sum

theorem runningTotal_succ (bs : List UInt8) (i : ℕ) :
    runningTotal bs (i+1) = runningTotal bs i+(pairPackets bs i).toNat := by
  rw [runningTotal,List.range_succ,List.map_append,List.sum_append]
  simp [runningTotal]

/-- The running totals, in 8 bits, are all small enough. -/
def TotalsPass (bs : List UInt8) (n : ℕ) : Prop :=
  ∀ i, i < n → runningTotal bs (i+1)%2^8 ≤ maxPackets

/-- The mask has the bitmaps of the first `i` pairs, and nothing above. -/
def MaskTo (bs : List UInt8) (i : ℕ) (mask : BitVec 64) : Prop :=
  ∀ a j, j < 8 → mask.getLsbD (8*a+j) = (decide (a < i) && (csumErrorBitmap bs a).getLsbD j)

theorem MaskTo.succ {bs : List UInt8} {i : ℕ} {mask : BitVec 64} (h : MaskTo bs i mask)
    (hi : i < 8) : MaskTo bs (i+1) (mask ||| (csumErrorBitmap bs i).setWidth 64 <<< (8*i)) := by
  intro a j hj
  rw [BitVec.getLsbD_or,h a j hj,BitVec.getLsbD_shiftLeft,BitVec.getLsbD_setWidth]
  rcases Nat.lt_trichotomy a i with hlt|rfl|hgt
  · have hbelow : 8*a+j < 8*i := by omega
    simp [hlt,hbelow,Nat.lt_succ_of_lt hlt]
  · have hin : 8*a+j < 64 := by omega
    have hnot : ¬ 8*a+j < 8*a := by omega
    have hj' : j < 64 := by omega
    simp [hin,hj']
  · have habove : 8 ≤ 8*a+j-8*i := by omega
    have hlt : ¬ a < i+1 := by omega
    have hlt' : ¬ a < i := by omega
    simp [hlt,hlt',BitVec.getLsbD_of_ge _ _ habove]

/-- The loop lets a header through exactly when all its running totals pass. -/
theorem checkPairs_eq_ok_iff (bs : List UInt8) (n : ℕ) {i : ℕ} {mask : BitVec 64}
    {pkts : BitVec 8} (hp : pkts.toNat = runningTotal bs i%2^8) :
    (∃ mask' pkts', checkPairs bs n i mask pkts = .ok mask' pkts') ↔
      ∀ k, i ≤ k → k < i+n → runningTotal bs (k+1)%2^8 ≤ maxPackets := by
  induction n generalizing i mask pkts with
  | zero => exact iff_of_true ⟨mask,pkts,rfl⟩ fun k hle hlt => by omega
  | succ n ih =>
    have hnext : (pkts+pairPackets bs i).toNat = runningTotal bs (i+1)%2^8 := by
      rw [BitVec.toNat_add,hp,runningTotal_succ]
      omega
    rw [checkPairs]
    by_cases hover : maxPackets < (pkts+pairPackets bs i).toNat
    · rw [if_pos hover]
      refine iff_of_false (by simp) fun hall => ?_
      have := hall i le_rfl (by omega)
      omega
    · rw [if_neg hover,ih hnext]
      constructor
      · intro hall k hle hlt
        rcases Nat.eq_or_lt_of_le hle with rfl|hgt
        · omega
        · exact hall k hgt (by omega)
      · intro hall k hle hlt
        exact hall k (by omega) (by omega)

/-- The mask of a header that is let through. -/
theorem checkPairs_mask {bs : List UInt8} {n i : ℕ} {mask mask' : BitVec 64}
    {pkts pkts' : BitVec 8} (h : checkPairs bs n i mask pkts = .ok mask' pkts')
    (hm : MaskTo bs i mask) (hi : i+n ≤ 8) : MaskTo bs (i+n) mask' := by
  induction n generalizing i mask pkts with
  | zero =>
    cases h
    exact hm
  | succ n ih =>
    rw [checkPairs] at h
    split_ifs at h
    have := ih h (hm.succ (by omega)) (by omega)
    rwa [Nat.add_right_comm] at this

/-- A header that is let through although one NLO that is used has more than 48 packets by
itself: its count carries the running total out of its 8 bits. -/
structure Slips (bs : List UInt8) : Prop where
  nlos : 1 ≤ (coalHeader bs).numNlos ∧ (coalHeader bs).numNlos ≤ maxNlos
  totals : ∀ i, i < maxNlos → runningTotal bs (i+1)%2^8 ≤ maxPackets
  carries : ∃ i, i < (coalHeader bs).numNlos ∧ maxPackets < (pairPackets bs i).toNat

theorem checkCoalHeader_eq_ok_iff (bs : List UInt8) :
    (∃ mask pkts, checkCoalHeader bs = .ok mask pkts) ↔
      (1 ≤ (coalHeader bs).numNlos ∧ (coalHeader bs).numNlos ≤ maxNlos) ∧
        ∀ i, i < maxNlos → runningTotal bs (i+1)%2^8 ≤ maxPackets := by
  rw [checkCoalHeader]
  by_cases hn : (coalHeader bs).numNlos = 0 ∨ maxNlos < (coalHeader bs).numNlos
  · rw [if_pos hn]
    exact iff_of_false (by simp) fun hh => by omega
  · rw [if_neg hn,checkPairs_eq_ok_iff bs maxNlos rfl]
    refine ⟨fun hall => ⟨by omega,fun i hi => hall i (Nat.zero_le _) (by omega)⟩,?_⟩
    rintro ⟨-,hall⟩ k - hk
    exact hall k (by omega)

theorem sum_pairs {bs : List UInt8} (h : (coalHeader bs).numNlos ≤ maxNlos) :
    ((coalHeader bs).pairs.map NlPair.numPackets).sum =
      runningTotal bs (coalHeader bs).numNlos := by
  have htake : (coalHeader bs).pairs = (List.range (coalHeader bs).numNlos).map (nlPair bs) := by
    rw [CoalHeader.pairs]
    change ((List.range maxNlos).map (nlPair bs)).take _ = _
    rw [← List.map_take,List.take_range,Nat.min_eq_left h]
  rw [htake,List.map_map]
  rfl

/-- Counts of at most 48 cannot carry the total out of its 8 bits before it is seen. -/
theorem runningTotal_le {bs : List UInt8} {n : ℕ}
    (htotals : ∀ i, i < n → runningTotal bs (i+1)%2^8 ≤ maxPackets)
    (hsmall : ∀ i, i < n → (pairPackets bs i).toNat ≤ maxPackets) :
    runningTotal bs n ≤ maxPackets := by
  induction n with
  | zero => exact Nat.zero_le _
  | succ n ih =>
    have hprev := ih (fun i hi => htotals i (by omega)) fun i hi => hsmall i (by omega)
    have hnow := htotals n (by omega)
    have hcount := hsmall n (by omega)
    rw [runningTotal_succ] at hnow ⊢
    rw [maxPackets] at *
    omega

theorem le_runningTotal (bs : List UInt8) {i n : ℕ} (hi : i < n) :
    (pairPackets bs i).toNat ≤ runningTotal bs n :=
  List.single_le_sum (fun _ _ => Nat.zero_le _) _
    (List.mem_map_of_mem (List.mem_range.mpr hi))

/-- What is let through is as it should be, exactly unless a count slips through. -/
theorem checkCoalHeader_checked_iff (bs : List UInt8) :
    (∀ mask pkts, checkCoalHeader bs = .ok mask pkts → Checked bs mask) ↔ ¬ Slips bs := by
  constructor
  · rintro h ⟨hn,htotals,i,hi,hbig⟩
    obtain ⟨mask,pkts,hok⟩ := (checkCoalHeader_eq_ok_iff bs).mpr ⟨hn,htotals⟩
    have hle := (h mask pkts hok).packets
    rw [sum_pairs hn.2] at hle
    exact absurd ((le_runningTotal bs hi).trans hle) (by omega)
  · intro h mask pkts hok
    obtain ⟨hn,htotals⟩ := (checkCoalHeader_eq_ok_iff bs).mp ⟨mask,pkts,hok⟩
    have hsmall (i : ℕ) (hi : i < (coalHeader bs).numNlos) :
        (pairPackets bs i).toNat ≤ maxPackets := by
      by_contra hbig
      exact h ⟨hn,htotals,i,hi,by omega⟩
    have hle : ((coalHeader bs).pairs.map NlPair.numPackets).sum ≤ maxPackets := by
      rw [sum_pairs hn.2]
      exact runningTotal_le (fun i hi => htotals i (hi.trans_le hn.2)) hsmall
    refine ⟨hn,hle,counted_of_le hle,fun i j hi hj => ?_⟩
    rw [checkCoalHeader,if_neg (by omega)] at hok
    have hstart : MaskTo bs 0 0 := fun a j _ => by simp
    have hmask := checkPairs_mask hok hstart (by decide) i j hj
    rw [Nat.zero_add,decide_eq_true hi,Bool.true_and] at hmask
    exact hmask

/-- The descriptor path's check guarantees what it should. -/
def FragChecked (fragDesc : FragDescriptor) : Prop :=
  ∀ bs, headerPtr fragDesc mapHeaderSize v5CoalHeaderSize = some bs → ∀ mask pkts,
    fragDataCheckCoalHeader fragDesc = .ok mask pkts → Checked bs mask

/-- The skb path's check guarantees what it should. -/
def MapChecked (skb : MapSkb) : Prop :=
  ∀ mask pkts, mapDataCheckCoalHeader skb = .ok mask pkts →
    Checked (skb.data.drop mapHeaderSize) mask

/-- Both checks guarantee what they should for every header that no count slips through. -/
theorem checked_iff (fragDesc : FragDescriptor) (skb : MapSkb) :
    (FragChecked fragDesc ↔
      ∀ bs, headerPtr fragDesc mapHeaderSize v5CoalHeaderSize = some bs → ¬ Slips bs) ∧
      (MapChecked skb ↔ ¬ Slips (skb.data.drop mapHeaderSize)) := by
  refine ⟨?_,checkCoalHeader_checked_iff _⟩
  refine forall_congr' fun bs => imp_congr_right fun hbs => ?_
  rw [← checkCoalHeader_checked_iff,fragDataCheckCoalHeader,hbs]

/-- Two NLOs, of one packet and of 255. -/
def slippingHeader : List UInt8 :=
  [2,0x20,0,0]++[0,60,0,1]++[0,60,0,255]++List.replicate 16 0

def slippingDesc : FragDescriptor where
  frags := [⟨[0,0,0,0]++slippingHeader,0,32⟩]
  len := 32

/-- Both checks let 256 packets through. -/
theorem not_checked_slipping :
    fragDataCheckCoalHeader slippingDesc = .ok 0 0 ∧
      mapDataCheckCoalHeader { data := slippingDesc.bytes, len := 32 } = .ok 0 0 ∧
      ((coalHeader slippingHeader).pairs.map NlPair.numPackets).sum = 256 ∧
      ¬ FragChecked slippingDesc ∧
      ¬ MapChecked { data := slippingDesc.bytes, len := 32 } := by
  have hfrag : fragDataCheckCoalHeader slippingDesc = .ok 0 0 := by decide
  have hmap : mapDataCheckCoalHeader { data := slippingDesc.bytes, len := 32 } = .ok 0 0 := by
    decide
  have hsum : ((coalHeader slippingHeader).pairs.map NlPair.numPackets).sum = 256 := by decide
  refine ⟨hfrag,hmap,hsum,fun h => ?_,fun h => ?_⟩
  · have hle := (h slippingHeader (by decide) 0 0 hfrag).packets
    rw [hsum] at hle
    exact absurd hle (by decide)
  · have hle := (h 0 0 hmap).packets
    revert hle
    decide

end Rmnet
end MarbleModules
