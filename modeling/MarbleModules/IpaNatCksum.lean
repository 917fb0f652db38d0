import MarbleModules.IpaNat
import MarbleModules.OnesComplement

/-! The checksum differences of a NAT rule are one's-complement differences: every sum fits its
16 bits after one fold, and a header whose checksum was valid stays valid under them. -/
namespace MarbleModules
namespace IpaNat

open OnesComplement

/-- The low and the high half of an address, in the order they are added. -/
def halves (ipAddr : BitVec 32) : List (BitVec 16) :=
  [ipAddr.extractLsb' 0 16,ipAddr.extractLsb' 16 16]

/-- The public words, then the complements of the private ones. -/
def diffWords (pub priv : List (BitVec 16)) : List (BitVec 16) := pub++priv.map (~~~·)

def nats (ws : List (BitVec 16)) : List ℕ := ws.map BitVec.toNat

/-- The one's-complement sum of the words of a header. -/
def headerSum (ws : List (BitVec 16)) : ℕ := total (2^16) (nats ws)

/-- The checksum field after a difference has been added under its complement. -/
def adjustField (d field : BitVec 16) : BitVec 16 :=
  BitVec.ofNat 16 (adjust (2^16) d.toNat field.toNat)

/-- The words are summed without losing a carry, and the result keeps all of the sum. -/
structure Exact (d : BitVec 16) (ws : List (BitVec 16)) : Prop where
  small : ∀ pre, pre <+: ws → (pre.foldl addFold 0).toNat < 2^16
  kept : d.setWidth 32 = ws.foldl addFold 0
  value : d.toNat = headerSum ws

/-- `d` takes a checksum over the private words to one over the public words. -/
structure IsDelta (d : BitVec 16) (pub priv : List (BitVec 16)) : Prop where
  modEq : (d.toNat : ℤ) ≡ (nats pub).sum-(nats priv).sum [ZMOD 65535]
  /-- A sum that stood for the private words stands for the public ones. -/
  stored : ∀ (s : BitVec 16) (rest : List (BitVec 16)),
    (s.toNat : ℤ) ≡ (nats (priv++rest)).sum [ZMOD 65535] →
      (carryAdd (2^16) s.toNat d.toNat : ℤ) ≡ (nats (pub++rest)).sum [ZMOD 65535]
  /-- A header with a valid field, its words in any order, has a valid field afterwards. -/
  header : ∀ (field : BitVec 16) (rest xs ys : List (BitVec 16)),
    xs.Perm (priv++field::rest) → ys.Perm (pub++adjustField d field::rest) →
      Zero (2^16) (headerSum xs) → Zero (2^16) (headerSum ys)
  /-- And its sum is all ones if some word besides the replaced ones is not zero. -/
  allOnes : ∀ (field : BitVec 16) (rest xs ys : List (BitVec 16)),
    xs.Perm (priv++field::rest) → ys.Perm (pub++adjustField d field::rest) →
      (∃ w ∈ rest, w ≠ 0) → headerSum xs = 2^16-1 → headerSum ys = 2^16-1

theorem addFold_toNat {cksum : BitVec 32} (h : cksum.toNat < 2^16) (x : BitVec 16) :
    (addFold cksum x).toNat = carryAdd (2^16) cksum.toNat x.toNat := by
  have hx : x.toNat < 2^16 := x.isLt
  have hsum : (cksum+x.setWidth 32).toNat = cksum.toNat+x.toNat := by
    rw [BitVec.toNat_add,BitVec.toNat_setWidth]
    omega
  have hcarry : (cksum+x.setWidth 32) >>> 16 ≠ 0 ↔ 2^16 ≤ cksum.toNat+x.toNat := by
    have hzero : (0 : BitVec 32).toNat = 0 := rfl
    rw [ne_eq,← BitVec.toNat_inj,BitVec.toNat_ushiftRight,hsum,Nat.shiftRight_eq_div_pow,hzero]
    omega
  rw [addFold,carryAdd]
  by_cases hle : 2^16 ≤ cksum.toNat+x.toNat
  · rw [if_pos (hcarry.mpr hle),if_pos hle,BitVec.toNat_add,BitVec.toNat_and,hsum]
    have hand : (cksum.toNat+x.toNat) &&& (0xFFFF : BitVec 32).toNat =
        (cksum.toNat+x.toNat) % 2^16 := Nat.and_two_pow_sub_one_eq_mod _ 16
    have hone : (1 : BitVec 32).toNat = 1 := rfl
    rw [hand,hone]
    omega
  · rw [if_neg (mt hcarry.mp hle),if_neg hle,hsum]

theorem nats_lt (ws : List (BitVec 16)) : ∀ x ∈ nats ws, x < 2^16 := by
  intro x hx
  obtain ⟨w,-,rfl⟩ := List.mem_map.mp hx
  exact w.isLt

/-- The running sum stays below 16 bits, so each addition carries at most once. -/
theorem foldl_addFold_toNat (ws : List (BitVec 16)) {cksum : BitVec 32}
    (h : cksum.toNat < 2^16) :
    (ws.foldl addFold cksum).toNat = (nats ws).foldl (carryAdd (2^16)) cksum.toNat := by
  induction ws generalizing cksum with
  | nil => rfl
  | cons w ws ih =>
    have hw := addFold_toNat h w
    have hlt : (addFold cksum w).toNat < 2^16 := by
      rw [hw]
      exact carryAdd_lt h w.isLt
    rw [List.foldl_cons,ih hlt,hw]
    rfl

theorem exact_of_eq {d : BitVec 16} {ws : List (BitVec 16)}
    (h : d = (ws.foldl addFold 0).setWidth 16) : Exact d ws := by
  have hvalue : ∀ ws : List (BitVec 16), (ws.foldl addFold 0).toNat = headerSum ws :=
    fun ws => foldl_addFold_toNat ws (by decide)
  have hsmall : ∀ ws : List (BitVec 16), (ws.foldl addFold 0).toNat < 2^16 := by
    intro ws
    rw [hvalue]
    exact total_lt (by decide) (nats_lt ws)
  have hnat : d.toNat = (ws.foldl addFold 0).toNat := by
    rw [h,BitVec.toNat_setWidth]
    exact Nat.mod_eq_of_lt (hsmall ws)
  refine ⟨fun pre _ => hsmall pre,?_,hnat.trans (hvalue ws)⟩
  apply BitVec.eq_of_toNat_eq
  rw [BitVec.toNat_setWidth,hnat]
  exact Nat.mod_eq_of_lt (by have := hsmall ws; omega)

theorem nats_append (xs ys : List (BitVec 16)) : nats (xs++ys) = nats xs++nats ys :=
  List.map_append

theorem nats_cons (w : BitVec 16) (ws : List (BitVec 16)) : nats (w::ws) = w.toNat::nats ws := rfl

theorem not_modEq (w : BitVec 16) : ((~~~w).toNat : ℤ) ≡ -w.toNat [ZMOD 65535] := by
  have h := complement_modEq w.isLt
  rw [complement] at h
  rw [BitVec.toNat_not]
  exact h

theorem sum_not_modEq (ws : List (BitVec 16)) :
    ((nats (ws.map (~~~·))).sum : ℤ) ≡ -(nats ws).sum [ZMOD 65535] := by
  induction ws with
  | nil => rfl
  | cons w ws ih =>
    rw [List.map_cons,nats_cons,nats_cons,List.sum_cons,List.sum_cons]
    simp only [Nat.cast_add,neg_add]
    exact (not_modEq w).add ih

theorem adjustField_toNat (d field : BitVec 16) :
    (adjustField d field).toNat = adjust (2^16) d.toNat field.toNat := by
  rw [adjustField,BitVec.toNat_ofNat]
  exact Nat.mod_eq_of_lt (adjust_lt (by decide))

theorem Exact.isDelta {d : BitVec 16} {pub priv : List (BitVec 16)}
    (h : Exact d (diffWords pub priv)) : IsDelta d pub priv := by
  have hdelta : (d.toNat : ℤ) ≡ (nats pub).sum-(nats priv).sum [ZMOD 65535] := by
    calc (d.toNat : ℤ) = headerSum (diffWords pub priv) := by rw [h.value]
      _ ≡ (nats (diffWords pub priv)).sum [ZMOD 65535] := total_modEq (2^16) _
      _ = (nats pub).sum+(nats (priv.map (~~~·))).sum := by
        rw [diffWords,nats_append,List.sum_append,Nat.cast_add]
      _ ≡ (nats pub).sum+-(nats priv).sum [ZMOD 65535] := (sum_not_modEq priv).add_left _
      _ = (nats pub).sum-(nats priv).sum := (sub_eq_add_neg _ _).symm
  have hsum : ∀ {field : BitVec 16} {rest xs ys : List (BitVec 16)},
      xs.Perm (priv++field::rest) → ys.Perm (pub++adjustField d field::rest) →
        Zero (2^16) (headerSum xs) → Zero (2^16) (headerSum ys) := by
    intro field rest xs ys hxs hys hzero
    have hxs' := hxs.map BitVec.toNat
    have hys' := hys.map BitVec.toNat
    rw [List.map_append,List.map_cons] at hxs' hys'
    rw [adjustField_toNat] at hys'
    rw [headerSum,zero_total_iff (by decide) (nats_lt _)] at hzero ⊢
    exact (replace_modEq d.isLt field.isLt hdelta hxs' hys').trans hzero
  refine ⟨hdelta,fun s rest hs => ?_,fun _ _ _ _ => hsum,fun field rest xs ys hxs hys hw hones => ?_⟩
  · rw [nats_append,List.sum_append] at hs ⊢
    rw [Nat.cast_add] at hs ⊢
    have hadd : (carryAdd (2^16) s.toNat d.toNat : ℤ) ≡ s.toNat+d.toNat [ZMOD 65535] :=
      carryAdd_modEq (2^16) s.toNat d.toNat
    calc (carryAdd (2^16) s.toNat d.toNat : ℤ)
        ≡ s.toNat+d.toNat [ZMOD 65535] := hadd
      _ ≡ ((nats priv).sum+(nats rest).sum)+((nats pub).sum-(nats priv).sum) [ZMOD 65535] :=
        hs.add hdelta
      _ = (nats pub).sum+(nats rest).sum := by ring
  · obtain ⟨w,hmem,hne⟩ := hw
    refine (hsum hxs hys (Or.inr hones)).resolve_left fun hzero => hne ?_
    have hall := (total_eq_zero_iff (by decide)).mp hzero
    have hin : w ∈ ys := hys.mem_iff.mpr
      (List.mem_append_right _ (List.mem_cons_of_mem _ hmem))
    exact BitVec.eq_of_toNat_eq (hall _ (List.mem_map_of_mem hin))

theorem halves_not (ipAddr : BitVec 32) : (halves ipAddr).map (~~~·) =
    [(~~~ipAddr).extractLsb' 0 16,(~~~ipAddr).extractLsb' 16 16] := by
  have hlo : (~~~ipAddr).extractLsb' 0 16 = ~~~ipAddr.extractLsb' 0 16 := by
    ext i hi
    simp; omega
  have hhi : (~~~ipAddr).extractLsb' 16 16 = ~~~ipAddr.extractLsb' 16 16 := by
    ext i hi
    simp; omega
  rw [hlo,hhi]
  rfl

/-- The sum starts from the low half of the public address. -/
theorem addFold_zero_low (ipAddr : BitVec 32) :
    addFold 0 (ipAddr.extractLsb' 0 16) = ipAddr &&& 0xFFFF := by
  apply BitVec.eq_of_toNat_eq
  have hand : (ipAddr &&& 0xFFFF).toNat = ipAddr.toNat % 2^16 := by
    rw [BitVec.toNat_and]
    exact Nat.and_two_pow_sub_one_eq_mod _ 16
  have hlow : (ipAddr.extractLsb' 0 16).toNat = ipAddr.toNat % 2^16 := by
    rw [BitVec.extractLsb'_toNat,Nat.shiftRight_zero]
  have hzero : (0 : BitVec 32).toNat = 0 := rfl
  rw [addFold_toNat (by decide),hand,hlow,carryAdd,hzero,if_neg (by omega),zero_add]

theorem calcIpCksum_eq (pubIpAddr privIpAddr : BitVec 32) : calcIpCksum pubIpAddr privIpAddr =
    ((diffWords (halves pubIpAddr) (halves privIpAddr)).foldl addFold 0).setWidth 16 := by
  rw [diffWords,halves_not]
  simp only [halves,List.cons_append,List.nil_append,List.foldl_cons,List.foldl_nil,
    addFold_zero_low]
  rfl

theorem calcTcpUdpCksum_eq (pubIpAddr : BitVec 32) (pubPort : BitVec 16) (privIpAddr : BitVec 32)
    (privPort : BitVec 16) : calcTcpUdpCksum pubIpAddr pubPort privIpAddr privPort =
    ((diffWords (halves pubIpAddr++[pubPort]) (halves privIpAddr++[privPort])).foldl
      addFold 0).setWidth 16 := by
  rw [diffWords,List.map_append,halves_not]
  simp only [halves,List.map_cons,List.map_nil,List.cons_append,List.nil_append,List.foldl_cons,
    List.foldl_nil,addFold_zero_low]
  rfl

/-- Both differences, for all addresses and ports. -/
theorem cksum_isDelta (pubIpAddr privIpAddr : BitVec 32) (pubPort privPort : BitVec 16) :
    (Exact (calcIpCksum pubIpAddr privIpAddr)
        (diffWords (halves pubIpAddr) (halves privIpAddr)) ∧
      IsDelta (calcIpCksum pubIpAddr privIpAddr) (halves pubIpAddr) (halves privIpAddr)) ∧
    Exact (calcTcpUdpCksum pubIpAddr pubPort privIpAddr privPort)
        (diffWords (halves pubIpAddr++[pubPort]) (halves privIpAddr++[privPort])) ∧
      IsDelta (calcTcpUdpCksum pubIpAddr pubPort privIpAddr privPort)
        (halves pubIpAddr++[pubPort]) (halves privIpAddr++[privPort]) := by
  have hip := exact_of_eq (calcIpCksum_eq pubIpAddr privIpAddr)
  have htcp := exact_of_eq (calcTcpUdpCksum_eq pubIpAddr pubPort privIpAddr privPort)
  exact ⟨⟨hip,hip.isDelta⟩,htcp,htcp.isDelta⟩

end IpaNat
end MarbleModules
