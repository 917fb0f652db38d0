import MarbleModules.RingWindow

/-!
The ring context of `gsi.h` and the address arithmetic on it in `gsi.c`: rings of elements
between a base and an end address, with local read and write pointers that wrap at the end.
-/
namespace MarbleModules
namespace Gsi

open RingWindow

/-- Subtraction of two `uint64_t`. -/
def sub64 (a b : ℕ) : ℕ := (a+(2^64-b%2^64))%2^64

/-- `GSI_MSB_MASK`. -/
def msbMask : ℕ := 2^64-2^32

/-- `struct gsi_ring_ctx`. -/
structure Ring where
  base : ℕ
  wp : ℕ
  rp : ℕ
  wpLocal : ℕ
  rpLocal : ℕ
  len : ℕ
  elemSz : ℕ
  maxNumElem : ℕ
  endAddr : ℕ

/-- `gsi_init_chan_ring` and the ring part of `gsi_init_evt_ring`. -/
def initRing (ringBaseAddr ringLen reSize : ℕ) : Ring :=
  let maxNumElem := (ringLen/reSize+(2^16-1))%2^16
  { base := ringBaseAddr, wp := ringBaseAddr, rp := ringBaseAddr, wpLocal := ringBaseAddr,
    rpLocal := ringBaseAddr, len := ringLen, elemSz := reSize, maxNumElem := maxNumElem,
    endAddr := ringBaseAddr+(maxNumElem+1)*reSize }

/-- `gsi_incr_ring_wp`. -/
def incrRingWp (r : Ring) : Ring :=
  let wpLocal := r.wpLocal+r.elemSz
  {r with wpLocal := if wpLocal = r.endAddr then r.base else wpLocal}

/-- `gsi_incr_ring_rp`. -/
def incrRingRp (r : Ring) : Ring :=
  let rpLocal := r.rpLocal+r.elemSz
  {r with rpLocal := if rpLocal = r.endAddr then r.base else rpLocal}

/-- `gsi_find_idx_from_addr`. -/
def findIdxFromAddr (r : Ring) (addr : ℕ) : ℕ := sub64 addr r.base%2^32/r.elemSz%2^16

/-- `gsi_get_complete_num`, for addresses within the ring. -/
def getCompleteNum (r : Ring) (addr1 addr2 : ℕ) : ℕ :=
  let addrDiff := sub64 addr2 addr1%2^32
  if addr1 < addr2 then addrDiff/r.elemSz%2^16 else (addrDiff+r.len)%2^32/r.elemSz%2^16

/-- The read pointer the hardware reports, its upper half taken from the ring's. -/
def readRp (r : Ring) (reported : ℕ) : ℕ := (reported%2^32) ||| (r.rp &&& msbMask)

namespace Ring

/-- The elements of the ring. -/
def size (r : Ring) : ℕ := r.maxNumElem+1

/-- The address of a slot. -/
def addr (r : Ring) (i : ℕ) : ℕ := r.base+i*r.elemSz

/-- `(wp_local - rp_local)` in elements modulo the ring. -/
def used (r : Ring) : ℕ :=
  dist r.size (findIdxFromAddr r r.rpLocal) (findIdxFromAddr r r.wpLocal)

/-- What the checks on a ring's properties leave of its dimensions. -/
structure Wf (r : Ring) : Prop where
  elemSz : 0 < r.elemSz
  len : r.len = r.size*r.elemSz
  small : r.size < 2^16
  len32 : r.len < 2^32
  endAddr : r.endAddr = r.base+r.len
  fits : r.base+r.len < 2^64
  msb : r.base/2^32 = (r.base+r.len-1)/2^32

end Ring

/-- `gsi_validate_channel_props` on the ring: a whole number of elements, fewer than 64k, and
the upper half of an address fixed within the ring. -/
structure ValidRing (ringBaseAddr ringLen reSize : ℕ) : Prop where
  positive : 0 < reSize
  multiple : reSize ∣ ringLen
  nonempty : 0 < ringLen
  elements : ringLen/reSize < 2^16
  len32 : ringLen < 2^32
  fits : ringBaseAddr+ringLen < 2^64
  msb : ringBaseAddr/2^32 = (ringBaseAddr+ringLen-1)/2^32

instance (base len reSize : ℕ) : Decidable (ValidRing base len reSize) :=
  decidable_of_iff (0 < reSize ∧ reSize ∣ len ∧ 0 < len ∧ len/reSize < 2^16 ∧ len < 2^32 ∧
    base+len < 2^64 ∧ base/2^32 = (base+len-1)/2^32)
    ⟨fun ⟨h1,h2,h3,h4,h5,h6,h7⟩ => ⟨h1,h2,h3,h4,h5,h6,h7⟩,
      fun ⟨h1,h2,h3,h4,h5,h6,h7⟩ => ⟨h1,h2,h3,h4,h5,h6,h7⟩⟩

theorem initRing_wf {base len reSize : ℕ} (h : ValidRing base len reSize) :
    (initRing base len reSize).Wf := by
  have hpos : 0 < len/reSize := Nat.div_pos (Nat.le_of_dvd h.nonempty h.multiple) h.positive
  have hlt := h.elements
  have hmax : (len/reSize+(2^16-1))%2^16+1 = len/reSize := by omega
  have hlen : len = len/reSize*reSize := (Nat.div_mul_cancel h.multiple).symm
  refine ⟨h.positive,?_,?_,h.len32,?_,h.fits,h.msb⟩
  · simp only [initRing,Ring.size,hmax]
    exact hlen
  · simp only [initRing,Ring.size,hmax]
    exact hlt
  · simp only [initRing,hmax]
    omega

theorem sub64_of_le {a b : ℕ} (ha : a < 2^64) (h : b ≤ a) : sub64 a b = a-b := by
  rw [sub64,Nat.mod_eq_of_lt (by omega : b < 2^64)]
  have hsum : a+(2^64-b) = a-b+2^64 := by omega
  rw [hsum,Nat.add_mod_right,Nat.mod_eq_of_lt (by omega)]

theorem sub64_of_lt {a b : ℕ} (hb : b < 2^64) (h : a < b) : sub64 a b = 2^64-(b-a) := by
  rw [sub64,Nat.mod_eq_of_lt hb]
  have hsum : a+(2^64-b) = 2^64-(b-a) := by omega
  rw [hsum,Nat.mod_eq_of_lt (by omega)]

namespace Ring.Wf

variable {r : Ring} {i j k : ℕ}

theorem size_pos (r : Ring) : 0 < r.size := Nat.succ_pos _

theorem slot_le (h : r.Wf) (hi : i < r.size) : i*r.elemSz+r.elemSz ≤ r.len := by
  rw [h.len,← Nat.succ_mul]
  exact Nat.mul_le_mul_right _ hi

theorem addr_lt (h : r.Wf) (hi : i < r.size) : r.addr i < r.base+r.len := by
  have hle := h.slot_le hi
  have hpos := h.elemSz
  rw [Ring.addr]
  omega

theorem addr_inj (h : r.Wf) (hij : r.addr i = r.addr j) : i = j := by
  have hm : i*r.elemSz = j*r.elemSz := Nat.add_left_cancel hij
  exact Nat.eq_of_mul_eq_mul_right h.elemSz hm

theorem findIdx_addr (h : r.Wf) (hi : i < r.size) : findIdxFromAddr r (r.addr i) = i := by
  have hlt := h.addr_lt hi
  have hfit := h.fits
  have hlen := h.len32
  have hle := h.slot_le hi
  have hbase : r.base ≤ r.addr i := Nat.le_add_right _ _
  have hsub : sub64 (r.addr i) r.base = i*r.elemSz := by
    rw [sub64_of_le (by omega) hbase,Ring.addr,Nat.add_sub_cancel_left]
  have hsmall := h.small
  have hpos := h.elemSz
  have hmod : i*r.elemSz%2^32 = i*r.elemSz := Nat.mod_eq_of_lt (by omega)
  rw [findIdxFromAddr,hsub,hmod,Nat.mul_div_cancel _ hpos]
  exact Nat.mod_eq_of_lt (by omega)

/-- The elements from one slot forward to another. -/
theorem completeNum_addr (h : r.Wf) (hi : i < r.size) (hj : j < r.size) (hij : i ≠ j) :
    getCompleteNum r (r.addr i) (r.addr j) = dist r.size i j := by
  have hli := h.addr_lt hi
  have hlj := h.addr_lt hj
  have hfit := h.fits
  have hlen := h.len32
  have hpos := h.elemSz
  have hsmall := h.small
  have hlej := h.slot_le hj
  have hlei := h.slot_le hi
  rcases lt_or_gt_of_ne hij with hlt | hgt
  · have hm : i*r.elemSz < j*r.elemSz := Nat.mul_lt_mul_of_pos_right hlt hpos
    have hab : r.addr i < r.addr j := Nat.add_lt_add_left hm _
    have hdiff : r.addr j-r.addr i = (j-i)*r.elemSz := by
      rw [Nat.sub_mul,Ring.addr,Ring.addr]
      omega
    have hsub : sub64 (r.addr j) (r.addr i) = (j-i)*r.elemSz := by
      rw [sub64_of_le (by omega) (le_of_lt hab),hdiff]
    have hbound : (j-i)*r.elemSz < 2^32 := by
      rw [Nat.sub_mul]
      omega
    rw [getCompleteNum,if_pos hab,hsub,Nat.mod_eq_of_lt hbound,Nat.mul_div_cancel _ hpos,
      Nat.mod_eq_of_lt (by omega),dist_eq_of_le (le_of_lt hlt) hj]
  · have hm : j*r.elemSz < i*r.elemSz := Nat.mul_lt_mul_of_pos_right hgt hpos
    have hab : r.addr j < r.addr i := Nat.add_lt_add_left hm _
    have hdiff : r.addr i-r.addr j = (i-j)*r.elemSz := by
      rw [Nat.sub_mul,Ring.addr,Ring.addr]
      omega
    have hd : (i-j)*r.elemSz = i*r.elemSz-j*r.elemSz := Nat.sub_mul _ _ _
    have hsub : sub64 (r.addr j) (r.addr i) = 2^64-(i-j)*r.elemSz := by
      rw [sub64_of_lt (by omega) hab,hdiff]
    have hmul : (r.size-(i-j))*r.elemSz = r.len-(i-j)*r.elemSz := by
      rw [Nat.sub_mul,← h.len]
    have hsum : ((2^64-(i-j)*r.elemSz)%2^32+r.len)%2^32 = (r.size-(i-j))*r.elemSz := by
      rw [hmul]
      omega
    rw [getCompleteNum,if_neg (by omega),hsub,hsum,Nat.mul_div_cancel _ hpos,
      Nat.mod_eq_of_lt (by omega),dist_eq_of_lt hgt (le_of_lt hi)]

/-- The wrap at the end address is the wrap of the slots. -/
theorem next_addr (h : r.Wf) (k : ℕ) :
    (if r.addr (k%r.size)+r.elemSz = r.endAddr then r.base else r.addr (k%r.size)+r.elemSz) =
      r.addr ((k+1)%r.size) := by
  have hk : k%r.size < r.size := Nat.mod_lt _ (size_pos r)
  have hsucc : r.addr (k%r.size)+r.elemSz = r.addr (k%r.size+1) := by
    rw [Ring.addr,Ring.addr,Nat.succ_mul]
    omega
  have hend : r.endAddr = r.addr r.size := by rw [h.endAddr,Ring.addr,h.len]
  rw [slot_succ (size_pos r),hsucc,hend]
  by_cases hw : k%r.size+1 = r.size
  · rw [if_pos hw,if_pos (by rw [hw]),Ring.addr,Nat.zero_mul,Nat.add_zero]
  · rw [if_neg hw,if_neg fun he => hw (h.addr_inj he)]

theorem and_msbMask {a : ℕ} (ha : a < 2^64) : a &&& msbMask = a/2^32*2^32 := by
  apply Nat.eq_of_testBit_eq
  intro b
  have hmask : msbMask = (2^32-1)*2^32 := by decide
  rw [Nat.testBit_and,hmask,Nat.testBit_mul_two_pow,Nat.testBit_mul_two_pow,
    Nat.testBit_two_pow_sub_one,Nat.testBit_div_two_pow]
  by_cases hb : 32 ≤ b
  · have hadd : b-32+32 = b := by omega
    rw [hadd]
    by_cases hb64 : b < 64
    · simp [hb,show b-32 < 32 by omega]
    · have hz : a.testBit b = false := Nat.testBit_lt_two_pow (lt_of_lt_of_le ha
        (Nat.pow_le_pow_right (by decide) (by omega)))
      simp [hz]
  · simp [hb]

/-- The upper half of an address is the ring's, so the pointer read is the address reported. -/
theorem readRp_addr (h : r.Wf) (hi : i < r.size) (hj : j < r.size) (hrp : r.rp = r.addr j) :
    readRp r (r.addr i) = r.addr i := by
  have hmsb : ∀ m, m < r.size → r.addr m/2^32 = r.base/2^32 := by
    intro m hm
    have hlt := h.addr_lt hm
    have hlo : r.base/2^32 ≤ r.addr m/2^32 := Nat.div_le_div_right (Nat.le_add_right _ _)
    have hhi : r.addr m/2^32 ≤ (r.base+r.len-1)/2^32 := Nat.div_le_div_right (by omega)
    have := h.msb
    omega
  have hlt := h.addr_lt hj
  have hfit := h.fits
  rw [readRp,hrp,and_msbMask (by omega),hmsb j hj,← hmsb i hi,Nat.or_comm,Nat.mul_comm,
    ← Nat.two_pow_add_eq_or_of_lt (Nat.mod_lt _ (by decide))]
  exact Nat.div_add_mod _ _

end Ring.Wf

end Gsi
end MarbleModules
