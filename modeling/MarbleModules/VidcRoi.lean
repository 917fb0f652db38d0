import Mathlib

/-! The encoder's input metadata buffer and the room it leaves for the region of interest map,
which holds two bytes for each coding block of a frame. -/
namespace MarbleModules
namespace VidcRoi

/-- `V4L2_PIX_FMT_HEVC` -/
def v4l2PixFmtHevc : UInt32 := 0x43564548

/-- What the size depends on in `struct msm_vidc_inst`: the value of `META_ROI_INFO`, when there
are capabilities, the pixel format of the output port and the size of the input port. -/
structure Inst where
  metaRoiInfo : Option Int32
  pixelformat : UInt32
  width : UInt32
  height : UInt32

/-- The loop of `ROI_METADATA_SIZE`, on the block size and the shift. -/
def shiftOut (lcuSize nShift : UInt32) : UInt32 × UInt32 :=
  if h : lcuSize ≠ 0 ∧ lcuSize &&& 1 = 0 then shiftOut (lcuSize >>> 1) (nShift+1)
  else (lcuSize,nShift)
termination_by lcuSize.toNat
decreasing_by
  have hne : lcuSize.toNat ≠ 0 := fun hz => h.1 (UInt32.toNat_inj.mp hz)
  simp only [UInt32.toNat_shiftRight]
  have hone : (1 : UInt32).toNat%32 = 1 := rfl
  rw [hone,Nat.shiftRight_eq_div_pow]
  omega

/-- `ROI_METADATA_SIZE` -/
def roiMetadataSize (width height lcuSize : UInt32) : UInt32 :=
  let out := shiftOut lcuSize 0
  let lcuWidth := (width+(out.1-1)) >>> out.2
  let lcuHeight := (height+(out.1-1)) >>> out.2
  (((lcuWidth+7) >>> 3) <<< 3)*lcuHeight*2

/-- `ALIGN(x, SZ_4K)` -/
def align4K (x : UInt32) : UInt32 := (x+4095) &&& ~~~4095

def lcuSizeOf (inst : Inst) : UInt32 := if inst.pixelformat = v4l2PixFmtHevc then 32 else 16

/-- `msm_vidc_encoder_input_meta_size`; `none` is a NULL instance. -/
def encoderInputMetaSize : Option Inst → UInt32
  | none => 0
  | some inst =>
    match inst.metaRoiInfo with
    | none => 0
    | some roi =>
      if roi ≠ 0 then
        align4K (align4K (16*1024)+
          roiMetadataSize inst.width inst.height (lcuSizeOf inst))
      else align4K (16*1024)

/-- The number of blocks of `lcu` pixels that cover `n` pixels. -/
def blocks (n lcu : ℕ) : ℕ := (n+lcu-1)/lcu

def roundup8 (n : ℕ) : ℕ := (n+7)/8*8

/-- The bytes of a map with an entry for each block of the frame. -/
def roiBytes (width height lcu : ℕ) : ℕ :=
  2*(roundup8 (blocks width lcu)*blocks height lcu)

/-- The computed size is enough for the map, and the buffer of every encoder with these
dimensions and this block size leaves room for it after the other 16K. -/
def LeavesRoom (width height : UInt32) (k : ℕ) : Prop :=
  roiBytes width.toNat height.toNat (2^k) ≤
      (roiMetadataSize width height (UInt32.ofNat (2^k))).toNat ∧
    ∀ inst roi,inst.metaRoiInfo = some roi → roi ≠ 0 → inst.width = width →
      inst.height = height → lcuSizeOf inst = UInt32.ofNat (2^k) →
      16*1024+roiBytes width.toNat height.toNat (2^k) ≤
        (encoderInputMetaSize (some inst)).toNat

/-- No partial block needs an entry of its own, and the size is a 32-bit number. -/
def WholeBlocks (width height lcu : ℕ) : Prop :=
  (width = 0 ∨ height = 0 ∨ (lcu ∣ height ∧ (lcu ∣ width ∨ ¬8 ∣ width/lcu))) ∧
    2*(roundup8 (width/lcu)*(height/lcu)) < 2^32

theorem blocks_eq_div {n lcu : ℕ} (hl : 0 < lcu) (hd : lcu ∣ n) : blocks n lcu = n/lcu := by
  obtain ⟨m,rfl⟩ := hd
  have hh : lcu*m+lcu-1 = (lcu-1)+lcu*m := by omega
  rw [blocks,hh,Nat.add_mul_div_left _ _ hl,Nat.div_eq_of_lt (by omega),Nat.zero_add,
    Nat.mul_div_cancel_left _ hl]

theorem blocks_eq_succ {n lcu : ℕ} (hl : 0 < lcu) (hd : ¬lcu ∣ n) :
    blocks n lcu = n/lcu+1 := by
  have hmod : n%lcu ≠ 0 := fun hz => hd (Nat.dvd_of_mod_eq_zero hz)
  have hlt := Nat.mod_lt n hl
  have hn := Nat.div_add_mod n lcu
  have hh : n+lcu-1 = (n%lcu-1)+lcu*(n/lcu+1) := by
    rw [Nat.mul_add,Nat.mul_one]
    omega
  rw [blocks,hh,Nat.add_mul_div_left _ _ hl,Nat.div_eq_of_lt (by omega),Nat.zero_add]

theorem div_le_blocks {n lcu : ℕ} (hl : 0 < lcu) : n/lcu ≤ blocks n lcu := by
  by_cases hd : lcu ∣ n
  · exact (blocks_eq_div hl hd).ge
  · rw [blocks_eq_succ hl hd]
    omega

theorem blocks_pos {n lcu : ℕ} (hl : 0 < lcu) (hn : n ≠ 0) : 0 < blocks n lcu :=
  Nat.div_pos (by omega) hl

@[simp] theorem blocks_zero {lcu : ℕ} (hl : 0 < lcu) : blocks 0 lcu = 0 :=
  Nat.div_eq_of_lt (by omega)

theorem roundup8_mono {a b : ℕ} (hab : a ≤ b) : roundup8 a ≤ roundup8 b := by
  simp only [roundup8]
  omega

theorem roundup8_succ_eq_iff (n : ℕ) : roundup8 (n+1) = roundup8 n ↔ ¬8 ∣ n := by
  simp only [roundup8]
  omega

/-- Rounding up hides a partial block unless the whole blocks fill the row exactly. -/
theorem roundup8_blocks_eq_iff {n lcu : ℕ} (hl : 0 < lcu) :
    roundup8 (blocks n lcu) = roundup8 (n/lcu) ↔ lcu ∣ n ∨ ¬8 ∣ n/lcu := by
  by_cases hd : lcu ∣ n
  · rw [blocks_eq_div hl hd]
    exact iff_of_true rfl (.inl hd)
  · rw [blocks_eq_succ hl hd,roundup8_succ_eq_iff]
    simp only [hd,false_or]

theorem blocks_eq_div_iff {n lcu : ℕ} (hl : 0 < lcu) : blocks n lcu = n/lcu ↔ lcu ∣ n := by
  refine ⟨fun hh => ?_,blocks_eq_div hl⟩
  by_contra hd
  have := blocks_eq_succ hl hd
  omega

theorem mul_le_mul_iff_eq {a a' b b' : ℕ} (ha : a ≤ a') (hb : b ≤ b') (ha' : 0 < a')
    (hb' : 0 < b') : a'*b' ≤ a*b ↔ a' = a ∧ b' = b := by
  constructor
  · intro hle
    have haa : ¬a < a' := fun hlt =>
      absurd ((Nat.mul_le_mul_left a hb).trans_lt (Nat.mul_lt_mul_of_pos_right hlt hb')) (by omega)
    have hbb : ¬b < b' := fun hlt =>
      absurd ((Nat.mul_le_mul_right b ha).trans_lt (Nat.mul_lt_mul_of_pos_left hlt ha')) (by omega)
    exact ⟨by omega,by omega⟩
  · rintro ⟨rfl,rfl⟩
    exact le_rfl

/-- A map over the whole blocks is as large as one over all the blocks. -/
theorem roiBytes_le_floor_iff {lcu : ℕ} (hl : 0 < lcu) (width height : ℕ) :
    roiBytes width height lcu ≤ 2*(roundup8 (width/lcu)*(height/lcu)) ↔
      width = 0 ∨ height = 0 ∨ (lcu ∣ height ∧ (lcu ∣ width ∨ ¬8 ∣ width/lcu)) := by
  by_cases hw : width = 0
  · subst hw
    exact iff_of_true (by simp [roiBytes,blocks_zero hl,roundup8]) (.inl rfl)
  by_cases hh : height = 0
  · subst hh
    exact iff_of_true (by simp [roiBytes,blocks_zero hl]) (.inr (.inl rfl))
  have hrow : 0 < roundup8 (blocks width lcu) := by
    have := blocks_pos hl hw
    simp only [roundup8]
    omega
  have hle := mul_le_mul_iff_eq (roundup8_mono (div_le_blocks hl (n := width)))
    (div_le_blocks hl (n := height)) hrow (blocks_pos hl hh)
  rw [roiBytes,Nat.mul_le_mul_left_iff (by omega),hle,roundup8_blocks_eq_iff hl,
    blocks_eq_div_iff hl]
  simp only [hw,hh,false_or,and_comm]

theorem and_one_eq_zero_iff (x : UInt32) : x &&& 1 = 0 ↔ x.toNat%2 = 0 := by
  rw [← UInt32.toNat_inj,UInt32.toNat_and]
  exact iff_of_eq (congrArg (· = 0) (Nat.and_one_is_mod x.toNat))

/-- The loop takes every factor of two out of the block size and leaves 1. -/
theorem shiftOut_two_pow (k : ℕ) (hk : k < 32) (nShift : UInt32) :
    shiftOut (UInt32.ofNat (2^k)) nShift = (1,nShift+UInt32.ofNat k) := by
  induction k generalizing nShift with
  | zero =>
    rw [shiftOut,dif_neg (by decide)]
    simp
  | succ k ih =>
    have hlt : 2^(k+1) < 2^32 := Nat.pow_lt_pow_right (by omega) hk
    have hto : (UInt32.ofNat (2^(k+1))).toNat = 2^(k+1) := UInt32.toNat_ofNat_of_lt' hlt
    have hpos : 0 < 2^k := Nat.two_pow_pos k
    have hgo : UInt32.ofNat (2^(k+1)) ≠ 0 ∧ UInt32.ofNat (2^(k+1)) &&& 1 = 0 := by
      constructor
      · intro hz
        have := congrArg UInt32.toNat hz
        rw [hto] at this
        change 2^(k+1) = 0 at this
        omega
      · rw [and_one_eq_zero_iff,hto]
        omega
    have hhalf : UInt32.ofNat (2^(k+1)) >>> 1 = UInt32.ofNat (2^k) := by
      rw [← UInt32.toNat_inj,UInt32.toNat_shiftRight,hto,
        UInt32.toNat_ofNat_of_lt' (by change 2^k < 2^32; omega)]
      change 2^(k+1) >>> 1 = 2^k
      rw [Nat.shiftRight_eq_div_pow]
      omega
    rw [shiftOut,dif_pos hgo,hhalf,ih (by omega)]
    have hadd : UInt32.ofNat (k+1) = UInt32.ofNat k+1 := by simp
    rw [hadd,UInt32.add_assoc,UInt32.add_comm 1]

/-- The block size is 1 by the time it is used to round up, so the code rounds down. -/
theorem roi_toNat {k : ℕ} (hk : k < 32) (width height : UInt32) :
    (roiMetadataSize width height (UInt32.ofNat (2^k))).toNat =
      (width.toNat/2^k+7)%2^32/8*8*(height.toNat/2^k)*2%2^32 := by
  have hkn : (UInt32.ofNat k).toNat%32 = k := by
    rw [UInt32.toNat_ofNat_of_lt' (by change k < 2^32; omega)]
    omega
  have hone : (1 : UInt32)-1 = 0 := rfl
  simp only [roiMetadataSize,shiftOut_two_pow k hk,hone,UInt32.zero_add,UInt32.add_zero,
    UInt32.toNat_mul,UInt32.toNat_shiftLeft,UInt32.toNat_shiftRight,UInt32.toNat_add,hkn]
  have h3 : UInt32.toNat 3%32 = 3 := rfl
  have h7 : UInt32.toNat 7 = 7 := rfl
  have h2 : UInt32.toNat 2 = 2 := rfl
  rw [h3,h7,h2,Nat.shiftRight_eq_div_pow,Nat.shiftRight_eq_div_pow,Nat.shiftRight_eq_div_pow,
    Nat.shiftLeft_eq]
  simp only [Nat.mod_mul_mod]

theorem roi_eq_of_lt {k : ℕ} (hk : k < 32) (width height : UInt32)
    (hlt : 2*(roundup8 (width.toNat/2^k)*(height.toNat/2^k)) < 2^32) :
    (roiMetadataSize width height (UInt32.ofNat (2^k))).toNat =
      2*(roundup8 (width.toNat/2^k)*(height.toNat/2^k)) := by
  rw [roi_toNat hk]
  rcases Nat.eq_zero_or_pos (height.toNat/2^k) with hz | hpos
  · rw [hz]
    simp only [Nat.mul_zero,Nat.zero_mul,Nat.zero_mod]
  · have hrow : roundup8 (width.toNat/2^k) ≤ roundup8 (width.toNat/2^k)*(height.toNat/2^k) :=
      Nat.le_mul_of_pos_right _ hpos
    have hfit : width.toNat/2^k+7 < 2^32 := by
      simp only [roundup8] at hrow hlt
      omega
    rw [Nat.mod_eq_of_lt hfit,Nat.mul_comm _ 2]
    exact Nat.mod_eq_of_lt hlt

theorem roiBytes_le_iff {k : ℕ} (hk : k < 32) (width height : UInt32) :
    roiBytes width.toNat height.toNat (2^k) ≤
        (roiMetadataSize width height (UInt32.ofNat (2^k))).toNat ↔
      WholeBlocks width.toNat height.toNat (2^k) := by
  have hl : 0 < 2^k := Nat.two_pow_pos k
  by_cases hlt : 2*(roundup8 (width.toNat/2^k)*(height.toNat/2^k)) < 2^32
  · rw [roi_eq_of_lt hk _ _ hlt,roiBytes_le_floor_iff hl]
    exact ⟨fun hh => ⟨hh,hlt⟩,And.left⟩
  · refine iff_of_false (fun hle => ?_) (fun hh => hlt hh.2)
    have hge : 2*(roundup8 (width.toNat/2^k)*(height.toNat/2^k)) ≤
        roiBytes width.toNat height.toNat (2^k) :=
      Nat.mul_le_mul_left 2 (Nat.mul_le_mul (roundup8_mono (div_le_blocks hl))
        (div_le_blocks hl))
    have := (roiMetadataSize width height (UInt32.ofNat (2^k))).toNat_lt
    omega

theorem clear_add_keep (x m : UInt32) : (x &&& ~~~m)+(x &&& m) = x := by
  have hdisj : (x &&& ~~~m).toBitVec &&& (x &&& m).toBitVec = 0 := by
    ext i hi
    simp
    grind
  apply UInt32.toBitVec_inj.mp
  rw [UInt32.toBitVec_add,BitVec.add_eq_or_of_and_eq_zero _ _ hdisj]
  ext i hi
  simp
  grind

theorem le_align4K (x : UInt32) (hx : x.toNat+4095 < 2^32) : x.toNat ≤ (align4K x).toNat := by
  have hsum : (x+4095).toNat = x.toNat+4095 := by
    rw [UInt32.toNat_add]
    exact Nat.mod_eq_of_lt hx
  have hlow : ((x+4095) &&& 4095).toNat ≤ 4095 := by
    rw [UInt32.toNat_and]
    exact Nat.and_le_right
  have hsplit := congrArg UInt32.toNat (clear_add_keep (x+4095) 4095)
  rw [UInt32.toNat_add,hsum] at hsplit
  have hmod := Nat.mod_le ((x+4095 &&& ~~~4095).toNat+(x+4095 &&& 4095).toNat) (2^32)
  rw [align4K]
  omega

theorem lcuSizeOf_eq {inst : Inst} {k : ℕ} (hk : k < 32)
    (hh : lcuSizeOf inst = UInt32.ofNat (2^k)) : k = 4 ∨ k = 5 := by
  have hto := congrArg UInt32.toNat hh
  rw [UInt32.toNat_ofNat_of_lt' (Nat.pow_lt_pow_right (by omega) hk)] at hto
  rw [lcuSizeOf] at hto
  split at hto
  · exact .inr (Nat.pow_right_injective le_rfl hto.symm)
  · exact .inl (Nat.pow_right_injective le_rfl hto.symm)

/-- With blocks of at least 16 pixels a map over the whole blocks stays far below 2^32. -/
theorem floorBytes_le {lcu width height : ℕ} (hl : 16 ≤ lcu) (hprod : width*height < 2^31) :
    2*(roundup8 (width/lcu)*(height/lcu)) ≤ 2^31 := by
  have hw : width/lcu*16 ≤ width :=
    (Nat.mul_le_mul_left _ hl).trans (Nat.div_mul_le_self width lcu)
  have hh : height/lcu*16 ≤ height :=
    (Nat.mul_le_mul_left _ hl).trans (Nat.div_mul_le_self height lcu)
  rcases Nat.eq_zero_or_pos (width/lcu) with hz | hpos
  · rw [hz]
    simp [roundup8]
  · have hmul := Nat.mul_le_mul hw hh
    have hrow : roundup8 (width/lcu) ≤ 8*(width/lcu) := by
      simp only [roundup8]
      omega
    have hgrow := Nat.mul_le_mul_right (height/lcu) hrow
    have hassoc : 8*(width/lcu)*(height/lcu) = 8*(width/lcu*(height/lcu)) := Nat.mul_assoc _ _ _
    have hsq : width/lcu*16*(height/lcu*16) = 256*(width/lcu*(height/lcu)) := by ring
    omega

/-- The size is enough exactly when rounding down loses no block that needs an entry. -/
theorem leavesRoom_iff (width height : UInt32) (k : ℕ) (hk : k < 32)
    (hprod : width.toNat*height.toNat < 2^31) :
    LeavesRoom width height k ↔ WholeBlocks width.toNat height.toNat (2^k) := by
  rw [← roiBytes_le_iff hk]
  refine ⟨And.left,fun hle => ⟨hle,?_⟩⟩
  rintro inst roi hroi hne rfl rfl hlcu
  have hl : 16 ≤ 2^k := by
    rcases lcuSizeOf_eq hk hlcu with rfl | rfl <;> decide
  have hbase : align4K (16*1024) = 16384 := by decide
  have hcap := floorBytes_le hl hprod
  have hsize := roi_eq_of_lt hk inst.width inst.height (by omega)
  have hsum : (16384+roiMetadataSize inst.width inst.height (UInt32.ofNat (2^k))).toNat =
      16384+(roiMetadataSize inst.width inst.height (UInt32.ofNat (2^k))).toNat := by
    rw [UInt32.toNat_add]
    exact Nat.mod_eq_of_lt (by rw [hsize]; change 16384+_ < 2^32; omega)
  have hroom := le_align4K (16384+roiMetadataSize inst.width inst.height (UInt32.ofNat (2^k)))
    (by rw [hsum,hsize]; omega)
  simp only [encoderInputMetaSize,hroi,if_pos hne,hbase,hlcu]
  rw [hsum] at hroom
  omega

theorem leavesRoom_1920_1088 : LeavesRoom 1920 1088 4 :=
  (leavesRoom_iff 1920 1088 4 (by decide) (by decide)).mpr
    ⟨.inr (.inr (by decide)),by decide⟩

/-- A frame of 128 by 64 and a half blocks of 16: the last 128 blocks have no entries. -/
theorem not_leavesRoom_2048_1032 :
    (2048 : UInt32).toNat*(1032 : UInt32).toNat < 2^31 ∧ ¬LeavesRoom 2048 1032 4 ∧
      roiMetadataSize 2048 1032 16 = 16384 ∧ roiBytes 2048 1032 16 = 16640 ∧
      encoderInputMetaSize (some ⟨some 1,0,2048,1032⟩) = 32768 := by
  have hroi : roiMetadataSize 2048 1032 16 = 16384 := by
    rw [← UInt32.toNat_inj]
    exact (roi_toNat (k := 4) (by decide) 2048 1032).trans (by decide)
  have hbytes : roiBytes 2048 1032 16 = 16640 := by decide
  refine ⟨by decide,fun hh => ?_,hroi,hbytes,?_⟩
  · have hle := hh.1
    change roiBytes 2048 1032 16 ≤ (roiMetadataSize 2048 1032 16).toNat at hle
    rw [hroi,hbytes] at hle
    exact absurd hle (by decide)
  · have hlcu : lcuSizeOf ⟨some 1,0,2048,1032⟩ = 16 := by decide
    simp only [encoderInputMetaSize,hlcu,hroi]
    decide

end VidcRoi
end MarbleModules
