import MarbleModules.RsnCursor

/-! What an accepted RSN element says: where its lists are, and that the sets the parser fills
hold the codes of their selectors. -/
namespace MarbleModules
namespace Rsn

/-- The selector at the start of some bytes. -/
def selector (l : List UInt8) : Option ℕ := if 4 ≤ l.length then some (leRead4 l) else none

/-- The selectors of a list that starts with its count. -/
def selectors (l : List UInt8) : List ℕ :=
  if 2 ≤ l.length then (List.range (leRead2 l)).map fun j => leRead4 (l.drop (2+4*j)) else []

def afterSelectors (l : List UInt8) : List UInt8 := l.drop (2+4*leRead2 l)

/-- The bytes of an element's content from each of its fields on. -/
def groupField (body : List UInt8) : List UInt8 := body.drop 2

def pairwiseField (body : List UInt8) : List UInt8 := (groupField body).drop 4

def akmField (body : List UInt8) : List UInt8 := afterSelectors (pairwiseField body)

def capsField (body : List UInt8) : List UInt8 := afterSelectors (akmField body)

def pmkidField (body : List UInt8) : List UInt8 := (capsField body).drop 2

def mgmtField (body : List UInt8) : List UInt8 :=
  (pmkidField body).drop (2+leRead2 (pmkidField body)*pmkidLen)

/-- The capabilities of the element, none of them when the field is absent. -/
def capsOf (body : List UInt8) : BitVec 16 :=
  if 2 ≤ (capsField body).length then BitVec.ofNat 16 (leRead2 (capsField body)) else 0

/-- Bit `i` is the code of a selector of the list, or the default of an empty list. -/
def FromList {α : Type} (val : α → ℕ) (cipher : ℕ → Option α) (ws : List ℕ) (d i : ℕ) : Prop :=
  (∃ w ∈ ws,∃ x,cipher w = some x ∧ val x = i) ∨ (ws = [] ∧ i = d)

/-- Every bit of the four sets comes from the list it belongs to. -/
structure Sound (body : List UInt8) (p : CryptoParams) : Prop where
  group : ∀ i,hasParam p.mcastcipherset i → FromList Cipher.val rsnSuiteToCipher
    (selector (groupField body)).toList Cipher.aesCcm.val i
  pairwise : ∀ i,hasParam p.ucastcipherset i → FromList Cipher.val rsnSuiteToCipher
    (selectors (pairwiseField body)) Cipher.aesCcm.val i
  akm : ∀ i,hasParam p.keyMgmt i → FromList KeyMgmt.val rsnSuiteToKeymgmt
    (selectors (akmField body)) KeyMgmt.ieee8021x.val i
  mgmt : ∀ i,hasParam p.mgmtcipherset i → FromList Cipher.val rsnSuiteToCipher
    (selector (mgmtField body)).toList Cipher.aesCmac.val i ∧
      (selector (mgmtField body) = none → mfpEnabled (capsOf body))

/-- What the parser has to do with the element at `frm`. -/
def Checked (frm : ℕ → UInt8) : Prop :=
  (∀ e ∈ (rsnieCheckAt frm).1,e.Fine (frm 1).toNat) ∧
    ∀ p,(rsnieCheckAt frm).2 = some p → Sound (content frm) p

/-- The list is complete, and is empty or has a known selector. -/
def Listed {α : Type} (cipher : ℕ → Option α) (l : List UInt8) : Prop :=
  2 ≤ l.length ∧ 2+4*leRead2 l ≤ l.length ∧
    (leRead2 l = 0 ∨ ∃ w ∈ selectors l,(cipher w).isSome)

/-- Every field of the content is there and acceptable up to the group management cipher, whose
selector is `w`. -/
structure Complete (body : List UInt8) (w : ℕ) : Prop where
  version : leRead2 body = rsnVersion
  group : ∃ g,selector (groupField body) = some g ∧ (rsnSuiteToCipher g).isSome
  pairwise : Listed rsnSuiteToCipher (pairwiseField body)
  akm : Listed rsnSuiteToKeymgmt (akmField body)
  caps : 2 ≤ (capsField body).length
  pmkid : 2 ≤ (pmkidField body).length
  mgmt : selector (mgmtField body) = some w

section Lists

variable {α : Type} {val : α → ℕ} {cipher : ℕ → Option α} {l : List UInt8} {s : BitVec 32}
  {d n i : ℕ}

/-- The bits a loop over a list adds are codes of selectors it met. -/
theorem readSuites_bits (h : hasParam (readSuites val cipher n s l).1 i) :
    hasParam s i ∨ ∃ j < n,∃ x,cipher (leRead4 (l.drop (4*j))) = some x ∧ val x = i := by
  induction n generalizing s l with
  | zero => exact .inl h
  | succ n ih =>
    rw [readSuites] at h
    rcases ih h with h | ⟨j,hj,x,hx,hv⟩
    · cases hc : cipher (leRead4 l) with
      | none =>
        rw [hc] at h
        exact .inl h
      | some x =>
        rw [hc] at h
        exact (hasParam_setParam h).imp id fun hv => ⟨0,Nat.succ_pos n,x,hc,hv⟩
    · have h4 : 4+4*j = 4*(j+1) := by omega
      rw [List.drop_drop,h4] at hx
      exact .inr ⟨j+1,Nat.succ_lt_succ hj,x,hx,hv⟩

theorem readSuites_drop : (readSuites val cipher n s l).2 = l.drop (4*n) := by
  induction n generalizing s l with
  | zero => rfl
  | succ n ih =>
    have h4 : 4+4*n = 4*(n+1) := by omega
    rw [readSuites,ih,List.drop_drop,h4]

theorem readSuites_mono (h : hasParam s i) : hasParam (readSuites val cipher n s l).1 i := by
  induction n generalizing s l with
  | zero => exact h
  | succ n ih =>
    rw [readSuites]
    apply ih
    cases cipher (leRead4 l) with
    | none => exact h
    | some x =>
      rw [hasParam,getLsbD_setParam]
      rw [hasParam] at h
      simp [h]

theorem readSuites_bit (hval : ∀ x,val x < 32) {j : ℕ} {x : α} (hj : j < n)
    (hx : cipher (leRead4 (l.drop (4*j))) = some x) :
    hasParam (readSuites val cipher n s l).1 (val x) := by
  induction n generalizing s l j with
  | zero => exact absurd hj (Nat.not_lt_zero j)
  | succ n ih =>
    rw [readSuites]
    cases j with
    | zero =>
      apply readSuites_mono
      rw [Nat.mul_zero,List.drop_zero] at hx
      rw [hx,hasParam,getLsbD_setParam]
      simp [hval x]
    | succ j =>
      have h4 : 4*(j+1) = 4+4*j := by omega
      apply ih (Nat.lt_of_succ_lt_succ hj)
      rw [List.drop_drop,← h4,hx]

/-- A known selector leaves its bit in the set. -/
theorem readSuites_ne_zero (hval : ∀ x,val x < 32) {j : ℕ} (hj : j < n)
    (hx : (cipher (leRead4 (l.drop (4*j)))).isSome) :
    (readSuites val cipher n s l).1 ≠ 0#32 := by
  obtain ⟨x,hx⟩ := Option.isSome_iff_exists.mp hx
  intro hz
  have hbit := readSuites_bit (s := s) hval hj hx
  rw [hz,hasParam_zero] at hbit
  cases hbit

theorem exists_known_of_ne_zero (h : (readSuites val cipher n 0#32 l).1 ≠ 0#32) :
    ∃ j < n,(cipher (leRead4 (l.drop (4*j)))).isSome := by
  by_contra hnone
  apply h
  apply BitVec.eq_of_getLsbD_eq
  intro i _
  rw [BitVec.getLsbD_zero,Bool.eq_false_iff]
  intro hbit
  rcases readSuites_bits hbit with hz | ⟨j,hj,x,hx,-⟩
  · rw [hasParam_zero] at hz
    cases hz
  · exact hnone ⟨j,hj,by rw [hx]; rfl⟩

theorem mem_selectors {w : ℕ} : w ∈ selectors l ↔
    2 ≤ l.length ∧ ∃ j < leRead2 l,w = leRead4 ((l.drop 2).drop (4*j)) := by
  rw [selectors]
  split
  · rename_i h2
    simp only [List.mem_map,List.mem_range,List.drop_drop,h2,true_and]
    exact exists_congr fun j => and_congr_right fun _ => eq_comm
  · rename_i h2
    exact iff_of_false List.not_mem_nil fun hh => h2 hh.1

/-- What the code does with a selector list and what follows it, `k`. -/
def stage (val : α → ℕ) (cipher : ℕ → Option α) (d : ℕ)
    (k : BitVec 32 → List UInt8 → Option CryptoParams) (l : List UInt8) : Option CryptoParams :=
  if l.length = 0 then k (setParam 0#32 d) []
  else if l.length < 2 then none
  else if leRead2 l ≠ 0 then
    if (l.drop 2).length < leRead2 l*4 then none
    else if (readSuites val cipher (leRead2 l) 0#32 (l.drop 2)).1 = 0#32 then none
    else k (readSuites val cipher (leRead2 l) 0#32 (l.drop 2)).1
      (readSuites val cipher (leRead2 l) 0#32 (l.drop 2)).2
  else k (setParam 0#32 d) (l.drop 2)

variable {k : BitVec 32 → List UInt8 → Option CryptoParams}

theorem fromList_default (hl : 2 ≤ l.length → leRead2 l = 0) (h : hasParam (setParam 0#32 d) i) :
    FromList val cipher (selectors l) d i := by
  refine .inr ⟨?_,?_⟩
  · rw [List.eq_nil_iff_forall_not_mem]
    intro w hw
    obtain ⟨h2,j,hj,-⟩ := mem_selectors.mp hw
    rw [hl h2] at hj
    exact Nat.not_lt_zero j hj
  · rcases hasParam_setParam h with hz | hv
    · rw [hasParam_zero] at hz
      cases hz
    · exact hv.symm

/-- A list that the code accepts fills the set from its selectors. -/
theorem stage_some {q : CryptoParams} (h : stage val cipher d k l = some q) :
    ∃ s,(∀ i,hasParam s i → FromList val cipher (selectors l) d i) ∧
      k s (afterSelectors l) = some q ∧
      (2 ≤ l.length → 2+4*leRead2 l ≤ l.length ∧
        (leRead2 l = 0 ∨ ∃ w ∈ selectors l,(cipher w).isSome)) := by
  rw [stage] at h
  split at h
  · rename_i h0
    obtain rfl := List.eq_nil_of_length_eq_zero h0
    exact ⟨_,fun i hi => fromList_default (fun h2 => absurd h2 (by decide)) hi,h,
      fun h2 => absurd h2 (by decide)⟩
  split at h
  · cases h
  rename_i h2
  split at h
  · split at h
    · cases h
    rename_i hfit
    split at h
    · cases h
    rename_i hne
    rw [List.length_drop] at hfit
    rw [readSuites_drop,List.drop_drop] at h
    refine ⟨_,fun i hi => ?_,h,fun _ => ⟨by omega,?_⟩⟩
    · rcases readSuites_bits hi with hz | ⟨j,hj,x,hx,hv⟩
      · rw [hasParam_zero] at hz
        cases hz
      · exact .inl ⟨_,mem_selectors.mpr ⟨not_lt.mp h2,j,hj,rfl⟩,x,hx,hv⟩
    · obtain ⟨j,hj,hx⟩ := exists_known_of_ne_zero hne
      exact .inr ⟨_,mem_selectors.mpr ⟨not_lt.mp h2,j,hj,rfl⟩,hx⟩
  · rename_i hn
    have hn0 : leRead2 l = 0 := not_not.mp hn
    refine ⟨_,fun i hi => fromList_default (fun _ => hn0) hi,?_,fun h2 => ⟨by omega,.inl hn0⟩⟩
    rw [afterSelectors,hn0]
    exact h

/-- A complete list with a known selector, or an empty one, is accepted. -/
theorem stage_listed (hval : ∀ x,val x < 32) (hl : Listed cipher l) :
    ∃ s,stage val cipher d k l = k s (afterSelectors l) := by
  obtain ⟨h2,hfit,hknown⟩ := hl
  rw [stage,if_neg (by omega),if_neg (by omega)]
  by_cases hn : leRead2 l = 0
  · rw [if_neg (not_not.mpr hn),afterSelectors,hn]
    exact ⟨_,rfl⟩
  · rw [if_pos hn,if_neg (by rw [List.length_drop]; omega)]
    obtain ⟨w,hw,hx⟩ := hknown.resolve_left hn
    obtain ⟨-,j,hj,rfl⟩ := mem_selectors.mp hw
    rw [if_neg (readSuites_ne_zero hval hj hx),readSuites_drop,List.drop_drop]
    exact ⟨_,rfl⟩

end Lists

theorem Cipher.val_lt (x : Cipher) : x.val < 32 := by
  cases x <;> decide

theorem KeyMgmt.val_lt (x : KeyMgmt) : x.val < 32 := by
  cases x <;> decide

theorem selector_some {l : List UInt8} {w : ℕ} (h : selector l = some w) :
    4 ≤ l.length ∧ leRead4 l = w := by
  rw [selector] at h
  split at h
  · rename_i h4
    exact ⟨h4,Option.some.inj h⟩
  · cases h

theorem setParam_self {s : BitVec 32} {v : ℕ} (hv : v < 32) : hasParam (setParam s v) v := by
  rw [hasParam,getLsbD_setParam]
  simp [hv]

theorem setParam_ne_zero {s : BitVec 32} {v : ℕ} (hv : v < 32) : setParam s v ≠ 0#32 := by
  intro hz
  have hbit := setParam_self (s := s) hv
  rw [hz,hasParam_zero] at hbit
  cases hbit

section Fields

variable {p q : CryptoParams} {l : List UInt8}

theorem checkUcast_eq (hu : p.ucastcipherset = 0#32) (l : List UInt8) :
    checkUcast p l = stage Cipher.val rsnSuiteToCipher Cipher.aesCcm.val
      (fun s l => checkKeyMgmt { p with ucastcipherset := s } l) l := by
  rw [checkUcast,stage,hu]
  rfl

theorem mfpEnabled_zero : mfpEnabled 0 = false := by decide

theorem checkCaps_nil (hm : mfpEnabled p.rsnCaps = false) : checkCaps p [] = some p := by
  simp [checkCaps,checkPmkid,checkMgmt,hm]

theorem checkKeyMgmt_eq (hk : p.keyMgmt = 0#32) (hm : mfpEnabled p.rsnCaps = false)
    (l : List UInt8) :
    checkKeyMgmt p l = stage KeyMgmt.val rsnSuiteToKeymgmt KeyMgmt.ieee8021x.val
      (fun s l => checkCaps { p with keyMgmt := s } l) l := by
  have hnil : checkCaps { p with keyMgmt := setParam 0#32 KeyMgmt.ieee8021x.val } [] = _ :=
    checkCaps_nil hm
  rw [checkKeyMgmt,stage,hk,hnil]

theorem checkCaps_some (hc : p.rsnCaps = 0) (h : checkCaps p l = some q) :
    checkPmkid { p with
      rsnCaps := if 2 ≤ l.length then BitVec.ofNat 16 (leRead2 l) else 0 } (l.drop 2) =
        some q := by
  rw [checkCaps] at h
  by_cases h2 : 2 ≤ l.length
  · rw [if_pos h2] at h ⊢
    exact h
  · rw [if_neg h2] at h ⊢
    split at h
    · cases h
    · rename_i h1
      obtain rfl := List.eq_nil_of_length_eq_zero (l := l) (by omega)
      rw [← hc]
      exact h

theorem checkPmkid_some (h : checkPmkid p l = some q) :
    checkMgmt p (l.drop (2+leRead2 l*pmkidLen)) = some q := by
  rw [checkPmkid] at h
  by_cases h2 : 2 ≤ l.length
  · rw [if_pos h2] at h
    dsimp only at h
    split at h
    · split at h
      · rw [List.drop_drop] at h
        exact h
      · cases h
    · split at h
      · cases h
      · rename_i hn hn'
        have hn0 : leRead2 l = 0 := by
          by_contra hne
          rcases Nat.eq_zero_or_pos (l.drop 2).length with hz | hz
          · exact hn' ⟨hne,hz⟩
          · exact hn ⟨hne,hz.ne'⟩
        rw [hn0]
        exact h
  · rw [if_neg h2] at h
    split at h
    · cases h
    · obtain rfl := List.eq_nil_of_length_eq_zero (l := l) (by omega)
      exact h

theorem checkPmkid_fits (h2 : 2 ≤ l.length) (h : 2+leRead2 l*pmkidLen < l.length) :
    checkPmkid p l = checkMgmt p (l.drop (2+leRead2 l*pmkidLen)) := by
  rw [checkPmkid,if_pos h2]
  dsimp only
  rw [List.length_drop,List.drop_drop]
  by_cases hn : leRead2 l = 0
  · rw [if_neg (fun hh => hh.1 hn),if_neg (fun hh => hh.1 hn),hn]
    rfl
  · rw [if_pos ⟨hn,by omega⟩,if_pos (by omega)]

theorem checkMcast_fits {g : ℕ} {x : Cipher} (hsel : selector l = some g)
    (hx : rsnSuiteToCipher g = some x) :
    checkMcast p l =
      checkUcast { p with mcastcipherset := setParam p.mcastcipherset x.val } (l.drop 4) := by
  obtain ⟨hlen,rfl⟩ := selector_some hsel
  rw [checkMcast,if_neg (by omega),if_neg (by omega),hx]
  exact if_neg (setParam_ne_zero x.val_lt)

theorem checkUcast_listed (hu : p.ucastcipherset = 0#32) (hl : Listed rsnSuiteToCipher l) :
    ∃ s,checkUcast p l = checkKeyMgmt { p with ucastcipherset := s } (afterSelectors l) := by
  rw [checkUcast_eq hu]
  exact stage_listed Cipher.val_lt hl

theorem checkKeyMgmt_listed (hk : p.keyMgmt = 0#32) (hm : mfpEnabled p.rsnCaps = false)
    (hl : Listed rsnSuiteToKeymgmt l) :
    ∃ s,checkKeyMgmt p l = checkCaps { p with keyMgmt := s } (afterSelectors l) := by
  rw [checkKeyMgmt_eq hk hm]
  exact stage_listed KeyMgmt.val_lt hl

theorem checkCaps_fits (h2 : 2 ≤ l.length) :
    checkCaps p l =
      checkPmkid { p with rsnCaps := BitVec.ofNat 16 (leRead2 l) } (l.drop 2) :=
  if_pos h2

theorem checkMgmt_fits {w : ℕ} (hsel : selector l = some w) :
    ∃ q,checkMgmt p l = some q ∧
      hasParam q.mgmtcipherset (match rsnSuiteToCipher w with
        | some x => x.val
        | none => 31) := by
  obtain ⟨hlen,rfl⟩ := selector_some hsel
  rw [checkMgmt,if_neg (by omega),if_neg (by omega)]
  refine ⟨_,rfl,setParam_self ?_⟩
  split
  · exact Cipher.val_lt _
  · decide

theorem checkMgmt_some (hz : p.mgmtcipherset = 0#32)
    (hk : ∀ w,selector l = some w → (rsnSuiteToCipher w).isSome) (h : checkMgmt p l = some q) :
    q = { p with mgmtcipherset := q.mgmtcipherset } ∧
      ∀ i,hasParam q.mgmtcipherset i →
        FromList Cipher.val rsnSuiteToCipher (selector l).toList Cipher.aesCmac.val i ∧
          (selector l = none → mfpEnabled p.rsnCaps) := by
  rw [checkMgmt] at h
  split at h
  · rename_i h0
    obtain rfl := List.eq_nil_of_length_eq_zero h0
    split at h
    · rename_i hm
      obtain rfl := Option.some.inj h
      refine ⟨rfl,fun i hi => ⟨.inr ⟨rfl,?_⟩,fun _ => hm⟩⟩
      rw [hz] at hi
      rcases hasParam_setParam hi with hi | hi
      · rw [hasParam_zero] at hi
        cases hi
      · exact hi.symm
    · obtain rfl := Option.some.inj h
      refine ⟨rfl,fun i hi => ?_⟩
      rw [hz,hasParam_zero] at hi
      cases hi
  · split at h
    · cases h
    · rename_i h4
      have hsel : selector l = some (leRead4 l) := if_pos (not_lt.mp h4)
      obtain ⟨x,hx⟩ := Option.isSome_iff_exists.mp (hk _ hsel)
      obtain rfl := Option.some.inj h
      refine ⟨rfl,fun i hi => ⟨.inl ⟨leRead4 l,by rw [hsel]; simp,x,hx,?_⟩,fun hn => ?_⟩⟩
      · rw [hz] at hi
        simp only [hx] at hi
        rcases hasParam_setParam hi with hi | hi
        · rw [hasParam_zero] at hi
          cases hi
        · exact hi
      · rw [hsel] at hn
        cases hn

theorem checkMcast_some (h : checkMcast p l = some q) (hz : p.mcastcipherset = 0#32) :
    ∃ s,(∀ i,hasParam s i → FromList Cipher.val rsnSuiteToCipher (selector l).toList
        Cipher.aesCcm.val i) ∧
      checkUcast { p with mcastcipherset := s } (l.drop 4) = some q ∧
      ∀ g,selector l = some g → (rsnSuiteToCipher g).isSome := by
  have honly : ∀ {v i : ℕ},hasParam (setParam 0#32 v) i → v = i := fun hi =>
    (hasParam_setParam hi).resolve_left (by rw [hasParam_zero]; decide)
  rw [checkMcast] at h
  split at h
  · rename_i h0
    obtain rfl := List.eq_nil_of_length_eq_zero h0
    rw [hz] at h
    exact ⟨setParam 0#32 Cipher.aesCcm.val,fun i hi => .inr ⟨rfl,(honly hi).symm⟩,h,
      fun g hg => by cases hg⟩
  split at h
  · cases h
  rename_i h4
  have hsel : selector l = some (leRead4 l) := if_pos (not_lt.mp h4)
  split at h
  · cases h
  · rename_i x hx
    dsimp only at h
    split at h
    · cases h
    · refine ⟨_,fun i hi => .inl ⟨leRead4 l,by rw [hsel]; simp,x,hx,?_⟩,h,fun g hg => ?_⟩
      · rw [hz] at hi
        exact honly hi
      · obtain rfl := Option.some.inj (hsel.symm.trans hg)
        rw [hx]
        rfl

end Fields

/-- The check of the content of an element. -/
def checkBody (body : List UInt8) : Option CryptoParams :=
  if body.length < 2 then none
  else if leRead2 body ≠ rsnVersion then none
  else checkMcast { zeroParams with authmodeset := setParam 0#32 authRsna } (body.drop 2)

/-- The pointer and the 8-bit length stay inside the content, and the result is that of the
parser of lists. -/
theorem rsnieCheckAt_agrees (frm : ℕ → UInt8) :
    Agrees (rsnieCheckAt frm) (checkBody (content frm)) (frm 1).toNat := by
  have hc : Cursor.At ⟨2,frm 1⟩ (frm 1).toNat := ⟨le_rfl,rfl⟩
  have hrest : content frm = rest frm ⟨2,frm 1⟩ := rfl
  have hlt : frm 1 < 2 ↔ (frm 1).toNat < 2 := UInt8.lt_iff_toNat_lt
  rw [rsnieCheckAt,checkBody,hrest,length_rest]
  dsimp only
  by_cases h2 : (frm 1).toNat < 2
  · rw [if_pos (hlt.mpr h2),if_pos h2]
    exact .nil
  · have hge : 2 ≤ (Cursor.mk 2 (frm 1)).len.toNat := not_lt.mp h2
    rw [if_neg (fun h => h2 (hlt.mp h)),if_neg h2,leRead2_rest hge,drop_rest hge]
    split
    · exact .one ⟨hc,hge,Nat.zero_le _⟩
    · exact (checkMcastAt_agrees (hc.move hge)).after
        (List.forall_mem_singleton.mpr (hc.fine hge))

variable {body : List UInt8} {p : CryptoParams}

/-- An accepted element with a known management cipher is sound. -/
theorem checkBody_sound (hk : ∀ w,Complete body w → (rsnSuiteToCipher w).isSome)
    (h : checkBody body = some p) : Sound body p := by
  rw [checkBody] at h
  split at h
  · cases h
  split at h
  · cases h
  rename_i hver
  obtain ⟨m,hm,h,hgroup⟩ := checkMcast_some h rfl
  rw [checkUcast_eq rfl] at h
  obtain ⟨u,hu,h,hulist⟩ := stage_some h
  rw [checkKeyMgmt_eq rfl mfpEnabled_zero] at h
  obtain ⟨a,ha,h,halist⟩ := stage_some h
  change checkCaps _ (capsField body) = some p at h
  have h := checkPmkid_some (checkCaps_some rfl h)
  have hmgmt : ∀ w,selector (mgmtField body) = some w → (rsnSuiteToCipher w).isSome := by
    intro w hw
    have hlen : 4 ≤ (mgmtField body).length := by
      rw [selector] at hw
      split at hw
      · assumption
      · cases hw
    -- a field that is there has all the others before it
    simp only [mgmtField,pmkidField,capsField,akmField,pairwiseField,groupField,afterSelectors,
      List.length_drop] at hlen
    refine hk w ⟨not_not.mp hver,?_,?_,?_,?_,?_,hw⟩
    · have hsel : selector (groupField body) = some (leRead4 (groupField body)) :=
        if_pos (by rw [groupField,List.length_drop]; omega)
      exact ⟨_,hsel,hgroup _ hsel⟩
    · have h2 : 2 ≤ (pairwiseField body).length := by
        simp only [pairwiseField,groupField,List.length_drop]
        omega
      exact ⟨h2,hulist h2⟩
    · have h2 : 2 ≤ (akmField body).length := by
        simp only [akmField,pairwiseField,groupField,afterSelectors,List.length_drop]
        omega
      exact ⟨h2,halist h2⟩
    · simp only [capsField,akmField,pairwiseField,groupField,afterSelectors,List.length_drop]
      omega
    · simp only [pmkidField,capsField,akmField,pairwiseField,groupField,afterSelectors,
        List.length_drop]
      omega
  obtain ⟨hq,hbits⟩ := checkMgmt_some rfl hmgmt h
  dsimp only at hbits
  rw [hq]
  exact ⟨hm,hu,ha,hbits⟩

/-- An element that is complete up to its management cipher is accepted, with the bit the
selector leads to. -/
theorem checkBody_complete {w : ℕ} (h : Complete body w) :
    ∃ p,checkBody body = some p ∧
      hasParam p.mgmtcipherset (match rsnSuiteToCipher w with
        | some x => x.val
        | none => 31) := by
  obtain ⟨g,hg,hknown⟩ := h.group
  obtain ⟨x,hx⟩ := Option.isSome_iff_exists.mp hknown
  have hglen := (selector_some hg).1
  have hmlen := (selector_some h.mgmt).1
  have hblen : ¬body.length < 2 := by
    simp only [groupField,List.length_drop] at hglen
    omega
  simp only [mgmtField,List.length_drop] at hmlen
  rw [checkBody,if_neg hblen,if_neg (not_not.mpr h.version)]
  have hmcast := checkMcast_fits
    (p := { zeroParams with authmodeset := setParam 0#32 authRsna }) hg hx
  obtain ⟨u,hucast⟩ := checkUcast_listed
    (p := ⟨setParam 0#32 authRsna,0,setParam 0#32 x.val,0,0,0⟩) rfl h.pairwise
  obtain ⟨a,hakm⟩ := checkKeyMgmt_listed
    (p := ⟨setParam 0#32 authRsna,u,setParam 0#32 x.val,0,0,0⟩) rfl mfpEnabled_zero h.akm
  have hcaps := checkCaps_fits
    (p := ⟨setParam 0#32 authRsna,u,setParam 0#32 x.val,0,a,0⟩) h.caps
  have hpmkid := checkPmkid_fits (p := ⟨setParam 0#32 authRsna,u,setParam 0#32 x.val,0,a,
    BitVec.ofNat 16 (leRead2 (capsField body))⟩) h.pmkid (by omega)
  obtain ⟨q,hq,hbit⟩ := checkMgmt_fits (p := ⟨setParam 0#32 authRsna,u,setParam 0#32 x.val,0,a,
    BitVec.ofNat 16 (leRead2 (capsField body))⟩) h.mgmt
  exact ⟨q,hmcast.trans (hucast.trans (hakm.trans (hcaps.trans (hpmkid.trans hq)))),hbit⟩

/-- The parser reads and steps within the content for every element, and what it returns is
sound exactly when an element that is complete up to it has a known management cipher. -/
theorem rsnie_checked_iff (frm : ℕ → UInt8) :
    Checked frm ↔ ∀ w,Complete (content frm) w → (rsnSuiteToCipher w).isSome := by
  obtain ⟨hres,hfine⟩ := rsnieCheckAt_agrees frm
  constructor
  · intro h w hw
    obtain ⟨p,hp,hbit⟩ := checkBody_complete hw
    have hmgmt := ((h.2 p (hres.trans hp)).mgmt _ hbit).1
    rw [hw.mgmt] at hmgmt
    rcases hmgmt with ⟨v,hv,x,hx,-⟩ | ⟨hnil,-⟩
    · obtain rfl : v = w := by simpa using hv
      rw [hx]
      rfl
    · cases hnil
  · intro hk
    exact ⟨hfine,fun p hp => checkBody_sound hk (hres.symm.trans hp)⟩

/-- CCMP for the group, empty pairwise and AKM lists, no capabilities, no PMKIDs and the group
management selector `00-0f-ac-07`. -/
def unknownMgmt (i : ℕ) : UInt8 :=
  [0x30,18,1,0,0,0x0f,0xac,4,0,0,0,0,0,0,0,0,0,0x0f,0xac,7].getD i 0

theorem not_checked_unknownMgmt : ¬Checked unknownMgmt := by
  intro h
  have hres : (rsnieCheckAt unknownMgmt).2 =
      some ⟨BitVec.ofNat 32 (2^authRsna),8#32,8#32,0x80000000#32,1#32,0⟩ := by decide
  have hbit : hasParam 0x80000000#32 31 := by decide
  have hsel : selector (mgmtField (content unknownMgmt)) = some (rsnSel 7) := by decide
  have hmgmt := ((h.2 _ hres).mgmt 31 hbit).1
  rw [hsel] at hmgmt
  rcases hmgmt with ⟨w,hw,x,hx,-⟩ | ⟨hnil,-⟩
  · obtain rfl : w = rsnSel 7 := by simpa using hw
    have hnone : rsnSuiteToCipher (rsnSel 7) = none := by decide
    rw [hnone] at hx
    cases hx
  · cases hnil

end Rsn
end MarbleModules
