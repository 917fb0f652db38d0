import MarbleModules.RsnElement
import MarbleModules.RsnRoundTrip

/-! The parser of the RSN element with the pointer and the 8-bit remaining length it keeps, and
every read and step it makes. -/
namespace MarbleModules
namespace Rsn

/-- `frm`, as an offset into the element, and `len`. -/
structure Cursor where
  pos : ℕ
  len : UInt8

/-- `frm += k, len -= k` -/
def Cursor.move (c : Cursor) (k : ℕ) : Cursor := ⟨c.pos+k,c.len-UInt8.ofNat k⟩

/-- Where the parser stands, how many bytes it reads there and how many it then steps over. -/
structure Event where
  cursor : Cursor
  reads : ℕ
  moves : ℕ

abbrev Parsed := List Event × Option CryptoParams

def Parsed.after (r : Parsed) (events : List Event) : Parsed := (events++r.1,r.2)

variable (frm : ℕ → UInt8)

/-- `LE_READ_2` and `LE_READ_4` -/
def readAt (c : Cursor) (n : ℕ) : ℕ := leVal ((List.range n).map fun i => frm (c.pos+i))

/-- The loops over the selectors of a list. -/
def readSuitesAt {α : Type} (val : α → ℕ) (cipher : ℕ → Option α) :
    ℕ → BitVec 32 → Cursor → List Event × BitVec 32 × Cursor
  | 0,s,c => ([],s,c)
  | n+1,s,c =>
    let s := match cipher (readAt frm c 4) with
      | some x => setParam s (val x)
      | none => s
    let r := readSuitesAt val cipher n s (c.move 4)
    (⟨c,4,4⟩::r.1,r.2)

def checkMgmtAt (p : CryptoParams) (c : Cursor) : Parsed :=
  if c.len = 0 then
    ([],if mfpEnabled p.rsnCaps then
      some { p with mgmtcipherset := setParam p.mgmtcipherset Cipher.aesCmac.val }
    else some p)
  else if c.len < 4 then ([],none)
  else
    let w := match rsnSuiteToCipher (readAt frm c 4) with
      | some x => x.val
      -- the shift by -1, which the machine takes modulo 32
      | none => 31
    ([⟨c,4,4⟩],some { p with mgmtcipherset := setParam p.mgmtcipherset w })

def checkPmkidAt (p : CryptoParams) (c : Cursor) : Parsed :=
  if 2 ≤ c.len then
    let n := readAt frm c 2
    let d := c.move 2
    if n ≠ 0 ∧ d.len ≠ 0 then
      if n*pmkidLen ≤ d.len.toNat then
        (checkMgmtAt frm p (d.move (n*pmkidLen))).after [⟨c,2,2⟩,⟨d,0,n*pmkidLen⟩]
      else ([⟨c,2,2⟩],none)
    else if n ≠ 0 ∧ d.len = 0 then ([⟨c,2,2⟩],none)
    else (checkMgmtAt frm p d).after [⟨c,2,2⟩]
  else if c.len = 1 then ([],none)
  else checkMgmtAt frm p c

def checkCapsAt (p : CryptoParams) (c : Cursor) : Parsed :=
  if 2 ≤ c.len then
    (checkPmkidAt frm { p with rsnCaps := BitVec.ofNat 16 (readAt frm c 2) } (c.move 2)).after
      [⟨c,2,2⟩]
  else if c.len ≠ 0 ∧ c.len < 2 then ([],none)
  else checkPmkidAt frm p c

def checkKeyMgmtAt (p : CryptoParams) (c : Cursor) : Parsed :=
  if c.len = 0 then
    ([],some { p with keyMgmt := setParam p.keyMgmt KeyMgmt.ieee8021x.val })
  else if c.len < 2 then ([],none)
  else
    let n := readAt frm c 2
    let d := c.move 2
    if n ≠ 0 then
      if d.len.toNat < n*4 then ([⟨c,2,2⟩],none)
      else
        let r := readSuitesAt frm KeyMgmt.val rsnSuiteToKeymgmt n p.keyMgmt d
        if r.2.1 = 0#32 then (⟨c,2,2⟩::r.1,none)
        else (checkCapsAt frm { p with keyMgmt := r.2.1 } r.2.2).after (⟨c,2,2⟩::r.1)
    else
      (checkCapsAt frm { p with keyMgmt := setParam p.keyMgmt KeyMgmt.ieee8021x.val } d).after
        [⟨c,2,2⟩]

def checkUcastAt (p : CryptoParams) (c : Cursor) : Parsed :=
  if c.len = 0 then
    ([],some { p with
      ucastcipherset := setParam p.ucastcipherset Cipher.aesCcm.val
      keyMgmt := setParam p.keyMgmt KeyMgmt.ieee8021x.val })
  else if c.len < 2 then ([],none)
  else
    let n := readAt frm c 2
    let d := c.move 2
    if n ≠ 0 then
      if d.len.toNat < n*4 then ([⟨c,2,2⟩],none)
      else
        let r := readSuitesAt frm Cipher.val rsnSuiteToCipher n p.ucastcipherset d
        if r.2.1 = 0#32 then (⟨c,2,2⟩::r.1,none)
        else (checkKeyMgmtAt frm { p with ucastcipherset := r.2.1 } r.2.2).after (⟨c,2,2⟩::r.1)
    else
      (checkKeyMgmtAt frm
        { p with ucastcipherset := setParam p.ucastcipherset Cipher.aesCcm.val } d).after
        [⟨c,2,2⟩]

def checkMcastAt (p : CryptoParams) (c : Cursor) : Parsed :=
  if c.len = 0 then
    ([],some { p with
      mcastcipherset := setParam p.mcastcipherset Cipher.aesCcm.val
      ucastcipherset := setParam p.ucastcipherset Cipher.aesCcm.val
      keyMgmt := setParam p.keyMgmt KeyMgmt.ieee8021x.val })
  else if c.len < 4 then ([],none)
  else
    match rsnSuiteToCipher (readAt frm c 4) with
    | none => ([⟨c,4,0⟩],none)
    | some x =>
      let p := { p with mcastcipherset := setParam p.mcastcipherset x.val }
      if p.mcastcipherset = 0#32 then ([⟨c,4,4⟩],none)
      else (checkUcastAt frm p (c.move 4)).after [⟨c,4,4⟩]

/-- `wlan_crypto_rsnie_check`; the element starts at `frm` with its identifier and length. -/
def rsnieCheckAt : Parsed :=
  let c : Cursor := ⟨2,frm 1⟩
  if c.len < 2 then ([],none)
  else if readAt frm c 2 ≠ rsnVersion then ([⟨c,2,0⟩],none)
  else (checkMcastAt frm { zeroParams with authmodeset := setParam 0#32 authRsna }
    (c.move 2)).after [⟨c,2,2⟩]

/-- The bytes from the pointer on that the length still counts. -/
def rest (c : Cursor) : List UInt8 := (List.range c.len.toNat).map fun i => frm (c.pos+i)

/-- The content of the element. -/
def content : List UInt8 := (List.range (frm 1).toNat).map fun i => frm (2+i)

/-- The pointer is inside the content and the length is what is left of it. -/
def Cursor.At (c : Cursor) (size : ℕ) : Prop := 2 ≤ c.pos ∧ c.pos+c.len.toNat = 2+size

/-- The length is right, the bytes read lie in the content and the length does not wrap. -/
structure Event.Fine (e : Event) (size : ℕ) : Prop where
  at_ : e.cursor.At size
  reads : e.reads ≤ e.cursor.len.toNat
  moves : e.moves ≤ e.cursor.len.toNat

variable {frm} {c : Cursor} {size k n : ℕ} {p : CryptoParams}

@[simp] theorem length_rest : (rest frm c).length = c.len.toNat := by
  rw [rest,List.length_map,List.length_range]

theorem toNat_move (hk : k ≤ c.len.toNat) : (c.move k).len.toNat = c.len.toNat-k := by
  have hlt := c.len.toNat_lt
  have hof : (UInt8.ofNat k).toNat = k := UInt8.toNat_ofNat_of_lt' (by change k < 256; omega)
  rw [Cursor.move,UInt8.toNat_sub_of_le _ _ (UInt8.le_iff_toNat_le.mpr (by rw [hof]; exact hk)),
    hof]

theorem Cursor.At.move (hc : c.At size) (hk : k ≤ c.len.toNat) : (c.move k).At size := by
  have hlen := toNat_move hk
  obtain ⟨hlow,hsum⟩ := hc
  refine ⟨hlow.trans (Nat.le_add_right _ _),?_⟩
  rw [hlen]
  change c.pos+k+_ = _
  omega

theorem take_rest (hn : n ≤ c.len.toNat) :
    (rest frm c).take n = (List.range n).map fun i => frm (c.pos+i) := by
  rw [rest,← List.map_take,List.take_range,Nat.min_eq_left hn]

theorem drop_rest (hk : k ≤ c.len.toNat) : (rest frm c).drop k = rest frm (c.move k) := by
  apply List.ext_getElem
  · rw [List.length_drop,length_rest,length_rest,toNat_move hk]
  · intro i _ _
    simp [rest,Cursor.move,Nat.add_assoc]

theorem leRead2_rest (h : 2 ≤ c.len.toNat) : leRead2 (rest frm c) = readAt frm c 2 := by
  rw [leRead2,take_rest h,readAt]

theorem leRead4_rest (h : 4 ≤ c.len.toNat) : leRead4 (rest frm c) = readAt frm c 4 := by
  rw [leRead4,take_rest h,readAt]

/-- The parser with a pointer does what the parser of lists does, and every step is fine. -/
structure Agrees (r : Parsed) (q : Option CryptoParams) (size : ℕ) : Prop where
  result : r.2 = q
  fine : ∀ e ∈ r.1,e.Fine size

theorem Agrees.nil {q : Option CryptoParams} : Agrees ([],q) q size := ⟨rfl,nofun⟩

theorem Agrees.after {r : Parsed} {q : Option CryptoParams} {events : List Event}
    (h : Agrees r q size) (he : ∀ e ∈ events,e.Fine size) : Agrees (r.after events) q size :=
  ⟨h.result,fun e hmem => (List.mem_append.mp hmem).elim (he e) (h.fine e)⟩

theorem Agrees.one {e : Event} {q : Option CryptoParams} (he : e.Fine size) :
    Agrees ([e],q) q size :=
  ⟨rfl,List.forall_mem_singleton.mpr he⟩

theorem Cursor.At.fine (hc : c.At size) (hn : n ≤ c.len.toNat) : Event.Fine ⟨c,n,n⟩ size :=
  ⟨hc,hn,hn⟩

theorem readSuitesAt_eq {α : Type} (val : α → ℕ) (cipher : ℕ → Option α) (s : BitVec 32)
    (hc : c.At size) (hn : n*4 ≤ c.len.toNat) :
    (readSuitesAt frm val cipher n s c).2.1 = (readSuites val cipher n s (rest frm c)).1 ∧
      rest frm (readSuitesAt frm val cipher n s c).2.2 =
        (readSuites val cipher n s (rest frm c)).2 ∧
      (readSuitesAt frm val cipher n s c).2.2.At size ∧
      ∀ e ∈ (readSuitesAt frm val cipher n s c).1,e.Fine size := by
  induction n generalizing s c with
  | zero => exact ⟨rfl,rfl,hc,nofun⟩
  | succ n ih =>
    have h4 : 4 ≤ c.len.toNat := by omega
    rw [readSuitesAt,readSuites,drop_rest h4,leRead4_rest h4]
    obtain ⟨hset,hrest,hat,hfine⟩ := ih (match cipher (readAt frm c 4) with
      | some x => setParam s (val x)
      | none => s) (hc.move h4) (by rw [toNat_move h4]; omega)
    exact ⟨hset,hrest,hat,List.forall_mem_cons.mpr ⟨hc.fine h4,hfine⟩⟩

theorem two_le_iff : 2 ≤ c.len ↔ 2 ≤ c.len.toNat := UInt8.le_iff_toNat_le

theorem lt_two_iff : c.len < 2 ↔ c.len.toNat < 2 := UInt8.lt_iff_toNat_lt

theorem lt_four_iff : c.len < 4 ↔ c.len.toNat < 4 := UInt8.lt_iff_toNat_lt

theorem len_eq_iff (x : UInt8) : c.len = x ↔ c.len.toNat = x.toNat := UInt8.toNat_inj.symm

theorem len_eq_zero_iff : c.len = 0 ↔ (rest frm c).length = 0 := by
  rw [length_rest]
  exact len_eq_iff 0

theorem checkMgmtAt_agrees (hc : c.At size) :
    Agrees (checkMgmtAt frm p c) (checkMgmt p (rest frm c)) size := by
  rw [checkMgmtAt,checkMgmt]
  by_cases h0 : c.len = 0
  · rw [if_pos h0,if_pos (len_eq_zero_iff.mp h0)]
    exact .nil
  rw [if_neg h0,if_neg (fun h => h0 (len_eq_zero_iff.mpr h)),length_rest]
  by_cases h4 : c.len.toNat < 4
  · rw [if_pos (lt_four_iff.mpr h4),if_pos h4]
    exact .nil
  rw [if_neg (fun h => h4 (lt_four_iff.mp h)),if_neg h4,
    leRead4_rest (not_lt.mp h4)]
  exact .one (hc.fine (not_lt.mp h4))

theorem checkPmkidAt_agrees (hc : c.At size) :
    Agrees (checkPmkidAt frm p c) (checkPmkid p (rest frm c)) size := by
  rw [checkPmkidAt,checkPmkid,length_rest]
  by_cases h2 : 2 ≤ c.len.toNat
  · rw [if_pos (two_le_iff.mpr h2),if_pos h2,leRead2_rest h2,drop_rest h2]
    have hd := hc.move h2
    have he := hc.fine h2
    have hz : (c.move 2).len ≠ 0 ↔ (rest frm (c.move 2)).length ≠ 0 := not_congr len_eq_zero_iff
    have hz' : (c.move 2).len = 0 ↔ (rest frm (c.move 2)).length = 0 := len_eq_zero_iff
    simp only [hz,hz',length_rest]
    split
    · split
      · rename_i hk
        rw [drop_rest hk]
        exact (checkMgmtAt_agrees (hd.move hk)).after (List.forall_mem_cons.mpr
          ⟨he,List.forall_mem_singleton.mpr ⟨hd,Nat.zero_le _,hk⟩⟩)
      · exact .one he
    · split
      · exact .one he
      · exact (checkMgmtAt_agrees hd).after (List.forall_mem_singleton.mpr he)
  · rw [if_neg (fun h => h2 (two_le_iff.mp h)),if_neg h2]
    have h1 : c.len = 1 ↔ c.len.toNat = 1 := len_eq_iff 1
    simp only [h1]
    split
    · exact .nil
    · exact checkMgmtAt_agrees hc

theorem checkCapsAt_agrees (hc : c.At size) :
    Agrees (checkCapsAt frm p c) (checkCaps p (rest frm c)) size := by
  rw [checkCapsAt,checkCaps,length_rest]
  by_cases h2 : 2 ≤ c.len.toNat
  · rw [if_pos (two_le_iff.mpr h2),if_pos h2,leRead2_rest h2,drop_rest h2]
    exact (checkPmkidAt_agrees (hc.move h2)).after (List.forall_mem_singleton.mpr (hc.fine h2))
  · rw [if_neg (fun h => h2 (two_le_iff.mp h)),if_neg h2]
    have h0 : c.len ≠ 0 ↔ c.len.toNat ≠ 0 := not_congr (len_eq_iff 0)
    simp only [h0,lt_two_iff]
    split
    · exact .nil
    · exact checkPmkidAt_agrees hc

/-- The two selector lists are read alike; `k` stands for what follows. -/
theorem suites_agree {α : Type} (val : α → ℕ) (cipher : ℕ → Option α) (s t : BitVec 32)
    (kAt : BitVec 32 → Cursor → Parsed) (k : BitVec 32 → List UInt8 → Option CryptoParams)
    (hk : ∀ s c,c.At size → Agrees (kAt s c) (k s (rest frm c)) size)
    (hc : c.At size) (h2 : 2 ≤ c.len.toNat) :
    Agrees
      (if readAt frm c 2 ≠ 0 then
        if (c.move 2).len.toNat < readAt frm c 2*4 then ([⟨c,2,2⟩],none)
        else
          if (readSuitesAt frm val cipher (readAt frm c 2) s (c.move 2)).2.1 = 0#32 then
            (⟨c,2,2⟩::(readSuitesAt frm val cipher (readAt frm c 2) s (c.move 2)).1,none)
          else
            (kAt (readSuitesAt frm val cipher (readAt frm c 2) s (c.move 2)).2.1
              (readSuitesAt frm val cipher (readAt frm c 2) s (c.move 2)).2.2).after
              (⟨c,2,2⟩::(readSuitesAt frm val cipher (readAt frm c 2) s (c.move 2)).1)
      else (kAt t (c.move 2)).after [⟨c,2,2⟩])
      (if leRead2 (rest frm c) ≠ 0 then
        if ((rest frm c).drop 2).length < leRead2 (rest frm c)*4 then none
        else
          if (readSuites val cipher (leRead2 (rest frm c)) s ((rest frm c).drop 2)).1 = 0#32 then
            none
          else k (readSuites val cipher (leRead2 (rest frm c)) s ((rest frm c).drop 2)).1
            (readSuites val cipher (leRead2 (rest frm c)) s ((rest frm c).drop 2)).2
      else k t ((rest frm c).drop 2)) size := by
  have hd := hc.move h2
  have he := hc.fine h2
  rw [leRead2_rest h2,drop_rest h2,length_rest]
  by_cases hn : readAt frm c 2 ≠ 0
  · rw [if_pos hn,if_pos hn]
    split
    · exact .one he
    · rename_i hlen
      obtain ⟨hset,hrest,hat,hfine⟩ := readSuitesAt_eq val cipher s hd (not_lt.mp hlen)
      rw [hset,← hrest]
      split
      · exact ⟨rfl,List.forall_mem_cons.mpr ⟨he,hfine⟩⟩
      · exact (hk _ _ hat).after (List.forall_mem_cons.mpr ⟨he,hfine⟩)
  · rw [if_neg hn,if_neg hn]
    exact (hk _ _ hd).after (List.forall_mem_singleton.mpr he)

theorem checkKeyMgmtAt_agrees (hc : c.At size) :
    Agrees (checkKeyMgmtAt frm p c) (checkKeyMgmt p (rest frm c)) size := by
  rw [checkKeyMgmtAt,checkKeyMgmt]
  by_cases h0 : c.len = 0
  · rw [if_pos h0,if_pos (len_eq_zero_iff.mp h0)]
    exact .nil
  rw [if_neg h0,if_neg (fun h => h0 (len_eq_zero_iff.mpr h)),length_rest]
  by_cases h2 : c.len.toNat < 2
  · rw [if_pos (lt_two_iff.mpr h2),if_pos h2]
    exact .nil
  rw [if_neg (fun h => h2 (lt_two_iff.mp h)),if_neg h2]
  exact suites_agree _ _ _ _ (fun s c => checkCapsAt frm { p with keyMgmt := s } c)
    (fun s l => checkCaps { p with keyMgmt := s } l) (fun _ _ hd => checkCapsAt_agrees hd) hc
    (not_lt.mp h2)

theorem checkUcastAt_agrees (hc : c.At size) :
    Agrees (checkUcastAt frm p c) (checkUcast p (rest frm c)) size := by
  rw [checkUcastAt,checkUcast]
  by_cases h0 : c.len = 0
  · rw [if_pos h0,if_pos (len_eq_zero_iff.mp h0)]
    exact .nil
  rw [if_neg h0,if_neg (fun h => h0 (len_eq_zero_iff.mpr h)),length_rest]
  by_cases h2 : c.len.toNat < 2
  · rw [if_pos (lt_two_iff.mpr h2),if_pos h2]
    exact .nil
  rw [if_neg (fun h => h2 (lt_two_iff.mp h)),if_neg h2]
  exact suites_agree _ _ _ _ (fun s c => checkKeyMgmtAt frm { p with ucastcipherset := s } c)
    (fun s l => checkKeyMgmt { p with ucastcipherset := s } l)
    (fun _ _ hd => checkKeyMgmtAt_agrees hd) hc (not_lt.mp h2)

theorem checkMcastAt_agrees (hc : c.At size) :
    Agrees (checkMcastAt frm p c) (checkMcast p (rest frm c)) size := by
  rw [checkMcastAt,checkMcast]
  by_cases h0 : c.len = 0
  · rw [if_pos h0,if_pos (len_eq_zero_iff.mp h0)]
    exact .nil
  rw [if_neg h0,if_neg (fun h => h0 (len_eq_zero_iff.mpr h)),length_rest]
  by_cases h4 : c.len.toNat < 4
  · rw [if_pos (lt_four_iff.mpr h4),if_pos h4]
    exact .nil
  rw [if_neg (fun h => h4 (lt_four_iff.mp h)),if_neg h4,leRead4_rest (not_lt.mp h4),
    drop_rest (not_lt.mp h4)]
  cases rsnSuiteToCipher (readAt frm c 4) with
  | none => exact .one ⟨hc,not_lt.mp h4,Nat.zero_le _⟩
  | some x =>
    dsimp only
    split
    · exact .one (hc.fine (not_lt.mp h4))
    · exact (checkUcastAt_agrees (hc.move (not_lt.mp h4))).after
        (List.forall_mem_singleton.mpr (hc.fine (not_lt.mp h4)))

end Rsn
end MarbleModules
