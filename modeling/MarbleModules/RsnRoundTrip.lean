import MarbleModules.RsnElement

/-! What the parser makes of the element the builder wrote. Every stage of the parser takes
exactly the bytes of the stage of the builder it belongs to. -/
namespace MarbleModules
namespace Rsn

theorem leRead2_append (v : ℕ) (rest : List UInt8) (h : v < 65536) :
    leRead2 (leBytes 2 v ++ rest) = v := by
  rw [leRead2,List.take_left' (length_leBytes 2 v),leVal_leBytes_of_lt h]

theorem drop2_append (v : ℕ) (rest : List UInt8) : (leBytes 2 v ++ rest).drop 2 = rest :=
  List.drop_left' (length_leBytes 2 v)

/-- The selector of the suite is read back as the suite. -/
def Known {α : Type} (suite : α → Option ℕ) (cipher : ℕ → Option α) (c : α) : Prop :=
  cipher (leVal (addSelector (suite c))) = some c

theorem known_ucast : ∀ c ∈ ucastOrder, Known rsnCipherToSuite rsnSuiteToCipher c := by
  unfold Known
  decide

theorem known_mgmt : ∀ c ∈ mgmtOrder, Known rsnCipherToSuite rsnSuiteToCipher c := by
  unfold Known
  decide

theorem known_keyMgmt : ∀ k ∈ keyMgmtOrder, Known rsnKeymgmtToSuite rsnSuiteToKeymgmt k := by
  unfold Known
  decide

@[simp] theorem length_addSelector (w : Option ℕ) : (addSelector w).length = 4 :=
  length_leBytes 4 _

theorem leRead4_append (w : Option ℕ) (rest : List UInt8) :
    leRead4 (addSelector w ++ rest) = leVal (addSelector w) := by
  rw [leRead4,List.take_left' (length_addSelector w)]

theorem length_flatMap_addSelector {α : Type} (suite : α → Option ℕ) (l : List α) :
    (l.flatMap fun c => addSelector (suite c)).length = 4*l.length := by
  induction l with
  | nil => rfl
  | cons c l ih =>
    rw [List.flatMap_cons,List.length_append,ih,length_addSelector,List.length_cons]
    omega

section Suites

variable {α : Type} {val : α → ℕ} {suite : α → Option ℕ} {cipher : ℕ → Option α}

/-- The loop reads back the suites that were written. -/
theorem readSuites_flatMap {l : List α} (hl : ∀ c ∈ l, Known suite cipher c) (s : BitVec 32)
    (rest : List UInt8) :
    readSuites val cipher l.length s ((l.flatMap fun c => addSelector (suite c)) ++ rest) =
      (l.foldl (fun s c => setParam s (val c)) s,rest) := by
  induction l generalizing s with
  | nil => rfl
  | cons c l ih =>
    have hc : cipher (leVal (addSelector (suite c))) = some c := hl c (List.mem_cons_self ..)
    rw [List.length_cons,readSuites,List.flatMap_cons,List.append_assoc,leRead4_append,hc,
      List.drop_left' (length_addSelector _),List.foldl_cons]
    exact ih (fun x hx => hl x (List.mem_cons_of_mem _ hx)) _

theorem getLsbD_setParam (s : BitVec 32) (v i : ℕ) :
    (setParam s v).getLsbD i = (s.getLsbD i || (decide (i < 32) && decide (v = i))) := by
  rw [setParam,BitVec.getLsbD_or,BitVec.getLsbD_shiftLeft,BitVec.getLsbD_one]
  congr 1
  rw [Bool.eq_iff_iff]
  simp only [Bool.and_eq_true,Bool.not_eq_true',decide_eq_true_eq,decide_eq_false_iff_not]
  omega

theorem getLsbD_foldl (l : List α) (s : BitVec 32) (i : ℕ) :
    (l.foldl (fun s c => setParam s (val c)) s).getLsbD i = true ↔
      s.getLsbD i = true ∨ i < 32 ∧ ∃ c ∈ l, val c = i := by
  induction l generalizing s with
  | nil => simp
  | cons c l ih =>
    rw [List.foldl_cons,ih,getLsbD_setParam]
    simp only [Bool.or_eq_true,Bool.and_eq_true,decide_eq_true_eq,List.mem_cons,
      exists_eq_or_imp]
    tauto

/-- The members of the set that the builder knows. -/
def kept (val : α → ℕ) (order : List α) (s : BitVec 32) : BitVec 32 :=
  (order.filter fun c => hasParam s (val c)).foldl (fun s c => setParam s (val c)) 0#32

theorem getLsbD_kept (order : List α) (s : BitVec 32) (i : ℕ) :
    (kept val order s).getLsbD i = true ↔ s.getLsbD i = true ∧ ∃ c ∈ order, val c = i := by
  rw [kept,getLsbD_foldl,BitVec.getLsbD_zero]
  constructor
  · rintro (h | ⟨-,c,hc,rfl⟩)
    · cases h
    · obtain ⟨hc,hs⟩ := List.mem_filter.mp hc
      exact ⟨hs,c,hc,rfl⟩
  · rintro ⟨hs,c,hc,rfl⟩
    exact Or.inr ⟨BitVec.lt_of_getLsbD hs,c,List.mem_filter.mpr ⟨hc,hs⟩,rfl⟩

theorem kept_eq_iff (order : List α) (s : BitVec 32) :
    kept val order s = s ↔ ∀ i, s.getLsbD i = true → ∃ c ∈ order, val c = i := by
  constructor
  · intro h i hi
    rw [← h,getLsbD_kept] at hi
    exact hi.2
  · intro h
    apply BitVec.eq_of_getLsbD_eq
    intro i _
    rw [Bool.eq_iff_iff,getLsbD_kept]
    exact ⟨fun hk => hk.1,fun hk => ⟨hk,h i hk⟩⟩

variable (val) in
theorem kept_eq_zero_iff (order : List α) (s : BitVec 32) :
    kept val order s = 0#32 ↔ (order.filter fun c => hasParam s (val c)) = [] := by
  constructor
  · intro h
    by_contra hne
    obtain ⟨c,hc⟩ := List.exists_mem_of_ne_nil _ hne
    obtain ⟨ho,hs⟩ := List.mem_filter.mp hc
    have hb := (getLsbD_kept order s (val c)).mpr ⟨hs,c,ho,rfl⟩
    rw [h,BitVec.getLsbD_zero] at hb
    cases hb
  · intro h
    rw [kept,h]
    rfl

variable (val) in
/-- The three readings of a selector list: its count, what follows the count, and the loop
over what follows. -/
theorem addSuites_read {order : List α} (ho : ∀ c ∈ order, Known suite cipher c)
    (hl : order.length < 256) (s : BitVec 32) (rest : List UInt8) :
    let frm := addSuites val suite order s ++ rest
    let n := (order.filter fun c => hasParam s (val c)).length
    leRead2 frm = n ∧ (frm.drop 2).length = n*4+rest.length ∧
      readSuites val cipher n 0#32 (frm.drop 2) = (kept val order s,rest) := by
  intro frm n
  have hn : n < 256 := lt_of_le_of_lt (List.length_filter_le _ _) hl
  have hfrm : frm.drop 2 =
      ((order.filter fun c => hasParam s (val c)).flatMap fun c => addSelector (suite c)) ++ rest :=
    rfl
  refine ⟨?_,?_,?_⟩
  · show (UInt8.ofNat n).toNat+256*(0+256*0) = n
    rw [UInt8.toNat_ofNat']
    omega
  · rw [hfrm,List.length_append,length_flatMap_addSelector,Nat.mul_comm]
  · rw [hfrm]
    exact readSuites_flatMap (fun c hc => ho c (List.mem_filter.mp hc).1) 0#32 rest

variable (val suite) in
theorem length_addSuites (order : List α) (s : BitVec 32) :
    (addSuites val suite order s).length ≤ 4*order.length+2 := by
  have hf := List.length_filter_le (fun c => hasParam s (val c)) order
  rw [addSuites,List.length_append,length_flatMap_addSelector]
  simp only [List.length_cons,List.length_nil]
  omega

end Suites

/-- The group ciphers and pairwise ciphers of the element -/
def dataCiphers : List Cipher := [.tkip,.aesCcm,.aesCcm256,.aesGcm,.aesGcm256]

theorem mem_ucastOrder : ∀ c ∈ dataCiphers, c ∈ ucastOrder := by decide

theorem addMcast_setParam : ∀ c ∈ dataCiphers,
    addMcast (setParam 0#32 c.val) = addSelector (rsnCipherToSuite c) ∧
      setParam 0#32 c.val ≠ 0#32 := by decide

theorem checkMcast_addMcast {c : Cipher} (hc : c ∈ dataCiphers) {p : CryptoParams}
    (hp : p.mcastcipherset = 0#32) (rest : List UInt8) :
    checkMcast p (addMcast (setParam 0#32 c.val) ++ rest) =
      checkUcast { p with mcastcipherset := setParam 0#32 c.val } rest := by
  obtain ⟨hadd,hne⟩ := addMcast_setParam c hc
  have hk : rsnSuiteToCipher (leVal (addSelector (rsnCipherToSuite c))) = some c :=
    known_ucast c (mem_ucastOrder c hc)
  have hlen : (addSelector (rsnCipherToSuite c) ++ rest).length = 4+rest.length := by
    rw [List.length_append,length_addSelector]
  rw [hadd,checkMcast,if_neg (by omega),if_neg (by omega),leRead4_append,hk,
    List.drop_left' (length_addSelector _)]
  simp only [hp]
  rw [if_neg hne]

theorem checkUcast_addSuites {s : BitVec 32} (hs : s ≠ 0#32)
    (hc : ∀ i, s.getLsbD i = true → ∃ c ∈ ucastOrder, c.val = i) {p : CryptoParams}
    (hp : p.ucastcipherset = 0#32) (rest : List UInt8) :
    checkUcast p (addSuites Cipher.val rsnCipherToSuite ucastOrder s ++ rest) =
      checkKeyMgmt { p with ucastcipherset := s } rest := by
  obtain ⟨hn,hd,hr⟩ := addSuites_read Cipher.val known_ucast (by decide) s rest
  have hk : kept Cipher.val ucastOrder s = s := (kept_eq_iff _ _).mpr hc
  have hz := mt (kept_eq_zero_iff Cipher.val ucastOrder s).mpr (by rwa [hk])
  have hpos := List.length_pos_iff.mpr hz
  rw [List.length_drop] at hd
  rw [checkUcast,if_neg (by omega),if_neg (by omega)]
  simp only [hn,hp,hr,hk]
  rw [if_pos (by omega),if_neg (by rw [List.length_drop]; omega),if_neg hs]

/-- The AKMs the parser finds where the builder wrote `s` -/
def reread (s : BitVec 32) : BitVec 32 :=
  if kept KeyMgmt.val keyMgmtOrder s = 0#32 then setParam 0#32 KeyMgmt.ieee8021x.val
  else kept KeyMgmt.val keyMgmtOrder s

theorem checkKeyMgmt_addKeyMgmt {s : BitVec 32} (hs : hasParam s KeyMgmt.cckm.val = false)
    {p : CryptoParams} (hp : p.keyMgmt = 0#32) (rest : List UInt8) :
    checkKeyMgmt p (addKeyMgmt s ++ rest) = checkCaps { p with keyMgmt := reread s } rest := by
  obtain ⟨hn,hd,hr⟩ := addSuites_read KeyMgmt.val known_keyMgmt (by decide) s rest
  rw [List.length_drop] at hd
  rw [addKeyMgmt,if_neg (by rw [hs]; decide),checkKeyMgmt]
  by_cases hz : kept KeyMgmt.val keyMgmtOrder s = 0#32
  · have hnil := (kept_eq_zero_iff _ _ _).mp hz
    have hrest : (addSuites KeyMgmt.val rsnKeymgmtToSuite keyMgmtOrder s ++ rest).drop 2 =
        rest := by
      rw [addSuites,hnil]
      rfl
    have hlen : 2 ≤ (addSuites KeyMgmt.val rsnKeymgmtToSuite keyMgmtOrder s ++ rest).length := by
      rw [addSuites]
      simp only [List.length_append,List.length_cons]
      omega
    rw [hnil] at hn
    rw [if_neg (by omega),if_neg (by omega)]
    simp only [hn,hp,hrest,reread,if_pos hz]
    rfl
  · have hne := mt (kept_eq_zero_iff KeyMgmt.val keyMgmtOrder s).mpr hz
    have hpos := List.length_pos_iff.mpr hne
    rw [if_neg (by omega),if_neg (by omega)]
    simp only [hn,hp,hr,reread,if_neg hz]
    rw [if_pos (by omega),if_neg (by rw [List.length_drop]; omega)]

theorem checkCaps_append (caps : BitVec 16) (p : CryptoParams) (rest : List UInt8) :
    checkCaps p (leBytes 2 caps.toNat ++ rest) = checkPmkid { p with rsnCaps := caps } rest := by
  rw [checkCaps,if_pos (by rw [List.length_append,length_leBytes]; omega),
    leRead2_append _ _ caps.isLt,drop2_append,BitVec.ofNat_toNat,BitVec.setWidth_eq]

/-- The management cipher set that goes with these capabilities: one BIP cipher with
management frame protection and none without. -/
def MgmtCipher (p : CryptoParams) : Prop :=
  if mfpEnabled p.rsnCaps then ∃ c ∈ mgmtOrder, p.mgmtcipherset = setParam 0#32 c.val
  else p.mgmtcipherset = 0#32

theorem addMgmt_setParam : ∀ c ∈ mgmtOrder,
    addMgmt (setParam 0#32 c.val) = addSelector (rsnCipherToSuite c) := by decide

theorem checkMgmt_addSelector {c : Cipher} (hc : c ∈ mgmtOrder) {p : CryptoParams}
    (hp : p.mgmtcipherset = 0#32) :
    checkMgmt p (addSelector (rsnCipherToSuite c)) =
      some { p with mgmtcipherset := setParam 0#32 c.val } := by
  have hk : rsnSuiteToCipher (leVal (addSelector (rsnCipherToSuite c))) = some c :=
    known_mgmt c hc
  have hr := leRead4_append (rsnCipherToSuite c) []
  rw [List.append_nil] at hr
  rw [checkMgmt,if_neg (by rw [length_addSelector]; omega),
    if_neg (by rw [length_addSelector]; omega),hr,hk,hp]

theorem checkMgmt_nil {p : CryptoParams} (h : mfpEnabled p.rsnCaps = false) :
    checkMgmt p [] = some p := by
  rw [checkMgmt,if_pos List.length_nil,if_neg (by rw [h]; decide)]

/-- A count of one and a PMKID are passed over. -/
theorem checkPmkid_one (k : Pmksa) (p : CryptoParams) (rest : List UInt8) :
    checkPmkid p ([1,0] ++ k.pmkid ++ rest) = checkMgmt p rest := by
  have hk := k.len
  unfold pmkidLen at hk
  have hn : leRead2 ([1,0] ++ k.pmkid ++ rest) = 1 := rfl
  have hd : ([1,0] ++ k.pmkid ++ rest).drop 2 = k.pmkid ++ rest := rfl
  have hl : (k.pmkid ++ rest).length = 16+rest.length := by rw [List.length_append,hk]
  rw [checkPmkid,if_pos (by simp only [List.length_append,List.length_cons]; omega)]
  simp only [hn,hd]
  rw [if_pos ⟨by omega,by omega⟩,if_pos (by rw [hl]; unfold pmkidLen; omega),
    List.drop_left' (by rw [hk]; rfl)]

theorem checkPmkid_zero (p : CryptoParams) (rest : List UInt8) :
    checkPmkid p ([0,0] ++ rest) = checkMgmt p rest := by
  have hn : leRead2 ([0,0] ++ rest) = 0 := rfl
  rw [checkPmkid,if_pos (by simp only [List.length_append,List.length_cons]; omega)]
  simp only [hn]
  rw [if_neg (by omega),if_neg (by omega)]
  rfl

theorem checkPmkid_addPmkid {p q : CryptoParams} (hm : MgmtCipher p) (pmksa : Option Pmksa)
    (hq : q.mgmtcipherset = 0#32) (hcaps : q.rsnCaps = p.rsnCaps) :
    checkPmkid q (addPmkid p pmksa) =
      some { q with mgmtcipherset := p.mgmtcipherset } := by
  unfold addPmkid
  by_cases hmfp : mfpEnabled p.rsnCaps = true
  · rw [MgmtCipher,if_pos hmfp] at hm
    obtain ⟨c,hc,hset⟩ := hm
    rw [if_pos hmfp,hset,addMgmt_setParam c hc]
    cases pmksa with
    | none => rw [checkPmkid_zero,checkMgmt_addSelector hc hq]
    | some k => rw [checkPmkid_one,checkMgmt_addSelector hc hq]
  · rw [MgmtCipher,if_neg hmfp] at hm
    have hoff : mfpEnabled q.rsnCaps = false := by
      rw [hcaps]
      simpa using hmfp
    have hsame : { q with mgmtcipherset := p.mgmtcipherset } = q := by rw [hm,← hq]
    rw [if_neg hmfp,hsame]
    cases pmksa with
    | none => exact checkMgmt_nil hoff
    | some k =>
      have hone := checkPmkid_one k q []
      rw [List.append_nil] at hone
      rw [hone,checkMgmt_nil hoff]

/-- The parser can put this AKM into a set. -/
def Producible (k : KeyMgmt) : Prop := ∃ w, rsnSuiteToKeymgmt w = some k

/-- A parameter set that two stations can agree on: one group cipher, at least one pairwise
cipher and at least one AKM that the parser knows, CCKM apart. -/
structure Negotiable (p : CryptoParams) : Prop where
  group : ∃ c ∈ dataCiphers, p.mcastcipherset = setParam 0#32 c.val
  ucast_ne : p.ucastcipherset ≠ 0#32
  ucast : ∀ i, hasParam p.ucastcipherset i = true → ∃ c ∈ dataCiphers, c.val = i
  keyMgmt_ne : p.keyMgmt ≠ 0#32
  keyMgmt : ∀ i, hasParam p.keyMgmt i = true →
    ∃ k, Producible k ∧ k ≠ KeyMgmt.cckm ∧ k.val = i
  mgmt : MgmtCipher p

theorem KeyMgmt.val_inj {k l : KeyMgmt} (h : k.val = l.val) : k = l := by
  cases k <;> cases l <;> first | rfl | cases h

theorem Negotiable.no_cckm {p : CryptoParams} (h : Negotiable p) :
    hasParam p.keyMgmt KeyMgmt.cckm.val = false := by
  by_contra hc
  obtain ⟨k,-,hne,hv⟩ := h.keyMgmt _ (by simpa using hc)
  exact hne (KeyMgmt.val_inj hv)

theorem length_addPmkid {p : CryptoParams} (pmksa : Option Pmksa) :
    (addPmkid p pmksa).length ≤ 34 := by
  have hf := List.length_filter_le (fun c => hasParam p.mgmtcipherset c.val) mgmtOrder
  have hm : (addMgmt p.mgmtcipherset).length ≤ 16 := by
    rw [addMgmt,length_flatMap_addSelector]
    exact Nat.mul_le_mul_left 4 hf
  unfold addPmkid
  cases pmksa with
  | none =>
    split
    · rw [List.length_append]
      show 2+(addMgmt p.mgmtcipherset).length ≤ 34
      omega
    · exact Nat.zero_le _
  | some k =>
    have hk := k.len
    unfold pmkidLen at hk
    split <;> simp only [List.length_append,List.length_cons,List.length_nil] <;> omega

/-- The parser takes the element apart; of the AKMs it sees those the builder wrote. -/
theorem rsnieCheck_build {p : CryptoParams} (h : Negotiable p) (pmksa : Option Pmksa) :
    rsnieCheck (buildRsnieWithPmksa p pmksa) =
      some { p with authmodeset := setParam 0#32 authRsna, keyMgmt := reread p.keyMgmt } := by
  obtain ⟨c,hc,hgroup⟩ := h.group
  have hucast : ∀ i, p.ucastcipherset.getLsbD i = true → ∃ c ∈ ucastOrder, c.val = i := by
    intro i hi
    obtain ⟨c,hc,hv⟩ := h.ucast i hi
    exact ⟨c,mem_ucastOrder c hc,hv⟩
  have hcckm := h.no_cckm
  rw [buildRsnieWithPmksa]
  set tail := addMcast p.mcastcipherset ++
    (addSuites Cipher.val rsnCipherToSuite ucastOrder p.ucastcipherset ++
      (addKeyMgmt p.keyMgmt ++ (leBytes 2 p.rsnCaps.toNat ++ addPmkid p pmksa))) with htail
  have hlen : (leBytes 2 rsnVersion ++ tail).length < 256 := by
    have h1 := length_addSuites Cipher.val rsnCipherToSuite ucastOrder
      p.ucastcipherset
    have h2 := length_addSuites KeyMgmt.val rsnKeymgmtToSuite keyMgmtOrder
      p.keyMgmt
    have h3 := length_addPmkid (p := p) pmksa
    have h4 : addKeyMgmt p.keyMgmt =
        addSuites KeyMgmt.val rsnKeymgmtToSuite keyMgmtOrder p.keyMgmt := by
      rw [addKeyMgmt,if_neg (by rw [hcckm]; decide)]
    rw [show ucastOrder.length = 5 from rfl] at h1
    rw [show keyMgmtOrder.length = 18 from rfl] at h2
    rw [htail,hgroup,(addMcast_setParam c hc).1,h4]
    simp only [List.length_append,length_leBytes,length_addSelector]
    omega
  have hl : (UInt8.ofNat (leBytes 2 rsnVersion ++ tail).length).toNat =
      (leBytes 2 rsnVersion ++ tail).length := by
    rw [UInt8.toNat_ofNat']
    omega
  have hbody : (leBytes 2 rsnVersion ++ tail).length = 2+tail.length := by
    rw [List.length_append,length_leBytes]
  rw [rsnieCheck]
  simp only [List.getD_cons_succ,List.getD_cons_zero,List.drop_succ_cons,List.drop_zero,hl,
    List.take_length]
  rw [if_neg (by omega),leRead2_append _ _ (by decide),if_neg (by simp),drop2_append,htail,hgroup,
    checkMcast_addMcast hc rfl,checkUcast_addSuites h.ucast_ne hucast rfl,
    checkKeyMgmt_addKeyMgmt hcckm rfl,checkCaps_append,
    checkPmkid_addPmkid h.mgmt pmksa]
  · rfl
  · rfl

theorem some_of_ite {S : KeyMgmt → Prop} {c : Prop} [Decidable c] {k l : KeyMgmt}
    {o : Option KeyMgmt} (hl : S l) (ho : o = some k → S k)
    (h : (if c then some l else o) = some k) : S k := by
  by_cases hc : c
  · rw [if_pos hc] at h
    cases h
    exact hl
  · rw [if_neg hc] at h
    exact ho h

/-- Of the AKMs the parser knows, the builder writes all but two. -/
theorem Producible.cases {k : KeyMgmt} (h : Producible k) :
    k ∈ keyMgmtOrder ∨ k = .cckm ∨ k = .ftPskSha384 ∨ k = .pskSha384 := by
  obtain ⟨w,hw⟩ := h
  revert hw
  unfold rsnSuiteToKeymgmt
  repeat refine some_of_ite (S := fun k =>
    k ∈ keyMgmtOrder ∨ k = .cckm ∨ k = .ftPskSha384 ∨ k = .pskSha384) (by decide) ?_
  exact nofun

theorem reread_eq_iff {p : CryptoParams} (h : Negotiable p) :
    reread p.keyMgmt = p.keyMgmt ↔ hasParam p.keyMgmt KeyMgmt.ftPskSha384.val = false ∧
      hasParam p.keyMgmt KeyMgmt.pskSha384.val = false := by
  constructor
  · intro heq
    by_cases hz : kept KeyMgmt.val keyMgmtOrder p.keyMgmt = 0#32
    · rw [reread,if_pos hz] at heq
      rw [← heq]
      decide
    · rw [reread,if_neg hz,kept_eq_iff] at heq
      have hout : ∀ k : KeyMgmt, (∀ l ∈ keyMgmtOrder, l.val ≠ k.val) →
          hasParam p.keyMgmt k.val = false := by
        intro k hk
        by_contra hb
        obtain ⟨l,hl,hv⟩ := heq k.val (by simpa [hasParam] using hb)
        exact hk l hl hv
      exact ⟨hout .ftPskSha384 (by decide),hout .pskSha384 (by decide)⟩
  · rintro ⟨hft,hpsk⟩
    have hkept : kept KeyMgmt.val keyMgmtOrder p.keyMgmt = p.keyMgmt := by
      rw [kept_eq_iff]
      intro i hi
      obtain ⟨k,hk,hne,hv⟩ := h.keyMgmt i hi
      rcases hk.cases with hmem | rfl | rfl | rfl
      · exact ⟨k,hmem,hv⟩
      · exact absurd rfl hne
      · rw [← hv] at hi
        rw [hasParam,hi] at hft
        cases hft
      · rw [← hv] at hi
        rw [hasParam,hi] at hpsk
        cases hpsk
    rw [reread,hkept,if_neg h.keyMgmt_ne]

/-- The parser agrees with the parameters the element was built from. -/
def ReadsBack (p : CryptoParams) (pmksa : Option Pmksa) : Prop :=
  ∃ q, rsnieCheck (buildRsnieWithPmksa p pmksa) = some q ∧
    q.mcastcipherset = p.mcastcipherset ∧ q.ucastcipherset = p.ucastcipherset ∧
    q.keyMgmt = p.keyMgmt ∧ q.mgmtcipherset = p.mgmtcipherset ∧ q.rsnCaps = p.rsnCaps

/-- The element is read back exactly when neither of the two AKMs that only the parser knows
is in the set. -/
theorem rsnie_readsBack_iff (p : CryptoParams) (pmksa : Option Pmksa) (h : Negotiable p) :
    ReadsBack p pmksa ↔ hasParam p.keyMgmt KeyMgmt.ftPskSha384.val = false ∧
      hasParam p.keyMgmt KeyMgmt.pskSha384.val = false := by
  rw [← reread_eq_iff h,ReadsBack,rsnieCheck_build h]
  constructor
  · rintro ⟨q,hq,-,-,hk,-,-⟩
    cases hq
    exact hk
  · intro hk
    exact ⟨_,rfl,rfl,rfl,hk,rfl,rfl⟩

theorem hasParam_setParam {s : BitVec 32} {v i : ℕ} (h : hasParam (setParam s v) i = true) :
    hasParam s i = true ∨ v = i := by
  rw [hasParam,getLsbD_setParam] at h
  simp only [Bool.or_eq_true,Bool.and_eq_true,decide_eq_true_eq] at h
  exact h.imp id fun h => h.2

theorem hasParam_zero (i : ℕ) : hasParam 0#32 i = false := BitVec.getLsbD_zero

/-- WPA2-PSK with CCMP, and one more AKM -/
def pskAnd (k : KeyMgmt) : CryptoParams :=
  ⟨0,setParam 0#32 Cipher.aesCcm.val,setParam 0#32 Cipher.aesCcm.val,0,
    setParam (setParam 0#32 KeyMgmt.psk.val) k.val,0⟩

theorem negotiable_pskAnd {k : KeyMgmt} (hk : Producible k) (hne : k ≠ .cckm)
    (hz : (pskAnd k).keyMgmt ≠ 0#32) : Negotiable (pskAnd k) where
  group := ⟨.aesCcm,by decide,rfl⟩
  ucast_ne := show setParam 0#32 Cipher.aesCcm.val ≠ 0#32 by decide
  ucast i hi := by
    rcases hasParam_setParam hi with h | h
    · rw [hasParam_zero] at h
      cases h
    · exact ⟨.aesCcm,by decide,h⟩
  keyMgmt_ne := hz
  keyMgmt i hi := by
    rcases hasParam_setParam hi with h | h
    · rcases hasParam_setParam h with h | h
      · rw [hasParam_zero] at h
        cases h
      · exact ⟨.psk,⟨rsnSel 2,by decide⟩,by decide,h⟩
    · exact ⟨k,hk,hne,h⟩
  mgmt := by
    rw [MgmtCipher,if_neg (by show mfpEnabled 0 ≠ true; decide)]
    rfl

theorem rsnie_readsBack_sae : ReadsBack (pskAnd .sae) none :=
  (rsnie_readsBack_iff (pskAnd .sae) none
    (negotiable_pskAnd ⟨rsnSel 8,by decide⟩ (by decide) (by decide))).mpr (by decide)

/-- PSK and PSK-SHA384: only the first is read back. -/
theorem rsnie_readsBack_pskSha384 :
    Negotiable (pskAnd .pskSha384) ∧ ¬ReadsBack (pskAnd .pskSha384) none := by
  refine ⟨negotiable_pskAnd ⟨rsnSel 20,by decide⟩ (by decide) (by decide),?_⟩
  rintro ⟨q,hq,-,-,hk,-⟩
  have hread : rsnieCheck (buildRsnieWithPmksa (pskAnd .pskSha384) none) =
      some ⟨64,8,8,0,2,0⟩ := by decide
  rw [hread] at hq
  cases hq
  revert hk
  decide

end Rsn
end MarbleModules
