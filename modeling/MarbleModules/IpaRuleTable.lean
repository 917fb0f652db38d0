import MarbleModules.IpaRuleRoundTrip

/-! A table of rules in memory: what the writer leaves behind and what the parser makes of it. -/
namespace MarbleModules
namespace IpaRule
open TwoCursors

section Padding

theorem padTo64_snd (mem : Mem) (d : ℕ) : (padTo64 mem d).2 = alignRule d := by
  unfold padTo64 alignRule
  split
  · show d+(8-d % 8) = _
    omega
  · show d = _
    omega

/-- Padding only writes from where it starts up to the next multiple of 8. -/
theorem padTo64_fst {mem : Mem} {d x : ℕ} (h : x < d ∨ alignRule d ≤ x) :
    (padTo64 mem d).1 x = mem x := by
  unfold alignRule at h
  unfold padTo64
  split
  · rcases h with h | h
    · exact write_of_lt _ h
    · exact write_of_le _ (by rw [List.length_replicate]; omega)
  · rfl

end Padding

section Lengths

theorem length_extras_putIf (b : Bool) (ps : List Put) :
    (extras (putIf b ps)).length = b.toNat*(extras ps).length := by
  cases b <;> simp [putIf,extras]

/-- Both slots of a count of at most two. -/
theorem slots_toNat {n : ℕ} (h : n ≤ 2) : (decide (0 < n)).toNat+(decide (1 < n)).toNat = n := by
  match n,h with
  | 0,_ | 1,_ | 2,_ => rfl

theorem SlotsAgree.le_two {hw : HwType} {bitmap num : ℕ} {eq0 eq1 : Equation}
    (h : SlotsAgree hw bitmap num eq0 eq1) : num ≤ 2 := by
  have h0 := Bool.toNat_le (hasEq hw bitmap eq0)
  have h1 := Bool.toNat_le (hasEq hw bitmap eq1)
  have hnum := h.1
  omega

/-- The bytes for the extra words are as many as have been counted. -/
theorem length_extras_bdyPuts {hw : HwType} {a : RuleEq} (h : Agrees hw a) :
    (extras (bdyPuts hw a)).length = calcExtraWrdBytes a := by
  have h128 := slots_toNat h.offsetMeq128.le_two
  have h32 := slots_toNat h.offsetMeq32.le_two
  have hihl := slots_toNat h.ihlOffsetMeq32.le_two
  have hrange := slots_toNat h.ihlOffsetRange16.le_two
  simp only [bdyPuts,List.flatten_cons,List.flatten_nil,extras_append,List.length_append,
    length_extras_putIf,putMeq128,putMeq32,putRange16,put16,put32,extras,List.length_cons,
    List.length_nil,calcExtraWrdBytes,Nat.zero_add,Nat.mul_one]
  linarith

/-- Thirteen equations need a byte each in the extra words. -/
theorem calcExtraWrdBytes_le {hw : HwType} {a : RuleEq} (h : Agrees hw a) :
    calcExtraWrdBytes a ≤ 13 := by
  have h128 := h.offsetMeq128.le_two
  have h32 := h.offsetMeq32.le_two
  have hihl := h.ihlOffsetMeq32.le_two
  have hrange := h.ihlOffsetRange16.le_two
  have h1 := Bool.toNat_le a.tosEqPresent
  have h2 := Bool.toNat_le a.protocolEqPresent
  have h3 := Bool.toNat_le a.tcEqPresent
  have h4 := Bool.toNat_le a.ihlOffsetEq32Present
  have h5 := Bool.toNat_le a.ihlOffsetEq16Present
  unfold calcExtraWrdBytes
  omega

end Lengths

section Body
variable {hw : HwType} {a : RuleEq}

/-- The end of a body that starts at `buf`. -/
def bodyEnd (hw : HwType) (a : RuleEq) (buf : ℕ) : ℕ :=
  alignRule ((bdyStart (calcExtraWrdBytes a) buf).2+(rests (bdyPuts hw a)).length)

/-- The cursors at the start of a body. -/
def bodyCursor (a : RuleEq) (buf : ℕ) : Cursor :=
  ⟨(bdyStart (calcExtraWrdBytes a) buf).1.getD 0,(bdyStart (calcExtraWrdBytes a) buf).2⟩

/-- The extra words, with their padding, end where the rest begins. -/
theorem bdyStart_some {n buf e : ℕ} (hn : n ≤ 13) (hbuf : 8 ∣ buf)
    (he : (bdyStart n buf).1 = some e) : e = buf ∧ alignRule (buf+n) ≤ (bdyStart n buf).2 := by
  unfold bdyStart IPA3_0_HW_TBL_HDR_WIDTH at he ⊢
  unfold alignRule
  split at he
  · cases he
    rw [if_pos (by assumption)]
    exact ⟨rfl,show _ ≤ buf+8*2 by omega⟩
  · split at he
    · cases he
      rw [if_neg (by assumption),if_pos (by assumption)]
      exact ⟨rfl,show _ ≤ buf+8 by omega⟩
    · cases he

theorem bdyStart_none {n buf : ℕ} (h : (bdyStart n buf).1 = none) : n = 0 := by
  unfold bdyStart at h
  split at h
  · cases h
  · split at h
    · cases h
    · omega

theorem le_bdyStart (n buf : ℕ) : buf ≤ (bdyStart n buf).2 := by
  unfold bdyStart
  split
  · exact Nat.le_add_right ..
  · split
    · exact Nat.le_add_right ..
    · exact le_rfl

theorem le_alignRule (d : ℕ) : d ≤ alignRule d := by unfold alignRule; omega

theorem dvd_alignRule (d : ℕ) : 8 ∣ alignRule d := by unfold alignRule; omega

theorem le_bodyEnd (hw : HwType) (a : RuleEq) (buf : ℕ) : buf ≤ bodyEnd hw a buf := by
  have hs := le_bdyStart (calcExtraWrdBytes a) buf
  have hal := le_alignRule ((bdyStart (calcExtraWrdBytes a) buf).2+(rests (bdyPuts hw a)).length)
  unfold bodyEnd
  omega

/-- The version knows one of type of service and pure ACK. -/
theorem tos_supported (hw : HwType) :
    ¬(isRuleEqValid hw .IS_PURE_ACK = false ∧ isRuleEqValid hw .TOS_EQ = false) := by
  cases hw <;> decide

/-- Padding behind both cursors changes nothing else. -/
theorem padBoth_fst {w : Writer} {x : ℕ} (he : ∀ e,w.extra = some e → x < e ∨ alignRule e ≤ x)
    (hr : x < w.rest ∨ alignRule w.rest ≤ x) :
    (padTo64 (match w.extra with
      | some e => (padTo64 w.mem e).1
      | none => w.mem) w.rest).1 x = w.mem x := by
  rw [padTo64_fst hr]
  cases hw : w.extra with
  | none => rfl
  | some e => exact padTo64_fst (he e hw)

/-- The bytes of a body stand between its start and its end, and nothing else changes. -/
theorem generateHwRuleBdyFromEq_spec (h : Agrees hw a) (mem : Mem) {buf : ℕ} (hbuf : 8 ∣ buf) :
    ∃ mem',generateHwRuleBdyFromEq hw a mem buf = .ok (mem',bodyEnd hw a buf) ∧
      At mem' (bodyCursor a buf) (bdyPuts hw a) ∧
      ∀ x,x < buf ∨ bodyEnd hw a buf ≤ x → mem' x = mem x := by
  have hn := calcExtraWrdBytes_le h
  have hlen := length_extras_bdyPuts h
  have hsupp : ¬(a.tosEqPresent ∧ isRuleEqValid hw .IS_PURE_ACK = false ∧
      isRuleEqValid hw .TOS_EQ = false) := fun hh => tos_supported hw hh.2
  have hstart := le_bdyStart (calcExtraWrdBytes a) buf
  have hsome := fun e => bdyStart_some (e := e) hn hbuf
  have hnone := @bdyStart_none (calcExtraWrdBytes a) buf
  simp only [generateHwRuleBdyFromEq,if_neg (Nat.not_lt.mpr hn),if_neg hsupp]
  unfold bodyEnd bodyCursor
  generalize bdyStart (calcExtraWrdBytes a) buf = st at hstart hsome hnone
  obtain ⟨ex,rest⟩ := st
  have hpad := le_alignRule (buf+calcExtraWrdBytes a)
  have hal := le_alignRule (rest+(rests (bdyPuts hw a)).length)
  have hw' : Wrote (bdyPuts hw a) ⟨mem,ex,rest⟩ ((bdyPuts hw a).foldl Put.run ⟨mem,ex,rest⟩) := by
    refine wrote_foldl fun c hc => ?_
    obtain ⟨rfl,hle⟩ := hsome c hc
    show c+_ ≤ rest
    omega
  generalize (bdyPuts hw a).foldl Put.run ⟨mem,ex,rest⟩ = w at hw'
  have hrest : w.rest = rest+(rests (bdyPuts hw a)).length := hw'.rest
  have hextra : ∀ e,w.extra = some e → e = buf+calcExtraWrdBytes a ∧ alignRule e ≤ rest := by
    intro e he
    cases hex : ex with
    | none => rw [hw'.none hex] at he; cases he
    | some c =>
      obtain ⟨rfl,hle⟩ := hsome c hex
      have hh := (hw'.extra c hex).1
      rw [he,hlen] at hh
      cases hh
      exact ⟨rfl,hle⟩
  have hsame : ∀ x,(∀ e,w.extra = some e → x < e ∨ alignRule e ≤ x) →
      x < w.rest ∨ alignRule w.rest ≤ x → _ := fun x => padBoth_fst (w := w) (x := x)
  refine ⟨_,by rw [← hrest,← padTo64_snd],⟨?_,?_⟩,fun x hx => ?_⟩
  · cases hex : ex with
    | none =>
      have hnil : extras (bdyPuts hw a) = [] := by
        rw [← List.length_eq_zero_iff,hlen]
        exact hnone hex
      rw [hnil]
      exact holds_nil _ _
    | some c =>
      obtain ⟨rfl,hle⟩ := hsome c hex
      refine (hw'.extra c hex).2.congr fun x h1 h2 => hsame x (fun e he => Or.inl ?_) (Or.inl ?_)
      · rw [(hextra e he).1,← hlen]
        exact h2
      · show x < w.rest
        change x < c+_ at h2
        omega
  · refine hw'.holdsRest.congr fun x h1 h2 => hsame x (fun e he => Or.inr ?_) (Or.inl ?_)
    · exact (hextra e he).2.trans h1
    · rw [hrest]
      exact h2
  · change x < buf ∨ alignRule (rest+(rests (bdyPuts hw a)).length) ≤ x at hx
    change buf ≤ rest at hstart
    refine (hsame x (fun e he => ?_) ?_).trans (hw'.same x (fun c hc => ?_) ?_)
    · obtain ⟨rfl,hle⟩ := hextra e he
      omega
    · rw [hrest]
      omega
    · obtain ⟨rfl,hle⟩ := hsome c hc
      change _ ≤ rest at hle
      rw [hlen]
      omega
    · show x < rest ∨ rest+(rests (bdyPuts hw a)).length ≤ x
      omega

/-- The bytes of a body stay as long as nothing between its start and its end changes. -/
theorem body_congr (h : Agrees hw a) {mem mem' : Mem} {buf : ℕ} (hbuf : 8 ∣ buf)
    (hat : At mem (bodyCursor a buf) (bdyPuts hw a))
    (he : ∀ x,buf ≤ x → x < bodyEnd hw a buf → mem' x = mem x) :
    At mem' (bodyCursor a buf) (bdyPuts hw a) := by
  have hn := calcExtraWrdBytes_le h
  have hlen := length_extras_bdyPuts h
  have hstart := le_bdyStart (calcExtraWrdBytes a) buf
  have hal := le_alignRule ((bdyStart (calcExtraWrdBytes a) buf).2+(rests (bdyPuts hw a)).length)
  change _ ≤ bodyEnd hw a buf at hal
  refine ⟨hat.extra.congr fun x h1 h2 => ?_,hat.rest.congr fun x h1 h2 => ?_⟩
  · rw [hlen] at h2
    unfold bodyCursor at h1 h2
    cases hex : (bdyStart (calcExtraWrdBytes a) buf).1 with
    | none =>
      rw [hex,bdyStart_none hex] at h2
      simp only [Option.getD_none] at h2
      omega
    | some c =>
      obtain ⟨rfl,hle⟩ := bdyStart_some hn hbuf hex
      have hpad := le_alignRule (c+calcExtraWrdBytes a)
      rw [hex] at h1 h2
      simp only [Option.getD_some] at h1 h2
      exact he x h1 (by omega)
  · unfold bodyCursor at h1 h2
    simp only at h1 h2
    exact he x (by omega) (by omega)

/-- The parser takes the equations and the size back from the bytes of a body. -/
theorem parseHwRuleEq_spec (h : Agrees hw a) {mem : Mem} {addr hdrSz : ℕ}
    (hat : At mem (bodyCursor a (addr+hdrSz)) (bdyPuts hw a)) :
    parseHwRuleEq hw mem addr hdrSz (RuleEq.zeroed a.ruleEqBitmap) =
      .ok (a.clean,hdrSz+(bodyEnd hw a (addr+hdrSz)-(addr+hdrSz))) := by
  have hcalc : calcExtraWrdBytes a.blank = calcExtraWrdBytes a := rfl
  have hread := inverse_readEqs h mem _ hat
  have hend := le_bodyEnd hw a (addr+hdrSz)
  unfold bodyCursor at hread
  simp only [parseHwRuleEq,presentFromBitmap_zeroed h,hcalc,
    if_neg (Nat.not_lt.mpr (calcExtraWrdBytes_le h)),hread]
  change Except.ok (a.clean,bodyEnd hw a (addr+hdrSz)-addr) = _
  congr 2
  omega

end Body

section Table
variable {hw : HwType}

/-- A rule of a table: the word of its header is not zero and has the bitmap in its low half-word. -/
structure RuleOk (hw : HwType) (rule : ℕ × RuleEq) : Prop where
  agrees : Agrees hw rule.2
  lt : rule.1 < 2^64
  ne_zero : rule.1 ≠ 0
  enRule : rule.1 % 2^16 = rule.2.ruleEqBitmap

/-- The rules stand one after another from `addr` to `fin`. -/
def TableAt (hw : HwType) (mem : Mem) : List (ℕ × RuleEq) → ℕ → ℕ → Prop
  | [],addr,fin => fin = addr
  | rule::rules,addr,fin => Holds mem addr (leBytes 8 rule.1) ∧
      At mem (bodyCursor rule.2 (addr+8)) (bdyPuts hw rule.2) ∧
      TableAt hw mem rules (bodyEnd hw rule.2 (addr+8)) fin

theorem genHwRule_spec {rule : ℕ × RuleEq} (h : RuleOk hw rule) (mem : Mem) {addr : ℕ}
    (haddr : 8 ∣ addr) :
    ∃ mem',genHwRule hw rule mem addr = .ok (mem',bodyEnd hw rule.2 (addr+8)) ∧
      Holds mem' addr (leBytes 8 rule.1) ∧
      At mem' (bodyCursor rule.2 (addr+8)) (bdyPuts hw rule.2) ∧
      ∀ x,x < addr ∨ bodyEnd hw rule.2 (addr+8) ≤ x → mem' x = mem x := by
  have hbuf : 8 ∣ addr+8 := by omega
  obtain ⟨mem1,hgen,hat,hsame⟩ := generateHwRuleBdyFromEq_spec h.agrees mem hbuf
  have hend := le_bodyEnd hw rule.2 (addr+8)
  have hlen := length_leBytes 8 rule.1
  refine ⟨write mem1 addr (leBytes 8 rule.1),?_,holds_write _ _ _,?_,fun x hx => ?_⟩
  · rw [genHwRule,hgen]
  · exact body_congr h.agrees hbuf hat fun x h1 _ => write_of_le _ (by omega)
  · rw [← hsame x (by omega)]
    rcases hx with hx | hx
    · exact write_of_lt _ hx
    · exact write_of_le _ (by omega)

theorem genTable_spec {rules : List (ℕ × RuleEq)} (h : ∀ rule ∈ rules,RuleOk hw rule) (mem : Mem)
    {addr : ℕ} (haddr : 8 ∣ addr) :
    ∃ mem' fin,genTable hw rules mem addr = .ok (mem',fin) ∧ TableAt hw mem' rules addr fin ∧
      ∀ x,x < addr → mem' x = mem x := by
  induction rules generalizing mem addr with
  | nil => exact ⟨mem,addr,rfl,rfl,fun _ _ => rfl⟩
  | cons rule rules ih =>
    have hrule := h rule List.mem_cons_self
    obtain ⟨mem1,hgen,hhdr,hat,hsame⟩ := genHwRule_spec hrule mem haddr
    have hbuf : 8 ∣ addr+8 := by omega
    have hend := le_bodyEnd hw rule.2 (addr+8)
    obtain ⟨mem2,fin,htab,hrest,hkeep⟩ := ih (fun r hr => h r (List.mem_cons_of_mem _ hr)) mem1
      (show 8 ∣ bodyEnd hw rule.2 (addr+8) from dvd_alignRule _)
    have hlen := length_leBytes 8 rule.1
    refine ⟨mem2,fin,?_,⟨hhdr.congr fun x _ h2 => hkeep x (by omega),?_,hrest⟩,fun x hx => ?_⟩
    · simp only [genTable,hgen,htab]
    · exact body_congr hrule.agrees hbuf hat fun x _ h2 => hkeep x h2
    · rw [hkeep x (by omega),hsame x (Or.inl hx)]

theorem parseHwRule_spec {rule : ℕ × RuleEq} (h : RuleOk hw rule) {mem : Mem} {addr : ℕ}
    (hhdr : Holds mem addr (leBytes 8 rule.1))
    (hat : At mem (bodyCursor rule.2 (addr+8)) (bdyPuts hw rule.2)) :
    parseHwRule hw mem addr =
      .ok (some ((rule.1,rule.2.clean),8+(bodyEnd hw rule.2 (addr+8)-(addr+8)))) := by
  have hword : readHdr mem addr = rule.1 := by
    have hread := hhdr.read
    rw [length_leBytes] at hread
    rw [readHdr,hread,leVal_leBytes_of_lt h.lt]
  simp only [parseHwRule,hword,if_neg h.ne_zero,h.enRule,parseHwRuleEq_spec h.agrees hat]

/-- The parser stops after as many rules as it is asked for, or at the zero word. -/
theorem readTable_spec {rules : List (ℕ × RuleEq)} (h : ∀ rule ∈ rules,RuleOk hw rule) {mem : Mem}
    {addr fin num : ℕ} (htab : TableAt hw mem rules addr fin)
    (hnum : num = rules.length ∨ rules.length ≤ num ∧ readHdr mem fin = 0) :
    readTable hw mem num addr = .ok (rules.map fun rule => (rule.1,rule.2.clean)) := by
  induction rules generalizing addr num with
  | nil =>
    obtain rfl : fin = addr := htab
    cases num with
    | zero => rfl
    | succ num =>
      rcases hnum with hnum | ⟨_,hzero⟩
      · cases hnum
      · simp only [readTable,parseHwRule,hzero,if_true,List.map_nil]
  | cons rule rules ih =>
    obtain ⟨hhdr,hat,hrest⟩ := htab
    have hend := le_bodyEnd hw rule.2 (addr+8)
    have hsize : addr+(8+(bodyEnd hw rule.2 (addr+8)-(addr+8))) = bodyEnd hw rule.2 (addr+8) := by
      omega
    rw [List.length_cons] at hnum
    obtain ⟨num,rfl⟩ : ∃ n,num = n+1 := ⟨num-1,by omega⟩
    have hnum : num = rules.length ∨ rules.length ≤ num ∧ readHdr mem fin = 0 :=
      hnum.imp (fun hh => by omega) fun hh => ⟨by omega,hh.2⟩
    have hih := ih (fun r hr => h r (List.mem_cons_of_mem _ hr)) hrest hnum
    simp only [readTable,parseHwRule_spec (h rule List.mem_cons_self) hhdr hat,hsize,hih,
      List.map_cons]

end Table

/-- Every rule, and every table of rules, that the writer makes is what the parser finds. -/
theorem rule_round_trip (hw : HwType) :
    (∀ a,Agrees hw a → ∀ mem addr hdrSz,8 ∣ addr+hdrSz →
      ((∃ r,generateHwRuleBdyFromEq hw a mem (addr+hdrSz) = .ok r) ↔ calcExtraWrdBytes a ≤ 13) ∧
      ∀ mem' fin,generateHwRuleBdyFromEq hw a mem (addr+hdrSz) = .ok (mem',fin) →
        parseHwRuleEq hw mem' addr hdrSz (RuleEq.zeroed a.ruleEqBitmap) =
          .ok (a.clean,hdrSz+(fin-(addr+hdrSz)))) ∧
    ∀ rules : List (ℕ × RuleEq),(∀ rule ∈ rules,RuleOk hw rule) → ∀ mem addr,8 ∣ addr →
      ∃ mem' fin,genTable hw rules mem addr = .ok (mem',fin) ∧
        ∀ num,(num = rules.length ∨ rules.length ≤ num ∧ readHdr mem' fin = 0) →
          readTable hw mem' num addr = .ok (rules.map fun rule => (rule.1,rule.2.clean)) := by
  refine ⟨fun a h mem addr hdrSz hbuf => ?_,fun rules h mem addr haddr => ?_⟩
  · obtain ⟨mem1,hgen,hat,_⟩ := generateHwRuleBdyFromEq_spec h mem hbuf
    refine ⟨⟨fun _ => calcExtraWrdBytes_le h,fun _ => ⟨_,hgen⟩⟩,fun mem' fin hh => ?_⟩
    rw [hgen] at hh
    cases hh
    exact parseHwRuleEq_spec h hat
  · obtain ⟨mem1,fin,hgen,htab,_⟩ := genTable_spec h mem haddr
    exact ⟨mem1,fin,hgen,fun num hnum => readTable_spec h htab hnum⟩

/-- A pure ACK of one protocol with one mask equation, for a version that has no TOS equation. -/
def ackRule : RuleEq :=
  {RuleEq.zeroed 0x8023 with
    tosEqPresent := true,protocolEqPresent := true,protocolEq := 6,numOffsetMeq32 := 1
    offsetMeq32 := (⟨12,0xFF,0x0A⟩,.zero),ipv4FragEqPresent := true}

theorem agrees_ackRule : Agrees .v4_5 ackRule where
  bitmap := by decide
  tos := by decide
  pureAck := fun _ _ => rfl
  protocol := by decide
  tc := by decide
  offsetMeq128 := ⟨by decide,by decide⟩
  offsetMeq32 := ⟨by decide,by decide⟩
  ihlOffsetMeq32 := ⟨by decide,by decide⟩
  metadata := by decide
  metadataOffset := fun _ => rfl
  ihlOffsetRange16 := ⟨by decide,by decide⟩
  eq32 := by decide
  eq16 := by decide
  fl := by decide
  flLt := by decide
  frag := by decide

theorem rule_round_trip_ackRule :
    (∀ mem' fin,generateHwRuleBdyFromEq .v4_5 ackRule (fun _ => 0) 8 = .ok (mem',fin) →
      parseHwRuleEq .v4_5 mem' 0 8 (RuleEq.zeroed 0x8023) = .ok (ackRule,8+(fin-8))) ∧
    ∃ mem' fin,genTable .v4_5 [(0x8023,ackRule),(0x18023,ackRule)] (fun _ => 0) 0 = .ok (mem',fin) ∧
      readTable .v4_5 mem' 2 0 = .ok [(0x8023,ackRule),(0x18023,ackRule)] := by
  refine ⟨((rule_round_trip .v4_5).1 ackRule agrees_ackRule (fun _ => 0) 0 8 (by decide)).2,?_⟩
  obtain ⟨mem',fin,hgen,hread⟩ := (rule_round_trip .v4_5).2 [(0x8023,ackRule),(0x18023,ackRule)]
    (by
      intro rule hr
      simp only [List.mem_cons,List.not_mem_nil,or_false] at hr
      rcases hr with rfl | rfl
      · exact ⟨agrees_ackRule,by decide,by decide,by decide⟩
      · exact ⟨agrees_ackRule,by decide,by decide,by decide⟩) (fun _ => 0) 0 (by decide)
  exact ⟨mem',fin,hgen,hread 2 (Or.inl rfl)⟩

end IpaRule
end MarbleModules
