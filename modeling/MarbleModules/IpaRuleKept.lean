import MarbleModules.IpaRuleDirect

/-! The attributes for which a body that is built at once keeps the order of the equations. -/
namespace MarbleModules
namespace IpaRule
open TwoCursors RankedLists

/-- The body has a byte for each enabled equation that needs one and the parameters of the enabled
equations, both in the order of the hardware, and the parser takes from it each enabled equation
as its attribute wrote it and the size that was written. -/
structure KeepsOrder (hw : HwType) (ipt : IpType) (a : RuleAttrib) (s : Gen) : Prop where
  extra : extras s.puts = extras (bdyPuts hw (s.ruleEq hw))
  rest : rests s.puts = rests (bdyPuts hw (s.ruleEq hw))
  parse : ∀ (mem : Mem) (addr : ℕ), 8 ∣ addr → ∃ r,
    generateHwRuleBdy hw ipt a mem (addr+8) = .ok r ∧
      parseHwRuleEq hw r.1 addr 8 (RuleEq.zeroed r.2.2) = .ok (s.ruleEq hw,r.2.1-addr)

/-- The attributes of `ihlBranches`. -/
def ihlFlags : List Flt :=
  [.TYPE,.CODE,.SPI,.MAC_DST_ADDR_L2TP,.L2TP_UDP_INNER_MAC_DST_ADDR]

/-- The extended attributes that a version writes equations for, in their proper places. -/
def extFlags : IpType → List FltExt
  | .v4 => [.L2TP_UDP_INNER_ETHER_TYPE,.MTU]
  | .v6 => [.L2TP_UDP_INNER_ETHER_TYPE,.L2TP_UDP_TCP_SYN,.L2TP_UDP_INNER_NEXT_HDR]
  | .max => []

/-- No byte is written twice, the ether type in L2TP over UDP comes after no equation of a later
place, and the default rule is not added to equations of extended attributes. -/
structure InOrder (ipt : IpType) (a : RuleAttrib) : Prop where
  nextHdr : ipt = .v6 → a.hasExt .NEXT_HDR = false
  innerEther : a.hasExt .L2TP_UDP_INNER_ETHER_TYPE = true → ∀ f ∈ ihlFlags, a.has f = false
  default : a.attribMask = ∅ → ∀ f ∈ extFlags ipt, a.hasExt f = false

section Accepted
variable {hw : HwType} {ipt : IpType} {a : RuleAttrib} {s s₀ : Gen}

theorem genBdy_some (h : genBdy hw ipt a = some s) :
    ∃ s₀, Gen.run hw (given (branches ipt a)) Gen.start = some s₀ ∧
      s = if a.attribMask = ∅ then s₀.addDefault hw else s₀ := by
  unfold genBdy at h
  split at h
  · cases h
  split at h
  · cases h
  next s₀ hrun =>
  refine ⟨s₀,hrun,?_⟩
  split at h
  next he => exact (Option.some.inj h).symm.trans (if_pos he).symm
  next he => exact (Option.some.inj h).symm.trans (if_neg he).symm

theorem keepsOrder_of_puts (h : genBdy hw ipt a = some s) (hs : s.Sound hw)
    (hputs : s.puts = bdyPuts hw (s.ruleEq hw)) : KeepsOrder hw ipt a s where
  extra := congrArg extras hputs
  rest := congrArg rests hputs
  parse mem addr haddr := by
    refine ⟨_,by rw [generateHwRuleBdy,h],?_⟩
    rw [hs.parse_body (congrArg extras hputs) (congrArg rests hputs) mem haddr]
    congr 2
    show 8+s.body.length = addr+8+s.body.length-addr
    omega

theorem rank_ihlEqns : ∀ e ∈ ihlEqns a, e.rank = 5 := by
  intro e he
  have hmem := rank_mem (mayOf_given _) (ranks_ihl a) he
  simpa using hmem

/-- No equation of these has the offset of the ether type. -/
theorem extras_ihlEqns : ∀ e ∈ ihlEqns a, ∃ b, extras e.puts = [b] ∧ b ≠ 76 := by
  intro e he
  have hmem := (mayOf_given _).subset he
  simp only [mayOfAll,ihlBranches,macOverTwo,mayOf,Block.may,List.flatMap_cons,List.flatMap_nil,
    List.append_nil,List.cons_append,List.nil_append,List.mem_cons,List.not_mem_nil,or_false]
    at hmem
  rcases hmem with rfl | rfl | rfl | rfl | rfl | rfl | rfl <;> exact ⟨_,rfl,by simp⟩

theorem ihlEqns_eq_nil_iff : ihlEqns a = [] ↔ ∀ f ∈ ihlFlags, a.has f = false := by
  have hcond : ∀ (c : Bool) (b : Block) (bs : List Block), b.may ≠ [] →
      (mayOf (if c then b::bs else []) = [] ↔ c = false) := by
    intro c b bs hb
    cases c with
    | false => simp [mayOf]
    | true => simp [mayOf,hb]
  simp only [ihlEqns,given,ihlBranches,macOverTwo,List.flatMap_cons,List.flatMap_nil,mayOf_append,
    List.append_eq_nil_iff,ihlFlags,List.mem_cons,List.not_mem_nil,or_false,forall_eq_or_imp,
    forall_eq]
  rw [hcond _ _ _ (by simp [Block.may]),hcond _ _ _ (by simp [Block.may]),
    hcond _ _ _ (by simp [Block.may]),hcond _ _ _ (by simp [Block.may]),
    hcond _ _ _ (by simp [Block.may])]
  simp [mayOf]

theorem etherEqns_eq (a : RuleAttrib) : etherEqns a =
    if a.hasExt .L2TP_UDP_INNER_ETHER_TYPE then [.ofstMeq32 (innerEtherEq a)] else [] := by
  simp only [etherEqns,given,innerEtherBranch,mayOf,List.flatMap_cons,List.flatMap_nil,
    List.append_nil]
  split <;> rfl

theorem ordered_parts {before after : List Eqn} (hp : Parts before after)
    (hne : a.hasExt .L2TP_UDP_INNER_ETHER_TYPE = true → ihlEqns a = []) :
    Ordered Eqn.rank (before++ihlEqns a++etherEqns a++after) ∧
      ∀ e ∈ before++ihlEqns a++etherEqns a++after, e.rank ≤ 9 := by
  have hihl := rank_ihlEqns (a := a)
  have hmid : Ordered Eqn.rank (before++ihlEqns a++etherEqns a) ∧
      ∀ e ∈ before++ihlEqns a++etherEqns a, e.rank ≤ 5 := by
    rw [etherEqns_eq]
    split
    next he =>
      rw [hne he,List.append_nil]
      refine ⟨hp.ordered.append (List.pairwise_singleton _ _) hp.le (by simp [Eqn.rank]),?_⟩
      intro e hmem
      rcases List.mem_append.1 hmem with hmem | hmem
      · exact (hp.le e hmem).trans (by decide)
      · rw [List.mem_singleton.1 hmem]
        show 4 ≤ 5
        omega
    next =>
      rw [List.append_nil]
      refine ⟨hp.ordered.append (ordered_const hihl) hp.le fun e he => ?_,?_⟩
      · rw [hihl e he]
        decide
      · intro e hmem
        rcases List.mem_append.1 hmem with hmem | hmem
        · exact (hp.le e hmem).trans (by decide)
        · exact (hihl e hmem).le
  refine ⟨hmid.1.append hp.ordered' hmid.2 hp.ge,?_⟩
  intro e hmem
  rcases List.mem_append.1 hmem with hmem | hmem
  · exact (hmid.2 e hmem).trans (by decide)
  · exact hp.le' e hmem

/-- The ether type after an equation of a later place. -/
theorem extras_ether_late (hs : s.Sound hw) (h1 : Singles s.out) {before after : List Eqn}
    (hout : s.out = before++ihlEqns a++etherEqns a++after) (hp : Parts before after)
    (he : a.hasExt .L2TP_UDP_INNER_ETHER_TYPE = true) (hne : ihlEqns a ≠ []) :
    extras s.puts ≠ extras (bdyPuts hw (s.ruleEq hw)) := by
  obtain ⟨y,between,hy⟩ := List.exists_cons_of_ne_nil hne
  obtain ⟨b,hb,hb76⟩ := extras_ihlEqns (a := a) y (by rw [hy]; exact List.mem_cons_self)
  have hlate : s.out = before++(y::between)++.ofstMeq32 (innerEtherEq a)::after := by
    rw [hout,etherEqns_eq,if_pos he,hy,List.append_assoc _ [_],List.singleton_append]
  refine hs.extras_late h1 hlate hp.ordered hp.le (fun e hmem => ?_) (fun e hmem => hp.ge e hmem)
    (by simp [Eqn.rank]) hb (c := 76) rfl hb76
  rw [← hy] at hmem
  rw [rank_ihlEqns e hmem]
  show 4 < 5
  omega

end Accepted

section Bare
variable {hw : HwType} {a : RuleAttrib} {s : Gen}

theorem has_of_empty (h : a.attribMask = ∅) (f : Flt) : a.has f = false := by
  simp [RuleAttrib.has,h]

theorem mayOf_given_one (c : Bool) (bs : List Block) :
    mayOf (given [(c,bs)]) = if c then mayOf bs else [] := by
  simp only [given,List.flatMap_cons,List.flatMap_nil,List.append_nil]
  split <;> rfl

theorem count_etherEqns (l l' : List Eqn) (hl : ∀ e ∈ l, e.rank ≠ 4)
    (hl' : ∀ e ∈ l', e.rank ≠ 4) (hout : s.out = l++etherEqns a++l') :
    count .ofstMeq32 s.out = if a.hasExt .L2TP_UDP_INNER_ETHER_TYPE then 1 else 0 := by
  have hnone : ∀ l : List Eqn, (∀ e ∈ l, e.rank ≠ 4) → ranked 4 l = [] := by
    intro l hl
    rw [ranked,List.filter_eq_nil_iff]
    intro e he
    simpa using hl e he
  rw [count_eq,hout,etherEqns_eq]
  show (ranked 4 _).length = _
  rw [ranked,List.filter_append,List.filter_append]
  change (ranked 4 l++_++ranked 4 l').length = _
  rw [hnone l hl,hnone l' hl',List.append_nil,List.nil_append]
  split <;> rfl

/-- What IPv4 writes without an attribute of its own. -/
theorem ip4_bare (hempty : a.attribMask = ∅)
    (h : Gen.run hw (given (ip4Branches a)) Gen.start = some s) :
    s.out = etherEqns a++
      if a.hasExt .MTU then [.ihlOfstRng16 ⟨130,a.payloadLength,0⟩] else [] := by
  have hhas := has_of_empty hempty
  have hgiven : given (ip4Branches a) = given [innerEtherBranch a]++
      given [(a.hasExt .MTU,[.eqn (.ihlOfstRng16 ⟨130,a.payloadLength,0⟩)])] := by
    simp [given,ip4Branches,ip4Head,macBranches,etherTypeBranch,vlanBranch,ihlBranches,ip4Tail,
      tcpSynBranch,metaDataBranch,portRangeBranches,portBranches,fragBranch,hhas]
  obtain ⟨_,out,hout,_,hplain⟩ := (inv_start hw).run h
  rw [hgiven] at hplain
  have hall := hplain fun b hb => by
    rcases List.mem_append.1 hb with hb | hb
    · exact plain_ether a b hb
    · exact plain_given (by simp [Block.plain]) b hb
  rw [mayOf_append,mayOf_given_one (a.hasExt .MTU)] at hall
  exact (hout.trans (List.nil_append _)).trans hall

/-- What IPv6 writes without an attribute of its own. -/
theorem ip6_bare (hempty : a.attribMask = ∅)
    (h : Gen.run hw (given (ip6Branches a)) Gen.start = some s) :
    s.out = (if a.hasExt .NEXT_HDR then
        [.ihlOfstMeq32 ⟨134,0xFF000000,a.v6.nextHdr.toUInt32 <<< 24⟩,.stray a.v6.nextHdr]
        else [])++etherEqns a++
      ((if a.hasExt .L2TP_UDP_TCP_SYN then mayOf (tcpSynInside a 46 42 70 90) else [])++
      (if a.hasExt .L2TP_UDP_INNER_NEXT_HDR then
        [.ihlOfstMeq32 (if a.etherType = 0x0800 then
            ⟨46,0xFF0000,a.l2tpUdpNextHdr.toUInt32 <<< 16⟩
          else ⟨42,0xFF00,a.l2tpUdpNextHdr.toUInt32 <<< 8⟩)] else [])) := by
  have hhas := has_of_empty hempty
  have hgiven : given (ip6Branches a) = given [extNextHdrBranch a]++given [innerEtherBranch a]++
      (given [(a.hasExt .L2TP_UDP_TCP_SYN,tcpSynInside a 46 42 70 90)]++
      given [(a.hasExt .L2TP_UDP_INNER_NEXT_HDR,
        [.eqn (.ihlOfstMeq32 (if a.etherType = 0x0800 then
            ⟨46,0xFF0000,a.l2tpUdpNextHdr.toUInt32 <<< 16⟩
          else ⟨42,0xFF00,a.l2tpUdpNextHdr.toUInt32 <<< 8⟩))])]) := by
    simp [given,ip6Branches,ip6Head,macBranches,etherTypeBranch,vlanBranch,ihlBranches,ip6Tail,
      tcpSynBranch,metaDataBranch,portRangeBranches,portBranches,fragBranch,hhas]
  have hplainIn : ∀ b ∈ tcpSynInside a 46 42 70 90, b.plain = true := by
    unfold tcpSynInside
    split <;> simp [Block.plain]
  obtain ⟨_,out,hout,_,hplain⟩ := (inv_start hw).run h
  rw [hgiven] at hplain
  have hall := hplain fun b hb => by
    rcases List.mem_append.1 hb with hb | hb
    · rcases List.mem_append.1 hb with hb | hb
      · exact plain_given (by simp [extNextHdrBranch,Block.plain]) b hb
      · exact plain_ether a b hb
    · rcases List.mem_append.1 hb with hb | hb
      · exact plain_given (by simpa using hplainIn) b hb
      · exact plain_given (by simp [Block.plain]) b hb
  rw [mayOf_append,mayOf_append,mayOf_append,extNextHdrBranch,
    mayOf_given_one (a.hasExt .NEXT_HDR),mayOf_given_one (a.hasExt .L2TP_UDP_TCP_SYN),
    mayOf_given_one (a.hasExt .L2TP_UDP_INNER_NEXT_HDR)] at hall
  exact (hout.trans (List.nil_append _)).trans hall

end Bare

section Exact
variable {hw : HwType} {ipt : IpType} {a : RuleAttrib} {s s₀ : Gen}

theorem keepsOrder_iff_of_parts (h : genBdy hw ipt a = some s) (hs : s.Sound hw)
    (h1 : Singles s.out) {before after : List Eqn}
    (hout : s.out = before++ihlEqns a++etherEqns a++after) (hp : Parts before after) :
    KeepsOrder hw ipt a s ↔
      (a.hasExt .L2TP_UDP_INNER_ETHER_TYPE = true → ∀ f ∈ ihlFlags, a.has f = false) := by
  constructor
  · intro hk he
    rw [← ihlEqns_eq_nil_iff]
    by_contra hne
    exact extras_ether_late hs h1 hout hp he hne hk.extra
  · intro hflags
    obtain ⟨hordered,hle⟩ := ordered_parts hp fun he => ihlEqns_eq_nil_iff.2 (hflags he)
    rw [← hout] at hordered hle
    exact keepsOrder_of_puts h hs (hs.puts_eq h1 hordered hle)

/-- The default rule alone. -/
theorem keepsOrder_default (h : genBdy hw ipt a = some (s₀.addDefault hw)) (hs : s₀.Inv hw)
    (h1 : Singles s₀.out) (hout : s₀.out = []) : KeepsOrder hw ipt a (s₀.addDefault hw) := by
  have hsound := hs.addDefault (by rw [hout]; rfl)
  have hone : (s₀.addDefault hw).out = [.ofstMeq32 .zero] := by
    show s₀.out++[Eqn.ofstMeq32 .zero] = _
    rw [hout]
    rfl
  apply keepsOrder_of_puts h hsound
  apply hsound.puts_eq (singles_addDefault h1)
  · rw [hone]
    exact List.pairwise_singleton _ _
  · rw [hone]
    simp [Eqn.rank]

/-- With the default rule the ether type in L2TP over UDP would stand for two equations, and any
other equation before it. -/
theorem ether_of_default (hs : s₀.Inv hw) (h1 : Singles s₀.out) {l l' : List Eqn}
    (hl : ∀ e ∈ l, e.rank ≠ 4) (hl' : ∀ e ∈ l', e.rank ≠ 4)
    (hout : s₀.out = l++etherEqns a++l') (hk : KeepsOrder hw ipt a (s₀.addDefault hw)) :
    a.hasExt .L2TP_UDP_INNER_ETHER_TYPE = false := by
  by_contra he
  have hcount := count_etherEqns l l' hl hl' hout
  rw [if_pos (by simpa using he)] at hcount
  exact hs.extras_twice h1 hcount hk.extra

theorem ip4_keepsOrder_iff (h : genBdy hw .v4 a = some s) :
    KeepsOrder hw .v4 a s ↔ InOrder .v4 a := by
  obtain ⟨s₀,hrun,hs⟩ := genBdy_some h
  obtain ⟨hinv,before,after,hout,hparts⟩ := ip4_parts hrun
  have h1 := ip4_singles hrun
  by_cases hempty : a.attribMask = ∅
  · rw [if_pos hempty] at hs
    subst hs
    have hbare := ip4_bare hempty hrun
    constructor
    · intro hk
      have he : a.hasExt .L2TP_UDP_INNER_ETHER_TYPE = false :=
        ether_of_default hinv h1 (l := []) (by simp) (by split <;> simp [Eqn.rank]) hbare hk
      have hmtu : a.hasExt .MTU = false := by
        by_contra hmtu
        rw [Bool.not_eq_false] at hmtu
        rw [etherEqns_eq,he,hmtu] at hbare
        have hbare : s₀.out = [.ihlOfstRng16 ⟨130,a.payloadLength,0⟩] := hbare
        refine hinv.extras_default_late h1 (by simp [hbare]) ?_ hk.extra
        rw [hbare]
        simp only [List.mem_singleton,forall_eq]
        exact ⟨by simp [Eqn.rank],130,rfl,by decide⟩
      exact ⟨by simp,fun _ f _ => has_of_empty hempty f,fun _ => by simp [extFlags,he,hmtu]⟩
    · intro ho
      have hdefault := ho.default hempty
      apply keepsOrder_default h hinv h1
      rw [hbare,etherEqns_eq,hdefault .L2TP_UDP_INNER_ETHER_TYPE (by simp [extFlags]),
        hdefault .MTU (by simp [extFlags])]
      rfl
  · rw [if_neg hempty] at hs
    subst hs
    rw [keepsOrder_iff_of_parts h hinv.toSound h1 hout hparts]
    exact ⟨fun hh => ⟨by simp,hh,fun he => absurd he hempty⟩,fun hh => hh.innerEther⟩

/-- The equations that IPv6 writes for the extended attributes behind the ether type. -/
theorem ip6_late {e : Eqn}
    (he : e ∈ (if a.hasExt .L2TP_UDP_TCP_SYN then mayOf (tcpSynInside a 46 42 70 90) else [])++
      (if a.hasExt .L2TP_UDP_INNER_NEXT_HDR then
        [.ihlOfstMeq32 (if a.etherType = 0x0800 then
            ⟨46,0xFF0000,a.l2tpUdpNextHdr.toUInt32 <<< 16⟩
          else ⟨42,0xFF00,a.l2tpUdpNextHdr.toUInt32 <<< 8⟩)] else [])) :
    4 < e.rank ∧ ∃ b, extras e.puts = [b] ∧ b ≠ 0 := by
  rcases List.mem_append.1 he with he | he
  · split at he
    · unfold tcpSynInside at he
      split at he <;>
        · simp only [mayOf,Block.may,List.flatMap_cons,List.flatMap_nil,List.append_nil,
            List.cons_append,List.nil_append,List.mem_cons,List.not_mem_nil,or_false] at he
          rcases he with rfl | rfl <;> exact ⟨by simp [Eqn.rank],_,rfl,by simp⟩
    · cases he
  · split at he
    · rw [List.mem_singleton] at he
      subst he
      split <;> exact ⟨by simp [Eqn.rank],_,rfl,by simp⟩
    · cases he

theorem ip6_keepsOrder_iff (h : genBdy hw .v6 a = some s) :
    KeepsOrder hw .v6 a s ↔ InOrder .v6 a := by
  obtain ⟨s₀,hrun,hs⟩ := genBdy_some h
  have h1 := ip6_singles hrun
  by_cases hempty : a.attribMask = ∅
  · rw [if_pos hempty] at hs
    subst hs
    have hbare := ip6_bare hempty hrun
    obtain ⟨hinv,-⟩ := (inv_start hw).run hrun
    constructor
    · intro hk
      have he : a.hasExt .L2TP_UDP_INNER_ETHER_TYPE = false := by
        refine ether_of_default hinv h1 ?_ (fun e he => ?_) hbare hk
        · split <;> simp [Eqn.rank]
        · have hlate := (ip6_late he).1
          omega
      have hext : a.hasExt .NEXT_HDR = false := by
        by_contra hext
        rw [Bool.not_eq_false] at hext
        have hcount : count .ofstMeq32 s₀.out = 0 := by
          rw [count_etherEqns _ _ ?_ (fun e he => ?_) hbare,he]
          · rfl
          · split <;> simp [Eqn.rank]
          · have hlate := (ip6_late he).1
            omega
        have hstray : .stray a.v6.nextHdr ∈ (s₀.addDefault hw).out :=
          List.mem_append_left _ (ip6_stray hext hrun)
        exact (hinv.addDefault hcount).extras_stray (singles_addDefault h1) hstray hk.extra
      have hnil : s₀.out = [] := by
        by_contra hne
        refine hinv.extras_default_late h1 hne (fun e hmem => ?_) hk.extra
        rw [hbare,etherEqns_eq,he,hext] at hmem
        exact ip6_late hmem
      rw [hbare,etherEqns_eq,he,hext] at hnil
      obtain ⟨hsyn,hnext⟩ := List.append_eq_nil_iff.1 (List.append_eq_nil_iff.1 hnil).2
      have hsyn : a.hasExt .L2TP_UDP_TCP_SYN = false := by
        by_contra hflag
        rw [if_pos (by simpa using hflag)] at hsyn
        have hranks := ranks_tcpSynInside a 46 42 70 90
        rw [hsyn] at hranks
        cases hranks
      have hnext : a.hasExt .L2TP_UDP_INNER_NEXT_HDR = false := by
        by_contra hflag
        rw [if_pos (by simpa using hflag)] at hnext
        cases hnext
      exact ⟨fun _ => hext,fun _ f _ => has_of_empty hempty f,
        fun _ => by simp [extFlags,he,hsyn,hnext]⟩
    · intro ho
      have hdefault := ho.default hempty
      apply keepsOrder_default h hinv h1
      rw [hbare,etherEqns_eq,ho.nextHdr rfl,
        hdefault .L2TP_UDP_INNER_ETHER_TYPE (by simp [extFlags]),
        hdefault .L2TP_UDP_TCP_SYN (by simp [extFlags]),
        hdefault .L2TP_UDP_INNER_NEXT_HDR (by simp [extFlags])]
      rfl
  · rw [if_neg hempty] at hs
    subst hs
    cases hext : a.hasExt .NEXT_HDR with
    | true =>
      have hstray := ip6_stray hext hrun
      obtain ⟨hinv,-⟩ := (inv_start hw).run hrun
      constructor
      · intro hk
        exact absurd hk.extra (hinv.toSound.extras_stray h1 hstray)
      · intro ho
        rw [ho.nextHdr rfl] at hext
        cases hext
    | false =>
      obtain ⟨hinv,before,after,hout,hparts⟩ := ip6_parts hext hrun
      rw [keepsOrder_iff_of_parts h hinv.toSound h1 hout hparts]
      exact ⟨fun hh => ⟨fun _ => hext,hh,fun he => absurd he hempty⟩,fun hh => hh.innerEther⟩

/-- For every accepted set of attributes the body keeps the order of the equations exactly when
nothing is written out of its place. -/
theorem generateHwRuleBdy_keepsOrder_iff (hw : HwType) (ipt : IpType) (a : RuleAttrib) (s : Gen)
    (h : genBdy hw ipt a = some s) : KeepsOrder hw ipt a s ↔ InOrder ipt a := by
  cases ipt with
  | v4 => exact ip4_keepsOrder_iff h
  | v6 => exact ip6_keepsOrder_iff h
  | max => cases h

end Exact

section Samples

/-- Attributes that are all zero, with some of them given. -/
def attribOf (mask : Finset Flt) (extMask : Finset FltExt) : RuleAttrib where
  attribMask := mask
  extAttribMask := extMask
  srcPortLo := 0
  srcPortHi := 0
  dstPortLo := 0
  dstPortHi := 0
  type := 0
  code := 0
  tosValue := 0
  tosMask := 0
  spi := 0
  srcPort := 0
  dstPort := 0
  metaData := 0
  metaDataMask := 0
  srcMacAddr := fun _ => 0
  srcMacAddrMask := fun _ => 0
  dstMacAddr := fun _ => 0
  dstMacAddrMask := fun _ => 0
  etherType := 0
  v4 := ⟨0,0,0,0,0,0⟩
  v6 := ⟨0,0,0,fun _ => 0,fun _ => 0,fun _ => 0,fun _ => 0⟩
  vlanId := 0
  payloadLength := 0
  l2tpUdpNextHdr := 0

/-- ICMP type and inner ether type: the equation of 32 bits comes after the one behind the IP
header. -/
def typeAndEther : RuleAttrib := attribOf {.TYPE} {.L2TP_UDP_INNER_ETHER_TYPE}

def portOnly : RuleAttrib := attribOf {.SRC_PORT} ∅

theorem generateHwRuleBdy_keepsOrder_iff_port :
    KeepsOrder .v4_5 .v4 portOnly ((genBdy .v4_5 .v4 portOnly).getD Gen.start) ↔
      InOrder .v4 portOnly :=
  generateHwRuleBdy_keepsOrder_iff .v4_5 .v4 portOnly
    ((genBdy .v4_5 .v4 portOnly).getD Gen.start) rfl

/-- The two offsets stand the other way round among the extra words. -/
theorem not_keepsOrder_typeAndEther :
    ¬∀ (hw : HwType) (ipt : IpType) (a : RuleAttrib) (s : Gen),
      genBdy hw ipt a = some s → KeepsOrder hw ipt a s := by
  intro h
  have hk := h .v4_5 .v4 typeAndEther ((genBdy .v4_5 .v4 typeAndEther).getD Gen.start) rfl
  exact absurd hk.extra (by decide)

end Samples

end IpaRule
end MarbleModules
