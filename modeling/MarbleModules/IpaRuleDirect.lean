import Mathlib.Algebra.BigOperators.Group.List.Basic
import MarbleModules.IpaRuleCanon

/-! Rules whose bodies are built from the attributes at once: what a run of the generator leaves
behind, in which order, and what the default rule adds to it. -/
namespace MarbleModules
namespace IpaRule
open TwoCursors RankedLists

section Runs
variable {hw : HwType} {s s' : Gen}

/-- The equations that a block may write. -/
def Block.may : Block → List Eqn
  | .check _ => []
  | .eqn e => [e]
  | .tos e => [e]
  | .tosFound => []

/-- A block that writes its equation or refuses the rule. -/
def Block.plain : Block → Bool
  | .check _ => true
  | .eqn _ => true
  | .tos _ => false
  | .tosFound => false

def mayOf (bs : List Block) : List Eqn := bs.flatMap Block.may

theorem mayOf_append (bs cs : List Block) : mayOf (bs++cs) = mayOf bs++mayOf cs :=
  List.flatMap_append

theorem Gen.Inv.block {b : Block} (hs : s.Inv hw) (h : s.block hw b = some s') :
    s'.Inv hw ∧ ∃ out, s'.out = s.out++out ∧ out.Sublist b.may ∧
      (b.plain = true → out = b.may) := by
  have hsame : ∃ out, s.out = s.out++out ∧ out.Sublist b.may ∧
      (b.may = [] ∨ b.plain = false → b.plain = true → out = b.may) :=
    ⟨[],by simp,List.nil_sublist _,fun hh hp => by
      rcases hh with hh | hh
      · exact hh.symm
      · rw [hh] at hp
        cases hp⟩
  obtain ⟨out,hout,hsub,hplain⟩ := hsame
  cases b with
  | check ok =>
    simp only [Gen.block] at h
    split at h
    · cases h
      exact ⟨hs,out,hout,hsub,hplain (Or.inl rfl)⟩
    · cases h
  | eqn e =>
    simp only [Gen.block] at h
    split at h
    next ht =>
      cases h
      exact ⟨hs.add ht,[e],rfl,List.Sublist.refl _,fun _ => rfl⟩
    next => cases h
  | tos e =>
    simp only [Gen.block] at h
    split at h
    next ht =>
      cases h
      have hadd := hs.add ht.2
      exact ⟨⟨⟨hadd.le,hadd.bits,hadd.lt,hadd.valid⟩,hadd.used⟩,[e],rfl,List.Sublist.refl _,
        fun _ => rfl⟩
    next =>
      cases h
      exact ⟨hs,out,hout,hsub,hplain (Or.inr rfl)⟩
  | tosFound =>
    simp only [Gen.block] at h
    split at h
    · cases h
      exact ⟨hs,out,hout,hsub,hplain (Or.inl rfl)⟩
    · cases h

/-- A run writes some of what its blocks may write, and all of it if none of them is for the type
of service. -/
theorem Gen.Inv.run {bs : List Block} (hs : s.Inv hw) (h : Gen.run hw bs s = some s') :
    s'.Inv hw ∧ ∃ out, s'.out = s.out++out ∧ out.Sublist (mayOf bs) ∧
      ((∀ b ∈ bs, b.plain = true) → out = mayOf bs) := by
  induction bs generalizing s with
  | nil =>
    cases h
    exact ⟨hs,[],by simp,List.Sublist.refl _,fun _ => rfl⟩
  | cons b bs ih =>
    rw [Gen.run] at h
    cases hb : s.block hw b with
    | none =>
      rw [hb] at h
      cases h
    | some t =>
      rw [hb] at h
      obtain ⟨ht,o,ho,hosub,hoplain⟩ := hs.block hb
      obtain ⟨hs',o',ho',hosub',hoplain'⟩ := ih ht h
      refine ⟨hs',o++o',by rw [ho',ho,List.append_assoc],hosub.append hosub',fun hp => ?_⟩
      rw [hoplain (hp b List.mem_cons_self),hoplain' fun c hc => hp c (List.mem_cons_of_mem _ hc)]
      rfl

theorem run_append (bs cs : List Block) (s : Gen) :
    Gen.run hw (bs++cs) s = (Gen.run hw bs s).bind (Gen.run hw cs) := by
  induction bs generalizing s with
  | nil => rfl
  | cons b bs ih =>
    rw [List.cons_append,Gen.run,Gen.run]
    cases s.block hw b with
    | none => rfl
    | some t => exact ih t

/-- A run over four parts of which the two in the middle write all they may. -/
theorem run_parts {bs cs ds es : List Block} (hc : ∀ b ∈ cs, b.plain = true)
    (hd : ∀ b ∈ ds, b.plain = true) (h : Gen.run hw (bs++cs++ds++es) Gen.start = some s) :
    s.Inv hw ∧ ∃ before after, s.out = before++mayOf cs++mayOf ds++after ∧
      before.Sublist (mayOf bs) ∧ after.Sublist (mayOf es) := by
  simp only [run_append,Option.bind_eq_some_iff] at h
  obtain ⟨s₃,⟨s₂,⟨s₁,h1,h2⟩,h3⟩,h4⟩ := h
  obtain ⟨hs1,o1,ho1,hsub1,_⟩ := (inv_start hw).run h1
  obtain ⟨hs2,o2,ho2,_,hplain2⟩ := hs1.run h2
  obtain ⟨hs3,o3,ho3,_,hplain3⟩ := hs2.run h3
  obtain ⟨hs4,o4,ho4,hsub4,_⟩ := hs3.run h4
  refine ⟨hs4,o1,o4,?_,hsub1,hsub4⟩
  rw [ho4,ho3,ho2,ho1,hplain2 hc,hplain3 hd]
  rfl

/-- All that the blocks of some branches may write, given or not. -/
def mayOfAll (branches : List (Bool × List Block)) : List Eqn :=
  branches.flatMap fun b => mayOf b.2

theorem given_append (bs cs : List (Bool × List Block)) : given (bs++cs) = given bs++given cs :=
  List.flatMap_append

theorem mayOf_given (branches : List (Bool × List Block)) :
    (mayOf (given branches)).Sublist (mayOfAll branches) := by
  induction branches with
  | nil => exact List.Sublist.refl _
  | cons b bs ih =>
    have hcons : given (b::bs) = (if b.1 then b.2 else [])++given bs := rfl
    rw [hcons,mayOf_append]
    refine List.Sublist.append ?_ ih
    split
    · exact List.Sublist.refl _
    · exact List.nil_sublist _

theorem plain_given {branches : List (Bool × List Block)}
    (h : ∀ b ∈ branches, ∀ c ∈ b.2, c.plain = true) : ∀ c ∈ given branches, c.plain = true := by
  intro c hc
  obtain ⟨b,hb,hcb⟩ := List.mem_flatMap.1 hc
  split at hcb
  · exact h b hb c hcb
  · cases hcb

end Runs

section Ranks
variable (a : RuleAttrib)

theorem ranks_ihl : (mayOfAll (ihlBranches a)).map Eqn.rank = [5,5,5,5,5,5,5] := rfl

theorem ranks_ip4Head : (mayOfAll (ip4Head a)).map Eqn.rank =
    [0,0,1,3,3,3,3,3,3,4,4,4,4,4,4] := rfl

theorem ranks_ip4Tail : (mayOfAll (ip4Tail a)).map Eqn.rank = [5,5,6,7,7,7,7,7,9] := rfl

theorem ranks_tcpSynInside (b c d e : UInt8) :
    (mayOf (tcpSynInside a b c d e)).map Eqn.rank = [5,5] := by
  unfold tcpSynInside
  split <;> rfl

theorem ranks_ip6Tail : (mayOfAll (ip6Tail a)).map Eqn.rank =
    [5,5,5,5,5,5,5,5,6,7,7,7,7,7,8,9] := by
  have h1 := ranks_tcpSynInside a 46 42 70 90
  have h2 := ranks_tcpSynInside a 30 26 54 74
  simp only [ip6Tail,mayOfAll,List.cons_append,List.nil_append,List.flatMap_cons,List.map_append,
    h1,h2,portBranches,portRangeBranches,List.flatMap_nil]
  rfl

theorem ordered_of_ranks {l all : List Eqn} {ranks : List ℕ} (hsub : l.Sublist all)
    (hr : all.map Eqn.rank = ranks) (hp : ranks.Pairwise (· ≤ ·)) : Ordered Eqn.rank l := by
  rw [← hr,List.pairwise_map] at hp
  exact hp.sublist hsub

theorem rank_mem {l all : List Eqn} {ranks : List ℕ} (hsub : l.Sublist all)
    (hr : all.map Eqn.rank = ranks) {e : Eqn} (he : e ∈ l) : e.rank ∈ ranks := by
  rw [← hr]
  exact List.mem_map_of_mem (hsub.subset he)

theorem ranked_length_le {l all : List Eqn} {ranks : List ℕ} (hsub : l.Sublist all)
    (hr : all.map Eqn.rank = ranks) (r : ℕ) : (ranked r l).length ≤ ranks.count r := by
  have hle := (hsub.filter fun e => decide (e.rank = r)).length_le
  have hcount : (all.filter fun e => decide (e.rank = r)).length = ranks.count r := by
    rw [← hr,List.count,List.countP_map,List.countP_eq_length_filter]
    congr 1
  rw [← hcount]
  exact hle

end Ranks

section Bytes
variable {hw : HwType} {s : Gen}

/-- Equations in the order of their ranks are written as the writer of equations writes them. -/
theorem Gen.Sound.puts_eq (hs : s.Sound hw) (h1 : Singles s.out) (ho : Ordered Eqn.rank s.out)
    (hle : ∀ e ∈ s.out, e.rank ≤ 9) : s.puts = bdyPuts hw (s.ruleEq hw) := by
  have hall := ho.byRank_eq fun e he => Nat.lt_succ_of_le (hle e he)
  rw [byRank_succ] at hall
  have hfrag : (s.out.filter fun e => e.rank = 9).flatMap Eqn.puts = [] := by
    rw [List.flatMap_eq_nil_iff]
    intro e he
    obtain ⟨_,hr⟩ := List.mem_filter.1 he
    cases e <;> first | rfl | exact absurd hr (by simp [Eqn.rank])
  rw [hs.bdyPuts_eq h1,Gen.puts]
  nth_rewrite 1 [← hall]
  rw [List.flatMap_append,hfrag,List.append_nil]

/-- An equation that is written after one of a later place in the order is read at the wrong
place, unless both write the same byte. -/
theorem Gen.Sound.extras_late (hs : s.Sound hw) (h1 : Singles s.out)
    {before between after : List Eqn} {x y : Eqn} {b c : UInt8}
    (hout : s.out = before++(y::between)++x::after) (ho : Ordered Eqn.rank before)
    (hle : ∀ e ∈ before, e.rank ≤ x.rank) (hbetween : ∀ e ∈ y::between, x.rank < e.rank)
    (hafter : ∀ e ∈ after, x.rank < e.rank) (hx : x.rank < 9) (hb : extras y.puts = [b])
    (hc : extras x.puts = [c]) (hbc : b ≠ c) :
    extras s.puts ≠ extras (bdyPuts hw (s.ruleEq hw)) := by
  obtain ⟨rest,hrest⟩ := byRank_late ho hle hbetween hafter hx
  rw [hs.bdyPuts_eq h1,Gen.puts,hout,hrest]
  simp only [List.flatMap_append,List.flatMap_cons,List.append_assoc,extras_append,hb,hc]
  intro hh
  have hcancel := List.append_cancel_left hh
  simp only [List.cons_append,List.cons.injEq] at hcancel
  exact hbc hcancel.1

/-- How many bytes the equations of a rank have among the extra words. -/
def extraBytes (r : ℕ) (l : List Eqn) : ℕ := (extras ((ranked r l).flatMap Eqn.puts)).length

theorem extraBytes_cons (r : ℕ) (e : Eqn) (l : List Eqn) :
    extraBytes r (e::l) = (if e.rank = r then (extras e.puts).length else 0)+extraBytes r l := by
  unfold extraBytes ranked
  by_cases hr : e.rank = r
  · rw [List.filter_cons_of_pos (by simpa using hr),List.flatMap_cons,extras_append,
      List.length_append,if_pos hr]
  · rw [List.filter_cons_of_neg (by simpa using hr),if_neg hr,Nat.zero_add]

/-- Every byte of no equation is one more than the order of the hardware has. -/
theorem length_extras_byRank (l : List Eqn) :
    (extras ((byRank Eqn.rank 9 l).flatMap Eqn.puts)).length+(ranked 10 l).length =
      (extras (l.flatMap Eqn.puts)).length := by
  have hsum : (extras ((byRank Eqn.rank 9 l).flatMap Eqn.puts)).length =
      ((List.range 9).map fun r => extraBytes r l).sum := by
    have hrange9 : List.range 9 = [0,1,2,3,4,5,6,7,8] := by decide
    rw [byRank,hrange9]
    simp only [List.flatMap_cons,List.flatMap_nil,List.flatMap_append,extras_append,
      List.length_append,List.map_cons,List.map_nil,List.sum_cons,List.sum_nil]
    rfl
  rw [hsum]
  clear hsum
  induction l with
  | nil => rfl
  | cons e l ih =>
    have hstray : (ranked 10 (e::l)).length =
        (if e.rank = 10 then 1 else 0)+(ranked 10 l).length := by
      unfold ranked
      by_cases hr : e.rank = 10
      · rw [List.filter_cons_of_pos (by simpa using hr),List.length_cons,if_pos hr,Nat.add_comm]
      · rw [List.filter_cons_of_neg (by simpa using hr),if_neg hr,Nat.zero_add]
    have hbytes : ((List.range 9).map fun r => extraBytes r (e::l)).sum =
        (if e.rank < 9 then (extras e.puts).length else 0)+
          ((List.range 9).map fun r => extraBytes r l).sum := by
      simp only [extraBytes_cons,List.sum_map_add]
      congr 1
      cases e <;> rfl
    have hone : (extras e.puts).length =
        (if e.rank < 9 then (extras e.puts).length else 0)+if e.rank = 10 then 1 else 0 := by
      cases e <;> rfl
    rw [hbytes,hstray,List.flatMap_cons,extras_append,List.length_append,← ih]
    omega

theorem Gen.Sound.extras_stray (hs : s.Sound hw) (h1 : Singles s.out) {b : UInt8}
    (hb : .stray b ∈ s.out) : extras s.puts ≠ extras (bdyPuts hw (s.ruleEq hw)) := by
  intro hh
  have hlen := length_extras_byRank s.out
  have hpos : 0 < (ranked 10 s.out).length :=
    List.length_pos_iff_exists_mem.2 ⟨_,List.mem_filter.2 ⟨hb,rfl⟩⟩
  rw [hs.bdyPuts_eq h1,Gen.puts] at hh
  rw [hh] at hlen
  omega

end Bytes

section Versions
variable {hw : HwType} {s : Gen} {a : RuleAttrib}

/-- The equations of `ihlBranches` and of the ether type in L2TP over UDP. -/
def ihlEqns (a : RuleAttrib) : List Eqn := mayOf (given (ihlBranches a))
def etherEqns (a : RuleAttrib) : List Eqn := mayOf (given [innerEtherBranch a])

/-- What stands before and after these is in order. -/
structure Parts (before after : List Eqn) : Prop where
  ordered : Ordered Eqn.rank before
  le : ∀ e ∈ before, e.rank ≤ 4
  ordered' : Ordered Eqn.rank after
  ge : ∀ e ∈ after, 5 ≤ e.rank
  le' : ∀ e ∈ after, e.rank ≤ 9

theorem parts_of_ranks {bs cs : List (Bool × List Block)} {before after : List Eqn}
    {ranks ranks' : List ℕ} (hb : before.Sublist (mayOf (given bs)))
    (hc : after.Sublist (mayOf (given cs))) (hr : (mayOfAll bs).map Eqn.rank = ranks)
    (hr' : (mayOfAll cs).map Eqn.rank = ranks')
    (hp : ranks.Pairwise (· ≤ ·) ∧ ∀ r ∈ ranks, r ≤ 4)
    (hp' : ranks'.Pairwise (· ≤ ·) ∧ ∀ r ∈ ranks', 5 ≤ r ∧ r ≤ 9) : Parts before after := by
  have hb := hb.trans (mayOf_given bs)
  have hc := hc.trans (mayOf_given cs)
  exact ⟨ordered_of_ranks hb hr hp.1,fun e he => hp.2 _ (rank_mem hb hr he),
    ordered_of_ranks hc hr' hp'.1,fun e he => (hp'.2 _ (rank_mem hc hr' he)).1,
    fun e he => (hp'.2 _ (rank_mem hc hr' he)).2⟩

theorem plain_ihl (a : RuleAttrib) : ∀ b ∈ given (ihlBranches a), b.plain = true := by
  apply plain_given
  simp [ihlBranches,macOverTwo,Block.plain]

theorem plain_ether (a : RuleAttrib) : ∀ b ∈ given [innerEtherBranch a], b.plain = true := by
  apply plain_given
  simp [innerEtherBranch,Block.plain]

theorem ip4_parts (h : Gen.run hw (given (ip4Branches a)) Gen.start = some s) :
    s.Inv hw ∧ ∃ before after, s.out = before++ihlEqns a++etherEqns a++after ∧
      Parts before after := by
  rw [ip4Branches,given_append,given_append,given_append] at h
  obtain ⟨hs,before,after,hout,hbefore,hafter⟩ := run_parts (plain_ihl a) (plain_ether a) h
  exact ⟨hs,before,after,hout,parts_of_ranks hbefore hafter (ranks_ip4Head a) (ranks_ip4Tail a)
    (by decide) (by decide)⟩

/-- The branches of IPv6 before the traffic class. -/
def ip6Start (a : RuleAttrib) : List (Bool × List Block) :=
  [(a.has .IS_PURE_ACK,[.eqn .pureAck]),
    (a.has .NEXT_HDR,[.eqn (.protocol a.v6.nextHdr)])]

theorem ip6_parts (hext : a.hasExt .NEXT_HDR = false)
    (h : Gen.run hw (given (ip6Branches a)) Gen.start = some s) :
    s.Inv hw ∧ ∃ before after, s.out = before++ihlEqns a++etherEqns a++after ∧
      Parts before after := by
  have hhead : given ([(a.has .IS_PURE_ACK,[.eqn .pureAck]),
      (a.has .NEXT_HDR,[.eqn (.protocol a.v6.nextHdr)]),extNextHdrBranch a]++ip6Head a) =
        given (ip6Start a++ip6Head a) := by
    simp [given,ip6Start,extNextHdrBranch,hext]
  rw [ip6Branches,given_append,given_append,given_append,hhead] at h
  obtain ⟨hs,before,after,hout,hbefore,hafter⟩ := run_parts (plain_ihl a) (plain_ether a) h
  have hranks : (mayOfAll (ip6Start a++ip6Head a)).map Eqn.rank =
      [0,1,2,3,3,3,3,3,3,3,3,3,4,4] := rfl
  exact ⟨hs,before,after,hout,parts_of_ranks hbefore hafter hranks (ranks_ip6Tail a)
    (by decide) (by decide)⟩

/-- With the next header after the IPv6 header there is a byte of no equation. -/
theorem ip6_stray (hext : a.hasExt .NEXT_HDR = true)
    (h : Gen.run hw (given (ip6Branches a)) Gen.start = some s) :
    .stray a.v6.nextHdr ∈ s.out := by
  have hsplit : given (ip6Branches a) =
      given (ip6Start a)++given [extNextHdrBranch a]++[]++
        given (ip6Head a++ihlBranches a++[innerEtherBranch a]++ip6Tail a) := by
    simp only [ip6Branches,ip6Start,given,List.flatMap_append,List.flatMap_cons,List.flatMap_nil,
      List.append_nil,List.append_assoc]
  have hplain : ∀ b ∈ given [extNextHdrBranch a], b.plain = true :=
    plain_given (by simp [extNextHdrBranch,Block.plain])
  have hnone : ∀ b ∈ ([] : List Block), b.plain = true := by simp
  rw [hsplit] at h
  obtain ⟨_,before,after,hout,_,_⟩ := run_parts hplain hnone h
  rw [hout]
  simp [mayOf,given,extNextHdrBranch,hext,Block.may]

theorem mayOfAll_append (bs cs : List (Bool × List Block)) :
    mayOfAll (bs++cs) = mayOfAll bs++mayOfAll cs := List.flatMap_append

/-- A version has pure ACK or the type of service, so that a rule has one of them. -/
theorem ranked_zero_le (hs : s.Sound hw) {v : UInt8}
    (h : (ranked 0 s.out).Sublist [.pureAck,.tos v]) : (ranked 0 s.out).length ≤ 1 := by
  by_contra hlt
  have hlen := h.length_le
  simp only [List.length_cons,List.length_nil] at hlen
  have heq := h.eq_of_length (by simp only [List.length_cons,List.length_nil]; omega)
  have hmem : ∀ e ∈ ranked 0 s.out, e ∈ s.out := fun e he => List.mem_of_mem_filter he
  rw [heq] at hmem
  have hack := hs.valid .pureAck (hmem _ (by simp)) _ rfl
  have htos := hs.valid (.tos v) (hmem _ (by simp)) _ rfl
  cases hw <;> first | exact absurd hack (by decide) | exact absurd htos (by decide)

theorem ip4_singles (h : Gen.run hw (given (ip4Branches a)) Gen.start = some s) :
    Singles s.out := by
  obtain ⟨hs,out,hout,hsub,_⟩ := (inv_start hw).run h
  have hout : s.out = out := hout
  have hsub := hsub.trans (mayOf_given _)
  have hranks : (mayOfAll (ip4Branches a)).map Eqn.rank =
      [0,0,1,3,3,3,3,3,3,4,4,4,4,4,4]++[5,5,5,5,5,5,5]++[4]++[5,5,6,7,7,7,7,7,9] := rfl
  rw [← hout] at hsub
  intro r hr
  have hle := ranked_length_le hsub hranks r
  by_cases h0 : r = 0
  · subst h0
    have hzero : (ranked 0 s.out).Sublist [.pureAck,.tos a.v4.tos] :=
      hsub.filter fun e : Eqn => decide (e.rank = 0)
    exact ranked_zero_le hs.toSound hzero
  · simp only [List.mem_cons,List.not_mem_nil,or_false] at hr
    rcases hr with rfl | rfl | rfl | rfl | rfl
    · exact absurd rfl h0
    all_goals exact hle.trans (by decide)

theorem ip6_singles (h : Gen.run hw (given (ip6Branches a)) Gen.start = some s) :
    Singles s.out := by
  obtain ⟨hs,out,hout,hsub,_⟩ := (inv_start hw).run h
  have hout : s.out = out := hout
  have hsub := hsub.trans (mayOf_given _)
  have hranks : (mayOfAll (ip6Branches a)).map Eqn.rank =
      [0,1,5,10,2,3,3,3,3,3,3,3,3,3,4,4,5,5,5,5,5,5,5,4]++
        [5,5,5,5,5,5,5,5,6,7,7,7,7,7,8,9] := by
    rw [ip6Branches,mayOfAll_append,List.map_append,ranks_ip6Tail]
    rfl
  rw [← hout] at hsub
  intro r hr
  have hle := ranked_length_le hsub hranks r
  simp only [List.mem_cons,List.not_mem_nil,or_false] at hr
  rcases hr with rfl | rfl | rfl | rfl | rfl <;> exact hle.trans (by decide)

end Versions

section Default
variable {hw : HwType} {s : Gen} {a : RuleAttrib}

theorem puts_addDefault (hw : HwType) (s : Gen) :
    (s.addDefault hw).puts = s.puts++putMeq32 .zero := by
  show (s.out++[Eqn.ofstMeq32 .zero]).flatMap Eqn.puts = _
  rw [List.flatMap_append]
  rfl

theorem singles_addDefault (h1 : Singles s.out) : Singles (s.addDefault hw).out := by
  intro r hr
  have hne : decide ((Eqn.ofstMeq32 .zero).rank = r) = false := by
    simp only [List.mem_cons,List.not_mem_nil,or_false] at hr
    rcases hr with rfl | rfl | rfl | rfl | rfl <;> rfl
  show (ranked r (s.out++[Eqn.ofstMeq32 .zero])).length ≤ 1
  rw [ranked,List.filter_append,List.filter_cons_of_neg (by simpa using hne),List.filter_nil,
    List.append_nil]
  exact h1 r hr

/-- The default rule takes the first equation of 32 bits if it is free. -/
theorem Gen.Inv.addDefault (hs : s.Inv hw) (h0 : count .ofstMeq32 s.out = 0) :
    (s.addDefault hw).Sound hw := by
  have hused : s.used .ofstMeq32 = 0 := by rw [hs.used,h0]
  have hadd := hs.add (e := .ofstMeq32 .zero) (by simp [Gen.takes,Eqn.kind,hused])
  have hrule : (s.add hw (.ofstMeq32 .zero)).enRule = (s.addDefault hw).enRule := by
    show s.enRule ||| 2^eqBitfield hw (Kind.ofstMeq32.slot (s.used .ofstMeq32)) = _
    rw [hused]
    rfl
  exact ⟨hadd.le,hrule ▸ hadd.bits,hrule ▸ hadd.lt,hadd.valid⟩

/-- Otherwise its zeros are written once more for an equation that is in use. -/
theorem Gen.Inv.ruleEq_addDefault (hs : s.Inv hw) (h1 : count .ofstMeq32 s.out = 1) :
    (s.addDefault hw).ruleEq hw = s.ruleEq hw := by
  have hbit : s.enRule ||| 2^eqBitfield hw (Kind.ofstMeq32.slot 0) = s.enRule := by
    have hset := hs.hasEq_slot .ofstMeq32 (i := 0) (by omega)
    rw [← count_eq,h1] at hset
    apply Nat.eq_of_testBit_eq
    intro i
    rw [Nat.testBit_or,Nat.testBit_two_pow]
    by_cases hi : eqBitfield hw (Kind.ofstMeq32.slot 0) = i
    · subst hi
      rw [show s.enRule.testBit _ = true from hset]
      rfl
    · simp [hi]
  have hlen : (s.out.filterMap Eqn.meq32).length = 1 := by
    rw [(flatMap_ranked (r := 4) (f := Eqn.meq32) (w := putMeq32)
      (fun e => by cases e <;> simp [Eqn.rank,Eqn.meq32,Eqn.puts]) s.out).1]
    exact (count_eq .ofstMeq32 s.out).symm.trans h1
  obtain ⟨x,hx⟩ := List.length_eq_one_iff.1 hlen
  have hslots : slots ((s.out++[Eqn.ofstMeq32 .zero]).filterMap Eqn.meq32) .zero =
      slots (s.out.filterMap Eqn.meq32) .zero := by
    rw [List.filterMap_append,hx]
    rfl
  have hother : ∀ {α : Type} (f : Eqn → Option α), f (Eqn.ofstMeq32 .zero) = none →
      (s.out++[Eqn.ofstMeq32 .zero]).filterMap f = s.out.filterMap f := by
    intro α f hf
    rw [List.filterMap_append,List.filterMap_cons_none hf,List.filterMap_nil,List.append_nil]
  simp only [Gen.ruleEq,Gen.addDefault,hbit,hslots,hother Eqn.tosByte rfl,
    hother Eqn.protocolByte rfl,hother Eqn.tcByte rfl,hother Eqn.meq128 rfl,
    hother Eqn.ihlMeq32 rfl,hother Eqn.metadataMeq32 rfl,hother Eqn.range16 rfl,
    hother Eqn.flow rfl]

theorem Gen.Inv.extras_twice (hs : s.Inv hw) (h1 : Singles s.out)
    (hcount : count .ofstMeq32 s.out = 1) :
    extras (s.addDefault hw).puts ≠ extras (bdyPuts hw ((s.addDefault hw).ruleEq hw)) := by
  intro hh
  have hlen := length_extras_byRank s.out
  rw [hs.ruleEq_addDefault hcount,hs.toSound.bdyPuts_eq h1,puts_addDefault,extras_append] at hh
  have hlength := congrArg List.length hh
  rw [List.length_append] at hlength
  have hone : (extras (putMeq32 .zero)).length = 1 := rfl
  have hputs : (extras s.puts).length = (extras (s.out.flatMap Eqn.puts)).length := rfl
  omega

/-- Equations of a later place in the order stand before the default rule. -/
theorem Gen.Inv.extras_default_late (hs : s.Inv hw) (h1 : Singles s.out) (hne : s.out ≠ [])
    (hlate : ∀ e ∈ s.out, 4 < e.rank ∧ ∃ b, extras e.puts = [b] ∧ b ≠ 0) :
    extras (s.addDefault hw).puts ≠ extras (bdyPuts hw ((s.addDefault hw).ruleEq hw)) := by
  have hcount : count .ofstMeq32 s.out = 0 := by
    rw [count_eq,ranked,List.length_eq_zero_iff,List.filter_eq_nil_iff]
    intro e he hr
    have hgt := (hlate e he).1
    rw [of_decide_eq_true hr] at hgt
    exact absurd hgt (by decide)
  obtain ⟨y,between,hout⟩ := List.exists_cons_of_ne_nil hne
  obtain ⟨b,hb,hb0⟩ := (hlate y (by rw [hout]; exact List.mem_cons_self)).2
  have hafter : (s.addDefault hw).out = []++(y::between)++.ofstMeq32 .zero::[] := by
    show s.out++[Eqn.ofstMeq32 .zero] = _
    rw [hout,List.nil_append]
  refine (hs.addDefault hcount).extras_late (singles_addDefault h1) hafter List.Pairwise.nil
    (by simp) (fun e he => ?_) (by simp) (by decide) hb (c := 0) rfl hb0
  rw [← hout] at he
  exact (hlate e he).1

end Default

end IpaRule
end MarbleModules
