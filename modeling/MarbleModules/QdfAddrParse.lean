import Mathlib.Data.List.OfFn
import MarbleModules.QdfIntParse

/-! The MAC and IPv4 address parsers of `qdf_types.c`. Both read a group, then separators and
groups, into a local address that is copied out at the end. -/
namespace MarbleModules
namespace QdfTypes

open Consumers
open ActionOui (isSpace skipSpaces)

section Code

/-- As many more groups, each behind a separator, written into the address from `i` on. -/
def consumeGroups (sep : Consume UInt8 Unit) (group : Consume UInt8 UInt8) :
    ℕ → ℕ → (ℕ → UInt8) → Consume UInt8 (ℕ → UInt8)
  | 0,_,addr,str => (some addr,str)
  | n+1,i,addr,str =>
    match sep str with
    | (none,str) => (none,str)
    | (some _,str) =>
      match group str with
      | (none,str) => (none,str)
      | (some byte,str) => consumeGroups sep group n (i+1) (Function.update addr i byte) str

/-- A separator that is not there. -/
def consumeNothing : Consume UInt8 Unit := fun str => (some (),str)

/-- The groups of `qdf_mac_parse`; the first decides whether there are colons. -/
def consumeMac (addr : ℕ → UInt8) : Consume UInt8 (ℕ → UInt8) := fun str =>
  match consumeHexPair str with
  | (none,str) => (none,str)
  | (some byte,str) =>
    let colons := str.head? = some 58
    consumeGroups (if colons then consumeChar 58 else consumeNothing) consumeHexPair 5 1
      (Function.update addr 0 byte) str

/-- The groups of `qdf_ipv4_parse` -/
def consumeIpv4 (addr : ℕ → UInt8) : Consume UInt8 (ℕ → UInt8) := fun str =>
  match consumeOctetDec str with
  | (none,str) => (none,str)
  | (some byte,str) =>
    consumeGroups (consumeChar 46) consumeOctetDec 3 1 (Function.update addr 0 byte) str

/-- An address parser around its groups: the status, and what is in `out_addr` then. -/
def addrParse {n : ℕ} (consume : Consume UInt8 (ℕ → UInt8)) (str : List UInt8)
    (outAddr : Fin n → UInt8) : QdfStatus × (Fin n → UInt8) :=
  match consume (skipSpaces str) with
  | (none,_) => (.eFailure,outAddr)
  | (some addr,str) =>
    if skipSpaces str ≠ [] then (.eFailure,outAddr) else (.success,fun i => addr i)

/-- `qdf_mac_parse`, with `addr` what is on the stack at first. -/
def macParse (macStr : List UInt8) (addr : ℕ → UInt8) (outAddr : Fin 6 → UInt8) :
    QdfStatus × (Fin 6 → UInt8) :=
  addrParse (consumeMac addr) macStr outAddr

/-- `qdf_ipv4_parse`, with `addr` what is on the stack at first. -/
def ipv4Parse (ipv4Str : List UInt8) (addr : ℕ → UInt8) (outAddr : Fin 4 → UInt8) :
    QdfStatus × (Fin 4 → UInt8) :=
  addrParse (consumeIpv4 addr) ipv4Str outAddr

end Code

section Grammar

/-- Six hexadecimal pairs, all of them separated by colons or none. -/
def MacText (bytes text : List UInt8) : Prop :=
  ∃ sep, (sep = [58] ∨ sep = []) ∧ SepBy sep IsHexPair bytes text

/-- Decimal octets separated by dots. -/
def Ipv4Text (bytes text : List UInt8) : Prop := SepBy [46] IsOctet bytes text

/-- A parser's outcome `r` on `s` is the address of the text, or `out` is left alone. -/
structure ParsesExactly {n : ℕ} (G : List UInt8 → List UInt8 → Prop) (s : List UInt8)
    (out : Fin n → UInt8) (r : QdfStatus × (Fin n → UInt8)) : Prop where
  success_iff : r.1 = .success ↔ ∃ a : Fin n → UInt8, Trimmed (G (List.ofFn a)) s
  value_eq : ∀ a : Fin n → UInt8, Trimmed (G (List.ofFn a)) s → r.2 = a
  unwritten : r.1 ≠ .success → r.2 = out

end Grammar

section Writes

/-- The address after `bytes` were written from `i` on. -/
def write (addr : ℕ → UInt8) (i : ℕ) : List UInt8 → ℕ → UInt8
  | [] => addr
  | b::bs => write (Function.update addr i b) (i+1) bs

theorem write_of_lt {i j : ℕ} (h : j < i) (addr : ℕ → UInt8) (bs : List UInt8) :
    write addr i bs j = addr j := by
  induction bs generalizing addr i with
  | nil => rfl
  | cons b bs ih => rw [write,ih (by omega),Function.update_of_ne (by omega)]

theorem write_add {k : ℕ} {bs : List UInt8} (h : k < bs.length) (addr : ℕ → UInt8) (i : ℕ) :
    write addr i bs (i+k) = bs[k] := by
  induction bs generalizing addr i k with
  | nil => cases h
  | cons b bs ih =>
    rw [write]
    cases k with
    | zero => exact (write_of_lt (Nat.lt_succ_self i) _ bs).trans (Function.update_self i b addr)
    | succ k =>
      rw [show i+(k+1) = i+1+k by omega]
      exact ih (Nat.lt_of_succ_lt_succ h) _ _

/-- An address that was written whole. -/
theorem ofFn_write {n : ℕ} {bs : List UInt8} (h : bs.length = n) (addr : ℕ → UInt8) :
    List.ofFn (fun i : Fin n => write addr 0 bs i) = bs := by
  subst h
  refine List.ext_getElem (by simp) fun i hi hi' => ?_
  rw [List.getElem_ofFn]
  exact (congrArg _ (Nat.zero_add i).symm).trans (write_add hi' addr 0)

end Writes

section Groups

variable {sep : Consume UInt8 Unit} {sepText : List UInt8} {group : Consume UInt8 UInt8}
  {G : UInt8 → List UInt8 → Prop} {Ends : List UInt8 → Prop}

/-- The loop over the groups reads them, each behind its separator. -/
theorem consumeGroups_reads (hsep : Reads sep (fun _ text => text = sepText) fun _ => True)
    (hgroup : Reads group G Ends)
    (hnext : ∀ b text rest, G b text → Ends (sepText++(text++rest))) (n i : ℕ)
    (addr : ℕ → UInt8) :
    Reads (consumeGroups sep group n i addr)
      (fun addr' text => ∃ bs, bs.length = n ∧ Each sepText G bs text ∧ addr' = write addr i bs)
      Ends where
  sound {s addr' rest} h := by
    induction n generalizing i addr s with
    | zero =>
      cases h
      exact ⟨[],⟨[],rfl,.nil,rfl⟩,rfl⟩
    | succ n ih =>
      rw [consumeGroups] at h
      rcases hs : sep s with ⟨_ | u,s₁⟩
      · rw [hs] at h
        cases h
      rw [hs] at h
      dsimp only at h
      rcases hg : group s₁ with ⟨_ | b,s₂⟩
      · rw [hg] at h
        cases h
      rw [hg] at h
      obtain ⟨_,⟨bs,hlen,hbs,rfl⟩,rfl⟩ := ih _ _ h
      obtain ⟨_,rfl,rfl⟩ := hsep.sound hs
      obtain ⟨text,htext,rfl⟩ := hgroup.sound hg
      exact ⟨_,⟨b::bs,congrArg (·+1) hlen,.cons htext hbs,rfl⟩,by
        simp only [List.append_assoc]⟩
  complete {addr' text rest} h hrest := by
    obtain ⟨bs,hlen,hbs,rfl⟩ := h
    induction hbs generalizing n i addr with
    | nil =>
      subst hlen
      rfl
    | @cons b bs t s hb hbs ih =>
      subst hlen
      have hends : Ends (s++rest) := by
        cases hbs with
        | nil => exact hrest
        | cons hb' _ => rw [List.append_assoc,List.append_assoc]; exact hnext _ _ _ hb'
      rw [List.append_assoc,List.append_assoc,List.length_cons,consumeGroups,
        hsep.complete (a := ()) rfl trivial]
      dsimp only
      rw [hgroup.complete hb hends]
      exact ih _ _ _ rfl

end Groups

section Exact

theorem consumeNothing_reads :
    Reads consumeNothing (fun _ text => text = []) fun _ => True where
  sound {s a rest} h := by
    obtain ⟨_,rfl⟩ := Prod.mk.inj h
    exact ⟨[],rfl,rfl⟩
  complete {a text rest} h _ := by
    subst h
    rfl

theorem consumeChar_reads (c : UInt8) :
    Reads (consumeChar c) (fun _ text => text = [c]) fun _ => True where
  sound {s a rest} h := by
    obtain ⟨t,rfl⟩ | hno := consumeChar_cases c s
    · rw [consumeChar_self] at h
      obtain ⟨_,rfl⟩ := Prod.mk.inj h
      exact ⟨[c],rfl,rfl⟩
    · rw [hno] at h
      cases h
  complete {a text rest} h _ := by
    subst h
    exact consumeChar_self c rest

/-- The first character of a numeral. -/
theorem IsNumeral.head {b lo hi v : ℕ} {text : List UInt8} (h : IsNumeral b (lo+1) hi v text) :
    ∃ c t, text = c::t ∧ IsDigit b c := by
  obtain ⟨c,t,rfl⟩ := List.exists_cons_of_length_pos
    ((Nat.succ_pos lo).trans_le h.le_length)
  exact ⟨c,t,rfl,h.isDigit c List.mem_cons_self⟩

theorem IsDigit.not_isSpace {b : ℕ} {c : UInt8} (h : IsDigit b c) : isSpace c = false := by
  obtain ⟨d,hd,_⟩ := h
  by_contra hspace
  have hblank : Blank [c] := by simpa [Blank] using hspace
  have hdelim := delimits_of_blank hblank c rfl
  rw [hd] at hdelim
  cases hdelim.1

/-- A first group and the loop read groups with separators between them. -/
theorem sepBy_iff {sep : List UInt8} {G : UInt8 → List UInt8 → Prop} {n : ℕ}
    {l text : List UInt8} (hlen : l.length = n+1) : SepBy sep G l text ↔
      ∃ b bs t u, l = b::bs ∧ bs.length = n ∧ G b t ∧ Each sep G bs u ∧ text = t++u := by
  obtain ⟨b,bs,rfl⟩ := List.exists_cons_of_length_pos (by omega : 0 < l.length)
  rw [sepBy_cons_iff]
  constructor
  · rintro ⟨t,u,ht,hu,rfl⟩
    exact ⟨b,bs,t,u,rfl,Nat.succ.inj hlen,ht,hu,rfl⟩
  · rintro ⟨_,_,t,u,heq,_,ht,hu,rfl⟩
    obtain ⟨rfl,rfl⟩ := List.cons.inj heq
    exact ⟨t,u,ht,hu,rfl⟩

/-- What the groups of an address are read as. -/
def Written (n : ℕ) (G : List UInt8 → List UInt8 → Prop) (stack addr : ℕ → UInt8)
    (text : List UInt8) : Prop :=
  ∃ l, l.length = n ∧ G l text ∧ addr = write stack 0 l

theorem consumeIpv4_reads (stack : ℕ → UInt8) :
    Reads (consumeIpv4 stack) (Written 4 Ipv4Text stack) (NoItem decDigit) := by
  have hdot : ∀ (b : UInt8) (text rest : List UInt8), IsOctet b text →
      NoItem decDigit ([46]++(text++rest)) := fun _ _ _ _ => (noItem_cons _ _ _).mpr rfl
  have hgroups := consumeGroups_reads (consumeChar_reads 46) consumeOctetDec_reads hdot 3 1
  constructor
  · intro s addr rest h
    rw [consumeIpv4] at h
    rcases hg : consumeOctetDec s with ⟨_ | b,str⟩
    · rw [hg] at h
      cases h
    rw [hg] at h
    obtain ⟨t,ht,rfl⟩ := consumeOctetDec_reads.sound hg
    obtain ⟨u,⟨bs,hlen,hbs,rfl⟩,rfl⟩ := (hgroups _).sound h
    refine ⟨t++u,⟨b::bs,congrArg (·+1) hlen,?_,rfl⟩,(List.append_assoc t u rest).symm⟩
    exact sepBy_cons_iff.mpr ⟨t,u,ht,hbs,rfl⟩
  · rintro addr text rest ⟨l,hlen,hl,rfl⟩ hrest
    obtain ⟨b,bs,t,u,rfl,hlen',ht,hu,rfl⟩ := (sepBy_iff hlen).mp hl
    have hends : NoItem decDigit (u++rest) := by
      cases hu with
      | nil => exact hrest
      | cons hb _ => exact (noItem_cons _ _ _).mpr rfl
    rw [consumeIpv4,List.append_assoc,consumeOctetDec_reads.complete ht hends]
    exact (hgroups _).complete ⟨bs,hlen',hu,rfl⟩ hrest

theorem consumeMac_reads (stack : ℕ → UInt8) :
    Reads (consumeMac stack) (Written 6 MacText stack) fun _ => True := by
  have hcolon := consumeGroups_reads (consumeChar_reads 58) consumeHexPair_reads
    (fun _ _ _ _ => trivial) 5 1
  have hnone := consumeGroups_reads consumeNothing_reads consumeHexPair_reads
    (fun _ _ _ _ => trivial) 5 1
  constructor
  · intro s addr rest h
    rw [consumeMac] at h
    rcases hg : consumeHexPair s with ⟨_ | b,str⟩
    · rw [hg] at h
      cases h
    rw [hg] at h
    dsimp only at h
    obtain ⟨t,ht,rfl⟩ := consumeHexPair_reads.sound hg
    split_ifs at h with hcolons
    · obtain ⟨u,⟨bs,hlen,hbs,rfl⟩,rfl⟩ := (hcolon _).sound h
      refine ⟨t++u,⟨b::bs,congrArg (·+1) hlen,⟨[58],Or.inl rfl,?_⟩,rfl⟩,
        (List.append_assoc t u rest).symm⟩
      exact sepBy_cons_iff.mpr ⟨t,u,ht,hbs,rfl⟩
    · obtain ⟨u,⟨bs,hlen,hbs,rfl⟩,rfl⟩ := (hnone _).sound h
      refine ⟨t++u,⟨b::bs,congrArg (·+1) hlen,⟨[],Or.inr rfl,?_⟩,rfl⟩,
        (List.append_assoc t u rest).symm⟩
      exact sepBy_cons_iff.mpr ⟨t,u,ht,hbs,rfl⟩
  · rintro addr text rest ⟨l,hlen,⟨sep,hsep,hl⟩,rfl⟩ -
    obtain ⟨b,bs,t,u,rfl,hlen',ht,hu,rfl⟩ := (sepBy_iff hlen).mp hl
    rw [consumeMac,List.append_assoc,consumeHexPair_reads.complete ht trivial]
    dsimp only
    -- what follows the first pair tells the two separators apart
    rcases hu with _ | @⟨b',bs,t',u,hb',hbs⟩
    · cases hlen'
    obtain ⟨c,v,rfl,hc⟩ := IsNumeral.head hb'
    obtain rfl | rfl := hsep
    · have hhead : ([58]++(c::v++u)++rest).head? = some 58 := rfl
      rw [if_pos hhead]
      exact (hcolon _).complete ⟨_,hlen',.cons hb' hbs,rfl⟩ trivial
    · have hne : ¬ ([]++(c::v++u)++rest).head? = some 58 := by
        intro h
        obtain rfl : c = 58 := by simpa using h
        obtain ⟨d,hd,_⟩ := hc
        cases hd
      rw [if_neg hne]
      exact (hnone _).complete ⟨_,hlen',.cons hb' hbs,rfl⟩ trivial

/-- An address parser is exact when what it reads is written into the address as a whole. -/
theorem addrParse_exact {n : ℕ} {consume : Consume UInt8 (ℕ → UInt8)} {stack : ℕ → UInt8}
    {G : List UInt8 → List UInt8 → Prop} {Ends : List UInt8 → Prop}
    (hreads : Reads consume (Written n G stack) Ends) (hends : ∀ back, Blank back → Ends back)
    (hdark : ∀ l, l.length = n → StartsDark (G l)) (s : List UInt8) (out : Fin n → UInt8) :
    ParsesExactly G s out (addrParse consume s out) := by
  have htrim (addr : ℕ → UInt8) : (∃ rest, consume (skipSpaces s) = (some addr,rest) ∧
      skipSpaces rest = []) ↔ Trimmed (Written n G stack addr) s :=
    trimmed_iff hreads hends (fun text ⟨l,hlen,hl,_⟩ => hdark l hlen text hl) s
  -- a text between white space is parsed to its address
  have hparse (a : Fin n → UInt8) (h : Trimmed (G (List.ofFn a)) s) :
      addrParse consume s out = (.success,a) := by
    obtain ⟨front,text,back,hfront,hback,htext,hs⟩ := h
    obtain ⟨rest,hrest,hnil⟩ := (htrim (write stack 0 (List.ofFn a))).mpr
      ⟨front,text,back,hfront,hback,⟨_,List.length_ofFn,htext,rfl⟩,hs⟩
    rw [addrParse,hrest]
    dsimp only
    rw [if_neg (not_not.mpr hnil)]
    exact congrArg _ (List.ofFn_injective (ofFn_write List.length_ofFn stack))
  have hsound (h : (addrParse consume s out).1 = .success) :
      ∃ a : Fin n → UInt8, Trimmed (G (List.ofFn a)) s := by
    rw [addrParse] at h
    rcases hc : consume (skipSpaces s) with ⟨_ | addr,rest⟩
    · rw [hc] at h
      cases h
    rw [hc] at h
    dsimp only at h
    split_ifs at h with hnil
    obtain ⟨front,text,back,hfront,hback,⟨l,hlen,hl,_⟩,hs⟩ :=
      (htrim addr).mp ⟨rest,hc,not_not.mp hnil⟩
    subst hlen
    refine ⟨l.get,front,text,back,hfront,hback,?_,hs⟩
    rwa [List.ofFn_get]
  refine ⟨⟨hsound,fun ⟨a,ha⟩ => by rw [hparse a ha]⟩,fun a ha => by rw [hparse a ha],fun h => ?_⟩
  rw [addrParse] at h ⊢
  rcases hc : consume (skipSpaces s) with ⟨_ | addr,rest⟩
  · rfl
  rw [hc] at h
  dsimp only at h ⊢
  split_ifs at h ⊢ with hnil
  · rfl
  · exact absurd rfl h

theorem sepBy_dark {sep : List UInt8} {G : UInt8 → List UInt8 → Prop} {l : List UInt8}
    (hl : l ≠ []) (hG : ∀ b text, G b text → ∃ c t, text = c::t ∧ isSpace c = false) :
    StartsDark (SepBy sep G l) := by
  intro text h
  cases h with
  | nil => exact absurd rfl hl
  | one hb => exact hG _ _ hb
  | cons hb _ =>
    obtain ⟨c,t,rfl,hc⟩ := hG _ _ hb
    exact ⟨c,_,rfl,hc⟩

theorem IsNumeral.dark {b lo hi v : ℕ} {text : List UInt8} (h : IsNumeral b (lo+1) hi v text) :
    ∃ c t, text = c::t ∧ isSpace c = false := by
  obtain ⟨c,t,rfl,hc⟩ := h.head
  exact ⟨c,t,rfl,hc.not_isSpace⟩

/-- The MAC and IPv4 parsers accept exactly their grammars, whatever was on the stack. -/
theorem macParse_ipv4Parse_exact (s : List UInt8) (stack : ℕ → UInt8)
    (outMac : Fin 6 → UInt8) (outIpv4 : Fin 4 → UInt8) :
    ParsesExactly MacText s outMac (macParse s stack outMac) ∧
      ParsesExactly Ipv4Text s outIpv4 (ipv4Parse s stack outIpv4) := by
  have hne {l : List UInt8} {n : ℕ} (hlen : l.length = n+1) : l ≠ [] :=
    List.ne_nil_of_length_eq_add_one hlen
  constructor
  · refine addrParse_exact (consumeMac_reads stack) (fun _ _ => trivial) ?_ s outMac
    rintro l hlen text ⟨sep,_,hl⟩
    exact sepBy_dark (hne hlen) (fun _ _ hb => hb.dark) text hl
  · refine addrParse_exact (consumeIpv4_reads stack) (fun back hback => ?_) ?_ s outIpv4
    · intro c hc
      have hhex := (delimits_of_blank hback c hc).1
      refine Option.eq_none_iff_forall_ne_some.mpr fun d hd => ?_
      rw [((decDigit_eq_some_iff c d).mp hd).1] at hhex
      cases hhex
    · intro l hlen text hl
      exact sepBy_dark (hne hlen) (fun _ _ hb => hb.dark) text hl

end Exact

end QdfTypes
end MarbleModules
