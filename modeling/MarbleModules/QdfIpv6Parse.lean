import MarbleModules.QdfAddrParse

/-! The IPv6 address parser of `qdf_types.c`: eight groups, or fewer around one zero
compression. The loop counts the groups it has written and remembers the compression; what it
read is described once, and then related to the addresses. -/
namespace MarbleModules
namespace QdfTypes

open Consumers
open ActionOui (isSpace skipSpaces)

section Code

/-- `qdf_mem_move` within an address. -/
def memMove (addr : ℕ → UInt8) (dst src n : ℕ) : ℕ → UInt8 :=
  fun i => if dst ≤ i ∧ i < dst+n then addr (src+(i-dst)) else addr i

/-- `qdf_mem_zero` within an address. -/
def memZero (addr : ℕ → UInt8) (p n : ℕ) : ℕ → UInt8 :=
  fun i => if p ≤ i ∧ i < p+n then 0 else addr i

/-- `qdf_ipv6_apply_zero_comp` -/
def applyZeroComp (addr : ℕ → UInt8) (hextets zeroCompIndex : ℕ) : ℕ → UInt8 :=
  let zeroCompSize := (8-hextets)*2
  let bytesToMove := (hextets-zeroCompIndex)*2
  let source := zeroCompIndex*2
  let target := source+zeroCompSize
  memZero (if bytesToMove ≠ 0 then memMove addr target source bytesToMove else addr) source
    (target-source)

/-- Where the loop of `qdf_ipv6_parse` leaves its variables; no compression is -1 there. -/
structure Hextets where
  found : ℕ
  zeroComp : Option ℕ
  addr : ℕ → UInt8
  str : List UInt8

/-- The loop of `qdf_ipv6_parse`, with room for as many more hextets. -/
def ipv6Loop : ℕ → ℕ → Option ℕ → (ℕ → UInt8) → List UInt8 → Option Hextets
  | 0,found,zeroComp,addr,str => some ⟨found,zeroComp,addr,str⟩
  | n+1,found,zeroComp,addr,str =>
    match consumeHextet str with
    | (none,str) => if zeroComp ≠ some found then none else some ⟨found,zeroComp,addr,str⟩
    | (some hextet,str) =>
      let addr := Function.update (Function.update addr (found*2) (hextet >>> 8).toUInt8)
        (found*2+1) hextet.toUInt8
      match consumeChar 58 str with
      | (none,str) => some ⟨found+1,zeroComp,addr,str⟩
      | (some _,str) =>
        match consumeChar 58 str with
        | (some _,str) =>
          if zeroComp.isSome then none else ipv6Loop n (found+1) (some (found+1)) addr str
        | (none,str) => ipv6Loop n (found+1) zeroComp addr str

/-- The leading zero compression of `qdf_ipv6_parse`, if any. -/
def leadingZeroComp (str : List UInt8) : Option (Option ℕ × List UInt8) :=
  match consumeChar 58 str with
  | (some _,str) =>
    match consumeChar 58 str with
    | (some _,str) => some (some 0,str)
    | (none,_) => none
  | (none,str) => some (none,str)

/-- `qdf_ipv6_parse`, with `addr` what is on the stack at first. -/
def ipv6Parse (ipv6Str : List UInt8) (addr : ℕ → UInt8) (outAddr : Fin 16 → UInt8) :
    QdfStatus × (Fin 16 → UInt8) :=
  match leadingZeroComp (skipSpaces ipv6Str) with
  | none => (.eFailure,outAddr)
  | some (zeroComp,str) =>
    match ipv6Loop 8 0 zeroComp addr str with
    | none => (.eFailure,outAddr)
    | some h =>
      if skipSpaces h.str ≠ [] then (.eFailure,outAddr)
      else if h.found < 8 then
        match h.zeroComp with
        | none => (.eFailure,outAddr)
        | some zeroComp => (.success,fun i => applyZeroComp h.addr h.found zeroComp i)
      else if h.zeroComp.isSome then (.eFailure,outAddr)
      else (.success,fun i => h.addr i)

end Code

section Grammar

/-- A hextet in network order. -/
def hextetBytes (h : UInt16) : List UInt8 := [(h >>> 8).toUInt8,h.toUInt8]

/-- Hextets between single colons. -/
def Groups (l : List UInt16) (text : List UInt8) : Prop := SepBy [58] IsHextet l text

/-- Eight groups, or fewer around, before or after a `::`. -/
inductive Ipv6Text : List UInt8 → List UInt8 → Prop
  | full {l : List UInt16} {text : List UInt8} : l.length = 8 → Groups l text →
      Ipv6Text (l.flatMap hextetBytes) text
  | compressed {l r : List UInt16} {left right : List UInt8} : l.length+r.length < 8 →
      Groups l left → Groups r right →
      Ipv6Text ((l++(List.replicate (8-(l.length+r.length)) 0++r)).flatMap hextetBytes)
        (left++([58,58]++right))

/-- Eight groups and one more colon. -/
def TrailingColon (text : List UInt8) : Prop :=
  ∃ l : List UInt16, ∃ t, l.length = 8 ∧ Groups l t ∧ text = t++[58]

end Grammar

section Loop

/-- What the loop reads with room for `n` hextets, `found` of them found and the compression
at `zeroComp`: the hextets, the compression it leaves, and the text. -/
inductive Tail : ℕ → ℕ → Option ℕ → List UInt16 → Option ℕ → List UInt8 → Prop
  | full {found : ℕ} {z : Option ℕ} : Tail 0 found z [] z []
  | stop {n found : ℕ} : Tail (n+1) found (some found) [] (some found) []
  | last {n found : ℕ} {z : Option ℕ} {h : UInt16} {t : List UInt8} :
      IsHextet h t → Tail (n+1) found z [h] z t
  | more {n found : ℕ} {z z' : Option ℕ} {h : UInt16} {hs : List UInt16} {t u : List UInt8} :
      IsHextet h t → Tail n (found+1) z hs z' u → Tail (n+1) found z (h::hs) z' (t++([58]++u))
  | comp {n found : ℕ} {z' : Option ℕ} {h : UInt16} {hs : List UInt16} {t u : List UInt8} :
      IsHextet h t → Tail n (found+1) (some (found+1)) hs z' u →
      Tail (n+1) found none (h::hs) z' (t++([58,58]++u))

/-- Nothing that goes on with an address. -/
def EndsAddr (s : List UInt8) : Prop := NoItem hexDigit s ∧ ∀ c ∈ s.head?, c ≠ 58

theorem Tail.length_le {n found : ℕ} {z z' : Option ℕ} {hs : List UInt16} {text : List UInt8}
    (h : Tail n found z hs z' text) : hs.length ≤ n := by
  induction h with
  | full => exact le_rfl
  | stop => exact Nat.zero_le _
  | last _ => exact Nat.succ_le_succ (Nat.zero_le _)
  | more _ _ ih => exact Nat.succ_le_succ ih
  | comp _ _ ih => exact Nat.succ_le_succ ih

theorem write_hextet (addr : ℕ → UInt8) (found : ℕ) (h : UInt16) (hs : List UInt16) :
    write (Function.update (Function.update addr (found*2) (h >>> 8).toUInt8) (found*2+1)
        h.toUInt8) ((found+1)*2) (hs.flatMap hextetBytes) =
      write addr (found*2) ((h::hs).flatMap hextetBytes) := by
  rw [show (found+1)*2 = found*2+1+1 by omega]
  rfl

theorem ipv6Loop_sound {n found : ℕ} {z : Option ℕ} {addr : ℕ → UInt8} {s : List UInt8}
    {r : Hextets} (h : ipv6Loop n found z addr s = some r) :
    ∃ hs text, Tail n found z hs r.zeroComp text ∧ s = text++r.str ∧
      r.found = found+hs.length ∧ r.addr = write addr (found*2) (hs.flatMap hextetBytes) := by
  induction n generalizing found z addr s with
  | zero =>
    cases h
    exact ⟨[],[],.full,rfl,rfl,rfl⟩
  | succ n ih =>
    rw [ipv6Loop] at h
    rcases hhex : consumeHextet s with ⟨_ | hextet,s₁⟩
    · have hstay := consumeHextet_stays s (by rw [hhex])
      rw [hhex] at h hstay
      dsimp only at h hstay
      split_ifs at h with hz
      cases h
      obtain rfl := not_not.mp hz
      exact ⟨[],[],.stop,hstay.symm,rfl,rfl⟩
    rw [hhex] at h
    dsimp only at h
    obtain ⟨t,ht,rfl⟩ := consumeHextet_reads.sound hhex
    obtain ⟨s₂,rfl⟩ | hno := consumeChar_cases 58 s₁
    · rw [consumeChar_self] at h
      dsimp only at h
      obtain ⟨s₃,rfl⟩ | hno := consumeChar_cases 58 s₂
      · rw [consumeChar_self] at h
        dsimp only at h
        split_ifs at h with hz
        obtain rfl : z = none := by simpa using hz
        obtain ⟨hs,text,htail,rfl,hfound,haddr⟩ := ih h
        refine ⟨hextet::hs,t++([58,58]++text),.comp ht htail,by simp,?_,?_⟩
        · rw [hfound,List.length_cons]
          omega
        · rw [haddr,write_hextet]
      · rw [hno] at h
        dsimp only at h
        obtain ⟨hs,text,htail,rfl,hfound,haddr⟩ := ih h
        refine ⟨hextet::hs,t++([58]++text),.more ht htail,by simp,?_,?_⟩
        · rw [hfound,List.length_cons]
          omega
        · rw [haddr,write_hextet]
    · rw [hno] at h
      cases h
      exact ⟨[hextet],t,.last ht,rfl,rfl,rfl⟩

theorem consumeHextet_of_noItem {s : List UInt8} (h : NoItem hexDigit s) :
    consumeHextet s = (none,s) := by
  rw [consumeHextet,consumeUpTo,consumeHex,item_of_noItem h]
  rfl

theorem ne_colon_of_isDigit {b : ℕ} {c : UInt8} (h : IsDigit b c) : c ≠ 58 := by
  rintro rfl
  obtain ⟨d,hd,_⟩ := h
  cases hd

/-- What the loop reads does not start with a colon. -/
theorem Tail.head_ne {n found : ℕ} {z z' : Option ℕ} {hs : List UInt16} {text rest : List UInt8}
    (h : Tail n found z hs z' text) (hrest : EndsAddr rest) :
    ∀ c ∈ (text++rest).head?, c ≠ 58 := by
  have hhextet {a : UInt16} {t u : List UInt8} (ht : IsHextet a t) :
      ∀ c ∈ (t++u).head?, c ≠ 58 := by
    obtain ⟨d,v,rfl,hd⟩ := ht.head
    intro c hc
    obtain rfl : d = c := by simpa using hc
    exact ne_colon_of_isDigit hd
  cases h with
  | full => exact hrest.2
  | stop => exact hrest.2
  | last ht => exact hhextet ht
  | more ht _ => rw [List.append_assoc]; exact hhextet ht
  | comp ht _ => rw [List.append_assoc]; exact hhextet ht

theorem ipv6Loop_append {n found : ℕ} {z z' : Option ℕ} {hs : List UInt16}
    {text rest : List UInt8} (h : Tail n found z hs z' text) (hrest : EndsAddr rest)
    (addr : ℕ → UInt8) :
    ipv6Loop n found z addr (text++rest) =
      some ⟨found+hs.length,z',write addr (found*2) (hs.flatMap hextetBytes),rest⟩ := by
  have hcolon (s : List UInt8) : NoItem hexDigit (58::s) := (noItem_cons _ 58 s).mpr rfl
  induction h generalizing addr with
  | full => rfl
  | stop =>
    rw [ipv6Loop,List.nil_append,consumeHextet_of_noItem hrest.1]
    exact if_neg (not_not.mpr rfl)
  | last ht =>
    rw [ipv6Loop,consumeHextet_reads.complete ht hrest.1]
    dsimp only
    rw [consumeChar_of_ne hrest.2]
    rfl
  | @more n found z z' h hs t u ht htail ih =>
    have htext : t++([58]++u)++rest = t++58::(u++rest) := by simp
    rw [ipv6Loop,htext,consumeHextet_reads.complete ht (hcolon _)]
    dsimp only
    rw [consumeChar_self]
    dsimp only
    rw [consumeChar_of_ne (htail.head_ne hrest)]
    dsimp only
    rw [ih,write_hextet,List.length_cons,Nat.add_right_comm,Nat.add_assoc]
  | @comp n found z' h hs t u ht htail ih =>
    have htext : t++([58,58]++u)++rest = t++58::58::(u++rest) := by simp
    rw [ipv6Loop,htext,consumeHextet_reads.complete ht (hcolon _)]
    dsimp only
    rw [consumeChar_self]
    dsimp only
    rw [consumeChar_self]
    dsimp only
    rw [if_neg (by simp),ih,write_hextet,List.length_cons,Nat.add_right_comm,Nat.add_assoc]

end Loop

section Shapes

/-- After the compression the loop reads groups, the last with a colon only when there is no room
for more. -/
theorem Tail.compressed {n found z : ℕ} {z' : Option ℕ} {hs : List UInt16} {text : List UInt8}
    (h : Tail n found (some z) hs z' text) (hz : z ≤ found) :
    z' = some z ∧ (hs = [] → n = 0 ∨ z = found) ∧
      (hs.length < n → Groups hs text) := by
  induction n generalizing found hs text with
  | zero =>
    cases h
    exact ⟨rfl,fun _ => Or.inl rfl,fun hlt => absurd hlt (lt_irrefl 0)⟩
  | succ n ih =>
    cases h with
    | stop => exact ⟨rfl,fun _ => Or.inr rfl,fun _ => .nil⟩
    | last ht => exact ⟨rfl,fun hnil => absurd hnil (List.cons_ne_nil _ _),fun _ => .one ht⟩
    | @more _ _ _ _ _ hs t u ht htail =>
      obtain ⟨hz',hnil,hgroups⟩ := ih htail (by omega)
      refine ⟨hz',fun hnil => absurd hnil (List.cons_ne_nil _ _),fun hlt => ?_⟩
      have hlt' : hs.length < n := by simpa using hlt
      cases hs with
      | nil =>
        obtain h0 | hzf := hnil rfl
        · exact absurd hlt' (by simp [h0])
        · omega
      | cons a hs => exact .cons ht (hgroups hlt')

/-- Before the compression: all room is taken, or the compression comes. -/
theorem Tail.uncompressed {n found : ℕ} {z' : Option ℕ} {hs : List UInt16} {text : List UInt8}
    (h : Tail n found none hs z' text) :
    (z' = none ∧ (hs.length = n → Groups hs text ∨
        hs ≠ [] ∧ ∃ t, Groups hs t ∧ text = t++[58])) ∨
      ∃ l r left right, hs = l++r ∧ l ≠ [] ∧ z' = some (found+l.length) ∧ Groups l left ∧
        (hs.length < n → Groups r right) ∧ text = left++([58,58]++right) := by
  induction n generalizing found hs text with
  | zero =>
    cases h
    exact Or.inl ⟨rfl,fun _ => Or.inl .nil⟩
  | succ n ih =>
    cases h with
    | last ht => exact Or.inl ⟨rfl,fun _ => Or.inl (.one ht)⟩
    | @more _ _ _ _ h hs t u ht htail =>
      obtain ⟨hz',hgroups⟩ | ⟨l,r,left,right,rfl,hl,hz',hleft,hright,rfl⟩ := ih htail
      · refine Or.inl ⟨hz',fun hlen => ?_⟩
        obtain hg | ⟨hne,v,hv,rfl⟩ := hgroups (Nat.succ.inj hlen)
        · cases hs with
          | nil =>
            cases hg
            exact Or.inr ⟨List.cons_ne_nil _ _,t,.one ht,rfl⟩
          | cons a hs => exact Or.inl (.cons ht hg)
        · obtain ⟨a,hs,rfl⟩ := List.exists_cons_of_ne_nil hne
          exact Or.inr ⟨List.cons_ne_nil _ _,t++([58]++v),.cons ht hv,by simp⟩
      · obtain ⟨a,l,rfl⟩ := List.exists_cons_of_ne_nil hl
        refine Or.inr ⟨h::a::l,r,t++([58]++left),right,rfl,List.cons_ne_nil _ _,?_,.cons ht hleft,
          fun hlt => hright (Nat.lt_of_succ_lt_succ hlt),by simp⟩
        rw [hz',List.length_cons (a := h)]
        congr 1
        omega
    | @comp _ _ _ h hs t u ht htail =>
      obtain ⟨hz',_,hgroups⟩ := htail.compressed le_rfl
      exact Or.inr ⟨[h],hs,t,u,rfl,List.cons_ne_nil _ _,hz',.one ht,
        fun hlt => hgroups (Nat.lt_of_succ_lt_succ hlt),rfl⟩

theorem tail_of_groups {n found : ℕ} {z : Option ℕ} {hs : List UInt16} {text : List UInt8}
    (h : Groups hs text) (hne : hs ≠ []) (hlen : hs.length ≤ n) : Tail n found z hs z text := by
  induction h generalizing n found with
  | nil => exact absurd rfl hne
  | one ht =>
    cases n with
    | zero => cases hlen
    | succ n => exact .last ht
  | cons ht _ ih =>
    cases n with
    | zero => cases hlen
    | succ n => exact .more ht (ih (List.cons_ne_nil _ _) (Nat.le_of_succ_le_succ hlen))

theorem tail_of_trailing {n found : ℕ} {z : Option ℕ} {hs : List UInt16} {text : List UInt8}
    (h : Groups hs text) (hne : hs ≠ []) (hlen : hs.length = n) :
    Tail n found z hs z (text++[58]) := by
  induction h generalizing n found with
  | nil => exact absurd rfl hne
  | one ht =>
    subst hlen
    exact .more ht .full
  | @cons a b as t s ht _ ih =>
    subst hlen
    rw [List.append_assoc,List.append_assoc]
    exact .more ht (ih (List.cons_ne_nil _ _) rfl)

theorem tail_of_compressed {n found : ℕ} {l r : List UInt16} {left right : List UInt8}
    (hl : Groups l left) (hne : l ≠ []) (hr : Groups r right) (hlen : l.length+r.length < n) :
    Tail n found none (l++r) (some (found+l.length)) (left++([58,58]++right)) := by
  induction hl generalizing n found with
  | nil => exact absurd rfl hne
  | one ht =>
    cases n with
    | zero => cases hlen
    | succ n =>
      have hlt : r.length < n := by simp at hlen; omega
      refine .comp ht ?_
      by_cases hnil : r = []
      · subst hnil
        cases hr
        cases n with
        | zero => cases hlt
        | succ n => exact .stop
      · exact tail_of_groups hr hnil hlt.le
  | @cons a b as t s ht _ ih =>
    cases n with
    | zero => cases hlen
    | succ n =>
      have hlt : (b::as).length+r.length < n := by simp at hlen ⊢; omega
      have htail : Tail n (found+1) none ((b::as)++r) (some (found+1+(b::as).length))
          (s++([58,58]++right)) := ih (List.cons_ne_nil _ _) hlt
      rw [List.append_assoc,List.append_assoc,List.length_cons (a := a),
        show found+((b::as).length+1) = found+1+(b::as).length by omega]
      exact .more ht htail

end Shapes

section ZeroComp

theorem length_bytes (l : List UInt16) : (l.flatMap hextetBytes).length = l.length*2 := by
  induction l with
  | nil => rfl
  | cons h l ih =>
    rw [List.flatMap_cons,List.length_append,ih,List.length_cons,hextetBytes]
    simp
    omega

theorem bytes_zeros (k : ℕ) :
    (List.replicate k (0 : UInt16)).flatMap hextetBytes = List.replicate (k*2) 0 := by
  induction k with
  | zero => rfl
  | succ k ih =>
    rw [List.replicate_succ,List.flatMap_cons,ih,show (k+1)*2 = k*2+1+1 by omega]
    rfl

theorem some_write {k : ℕ} {bs : List UInt8} (h : k < bs.length) (addr : ℕ → UInt8) :
    some (write addr 0 bs k) = bs[k]? := by
  rw [List.getElem?_eq_getElem h,← write_add h addr 0,Nat.zero_add]

/-- The compression opens a gap of zeros between the groups. -/
theorem applyZeroComp_write {l r : List UInt16} (h : l.length+r.length < 8)
    (addr : ℕ → UInt8) :
    List.ofFn (fun i : Fin 16 => applyZeroComp (write addr 0 ((l++r).flatMap hextetBytes))
        (l.length+r.length) l.length i) =
      (l++(List.replicate (8-(l.length+r.length)) 0++r)).flatMap hextetBytes := by
  have hl := length_bytes l
  have hr := length_bytes r
  rw [List.flatMap_append,List.flatMap_append,List.flatMap_append,bytes_zeros]
  have hwrite (k : ℕ) (hk : k < (l.length+r.length)*2) :
      some (write addr 0 (l.flatMap hextetBytes++r.flatMap hextetBytes) k) =
        (l.flatMap hextetBytes++r.flatMap hextetBytes)[k]? :=
    some_write (by rw [List.length_append]; omega) addr
  refine List.ext_getElem? fun i => ?_
  rw [List.getElem?_ofFn]
  split_ifs with hi
  · simp only [applyZeroComp,memZero,Nat.add_sub_cancel_left]
    rcases Nat.lt_or_ge i (l.length*2) with hleft | hleft
    · -- a group before the compression
      have hsame : ¬ (l.length*2 ≤ i ∧ i < l.length*2+(8-(l.length+r.length))*2) := by omega
      rw [if_neg hsame,List.getElem?_append_left (by omega)]
      split_ifs
      · have hno : ¬ (l.length*2+(8-(l.length+r.length))*2 ≤ i ∧
            i < l.length*2+(8-(l.length+r.length))*2+r.length*2) := by omega
        rw [memMove,if_neg hno,hwrite i (by omega),List.getElem?_append_left (by omega)]
      · rw [hwrite i (by omega),List.getElem?_append_left (by omega)]
    rcases Nat.lt_or_ge i (l.length*2+(8-(l.length+r.length))*2) with hgap | hgap
    · -- the gap
      rw [if_pos ⟨hleft,hgap⟩,List.getElem?_append_right (by omega),
        List.getElem?_append_left (by rw [List.length_replicate]; omega),
        List.getElem?_replicate,if_pos (by omega)]
    · -- a group that was moved
      have hmoved : l.length*2+(8-(l.length+r.length))*2 ≤ i ∧
          i < l.length*2+(8-(l.length+r.length))*2+r.length*2 := by omega
      have hno : ¬ (l.length*2 ≤ i ∧ i < l.length*2+(8-(l.length+r.length))*2) := by omega
      rw [if_neg hno,if_pos (by omega),memMove,if_pos hmoved,hwrite _ (by omega),
        List.getElem?_append_right (by omega),List.getElem?_append_right (by omega),
        List.getElem?_append_right (by rw [List.length_replicate]; omega),
        List.length_replicate]
      congr 1
      omega
  · rw [List.getElem?_eq_none]
    simp only [List.length_append,List.length_replicate]
    omega

end ZeroComp

section Exact

variable {s : List UInt8} {stack : ℕ → UInt8} {out : Fin 16 → UInt8}

theorem endsAddr_of_blank {back : List UInt8} (h : Blank back) : EndsAddr back := by
  refine ⟨(delimits_of_blank h).noItem,fun c hc => ?_⟩
  rintro rfl
  cases h 58 (List.mem_of_mem_head? hc)

theorem leadingZeroComp_of_ne {s : List UInt8} (h : ∀ c ∈ s.head?, c ≠ 58) :
    leadingZeroComp s = some (none,s) := by
  rw [leadingZeroComp,consumeChar_of_ne h]

/-- The parser behind the white space and a leading compression. -/
theorem ipv6Parse_of_tail {z z' : Option ℕ} {hs : List UInt16} {text back : List UInt8}
    (hlead : leadingZeroComp (skipSpaces s) = some (z,text++back)) (hback : Blank back)
    (h : Tail 8 0 z hs z' text) :
    ipv6Parse s stack out =
      if hs.length < 8 then
        match z' with
        | none => (.eFailure,out)
        | some zeroComp => (.success,fun i =>
            applyZeroComp (write stack 0 (hs.flatMap hextetBytes)) hs.length zeroComp i)
      else if z'.isSome then (.eFailure,out)
      else (.success,fun i => write stack 0 (hs.flatMap hextetBytes) i) := by
  have hnil := (skipSpaces_eq_nil_iff back).mpr hback
  rw [ipv6Parse,hlead]
  dsimp only
  rw [ipv6Loop_append h (endsAddr_of_blank hback) stack]
  dsimp only
  rw [hnil,if_neg (not_not.mpr rfl),Nat.zero_add,Nat.zero_mul]

theorem groups_head {l : List UInt16} {text : List UInt8} (h : Groups l text) (hne : l ≠ []) :
    ∃ c t, text = c::t ∧ IsDigit 16 c := by
  cases h with
  | nil => exact absurd rfl hne
  | one ht => exact ht.head
  | cons ht _ =>
    obtain ⟨c,t,rfl,hc⟩ := ht.head
    exact ⟨c,_,rfl,hc⟩

/-- Groups at the front, behind white space. -/
theorem leading_groups {l : List UInt16} {front text more back : List UInt8}
    (hfront : Blank front) (h : Groups l text) (hne : l ≠ []) :
    leadingZeroComp (skipSpaces (front++(text++more++back))) = some (none,text++more++back) := by
  obtain ⟨c,t,rfl,hc⟩ := groups_head h hne
  have hskip : skipSpaces (front++(c::t++more++back)) = c::t++more++back :=
    skipSpaces_text hfront ⟨c,t++more,rfl,hc.not_isSpace⟩
  rw [hskip]
  refine leadingZeroComp_of_ne fun d hd => ?_
  obtain rfl : c = d := by simpa using hd
  exact ne_colon_of_isDigit hc

theorem leading_compressed {front right back : List UInt8} (hfront : Blank front) :
    leadingZeroComp (skipSpaces (front++([58,58]++right++back))) = some (some 0,right++back) := by
  have hskip : skipSpaces (front++([58,58]++right++back)) = [58,58]++right++back :=
    skipSpaces_text hfront ⟨58,58::right,rfl,by decide⟩
  rw [hskip,leadingZeroComp]
  simp only [List.cons_append,List.nil_append,consumeChar_self]

/-- An address in text is parsed. -/
theorem ipv6Parse_of_text {a : Fin 16 → UInt8} (h : Trimmed (Ipv6Text (List.ofFn a)) s) :
    ipv6Parse s stack out = (.success,a) := by
  obtain ⟨front,text,back,hfront,hback,htext,rfl⟩ := h
  generalize hbytes : List.ofFn a = bytes at htext
  cases htext with
  | @full l _ hlen hl =>
    have hne : l ≠ [] := by rintro rfl; cases hlen
    have hlead : leadingZeroComp (skipSpaces (front++(text++[]++back))) =
        some (none,text++[]++back) := leading_groups hfront hl hne
    rw [List.append_nil] at hlead
    rw [ipv6Parse_of_tail hlead hback (tail_of_groups hl hne hlen.le),if_neg (by omega)]
    refine congrArg (Prod.mk QdfStatus.success) (List.ofFn_injective ?_)
    rw [hbytes]
    exact ofFn_write (by rw [length_bytes]; omega) stack
  | @compressed l r left right hlen hl hr =>
    by_cases hnil : l = []
    · subst hnil
      cases hl
      have hlen' : r.length < 8 := by simpa using hlen
      have htail : Tail 8 0 (some 0) r (some 0) right := by
        by_cases hr0 : r = []
        · subst hr0
          cases hr
          exact .stop
        · exact tail_of_groups hr hr0 hlen'.le
      rw [List.nil_append,ipv6Parse_of_tail (leading_compressed hfront) hback htail,
        if_pos hlen']
      refine congrArg (Prod.mk QdfStatus.success) (List.ofFn_injective ?_)
      rw [hbytes]
      have hcomp := applyZeroComp_write hlen stack
      simpa using hcomp
    · rw [ipv6Parse_of_tail (leading_groups hfront hl hnil) hback
        (tail_of_compressed hl hnil hr hlen),List.length_append,if_pos hlen]
      refine congrArg (Prod.mk QdfStatus.success) (List.ofFn_injective ?_)
      rw [hbytes]
      have hcomp := applyZeroComp_write hlen stack
      simpa using hcomp

/-- So are eight groups with one more colon. -/
theorem ipv6Parse_of_trailing (h : Trimmed TrailingColon s) :
    (ipv6Parse s stack out).1 = .success := by
  obtain ⟨front,_,back,hfront,hback,⟨l,t,hlen,hl,rfl⟩,rfl⟩ := h
  have hne : l ≠ [] := by rintro rfl; cases hlen
  rw [ipv6Parse_of_tail (leading_groups hfront hl hne) hback (tail_of_trailing hl hne hlen),
    if_neg (by omega)]
  rfl

theorem ipv6Parse_unwritten (h : (ipv6Parse s stack out).1 ≠ .success) :
    (ipv6Parse s stack out).2 = out := by
  rw [ipv6Parse] at h ⊢
  rcases hlead : leadingZeroComp (skipSpaces s) with _ | ⟨z,str⟩
  · rfl
  rw [hlead] at h
  dsimp only at h ⊢
  rcases hloop : ipv6Loop 8 0 z stack str with _ | r
  · rfl
  rw [hloop] at h
  dsimp only at h ⊢
  split_ifs at h ⊢ with hjunk hfew hcomp
  · rfl
  · cases hz : r.zeroComp with
    | none => rfl
    | some zeroComp =>
      rw [hz] at h
      exact absurd rfl h
  · rfl
  · exact absurd rfl h

theorem leadingZeroComp_sound {z : Option ℕ} {str : List UInt8}
    (h : leadingZeroComp s = some (z,str)) :
    z = some 0 ∧ s = [58,58]++str ∨ z = none ∧ s = str := by
  rw [leadingZeroComp] at h
  obtain ⟨t,rfl⟩ | hno := consumeChar_cases 58 s
  · rw [consumeChar_self] at h
    dsimp only at h
    obtain ⟨u,rfl⟩ | hno := consumeChar_cases 58 t
    · rw [consumeChar_self] at h
      cases h
      exact Or.inl ⟨rfl,rfl⟩
    · rw [hno] at h
      cases h
  · rw [hno] at h
    cases h
    exact Or.inr ⟨rfl,rfl⟩

/-- What is accepted is an address in text, or eight groups with one more colon. -/
theorem ipv6Parse_sound (h : (ipv6Parse s stack out).1 = .success) :
    (∃ a : Fin 16 → UInt8, Trimmed (Ipv6Text (List.ofFn a)) s) ∨ Trimmed TrailingColon s := by
  rw [ipv6Parse] at h
  rcases hlead : leadingZeroComp (skipSpaces s) with _ | ⟨z,str⟩
  · rw [hlead] at h
    cases h
  rw [hlead] at h
  dsimp only at h
  rcases hloop : ipv6Loop 8 0 z stack str with _ | r
  · rw [hloop] at h
    cases h
  rw [hloop] at h
  dsimp only at h
  obtain ⟨hs,text,htail,rfl,hfound,_⟩ := ipv6Loop_sound hloop
  rw [Nat.zero_add] at hfound
  obtain ⟨front,hfront,hs'⟩ := exists_blank_front s
  by_cases hjunk : skipSpaces r.str = []
  swap
  · rw [if_pos hjunk] at h
    cases h
  have hback : Blank r.str := (skipSpaces_eq_nil_iff _).mp hjunk
  rw [if_neg (not_not.mpr hjunk),hfound] at h
  have hcompressed {l r' : List UInt16} {left right : List UInt8}
      (hlen : l.length+r'.length < 8) (hl : Groups l left) (hr : Groups r' right)
      (heq : skipSpaces s = left++([58,58]++right)++r.str) :
      ∃ a : Fin 16 → UInt8, Trimmed (Ipv6Text (List.ofFn a)) s := by
    refine ⟨fun i => applyZeroComp (write stack 0 ((l++r').flatMap hextetBytes))
      (l.length+r'.length) l.length i,front,_,r.str,hfront,hback,?_,heq ▸ hs'⟩
    rw [applyZeroComp_write hlen stack]
    exact .compressed hlen hl hr
  obtain ⟨rfl,heq⟩ | ⟨rfl,heq⟩ := leadingZeroComp_sound hlead
  · -- behind a leading compression
    obtain ⟨hz,_,hgroups⟩ := htail.compressed le_rfl
    rw [hz] at h
    split_ifs at h with hfew hsome
    · refine Or.inl (hcompressed (l := []) (by simpa using hfew) .nil (hgroups hfew) ?_)
      rw [heq]
      simp
    · exact absurd rfl hsome
  · obtain ⟨hz,hgroups⟩ | ⟨l,r',left,right,rfl,hl,hz,hleft,hright,rfl⟩ := htail.uncompressed
    · -- no compression: eight groups
      rw [hz] at h
      split_ifs at h with hfew
      have hlen : hs.length = 8 := htail.length_le.antisymm (Nat.not_lt.mp hfew)
      rw [heq] at hs'
      obtain hl | ⟨_,t,ht,rfl⟩ := hgroups hlen
      · have hbytes : (hs.flatMap hextetBytes).length = 16 := by
          rw [length_bytes,hlen]
        refine Or.inl ⟨fun i => write stack 0 (hs.flatMap hextetBytes) i,front,_,r.str,hfront,
          hback,?_,hs'⟩
        rw [ofFn_write hbytes]
        exact .full hlen hl
      · exact Or.inr ⟨front,_,r.str,hfront,hback,⟨hs,t,hlen,ht,rfl⟩,hs'⟩
    · rw [hz] at h
      split_ifs at h with hfew hsome
      · exact Or.inl (hcompressed (by simpa using hfew) hleft (hright hfew) heq)
      · exact absurd rfl hsome

theorem groups_last {l : List UInt16} {text : List UInt8} (h : Groups l text) (hne : l ≠ []) :
    ∃ u c, text = u++[c] ∧ IsDigit 16 c := by
  induction h with
  | nil => exact absurd rfl hne
  | @one a text ht =>
    obtain ⟨d,v,rfl,_⟩ := ht.head
    obtain ⟨u,c,hu⟩ := List.eq_nil_or_concat (d::v) |>.resolve_left (List.cons_ne_nil _ _)
    rw [List.concat_eq_append] at hu
    exact ⟨u,c,hu,ht.isDigit c (by rw [hu]; simp)⟩
  | @cons a b as text t _ _ ih =>
    obtain ⟨u,c,rfl,hc⟩ := ih (List.cons_ne_nil _ _)
    exact ⟨text++([58]++u),c,by simp,hc⟩

/-- An address in text ends with a digit or with a compression. -/
theorem Ipv6Text.last {bytes text : List UInt8} (h : Ipv6Text bytes text) :
    (∃ u c, text = u++[c] ∧ IsDigit 16 c) ∨ ∃ u, text = u++[58,58] := by
  cases h with
  | @full l _ hlen hl => exact Or.inl (groups_last hl (by rintro rfl; cases hlen))
  | @compressed l r left right _ _ hr =>
    by_cases hnil : r = []
    · subst hnil
      cases hr
      exact Or.inr ⟨left,by simp⟩
    · obtain ⟨u,c,rfl,hc⟩ := groups_last hr hnil
      exact Or.inl ⟨left++([58,58]++u),c,by simp,hc⟩

theorem Ipv6Text.dark {bytes text : List UInt8} (h : Ipv6Text bytes text) :
    ∃ c t, text = c::t ∧ isSpace c = false := by
  cases h with
  | @full l _ hlen hl =>
    obtain ⟨c,t,rfl,hc⟩ := groups_head hl (by rintro rfl; cases hlen)
    exact ⟨c,t,rfl,hc.not_isSpace⟩
  | @compressed l r left right _ hl _ =>
    by_cases hnil : l = []
    · subst hnil
      cases hl
      exact ⟨58,58::right,rfl,by decide⟩
    · obtain ⟨c,t,rfl,hc⟩ := groups_head hl hnil
      exact ⟨c,_,rfl,hc.not_isSpace⟩

/-- Eight groups and one more colon are no address. -/
theorem not_text_of_trailing (h : Trimmed TrailingColon s) {bytes : List UInt8} :
    ¬ Trimmed (Ipv6Text bytes) s := by
  rintro ⟨front',text,back',hfront',hback',htext,hs'⟩
  obtain ⟨front,_,back,hfront,hback,⟨l,t,hlen,hl,rfl⟩,rfl⟩ := h
  have hne : l ≠ [] := by rintro rfl; cases hlen
  obtain ⟨c,v,hcv,hc⟩ := groups_head hl hne
  obtain ⟨u,d,rfl,hd⟩ := groups_last hl hne
  have hend : ∃ u c, text = u++[c] ∧ isSpace c = false := by
    obtain ⟨u,c,rfl,hc⟩ | ⟨u,rfl⟩ := htext.last
    · exact ⟨u,c,rfl,hc.not_isSpace⟩
    · exact ⟨u++[58],58,by simp,by decide⟩
  have hdark : ∃ c t, u++[d]++[58] = c::t ∧ isSpace c = false :=
    ⟨c,v++[58],by rw [hcv]; rfl,hc.not_isSpace⟩
  have heq := trimmed_text hfront hfront' hback hback' hdark htext.dark
    ⟨u++[d],58,rfl,by decide⟩ hend hs'
  obtain ⟨w,e,rfl,he⟩ | ⟨w,rfl⟩ := htext.last
  · obtain ⟨_,hlast⟩ := List.append_inj' heq rfl
    exact ne_colon_of_isDigit he (List.cons.inj hlast).1.symm
  · rw [List.append_assoc] at heq
    obtain ⟨_,hlast⟩ := List.append_inj' heq rfl
    exact ne_colon_of_isDigit hd (List.cons.inj hlast).1

theorem not_exact_of_trailing (h : Trimmed TrailingColon s) :
    ¬ ParsesExactly Ipv6Text s out (ipv6Parse s stack out) := by
  rintro ⟨hiff,_,_⟩
  obtain ⟨a,ha⟩ := hiff.mp (ipv6Parse_of_trailing h)
  exact not_text_of_trailing h ha

/-- The IPv6 parser is exact on everything but eight groups with one more colon. -/
theorem ipv6Parse_exact_iff (s : List UInt8) (stack : ℕ → UInt8) (out : Fin 16 → UInt8) :
    ParsesExactly Ipv6Text s out (ipv6Parse s stack out) ↔ ¬ Trimmed TrailingColon s := by
  constructor
  · intro h htrailing
    exact not_exact_of_trailing htrailing h
  · intro h
    refine ⟨⟨fun hok => ?_,?_⟩,?_,ipv6Parse_unwritten⟩
    · exact (ipv6Parse_sound hok).resolve_right h
    · rintro ⟨a,ha⟩
      rw [ipv6Parse_of_text ha]
    · intro a ha
      rw [ipv6Parse_of_text ha]

/-- `1:1:1:1:1:1:1:1:` -/
def onesAndColon : List UInt8 := [49,58,49,58,49,58,49,58,49,58,49,58,49,58,49,58]

/-- Eight groups and one more colon are accepted. -/
theorem not_exact_ones_and_colon :
    (ipv6Parse onesAndColon (fun _ => 0) (fun _ => 0)).1 = .success ∧
      ¬ ParsesExactly Ipv6Text onesAndColon (fun _ => 0)
        (ipv6Parse onesAndColon (fun _ => 0) (fun _ => 0)) := by
  have hone : IsHextet 1 [49] := ⟨by decide,by decide,by simpa using ⟨1,by decide⟩,by decide⟩
  have hgroups : Groups [1,1,1,1,1,1,1,1] [49,58,49,58,49,58,49,58,49,58,49,58,49,58,49] :=
    .cons hone (.cons hone (.cons hone (.cons hone (.cons hone (.cons hone (.cons hone
      (.one hone)))))))
  have htrailing : Trimmed TrailingColon onesAndColon :=
    ⟨[],_,[],by simp [Blank],by simp [Blank],⟨_,_,rfl,hgroups,rfl⟩,rfl⟩
  exact ⟨ipv6Parse_of_trailing htrailing,not_exact_of_trailing htrailing⟩

end Exact

end QdfTypes
end MarbleModules
