import MarbleModules.TkipMic

/-! The loop over the buffers: it takes in the message word by word as long as no word lies in
more than two buffers, and the bytes behind the last word in the buffer where that word ends. -/
namespace MarbleModules
namespace TkipMic

open Michael (Byte Word absorb)

/-- The halves as the state of Michael. -/
def Halves.state (s : Halves) : Michael.State := ⟨s.l,s.r⟩

theorem michaelBlock_state (s : Halves) : (michaelBlock s).state = Michael.block s.state := by
  have hrotl : ∀ v : Word,∀ n < 32,rxRotl v n = v.rotateLeft n := by
    intro v n hn
    rw [BitVec.rotateLeft_def,Nat.mod_eq_of_lt hn,rxRotl]
  have hrotr : ∀ v : Word,∀ n < 32,rxRotr v n = v.rotateRight n := by
    intro v n hn
    rw [BitVec.rotateRight_def,Nat.mod_eq_of_lt hn,rxRotr]
  simp only [michaelBlock,Halves.state,Michael.block,hrotl _ 17 (by decide),
    hrotl _ 3 (by decide),hrotr _ 2 (by decide)]
  rfl

theorem mixIn_state (s : Halves) (a b c d : Byte) :
    (mixIn s (getLe32Split a b c d)).state = Michael.step s.state a b c d :=
  michaelBlock_state _

theorem putLe32_eq (v : Word) : putLe32 v = Michael.bytes v := by
  have hmask : ∀ w : Word,(w &&& 0xff).setWidth 8 = w.setWidth 8 := by
    intro w
    rw [BitVec.setWidth_and]
    have hones : ((0xff : Word).setWidth 8) = BitVec.allOnes 8 := by decide
    rw [hones,BitVec.and_allOnes]
  simp only [putLe32,Michael.bytes,hmask]

theorem collect_eq : ∀ (data : List Byte) (s : Halves) (n : ℕ),
    ∃ s',collect s data data.length n =
        some (s',(absorb Michael.step s.state data).2,data.length%4,
          n-(data.length-data.length%4)) ∧
      s'.state = (absorb Michael.step s.state data).1
  | b0::b1::b2::b3::data,s,n => by
    obtain ⟨s',hs',hst⟩ := collect_eq data (mixIn s (getLe32Split b0 b1 b2 b3)) (n-4)
    rw [mixIn_state] at hs' hst
    refine ⟨s',?_,by simpa [absorb] using hst⟩
    have hmod : (data.length+4)%4 = data.length%4 := by omega
    have hle := Nat.mod_le data.length 4
    have hsub : n-4-(data.length-data.length%4) = n-(data.length+4-data.length%4) := by omega
    simp only [List.length_cons,collect,hs',absorb,Nat.add_assoc,Nat.reduceAdd,hmod,hsub]
  | [],s,n => ⟨s,by simp [collect,absorb],by simp [absorb]⟩
  | [_],s,n => ⟨s,by simp [collect,absorb],by simp [absorb]⟩
  | [_,_],s,n => ⟨s,by simp [collect,absorb],by simp [absorb]⟩
  | [_,_,_],s,n => ⟨s,by simp [collect,absorb],by simp [absorb]⟩

/-- The code from a state and what is left of the message. -/
def code (x : Michael.State × List Byte) : List Byte :=
  Michael.bytes (Michael.finish x.1 x.2).l++Michael.bytes (Michael.finish x.1 x.2).r

theorem lastBlock_fin (s : Halves) (w : Word) : lastBlock.fin s w =
    .ok (Michael.bytes (Michael.block (mixIn s w).state).l++
      Michael.bytes (Michael.block (mixIn s w).state).r) := by
  rw [← michaelBlock_state]
  simp only [lastBlock.fin,putLe32_eq]
  rfl

theorem lastBlock_ok (s : Halves) {tail : List Byte} (h : tail.length < 4) :
    lastBlock s tail.length tail = .ok (code (s.state,tail)) := by
  match tail,h with
  | [],_ => simp only [List.length_nil,lastBlock,lastBlock_fin,mixIn_state]; rfl
  | [_],_ => simp only [List.length_singleton,lastBlock,lastBlock_fin,mixIn_state]; rfl
  | [_,_],_ => simp only [List.length_cons,List.length_nil,lastBlock,lastBlock_fin,mixIn_state]; rfl
  | [_,_,_],_ => simp only [List.length_cons,List.length_nil,lastBlock,lastBlock_fin,mixIn_state]; rfl
  | _::_::_::_::_,h =>
    simp only [List.length_cons] at h
    omega

theorem lastBlock_outside (s : Halves) {tail : List Byte} {n : ℕ} (h : tail.length < n) :
    lastBlock s n tail = .outside := by
  fun_cases lastBlock s n tail <;> simp_all <;> omega

theorem straddle_some (s : Halves) {tail next : List Byte} (h0 : tail.length ≠ 0)
    (h4 : tail.length < 4) (h : 4-tail.length ≤ next.length) :
    ∃ s',straddle s tail.length tail next = some (s',next.drop (4-tail.length)) ∧
      ∀ m,absorb Michael.step s.state (tail++(next++m)) =
        absorb Michael.step s'.state (next.drop (4-tail.length)++m) := by
  match tail,next,h0,h4,h with
  | [b0],c0::c1::c2::next,_,_,_ =>
    exact ⟨_,rfl,fun m => by simp [absorb,mixIn_state]⟩
  | [b0,b1],c0::c1::next,_,_,_ =>
    exact ⟨_,rfl,fun m => by simp [absorb,mixIn_state]⟩
  | [b0,b1,b2],c0::next,_,_,_ =>
    exact ⟨_,rfl,fun m => by simp [absorb,mixIn_state]⟩

theorem straddle_none (s : Halves) {tail next : List Byte}
    (h : next.length < 4-tail.length) : straddle s tail.length tail next = none := by
  fun_cases straddle s tail.length tail next <;> simp_all <;> omega

/-- With `d` bytes of a buffer left, taken in from a word's first byte on, and buffers of these
lengths behind it: each word lies in two buffers at most, and what is behind the last word lies in
the buffer where that ends. -/
def Fits : ℕ → List ℕ → Prop
  | _,[] => True
  | d,p::ps =>
    if d%4+p+ps.sum < 4 then p+ps.sum = 0
    else if d%4 = 0 then Fits p ps
    else 4-d%4 ≤ p ∧ Fits (p-(4-d%4)) ps

/-- The payloads of a chain, one behind the other. -/
def payloads (chain : List Nbuf) : List Byte := chain.flatMap (·.payload)

/-- The lengths of the payloads of a chain. -/
def lens (chain : List Nbuf) : List ℕ := chain.map (·.payload.length)

theorem length_payloads (chain : List Nbuf) : (payloads chain).length = (lens chain).sum := by
  rw [payloads,lens,List.length_flatMap]

/-- What is left of a buffer once its words are taken in, and the state then. -/
structure Collected (s : Halves) (data : List Byte) (s' : Halves) (tail : List Byte) : Prop where
  length : tail.length = data.length%4
  append : ∀ m,absorb Michael.step s.state (data++m) = absorb Michael.step s'.state (tail++m)

theorem Collected.lt {s s' : Halves} {data tail : List Byte} (h : Collected s data s' tail) :
    tail.length < 4 := by
  rw [h.length]
  exact Nat.mod_lt _ (by decide)

/-- One round of the loop on a buffer of which nothing is beyond the data. -/
theorem micLoop_round (off : ℕ) (rest : List Nbuf) (s : Halves) (data : List Byte) (m : ℕ) :
    ∃ s' tail,Collected s data s' tail ∧
      micLoop off rest s data data.length (data.length+m) =
        if tail.length+m < 4 then lastBlock s' (tail.length+m) tail
        else match rest with
          | [] => .error
          | wbuf::rest =>
            if tail.length ≠ 0 then
              if off+wbuf.payload.length < 4-tail.length then .error
              else match straddle s' tail.length tail wbuf.payload with
                | none => .outside
                | some (s,data) => micLoop off rest s data (wbuf.payload.length-(4-tail.length))
                    (tail.length+m-4)
            else micLoop off rest s' wbuf.payload wbuf.payload.length (tail.length+m) := by
  obtain ⟨s',hs',hst⟩ := collect_eq data s (data.length+m)
  have htail := Michael.absorb_length Michael.step s.state data
  refine ⟨s',(absorb Michael.step s.state data).2,⟨htail,fun m => ?_⟩,?_⟩
  · rw [Michael.absorb_append,hst]
  · have hlt : ¬ data.length+m < data.length := by omega
    have hle := Nat.mod_le data.length 4
    have hsub : data.length+m-(data.length-data.length%4) = data.length%4+m := by omega
    rw [hsub,← htail] at hs'
    rw [micLoop.eq_def]
    cases rest with
    | nil => simp only [if_neg hlt,hs']
    | cons wbuf rest => simp only [if_neg hlt,hs'] <;> rfl

theorem payloads_cons (wbuf : Nbuf) (rest : List Nbuf) :
    payloads (wbuf::rest) = wbuf.payload++payloads rest := rfl

/-- The condition on a buffer and those behind it, in terms of what is left of the buffer. -/
theorem fits_cons {d k : ℕ} (hk : k = d%4) (wbuf : Nbuf) (rest : List Nbuf) :
    Fits d (lens (wbuf::rest)) ↔
      if k+(payloads (wbuf::rest)).length < 4 then (payloads (wbuf::rest)).length = 0
      else if k = 0 then Fits wbuf.payload.length (lens rest)
      else 4-k ≤ wbuf.payload.length ∧ Fits (wbuf.payload.length-(4-k)) (lens rest) := by
  have hlen : (payloads (wbuf::rest)).length = wbuf.payload.length+(lens rest).sum := by
    rw [payloads_cons,List.length_append,length_payloads]
  rw [hlen,hk,← Nat.add_assoc]
  exact Iff.rfl

/-- The loop goes on in the next buffer behind the word that ends in it. -/
theorem micLoop_drop (off : ℕ) {k : ℕ} {wbuf : Nbuf} (rest : List Nbuf) (s : Halves) (hk : k < 4)
    (h : 4-k ≤ wbuf.payload.length) :
    micLoop off rest s (wbuf.payload.drop (4-k)) (wbuf.payload.length-(4-k))
        (k+(wbuf.payload.length+(payloads rest).length)-4) =
      micLoop off rest s (wbuf.payload.drop (4-k)) (wbuf.payload.drop (4-k)).length
        ((wbuf.payload.drop (4-k)).length+(payloads rest).length) := by
  have hleft : k+(wbuf.payload.length+(payloads rest).length)-4 =
      wbuf.payload.length-(4-k)+(payloads rest).length := by omega
  rw [hleft,List.length_drop]

theorem micLoop_ok {off : ℕ} (hoff : 4 ≤ off) (rest : List Nbuf) (s : Halves) (data : List Byte)
    (h : Fits data.length (lens rest)) :
    micLoop off rest s data data.length (data.length+(payloads rest).length) =
      .ok (code (absorb Michael.step s.state (data++payloads rest))) := by
  induction rest generalizing s data with
  | nil =>
    obtain ⟨s',tail,hcol,hloop⟩ := micLoop_round off [] s data 0
    have hlt := hcol.lt
    simp only [Nat.add_zero,if_pos hlt,lastBlock_ok s' hlt] at hloop
    rw [payloads,List.flatMap_nil,List.length_nil,Nat.add_zero,hloop,hcol.append,List.append_nil,
      Michael.absorb_of_lt Michael.step hlt]
  | cons wbuf rest ih =>
    obtain ⟨s',tail,hcol,hloop⟩ :=
      micLoop_round off (wbuf::rest) s data (payloads (wbuf::rest)).length
    have hlt := hcol.lt
    rw [fits_cons hcol.length] at h
    rw [hloop,hcol.append]
    by_cases hlast : tail.length+(payloads (wbuf::rest)).length < 4
    · rw [if_pos hlast] at h
      rw [if_pos hlast,h,Nat.add_zero,lastBlock_ok s' hlt,List.length_eq_zero_iff.mp h,
        List.append_nil,Michael.absorb_of_lt Michael.step hlt]
    · rw [if_neg hlast] at h
      rw [if_neg hlast,payloads_cons,List.length_append]
      by_cases h0 : tail.length = 0
      · rw [if_pos h0] at h
        obtain rfl := List.length_eq_zero_iff.mp h0
        simp only [List.length_nil,ne_eq,not_true_eq_false,if_false,Nat.zero_add,List.nil_append]
        exact ih s' wbuf.payload h
      · rw [if_neg h0] at h
        obtain ⟨s'',hstr,hcode⟩ := straddle_some s' h0 hlt h.1
        have hnext := ih s'' (wbuf.payload.drop (4-tail.length)) (List.length_drop ▸ h.2)
        simp only [ne_eq,h0,not_false_eq_true,if_true,hstr,hcode]
        rw [if_neg (by omega),micLoop_drop off rest s'' hlt h.1]
        exact hnext

theorem micLoop_outside {off : ℕ} (hoff : 4 ≤ off) (rest : List Nbuf) (s : Halves)
    (data : List Byte) (h : ¬ Fits data.length (lens rest)) :
    micLoop off rest s data data.length (data.length+(payloads rest).length) = .outside := by
  induction rest generalizing s data with
  | nil => exact absurd trivial h
  | cons wbuf rest ih =>
    obtain ⟨s',tail,hcol,hloop⟩ :=
      micLoop_round off (wbuf::rest) s data (payloads (wbuf::rest)).length
    have hlt := hcol.lt
    rw [fits_cons hcol.length] at h
    rw [hloop]
    by_cases hlast : tail.length+(payloads (wbuf::rest)).length < 4
    · rw [if_pos hlast] at h
      rw [if_pos hlast]
      exact lastBlock_outside s' (by omega)
    · rw [if_neg hlast] at h
      rw [if_neg hlast,payloads_cons,List.length_append]
      by_cases h0 : tail.length = 0
      · rw [if_pos h0] at h
        simp only [h0,ne_eq,not_true_eq_false,if_false,Nat.zero_add]
        exact ih s' wbuf.payload h
      · rw [if_neg h0] at h
        have hcheck : ¬ off+wbuf.payload.length < 4-tail.length := by omega
        simp only [ne_eq,h0,not_false_eq_true,if_true,if_neg hcheck]
        by_cases hshort : wbuf.payload.length < 4-tail.length
        · simp only [straddle_none s' hshort]
        · obtain ⟨s'',hstr,-⟩ := straddle_some s' h0 hlt (Nat.le_of_not_lt hshort)
          have hlong := Nat.le_of_not_lt hshort
          simp only [hstr]
          rw [micLoop_drop off rest s'' hlt hlong]
          apply ih s''
          rw [List.length_drop]
          exact fun hf => h ⟨hlong,hf⟩

end TkipMic
end MarbleModules
