import MarbleModules.TkipMicLoop

/-! The chains of fragments over which the check is that of the whole payload, in terms of the
positions where the fragments end. -/
namespace MarbleModules
namespace TkipMic

open Michael (Byte Word absorb)

section Ends

/-- The ends of buffers of these lengths, of which the first ends at `d`, but for the last. -/
def cuts : ℕ → List ℕ → List ℕ
  | _,[] => []
  | d,p::ps => d::cuts (d+p) ps

/-- The ends of buffers of these lengths but for the last. -/
def ends : List ℕ → List ℕ
  | [] => []
  | d::ps => cuts d ps

/-- Of a message of length `n` cut at these ends, no word has two cuts within it, and there is
none at or behind the end of the last word. -/
structure Undivided (n : ℕ) (cs : List ℕ) : Prop where
  tail : ∀ c ∈ cs,c < n/4*4 ∨ n ≤ c
  words : cs.Pairwise fun a b => a%4 ≠ 0 → b < n/4*4 → a/4 < b/4

theorem le_of_mem_cuts {d c : ℕ} {ps : List ℕ} (h : c ∈ cuts d ps) : d ≤ c := by
  induction ps generalizing d with
  | nil => exact absurd h List.not_mem_nil
  | cons p ps ih =>
    rcases List.mem_cons.mp h with rfl | h
    · exact le_rfl
    · exact (Nat.le_add_right d p).trans (ih h)

theorem cuts_add (d m : ℕ) (ps : List ℕ) : cuts (d+m) ps = (cuts d ps).map (·+m) := by
  induction ps generalizing d with
  | nil => rfl
  | cons p ps ih => rw [cuts,cuts,List.map_cons,← ih,Nat.add_right_comm]

theorem cuts_concat (d a : ℕ) (ps : List ℕ) : cuts d (ps++[a]) = cuts d ps++[d+ps.sum] := by
  induction ps generalizing d with
  | nil => rfl
  | cons p ps ih => rw [List.cons_append,cuts,ih,cuts,List.sum_cons,Nat.add_assoc,List.cons_append]

theorem ends_concat {l : List ℕ} (h : l ≠ []) (a : ℕ) : ends (l++[a]) = ends l++[l.sum] := by
  cases l with
  | nil => exact absurd rfl h
  | cons d ps => exact cuts_concat d a ps

theorem ends_last (l : List ℕ) (a b : ℕ) : ends (l++[a]) = ends (l++[b]) := by
  cases l with
  | nil => rfl
  | cons d ps => rw [ends_concat (List.cons_ne_nil _ _),ends_concat (List.cons_ne_nil _ _)]

variable {n c : ℕ} {cs : List ℕ}

theorem undivided_cons : Undivided n (c::cs) ↔ (c < n/4*4 ∨ n ≤ c) ∧
    (∀ b ∈ cs,c%4 ≠ 0 → b < n/4*4 → c/4 < b/4) ∧ Undivided n cs := by
  constructor
  · rintro ⟨ht,hw⟩
    obtain ⟨hhead,htail⟩ := List.pairwise_cons.mp hw
    exact ⟨ht c List.mem_cons_self,hhead,fun b hb => ht b (List.mem_cons_of_mem c hb),htail⟩
  · rintro ⟨hc,hhead,ht,hw⟩
    exact ⟨List.forall_mem_cons.mpr ⟨hc,ht⟩,List.pairwise_cons.mpr ⟨hhead,hw⟩⟩

/-- Cuts at or behind the end of the message divide nothing. -/
theorem undivided_of_le (h : ∀ c ∈ cs,n ≤ c) : Undivided n cs := by
  refine ⟨fun c hc => Or.inr (h c hc),List.pairwise_of_forall_mem_list fun a _ b hb _ hlt => ?_⟩
  have hn := h b hb
  omega

theorem undivided_concat (h : n ≤ c) : Undivided n (cs++[c]) ↔ Undivided n cs := by
  constructor
  · rintro ⟨ht,hw⟩
    exact ⟨fun b hb => ht b (List.mem_append_left _ hb),(List.pairwise_append.mp hw).1⟩
  · rintro ⟨ht,hw⟩
    refine ⟨fun b hb => ?_,List.pairwise_append.mpr ⟨hw,List.pairwise_singleton _ _,?_⟩⟩
    · rcases List.mem_append.mp hb with hb | hb
      · exact ht b hb
      · exact Or.inr (List.mem_singleton.mp hb ▸ h)
    · intro a _ b hb _ hlt
      obtain rfl := List.mem_singleton.mp hb
      omega

theorem undivided_add (m : ℕ) : Undivided (n+4*m) (cs.map (·+4*m)) ↔ Undivided n cs := by
  have hdiv : (n+4*m)/4*4 = n/4*4+4*m := by omega
  constructor
  · rintro ⟨ht,hw⟩
    rw [List.pairwise_map] at hw
    refine ⟨fun b hb => ?_,hw.imp fun {a b} hab ha hb => ?_⟩
    · have hh := ht _ (List.mem_map_of_mem hb)
      omega
    · have hh := hab (by omega) (by omega)
      omega
  · rintro ⟨ht,hw⟩
    refine ⟨fun b hb => ?_,List.pairwise_map.mpr (hw.imp fun {a b} hab ha hb => ?_)⟩
    · obtain ⟨a,ha,rfl⟩ := List.mem_map.mp hb
      have hh := ht a ha
      omega
    · have hh := hab (by omega) (by omega)
      omega

/-- The condition on the loop is that on the cuts. -/
theorem fits_iff (d : ℕ) (ps : List ℕ) : Fits d ps ↔ Undivided (d+ps.sum) (cuts d ps) := by
  induction ps generalizing d with
  | nil => exact iff_of_true trivial (undivided_of_le fun c hc => absurd hc List.not_mem_nil)
  | cons p ps ih =>
    rw [Fits,cuts,List.sum_cons,undivided_cons]
    by_cases hlast : d%4+p+ps.sum < 4
    · rw [if_pos hlast]
      constructor
      · intro h0
        have hle : ∀ b ∈ cuts (d+p) ps,d+(p+ps.sum) ≤ b := by
          intro b hb
          have hh := le_of_mem_cuts hb
          omega
        refine ⟨Or.inr (by omega),fun b hb _ hlt => ?_,undivided_of_le hle⟩
        have hh := hle b hb
        omega
      · rintro ⟨hhead,-⟩
        omega
    · rw [if_neg hlast]
      by_cases h0 : d%4 = 0
      · have hcuts : cuts (d+p) ps = (cuts p ps).map (·+4*(d/4)) := by
          rw [← cuts_add]
          congr 1
          omega
        have hsum : d+(p+ps.sum) = p+ps.sum+4*(d/4) := by omega
        rw [if_pos h0,ih,hcuts,hsum,undivided_add]
        exact ⟨fun h => ⟨Or.inl (by omega),fun _ _ hne => absurd h0 hne,h⟩,fun h => h.2.2⟩
      · rw [if_neg h0]
        by_cases hp : 4-d%4 ≤ p
        · have hcuts : cuts (d+p) ps = (cuts (p-(4-d%4)) ps).map (·+4*(d/4+1)) := by
            rw [← cuts_add]
            congr 1
            omega
          have hsum : d+(p+ps.sum) = p-(4-d%4)+ps.sum+4*(d/4+1) := by omega
          rw [ih]
          constructor
          · rintro ⟨-,h⟩
            refine ⟨Or.inl (by omega),fun b hb _ _ => ?_,?_⟩
            · have hh := le_of_mem_cuts hb
              omega
            · rwa [hcuts,hsum,undivided_add]
          · rintro ⟨-,-,h⟩
            rw [hcuts,hsum,undivided_add] at h
            exact ⟨hp,h⟩
        · refine iff_of_false (fun h => hp h.1) ?_
          rintro ⟨-,hhead,-⟩
          cases ps with
          | nil =>
            rw [List.sum_nil] at hlast
            omega
          | cons q ps =>
            have hh := hhead (d+p) List.mem_cons_self h0 (by omega)
            omega

end Ends

section Header

/-- The pseudo header of a frame: destination, source, priority and three zeros. -/
def pseudoHeader (wh : ℕ → Byte) : List Byte :=
  let toDs := wh 1 &&& 0x01 ≠ 0
  let fromDs := wh 1 &&& 0x02 ≠ 0
  let addr := fun off => (List.range 6).map fun i => wh (off+i)
  let da := if toDs then addr 16 else addr 4
  let sa := if fromDs then (if toDs then addr 24 else addr 16) else addr 10
  let qos := if toDs ∧ fromDs then wh 30 else wh 24
  da++sa++[if wh 0 &&& 0x80 ≠ 0 then qos &&& 0x0f else 0,0,0,0]

theorem dir_cases (b : Byte) :
    b &&& 3#8 = 0#8 ∧ b &&& 1#8 = 0#8 ∧ b &&& 2#8 = 0#8 ∨
    b &&& 3#8 = 1#8 ∧ b &&& 1#8 ≠ 0#8 ∧ b &&& 2#8 = 0#8 ∨
    b &&& 3#8 = 2#8 ∧ b &&& 1#8 = 0#8 ∧ b &&& 2#8 ≠ 0#8 ∨
    b &&& 3#8 = 3#8 ∧ b &&& 1#8 ≠ 0#8 ∧ b &&& 2#8 ≠ 0#8 := by
  revert b
  decide

theorem michdr_eq (wh : ℕ → Byte) : (List.range 16).map (michdr wh) = pseudoHeader wh := by
  rcases dir_cases (wh 1) with ⟨hd,ht,hf⟩ | ⟨hd,ht,hf⟩ | ⟨hd,ht,hf⟩ | ⟨hd,ht,hf⟩ <;>
    simp [michdr,pseudoHeader,hd,ht,hf,List.range_succ]

/-- The code over the buffers of a chain is that of its payload, where the loop can go through. -/
theorem defragMic_eq (key : Fin 8 → Byte) (wbuf : Nbuf) (rest : List Nbuf) {off : ℕ}
    (hoff : 4 ≤ off) :
    (Undivided (payloads (wbuf::rest)).length (ends (lens (wbuf::rest))) →
      defragMic key wbuf rest off (payloads (wbuf::rest)).length =
        .ok (Michael.mic key (pseudoHeader wbuf.frame++payloads (wbuf::rest)))) ∧
    (¬ Undivided (payloads (wbuf::rest)).length (ends (lens (wbuf::rest))) →
      defragMic key wbuf rest off (payloads (wbuf::rest)).length = .outside) := by
  set s := mixIn (mixIn (mixIn (mixIn ⟨getLe32Split (key 0) (key 1) (key 2) (key 3),
    getLe32Split (key 4) (key 5) (key 6) (key 7)⟩ (getLe32 (michdr wbuf.frame) 0))
    (getLe32 (michdr wbuf.frame) 4)) (getLe32 (michdr wbuf.frame) 8))
    (getLe32 (michdr wbuf.frame) 12) with hs
  have hstate : s.state =
      (absorb Michael.step (Michael.init key) (pseudoHeader wbuf.frame)).1 := by
    rw [← michdr_eq,hs]
    rfl
  have hlen : (payloads (wbuf::rest)).length = wbuf.payload.length+(payloads rest).length := by
    rw [payloads_cons,List.length_append]
  have hfits : Undivided (payloads (wbuf::rest)).length (ends (lens (wbuf::rest))) ↔
      Fits wbuf.payload.length (lens rest) := by
    rw [fits_iff,hlen,length_payloads]
    rfl
  have hdef : defragMic key wbuf rest off (payloads (wbuf::rest)).length =
      micLoop off rest s wbuf.payload wbuf.payload.length (payloads (wbuf::rest)).length := rfl
  have hhdr : (pseudoHeader wbuf.frame).length%4 = 0 := by
    rw [← michdr_eq]
    simp
  rw [hfits,hdef,hlen]
  refine ⟨fun h => ?_,fun h => micLoop_outside hoff rest s wbuf.payload h⟩
  rw [micLoop_ok hoff rest s wbuf.payload h,Michael.mic_append key hhdr,hstate]
  rfl

end Header

end TkipMic
end MarbleModules
