import MarbleModules.TkipMicExact

/-! When `dp_rx_defrag_tkip_demic` decides a chain of fragments as it would one frame. -/
namespace MarbleModules
namespace TkipMic

open Michael (Byte)

/-- The payload of a frame ends in the code, under a key and the pseudo header of the frame, of
what is before. -/
def Carries (key : Fin 8 → Byte) (frame : ℕ → Byte) (p : List Byte) : Prop :=
  micLen ≤ p.length ∧
    p.drop (p.length-micLen) = Michael.mic key (pseudoHeader frame++p.take (p.length-micLen))

/-- The check of a chain stays within the payloads, succeeds just where the whole payload carries
its code, and leaves the payload without the code. -/
structure Exact (key : Fin 8 → Byte) (msdu : Nbuf) (rest : List Nbuf) (hdrlen : ℕ) : Prop where
  inside : tkipDemic key (msdu::rest) hdrlen ≠ .outside
  success : (∃ chain,tkipDemic key (msdu::rest) hdrlen = .ok chain) ↔
    Carries key msdu.frame (payloads (msdu::rest))
  chain : ∀ chain,tkipDemic key (msdu::rest) hdrlen = .ok chain → payloads chain =
    (payloads (msdu::rest)).take ((payloads (msdu::rest)).length-micLen)

/-- The lengths of the payloads of a chain that the check can read: the code lies in the last
two fragments, and of the message before it no 32-bit word lies in more than two fragments, and the
bytes behind the last word in the fragment in which that word ends. -/
structure Readable (ls : List ℕ) : Prop where
  code : ∀ init x y,ls = init++[x,y] → micLen ≤ x+y
  words : Undivided (ls.sum-micLen) (ends ls)

/-- What is compared, on a chain whose code is cut off. -/
theorem compareMic_spec (key : Fin 8 → Byte) {hdrlen pktlen : ℕ} (hoff : 4 ≤ hdrlen)
    (mic0 : List Byte) {before : List Nbuf} {prev : Nbuf} {frame : ℕ → Byte}
    (hframe : ((before++[prev]).head?.map (·.frame)) = some frame)
    (hn : (pktlen+2^32-micLen)%2^32%2^16 = (payloads (before++[prev])).length) :
    ∃ chain,payloads chain = payloads (before++[prev]) ∧
      (Undivided (payloads (before++[prev])).length (ends (lens (before++[prev]))) →
        compareMic key hdrlen pktlen mic0 before prev =
          if Michael.mic key (pseudoHeader frame++payloads (before++[prev])) = mic0
          then .ok chain else .error) ∧
      (¬ Undivided (payloads (before++[prev])).length (ends (lens (before++[prev]))) →
        compareMic key hdrlen pktlen mic0 before prev = .outside) := by
  have hall : ∀ wbuf rest,(if prev.payload.length = 0 ∧ before ≠ [] then before
      else before++[prev]) = wbuf::rest → wbuf.frame = frame →
      payloads (wbuf::rest) = payloads (before++[prev]) →
      (Undivided (payloads (before++[prev])).length (ends (lens (wbuf::rest))) ↔
        Undivided (payloads (before++[prev])).length (ends (lens (before++[prev])))) →
      ∃ chain,payloads chain = payloads (before++[prev]) ∧
        (Undivided (payloads (before++[prev])).length (ends (lens (before++[prev]))) →
          compareMic key hdrlen pktlen mic0 before prev =
            if Michael.mic key (pseudoHeader frame++payloads (before++[prev])) = mic0
            then .ok chain else .error) ∧
        (¬ Undivided (payloads (before++[prev])).length (ends (lens (before++[prev]))) →
          compareMic key hdrlen pktlen mic0 before prev = .outside) := by
    intro wbuf rest hchain hhead hpay hends
    obtain ⟨hok,hout⟩ := defragMic_eq key wbuf rest hoff
    rw [hpay,hends] at hok hout
    refine ⟨wbuf::rest,hpay,fun h => ?_,fun h => ?_⟩
    · rw [compareMic,hchain]
      simp only [hn,hok h,hhead]
    · rw [compareMic,hchain]
      simp only [hn,hout h]
  by_cases hfreed : prev.payload.length = 0 ∧ before ≠ []
  · obtain ⟨h0,hne⟩ := hfreed
    obtain ⟨wbuf,rest,hb⟩ := List.exists_cons_of_ne_nil hne
    have hnil : prev.payload = [] := List.length_eq_zero_iff.mp h0
    have hpay : payloads before = payloads (before++[prev]) := by
      rw [payloads,payloads,List.flatMap_append,List.flatMap_singleton,hnil,List.append_nil]
    have hlen : lens (before++[prev]) = lens before++[0] := by
      rw [lens,List.map_append,List.map_singleton,h0]
      rfl
    have hne' : lens before ≠ [] := by
      rw [lens,ne_eq,List.map_eq_nil_iff]
      exact hne
    apply hall wbuf rest
    · rw [if_pos ⟨h0,hne⟩,hb]
    · rw [hb] at hframe
      exact Option.some.inj hframe
    · rw [← hb,hpay]
    · rw [← hb,hlen,ends_concat hne',← hpay,length_payloads,undivided_concat le_rfl]
  · obtain ⟨wbuf,rest,hb⟩ := List.exists_cons_of_ne_nil
      (List.append_ne_nil_of_right_ne_nil before (List.cons_ne_nil prev []))
    apply hall wbuf rest
    · rw [if_neg hfreed,hb]
    · rw [hb] at hframe
      exact Option.some.inj hframe
    · rw [hb]
    · rw [hb]

section Chain

variable (key : Fin 8 → Byte) {msdu : Nbuf} {rest : List Nbuf} {hdrlen : ℕ}

theorem exact_of_compare (hoff : 4 ≤ hdrlen) {pktlen : ℕ} {mic0 : List Byte}
    {before : List Nbuf} {prev : Nbuf}
    (hdemic : tkipDemic key (msdu::rest) hdrlen = compareMic key hdrlen pktlen mic0 before prev)
    (hframe : ((before++[prev]).head?.map (·.frame)) = some msdu.frame)
    (hn : (pktlen+2^32-micLen)%2^32%2^16 = (payloads (before++[prev])).length)
    (hlen : micLen ≤ (payloads (msdu::rest)).length)
    (hbody : payloads (before++[prev]) =
      (payloads (msdu::rest)).take ((payloads (msdu::rest)).length-micLen))
    (hmic : mic0 = (payloads (msdu::rest)).drop ((payloads (msdu::rest)).length-micLen)) :
    Exact key msdu rest hdrlen ↔
      Undivided (payloads (before++[prev])).length (ends (lens (before++[prev]))) := by
  obtain ⟨chain,hpay,hok,hout⟩ := compareMic_spec key hoff mic0 hframe hn
  constructor
  · intro h
    by_contra hdiv
    exact h.inside (hdemic.trans (hout hdiv))
  · intro hund
    have hres := hdemic.trans (hok hund)
    have hcarries : Carries key msdu.frame (payloads (msdu::rest)) ↔
        Michael.mic key (pseudoHeader msdu.frame++payloads (before++[prev])) = mic0 := by
      rw [Carries,hbody,← hmic]
      exact ⟨fun h => h.2.symm,fun h => ⟨hlen,h.symm⟩⟩
    by_cases heq : Michael.mic key (pseudoHeader msdu.frame++payloads (before++[prev])) = mic0
    · rw [if_pos heq] at hres
      refine ⟨?_,iff_of_true ⟨chain,hres⟩ (hcarries.mpr heq),fun chain' hchain => ?_⟩
      · rw [hres]
        exact fun h => nomatch h
      · cases hres.symm.trans hchain
        rw [hpay,hbody]
    · rw [if_neg heq] at hres
      refine ⟨?_,iff_of_false ?_ fun h => heq (hcarries.mp h),fun chain' hchain => ?_⟩
      · rw [hres]
        exact fun h => nomatch h
      · rintro ⟨chain',hchain⟩
        exact nomatch hres.symm.trans hchain
      · exact nomatch hres.symm.trans hchain

theorem lens_append (l m : List Nbuf) : lens (l++m) = lens l++lens m := List.map_append

theorem payloads_append (l m : List Nbuf) : payloads (l++m) = payloads l++payloads m :=
  List.flatMap_append

theorem payloads_singleton (nbuf : Nbuf) : payloads [nbuf] = nbuf.payload :=
  List.flatMap_singleton _ _

theorem length_trimTail (nbuf : Nbuf) (len : ℕ) :
    (nbuf.trimTail len).payload.length = nbuf.payload.length-len := by
  rw [Nbuf.trimTail,List.length_take]
  omega

/-- The length that is left once the length of the code is taken off. -/
theorem pktlen_sub {n : ℕ} (h : n < 2^16) (h8 : micLen ≤ n) :
    (n%2^32+2^32-micLen)%2^32%2^16 = n-micLen := by
  unfold micLen at h8 ⊢
  omega

/-- The code lies in the last fragment. -/
theorem exact_iff_of_long (hoff : 4 ≤ hdrlen) {l : List Nbuf} {prev : Nbuf}
    (hchain : msdu::rest = l++[prev]) (htotal : (payloads (msdu::rest)).length < 2^16)
    (hlong : micLen ≤ prev.payload.length) :
    Exact key msdu rest hdrlen ↔ Readable (lens (msdu::rest)) := by
  have hpay : payloads (msdu::rest) = payloads l++prev.payload := by
    rw [hchain,payloads_append,payloads_singleton]
  have hlen : (payloads (msdu::rest)).length = (payloads l).length+prev.payload.length := by
    rw [hpay,List.length_append]
  have hsub : (payloads (msdu::rest)).length-micLen =
      (payloads l).length+(prev.payload.length-micLen) := by omega
  have hbody : payloads (l++[prev.trimTail micLen]) =
      (payloads (msdu::rest)).take ((payloads (msdu::rest)).length-micLen) := by
    rw [hsub,hpay,List.take_length_add_append,payloads_append,payloads_singleton]
    rfl
  have hmic : prev.tail micLen =
      (payloads (msdu::rest)).drop ((payloads (msdu::rest)).length-micLen) := by
    rw [hsub,hpay,List.drop_length_add_append]
    rfl
  have hdemic : tkipDemic key (msdu::rest) hdrlen =
      compareMic key hdrlen ((payloads (msdu::rest)).length%2^32) (prev.tail micLen) l
        (prev.trimTail micLen) := by
    have hnot : ¬ prev.payload.length < micLen := by omega
    have hsum : ((msdu::rest).map fun nbuf => nbuf.payload.length).sum =
        (payloads (msdu::rest)).length := (length_payloads _).symm
    rw [tkipDemic,hsum,hchain,List.reverse_append]
    simp only [List.reverse_singleton,List.singleton_append,hnot,if_false,List.reverse_reverse]
  have hframe : ((l++[prev.trimTail micLen]).head?.map (·.frame)) = some msdu.frame := by
    cases l with
    | nil => rw [(List.cons.inj hchain).1]; rfl
    | cons a l => rw [(List.cons.inj hchain).1]; rfl
  have hblen : (payloads (l++[prev.trimTail micLen])).length =
      (payloads (msdu::rest)).length-micLen := by
    rw [hbody,List.length_take]
    omega
  rw [exact_of_compare key hoff hdemic hframe ((pktlen_sub htotal (by omega)).trans hblen.symm)
    (by omega) hbody hmic,hblen,length_payloads,lens_append,hchain,lens_append]
  have hends : ends (lens l++lens [prev.trimTail micLen]) = ends (lens l++lens [prev]) :=
    ends_last _ _ _
  rw [hends]
  refine ⟨fun h => ⟨fun init x y heq => ?_,h⟩,fun h => h.words⟩
  have hsplit : lens l++[prev.payload.length] = (init++[x])++[y] := by
    rw [List.append_assoc,List.singleton_append]
    exact heq
  have hlast := List.append_inj_right' hsplit rfl
  have hy := List.singleton_injective hlast
  omega

/-- The chain is one fragment without room for a code. -/
theorem exact_iff_of_single (hshort : msdu.payload.length < micLen) :
    Exact key msdu [] hdrlen ↔ Readable (lens [msdu]) := by
  have hdemic : tkipDemic key [msdu] hdrlen = .error := by
    rw [tkipDemic]
    simp only [List.reverse_singleton,hshort,if_true]
  refine iff_of_true ⟨?_,iff_of_false ?_ fun h => ?_,fun chain hchain => ?_⟩
    ⟨fun init x y heq => ?_,undivided_of_le fun c hc => absurd hc List.not_mem_nil⟩
  · rw [hdemic]
    exact fun h => nomatch h
  · rintro ⟨chain,hchain⟩
    exact nomatch hdemic.symm.trans hchain
  · have hlen := h.1
    rw [payloads_singleton] at hlen
    omega
  · exact nomatch hdemic.symm.trans hchain
  · have hlen := congrArg List.length heq
    rw [List.length_append] at hlen
    simp only [lens,List.map_singleton,List.length_cons,List.length_nil] at hlen
    omega

/-- The code lies over the last two fragments, or is not within them. -/
theorem exact_iff_of_split (hoff : 4 ≤ hdrlen) {l : List Nbuf} {prev0 prev : Nbuf}
    (hchain : msdu::rest = l++[prev0,prev]) (htotal : (payloads (msdu::rest)).length < 2^16)
    (hshort : prev.payload.length < micLen) :
    Exact key msdu rest hdrlen ↔ Readable (lens (msdu::rest)) := by
  set len0 := micLen-prev.payload.length with hlen0
  have hpay : payloads (msdu::rest) = payloads l++(prev0.payload++prev.payload) := by
    rw [hchain,payloads_append,payloads_cons,payloads_singleton]
  have hlen : (payloads (msdu::rest)).length =
      (payloads l).length+(prev0.payload.length+prev.payload.length) := by
    rw [hpay,List.length_append,List.length_append]
  have hcode : ∀ init x y,lens (msdu::rest) = init++[x,y] →
      x = prev0.payload.length ∧ y = prev.payload.length := by
    intro init x y heq
    rw [hchain,lens_append] at heq
    have hlast := List.append_inj_right' heq rfl
    have hxy := List.cons.inj hlast
    exact ⟨hxy.1.symm,(List.singleton_injective hxy.2).symm⟩
  have hsum : ((msdu::rest).map fun nbuf => nbuf.payload.length).sum =
      (payloads (msdu::rest)).length := (length_payloads _).symm
  by_cases hin : prev0.payload.length < len0
  · have hdemic : tkipDemic key (msdu::rest) hdrlen = .outside := by
      rw [tkipDemic,hchain,List.reverse_append]
      simp only [List.reverse_cons,List.reverse_nil,List.nil_append,List.cons_append,hshort,
        if_true,← hlen0,hin]
    refine iff_of_false (fun h => h.inside hdemic) fun h => ?_
    have hh := h.code (lens l) prev0.payload.length prev.payload.length (by
      rw [hchain,lens_append]
      rfl)
    omega
  · have hcopied : micLen-len0 = prev.payload.length := by omega
    set prev0' := prev0.trimTail len0 with hprev0
    set prev' := prev.trimTail (micLen-len0) with hprev
    have hlen0' : prev0'.payload.length = prev0.payload.length-len0 := length_trimTail prev0 len0
    have hempty : prev'.payload = [] := by
      apply List.length_eq_zero_iff.mp
      rw [hprev,length_trimTail]
      omega
    have hdemic : tkipDemic key (msdu::rest) hdrlen =
        compareMic key hdrlen ((payloads (msdu::rest)).length%2^32)
          (prev0.tail len0++prev.tail (micLen-len0)) (l++[prev0']) prev' := by
      rw [tkipDemic,hsum,hchain,List.reverse_append]
      simp only [List.reverse_cons,List.reverse_nil,List.nil_append,List.cons_append,hshort,
        if_true,← hlen0,hin,if_false,List.reverse_reverse,← hprev0,← hprev]
    have hsub : (payloads (msdu::rest)).length-micLen =
        (payloads l).length+(prev0.payload.length-len0) := by omega
    have hbody : payloads (l++[prev0']++[prev']) =
        (payloads (msdu::rest)).take ((payloads (msdu::rest)).length-micLen) := by
      rw [hsub,hpay,List.take_length_add_append,List.take_append_of_le_length (Nat.sub_le _ _),
        payloads_append,payloads_append,payloads_singleton,payloads_singleton,hempty,
        List.append_nil]
      rfl
    have hmic : prev0.tail len0++prev.tail (micLen-len0) =
        (payloads (msdu::rest)).drop ((payloads (msdu::rest)).length-micLen) := by
      rw [hsub,hpay,List.drop_length_add_append,List.drop_append_of_le_length (Nat.sub_le _ _),
        Nbuf.tail,Nbuf.tail,hcopied,Nat.sub_self,List.drop_zero]
    have hframe : ((l++[prev0']++[prev']).head?.map (·.frame)) = some msdu.frame := by
      cases l with
      | nil => rw [(List.cons.inj hchain).1]; rfl
      | cons a l => rw [(List.cons.inj hchain).1]; rfl
    have hblen : (payloads (l++[prev0']++[prev'])).length =
        (payloads (msdu::rest)).length-micLen := by
      rw [hbody,List.length_take]
      omega
    rw [exact_of_compare key hoff hdemic hframe
      ((pktlen_sub htotal (by omega)).trans hblen.symm) (by omega) hbody hmic,hblen]
    -- the ends of the last two fragments are behind the message
    have hends : Undivided ((payloads (msdu::rest)).length-micLen)
        (ends (lens (l++[prev0']++[prev']))) ↔
        Undivided ((lens (msdu::rest)).sum-micLen) (ends (lens (msdu::rest))) := by
      have hne : ∀ a,lens l++[a] ≠ [] := fun a =>
        List.append_ne_nil_of_right_ne_nil _ (List.cons_ne_nil _ _)
      have hnew : lens (l++[prev0']++[prev']) =
          (lens l++[prev0'.payload.length])++[prev'.payload.length] := by
        rw [lens_append,lens_append]
        rfl
      have hold : lens (msdu::rest) =
          (lens l++[prev0.payload.length])++[prev.payload.length] := by
        rw [hchain,lens_append,List.append_assoc]
        rfl
      have hsumnew : (lens l++[prev0'.payload.length]).sum =
          (payloads l).length+prev0'.payload.length := by
        rw [List.sum_append,List.sum_singleton,length_payloads]
      have hsumold : (lens l++[prev0.payload.length]).sum =
          (payloads l).length+prev0.payload.length := by
        rw [List.sum_append,List.sum_singleton,length_payloads]
      rw [← length_payloads,hnew,hold,ends_concat (hne _),ends_concat (hne _),hsumnew,hsumold,
        undivided_concat (by omega),undivided_concat (by omega),
        ends_last _ _ prev0.payload.length]
    rw [hends]
    refine ⟨fun h => ⟨fun init x y heq => ?_,h⟩,fun h => h.words⟩
    obtain ⟨rfl,rfl⟩ := hcode init x y heq
    omega

end Chain

/-- The check of a chain is that of the whole payload exactly when the code lies in the last two
fragments and no word of the message before it, nor what is behind its last word, is divided
in a way that the loop over the buffers does not follow. -/
theorem tkipDemic_exact_iff (key : Fin 8 → Byte) (msdu : Nbuf) (rest : List Nbuf) (hdrlen : ℕ)
    (hhdr : sizeofFrame ≤ hdrlen) (htotal : (payloads (msdu::rest)).length < 2^16) :
    Exact key msdu rest hdrlen ↔ Readable (lens (msdu::rest)) := by
  have hoff : 4 ≤ hdrlen := (show 4 ≤ sizeofFrame by decide).trans hhdr
  rcases List.eq_nil_or_concat (msdu::rest) with hnil | ⟨l,prev,hchain⟩
  · exact absurd hnil (List.cons_ne_nil _ _)
  · rw [List.concat_eq_append] at hchain
    by_cases hlong : micLen ≤ prev.payload.length
    · exact exact_iff_of_long key hoff hchain htotal hlong
    · have hshort := Nat.lt_of_not_le hlong
      rcases List.eq_nil_or_concat l with rfl | ⟨l',prev0,rfl⟩
      · obtain ⟨rfl,rfl⟩ := List.cons.inj hchain
        exact exact_iff_of_single key hshort
      · rw [List.concat_eq_append,List.append_assoc] at hchain
        exact exact_iff_of_split key hoff hchain htotal hshort

/-- A fragment of zeros. -/
def zeros (n : ℕ) : Nbuf := ⟨fun _ => 0,List.replicate n 0⟩

theorem tkipDemic_exact_whole : sizeofFrame ≤ 152 ∧
    (payloads [zeros 8,zeros 0,zeros 11]).length < 2^16 ∧
    (Exact (fun _ => 0) (zeros 8) [zeros 0,zeros 11] 152 ↔
      Readable (lens [zeros 8,zeros 0,zeros 11])) :=
  ⟨by decide,by decide,tkipDemic_exact_iff (fun _ => 0) (zeros 8) [zeros 0,zeros 11] 152
    (by decide) (by decide)⟩

/-- Of the seven bytes before the code, two are in the second fragment; the loop looks for them
behind the payload of the first. -/
theorem tkipDemic_outside : ¬ ∀ (key : Fin 8 → Byte) (msdu : Nbuf) (rest : List Nbuf)
    (hdrlen : ℕ),sizeofFrame ≤ hdrlen → (payloads (msdu::rest)).length < 2^16 →
    Exact key msdu rest hdrlen := by
  intro h
  have hexact := h (fun _ => 0) (zeros 5) [zeros 10] 152 (by decide) (by decide)
  have hread := (exact_iff_of_long (fun _ => 0) (show 4 ≤ 152 by decide)
    (show [zeros 5,zeros 10] = [zeros 5]++[zeros 10] from rfl) (by decide) (by decide)).mp hexact
  have htail := hread.words.tail 5 (by decide)
  revert htail
  decide

end TkipMic
end MarbleModules
