import Mathlib.Data.List.Chain
import Mathlib.Tactic.Linarith
import MarbleModules.RxDefragList

/-! What `dp_rx_defrag` does to a chain: every buffer is still in it or has been freed, and where the
packet numbers are looked at, they follow one another. -/
namespace MarbleModules
namespace RxDefrag

/-- The packet numbers follow one another. -/
def Consecutive (l : List Frag) : Prop := l.IsChain fun a b => b.pn.val = a.pn.val+1

/-- A fragment without its length, which is all that the driver changes. -/
def strip (f : Frag) : Frag := {f with len := 0}

section Strip

@[simp] theorem strip_trimTail (n : UInt32) (f : Frag) : strip (trimTail n f) = strip f := by
  unfold trimTail
  split <;> rfl

theorem bufs_map_strip (l : List Frag) : bufs (l.map strip) = bufs l := by
  simp [bufs,strip]

theorem bufs_eq {l l' : List Frag} (h : l.map strip = l'.map strip) : bufs l = bufs l' := by
  rw [← bufs_map_strip,h,bufs_map_strip]

theorem consecutive_map_strip (l : List Frag) : Consecutive (l.map strip) ↔ Consecutive l :=
  List.isChain_map strip

theorem consecutive_eq {l l' : List Frag} (h : l.map strip = l'.map strip) :
    Consecutive l ↔ Consecutive l' := by
  rw [← consecutive_map_strip,h,consecutive_map_strip]

theorem map_strip_trimTail (n : UInt32) (l : List Frag) :
    (l.map (trimTail n)).map strip = l.map strip := by
  simp [Function.comp_def]

theorem map_strip_decapLoop (trailer : UInt32) (hdrlen : UInt16) (l : List Frag) :
    (decapLoop trailer hdrlen l).2.map strip = l.map strip := by
  induction l with
  | nil => rfl
  | cons f l ih =>
    rw [decapLoop]
    split
    · simp [ih]
    · rfl

theorem map_strip_decap (sec : SecType) (hdrSize : UInt16) (l : List Frag) :
    (decap sec hdrSize l).2.1.map strip = l.map strip := by
  cases sec <;> first
    | rfl
    | exact map_strip_decapLoop _ _ l
    | exact map_strip_trimTail _ l

end Strip

section Demic
variable {micEqual : Bool} {hdrlen : UInt16} {l : List Frag}

theorem map_strip_trimLast (n : UInt32) (l : List Frag) :
    (trimLast n l).map strip = l.map strip := by
  unfold trimLast
  cases hl : l.getLast? with
  | none => rw [List.getLast?_eq_none_iff.mp hl]
  | some t =>
    obtain ⟨l',rfl⟩ := List.getLast?_eq_some_iff.mp hl
    simp

@[simp] theorem buf_trimTail (n : UInt32) (f : Frag) : (trimTail n f).buf = f.buf := by
  unfold trimTail
  split <;> rfl

theorem bufs_append (l l' : List Frag) : bufs (l++l') = bufs l++bufs l' := List.map_append

/-- The MIC is taken off, and at most the last buffer is freed. -/
theorem bufs_tkipDemic (micEqual : Bool) (hdrlen : UInt16) (l : List Frag) :
    bufs (tkipDemic micEqual hdrlen l).list++(tkipDemic micEqual hdrlen l).freed = bufs l := by
  unfold tkipDemic
  cases hl : l.getLast? with
  | none => exact List.append_nil _
  | some t =>
    obtain ⟨l',rfl⟩ := List.getLast?_eq_some_iff.mp hl
    have hfront := fun n => bufs_eq (map_strip_trimLast n l')
    simp only [List.dropLast_concat]
    by_cases hone : t.len-hdrlen.toUInt32 < TKIP_MICLEN ∧ (l'++[t]).length = 1
    · rw [if_pos hone]
      exact List.append_nil _
    · rw [if_neg hone]
      generalize (if t.len-hdrlen.toUInt32 < TKIP_MICLEN then
        TKIP_MICLEN-(t.len-hdrlen.toUInt32) else 0) = len0
      split
      · simp only [bufs_append,hfront,buf_trimTail]
        rfl
      · simp only [bufs_append,hfront,List.append_nil]
        simp [bufs]

/-- A last fragment with more data than a MIC stays. -/
theorem tkipDemic_keep {t : Frag} (ht : l.getLast? = some t)
    (hlen : TKIP_MICLEN < t.len-hdrlen.toUInt32) :
    (tkipDemic micEqual hdrlen l).list.map strip = l.map strip := by
  obtain ⟨l',rfl⟩ := List.getLast?_eq_some_iff.mp ht
  have hnot : ¬t.len-hdrlen.toUInt32 < TKIP_MICLEN := by
    intro hh
    exact absurd (UInt32.lt_trans hlen hh) (UInt32.lt_irrefl _)
  have hdata : (trimTail (TKIP_MICLEN-0) t).len-hdrlen.toUInt32 ≠ 0 := by
    unfold trimTail TKIP_MICLEN at *
    intro hh
    split at hh
    · have hd : t.len-hdrlen.toUInt32 = 8 := by grind
      rw [hd] at hlen
      exact absurd hlen (by decide)
    · rw [hh] at hlen
      exact absurd hlen (by decide)
  unfold tkipDemic
  rw [ht]
  simp only [hnot,false_and,if_false]
  rw [if_neg fun hh => hdata hh.1]
  simp only [List.map_append]
  rw [map_strip_trimLast]
  simp

end Demic

section PacketNumbers

/-- A fragment passes the check when its packet number is the next one. -/
theorem pnCheck_iff (f g : Frag) :
    pnCheck g.pn128 f.pn128 = false ↔ g.pn.val = f.pn.val+1 := by
  have hf := f.pn.isLt
  have hg := g.pn.isLt
  have hnf : (UInt64.ofNat f.pn.val).toNat = f.pn.val := by
    rw [UInt64.toNat_ofNat']
    omega
  have hng : (UInt64.ofNat g.pn.val).toNat = g.pn.val := by
    rw [UInt64.toNat_ofNat']
    omega
  unfold pnCheck Frag.pn128
  rw [if_pos rfl,decide_eq_false_iff_not,not_not,← UInt64.toNat_inj,UInt64.toNat_sub]
  show (2^64-(UInt64.ofNat f.pn.val).toNat+(UInt64.ofNat g.pn.val).toNat) % 2^64 = 1 ↔ _
  rw [hnf,hng]
  omega

theorem constructLoop_consecutive {h : Frag} {l : List Frag}
    (hok : constructLoop true h.pn128 l = true) : Consecutive (h::l) := by
  induction l generalizing h with
  | nil => exact List.isChain_singleton h
  | cons f l ih =>
    simp only [constructLoop,if_true,Bool.true_and] at hok
    split at hok
    · cases hok
    · rename_i hpn
      split at hok
      · cases hok
      · exact List.isChain_cons_cons.mpr ⟨(pnCheck_iff h f).mp (by simpa using hpn),ih hok⟩

/-- A reassembly never takes a group-addressed fragment behind the head. -/
theorem constructLoop_mcast {needs : Bool} {prev : UInt64 × UInt64} {f : Frag} {l : List Frag}
    (hok : constructLoop needs prev (f::l) = true) : f.mcast = false := by
  rw [constructLoop] at hok
  generalize (if needs then f.pn128 else (0,0)) = cur at hok
  split at hok
  · cases hok
  · split at hok
    · cases hok
    · simpa using ‹¬f.mcast = true›

end PacketNumbers

section Defrag
variable {cfg : Config} {micEqual : Bool}

theorem bufs_defrag (cfg : Config) (micEqual : Bool) (l : List Frag) :
    bufs (defrag cfg micEqual l).list++(defrag cfg micEqual l).freed = bufs l := by
  cases l with
  | nil => rfl
  | cons h l =>
    have hdec : bufs (decap (cfg.sec h.mcast) h.hdrSize ((h::l).map (trimTail FCS_LEN))).2.1
        = bufs (h::l) :=
      bufs_eq ((map_strip_decap _ _ _).trans (map_strip_trimTail _ _))
    rw [← hdec]
    simp only [defrag]
    split_ifs
    · exact List.append_nil _
    · exact bufs_tkipDemic _ _ _
    · exact bufs_tkipDemic _ _ _
    · exact List.append_nil _
    · exact List.append_nil _

/-- The data of the last fragment before the MIC is taken off, the header being that of the
head. -/
def dataLen (cfg : Config) (h t : Frag) : UInt32 :=
  (trimTail TKIP_TRAILER (trimTail FCS_LEN t)).len-
    (cfg.tlvSize+(h.hdrSize+TKIP_HEADER)).toUInt32

/-- All packet numbers are looked at: the security by which they are is that of the head, and no last
fragment has only a MIC. -/
structure PnCovered (cfg : Config) (l : List Frag) : Prop where
  unicast : ∀ h,l.head? = some h → h.mcast → (cfg.sec true).needsPnCheck →
    (cfg.sec false).needsPnCheck
  data : ∀ h t,l.head? = some h → l.getLast? = some t → cfg.sec h.mcast = .tkip →
    TKIP_MICLEN < dataLen cfg h t

theorem getLast?_decapLoop {trailer : UInt32} {hdrlen : UInt16} {l : List Frag} {t : Frag}
    (hok : (decapLoop trailer hdrlen l).1 = true) (ht : l.getLast? = some t) :
    (decapLoop trailer hdrlen l).2.getLast? = some (trimTail trailer t) := by
  have hmap : (decapLoop trailer hdrlen l).2 = l.map (trimTail trailer) := by
    clear ht
    induction l with
    | nil => rfl
    | cons f l ih =>
      rw [decapLoop] at hok ⊢
      split at hok
      · rename_i hext
        rw [if_pos hext,List.map_cons,← ih hok]
      · cases hok
  rw [hmap,List.getLast?_map,ht]
  rfl

/-- The chain that comes to the check of the packet numbers is the whole list. -/
theorem defrag_spec {l : List Frag} (hcov : PnCovered cfg l)
    (hok : (defrag cfg micEqual l).ok = true) :
    ∃ l',l'.map strip = l.map strip ∧ construct cfg l' = true := by
  cases l with
  | nil => cases hok
  | cons h l =>
    have hstrip := (map_strip_decap (cfg.sec h.mcast) h.hdrSize
      ((h::l).map (trimTail FCS_LEN))).trans (map_strip_trimTail FCS_LEN (h::l))
    have hdecap : (decap (cfg.sec h.mcast) h.hdrSize ((h::l).map (trimTail FCS_LEN))).1 = true := by
      by_contra hdec
      rw [Bool.not_eq_true] at hdec
      simp only [defrag,if_pos hdec] at hok
      cases hok
    simp only [defrag,hdecap,Bool.true_eq_false,if_false] at hok
    by_cases htkip : cfg.sec h.mcast = .tkip
    · simp only [if_pos htkip] at hok
      split at hok
      · rename_i hmic
        rw [hmic] at hok
        cases hok
      · obtain ⟨t,ht⟩ : ∃ t,(h::l).getLast? = some t :=
          ⟨_,List.getLast?_eq_some_getLast (List.cons_ne_nil h l)⟩
        have hdata := hcov.data h t rfl ht htkip
        have hlast : (decap (cfg.sec h.mcast) h.hdrSize
            ((h::l).map (trimTail FCS_LEN))).2.1.getLast?
            = some (trimTail TKIP_TRAILER (trimTail FCS_LEN t)) := by
          rw [htkip] at hdecap ⊢
          refine getLast?_decapLoop hdecap ?_
          rw [List.getLast?_map,ht]
          rfl
        have hhdr : (decap (cfg.sec h.mcast) h.hdrSize ((h::l).map (trimTail FCS_LEN))).2.2
            = h.hdrSize+TKIP_HEADER := by
          rw [htkip]
          rfl
        rw [hhdr] at hok
        exact ⟨_,(tkipDemic_keep hlast hdata).trans hstrip,hok⟩
    · simp only [if_neg htkip,Bool.true_eq_false,if_false] at hok
      exact ⟨_,hstrip,hok⟩

/-- What `dp_rx_defrag` accepts has consecutive packet numbers. -/
theorem defrag_consecutive {h f : Frag} {l : List Frag} (hcov : PnCovered cfg (h::f::l))
    (hok : (defrag cfg micEqual (h::f::l)).ok = true) (hsec : (cfg.sec h.mcast).needsPnCheck) :
    Consecutive (h::f::l) := by
  obtain ⟨l',hstrip,hcons⟩ := defrag_spec hcov hok
  rw [← consecutive_eq hstrip]
  have hlen := congrArg List.length hstrip
  simp only [List.length_map,List.length_cons] at hlen
  match l' with
  | [] => cases hlen
  | [_] => cases hlen
  | h'::f'::fs =>
    rw [construct] at hcons
    have hf := constructLoop_mcast hcons
    have hneeds : (cfg.sec f'.mcast).needsPnCheck = true := by
      rw [hf]
      cases hm : h.mcast with
      | false => rwa [hm] at hsec
      | true =>
        rw [hm] at hsec
        exact hcov.unicast h rfl hm hsec
    rw [hneeds] at hcons
    exact constructLoop_consecutive hcons

end Defrag

end RxDefrag
end MarbleModules
