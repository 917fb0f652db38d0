import MarbleModules.RingWindow

/-! A loop that visits the slots of a ring one after another until it meets a given slot. -/
namespace MarbleModules
namespace RingScan

open RingWindow (dist_lt)

variable {σ : Type*} {n : ℕ}

/-- `k` slots one after another, from slot `i` on. -/
def slots (n i k : ℕ) : List ℕ := (List.range k).map fun j => (i+j)%n

/-- The slots from `s` up to but without `e`, the whole ring when the two are one. -/
def arc (n s e : ℕ) : List ℕ := slots n s (if s = e then n else RingWindow.dist n s e)

theorem slots_succ {i : ℕ} (hi : i < n) (k : ℕ) :
    slots n i (k+1) = i::slots n ((i+1)%n) k := by
  rw [slots,List.range_succ_eq_map,List.map_cons,List.map_map,Nat.add_zero,Nat.mod_eq_of_lt hi]
  refine congrArg (i::·) (List.map_congr_left fun j _ => ?_)
  have hh : i+(j+1) = i+1+j := by omega
  simp only [Function.comp,hh,Nat.mod_add_mod]

theorem nodup_slots {i k : ℕ} (hk : k ≤ n) : (slots n i k).Nodup := by
  refine List.Nodup.map_on (fun a ha b hb hab => ?_) List.nodup_range
  rw [List.mem_range] at ha hb
  rcases Nat.le_total a b with h | h
  · have hh := RingWindow.slot_inj (show i+a ≤ i+b by omega) (by omega) hab
    omega
  · have hh := RingWindow.slot_inj (show i+b ≤ i+a by omega) (by omega) hab.symm
    omega

theorem lt_of_mem_slots {i k j : ℕ} (hn : 0 < n) (h : j ∈ slots n i k) : j < n := by
  obtain ⟨a,-,rfl⟩ := List.mem_map.mp h
  exact Nat.mod_lt _ hn

theorem mem_slots_of_lt {i j : ℕ} (hi : i < n) (hj : j < n) : j ∈ slots n i n := by
  refine List.mem_map.mpr ⟨RingWindow.dist n i j,List.mem_range.mpr (dist_lt (by omega) i j),?_⟩
  rw [RingWindow.dist,Nat.add_mod_mod,show i+(j+(n-i)) = j+n by omega,Nat.add_mod_right,
    Nat.mod_eq_of_lt hj]

theorem arc_length_le {s e : ℕ} (hs : s < n) : (if s = e then n else RingWindow.dist n s e) ≤ n := by
  split
  · exact le_rfl
  · exact (dist_lt (by omega) s e).le

theorem nodup_arc {s e : ℕ} (hs : s < n) : (arc n s e).Nodup :=
  nodup_slots (arc_length_le hs)

theorem lt_of_mem_arc {s e j : ℕ} (hs : s < n) (h : j ∈ arc n s e) : j < n :=
  lt_of_mem_slots (by omega) h

/-- A whole turn visits every slot. -/
theorem mem_arc_self {s j : ℕ} (hs : s < n) (hj : j < n) : j ∈ arc n s s := by
  rw [arc,if_pos rfl]
  exact mem_slots_of_lt hs hj

theorem slots_add (i k m : ℕ) :
    slots n i (k+m) = slots n i k++(List.range m).map fun j => (i+(k+j))%n := by
  rw [slots,List.range_add,List.map_append,List.map_map]
  rfl

/-- A whole turn begins with the arc. -/
theorem arc_self_eq {s : ℕ} (hs : s < n) (e : ℕ) : ∃ rest,arc n s s = arc n s e++rest := by
  obtain ⟨m,hm⟩ := Nat.exists_eq_add_of_le (arc_length_le (e := e) hs)
  have hturn := (congrArg (slots n s) hm).trans (slots_add s _ m)
  rw [arc,if_pos rfl]
  exact ⟨_,hturn⟩

/-- The loop: the body runs on each slot until the stop slot comes up, when the fuel is
enough. -/
def scan (n : ℕ) (body : σ → ℕ → σ) (stop : ℕ) : ℕ → ℕ → σ → Option σ
  | 0, i, s => if i = stop then some s else none
  | fuel+1, i, s => if i = stop then some s else scan n body stop fuel ((i+1)%n) (body s i)

theorem scan_eq {body : σ → ℕ → σ} {stop fuel k i : ℕ} {s : σ} (hi : i < n)
    (hstop : (i+k)%n = stop) (hne : ∀ j < k,(i+j)%n ≠ stop) (hk : k ≤ fuel) :
    scan n body stop fuel i s = some ((slots n i k).foldl body s) := by
  induction k generalizing i s fuel with
  | zero =>
    rw [Nat.add_zero,Nat.mod_eq_of_lt hi] at hstop
    cases fuel <;> simp [scan,hstop,slots]
  | succ k ih =>
    have h0 := hne 0 (by omega)
    rw [Nat.add_zero,Nat.mod_eq_of_lt hi] at h0
    cases fuel with
    | zero => omega
    | succ fuel =>
      have hstep : ∀ j,((i+1)%n+j)%n = (i+(j+1))%n := fun j => by
        rw [Nat.mod_add_mod,show i+1+j = i+(j+1) by omega]
      rw [scan,if_neg h0,ih (Nat.mod_lt _ (by omega)) ((hstep k).trans hstop)
        (fun j hj => by rw [hstep]; exact hne (j+1) (by omega)) (by omega),slots_succ hi]
      rfl

theorem arc_eq_cons {s e : ℕ} (hs : s < n) (he : e < n) :
    ∃ k < n,arc n s e = s::slots n ((s+1)%n) k ∧ (s+(k+1))%n = e ∧
      ∀ j < k,(s+(j+1))%n ≠ e := by
  by_cases hse : s = e
  · subst hse
    refine ⟨n-1,by omega,?_,?_,fun j hj => ?_⟩
    · rw [arc,if_pos rfl,← slots_succ hs,show n-1+1 = n by omega]
    · rw [show s+(n-1+1) = s+n by omega,Nat.add_mod_right,Nat.mod_eq_of_lt hs]
    · have hh := (RingWindow.slot_ne (n := n) (show s < s+(j+1) by omega) (by omega)).symm
      rwa [Nat.mod_eq_of_lt hs] at hh
  · have hend : (s+RingWindow.dist n s e)%n = e := by
      rw [RingWindow.dist,Nat.add_mod_mod,show s+(e+(n-s)) = e+n by omega,Nat.add_mod_right,
        Nat.mod_eq_of_lt he]
    have hlt := dist_lt (show 0 < n by omega) s e
    have hpos : RingWindow.dist n s e ≠ 0 := fun h0 => hse (by
      rwa [h0,Nat.add_zero,Nat.mod_eq_of_lt hs] at hend)
    have hk : RingWindow.dist n s e-1+1 = RingWindow.dist n s e := by omega
    refine ⟨RingWindow.dist n s e-1,by omega,?_,?_,fun j hj => ?_⟩
    · rw [arc,if_neg hse,← slots_succ hs,hk]
    · rwa [hk]
    · have hh := RingWindow.slot_ne (n := n)
        (show s+(j+1) < s+RingWindow.dist n s e by omega) (by omega)
      rwa [hend] at hh

/-- A loop that starts at the second slot of an arc visits all of it but the first. -/
theorem scan_arc_tail (body : σ → ℕ → σ) {s e : ℕ} (hs : s < n) (he : e < n) (st : σ) :
    scan n body e n ((s+1)%n) st = some ((arc n s e).tail.foldl body st) := by
  obtain ⟨k,hk,harc,hend,hne⟩ := arc_eq_cons hs he
  have hstep : ∀ j,((s+1)%n+j)%n = (s+(j+1))%n := fun j => by
    rw [Nat.mod_add_mod,show s+1+j = s+(j+1) by omega]
  rw [harc,List.tail_cons]
  exact scan_eq (Nat.mod_lt _ (by omega)) ((hstep k).trans hend)
    (fun j hj => by rw [hstep]; exact hne j hj) hk.le

/-- A loop whose body runs before the first comparison visits the arc. -/
theorem scan_arc (body : σ → ℕ → σ) {s e : ℕ} (hs : s < n) (he : e < n) (st : σ) :
    scan n body e n ((s+1)%n) (body st s) = some ((arc n s e).foldl body st) := by
  rw [scan_arc_tail body hs he]
  obtain ⟨k,-,harc,-⟩ := arc_eq_cons hs he
  rw [harc]
  rfl

end RingScan
end MarbleModules
