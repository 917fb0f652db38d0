import Mathlib.Logic.Function.Basic
import Mathlib.Data.List.Basic
import Mathlib.Tactic.Linarith

/-! Records written through two cursors of one buffer, and read back the same way: single bytes go
to the first cursor, byte strings to the second. -/
namespace MarbleModules
namespace TwoCursors

abbrev Mem := ℕ → UInt8

/-- The bytes at `a` are `bs`. -/
def Holds (mem : Mem) (a : ℕ) (bs : List UInt8) : Prop :=
  ∀ i (hi : i < bs.length),mem (a+i) = bs.get ⟨i,hi⟩

/-- `*dest++ = b` for each byte. -/
def write (mem : Mem) (a : ℕ) : List UInt8 → Mem
  | [] => mem
  | b::bs => write (Function.update mem a b) (a+1) bs

/-- The `n` bytes at `a`. -/
def read (mem : Mem) (a n : ℕ) : List UInt8 := (List.range n).map fun i => mem (a+i)

@[simp] theorem length_read (mem : Mem) (a n : ℕ) : (read mem a n).length = n := by
  simp [read]

theorem write_of_lt {mem : Mem} {a x : ℕ} (bs : List UInt8) (h : x < a) :
    write mem a bs x = mem x := by
  induction bs generalizing mem a with
  | nil => rfl
  | cons b bs ih => rw [write,ih (by omega),Function.update_of_ne (by omega)]

theorem write_of_le {mem : Mem} {a x : ℕ} (bs : List UInt8) (h : a+bs.length ≤ x) :
    write mem a bs x = mem x := by
  induction bs generalizing mem a with
  | nil => rfl
  | cons b bs ih =>
    rw [List.length_cons] at h
    rw [write,ih (by omega),Function.update_of_ne (by omega)]

theorem holds_write (mem : Mem) (a : ℕ) (bs : List UInt8) : Holds (write mem a bs) a bs := by
  induction bs generalizing mem a with
  | nil => exact fun i hi => absurd hi (Nat.not_lt_zero i)
  | cons b bs ih =>
    intro i hi
    cases i with
    | zero => rw [write,write_of_lt _ (by omega)]; exact Function.update_self ..
    | succ i =>
      have hh := ih (Function.update mem a b) (a+1) i (Nat.lt_of_succ_lt_succ hi)
      rw [write,show a+(i+1) = a+1+i by omega,hh]
      rfl

theorem Holds.congr {mem mem' : Mem} {a : ℕ} {bs : List UInt8} (h : Holds mem a bs)
    (he : ∀ x,a ≤ x → x < a+bs.length → mem' x = mem x) : Holds mem' a bs := by
  intro i hi
  rw [he (a+i) (by omega) (by omega)]
  exact h i hi

theorem holds_nil (mem : Mem) (a : ℕ) : Holds mem a [] := fun i hi => absurd hi (Nat.not_lt_zero i)

theorem holds_append {mem : Mem} {a : ℕ} {bs cs : List UInt8} :
    Holds mem a (bs++cs) ↔ Holds mem a bs ∧ Holds mem (a+bs.length) cs := by
  constructor
  · intro h
    refine ⟨fun i hi => ?_,fun i hi => ?_⟩
    · have hh := h i (by rw [List.length_append]; omega)
      rw [hh]
      exact List.getElem_append_left hi
    · have hh := h (bs.length+i) (by rw [List.length_append]; omega)
      rw [Nat.add_assoc,hh,List.get_eq_getElem,List.get_eq_getElem,
        List.getElem_append_right (by simp)]
      simp
  · rintro ⟨h1,h2⟩ i hi
    by_cases hb : i < bs.length
    · rw [h1 i hb]
      exact (List.getElem_append_left hb).symm
    · have hc : i-bs.length < cs.length := by rw [List.length_append] at hi; omega
      have hh := h2 (i-bs.length) hc
      rw [show a+bs.length+(i-bs.length) = a+i by omega] at hh
      rw [hh]
      exact (List.getElem_append_right (by omega)).symm

theorem Holds.read {mem : Mem} {a : ℕ} {bs : List UInt8} (h : Holds mem a bs) :
    TwoCursors.read mem a bs.length = bs := by
  refine List.ext_getElem (by simp) fun i h1 h2 => ?_
  simp only [TwoCursors.read,List.getElem_map,List.getElem_range]
  exact h i h2

/-- One write through one of the cursors. -/
inductive Put
  | extra (b : UInt8)
  | rest (bs : List UInt8)

/-- The memory and the two cursors, of which the first may be missing. -/
structure Writer where
  mem : Mem
  extra : Option ℕ
  rest : ℕ

def Put.run (s : Writer) : Put → Writer
  | .extra b =>
    match s.extra with
    | none => s
    | some a => {s with mem := Function.update s.mem a b,extra := some (a+1)}
  | .rest bs => {s with mem := write s.mem s.rest bs,rest := s.rest+bs.length}

/-- The bytes that go to the first cursor. -/
def extras : List Put → List UInt8
  | [] => []
  | .extra b::ps => b::extras ps
  | .rest _::ps => extras ps

/-- The bytes that go to the second cursor. -/
def rests : List Put → List UInt8
  | [] => []
  | .extra _::ps => rests ps
  | .rest bs::ps => bs++rests ps

theorem extras_append (ps qs : List Put) : extras (ps++qs) = extras ps++extras qs := by
  induction ps with
  | nil => rfl
  | cons p ps ih => cases p <;> simp [extras,ih]

theorem rests_append (ps qs : List Put) : rests (ps++qs) = rests ps++rests qs := by
  induction ps with
  | nil => rfl
  | cons p ps ih => cases p <;> simp [rests,ih,List.append_assoc]

/-- What the writes leave behind when the first cursor stays below the second. -/
structure Wrote (ps : List Put) (s s' : Writer) : Prop where
  rest : s'.rest = s.rest+(rests ps).length
  holdsRest : Holds s'.mem s.rest (rests ps)
  extra : ∀ a,s.extra = some a →
    s'.extra = some (a+(extras ps).length) ∧ Holds s'.mem a (extras ps)
  none : s.extra = none → s'.extra = none
  same : ∀ x,(∀ a,s.extra = some a → x < a ∨ a+(extras ps).length ≤ x) →
    x < s.rest ∨ s.rest+(rests ps).length ≤ x → s'.mem x = s.mem x

theorem wrote_foldl {ps : List Put} {s : Writer}
    (h : ∀ a,s.extra = some a → a+(extras ps).length ≤ s.rest) :
    Wrote ps s (ps.foldl Put.run s) := by
  induction ps generalizing s with
  | nil =>
    exact ⟨rfl,holds_nil _ _,fun a ha => ⟨ha,holds_nil _ _⟩,id,fun _ _ _ => rfl⟩
  | cons p ps ih =>
    rw [List.foldl_cons]
    cases p with
    | rest bs =>
      have hw : Wrote ps (Put.run s (.rest bs)) (ps.foldl Put.run (Put.run s (.rest bs))) := by
        refine ih fun a ha => ?_
        have hle := h a ha
        simp only [extras] at hle
        show a+_ ≤ s.rest+bs.length
        omega
      have hrest := hw.rest
      refine ⟨?_,?_,fun a ha => ?_,hw.none,fun x hx hr => ?_⟩
      · rw [hw.rest]
        simp only [Put.run,rests,List.length_append]
        omega
      · simp only [rests]
        rw [holds_append]
        refine ⟨(holds_write s.mem s.rest bs).congr fun x h1 h2 => ?_,hw.holdsRest⟩
        refine hw.same x (fun a ha => Or.inr ?_) (Or.inl h2)
        have hle := h a ha
        simp only [extras] at hle
        omega
      · exact hw.extra a ha
      · simp only [rests,List.length_append] at hr
        rw [hw.same x hx (by simp only [Put.run]; omega)]
        rcases hr with hr | hr
        · exact write_of_lt bs hr
        · exact write_of_le bs (by omega)
    | extra b =>
      cases he : s.extra with
      | none =>
        have hrun : Put.run s (.extra b) = s := by simp [Put.run,he]
        rw [hrun]
        have hw := ih (s := s) fun a ha => by rw [he] at ha; cases ha
        refine ⟨hw.rest,hw.holdsRest,(fun a ha => by rw [he] at ha; cases ha),hw.none,?_⟩
        exact fun x _ hr => hw.same x (fun a ha => by rw [he] at ha; cases ha) hr
      | some a =>
        have hrun : Put.run s (.extra b)
            = {s with mem := Function.update s.mem a b,extra := some (a+1)} := by
          simp [Put.run,he]
        have hle := h a he
        simp only [extras,List.length_cons] at hle
        rw [hrun]
        have hw := ih (s := {s with mem := Function.update s.mem a b,extra := some (a+1)})
          fun c hc => by cases hc; show a+1+_ ≤ s.rest; omega
        obtain ⟨hex,hhold⟩ := hw.extra (a+1) rfl
        refine ⟨hw.rest,hw.holdsRest,fun c hc => ?_,fun hn => ?_,fun x hx hr => ?_⟩
        · obtain rfl : a = c := by simpa [he] using hc
          refine ⟨?_,fun i hi => ?_⟩
          · rw [hex]
            simp only [extras,List.length_cons]
            congr 1
            omega
          · cases i with
            | zero =>
              have hsame := hw.same a (fun c hc => by cases hc; exact Or.inl (by omega))
                (Or.inl (show a < s.rest by omega))
              exact hsame.trans (Function.update_self ..)
            | succ i =>
              have hi' : i < (extras ps).length := Nat.lt_of_succ_lt_succ hi
              rw [show a+(i+1) = a+1+i by omega,hhold i hi']
              rfl
        · rw [he] at hn
          cases hn
        · have hxa := hx a he
          simp only [extras,List.length_cons] at hxa
          rw [hw.same x (fun c hc => by cases hc; omega) hr]
          exact Function.update_of_ne (by omega) ..

/-- The two cursors of a reader. -/
structure Cursor where
  extra : ℕ
  rest : ℕ

/-- A reader takes bytes at the cursors and moves them on. -/
def Get (α : Type) := Mem → Cursor → α × Cursor

variable {α β : Type}

def Get.pure (a : α) : Get α := fun _ c => (a,c)

/-- One reader after another. -/
def Get.bind (g : Get α) (k : α → Get β) : Get β := fun mem c => k (g mem c).1 mem (g mem c).2

instance : Monad Get where
  pure := Get.pure
  bind := Get.bind

/-- `*extra++` -/
def getExtra : Get UInt8 := fun mem c => (mem c.extra,{c with extra := c.extra+1})

/-- The next `n` bytes at `rest`. -/
def getRest (n : ℕ) : Get (List UInt8) := fun mem c =>
  (read mem c.rest n,{c with rest := c.rest+n})

/-- The cursors after what `ps` has written. -/
def Cursor.past (c : Cursor) (ps : List Put) : Cursor :=
  ⟨c.extra+(extras ps).length,c.rest+(rests ps).length⟩

/-- The bytes that `ps` writes stand at the cursors. -/
structure At (mem : Mem) (c : Cursor) (ps : List Put) : Prop where
  extra : Holds mem c.extra (extras ps)
  rest : Holds mem c.rest (rests ps)

theorem at_append {mem : Mem} {c : Cursor} {ps qs : List Put} :
    At mem c (ps++qs) ↔ At mem c ps ∧ At mem (c.past ps) qs := by
  constructor
  · rintro ⟨he,hr⟩
    rw [extras_append,holds_append] at he
    rw [rests_append,holds_append] at hr
    exact ⟨⟨he.1,hr.1⟩,he.2,hr.2⟩
  · rintro ⟨⟨he,hr⟩,he',hr'⟩
    refine ⟨?_,?_⟩
    · rw [extras_append,holds_append]
      exact ⟨he,he'⟩
    · rw [rests_append,holds_append]
      exact ⟨hr,hr'⟩

/-- The reader `g` takes back what `ps` has written, which stands for `a`. -/
def Inverse (ps : List Put) (g : Get α) (a : α) : Prop :=
  ∀ mem c,At mem c ps → g mem c = (a,c.past ps)

theorem inverse_pure (a : α) : Inverse [] (pure a : Get α) a := fun _ _ _ => rfl

/-- Writes one after another are read back one after another. -/
theorem Inverse.bind {ps qs : List Put} {g : Get α} {a : α} {k : α → Get β} {b : β}
    (hg : Inverse ps g a) (hk : Inverse qs (k a) b) : Inverse (ps++qs) (g >>= k) b := by
  intro mem c h
  obtain ⟨h1,h2⟩ := at_append.mp h
  show k (g mem c).1 mem (g mem c).2 = _
  rw [hg mem c h1]
  show k a mem (c.past ps) = _
  rw [hk mem _ h2]
  simp [Cursor.past,extras_append,rests_append,Nat.add_assoc]

theorem inverse_getExtra (b : UInt8) : Inverse [.extra b] getExtra b := by
  intro mem c h
  have hb : mem c.extra = b := h.extra 0 Nat.one_pos
  simp [getExtra,hb,Cursor.past,extras,rests]

theorem inverse_getRest (bs : List UInt8) : Inverse [.rest bs] (getRest bs.length) bs := by
  intro mem c h
  have hr : Holds mem c.rest bs := by simpa [rests] using h.rest
  simp [getRest,hr.read,Cursor.past,extras,rests]

/-- Writes that are made under a condition. -/
def putIf (b : Bool) (ps : List Put) : List Put := if b then ps else []

/-- A read that is made under a condition, and `z` without it. -/
def getIf (b : Bool) (g : Get α) (z : α) : Get α := if b then g else pure z

theorem Inverse.ite {b : Bool} {ps : List Put} {g : Get α} {a z : α} (h : b → Inverse ps g a) :
    Inverse (putIf b ps) (getIf b g z) (if b then a else z) := by
  cases b with
  | false => exact inverse_pure z
  | true => exact h rfl

end TwoCursors
end MarbleModules
