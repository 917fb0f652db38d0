import Mathlib.Data.BitVec
import Mathlib.Data.List.Basic

/-! The message integrity code Michael over a whole message, and how a message is taken in word
by word. -/
namespace MarbleModules
namespace Michael

section Absorb

variable {σ β : Type*} (f : σ → β → β → β → β → σ)

/-- Takes in as many groups of four as there are, and leaves the rest. -/
def absorb : σ → List β → σ × List β
  | s,a::b::c::d::l => absorb (f s a b c d) l
  | s,l => (s,l)

theorem absorb_of_lt {s : σ} {l : List β} (h : l.length < 4) : absorb f s l = (s,l) := by
  match l,h with
  | [],_ => simp [absorb]
  | [_],_ => simp [absorb]
  | [_,_],_ => simp [absorb]
  | [_,_,_],_ => simp [absorb]
  | _::_::_::_::_,h =>
    simp only [List.length_cons] at h
    omega

theorem absorb_length (s : σ) (l : List β) : (absorb f s l).2.length = l.length%4 := by
  fun_induction absorb f s l with
  | case1 s a b c d l ih =>
    rw [ih]
    simp only [List.length_cons]
    omega
  | case2 s l h =>
    match l,h with
    | [],_ => rfl
    | [_],_ => rfl
    | [_,_],_ => rfl
    | [_,_,_],_ => rfl
    | a::b::c::d::l,h => exact absurd rfl (h a b c d l)

theorem absorb_append (s : σ) (l m : List β) :
    absorb f s (l++m) = absorb f (absorb f s l).1 ((absorb f s l).2++m) := by
  fun_induction absorb f s l with
  | case1 s a b c d l ih => simpa [absorb] using ih
  | case2 s l h => rfl

/-- A list of whole groups is taken in without rest. -/
theorem absorb_whole {s : σ} {l : List β} (h : l.length%4 = 0) (m : List β) :
    absorb f s (l++m) = absorb f (absorb f s l).1 m := by
  have hnil : (absorb f s l).2 = [] := List.length_eq_zero_iff.mp ((absorb_length f s l).trans h)
  rw [absorb_append,hnil,List.nil_append]

end Absorb

abbrev Byte := BitVec 8
abbrev Word := BitVec 32

/-- Four bytes as a word, the lowest first. -/
def word (a b c d : Byte) : Word :=
  a.setWidth 32 ||| (b.setWidth 32 <<< 8) ||| (c.setWidth 32 <<< 16) ||| (d.setWidth 32 <<< 24)

/-- A word as four bytes, the lowest first. -/
def bytes (v : Word) : List Byte :=
  [v.setWidth 8,(v >>> 8).setWidth 8,(v >>> 16).setWidth 8,(v >>> 24).setWidth 8]

/-- The bytes of each half of a word exchanged. -/
def xswap (v : Word) : Word := ((v &&& 0x00ff00ff) <<< 8) ||| ((v &&& 0xff00ff00) >>> 8)

structure State where
  l : Word
  r : Word
  deriving DecidableEq

/-- The block function. -/
def block (s : State) : State :=
  let r := s.r ^^^ s.l.rotateLeft 17
  let l := s.l+r
  let r := r ^^^ xswap l
  let l := l+r
  let r := r ^^^ l.rotateLeft 3
  let l := l+r
  let r := r ^^^ l.rotateRight 2
  ⟨l+r,r⟩

/-- One word of the message. -/
def step (s : State) (a b c d : Byte) : State := block ⟨s.l ^^^ word a b c d,s.r⟩

/-- The padding of a message of a length: `0x5a` and four to seven zeros, to whole words. -/
def padding (n : ℕ) : List Byte := 0x5a::List.replicate (7-n%4) 0

def init (key : Fin 8 → Byte) : State :=
  ⟨word (key 0) (key 1) (key 2) (key 3),word (key 4) (key 5) (key 6) (key 7)⟩

/-- The code of a message. -/
def mic (key : Fin 8 → Byte) (msg : List Byte) : List Byte :=
  let s := (absorb step (init key) (msg++padding msg.length)).1
  bytes s.l++bytes s.r

/-- The last two words: what is left of the message with the padding. -/
def finish (s : State) : List Byte → State
  | [] => block (step s 0x5a 0 0 0)
  | [a] => block (step s a 0x5a 0 0)
  | [a,b] => block (step s a b 0x5a 0)
  | a::b::c::_ => block (step s a b c 0x5a)

theorem step_zero (s : State) : step s 0#8 0#8 0#8 0#8 = block s := by
  have hz : word 0#8 0#8 0#8 0#8 = 0#32 := by decide
  rw [step,hz,BitVec.xor_zero]

theorem absorb_padding (s : State) {tail : List Byte} (h : tail.length < 4) {n : ℕ}
    (hn : n%4 = tail.length) : (absorb step s (tail++padding n)).1 = finish s tail := by
  rw [padding,hn]
  match tail,h with
  | [],_ => simp [absorb,finish,step_zero,List.replicate]
  | [_],_ => simp [absorb,finish,step_zero,List.replicate]
  | [_,_],_ => simp [absorb,finish,step_zero,List.replicate]
  | [_,_,_],_ => simp [absorb,finish,step_zero,List.replicate]
  | _::_::_::_::_,h =>
    simp only [List.length_cons] at h
    omega

/-- A header of whole words, then the message. -/
theorem mic_append (key : Fin 8 → Byte) {hdr : List Byte} (h : hdr.length%4 = 0)
    (msg : List Byte) :
    mic key (hdr++msg) =
      let s := absorb step (absorb step (init key) hdr).1 msg
      bytes (finish s.1 s.2).l++bytes (finish s.1 s.2).r := by
  have hlen := absorb_length step (absorb step (init key) hdr).1 msg
  have hn : (hdr++msg).length%4 = (absorb step (absorb step (init key) hdr).1 msg).2.length := by
    rw [hlen,List.length_append]
    omega
  have hlt : (absorb step (absorb step (init key) hdr).1 msg).2.length < 4 := by omega
  rw [mic,List.append_assoc,absorb_whole step h,absorb_append,absorb_padding _ hlt hn]

end Michael
end MarbleModules
