import Mathlib.Data.List.Basic
import Mathlib.Data.UInt
import Mathlib.Tactic.Linarith

/-! Numbers as bytes, the least significant first. -/
namespace MarbleModules

/-- The number a string of bytes stands for. -/
def leVal : List UInt8 → ℕ
  | [] => 0
  | b::bs => b.toNat+256*leVal bs

/-- The low `n` bytes of `v`. -/
def leBytes : ℕ → ℕ → List UInt8
  | 0,_ => []
  | n+1,v => UInt8.ofNat v::leBytes n (v/256)

@[simp] theorem length_leBytes (n v : ℕ) : (leBytes n v).length = n := by
  induction n generalizing v with
  | zero => rfl
  | succ n ih => rw [leBytes,List.length_cons,ih]

theorem leVal_lt (bs : List UInt8) : leVal bs < 256^bs.length := by
  induction bs with
  | nil => exact Nat.one_pos
  | cons b bs ih =>
    have hb := b.toNat_lt
    rw [leVal,List.length_cons,Nat.pow_succ]
    omega

theorem leVal_leBytes (n v : ℕ) : leVal (leBytes n v) = v % 256^n := by
  induction n generalizing v with
  | zero => rw [leBytes,leVal,Nat.pow_zero,Nat.mod_one]
  | succ n ih =>
    have hp : 256^(n+1) = 256*256^n := by rw [Nat.pow_succ,Nat.mul_comm]
    rw [leBytes,leVal,ih,UInt8.toNat_ofNat',hp,Nat.mod_mul]

theorem leVal_leBytes_of_lt {n v : ℕ} (h : v < 256^n) : leVal (leBytes n v) = v := by
  rw [leVal_leBytes,Nat.mod_eq_of_lt h]

theorem leBytes_leVal (bs : List UInt8) : leBytes bs.length (leVal bs) = bs := by
  induction bs with
  | nil => rfl
  | cons b bs ih =>
    have hb := b.toNat_lt
    have hd : (b.toNat+256*leVal bs)/256 = leVal bs := by omega
    have hm : UInt8.ofNat (b.toNat+256*leVal bs) = b := by
      apply UInt8.toNat.inj
      rw [UInt8.toNat_ofNat']
      omega
    rw [List.length_cons,leVal,leBytes,hd,hm,ih]

theorem leVal_inj {bs cs : List UInt8} (hl : bs.length = cs.length) (h : leVal bs = leVal cs) :
    bs = cs := by
  rw [← leBytes_leVal bs,← leBytes_leVal cs,hl,h]

theorem leVal_append (bs cs : List UInt8) :
    leVal (bs ++ cs) = leVal bs+256^bs.length*leVal cs := by
  induction bs with
  | nil => rw [List.nil_append,leVal,List.length_nil,Nat.pow_zero,Nat.one_mul,Nat.zero_add]
  | cons b bs ih =>
    have hp : 256^(b::bs).length = 256*256^bs.length := by
      rw [List.length_cons,Nat.pow_succ,Nat.mul_comm]
    rw [List.cons_append,leVal,ih,leVal,hp,Nat.mul_assoc]
    omega

theorem leVal_mod (bs : List UInt8) {n : ℕ} (h : n ≤ bs.length) :
    leVal bs % 256^n = leVal (bs.take n) := by
  have hl : (bs.take n).length = n := by rw [List.length_take,Nat.min_eq_left h]
  have hlt := leVal_lt (bs.take n)
  have happ := leVal_append (bs.take n) (bs.drop n)
  rw [List.take_append_drop,hl] at happ
  rw [hl] at hlt
  rw [happ,Nat.add_mul_mod_self_left,Nat.mod_eq_of_lt hlt]

end MarbleModules
