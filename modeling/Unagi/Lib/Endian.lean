import Mathlib.Algebra.Group.Nat.Defs
import Mathlib.Data.List.Basic
import Mathlib.Data.Nat.Basic

/-! # Numbers as bytes

A natural number in a fixed number of bytes, the lowest byte first or last. -/

namespace Unagi.Lib

def leBytes : Nat → Nat → List UInt8
  | 0, _ => []
  | w + 1, n => UInt8.ofNat n :: leBytes w (n / 256)
def ofLeBytes : List UInt8 → Nat
  | [] => 0
  | b :: bs => b.toNat + 256 * ofLeBytes bs
def toBytes (big : Bool) (w n : Nat) : List UInt8 :=
  if big then (leBytes w n).reverse else leBytes w n
def ofBytes (big : Bool) (bs : List UInt8) : Nat := ofLeBytes (if big then bs.reverse else bs)

@[simp] theorem length_leBytes (w n : Nat) : (leBytes w n).length = w := by
  induction w generalizing n with
  | zero => rfl
  | succ w ih => rw [leBytes,List.length_cons,ih]
@[simp] theorem length_toBytes (big : Bool) (w n : Nat) : (toBytes big w n).length = w := by
  cases big <;> simp [toBytes]
theorem ofLeBytes_leBytes (w n : Nat) : ofLeBytes (leBytes w n) = n % 256 ^ w := by
  induction w generalizing n with
  | zero => rw [Nat.pow_zero,Nat.mod_one]; rfl
  | succ w ih =>
    have hbyte : (UInt8.ofNat n).toNat = n % 256 := UInt8.toNat_ofNat'
    rw [leBytes,ofLeBytes,ih,hbyte,Nat.pow_succ',Nat.mod_mul]

theorem ofLeBytes_lt (bs : List UInt8) : ofLeBytes bs < 256 ^ bs.length := by
  induction bs with
  | nil => exact Nat.one_pos
  | cons b bs ih =>
    have hb := b.toNat_lt
    rw [ofLeBytes,List.length_cons,Nat.pow_succ]
    omega

theorem leBytes_ofLeBytes (bs : List UInt8) : leBytes bs.length (ofLeBytes bs) = bs := by
  induction bs with
  | nil => rfl
  | cons b bs ih =>
    have hb := b.toNat_lt
    have hlow : UInt8.ofNat (b.toNat + 256 * ofLeBytes bs) = b := by
      apply UInt8.toNat_inj.mp
      rw [UInt8.toNat_ofNat']
      omega
    rw [List.length_cons,leBytes,ofLeBytes,hlow,
      show (b.toNat + 256 * ofLeBytes bs) / 256 = ofLeBytes bs by omega,ih]

theorem ofLeBytes_append (bs cs : List UInt8) :
    ofLeBytes (bs ++ cs) = ofLeBytes bs + 256 ^ bs.length * ofLeBytes cs := by
  induction bs with
  | nil => simp [ofLeBytes]
  | cons b bs ih =>
    rw [List.cons_append,ofLeBytes,ofLeBytes,ih,List.length_cons,Nat.pow_succ']
    rw [Nat.mul_add,← Nat.add_assoc,Nat.mul_assoc]

theorem leBytes_add (k j n : Nat) : leBytes (k + j) n = leBytes k n ++ leBytes j (n / 256 ^ k) := by
  induction k generalizing n with
  | zero => rw [Nat.zero_add,Nat.pow_zero,Nat.div_one]; rfl
  | succ k ih =>
    rw [Nat.succ_add,leBytes,leBytes,ih,List.cons_append,Nat.div_div_eq_div_mul,Nat.pow_succ']
theorem leBytes_zero (k : Nat) : leBytes k 0 = List.replicate k 0 := by
  induction k with
  | zero => rfl
  | succ k ih => rw [leBytes,Nat.zero_div,ih,List.replicate_succ]; rfl
theorem ofBytes_toBytes (big : Bool) {w n : Nat} (h : n < 256 ^ w) :
    ofBytes big (toBytes big w n) = n := by
  have hback : ofLeBytes (leBytes w n) = n := by rw [ofLeBytes_leBytes,Nat.mod_eq_of_lt h]
  cases big
  · exact hback
  · rw [ofBytes,toBytes,if_pos rfl,if_pos rfl,List.reverse_reverse,hback]

end Unagi.Lib
