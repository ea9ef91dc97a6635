import Unagi.Lib.Except
import Unagi.Lib.Int64
import Unagi.Objects.Halt
import Unagi.Objects.PickleLong

/-! # Integers as bytes of a given length

`int.to_bytes` checks the range against half of the modulus, which is zero for no bytes, so that not
even zero passes; and it counts the bits of the modulus in a machine word. -/

namespace Unagi.Objects

open Lib (leBytes ofLeBytes ofBytes toBytes)

/-- `uint(8*length)`. -/
def bitCount (length : Nat) : Nat := 8 * length % 2 ^ 64

/-- Room for a number of this many words, and four to spare: `make` panics when it exceeds the address
space. -/
def natMake (words : Nat) : Except Halt Unit :=
  if 8 * (words + 4) ≤ 2 ^ 48 then .ok () else .error .panic
def lsh (s : Nat) : Except Halt Int := do
  natMake (s / 64 + 2)
  return 2 ^ s

def intFromBytes (bigEndian signed : Bool) (raw : List UInt8) : Except Halt Int := do
  let b := if bigEndian then raw else raw.reverse
  natMake ((b.length + 7) / 8)
  let n : Int := ofBytes true b
  if signed ∧ 0 < b.length ∧ b.getD 0 0 &&& 0x80 ≠ 0 then
    let mod ← lsh (bitCount b.length)
    return n - mod
  else return n
def magnitude (n : Nat) : List UInt8 := (leBytes ((n.size + 7) / 8) n).reverse

def intToBytes (bigEndian signed : Bool) (v length : Int) : Except Halt (List UInt8) :=
  if ¬ Int64.InRange length then raise .typeError "'int' object cannot be interpreted as an integer"
  else if length < 0 then raise .valueError "length argument must be non-negative"
  else if v < 0 ∧ ¬ signed then raise .overflowError "can't convert negative int to unsigned"
  else do
    let mod ← lsh (bitCount length.toNat)
    let half := mod / 2
    if if signed then half ≤ v ∨ v < -half else mod ≤ v then
      raise .overflowError "int too big to convert"
    else
      let raw := magnitude (if v < 0 then v + mod else v).toNat
      if 2 ^ 48 < length ∨ length.toNat < raw.length then .error .panic
      else
        let out := List.replicate (length.toNat - raw.length) 0 ++ raw
        .ok (if bigEndian then out else out.reverse)

def Representable (signed : Bool) (length : Nat) (v : Int) : Prop :=
  if signed then if length = 0 then v = 0 else -2 ^ (8 * length - 1) ≤ v ∧ v < 2 ^ (8 * length - 1)
  else 0 ≤ v ∧ v < 2 ^ (8 * length)
theorem two_pow_eight (k : Nat) : (2 : Int) ^ (8 * k) = 256 ^ k := pow_mul 2 8 k
theorem half_succ (k : Nat) : (256 : Int) ^ (k + 1) = 2 * 2 ^ (8 * (k + 1) - 1) := by
  rw [← two_pow_eight,← pow_succ']
  congr 1

theorem representable_signed_iff (k : Nat) (v : Int) :
    Representable true (k + 1) v ↔ Fits (k + 1) v := by
  have hhalf := half_succ k
  rw [Representable,if_pos rfl,if_neg (Nat.succ_ne_zero k),Fits]
  generalize (256 : Int) ^ (k + 1) = m at *
  generalize (2 : Int) ^ (8 * (k + 1) - 1) = h at *
  omega

theorem representable_zero_iff (v : Int) : Representable true 0 v ↔ v = 0 := by
  rw [Representable,if_pos rfl,if_pos rfl]
theorem representable_unsigned_iff (k : Nat) (v : Int) :
    Representable false k v ↔ 0 ≤ v ∧ v < 256 ^ k := by
  rw [Representable,if_neg Bool.false_ne_true,two_pow_eight]

/-! ## The bytes -/

/-- Lengths whose modulus finds room. -/
def Room (k : Nat) : Prop := 8 * (k / 8 + 6) ≤ 2 ^ 48

variable {k : Nat} {signed : Bool} {v : Int}

theorem magnitude_padded {n : Nat} (h : n < 256 ^ k) : (magnitude n).length ≤ k ∧
    List.replicate (k - (magnitude n).length) 0 ++ magnitude n = (leBytes k n).reverse := by
  have hsize : n.size ≤ 8 * k := by
    apply Nat.size_le.mpr
    rwa [pow_mul]
  have hlt : n < 256 ^ ((n.size + 7) / 8) := by
    have hpow : (256 : Nat) ^ ((n.size + 7) / 8) = 2 ^ (8 * ((n.size + 7) / 8)) := (pow_mul 2 8 _).symm
    rw [hpow]
    exact Nat.lt_of_lt_of_le (Nat.lt_size_self n) (Nat.pow_le_pow_right (by decide) (by omega))
  have hlen : (magnitude n).length = (n.size + 7) / 8 := by
    rw [magnitude,List.length_reverse,Lib.length_leBytes]
  have hle : (n.size + 7) / 8 ≤ k := by omega
  refine ⟨hlen.trans_le hle,?_⟩
  have hsplit := Lib.leBytes_add ((n.size + 7) / 8) (k - (n.size + 7) / 8) n
  rw [Nat.add_sub_cancel' hle,Nat.div_eq_of_lt hlt,Lib.leBytes_zero] at hsplit
  rw [hlen,hsplit,List.reverse_append,List.reverse_replicate,magnitude]

/-- The range check of the code lets through what fits. -/
def Passes (signed : Bool) (k : Nat) (v : Int) : Prop :=
  if signed then 0 < k ∧ Fits k v else 0 ≤ v ∧ v < 256 ^ k

def residue (k : Nat) (v : Int) : Nat := (if v < 0 then v + 256 ^ k else v).toNat

theorem Passes.residue_lt (h : Passes signed k v) :
    residue k v < 256 ^ k := by
  have hpos : (0 : Int) < 256 ^ k := by positivity
  unfold residue
  zify
  cases signed with
  | false =>
    obtain ⟨hlow,hhigh⟩ := h
    rw [if_neg (by omega)]
    omega
  | true =>
    obtain ⟨-,hlow,hhigh⟩ := h
    split_ifs with hneg <;> omega

theorem lsh_of_room (hroom : Room k) : lsh (bitCount k) = .ok (256 ^ k) := by
  unfold Room at hroom
  have hbits : bitCount k = 8 * k := Nat.mod_eq_of_lt (by omega)
  rw [lsh,natMake,hbits,if_pos (by omega)]
  exact congrArg Except.ok (two_pow_eight k)

theorem intToBytes_of_room (hroom : Room k) (big signed : Bool) (v : Int) :
    intToBytes big signed v k =
      if v < 0 ∧ ¬ signed then raise .overflowError "can't convert negative int to unsigned"
      else if if signed then (256 : Int) ^ k / 2 ≤ v ∨ v < -(256 ^ k / 2) else 256 ^ k ≤ v then
        raise .overflowError "int too big to convert"
      else if k < (magnitude (residue k v)).length then .error .panic
      else
        let out := List.replicate (k - (magnitude (residue k v)).length) 0 ++ magnitude (residue k v)
        .ok (if big then out else out.reverse) := by
  have hlsh := lsh_of_room hroom
  unfold Room at hroom
  have hlong : ¬ (2 : Int) ^ 48 < k := by omega
  rw [intToBytes,if_neg (not_not.mpr ⟨by omega,by omega⟩),if_neg (by omega),Int.toNat_natCast,hlsh]
  simp only [Except.ok_bind,hlong,false_or]
  rfl

theorem intToBytes_of_no_room (hroom : ¬ Room k) (big signed : Bool) (v : Int) (b : List UInt8) :
    intToBytes big signed v k ≠ .ok b := by
  unfold Room at hroom
  intro h
  rw [intToBytes,Int.toNat_natCast] at h
  split at h
  · cases h
  split at h
  · cases h
  split at h
  · cases h
  obtain ⟨mod,hlsh,h⟩ := (Except.bind_isOk_iff _ _ _).mp h
  by_cases hbad : if signed then mod / 2 ≤ v ∨ v < -(mod / 2) else mod ≤ v
  · rw [if_pos hbad] at h
    cases h
  rw [if_neg hbad] at h
  clear hbad
  -- a modulus that finds room has lost bits of the length
  have hwide : (2 : Int) ^ 48 < k := by
    rw [lsh,natMake,bitCount] at hlsh
    split at hlsh
    · omega
    · cases hlsh
  dsimp only at h
  rw [if_pos (.inl hwide)] at h
  cases h

theorem intToBytes_of_passes (hroom : Room k) (h : Passes signed k v)
    (big : Bool) : intToBytes big signed v k = .ok (toBytes big k (residue k v)) := by
  obtain ⟨hlen,hpad⟩ := magnitude_padded h.residue_lt
  have hcheck : ¬ if signed then (256 : Int) ^ k / 2 ≤ v ∨ v < -(256 ^ k / 2) else 256 ^ k ≤ v := by
    cases signed with
    | false => exact not_le.mpr h.2
    | true =>
      obtain ⟨hk,hlow,hhigh⟩ := h
      obtain ⟨k,rfl⟩ := Nat.exists_eq_add_of_lt hk
      rw [Nat.zero_add] at *
      have hhalf := half_succ k
      rw [if_pos rfl]
      omega
  have hneg : ¬ (v < 0 ∧ ¬ signed = true) := by
    rintro ⟨hv,hs⟩
    rw [Passes,if_neg hs] at h
    omega
  rw [intToBytes_of_room hroom,if_neg hneg,if_neg hcheck,if_neg (Nat.not_lt.mpr hlen)]
  dsimp only
  rw [hpad,toBytes,List.reverse_reverse]

theorem intToBytes_of_not_passes (hroom : Room k) (h : ¬ Passes signed k v)
    (big : Bool) : ∃ e, intToBytes big signed v k = .error (.raise e) := by
  rw [intToBytes_of_room hroom]
  by_cases hneg : v < 0 ∧ ¬ signed = true
  · exact ⟨_,if_pos hneg⟩
  · rw [if_neg hneg]
    refine ⟨_,if_pos ?_⟩
    cases signed with
    | false =>
      rw [if_neg Bool.false_ne_true]
      by_contra hlt
      exact h ⟨by simpa using hneg,not_le.mp hlt⟩
    | true =>
      rw [if_pos rfl]
      cases k with
      | zero =>
        rw [pow_zero]
        omega
      | succ k =>
        have hhalf := half_succ k
        by_contra hin
        exact h ⟨Nat.succ_pos k,by omega,by omega⟩

/-- The number that the bytes spell. -/
def spelled (big signed : Bool) (raw : List UInt8) : Int :=
  let b := if big then raw else raw.reverse
  let n : Int := ofBytes true b
  if signed ∧ 0 < b.length ∧ b.getD 0 0 &&& 0x80 ≠ 0 then n - 2 ^ (8 * b.length) else n

def lowFirst (big : Bool) (b : List UInt8) : List UInt8 := if big then b.reverse else b
theorem lowFirst_toBytes (big : Bool) (k n : Nat) : lowFirst big (toBytes big k n) = leBytes k n := by
  cases big
  · rfl
  · exact List.reverse_reverse _

theorem spelled_signed (big : Bool) (b : List UInt8) :
    spelled big true b = decodeLong (lowFirst big b) := by
  have hbig : (if big then b else b.reverse) = (lowFirst big b).reverse := by
    cases big
    · rfl
    · exact (List.reverse_reverse b).symm
  unfold spelled
  rw [hbig]
  generalize lowFirst big b = c
  rcases List.eq_nil_or_concat c with rfl | ⟨r,t,rfl⟩
  · rfl
  · have htop : true = true ∧ 0 < (r.concat t).reverse.length ∧
        (r.concat t).reverse.getD 0 0 &&& 0x80 ≠ 0 ↔
        (r.concat t).getD ((r.concat t).length - 1) 0 &&& 0x80 ≠ 0 := by
      simp
    have hne : r.concat t ≠ [] := by simp
    rw [decodeLong,if_neg hne]
    dsimp only
    rw [if_congr htop rfl rfl,List.length_reverse]

theorem spelled_unsigned (big : Bool) (b : List UInt8) :
    spelled big false b = ofLeBytes (lowFirst big b) := by
  cases big <;> simp [spelled,ofBytes,lowFirst]

theorem intFromBytes_of_room {big : Bool} {b : List UInt8} (hroom : Room b.length) :
    intFromBytes big signed b = .ok (spelled big signed b) := by
  have hlen : (if big then b else b.reverse).length = b.length := by cases big <;> simp
  have hmake : natMake ((b.length + 7) / 8) = .ok () := by
    unfold Room at hroom
    exact if_pos (by omega)
  simp only [intFromBytes,spelled,hlen,hmake,lsh_of_room hroom,Except.ok_bind,two_pow_eight]
  exact (apply_ite Except.ok _ _ _).symm

/-! ## There and back -/

theorem back_of_passes (h : Passes signed k v) (big : Bool) :
    spelled big signed (toBytes big k (residue k v)) = v := by
  have hlt := h.residue_lt
  cases signed with
  | false =>
    obtain ⟨hlow,-⟩ := h
    rw [spelled_unsigned,lowFirst_toBytes,Lib.ofLeBytes_leBytes,Nat.mod_eq_of_lt hlt,residue,
      if_neg (not_lt.mpr hlow),Int.toNat_of_nonneg hlow]
  | true =>
    rw [spelled_signed,lowFirst_toBytes]
    exact (denotes_leBytes h.2).decode_eq

theorem passes_spelled {big : Bool} {b : List UInt8} (hb : signed = true → b ≠ []) :
    Passes signed b.length (spelled big signed b) := by
  have hlen : (lowFirst big b).length = b.length := by cases big <;> simp [lowFirst]
  cases signed with
  | false =>
    have hlt := Lib.ofLeBytes_lt (lowFirst big b)
    rw [spelled_unsigned,Passes,if_neg Bool.false_ne_true]
    rw [hlen] at hlt
    exact ⟨Int.natCast_nonneg _,by exact_mod_cast hlt⟩
  | true =>
    rw [spelled_signed,Passes,if_pos rfl,← hlen]
    exact ⟨by rw [hlen]; exact List.length_pos_of_ne_nil (hb rfl),(denotes_decodeLong _).1⟩

theorem forth_of_bytes {big : Bool} {b : List UInt8} (hroom : Room b.length)
    (hb : signed = true → b ≠ []) :
    intToBytes big signed (spelled big signed b) b.length = .ok b := by
  have hpass : Passes signed b.length (spelled big signed b) := passes_spelled hb
  have hlen : (lowFirst big b).length = b.length := by cases big <;> simp [lowFirst]
  have hback := back_of_passes hpass big
  rw [intToBytes_of_passes hroom hpass]
  generalize hn : residue b.length (spelled big signed b) = n at hback
  have hlow : leBytes b.length n = lowFirst big b := by
    cases signed with
    | false =>
      have hlt := hpass.residue_lt
      rw [spelled_unsigned,spelled_unsigned,lowFirst_toBytes,Lib.ofLeBytes_leBytes] at hback
      rw [hn] at hlt
      rw [Nat.mod_eq_of_lt hlt] at hback
      rw [Int.ofNat_inj.mp hback,← hlen,Lib.leBytes_ofLeBytes]
    | true =>
      rw [spelled_signed,spelled_signed,lowFirst_toBytes] at hback
      have hden := denotes_decodeLong (leBytes b.length n)
      rw [hback] at hden
      exact hden.eq_of_length (denotes_decodeLong _) (by rw [Lib.length_leBytes,hlen])
  cases big with
  | false => exact congrArg Except.ok hlow
  | true =>
    rw [toBytes,if_pos rfl,hlow]
    exact congrArg Except.ok (List.reverse_reverse b)

theorem passes_iff (signed : Bool) (k : Nat) (v : Int) :
    Passes signed k v ↔ Representable signed k v ∧ ¬ (signed = true ∧ k = 0) := by
  cases signed with
  | false => simp [Passes,representable_unsigned_iff]
  | true =>
    cases k with
    | zero => simp [Passes]
    | succ k => simp [Passes,representable_signed_iff]

/-- `to_bytes` succeeds exactly on the numbers that have a form and is undone by `from_bytes`, and the
other way around, unless there are no bytes and they are signed, or so many that their modulus finds no
room. -/
theorem int_bytes_inverse_iff (big signed : Bool) :
    (∀ (v : Int) (k : Nat), (((∃ b, intToBytes big signed v k = .ok b) ↔ Representable signed k v) ∧
        ∀ b, intToBytes big signed v k = .ok b → intFromBytes big signed b = .ok v) ↔
      ¬ (signed = true ∧ k = 0 ∧ v = 0) ∧ (Room k ∨ ¬ Representable signed k v)) ∧
    ∀ b : List UInt8,
      (do let v ← intFromBytes big signed b; intToBytes big signed v b.length) = .ok b ↔
        ¬ (signed = true ∧ b = []) ∧ Room b.length := by
  constructor
  · intro v k
    by_cases hroom : Room k
    · have hok : (∃ b, intToBytes big signed v k = .ok b) ↔ Passes signed k v := by
        constructor
        · rintro ⟨b,hb⟩
          by_contra hnot
          obtain ⟨e,he⟩ := intToBytes_of_not_passes hroom hnot big
          rw [he] at hb
          cases hb
        · exact fun h => ⟨_,intToBytes_of_passes hroom h big⟩
      have hback : ∀ b, intToBytes big signed v k = .ok b → intFromBytes big signed b = .ok v := by
        intro b hb
        have hpass := hok.mp ⟨b,hb⟩
        rw [intToBytes_of_passes hroom hpass] at hb
        cases hb
        rw [intFromBytes_of_room (by rwa [Lib.length_toBytes]),back_of_passes hpass big]
      rw [hok,passes_iff,and_iff_left (Or.inl hroom : Room k ∨ ¬ Representable signed k v)]
      constructor
      · rintro ⟨hiff, -⟩ ⟨rfl,rfl,rfl⟩
        exact (hiff.mpr ((representable_zero_iff 0).mpr rfl)).2 ⟨rfl,rfl⟩
      · intro hnot
        refine ⟨⟨fun h => h.1,fun h => ⟨h,?_⟩⟩,hback⟩
        rintro ⟨rfl,rfl⟩
        exact hnot ⟨rfl,rfl,(representable_zero_iff v).mp h⟩
    · have hnone := intToBytes_of_no_room hroom big signed v
      have hk : k ≠ 0 := fun hk => hroom (hk ▸ by unfold Room; decide)
      simp [hnone,hroom,hk]
  · intro b
    by_cases hroom : Room b.length
    · rw [intFromBytes_of_room hroom,Except.ok_bind,and_iff_left hroom]
      constructor
      · rintro h ⟨rfl,rfl⟩
        have hnot : ¬ Passes true 0 (spelled big true []) := fun h => absurd h.1 (Nat.lt_irrefl 0)
        obtain ⟨e,he⟩ := intToBytes_of_not_passes hroom hnot big
        rw [he] at h
        cases h
      · intro hnot
        exact forth_of_bytes hroom fun hs hb => hnot ⟨hs,hb⟩
    · refine ⟨fun h => ?_,fun h => absurd h.2 hroom⟩
      obtain ⟨v, -,hv⟩ := (Except.bind_isOk_iff _ _ _).mp h
      exact absurd hv (intToBytes_of_no_room hroom big signed v b)

theorem signed_zero_and_wide_lengths :
    (Representable true 0 0 ∧ intToBytes true true 0 0 = raise .overflowError "int too big to convert" ∧
      intFromBytes true true [] = .ok 0) ∧
    (Representable false (2 ^ 61) 1 ∧
      intToBytes true false 1 (2 ^ 61) = raise .overflowError "int too big to convert") ∧
    Representable false (2 ^ 60) 1 ∧ intToBytes true false 1 (2 ^ 60) = .error .panic := by
  have hone (k : Nat) (hk : 0 < k) : Representable false k 1 :=
    (representable_unsigned_iff k 1).mpr ⟨by decide,one_lt_pow₀ (by decide) (Nat.ne_of_gt hk)⟩
  exact ⟨⟨rfl,by decide,by decide⟩,⟨hone _ (by decide),by decide⟩,hone _ (by decide),by decide⟩

end Unagi.Objects
