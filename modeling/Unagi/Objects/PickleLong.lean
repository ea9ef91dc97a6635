import Mathlib.Data.Int.Order.Lemmas
import Mathlib.Data.Nat.Size
import Mathlib.Tactic.Positivity
import Mathlib.Tactic.Ring
import Mathlib.Tactic.Zify
import Unagi.Lib.Endian

/-! # The two's-complement form of a pickled integer

`encodeLong` guesses the width from the bit length and drops one byte of a negative number that
only repeats the sign; what is left is the shortest form that denotes the number. -/

namespace Unagi.Objects

open Lib (leBytes ofLeBytes ofBytes)

def encodeLong (x : Int) : List UInt8 :=
  if x = 0 then []
  else
    let nbytes := (x.natAbs.size >>> 3) + 1
    let v := if x < 0 then x + 2 ^ (8 * nbytes) else x
    let out := leBytes nbytes v.toNat
    if x < 0 ∧ 1 < nbytes ∧ out.getD (nbytes - 1) 0 = 0xff ∧ out.getD (nbytes - 2) 0 &&& 0x80 ≠ 0 then
      out.take (nbytes - 1)
    else out

def decodeLong (body : List UInt8) : Int :=
  if body = [] then 0
  else
    let n := ofBytes true body.reverse
    if body.getD (body.length - 1) 0 &&& 0x80 ≠ 0 then n - 2 ^ (8 * body.length) else n
def Fits (k : Nat) (x : Int) : Prop := -256 ^ k ≤ 2 * x ∧ 2 * x < 256 ^ k

/-- The bytes are the two's-complement form of the number, the lowest byte first. -/
def Denotes (b : List UInt8) (x : Int) : Prop :=
  Fits b.length x ∧ (256 : Int) ^ b.length ∣ x - ofLeBytes b

def Shortest (b : List UInt8) (x : Int) : Prop := Denotes b x ∧ ∀ k < b.length, ¬ Fits k x
def signOf : List UInt8 → UInt8
  | [] => 0
  | c :: _ => if c < 0x80 then 0 else 0xff

/-- The bytes, the highest one first, without those on top that only repeat the sign. -/
def dropSign : List UInt8 → List UInt8
  | [] => []
  | b :: r => if b = signOf r then dropSign r else b :: r

variable {x : Int} {b c r : List UInt8} {t : UInt8}

theorem Fits.mono {j k : Nat} (h : Fits j x) (hle : j ≤ k) : Fits k x := by
  have hpow : (256 : Int) ^ j ≤ 256 ^ k := pow_le_pow_right₀ (by decide) hle
  unfold Fits at *
  omega

theorem Denotes.unique {y : Int} (hx : Denotes b x) (hy : Denotes b y) :
    x = y := by
  have hdvd : (256 : Int) ^ b.length ∣ x - y := by
    have h := dvd_sub hx.2 hy.2
    rwa [sub_sub_sub_cancel_right] at h
  have hlt : |x - y| < 256 ^ b.length := by
    obtain ⟨⟨hx₁,hx₂⟩,-⟩ := hx
    obtain ⟨⟨hy₁,hy₂⟩,-⟩ := hy
    rw [abs_lt]
    omega
  exact sub_eq_zero.mp (Int.eq_zero_of_abs_lt_dvd hdvd hlt)

theorem Denotes.eq_of_length (hb : Denotes b x) (hc : Denotes c x)
    (hlen : b.length = c.length) : b = c := by
  have hdvd : (256 : Int) ^ b.length ∣ (ofLeBytes b : Int) - ofLeBytes c := by
    have h := dvd_sub (hlen ▸ hc.2) hb.2
    rwa [sub_sub_sub_cancel_left] at h
  have hb' := Lib.ofLeBytes_lt b
  have hc' := Lib.ofLeBytes_lt c
  have hlt : |(ofLeBytes b : Int) - ofLeBytes c| < 256 ^ b.length := by
    rw [← hlen] at hc'
    zify at hb' hc'
    rw [abs_lt]
    omega
  have heq : ofLeBytes b = ofLeBytes c := by
    have h := Int.eq_zero_of_abs_lt_dvd hdvd hlt
    omega
  rw [← Lib.leBytes_ofLeBytes b,← Lib.leBytes_ofLeBytes c,heq,hlen]

theorem Shortest.length_le (hb : Shortest b x) (hc : Denotes c x) :
    b.length ≤ c.length := by
  by_contra hlt
  exact hb.2 c.length (by omega) hc.1
theorem Shortest.unique (hb : Shortest b x) (hc : Shortest c x) :
    b = c :=
  hb.1.eq_of_length hc.1 (Nat.le_antisymm (hb.length_le hc.1) (hc.length_le hb.1))

/-! ## The top byte -/

def signed (b : UInt8) : Int := if b < 0x80 then b.toNat else b.toNat - 256
theorem lt_sign_iff (b : UInt8) : b < 0x80 ↔ b.toNat < 128 := UInt8.lt_iff_toNat_lt

theorem and_sign (b : UInt8) : b &&& 0x80 ≠ 0 ↔ ¬ b < 0x80 := by
  have hall : ∀ n < 256, UInt8.ofNat n &&& 0x80 ≠ 0 ↔ ¬ UInt8.ofNat n < 0x80 := by decide +kernel
  have h := hall b.toNat b.toNat_lt
  rwa [UInt8.ofNat_toNat] at h

theorem signed_cases (b : UInt8) : -128 ≤ signed b ∧ signed b < 128 ∧ (b = 0 ↔ signed b = 0) ∧
    (b = 0xff ↔ signed b = -1) := by
  have hlt := b.toNat_lt
  have hzero : b = 0 ↔ b.toNat = 0 := UInt8.toNat_inj.symm
  have hones : b = 0xff ↔ b.toNat = 255 := UInt8.toNat_inj.symm
  rw [hzero,hones,signed]
  simp only [lt_sign_iff]
  split <;> omega

theorem decodeLong_concat (r : List UInt8) (b : UInt8) :
    decodeLong (r ++ [b]) = ofLeBytes r + 256 ^ r.length * signed b := by
  have hpow : (2 : Int) ^ (8 * (r ++ [b]).length) = 256 ^ r.length * 256 := by
    rw [pow_mul,List.length_append,List.length_singleton,pow_succ]
    rfl
  have htop : (r ++ [b]).getD ((r ++ [b]).length - 1) 0 = b := by simp
  have hval : (ofBytes true (r ++ [b]).reverse : Int) = ofLeBytes r + 256 ^ r.length * b.toNat := by
    rw [ofBytes,if_pos rfl,List.reverse_reverse,Lib.ofLeBytes_append]
    simp [ofLeBytes]
  rw [decodeLong,if_neg (by simp)]
  dsimp only
  rw [htop,hval,hpow,signed]
  by_cases hb : b < 0x80
  · rw [if_neg (fun h => (and_sign b).mp h hb),if_pos hb]
  · rw [if_pos ((and_sign b).mpr hb),if_neg hb]
    ring

theorem denotes_decodeLong (b : List UInt8) : Denotes b (decodeLong b) := by
  rcases List.eq_nil_or_concat b with rfl | ⟨r,t,rfl⟩
  · exact ⟨⟨by decide,by decide⟩,⟨0,rfl⟩⟩
  · have hlt := Lib.ofLeBytes_lt r
    have hpos : (0 : Int) < 256 ^ r.length := by positivity
    obtain ⟨hlo,hhi,-⟩ := signed_cases t
    have hmul₁ := Int.mul_le_mul_of_nonneg_left hlo hpos.le
    have hmul₂ := Int.mul_le_mul_of_nonneg_left (show signed t ≤ 127 by omega) hpos.le
    zify at hlt
    rw [List.concat_eq_append,decodeLong_concat]
    refine ⟨?_,?_⟩
    · rw [Fits,List.length_append,List.length_singleton,pow_succ]
      omega
    · rw [Lib.ofLeBytes_append,List.length_append,List.length_singleton,pow_succ]
      rw [signed]
      split
      · exact ⟨0,by simp [ofLeBytes]⟩
      · exact ⟨-1,by simp [ofLeBytes]; ring⟩

theorem Denotes.decode_eq (h : Denotes b x) : decodeLong b = x :=
  (denotes_decodeLong b).unique h

/-- The sign of bytes says in which half of their range the number is. -/
theorem signOf_reverse (r : List UInt8) :
    signOf r.reverse = if 2 * ofLeBytes r < 256 ^ r.length then 0 else 0xff := by
  rcases List.eq_nil_or_concat r with rfl | ⟨r,c,rfl⟩
  · rfl
  · have hlt := Lib.ofLeBytes_lt r
    have hiff : 2 * ofLeBytes (r ++ [c]) < 256 ^ (r ++ [c]).length ↔ c < 0x80 := by
      rw [Lib.ofLeBytes_append,List.length_append,List.length_singleton,pow_succ,
        show ofLeBytes [c] = c.toNat by simp [ofLeBytes],UInt8.lt_iff_toNat_lt]
      change _ ↔ c.toNat < 128
      constructor
      · intro h
        by_contra hge
        have hmul := Nat.mul_le_mul_left (256 ^ r.length) (show 128 ≤ c.toNat by omega)
        omega
      · intro h
        have hmul := Nat.mul_le_mul_left (256 ^ r.length) (show c.toNat ≤ 127 by omega)
        omega
    rw [List.concat_eq_append,List.reverse_append]
    exact (if_congr hiff rfl rfl).symm

theorem fits_concat (h : Denotes (r ++ [t]) x) :
    Fits r.length x ↔ t = signOf r.reverse := by
  have hx : x = ofLeBytes r + 256 ^ r.length * signed t := by
    rw [← h.decode_eq,decodeLong_concat]
  have hlt := Lib.ofLeBytes_lt r
  obtain ⟨-,-,hzero,hones⟩ := signed_cases t
  have hpos : (0 : Int) < 256 ^ r.length := by positivity
  have hhalf : 2 * ofLeBytes r < 256 ^ r.length ↔ 2 * (ofLeBytes r : Int) < 256 ^ r.length := by
    exact_mod_cast Iff.rfl
  zify at hlt
  have hbig := Int.mul_le_mul_of_nonneg_left (c := (256 : Int) ^ r.length) (a := 1) (b := signed t)
  have hsmall := Int.mul_le_mul_of_nonneg_left (c := (256 : Int) ^ r.length) (a := signed t) (b := -2)
  rw [signOf_reverse,Fits,hx]
  constructor
  · intro hfits
    have hone : signed t = 0 ∨ signed t = -1 := by omega
    split
    · rw [hzero]
      rcases hone with h | h <;> simp only [h] at hfits ⊢
      omega
    · rw [hones]
      rcases hone with h | h <;> simp only [h] at hfits ⊢
      omega
  · intro ht
    split at ht
    · rw [(hzero).mp ht]
      omega
    · rw [(hones).mp ht]
      omega

theorem Denotes.drop (h : Denotes (r ++ [t]) x)
    (ht : t = signOf r.reverse) : Denotes r x := by
  refine ⟨(fits_concat h).mpr ht,?_⟩
  rw [← h.decode_eq,decodeLong_concat]
  exact ⟨signed t,by ring⟩

/-! ## The shortest form -/

theorem shortest_of_not_fits (h : Denotes (r ++ [t]) x)
    (hnot : ¬ Fits r.length x) : Shortest (r ++ [t]) x := by
  refine ⟨h,?_⟩
  intro k hk hfits
  rw [List.length_append,List.length_singleton] at hk
  exact hnot (hfits.mono (by omega))

theorem shortest_dropSign (b : List UInt8) : ∀ x, Denotes b.reverse x →
    Shortest (dropSign b).reverse x := by
  induction b with
  | nil =>
    intro x h
    exact ⟨h,fun k hk => absurd hk (Nat.not_lt_zero k)⟩
  | cons t r ih =>
    intro x h
    rw [List.reverse_cons] at h
    rw [dropSign]
    split
    · rename_i ht
      exact ih x (h.drop (by rwa [List.reverse_reverse]))
    · rename_i ht
      rw [List.reverse_cons]
      apply shortest_of_not_fits h
      rwa [fits_concat h,List.reverse_reverse]

theorem size_bounds (hx : x ≠ 0) : (256 : Int) ^ (x.natAbs.size / 8) ≤ 2 * x.natAbs ∧
    2 * x.natAbs < (256 : Int) ^ (x.natAbs.size / 8 + 1) := by
  have hpos : 0 < x.natAbs.size := Nat.size_pos.mpr (Int.natAbs_pos.mpr hx)
  have hlow := Nat.lt_size.mp (show x.natAbs.size - 1 < x.natAbs.size by omega)
  have hhigh := Nat.lt_size_self x.natAbs
  have hpow (k : Nat) : 256 ^ k = 2 ^ (8 * k) := (pow_mul 2 8 k).symm
  have h₁ : 256 ^ (x.natAbs.size / 8) ≤ 2 ^ (x.natAbs.size - 1 + 1) := by
    rw [hpow]
    exact Nat.pow_le_pow_right (by decide) (by omega)
  have h₂ : 2 ^ (x.natAbs.size + 1) ≤ 256 ^ (x.natAbs.size / 8 + 1) := by
    rw [hpow]
    exact Nat.pow_le_pow_right (by decide) (by omega)
  rw [pow_succ] at h₁ h₂
  constructor
  · exact_mod_cast (by omega : 256 ^ (x.natAbs.size / 8) ≤ 2 * x.natAbs)
  · exact_mod_cast (by omega : 2 * x.natAbs < 256 ^ (x.natAbs.size / 8 + 1))

theorem denotes_leBytes {k : Nat} (h : Fits k x) :
    Denotes (leBytes k (if x < 0 then x + 256 ^ k else x).toNat) x := by
  have hpos : (0 : Int) < 256 ^ k := by positivity
  obtain ⟨hlow,hhigh⟩ := h
  rw [Denotes,Lib.length_leBytes,Lib.ofLeBytes_leBytes]
  refine ⟨⟨hlow,hhigh⟩,?_⟩
  by_cases hx : x < 0
  · rw [if_pos hx]
    have hlt : (x + 256 ^ k).toNat < 256 ^ k := by
      zify
      omega
    rw [Nat.mod_eq_of_lt hlt,Int.toNat_of_nonneg (by omega)]
    exact ⟨-1,by ring⟩
  · rw [if_neg hx]
    have hlt : x.toNat < 256 ^ k := by
      zify
      omega
    rw [Nat.mod_eq_of_lt hlt,Int.toNat_of_nonneg (by omega)]
    exact ⟨0,by ring⟩

theorem getD_concat (r : List UInt8) (t : UInt8) : (r ++ [t]).getD r.length 0 = t := by simp

theorem cut_iff (h : Denotes (r ++ [t]) x) (hx : x < 0) :
    1 < r.length + 1 ∧ t = 0xff ∧ (r ++ [t]).getD (r.length - 1) 0 &&& 0x80 ≠ 0 ↔
      t = signOf r.reverse := by
  rcases List.eq_nil_or_concat r with rfl | ⟨r,c,rfl⟩
  · have hne : t ≠ 0 := by
      rintro rfl
      have hzero : decodeLong ([] ++ [0]) = 0 := by decide
      have hdec := h.decode_eq
      omega
    simpa [signOf] using hne
  · rw [List.concat_eq_append] at *
    have hc : (r ++ [c] ++ [t]).getD ((r ++ [c]).length - 1) 0 = c := by simp
    have hsign : signOf (r ++ [c]).reverse = if c < 0x80 then 0 else 0xff := by simp [signOf]
    have hneg : t ≠ 0 := by
      rintro rfl
      have hdec := h.decode_eq
      rw [decodeLong_concat,(signed_cases 0).2.2.1.mp rfl] at hdec
      omega
    rw [hc,hsign,and_sign]
    by_cases hlt : c < 0x80
    · simp [hlt,hneg]
    · simp [hlt]

theorem shortest_encodeLong (x : Int) : Shortest (encodeLong x) x := by
  by_cases hx : x = 0
  · subst hx
    exact ⟨⟨⟨by decide,by decide⟩,⟨0,rfl⟩⟩,fun k hk => absurd hk (Nat.not_lt_zero k)⟩
  obtain ⟨hlow,hhigh⟩ := size_bounds hx
  rw [encodeLong,if_neg hx,Nat.shiftRight_eq_div_pow]
  change Shortest (let nbytes := x.natAbs.size / 8 + 1; _) x
  generalize x.natAbs.size / 8 = k at hlow hhigh
  have hden := denotes_leBytes (k := k + 1) (x := x) ⟨by omega,by omega⟩
  have hmod : (2 : Int) ^ (8 * (k + 1)) = 256 ^ (k + 1) := pow_mul 2 8 (k + 1)
  dsimp only
  rw [hmod]
  generalize hout : leBytes (k + 1) (if x < 0 then x + 256 ^ (k + 1) else x).toNat = out at hden
  have hlen : out.length = k + 1 := by rw [← hout,Lib.length_leBytes]
  obtain ⟨r,t,rfl⟩ : ∃ r t, out = r ++ [t] :=
    ⟨_,_,(List.dropLast_concat_getLast (List.ne_nil_of_length_eq_add_one hlen)).symm⟩
  obtain rfl : r.length = k := by simpa using hlen
  rw [Nat.add_sub_cancel,show r.length + 1 - 2 = r.length - 1 by omega,getD_concat,List.take_left]
  split
  · rename_i hcut
    obtain ⟨hneg,hcut⟩ := hcut
    have hr := hden.drop ((cut_iff hden hneg).mp hcut)
    refine ⟨hr,?_⟩
    intro j hj hfits
    have hstep := pow_le_pow_right₀ (show (1 : Int) ≤ 256 by decide) (show j + 1 ≤ r.length by omega)
    have hpos : (0 : Int) < 256 ^ j := by positivity
    rw [pow_succ] at hstep
    obtain ⟨h₁,h₂⟩ := hfits
    omega
  · rename_i hkeep
    apply shortest_of_not_fits hden
    intro hfits
    by_cases hneg : x < 0
    · exact hkeep ⟨hneg,(cut_iff hden hneg).mpr ((fits_concat hden).mp hfits)⟩
    · have hpos := hfits.2
      omega

/-- `encodeLong` gives the one shortest two's-complement form of a number, `decodeLong` the number
that bytes denote, and decoding and encoding again drops the bytes that only repeat the sign. -/
theorem longs_shortest :
    (∀ x : Int, Denotes (encodeLong x) x ∧ ∀ b, Denotes b x →
      (encodeLong x).length ≤ b.length ∧ (b.length = (encodeLong x).length → b = encodeLong x)) ∧
    encodeLong 0 = [] ∧ (∀ x : Int, decodeLong (encodeLong x) = x) ∧
    (∀ b x, Denotes b x ↔ decodeLong b = x) ∧
    ∀ b, encodeLong (decodeLong b) = (dropSign b.reverse).reverse := by
  refine ⟨?_,rfl,?_,?_,?_⟩
  · intro x
    have hx := shortest_encodeLong x
    exact ⟨hx.1,fun b hb => ⟨hx.length_le hb,fun hlen => hb.eq_of_length hx.1 hlen⟩⟩
  · intro x
    exact (shortest_encodeLong x).1.decode_eq
  · intro b x
    constructor
    · exact Denotes.decode_eq
    · rintro rfl
      exact denotes_decodeLong b
  · intro b
    apply (shortest_encodeLong _).unique
    apply shortest_dropSign
    rw [List.reverse_reverse]
    exact denotes_decodeLong b

example : encodeLong (-128) = [0x80] ∧ encodeLong 255 = [0xff, 0x00] ∧
    decodeLong [0x80, 0xff] = -128 := by decide +kernel

end Unagi.Objects
