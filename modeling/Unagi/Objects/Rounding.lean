import Unagi.Objects.Float64
import Mathlib.Tactic.Linarith

/-! # Rounding of integers to doubles

The bits of a positive integer lie between two consecutive magnitudes, and the conversion takes the
nearer one, at a tie the even one. -/

namespace Unagi.Objects

namespace Float64

/-- The bits of the largest double that is not above a positive integer. -/
def floorBits (n : Nat) : Nat :=
  (n.log2 + 1023) * 2 ^ 52 + ((n >>> (n.log2 - 52)) <<< (52 - n.log2) - 2 ^ 52)

def roundsUp (n : Nat) : Prop :=
  n.log2 - 52 ≠ 0 ∧ (2 ^ (n.log2 - 52 - 1) < n % 2 ^ (n.log2 - 52) ∨
    n % 2 ^ (n.log2 - 52) = 2 ^ (n.log2 - 52 - 1) ∧ (n >>> (n.log2 - 52)) % 2 = 1)

/-- How far apart the two doubles around a positive integer are, in multiples of `2 ^ (-1074)`. -/
def ulp (n : Nat) : Nat := 2 ^ (n.log2 + 1022)

/-- How far a positive integer is above the lower of the two, in multiples of `2 ^ (-1074)`. -/
def excess (n : Nat) : Nat := n % 2 ^ (n.log2 - 52) * 2 ^ 1074

instance (n : Nat) : Decidable (roundsUp n) := inferInstanceAs (Decidable (_ ∧ _))

section
variable {n : Nat}

theorem significand_bounds (hn : 0 < n) :
    2 ^ 52 ≤ (n >>> (n.log2 - 52)) <<< (52 - n.log2) ∧
    (n >>> (n.log2 - 52)) <<< (52 - n.log2) < 2 ^ 53 := by
  have hlow : 2 ^ n.log2 ≤ n := Nat.log2_self_le (by omega)
  have hhigh : n < 2 ^ (n.log2 + 1) := Nat.lt_log2_self
  rw [Nat.shiftRight_eq_div_pow,Nat.shiftLeft_eq]
  generalize n.log2 = k at hlow hhigh
  rcases Nat.le_total k 52 with hk | hk
  · rw [Nat.sub_eq_zero_of_le hk,Nat.pow_zero,Nat.div_one]
    have h52 : 2 ^ k * 2 ^ (52 - k) = 2 ^ 52 := by
      rw [← Nat.pow_add,Nat.add_sub_cancel' hk]
    have h53 : 2 ^ (k + 1) * 2 ^ (52 - k) = 2 ^ 53 := by
      rw [← Nat.pow_add]
      congr 1
      omega
    constructor
    · rw [← h52]
      exact Nat.mul_le_mul_right _ hlow
    · rw [← h53]
      exact Nat.mul_lt_mul_of_pos_right hhigh (Nat.two_pow_pos _)
  · rw [Nat.sub_eq_zero_of_le hk,Nat.pow_zero,Nat.mul_one]
    constructor
    · rw [Nat.le_div_iff_mul_le (Nat.two_pow_pos _),← Nat.pow_add,Nat.add_sub_cancel' hk]
      exact hlow
    · rw [Nat.div_lt_iff_lt_mul (Nat.two_pow_pos _),← Nat.pow_add]
      have : 53 + (k - 52) = k + 1 := by omega
      rwa [this]

theorem magnitude_of_parts {e f : Nat} (hf : f ≤ 2 ^ 52) :
    magnitude ((e + 1) * 2 ^ 52 + f) = (2 ^ 52 + f) * 2 ^ e := by
  rcases Nat.lt_or_eq_of_le hf with hf | rfl
  · have hdiv : ((e + 1) * 2 ^ 52 + f) / 2 ^ 52 = e + 1 := by omega
    have hmod : ((e + 1) * 2 ^ 52 + f) % 2 ^ 52 = f := by omega
    rw [magnitude,hdiv,hmod,if_neg (Nat.succ_ne_zero e),Nat.add_sub_cancel]
  · have hdiv : ((e + 1) * 2 ^ 52 + 2 ^ 52) / 2 ^ 52 = e + 2 := by omega
    have hmod : ((e + 1) * 2 ^ 52 + 2 ^ 52) % 2 ^ 52 = 0 := by omega
    rw [magnitude,hdiv,hmod,if_neg (Nat.succ_ne_zero _),Nat.add_sub_assoc (by decide),
      Nat.add_zero,← Nat.mul_two,Nat.mul_assoc,← Nat.pow_succ']

theorem significand_split (c : Nat) :
    (n >>> (n.log2 - 52)) <<< (52 - n.log2) * 2 ^ (n.log2 + c) +
      n % 2 ^ (n.log2 - 52) * 2 ^ (52 + c) = n * 2 ^ (52 + c) := by
  rw [Nat.shiftRight_eq_div_pow,Nat.shiftLeft_eq]
  generalize n.log2 = k
  rcases Nat.le_total k 52 with hk | hk
  · rw [Nat.sub_eq_zero_of_le hk,Nat.pow_zero,Nat.div_one,Nat.mod_one,Nat.zero_mul,Nat.add_zero,
      Nat.mul_assoc,← Nat.pow_add]
    congr 2
    omega
  · have hunit : 2 ^ (k + c) = 2 ^ (k - 52) * 2 ^ (52 + c) := by
      rw [← Nat.pow_add]
      congr 1
      omega
    rw [Nat.sub_eq_zero_of_le hk,Nat.pow_zero,Nat.mul_one,hunit,← Nat.mul_assoc,← Nat.add_mul,
      Nat.mul_comm _ (2 ^ (k - 52)),Nat.div_add_mod]

theorem fraction_lt (hn : 0 < n) :
    (n >>> (n.log2 - 52)) <<< (52 - n.log2) - 2 ^ 52 + 1 ≤ 2 ^ 52 := by
  have hM := significand_bounds hn
  omega
theorem magnitude_floorBits (hn : 0 < n) :
    magnitude (floorBits n) = (n >>> (n.log2 - 52)) <<< (52 - n.log2) * ulp n := by
  have hf := Nat.le_of_succ_le (fraction_lt hn)
  have hparts := magnitude_of_parts (e := n.log2 + 1022) hf
  rw [Nat.add_sub_cancel' (significand_bounds hn).1] at hparts
  exact hparts
theorem magnitude_floorBits_succ (hn : 0 < n) :
    magnitude (floorBits n + 1) = magnitude (floorBits n) + ulp n := by
  have hbits : floorBits n = (n.log2 + 1022 + 1) * 2 ^ 52 +
      ((n >>> (n.log2 - 52)) <<< (52 - n.log2) - 2 ^ 52) := rfl
  rw [magnitude_floorBits hn,hbits,Nat.add_assoc,magnitude_of_parts (fraction_lt hn),
    ← Nat.add_assoc,Nat.add_sub_cancel' (significand_bounds hn).1,Nat.add_mul,Nat.one_mul,ulp]
theorem magnitude_add_excess (hn : 0 < n) :
    magnitude (floorBits n) + excess n = n * 2 ^ 1074 := by
  have hsplit := significand_split (n := n) 1022
  rwa [Nat.add_comm 52 1022,← ulp,← magnitude_floorBits hn] at hsplit

theorem excess_lt_ulp : excess n < ulp n := by
  rw [excess,ulp]
  rcases Nat.le_total n.log2 52 with hk | hk
  · rw [Nat.sub_eq_zero_of_le hk,Nat.pow_zero,Nat.mod_one,Nat.zero_mul]
    exact Nat.two_pow_pos _
  · rw [show n.log2 + 1022 = n.log2 - 52 + 1074 by omega,Nat.pow_add]
    exact Nat.mul_lt_mul_of_pos_right (Nat.mod_lt _ (Nat.two_pow_pos _)) (Nat.two_pow_pos _)

theorem roundsUp_iff (hn : 0 < n) :
    roundsUp n ↔ ulp n < 2 * excess n ∨ 2 * excess n = ulp n ∧ floorBits n % 2 = 1 := by
  have hbounds := significand_bounds hn
  rcases Nat.lt_or_ge 52 n.log2 with hk | hk
  · obtain ⟨s,hs⟩ : ∃ s, n.log2 = s + 1 + 52 := ⟨n.log2 - 53,by omega⟩
    have hulp : ulp n = 2 * (2 ^ s * 2 ^ 1074) := by
      rw [ulp,hs,← Nat.pow_add,← Nat.pow_succ']
    have hparity : floorBits n % 2 = (n >>> (s + 1)) % 2 := by
      have hnone : 52 - (s + 1 + 52) = 0 := Nat.sub_eq_zero_of_le (Nat.le_add_left 52 (s + 1))
      unfold floorBits
      rw [hs,Nat.add_sub_cancel,hnone,Nat.shiftLeft_zero] at hbounds ⊢
      generalize n >>> (s + 1) = q at hbounds ⊢
      omega
    have hunit : 0 < 2 ^ 1074 := Nat.two_pow_pos _
    rw [roundsUp,hparity,hulp,excess,hs,Nat.add_sub_cancel,Nat.add_sub_cancel,
      Nat.mul_lt_mul_left (by decide),Nat.mul_lt_mul_right hunit,Nat.mul_right_inj (by decide),
      Nat.mul_left_inj (Nat.ne_of_gt hunit)]
    exact and_iff_right (Nat.succ_ne_zero s)
  · have hs : n.log2 - 52 = 0 := Nat.sub_eq_zero_of_le hk
    have hexcess : excess n = 0 := by
      rw [excess,hs,Nat.pow_zero,Nat.mod_one,Nat.zero_mul]
    have hulp : 0 < ulp n := Nat.two_pow_pos _
    constructor
    · intro hup
      exact absurd hs hup.1
    · intro h
      omega

theorem floorBits_lt {n : Nat} (hn : 0 < n) (hsmall : n.log2 < 1023) :
    floorBits n + 1 ≤ 2046 * 2 ^ 52 := by
  have hf := fraction_lt hn
  unfold floorBits
  generalize (n >>> (n.log2 - 52)) <<< (52 - n.log2) - 2 ^ 52 = f at hf ⊢
  omega

theorem natBits_eq (hn : 0 < n) (hsmall : n.log2 < 1023) :
    natBits n = if roundsUp n then floorBits n + 1 else floorBits n := by
  have hlt := floorBits_lt hn hsmall
  have hbits : natBits n = min (floorBits n + if roundsUp n then 1 else 0) (2047 * 2 ^ 52) := by
    unfold floorBits
    rw [Nat.add_assoc]
    rfl
  rw [hbits]
  split <;> omega

theorem magnitude_le_or_ge (hn : 0 < n) (m : Nat) :
    magnitude m ≤ magnitude (floorBits n) ∨ magnitude (floorBits n) + ulp n ≤ magnitude m := by
  rcases Nat.lt_or_ge (floorBits n) m with h | h
  · right
    rw [← magnitude_floorBits_succ hn]
    exact magnitude_strictMono.monotone h
  · exact Or.inl (magnitude_strictMono.monotone h)

theorem ulp_lt_magnitude (hn : 0 < n) : ulp n < magnitude (floorBits n) := by
  rw [magnitude_floorBits hn]
  have hM := (significand_bounds hn).1
  have hu : 0 < ulp n := Nat.two_pow_pos _
  calc ulp n = 1 * ulp n := (Nat.one_mul _).symm
    _ < (n >>> (n.log2 - 52)) <<< (52 - n.log2) * ulp n := by
        apply Nat.mul_lt_mul_of_pos_right _ hu
        exact Nat.lt_of_lt_of_le (by decide) hM

theorem magnitude_natBits (hn : 0 < n) (hsmall : n.log2 < 1023) :
    magnitude (natBits n) = magnitude (floorBits n) + if roundsUp n then ulp n else 0 := by
  rw [natBits_eq hn hsmall]
  split
  · exact magnitude_floorBits_succ hn
  · exact (Nat.add_zero _).symm

theorem natBits_nearest (hn : 0 < n) (hsmall : n.log2 < 1023) {t : Int} {m : Nat}
    (ht : t = magnitude m ∨ t = -magnitude m) :
    ((magnitude (natBits n) : Int) - n * 2 ^ 1074).natAbs ≤ (t - n * 2 ^ 1074).natAbs := by
  have hx := magnitude_add_excess hn
  have hlt := excess_lt_ulp (n := n)
  have hu := ulp_lt_magnitude hn
  have hm := magnitude_le_or_ge hn m
  have hup := roundsUp_iff hn
  rw [magnitude_natBits hn hsmall]
  have hcast : ((n : Int) * 2 ^ 1074) = ((n * 2 ^ 1074 : Nat) : Int) := by push_cast; rfl
  rw [hcast]
  generalize n * 2 ^ 1074 = x at hx ⊢
  by_cases h : roundsUp n
  · rw [if_pos h]
    have hmiddle := hup.mp h
    omega
  · rw [if_neg h]
    have hmiddle := mt hup.mpr h
    omega

/-- A magnitude of either sign that is as near as the rounded one is its neighbour, and one of the two
has odd bits. -/
theorem natBits_tie (hn : 0 < n) (hsmall : n.log2 < 1023) {t : Int} {m : Nat}
    (ht : t = magnitude m ∨ t = -magnitude m)
    (hdist : (t - n * 2 ^ 1074).natAbs = ((magnitude (natBits n) : Int) - n * 2 ^ 1074).natAbs)
    (hne : t ≠ magnitude (natBits n)) : natBits n % 2 = 0 ∧ m % 2 = 1 := by
  have hx := magnitude_add_excess hn
  have hlt := excess_lt_ulp (n := n)
  have hu := ulp_lt_magnitude hn
  have hm := magnitude_le_or_ge hn m
  have hup := roundsUp_iff hn
  have hhigh := magnitude_floorBits_succ hn
  have hcast : ((n : Int) * 2 ^ 1074) = ((n * 2 ^ 1074 : Nat) : Int) := by push_cast; rfl
  rw [magnitude_natBits hn hsmall,hcast] at hdist
  rw [magnitude_natBits hn hsmall] at hne
  rw [natBits_eq hn hsmall]
  generalize n * 2 ^ 1074 = x at hx hdist
  by_cases h : roundsUp n
  · rw [if_pos h] at hdist hne ⊢
    have hmiddle := hup.mp h
    -- the other one is the lower double, and the tie went up from an odd one
    have hlow : magnitude m = magnitude (floorBits n) := by omega
    have hbits : m = floorBits n := magnitude_strictMono.injective hlow
    omega
  · rw [if_neg h] at hdist hne ⊢
    have hmiddle := mt hup.mpr h
    have htop : magnitude m = magnitude (floorBits n + 1) := by omega
    have hbits : m = floorBits n + 1 := magnitude_strictMono.injective htop
    omega

/-! ## The nearest double -/

section
variable {i : Int} {v w : Float64}

def isFinite (v : Float64) : Bool := exponent v ≠ 2047
def distance (i : Int) (v : Float64) : Nat := (scaled v - i * one).natAbs

/-- A double that an integer rounds to: none is nearer, and at a tie its bits are even. -/
structure IsNearest (i : Int) (v : Float64) : Prop where
  finite : v.isFinite = true
  nearest : ∀ w : Float64, w.isFinite = true → distance i v ≤ distance i w
  even : ∀ w : Float64, w.isFinite = true → distance i w = distance i v → scaled w ≠ scaled v →
    v.toNat % 2 = 0

theorem scaled_cases (v : Float64) :
    (v.toNat % 2 ^ 63 = v.toNat ∧ scaled v = magnitude (v.toNat % 2 ^ 63)) ∨
    (v.toNat % 2 ^ 63 + 2 ^ 63 = v.toNat ∧ scaled v = -magnitude (v.toNat % 2 ^ 63)) := by
  have hv := v.isLt
  have hmsb := v.msb_eq_decide
  unfold scaled
  by_cases hbig : 2 ^ 63 ≤ v.toNat
  · right
    rw [hmsb,decide_eq_true (by simpa using hbig),if_pos rfl]
    exact ⟨by omega,rfl⟩
  · left
    rw [hmsb,decide_eq_false (by simpa using hbig),if_neg (by decide)]
    exact ⟨by omega,rfl⟩

/-- A value with the sign of an integer taken off is a magnitude of either sign. -/
def unsigned (i t : Int) : Int := if i < 0 then -t else t

theorem unsigned_scaled (i : Int) (v : Float64) :
    unsigned i (scaled v) = magnitude (v.toNat % 2 ^ 63) ∨
    unsigned i (scaled v) = -magnitude (v.toNat % 2 ^ 63) := by
  unfold unsigned
  rcases scaled_cases v with ⟨-,h⟩ | ⟨-,h⟩ <;> rw [h] <;> split
  · exact Or.inr rfl
  · exact Or.inl rfl
  · exact Or.inl (Int.neg_neg _)
  · exact Or.inr rfl

theorem unsigned_injective (i : Int) : Function.Injective (unsigned i) := by
  intro s t h
  unfold unsigned at h
  split at h <;> omega

theorem distance_eq (i : Int) (v : Float64) :
    distance i v = (unsigned i (scaled v) - i.natAbs * 2 ^ 1074).natAbs := by
  unfold distance unsigned one
  generalize (2 : Int) ^ 1074 = z
  split
  · rw [show (i.natAbs : Int) = -i by omega,Int.neg_mul,← Int.neg_sub,Int.natAbs_neg]
    congr 1
    omega
  · rw [show (i.natAbs : Int) = i by omega]

theorem toNat_ofInt (hi : i ≠ 0) (hsmall : i.natAbs.log2 < 1023) :
    (ofInt i).toNat % 2 ^ 63 = natBits i.natAbs ∧
    unsigned i (scaled (ofInt i)) = magnitude (natBits i.natAbs) := by
  have hpos : 0 < i.natAbs := Int.natAbs_pos.mpr hi
  have hlt := floorBits_lt hpos hsmall
  have hbits : natBits i.natAbs < 2 ^ 63 := by
    rw [natBits_eq hpos hsmall]
    split <;> omega
  have htoNat : (ofInt i).toNat = natBits i.natAbs + if i < 0 then 2 ^ 63 else 0 := by
    rw [ofInt,if_neg hi,BitVec.toNat_ofNat,Nat.mod_eq_of_lt]
    split <;> omega
  generalize natBits i.natAbs = b at hbits htoNat ⊢
  have hmod : (ofInt i).toNat % 2 ^ 63 = b := by
    rw [htoNat]
    split <;> omega
  refine ⟨hmod,?_⟩
  unfold unsigned
  rcases scaled_cases (ofInt i) with ⟨hsign,h⟩ | ⟨hsign,h⟩ <;> rw [h,hmod] <;>
    rw [hmod] at hsign <;> split <;> rename_i hneg
  · rw [if_pos hneg] at htoNat
    omega
  · rfl
  · exact Int.neg_neg _
  · rw [if_neg hneg] at htoNat
    omega

theorem isFinite_ofInt (hi : i ≠ 0) (hsmall : i.natAbs.log2 < 1023) :
    (ofInt i).isFinite = true := by
  have hpos : 0 < i.natAbs := Int.natAbs_pos.mpr hi
  have hlt := floorBits_lt hpos hsmall
  have hbits : natBits i.natAbs ≤ 2046 * 2 ^ 52 := by
    rw [natBits_eq hpos hsmall]
    split <;> omega
  have hmod := (toNat_ofInt hi hsmall).1
  unfold isFinite exponent
  rw [decide_eq_true_eq]
  omega

theorem toNat_parity (v : Float64) : v.toNat % 2 = v.toNat % 2 ^ 63 % 2 := by
  omega

theorem ofInt_isNearest (hsmall : i.natAbs.log2 < 1023) : IsNearest i (ofInt i) := by
  by_cases hi : i = 0
  · subst hi
    have hzero : distance 0 (ofInt 0) = 0 := by decide +kernel
    exact ⟨by decide +kernel,fun w _ => by rw [hzero]; exact Nat.zero_le _,
      fun w _ _ _ => by decide +kernel⟩
  · have hpos : 0 < i.natAbs := Int.natAbs_pos.mpr hi
    have hbits := toNat_ofInt hi hsmall
    apply IsNearest.mk (isFinite_ofInt hi hsmall)
    · intro w hw
      rw [distance_eq,distance_eq,hbits.2]
      exact natBits_nearest hpos hsmall (unsigned_scaled i w)
    · intro w hw hdist hne
      rw [distance_eq,distance_eq,hbits.2] at hdist
      have hdiffer : unsigned i (scaled w) ≠ magnitude (natBits i.natAbs) := by
        rw [← hbits.2]
        exact fun h => hne (unsigned_injective i h)
      rw [toNat_parity,hbits.1]
      exact (natBits_tie hpos hsmall (unsigned_scaled i w) hdist hdiffer).1

theorem IsNearest.scaled_eq (hsmall : i.natAbs.log2 < 1023) (h : IsNearest i v) :
    scaled v = scaled (ofInt i) := by
  have hof := ofInt_isNearest hsmall
  have hdist : distance i v = distance i (ofInt i) :=
    Nat.le_antisymm (h.nearest _ hof.finite) (hof.nearest _ h.finite)
  by_contra hne
  by_cases hi : i = 0
  · subst hi
    have hzero : distance 0 (ofInt 0) = 0 := by decide +kernel
    have hscaled : scaled (ofInt 0) = 0 := by decide +kernel
    rw [hzero,distance,Int.zero_mul,Int.sub_zero,Int.natAbs_eq_zero] at hdist
    exact hne (hdist.trans hscaled.symm)
  · have hpos : 0 < i.natAbs := Int.natAbs_pos.mpr hi
    have hbits := toNat_ofInt hi hsmall
    have heven := h.even _ hof.finite hdist.symm (Ne.symm hne)
    rw [distance_eq,distance_eq,hbits.2] at hdist
    have hdiffer : unsigned i (scaled v) ≠ magnitude (natBits i.natAbs) := by
      rw [← hbits.2]
      exact fun h => hne (unsigned_injective i h)
    have hodd := (natBits_tie hpos hsmall (unsigned_scaled i v) hdist hdiffer).2
    rw [toNat_parity,hodd] at heven
    cases heven

theorem IsNearest.congr (h : IsNearest i w) (hv : v.isFinite = true) (heq : scaled v = scaled w) :
    IsNearest i v := by
  have hdist : distance i v = distance i w := by rw [distance,distance,heq]
  apply IsNearest.mk hv
  · intro u hu
    rw [hdist]
    exact h.nearest u hu
  · intro u hu htie hne
    rw [hdist] at htie
    rw [heq] at hne
    have heven := h.even u hu htie hne
    by_cases hzero : scaled v = 0
    · -- both zeros have even bits
      have hmag : magnitude (v.toNat % 2 ^ 63) = 0 := by
        rcases scaled_cases v with ⟨-,hs⟩ | ⟨-,hs⟩ <;> omega
      have hbits : v.toNat % 2 ^ 63 = 0 :=
        magnitude_strictMono.injective (hmag.trans (by rfl : 0 = magnitude 0))
      rw [toNat_parity,hbits]
    · rw [eq_of_scaled_eq heq hzero]
      exact heven

theorem IsNearest.order (h : IsNearest i w) (hv : v.isFinite = true) :
    (i * one < scaled v → scaled w ≤ scaled v) ∧ (scaled v < i * one → scaled v ≤ scaled w) ∧
    (scaled v = i * one → scaled w = scaled v) := by
  have hnear := h.nearest v hv
  unfold distance at hnear
  generalize i * one = x at hnear ⊢
  omega

theorem excess_eq_zero {n : Nat} (hn : n ≤ 2 ^ 53) : excess n = 0 := by
  have hmod : n % 2 ^ (n.log2 - 52) = 0 := by
    rcases Nat.lt_or_eq_of_le hn with hlt | rfl
    · by_cases h0 : n = 0
      · rw [h0,Nat.zero_mod]
      · have hlog := (Nat.log2_lt h0).mpr hlt
        rw [Nat.sub_eq_zero_of_le (by omega),Nat.pow_zero,Nat.mod_one]
    · decide
  rw [excess,hmod,Nat.zero_mul]

theorem scaled_ofInt (hi : i.natAbs ≤ 2 ^ 53) : scaled (ofInt i) = i * one := by
  by_cases h0 : i = 0
  · subst h0
    decide +kernel
  · have hpos : 0 < i.natAbs := Int.natAbs_pos.mpr h0
    have hlog : i.natAbs.log2 < 1023 := by
      have := (Nat.log2_lt (Nat.ne_of_gt hpos)).mpr (Nat.lt_of_le_of_lt hi (by decide : 2 ^ 53 < 2 ^ 54))
      omega
    have hx := magnitude_add_excess hpos
    have hulp : 0 < ulp i.natAbs := Nat.two_pow_pos _
    have hexact : ¬ roundsUp i.natAbs := by
      rw [roundsUp_iff hpos,excess_eq_zero hi]
      omega
    rw [excess_eq_zero hi,Nat.add_zero] at hx
    have hdist : distance i (ofInt i) = 0 := by
      rw [distance_eq,(toNat_ofInt h0 hlog).2,magnitude_natBits hpos hlog,if_neg hexact,
        Nat.add_zero,hx]
      push_cast
      rw [Int.sub_self,Int.natAbs_zero]
    unfold distance at hdist
    omega

end
end
end Float64
end Unagi.Objects
