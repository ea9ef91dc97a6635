import Mathlib.Algebra.Order.Ring.Int
import Mathlib.Data.Nat.Choose.Basic
import Unagi.Objects.Halt

/-! # Counting functions of the math module

`comb` multiplies and divides in turn. After `i` turns the product is the binomial coefficient of `i`, so
that every division is exact. -/

namespace Unagi.Runtime

open Objects

/-- `result` after `steps` turns of the loop of `mathComb`; on what is not negative, `Div` of the big ints
is the division of Lean. -/
def combLoop (n : Int) : Nat → Int
  | 0 => 1
  | i + 1 => combLoop n i * (n - i) / (i + 1)

def mathComb (n k : Int) : Except Halt Int :=
  if n < 0 then raise .valueError "n must be a non-negative integer"
  else if k < 0 then raise .valueError "k must be a non-negative integer"
  else if n < k then .ok 0
  else
    let k := if n - k < k then n - k else k
    if k < 2 ^ 63 then .ok (combLoop n k.toNat)
    else raise .overflowError "min(n - k, k) must not exceed 9223372036854775807"

def permLoop (n : Int) : Nat → Int
  | 0 => 1
  | i + 1 => permLoop n i * (n - i)

/-- `MulRange(1, n)`. -/
def mulRange : Nat → Int
  | 0 => 1
  | n + 1 => mulRange n * (n + 1)

/-- `none` is a second argument that is absent or `None`. -/
def mathPerm (n : Int) : Option Int → Except Halt Int
  | none =>
    if n < 0 then raise .valueError "factorial() not defined for negative values"
    else if n < 2 ^ 63 then .ok (mulRange n.toNat)
    else raise .overflowError "factorial() argument should not exceed 9223372036854775807"
  | some k =>
    if n < 0 then raise .valueError "n must be a non-negative integer"
    else if k < 0 then raise .valueError "k must be a non-negative integer"
    else if n < k then .ok 0
    else if k < 2 ^ 63 then .ok (permLoop n k.toNat)
    else raise .overflowError "k must not exceed 9223372036854775807"

/-- The loop of `mathLcm` from a value of `l` on. -/
def lcmLoop (l : Int) : List Int → Int
  | [] => l
  | n :: ns => if n = 0 then 0 else lcmLoop (l / (Int.gcd l n : Int) * (n.natAbs : Int)) ns

def mathLcm (ints : List Int) : Int := lcmLoop 1 ints
theorem choose_mul_sub {n i : Nat} (hi : i ≤ n) :
    (n.choose i : Int) * (n - i) = n.choose (i + 1) * (i + 1) := by
  have h := Nat.choose_succ_right_eq n i
  rw [← Int.ofNat_sub hi]
  exact_mod_cast h.symm
theorem combLoop_eq {n i : Nat} (hi : i ≤ n) : combLoop n i = n.choose i := by
  induction i with
  | zero => simp [combLoop]
  | succ i ih =>
    rw [combLoop,ih (Nat.le_of_succ_le hi),choose_mul_sub (Nat.le_of_succ_le hi)]
    exact Int.mul_ediv_cancel _ (by omega)

theorem mathComb_eq {n k : Nat} (hsteps : min k (n - k) < 2 ^ 63) : mathComb n k = .ok (n.choose k) := by
  rw [mathComb,if_neg (by omega),if_neg (by omega)]
  by_cases hlt : n < k
  · rw [if_pos (by omega),Nat.choose_eq_zero_of_lt hlt]
    rfl
  · rw [if_neg (by omega)]
    -- the smaller of the two runs of factors gives the same coefficient
    have hmin : (if (n : Int) - k < k then (n : Int) - k else k) = (min k (n - k) : Nat) := by
      split_ifs <;> omega
    have hchoose : n.choose (min k (n - k)) = n.choose k := by
      rcases Nat.le_total k (n - k) with hle | hle
      · rw [Nat.min_eq_left hle]
      · rw [Nat.min_eq_right hle,Nat.choose_symm (Nat.le_of_not_lt hlt)]
    simp only [hmin]
    rw [if_pos (by exact_mod_cast hsteps),Int.toNat_natCast,combLoop_eq (by omega),hchoose]

theorem permLoop_eq {n i : Nat} (hi : i ≤ n) : permLoop n i = n.descFactorial i := by
  induction i with
  | zero => simp [permLoop]
  | succ i ih =>
    rw [permLoop,ih (Nat.le_of_succ_le hi),← Int.ofNat_sub (Nat.le_of_succ_le hi),
      Nat.descFactorial_succ,Int.mul_comm]
    exact_mod_cast rfl

theorem mulRange_eq (n : Nat) : mulRange n = n.factorial := by
  induction n with
  | zero => rfl
  | succ n ih =>
    rw [mulRange,ih,Nat.factorial_succ,Int.mul_comm]
    exact_mod_cast rfl
theorem lcm_step {l : Int} (hl : 0 ≤ l) (n : Int) :
    l / (Int.gcd l n : Int) * (n.natAbs : Int) = Int.lcm l n := by
  obtain ⟨a,rfl⟩ := Int.eq_ofNat_of_zero_le hl
  rw [Int.gcd,Int.lcm,Int.natAbs_natCast,Nat.lcm_eq_mul_div,← Int.natCast_ediv,← Int.natCast_mul]
  rw [Nat.div_mul_right_comm (Nat.gcd_dvd_left a n.natAbs)]

theorem lcmLoop_spec {l : Int} (hl : 0 ≤ l) (ns : List Int) :
    0 ≤ lcmLoop l ns ∧ ∀ m, lcmLoop l ns ∣ m ↔ l ∣ m ∧ ∀ n ∈ ns, n ∣ m := by
  induction ns generalizing l with
  | nil => exact ⟨hl,fun m => by simp [lcmLoop]⟩
  | cons n ns ih =>
    rw [lcmLoop]
    split_ifs with hn
    · refine ⟨le_rfl,fun m => ?_⟩
      rw [hn,Int.zero_dvd]
      constructor
      · rintro rfl
        exact ⟨Int.dvd_zero l,fun _ _ => Int.dvd_zero _⟩
      · rintro ⟨-,hall⟩
        exact Int.zero_dvd.mp (hall 0 List.mem_cons_self)
    · rw [lcm_step hl]
      obtain ⟨hpos,hdvd⟩ := ih (Int.natCast_nonneg (Int.lcm l n))
      refine ⟨hpos,fun m => ?_⟩
      rw [hdvd,Int.coe_lcm_dvd_iff,List.forall_mem_cons,and_assoc]

theorem mathLcm_perm {ns ns' : List Int} (h : ns.Perm ns') : mathLcm ns' = mathLcm ns := by
  obtain ⟨hpos,hdvd⟩ := lcmLoop_spec zero_le_one ns
  obtain ⟨hpos',hdvd'⟩ := lcmLoop_spec zero_le_one ns'
  have hiff (m : Int) : lcmLoop 1 ns' ∣ m ↔ lcmLoop 1 ns ∣ m := by
    rw [hdvd,hdvd']
    simp only [h.mem_iff]
  exact Int.dvd_antisymm hpos' hpos ((hiff _).mpr dvd_rfl) ((hiff _).mp dvd_rfl)

/-- `comb` is the binomial coefficient and divides without a rest, `perm` is the quotient of factorials,
and `lcm` is the least common multiple, in any order of its arguments. -/
theorem counting_functions_exact :
    (∀ n k : Nat, min k (n - k) < 2 ^ 63 → mathComb n k = .ok (n.choose k) ∧
      ∀ i < min k (n - k), (i + 1 : Int) ∣ combLoop n i * (n - i)) ∧
    (∀ n k : Nat, n < k → mathComb n k = .ok 0 ∧ mathPerm n (some k) = .ok 0) ∧
    (∀ n k : Nat, k ≤ n → k < 2 ^ 63 →
      mathPerm n (some k) = .ok (n.factorial / (n - k).factorial : Nat)) ∧
    (∀ n : Nat, n < 2 ^ 63 → mathPerm n none = .ok n.factorial) ∧
    (∀ n k : Int, n < 0 ∨ k < 0 → ∃ msg, mathComb n k = raise .valueError msg ∧
      mathPerm n (some k) = raise .valueError msg) ∧
    (∀ n : Int, n < 0 → ∃ msg, mathPerm n none = raise .valueError msg) ∧
    ∀ ns : List Int, 0 ≤ mathLcm ns ∧ (∀ m, mathLcm ns ∣ m ↔ ∀ n ∈ ns, n ∣ m) ∧
      (0 ∈ ns → mathLcm ns = 0) ∧ ∀ ns', ns.Perm ns' → mathLcm ns' = mathLcm ns := by
  refine ⟨fun n k hsteps => ⟨mathComb_eq hsteps,fun i hi => ?_⟩,fun n k hlt => ⟨?_,?_⟩,
    fun n k hle hk => ?_,fun n hn => ?_,fun n k hneg => ?_,fun n hn => ?_,fun ns => ?_⟩
  · rw [combLoop_eq (by omega),choose_mul_sub (by omega)]
    exact Dvd.intro_left _ rfl
  · rw [mathComb_eq (by omega),Nat.choose_eq_zero_of_lt hlt]
    rfl
  · rw [mathPerm,if_neg (by omega),if_neg (by omega),if_pos (by omega)]
  · rw [mathPerm,if_neg (by omega),if_neg (by omega),if_neg (by omega),if_pos (by exact_mod_cast hk),
      Int.toNat_natCast,permLoop_eq hle,Nat.descFactorial_eq_div hle]
  · rw [mathPerm,if_neg (by omega),if_pos (by exact_mod_cast hn),Int.toNat_natCast,mulRange_eq]
  · by_cases hn : n < 0
    · exact ⟨_,if_pos hn,if_pos hn⟩
    · have hk := hneg.resolve_left hn
      exact ⟨_,(if_neg hn).trans (if_pos hk),(if_neg hn).trans (if_pos hk)⟩
  · exact ⟨_,if_pos hn⟩
  · obtain ⟨hpos,hdvd⟩ := lcmLoop_spec zero_le_one ns
    have hiff (m : Int) : mathLcm ns ∣ m ↔ ∀ n ∈ ns, n ∣ m := by simp [mathLcm,hdvd]
    exact ⟨hpos,hiff,fun hzero => Int.zero_dvd.mp ((hiff _).mp dvd_rfl 0 hzero),
      fun _ hperm => mathLcm_perm hperm⟩

end Unagi.Runtime
