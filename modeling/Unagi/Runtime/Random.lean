import Mathlib.Data.Nat.Digits.Defs
import Unagi.Objects.Halt

/-! # The Mersenne Twister

The state is a block of 624 words with a cursor. When the cursor has run off the end the block is
replaced in place, so that some words are read after they were replaced. -/

namespace Unagi.Runtime

open Objects (Halt raise)

abbrev Word := BitVec 32

def mtUpperMask : Word := 0x80000000
def mtLowerMask : Word := 0x7fffffff
def mtMatrixA : Word := 0x9908b0df

structure MtState where
  mt : Vector Word 624
  index : Nat
  index_le : index ≤ 624

namespace MtState

def mag01 (y : Word) : Word := if y &&& 1#32 = 0 then 0 else mtMatrixA
def word (mt : Vector Word 624) (k : Nat) : Word := mt[k]?.getD 0

/-- One turn of a regeneration loop: the word at `kk` from itself, the next one and the far one. -/
def turn (mt : Vector Word 624) (kk next far : Nat) : Vector Word 624 :=
  let y := (word mt kk &&& mtUpperMask) ||| (word mt next &&& mtLowerMask)
  mt.setIfInBounds kk (word mt far ^^^ (y >>> 1) ^^^ mag01 y)

def regenerate (mt : Vector Word 624) : Vector Word 624 :=
  let mt := (List.range' 0 227).foldl (fun mt kk => turn mt kk (kk + 1) (kk + 397)) mt
  let mt := (List.range' 227 396).foldl (fun mt kk => turn mt kk (kk + 1) (kk - 227)) mt
  turn mt 623 0 396
def temper (y : Word) : Word :=
  let y := y ^^^ (y >>> 11)
  let y := y ^^^ ((y <<< 7) &&& 0x9d2c5680)
  let y := y ^^^ ((y <<< 15) &&& 0xefc60000)
  y ^^^ (y >>> 18)
def genrandUint32 (s : MtState) : Word × MtState :=
  if h : s.index < 624 then (temper (word s.mt s.index), ⟨s.mt, s.index + 1, h⟩)
  else (temper (word (regenerate s.mt) 0), ⟨regenerate s.mt, 1, by decide⟩)
def draws : Nat → MtState → List Word × MtState
  | 0, s => ([], s)
  | n + 1, s =>
    let (y, s) := s.genrandUint32
    let (ys, s) := draws n s
    (y :: ys, s)

/-- The loop of `randomGetrandbits`. -/
def bitsLoop (s : MtState) (remaining shift result : Nat) : Nat × MtState :=
  if remaining = 0 then (result, s)
  else
    let take := min 32 remaining
    let (y, s) := s.genrandUint32
    let result := result ||| ((y >>> (32 - take)).toNat <<< shift)
    if remaining < 32 then (result, s) else bitsLoop s (remaining - 32) (shift + 32) result
termination_by remaining

def randomGetrandbits (s : MtState) (bits : Int) : Except Halt (Nat × MtState) :=
  if bits < 0 then raise .valueError "Cannot convert negative int"
  else if 2 ^ 64 ≤ bits then raise .overflowError "Python int too large for C uint64_t"
  else
    let k := bits.toNat
    if k = 0 then .ok (0, s)
    else if k ≤ 32 then
      let (y, s) := s.genrandUint32
      .ok ((y >>> (32 - k)).toNat, s)
    else .ok (s.bitsLoop k 0 0)

/-- The items of a state vector, with `none` for what is no integer. -/
def randomGetstate (s : MtState) : List (Option Int) :=
  s.mt.toList.map (fun w => some (w.toNat : Int)) ++ [some (s.index : Int)]

theorem toNat_le_of_valid {idx : Int} (h : ¬ (idx < 0 ∨ 624 < idx)) : idx.toNat ≤ 624 := by
  omega

def randomSetstate (state : List (Option Int)) : Except Halt MtState :=
  if state.length ≠ 625 then raise .valueError "state vector is the wrong size"
  else if (state.take 624).any Option.isNone then
    raise .valueError "state vector must contain integers"
  else
    match (state[624]?).join with
    | none => raise .valueError "state vector must contain integers"
    | some idx =>
      if idx < -2 ^ 63 ∨ 2 ^ 63 ≤ idx then raise .valueError "state vector must contain integers"
      else if h : idx < 0 ∨ 624 < idx then raise .valueError "invalid state"
      else .ok
        { mt := Vector.ofFn fun i => BitVec.ofInt 32 (((state[i]?).join).getD 0)
          index := idx.toNat
          index_le := toNat_le_of_valid h }

/-! ## The recurrence -/

/-- The upper bit of a word and the lower bits of the next one, multiplied by the matrix. -/
def twist (u v : Word) : Word :=
  (((u &&& mtUpperMask) ||| (v &&& mtLowerMask)) >>> 1) ^^^ (if v.getLsbD 0 then mtMatrixA else 0)

/-- The sequence that a block begins. -/
def stream (mt : Vector Word 624) (k : Nat) : Word :=
  if k < 624 then word mt k
  else stream mt (k - 227) ^^^ twist (stream mt (k - 624)) (stream mt (k - 623))
termination_by k

theorem stream_of_lt (mt : Vector Word 624) {k : Nat} (h : k < 624) : stream mt k = word mt k := by
  rw [stream,if_pos h]
theorem stream_add (mt : Vector Word 624) (k : Nat) :
    stream mt (k + 624) = stream mt (k + 397) ^^^ twist (stream mt k) (stream mt (k + 1)) := by
  rw [stream,if_neg (by omega),Nat.add_sub_cancel,show k + 624 - 227 = k + 397 by omega,
    show k + 624 - 623 = k + 1 by omega]

theorem mag01_eq (u v : Word) :
    mag01 ((u &&& mtUpperMask) ||| (v &&& mtLowerMask)) = if v.getLsbD 0 then mtMatrixA else 0 := by
  have hbit : ((u &&& mtUpperMask) ||| (v &&& mtLowerMask)).getLsbD 0 = v.getLsbD 0 := by
    have hupper : mtUpperMask.getLsbD 0 = false := by decide
    have hlower : mtLowerMask.getLsbD 0 = true := by decide
    rw [BitVec.getLsbD_or,BitVec.getLsbD_and,BitVec.getLsbD_and,hupper,hlower,Bool.and_false,
      Bool.false_or,Bool.and_true]
  have hone := BitVec.and_one_eq_setWidth_ofBool_getLsbD
    (x := (u &&& mtUpperMask) ||| (v &&& mtLowerMask))
  rw [hbit] at hone
  rw [mag01,hone]
  cases v.getLsbD 0 <;> rfl

/-- The first `n` words of a block are those of the next block of the sequence. -/
def Reached (x : Nat → Word) (base n : Nat) (mt : Vector Word 624) : Prop :=
  ∀ i < 624, word mt i = x (base + i + if i < n then 624 else 0)

section
variable {x : Nat → Word} {base n : Nat} {mt : Vector Word 624}

theorem word_setIfInBounds {k : Nat} (hk : k < 624) (y : Word) (i : Nat) :
    word (mt.setIfInBounds k y) i = if i = k then y else word mt i := by
  unfold word
  rw [Vector.getElem?_setIfInBounds]
  by_cases h : k = i
  · simp [h,h ▸ hk]
  · simp [h,Ne.symm h]

theorem turn_reached (hx : ∀ k, x (k + 624) = x (k + 397) ^^^ twist (x k) (x (k + 1)))
    (hn : n < 624) (h : Reached x base n mt) {next far : Nat}
    (hnext : word mt next = x (base + n + 1)) (hfar : word mt far = x (base + n + 397)) :
    Reached x base (n + 1) (turn mt n next far) := by
  intro i hi
  have hself : word mt n = x (base + n) := by simpa using h n hn
  rw [turn,word_setIfInBounds hn]
  split
  · rename_i heq
    rw [heq,if_pos (Nat.lt_succ_self n),hx,hfar,hnext,hself,mag01_eq,twist,BitVec.xor_assoc]
  · rename_i hne
    rw [h i hi]
    simp only [show i < n + 1 ↔ i < n by omega]

theorem foldl_reached (hx : ∀ k, x (k + 624) = x (k + 397) ^^^ twist (x k) (x (k + 1)))
    (far : Nat → Nat) (len : Nat) (hlen : n + len < 624)
    (hfar : ∀ kk mt, n ≤ kk → kk < n + len → Reached x base kk mt →
      word mt (far kk) = x (base + kk + 397)) (h : Reached x base n mt) :
    Reached x base (n + len)
      ((List.range' n len).foldl (fun mt kk => turn mt kk (kk + 1) (far kk)) mt) := by
  induction len generalizing n mt with
  | zero => exact h
  | succ len ih =>
    have hnext : word mt (n + 1) = x (base + n + 1) := by
      rw [h (n + 1) (by omega),if_neg (by omega),Nat.add_zero,Nat.add_assoc]
    rw [List.range'_succ,List.foldl_cons,Nat.add_comm len 1,← Nat.add_assoc]
    apply ih (by omega)
    · exact fun kk mt hle hlt => hfar kk mt (by omega) (by omega)
    · exact turn_reached hx (by omega) h hnext (hfar n mt le_rfl (by omega) h)

/-- The far word is an old one in the first loop and a new one in the second. -/
theorem regenerate_reached (hx : ∀ k, x (k + 624) = x (k + 397) ^^^ twist (x k) (x (k + 1)))
    (h : Reached x base 0 mt) : Reached x (base + 624) 0 (regenerate mt) := by
  have hfirst := foldl_reached hx (· + 397) 227 (by decide) (fun kk mt _ hlt hmt => by
    rw [hmt (kk + 397) (by omega),if_neg (by omega),Nat.add_zero,Nat.add_assoc]) h
  have hsecond := foldl_reached hx (· - 227) 396 (by decide) (fun kk mt hle hlt hmt => by
    rw [hmt (kk - 227) (by omega),if_pos (by omega)]
    exact congrArg x (by omega)) hfirst
  have hlast := turn_reached hx (by decide) hsecond (hsecond 0 (by decide)) (hsecond 396 (by decide))
  intro i hi
  rw [regenerate,hlast i hi,if_pos hi,if_neg (Nat.not_lt_zero i)]
  exact congrArg x (by omega)

/-- A state is at a position of the sequence. -/
def At (x : Nat → Word) (p : Nat) (s : MtState) : Prop :=
  ∃ base, p = base + s.index ∧ Reached x base 0 s.mt

theorem genrandUint32_at (hx : ∀ k, x (k + 624) = x (k + 397) ^^^ twist (x k) (x (k + 1)))
    {p : Nat} {s : MtState} (h : At x p s) :
    s.genrandUint32.1 = temper (x p) ∧ At x (p + 1) s.genrandUint32.2 := by
  obtain ⟨base,rfl,hmt⟩ := h
  unfold genrandUint32
  split
  · rename_i hlt
    exact ⟨by rw [hmt _ hlt,if_neg (Nat.not_lt_zero _)]; rfl,base,rfl,hmt⟩
  · rename_i hge
    have hindex : s.index = 624 := Nat.le_antisymm s.index_le (Nat.le_of_not_lt hge)
    have hnew := regenerate_reached hx hmt
    rw [hindex]
    exact ⟨by rw [hnew 0 (by decide)]; rfl,base + 624,rfl,hnew⟩

theorem draws_at (hx : ∀ k, x (k + 624) = x (k + 397) ^^^ twist (x k) (x (k + 1))) (len : Nat)
    {p : Nat} {s : MtState} (h : At x p s) :
    (draws len s).1 = (List.range' p len).map fun i => temper (x i) := by
  induction len generalizing p s with
  | zero => rfl
  | succ len ih =>
    obtain ⟨hword,hnext⟩ := genrandUint32_at hx h
    rw [draws,List.range'_succ,List.map_cons,← ih hnext,← hword]

end

/-! ## Bits and states -/

/-- The words that give `k` bits: outputs, the last one shifted down. -/
def bitWords : Nat → List Word → List Nat
  | _, [] => []
  | k, [y] => [(y >>> (32 - k)).toNat]
  | k, y :: ys => y.toNat :: bitWords (k - 32) ys

theorem shiftRight_lt (y : Word) {k : Nat} (hk : k ≤ 32) : (y >>> (32 - k)).toNat < 2 ^ k := by
  rw [BitVec.toNat_ushiftRight,Nat.shiftRight_eq_div_pow]
  apply Nat.div_lt_of_lt_mul
  rw [← Nat.pow_add,Nat.sub_add_cancel hk]
  exact y.isLt

theorem bitWords_cons {k : Nat} {ys : List Word} (hk : 32 ≤ k) (h : ys.length = (k - 32 + 31) / 32)
    (y : Word) : bitWords k (y :: ys) = y.toNat :: bitWords (k - 32) ys := by
  cases ys with
  | nil =>
    have hnone : 32 - k = 0 := Nat.sub_eq_zero_of_le hk
    simp [bitWords,hnone]
  | cons => rfl

theorem draws_one (s : MtState) : draws 1 s = ([s.genrandUint32.1], s.genrandUint32.2) := rfl
theorem length_draws (n : Nat) (s : MtState) : (draws n s).1.length = n := by
  induction n generalizing s with
  | zero => rfl
  | succ n ih => rw [draws,List.length_cons,ih]

theorem bitWords_lt (k : Nat) {ys : List Word} (h : ys.length = (k + 31) / 32) :
    Nat.ofDigits (2 ^ 32) (bitWords k ys) < 2 ^ k := by
  induction k using Nat.strongRecOn generalizing ys with
  | ind k ih =>
    cases ys with
    | nil => exact Nat.two_pow_pos k
    | cons y ys =>
      rw [List.length_cons] at h
      rcases Nat.lt_or_ge k 32 with hk | hk
      · rw [List.eq_nil_of_length_eq_zero (show ys.length = 0 by omega),bitWords,Nat.ofDigits_singleton]
        exact shiftRight_lt y (Nat.le_of_lt hk)
      · have hlater := ih (k - 32) (by omega) (show ys.length = (k - 32 + 31) / 32 by omega)
        rw [bitWords_cons hk (by omega),Nat.ofDigits_cons]
        have hy := y.isLt
        calc y.toNat + 2 ^ 32 * Nat.ofDigits (2 ^ 32) (bitWords (k - 32) ys)
            < 2 ^ 32 * (Nat.ofDigits (2 ^ 32) (bitWords (k - 32) ys) + 1) := by omega
          _ ≤ 2 ^ 32 * 2 ^ (k - 32) := Nat.mul_le_mul_left _ hlater
          _ = 2 ^ k := by rw [← Nat.pow_add,Nat.add_sub_cancel' hk]

theorem or_shiftLeft {result shift : Nat} (h : result < 2 ^ shift) (r : Nat) :
    result ||| (r <<< shift) = result + 2 ^ shift * r := by
  rw [Nat.or_comm,← Nat.shiftLeft_add_eq_or_of_lt h,Nat.shiftLeft_eq,Nat.add_comm,Nat.mul_comm]

theorem bitsLoop_eq (s : MtState) (k : Nat) {shift result : Nat} (h : result < 2 ^ shift) :
    s.bitsLoop k shift result =
      (result + 2 ^ shift * Nat.ofDigits (2 ^ 32) (bitWords k (draws ((k + 31) / 32) s).1),
        (draws ((k + 31) / 32) s).2) := by
  induction k using Nat.strongRecOn generalizing s shift result with
  | ind k ih =>
    rw [bitsLoop]
    split
    · rename_i hzero
      rw [hzero]
      rfl
    rename_i hpos
    rcases Nat.lt_or_ge k 32 with hk | hk
    · have hone : (k + 31) / 32 = 1 := by omega
      rw [Nat.min_eq_right (Nat.le_of_lt hk),hone,draws_one,bitWords,Nat.ofDigits_singleton]
      simp only [hk,if_true,or_shiftLeft h]
    · have hmore : (k + 31) / 32 = (k - 32 + 31) / 32 + 1 := by omega
      have hy := s.genrandUint32.1.isLt
      have hfull : result + 2 ^ shift * s.genrandUint32.1.toNat < 2 ^ (shift + 32) := by
        rw [Nat.pow_add]
        calc result + 2 ^ shift * s.genrandUint32.1.toNat
            < 2 ^ shift * (s.genrandUint32.1.toNat + 1) := by rw [Nat.mul_succ]; omega
          _ ≤ 2 ^ shift * 2 ^ 32 := Nat.mul_le_mul_left _ hy
      dsimp only
      rw [Nat.min_eq_left hk,Nat.sub_self,BitVec.ushiftRight_zero,hmore,draws,or_shiftLeft h]
      rw [if_neg (Nat.not_lt.mpr hk),ih (k - 32) (by omega) _ hfull,
        bitWords_cons hk (length_draws ..),Nat.ofDigits_cons,Nat.pow_add]
      congr 1
      ring

theorem randomGetrandbits_eq (s : MtState) (k : Fin (2 ^ 64)) :
    s.randomGetrandbits k.val =
      .ok (Nat.ofDigits (2 ^ 32) (bitWords k (draws ((k + 31) / 32) s).1),
        (draws ((k + 31) / 32) s).2) := by
  obtain ⟨k,hk⟩ := k
  have hloop := s.bitsLoop_eq k (Nat.two_pow_pos 0)
  rw [randomGetrandbits,if_neg (by omega),if_neg (by omega)]
  dsimp only
  rw [Int.toNat_natCast]
  split
  · rename_i hzero
    rw [hzero]
    rfl
  · split
    · have hone : (k + 31) / 32 = 1 := by omega
      rw [hone,draws_one,bitWords,Nat.ofDigits_singleton]
    · rw [hloop,Nat.pow_zero,Nat.one_mul,Nat.zero_add]

theorem randomSetstate_getstate (s : MtState) : randomSetstate s.randomGetstate = .ok s := by
  have hlen : s.mt.toList.length = 624 := s.mt.length_toList
  have htake : s.randomGetstate.take 624 = s.mt.toList.map fun w => some (w.toNat : Int) :=
    List.take_left' (by rw [List.length_map,hlen])
  have hlast : s.randomGetstate[624]? = some (some (s.index : Int)) := by
    rw [randomGetstate,List.getElem?_append_right (by rw [List.length_map,hlen]),List.length_map,
      hlen]
    rfl
  have hwords : (s.mt.toList.map fun w => some (w.toNat : Int)).any Option.isNone = false := by
    rw [List.any_eq_false]
    simp
  have hmt : (Vector.ofFn fun i : Fin 624 =>
      BitVec.ofInt 32 (((s.randomGetstate[i.val]?).join).getD 0)) = s.mt := by
    apply Vector.ext
    intro i hi
    rw [Vector.getElem_ofFn,randomGetstate,List.getElem?_append_left (by simp [hi])]
    simp [hi]
  have hindex := s.index_le
  rw [randomSetstate,if_neg (by simp [randomGetstate]),htake,hwords,hlast]
  simp only [Bool.false_eq_true,if_false,Option.join_some]
  rw [if_neg (by omega),dif_neg (by omega)]
  simp only [Fin.getElem?_fin,hmt,Int.toNat_natCast]

/-- The words before tempering continue the recurrence of the state, any number of blocks on; bits come
from as many outputs as they need, the low words first; and a state that was saved is restored. -/
theorem mersenne_twister_recurrence (s : MtState) :
    (∀ k < 624, stream s.mt k = word s.mt k) ∧
      (∀ k, stream s.mt (k + 624) =
        stream s.mt (k + 397) ^^^ twist (stream s.mt k) (stream s.mt (k + 1))) ∧
      (∀ n, (draws n s).1 = (List.range' s.index n).map fun i => temper (stream s.mt i)) ∧
      (∀ k : Fin (2 ^ 64),
        s.randomGetrandbits k.val =
          .ok (Nat.ofDigits (2 ^ 32) (bitWords k (draws ((k + 31) / 32) s).1),
            (draws ((k + 31) / 32) s).2) ∧
        Nat.ofDigits (2 ^ 32) (bitWords k (draws ((k + 31) / 32) s).1) < 2 ^ k.val) ∧
      randomSetstate s.randomGetstate = .ok s := by
  have hstart : At (stream s.mt) s.index s := by
    refine ⟨0,(Nat.zero_add _).symm,fun i hi => ?_⟩
    rw [if_neg (Nat.not_lt_zero i),Nat.add_zero,Nat.zero_add,stream_of_lt s.mt hi]
  exact ⟨fun k => stream_of_lt s.mt,stream_add s.mt,fun n => draws_at (stream_add s.mt) n hstart,
    fun k => ⟨s.randomGetrandbits_eq k,bitWords_lt k (length_draws ..)⟩,s.randomSetstate_getstate⟩

end MtState
end Unagi.Runtime
