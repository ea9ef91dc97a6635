import Mathlib.Data.List.Forall2
import Unagi.Lib.Except
import Unagi.Lib.Int64
import Unagi.Objects.Halt

/-! # The product iterator

`itertools.product` walks an odometer over its pools. The constructor reads the iterables anew for each
repetition, so that a later copy of a pool is whatever its iterable gives by then. -/

namespace Unagi.Runtime

open Objects

open Int64 (InRange wrap)

variable {σ α : Type} {pools : List (List α)} {pool : List α} {idx : List Nat}

/-- An iterable: what a reading of it by `materialize` gives in a state of the program, with the state
after it, or raises. -/
abbrev Source (σ α : Type) := σ → Except Halt (List α × σ)

def readPools : List (Source σ α) → σ → Except Halt (List (List α) × σ)
  | [], s => .ok ([], s)
  | src :: base, s => do
    let (pool, s) ← src s
    let (pools, s) ← readPools base s
    return (pool :: pools, s)
def readRounds (base : List (Source σ α)) : Nat → σ → Except Halt (List (List (List α)))
  | 0, _ => .ok []
  | n + 1, s => do
    let (pools, s) ← readPools base s
    let rounds ← readRounds base n s
    return pools :: rounds

/-- Room for this many pools: `make` panics when their headers, of 24 bytes each, exceed the address
space. -/
def makePools (cap : Int) : Except Halt Unit :=
  if 0 ≤ cap ∧ 24 * cap ≤ 2 ^ 48 then .ok () else .error .panic

structure ProductIter (α : Type) where
  pools : List (List α)
  idx : List Nat
  done : Bool

namespace ProductIter

def start (pools : List (List α)) : ProductIter α :=
  ⟨pools, List.replicate pools.length 0, pools.any List.isEmpty⟩

/-- The loop over the indices, from the last one on; it says whether it has passed the first one. -/
def advance : List (List α) → List Nat → List Nat × Bool
  | pool :: pools, i :: idx =>
    let (idx, passed) := advance pools idx
    if passed then if i + 1 < pool.length then ((i + 1) :: idx, false) else (0 :: idx, true)
    else (i :: idx, false)
  | _, _ => ([], true)

def row : List (List α) → List Nat → Except Halt (List α)
  | pool :: pools, i :: idx => do
    let x ← index pool i
    let xs ← row pools idx
    return x :: xs
  | _, _ => .ok []
def next (p : ProductIter α) : Except Halt (Option (List α × ProductIter α)) :=
  if p.done then .ok none
  else do
    let xs ← row p.pools p.idx
    let (idx, done) := advance p.pools p.idx
    return some (xs, { p with idx, done })

end ProductIter

def itertoolsProduct (s : σ) (base : List (Source σ α)) (times : Int) :
    Except Halt (ProductIter α) :=
  if ¬ InRange times then raise .overflowError "Python int too large to convert to C ssize_t"
  else if times < 0 then raise .valueError "repeat argument cannot be negative"
  else do
    makePools (wrap (base.length * times))
    let rounds ← readRounds base times.toNat s
    return .start rounds.flatten

/-- The rows that the calls of `Next` give until there is none. -/
inductive Yields : ProductIter α → List (List α) → Prop
  | done {p : ProductIter α} (h : p.next = .ok none) : Yields p []
  | more {p q : ProductIter α} {xs : List α} {rows : List (List α)} (h : p.next = .ok (some (xs, q)))
      (hrest : Yields q rows) : Yields p (xs :: rows)

/-- The tuples of the positions of pools of these sizes, the last one fastest. -/
def positions : List Nat → List (List Nat)
  | [] => [[]]
  | n :: ns => (List.range n).flatMap fun i => (positions ns).map (i :: ·)

/-- The rows of the pools at all positions. -/
def cartesian : List (List α) → List (List α)
  | [] => [[]]
  | pool :: pools => pool.flatMap fun x => (cartesian pools).map (x :: ·)

theorem mem_positions {ns : List Nat} : idx ∈ positions ns ↔ List.Forall₂ (· < ·) idx ns := by
  induction ns generalizing idx with
  | nil => simp [positions,List.forall₂_nil_right_iff]
  | cons n ns ih =>
    simp only [positions,List.mem_flatMap,List.mem_range,List.mem_map,ih]
    constructor
    · rintro ⟨i,hi,js,hjs,rfl⟩
      exact .cons hi hjs
    · rintro (_ | ⟨hi,hjs⟩)
      exact ⟨_,hi,_,hjs,rfl⟩

theorem positions_sorted (ns : List Nat) : (positions ns).Pairwise (· < ·) := by
  induction ns with
  | nil => simp [positions]
  | cons n ns ih =>
    rw [positions,List.pairwise_flatMap]
    refine ⟨fun i _ => ?_,List.pairwise_lt_range.imp fun {i j} hij xs hxs ys hys => ?_⟩
    · rw [List.pairwise_map]
      exact ih.imp fun h => List.cons_lt_cons_iff.mpr (.inr ⟨rfl,h⟩)
    · obtain ⟨js,-,rfl⟩ := List.mem_map.mp hxs
      obtain ⟨ks,-,rfl⟩ := List.mem_map.mp hys
      exact List.cons_lt_cons_iff.mpr (.inl hij)

theorem flatMap_range {β : Type} {f : α → List β} {g : Nat → List β} {xs : List α}
    (h : ∀ i x, xs[i]? = some x → g i = f x) : (List.range xs.length).flatMap g = xs.flatMap f := by
  have hmap : (List.range xs.length).map g = xs.map f := by
    apply List.ext_getElem (by simp)
    intro i _ hi
    have hi : i < xs.length := by simpa using hi
    simpa using h i xs[i] (List.getElem?_eq_getElem hi)
  rw [List.flatMap_def,hmap,← List.flatMap_def]

theorem ProductIter.row_cons {i : Nat} {x : α} (hx : pool[i]? = some x) :
    row (pool :: pools) (i :: idx) = (row pools idx).map (x :: ·) := by
  have hindex : index pool i = .ok x := by simp [index,hx]
  rw [row,hindex]
  cases row pools idx <;> rfl

theorem row_positions (pools : List (List α)) :
    (positions (pools.map List.length)).map (ProductIter.row pools) = (cartesian pools).map .ok := by
  induction pools with
  | nil => rfl
  | cons pool pools ih =>
    simp only [List.map_cons,positions,cartesian,List.map_flatMap,List.map_map]
    apply flatMap_range
    intro i x hx
    calc _ = ((positions (pools.map List.length)).map (ProductIter.row pools)).map
          (Except.map (x :: ·)) := by simp [Function.comp_def,ProductIter.row_cons hx]
      _ = _ := by rw [ih,List.map_map]; rfl

theorem cartesian_eq_nil : cartesian pools = [] ↔ [] ∈ pools := by
  induction pools with
  | nil => simp [cartesian]
  | cons pool pools ih =>
    cases pool with
    | nil => simp [cartesian]
    | cons x xs => simp +contextual [cartesian,ih]

/-! ## The odometer -/

namespace ProductIter

/-- The rows from these indices on. -/
def left : List (List α) → List Nat → List (List α)
  | pool :: pools, i :: idx =>
    match pool.drop i with
    | [] => []
    | x :: xs => (left pools idx).map (x :: ·) ++ cartesian (xs :: pools)
  | _, _ => [[]]

theorem left_zero (pools : List (List α)) : left pools (List.replicate pools.length 0) = cartesian pools := by
  induction pools with
  | nil => rfl
  | cons pool pools ih => cases pool <;> simp [left,cartesian,ih,List.replicate_succ]

theorem left_cons {i : Nat} (hi : i < pool.length) : left (pool :: pools) (i :: idx) =
      (left pools idx).map (pool[i] :: ·) ++ cartesian (pool.drop (i + 1) :: pools) := by
  rw [left,List.drop_eq_getElem_cons hi]
abbrev Within (pools : List (List α)) (idx : List Nat) : Prop :=
  List.Forall₂ (fun i (pool : List α) => i < pool.length) idx pools

theorem within_zero (h : Within pools idx) :
    Within pools (List.replicate pools.length 0) := by
  induction h with
  | nil => exact .nil
  | cons hi _ ih => exact .cons (Nat.zero_lt_of_lt hi) ih

/-- A step gives the first of the rows that are left and turns the indices to the next one. -/
theorem left_step (h : Within pools idx) :
    ∃ xs rows, row pools idx = .ok xs ∧ left pools idx = xs :: rows ∧
      if (advance pools idx).2 then rows = [] ∧ (advance pools idx).1 = List.replicate pools.length 0
      else rows = left pools (advance pools idx).1 ∧ Within pools (advance pools idx).1 := by
  induction h with
  | nil => exact ⟨[],[],rfl,rfl,rfl,rfl⟩
  | @cons i pool idx pools hi h ih =>
    obtain ⟨xs,rows,hrow,hleft,hadv⟩ := ih
    refine ⟨pool[i] :: xs,rows.map (pool[i] :: ·) ++ cartesian (pool.drop (i + 1) :: pools),
      ?_,?_,?_⟩
    · rw [row_cons (List.getElem?_eq_getElem hi),hrow]; rfl
    · rw [left_cons hi,hleft]; rfl
    rw [advance]
    by_cases hpassed : (advance pools idx).2
    · -- the later indices have all turned to zero, so that this one goes on
      simp only [hpassed,if_true] at hadv ⊢
      by_cases hlt : i + 1 < pool.length
      · simp only [hlt,if_true,Bool.false_eq_true,if_false]
        constructor
        · rw [left_cons hlt,hadv.1,hadv.2,left_zero,List.drop_eq_getElem_cons hlt]
          rfl
        · rw [hadv.2]
          exact .cons hlt (within_zero h)
      · simp only [hlt,if_false,if_true]
        rw [hadv.1,hadv.2,List.drop_eq_nil_of_le (Nat.le_of_not_lt hlt)]
        exact ⟨rfl,rfl⟩
    · simp only [hpassed,Bool.false_eq_true,if_false] at hadv ⊢
      exact ⟨by rw [left_cons hi,hadv.1],.cons hi hadv.2⟩

theorem yields_left (h : Within pools idx) :
    Yields ⟨pools, idx, false⟩ (left pools idx) := by
  -- induction on the rows that are left
  generalize hrows : left pools idx = rows
  induction rows generalizing idx with
  | nil =>
    obtain ⟨xs,rows,-,hleft,-⟩ := left_step h
    simp [hleft] at hrows
  | cons xs rows ih =>
    obtain ⟨ys,rest,hrow,hleft,hadv⟩ := left_step h
    obtain ⟨rfl,rfl⟩ := List.cons.inj (hleft.symm.trans hrows)
    apply Yields.more (q := ⟨pools,(advance pools idx).1,(advance pools idx).2⟩)
    · simp only [next,hrow]; rfl
    cases hpassed : (advance pools idx).2 with
    | true =>
      rw [hpassed,if_pos rfl] at hadv
      rw [hadv.1]
      exact .done rfl
    | false =>
      rw [hpassed,if_neg Bool.false_ne_true] at hadv
      exact ih hadv.2 hadv.1.symm

theorem yields_start (pools : List (List α)) : Yields (start pools) (cartesian pools) := by
  by_cases hempty : [] ∈ pools
  · rw [cartesian_eq_nil.mpr hempty]
    have hany : pools.any List.isEmpty := List.any_eq_true.mpr ⟨[],hempty,rfl⟩
    exact .done (by simp [next,start,hany])
  have hfull : ∀ pool ∈ pools, 0 < pool.length := fun pool hpool =>
    List.length_pos_iff.mpr fun h => hempty (h ▸ hpool)
  have hany : pools.any List.isEmpty = false :=
    List.any_eq_false.mpr fun pool hpool h =>
      Nat.ne_of_gt (hfull pool hpool) (List.length_eq_zero_iff.mpr (List.isEmpty_iff.mp h))
  rw [start,hany,← left_zero]
  apply yields_left
  clear hany hempty
  induction pools with
  | nil => exact .nil
  | cons pool pools ih =>
    rw [List.forall_mem_cons] at hfull
    exact .cons hfull.1 (ih hfull.2)

end ProductIter

theorem Yields.unique {p : ProductIter α} {rows rows' : List (List α)} (h : Yields p rows)
    (h' : Yields p rows') : rows = rows' := by
  induction h generalizing rows' with
  | done hnext =>
    cases h' with
    | done => rfl
    | more hnext' => simp [hnext] at hnext'
  | more hnext _ ih =>
    cases h' with
    | done hnext' => simp [hnext] at hnext'
    | more hnext' hrest' =>
      simp only [hnext,Except.ok.injEq,Option.some.injEq,Prod.mk.injEq] at hnext'
      obtain ⟨rfl,rfl⟩ := hnext'
      rw [ih hrest']

/-! ## The rounds -/

theorem cartesian_append (pools pools' : List (List α)) :
    cartesian (pools ++ pools') = (cartesian pools).flatMap fun r => (cartesian pools').map (r ++ ·) := by
  induction pools with
  | nil => simp [cartesian]
  | cons pool pools ih =>
    simp [cartesian,ih,List.flatMap_assoc,List.map_flatMap,List.flatMap_map,Function.comp_def]

/-- Rows in front of two lists of rows can be taken away. -/
theorem flatMap_append_cancel {rows rows₁ rows₂ : List (List α)} (hrows : rows ≠ [])
    (h : rows.flatMap (fun r => rows₁.map (r ++ ·)) = rows.flatMap fun r => rows₂.map (r ++ ·)) :
    rows₁ = rows₂ := by
  obtain ⟨r,rows,rfl⟩ := List.exists_cons_of_ne_nil hrows
  have hlength : rows₁.length = rows₂.length := by
    have hall := congrArg List.length h
    simp only [List.length_flatMap,List.length_map,List.map_const',List.sum_replicate_nat] at hall
    exact Nat.eq_of_mul_eq_mul_left (Nat.succ_pos _) hall
  rw [List.flatMap_cons,List.flatMap_cons] at h
  exact List.map_injective_iff.mpr (List.append_right_injective r)
    (List.append_inj_left h (by simp [hlength]))

variable {s s' : σ} {base : List (Source σ α)}

theorem itertoolsProduct_ok_iff {n : Nat} {p : ProductIter α} : itertoolsProduct s base n = .ok p ↔
    (n < 2 ^ 63 ∧ 0 ≤ wrap (base.length * n) ∧ 24 * wrap (base.length * n) ≤ 2 ^ 48) ∧
      ∃ rounds, readRounds base n s = .ok rounds ∧ .start rounds.flatten = p := by
  have hrange : InRange n ↔ n < 2 ^ 63 := by unfold InRange; omega
  unfold itertoolsProduct
  by_cases hn : n < 2 ^ 63
  · rw [if_neg (not_not.mpr (hrange.mpr hn)),if_neg (Int.not_lt.mpr (Int.natCast_nonneg n)),
      Except.bind_isOk_iff]
    simp only [makePools,Except.bind_isOk_iff,Int.toNat_natCast,pure,Except.pure,Except.ok.injEq]
    constructor
    · rintro ⟨u,hmake,hrounds⟩
      split at hmake
      · exact ⟨⟨hn,‹_›⟩,hrounds⟩
      · cases hmake
    · rintro ⟨⟨-,hroom⟩,hrounds⟩
      exact ⟨(),if_pos hroom,hrounds⟩
  · rw [if_pos (mt hrange.mp hn)]
    exact ⟨fun h => (by cases h),fun h => absurd h.1.1 hn⟩

theorem readRounds_succ_ok (hread : readPools base s = .ok (pools, s')) {n : Nat}
    {rounds : List (List (List α))} : readRounds base (n + 1) s = .ok rounds ↔
      ∃ later, readRounds base n s' = .ok later ∧ pools :: later = rounds := by
  simp only [readRounds,hread,Except.ok_bind,Except.bind_isOk_iff,pure,Except.pure,Except.ok.injEq]

/-- The iterator gives the rows of the pools of the first round, repeated, exactly if there is room for
the pools, every later round can be read, and the rows of the later rounds are those of as many copies of
the first, or that one has an empty pool. -/
theorem product_enumerates_iff (hread : readPools base s = .ok (pools, s')) (n : Nat) :
    (∀ pools : List (List α),
      (positions (pools.map List.length)).map (ProductIter.row pools) = (cartesian pools).map .ok ∧
      (cartesian pools = [] ↔ [] ∈ pools)) ∧
    (∀ ns, (positions ns).Pairwise (· < ·) ∧
      ∀ idx, idx ∈ positions ns ↔ List.Forall₂ (· < ·) idx ns) ∧
    ((∃ p, itertoolsProduct s base n = .ok p ∧ Yields p (cartesian (List.replicate n pools).flatten)) ↔
      (n < 2 ^ 63 ∧ 0 ≤ wrap (base.length * n) ∧ 24 * wrap (base.length * n) ≤ 2 ^ 48) ∧
      ∃ later, readRounds base (n - 1) s' = .ok later ∧
        ([] ∈ pools ∨ cartesian later.flatten = cartesian (List.replicate (n - 1) pools).flatten)) := by
  refine ⟨fun pools => ⟨row_positions pools,cartesian_eq_nil⟩,
    fun ns => ⟨positions_sorted ns,fun _ => mem_positions⟩,?_⟩
  have hrows (rounds : List (List (List α))) (rows : List (List α)) :
      Yields (.start rounds.flatten) rows ↔ rows = cartesian rounds.flatten :=
    ⟨fun h => h.unique (ProductIter.yields_start _),fun h => h ▸ ProductIter.yields_start _⟩
  constructor
  · rintro ⟨p,hp,hyields⟩
    obtain ⟨hroom,rounds,hrounds,rfl⟩ := itertoolsProduct_ok_iff.mp hp
    refine ⟨hroom,?_⟩
    cases n with
    | zero => exact ⟨[],rfl,.inr rfl⟩
    | succ n =>
      obtain ⟨later,hlater,rfl⟩ := (readRounds_succ_ok hread).mp hrounds
      refine ⟨later,hlater,or_iff_not_imp_left.mpr fun hfull => ?_⟩
      have hsame := ((hrows _ _).mp hyields).symm
      rw [List.replicate_succ,List.flatten_cons,List.flatten_cons,cartesian_append,
        cartesian_append] at hsame
      exact flatMap_append_cancel (mt cartesian_eq_nil.mp hfull) hsame
  · rintro ⟨hroom,later,hlater,hsame⟩
    cases n with
    | zero => exact ⟨_,itertoolsProduct_ok_iff.mpr ⟨hroom,[],rfl,rfl⟩,(hrows [] _).mpr rfl⟩
    | succ n =>
      rw [Nat.add_sub_cancel] at hlater hsame
      refine ⟨_,itertoolsProduct_ok_iff.mpr ⟨hroom,_,(readRounds_succ_ok hread).mpr ⟨later,hlater,rfl⟩,
        rfl⟩,(hrows _ _).mpr ?_⟩
      rw [List.replicate_succ,List.flatten_cons,List.flatten_cons,cartesian_append,cartesian_append]
      rcases hsame with hempty | hsame
      · rw [cartesian_eq_nil.mpr hempty]
        rfl
      · rw [hsame]

/-- A list and an iterator over its elements as they are left. -/
def listSource (xs : List α) : Source σ α := fun s => .ok (xs, s)
def iteratorSource : Source (List α) α := fun left => .ok (left, [])

/-- A list beside an iterator, which is read once. -/
theorem list_and_iterator_rows : ∃ p,
    itertoolsProduct [3, 4] [listSource [1, 2], iteratorSource] 1 = .ok p ∧
      Yields p [[1, 3], [1, 4], [2, 3], [2, 4]] := by
  have hread : readPools [listSource [1,2],iteratorSource] [3,4] = .ok ([[1,2],[3,4]], []) := rfl
  exact (product_enumerates_iff hread 1).2.2.mpr ⟨by decide,[],rfl,.inr rfl⟩

/-- The square of an iterator over 1 and 2 has four rows, of which none is given; and the square of an
iterable that can be read once only raises. -/
theorem later_reading_differs :
    (∃ p, itertoolsProduct [1, 2] [iteratorSource] 2 = .ok p ∧ Yields p []) ∧
    cartesian (List.replicate 2 [[1, 2]]).flatten = [[1, 1], [1, 2], [2, 1], [2, 2]] ∧
    itertoolsProduct false [fun read => if read then raise .valueError "closed" else .ok ([1], true)] 2 =
      raise .valueError "closed" :=
  ⟨⟨_,rfl,.done rfl⟩,by decide,rfl⟩

end Unagi.Runtime
