import Mathlib.Data.List.Range
import Mathlib.Data.Nat.ModEq
import Unagi.Objects.PyHash

/-! # The slot order of a pickled set

`cpythonSetOrder` replays the insertions into a hash table. The probe sequence ends in a full cycle
through the slots once the hash is shifted out, so that every insertion finds a free slot, and the
walk over the table meets every element once. -/

namespace Unagi.Objects

def pickleSetMinSize : Nat := 8
def pickleSetLinearProbes : Nat := 9
def pickleSetPerturbShift : Nat := 5

/-- The slots; an empty one is -1 in the code. -/
abbrev SetTable := List (Option Nat)

def newPickleSetTable (size : Nat) : SetTable := List.replicate size none
def isFree (table : SetTable) (i : Nat) : Bool := table[i]? = some none

/-- The slot that the probe sequence ends in. The code computes in 64 bits; the mask keeps the low
ones of them, which do not depend on the others. -/
def probe (table : SetTable) (mask : Nat) : Nat → Nat → Nat → Option Nat
  | 0, _, _ => none
  | fuel + 1, i, perturb =>
    if isFree table i then some i
    else
      let near := if i + pickleSetLinearProbes ≤ mask then
        ((List.range pickleSetLinearProbes).map (i + 1 + ·)).find? (isFree table) else none
      match near with
      | some slot => some slot
      | none =>
        let perturb := perturb >>> pickleSetPerturbShift
        probe table mask fuel ((i * 5 + 1 + perturb) &&& mask) perturb

def pickleSetInsert (table : SetTable) (mask idx : Nat) (h : UInt64) : Option SetTable :=
  (probe table mask (14 + table.length) (h.toNat &&& mask) h.toNat).map fun slot =>
    table.set slot (some idx)
def grownSize (minused : Nat) : Nat → Nat → Nat
  | 0, size => size
  | fuel + 1, size => if size ≤ minused then grownSize minused fuel (size <<< 1) else size
def slotOrder (table : SetTable) : List Nat := table.filterMap id
def insertAll (hashes : List UInt64) (mask : Nat) (table : SetTable) (slots : List Nat) :
    Option SetTable :=
  slots.foldlM (fun table slot => pickleSetInsert table mask slot (hashes.getD slot 0)) table

/-- Insert an element, and grow the table once it is three fifths full. -/
def addIndex (hashes : List UInt64) (st : SetTable × Nat) (idx : Nat) : Option (SetTable × Nat) := do
  let (table, mask) := st
  let table ← pickleSetInsert table mask idx (hashes.getD idx 0)
  let fill := idx + 1
  if fill * 5 ≥ mask * 3 then
    let minused := if fill > 50000 then fill * 2 else fill * 4
    let newSize := grownSize minused (minused + 1) pickleSetMinSize
    return (← insertAll hashes (newSize - 1) (newPickleSetTable newSize) (slotOrder table), newSize - 1)
  else return (table, mask)

def setOrder (hashes : List UInt64) : Option (List Nat) := do
  let st ← (List.range hashes.length).foldlM (addIndex hashes)
    (newPickleSetTable pickleSetMinSize, pickleSetMinSize - 1)
  return slotOrder st.1

/-- The indices of the elements in the order of the slots, if all elements have a hash. -/
def cpythonSetOrder (elts : List Object) : Except Python.Exc (Option (List Nat)) :=
  (pyHashes elts).map setOrder

/-! ## The probe sequence -/

def jump (i : Nat) : Nat := i * 5 + 1

/-- `2 ^ k` jumps are affine and move a slot by `2 ^ k`, up to multiples of `2 ^ (k + 1)`. -/
theorem jump_two_pow (k : Nat) : ∃ a b, ∀ x,
    jump^[2 ^ k] x = x + 2 ^ (k + 2) * a * x + 2 ^ k * (1 + 2 * b) := by
  induction k with
  | zero =>
    refine ⟨1,0,fun x => ?_⟩
    rw [Nat.pow_zero,Function.iterate_one,jump]
    ring
  | succ k ih =>
    obtain ⟨a,b,h⟩ := ih
    refine ⟨a + 2 ^ (k + 1) * a * a,b + 2 ^ k * a * (1 + 2 * b),fun x => ?_⟩
    rw [Nat.pow_succ,Nat.mul_two,Function.iterate_add_apply,h,h]
    ring

theorem exists_jumps (k i f : Nat) : ∃ m < 2 ^ k, jump^[m] i ≡ f [MOD 2 ^ k] := by
  induction k with
  | zero => exact ⟨0,Nat.one_pos,Nat.modEq_one⟩
  | succ k ih =>
    obtain ⟨m,hm,hmod⟩ := ih
    obtain ⟨a,b,hjump⟩ := jump_two_pow k
    have hsplit : ∀ y, y ≡ f [MOD 2 ^ k] → y / 2 ^ k % 2 = f / 2 ^ k % 2 →
        y ≡ f [MOD 2 ^ (k + 1)] := by
      intro y hy hbit
      rw [Nat.ModEq,Nat.pow_succ,Nat.mod_mul,Nat.mod_mul,hy,hbit]
    rw [Nat.pow_succ]
    by_cases hbit : jump^[m] i / 2 ^ k % 2 = f / 2 ^ k % 2
    · exact ⟨m,by omega,hsplit _ hmod hbit⟩
    · refine ⟨2 ^ k + m,by omega,hsplit _ ?_ ?_⟩
      all_goals rw [Function.iterate_add_apply,hjump]
      all_goals generalize jump^[m] i = y at hmod hbit
      all_goals rw [show y + 2 ^ (k + 2) * a * y + 2 ^ k * (1 + 2 * b) =
        y + 2 ^ k * (2 * (2 * a * y + b) + 1) by ring]
      · exact (Nat.add_mul_mod_self_left _ _ _).trans hmod
      · rw [Nat.add_mul_div_left _ _ (Nat.two_pow_pos k)]
        omega

def nextPlace (mask : Nat) (s : Nat × Nat) : Nat × Nat :=
  let perturb := s.2 >>> pickleSetPerturbShift
  ((s.1 * 5 + 1 + perturb) &&& mask, perturb)

theorem nextPlace_iterate_snd (mask : Nat) (s : Nat × Nat) (n : Nat) :
    ((nextPlace mask)^[n] s).2 = s.2 >>> (5 * n) := by
  induction n with
  | zero => rfl
  | succ n ih =>
    rw [Function.iterate_succ_apply',nextPlace,ih]
    exact (Nat.shiftRight_add _ _ _).symm

theorem nextPlace_iterate_zero (k i m : Nat) (hi : i < 2 ^ k) :
    (nextPlace (2 ^ k - 1))^[m] (i, 0) = (jump^[m] i % 2 ^ k, 0) := by
  induction m with
  | zero => rw [Function.iterate_zero_apply,Function.iterate_zero_apply,Nat.mod_eq_of_lt hi]
  | succ m ih =>
    rw [Function.iterate_succ_apply',Function.iterate_succ_apply',ih,nextPlace,Nat.zero_shiftRight,
      Nat.and_two_pow_sub_one_eq_mod,Nat.add_zero]
    exact congrArg (·, 0) (((Nat.mod_modEq _ _).mul_right 5).add_right 1)

theorem exists_nextPlace (k i f : Nat) (h : UInt64) (hf : f < 2 ^ k) :
    ∃ n < 14 + 2 ^ k, ((nextPlace (2 ^ k - 1))^[n] (i, h.toNat)).1 = f := by
  have hout : ((nextPlace (2 ^ k - 1))^[13] (i, h.toNat)).2 = 0 := by
    rw [nextPlace_iterate_snd]
    exact Nat.shiftRight_eq_zero _ _ (Nat.lt_of_lt_of_le h.toNat_lt (by decide))
  have hin : ((nextPlace (2 ^ k - 1))^[13] (i, h.toNat)).1 < 2 ^ k := by
    rw [Function.iterate_succ_apply',nextPlace,Nat.and_two_pow_sub_one_eq_mod]
    exact Nat.mod_lt _ (Nat.two_pow_pos k)
  obtain ⟨m,hm,hmod⟩ := exists_jumps k ((nextPlace (2 ^ k - 1))^[13] (i, h.toNat)).1 f
  refine ⟨m + 13,by omega,?_⟩
  rw [Function.iterate_add_apply,← Prod.mk.eta (p := (nextPlace (2 ^ k - 1))^[13] (i,h.toNat)),hout,
    nextPlace_iterate_zero k _ m hin]
  exact Eq.trans hmod (Nat.mod_eq_of_lt hf)

variable {table : SetTable} {k : Nat}

theorem probe_of_meets {mask fuel i perturb n : Nat} (hn : n < fuel)
    (h : isFree table ((nextPlace mask)^[n] (i, perturb)).1 = true) :
    ∃ slot, probe table mask fuel i perturb = some slot ∧ isFree table slot = true := by
  induction fuel generalizing i perturb n with
  | zero => exact absurd hn (Nat.not_lt_zero n)
  | succ fuel ih =>
    rw [probe]
    split
    · rename_i hfree
      exact ⟨i,rfl,hfree⟩
    · rename_i hfull
      cases n with
      | zero => exact absurd h hfull
      | succ n =>
        dsimp only
        split
        · rename_i slot hnear
          split at hnear
          · exact ⟨slot,rfl,List.find?_some hnear⟩
          · exact absurd hnear (by simp)
        · exact ih (Nat.lt_of_succ_lt_succ hn) h

theorem exists_isFree (h : (slotOrder table).length < table.length) :
    ∃ f < table.length, isFree table f = true := by
  induction table with
  | nil => exact absurd h (Nat.lt_irrefl 0)
  | cons slot table ih =>
    cases slot with
    | none => exact ⟨0,Nat.succ_pos _,rfl⟩
    | some idx =>
      obtain ⟨f,hlt,hfree⟩ := ih (Nat.lt_of_succ_lt_succ h)
      exact ⟨f + 1,Nat.succ_lt_succ hlt,hfree⟩

theorem pickleSetInsert_finds (hlen : table.length = 2 ^ k)
    (hroom : (slotOrder table).length < 2 ^ k) (idx : Nat) (h : UInt64) : ∃ slot,
    isFree table slot = true ∧
      pickleSetInsert table (2 ^ k - 1) idx h = some (table.set slot (some idx)) := by
  obtain ⟨f,hf,hfree⟩ := exists_isFree (hlen ▸ hroom)
  obtain ⟨n,hn,hmeets⟩ := exists_nextPlace k (h.toNat &&& (2 ^ k - 1)) f h (hlen ▸ hf)
  obtain ⟨slot,hprobe,hslot⟩ := probe_of_meets (hlen.symm ▸ hn) (hmeets.symm ▸ hfree)
  exact ⟨slot,hslot,by rw [pickleSetInsert,hprobe]; rfl⟩

theorem slotOrder_set {slot : Nat} (h : isFree table slot = true) (idx : Nat) :
    (slotOrder (table.set slot (some idx))).Perm (idx :: slotOrder table) := by
  induction table generalizing slot with
  | nil => exact absurd h (by simp [isFree])
  | cons head table ih =>
    cases slot with
    | zero =>
      have hhead : head = none := by simpa [isFree] using h
      rw [hhead]
      exact List.Perm.refl _
    | succ slot =>
      have hrest := @ih slot h
      cases head with
      | none => exact hrest
      | some other => exact (hrest.cons other).trans (List.Perm.swap idx other _)

/-- A table of `2 ^ k` slots that holds the elements of a list. -/
structure Holds (k : Nat) (table : SetTable) (held : List Nat) : Prop where
  length_eq : table.length = 2 ^ k
  perm : (slotOrder table).Perm held

theorem Holds.insert {held : List Nat} (hholds : Holds k table held)
    (hroom : held.length < 2 ^ k) (idx : Nat) (h : UInt64) :
    ∃ next, pickleSetInsert table (2 ^ k - 1) idx h = some next ∧ Holds k next (idx :: held) := by
  obtain ⟨slot,hfree,heq⟩ :=
    pickleSetInsert_finds hholds.length_eq (hholds.perm.length_eq ▸ hroom) idx h
  refine ⟨_,heq,?_,?_⟩
  · rw [List.length_set,hholds.length_eq]
  · exact (slotOrder_set hfree idx).trans (hholds.perm.cons idx)

theorem Holds.insertAll {held : List Nat} (hholds : Holds k table held)
    (hashes : List UInt64) (slots : List Nat) (hroom : slots.length + held.length ≤ 2 ^ k) :
    ∃ next, insertAll hashes (2 ^ k - 1) table slots = some next ∧
      Holds k next (slots.reverse ++ held) := by
  induction slots generalizing table held with
  | nil => exact ⟨table,rfl,hholds⟩
  | cons slot slots ih =>
    rw [List.length_cons] at hroom
    obtain ⟨table',heq,hholds'⟩ := hholds.insert (by omega) slot (hashes.getD slot 0)
    obtain ⟨next,hall,hnext⟩ := ih hholds' (by rw [List.length_cons]; omega)
    refine ⟨next,?_,?_⟩
    · rw [Objects.insertAll,List.foldlM_cons,heq]
      exact hall
    · rw [List.reverse_cons,List.append_assoc]
      exact hnext

theorem holds_newPickleSetTable (k : Nat) : Holds k (newPickleSetTable (2 ^ k)) [] where
  length_eq := List.length_replicate
  perm := by
    rw [newPickleSetTable,slotOrder,List.filterMap_replicate_of_none rfl]

/-! ## The replay -/

theorem grownSize_eq (minused fuel j : Nat) (hfuel : minused < 2 ^ j + fuel) :
    ∃ k, grownSize minused fuel (2 ^ j) = 2 ^ k ∧ minused < 2 ^ k := by
  induction fuel generalizing j with
  | zero => exact ⟨j,rfl,hfuel⟩
  | succ fuel ih =>
    rw [grownSize]
    split
    · have hpos := Nat.two_pow_pos j
      rw [Nat.shiftLeft_eq,← Nat.pow_add]
      exact ih (j + 1) (by rw [Nat.pow_succ]; omega)
    · exact ⟨j,rfl,by omega⟩

/-- What holds after the insertion of `fill` elements: the table is less than three fifths full. -/
def Replayed (st : SetTable × Nat) (fill : Nat) : Prop :=
  ∃ k, st.2 = 2 ^ k - 1 ∧ Holds k st.1 (List.range fill).reverse ∧ fill * 5 < (2 ^ k - 1) * 3

theorem Replayed.addIndex {st : SetTable × Nat} {idx : Nat} (hst : Replayed st idx)
    (hashes : List UInt64) : ∃ next, addIndex hashes st idx = some next ∧ Replayed next (idx + 1) := by
  obtain ⟨table,mask⟩ := st
  obtain ⟨k,rfl,hholds,hload⟩ := hst
  have hpos := Nat.two_pow_pos k
  obtain ⟨table',heq,hholds'⟩ := hholds.insert
    (by rw [List.length_reverse,List.length_range]; omega) idx (hashes.getD idx 0)
  have hrange : idx :: (List.range idx).reverse = (List.range (idx + 1)).reverse := by
    rw [List.range_succ,List.reverse_append]
    rfl
  rw [hrange] at hholds'
  simp only [Objects.addIndex,heq,Option.bind_eq_bind,Option.bind_some]
  split
  · generalize hused : (if idx + 1 > 50000 then (idx + 1) * 2 else (idx + 1) * 4) = minused
    have hmin : 2 * (idx + 1) ≤ minused := by split at hused <;> omega
    obtain ⟨j,hsize,hbig⟩ := grownSize_eq minused (minused + 1) 3 (by omega)
    have hslots : (slotOrder table').length = idx + 1 := by
      rw [hholds'.perm.length_eq,List.length_reverse,List.length_range]
    obtain ⟨next,hall,hnext⟩ := (holds_newPickleSetTable j).insertAll hashes (slotOrder table')
      (by rw [hslots,List.length_nil]; omega)
    rw [show pickleSetMinSize = 2 ^ 3 from rfl,hsize,hall]
    refine ⟨_,rfl,j,rfl,⟨hnext.length_eq,hnext.perm.trans ?_⟩,by omega⟩
    rw [List.append_nil]
    exact (List.reverse_perm _).trans hholds'.perm
  · exact ⟨_,rfl,k,rfl,hholds',by omega⟩

theorem exists_replayed (hashes : List UInt64) (n : Nat) : ∃ st, (List.range n).foldlM
    (addIndex hashes) (newPickleSetTable pickleSetMinSize, pickleSetMinSize - 1) = some st ∧
      Replayed st n := by
  induction n with
  | zero => exact ⟨_,rfl,3,rfl,holds_newPickleSetTable 3,by decide⟩
  | succ n ih =>
    obtain ⟨st,hrun,hst⟩ := ih
    obtain ⟨next,hadd,hnext⟩ := hst.addIndex hashes
    refine ⟨next,?_,hnext⟩
    rw [List.range_succ,List.foldlM_append,hrun,Option.bind_eq_bind,Option.bind_some,
      List.foldlM_cons,hadd]
    rfl

theorem length_pyHashes {elts : List Object} {hashes : List UInt64} (h : pyHashes elts = .ok hashes) :
    hashes.length = elts.length := by
  induction elts generalizing hashes with
  | nil =>
    cases h
    rfl
  | cons elt elts ih =>
    rw [pyHashes] at h
    cases hhead : pyHash elt with
    | error e => simp [hhead] at h
    | ok head =>
      cases htail : pyHashes elts with
      | error e => simp [hhead,htail] at h
      | ok tail =>
        simp only [hhead,htail] at h
        cases h
        exact congrArg Nat.succ (ih htail)

theorem setOrder_perm (hashes : List UInt64) :
    ∃ order, setOrder hashes = some order ∧ order.Perm (List.range hashes.length) := by
  obtain ⟨st,hrun,k,hmask,hholds,hload⟩ := exists_replayed hashes hashes.length
  refine ⟨slotOrder st.1,?_,hholds.perm.trans (List.reverse_perm _)⟩
  rw [setOrder,hrun]
  rfl

/-- Every insertion into a table that is not full finds a free slot, and the order of the slots is a
permutation of the elements: for all hashes, and for all elements that have one. -/
theorem slot_replay_permutes :
    (∀ k table idx h, table.length = 2 ^ k → (slotOrder table).length < 2 ^ k → ∃ slot,
      table[slot]? = some none ∧
        pickleSetInsert table (2 ^ k - 1) idx h = some (table.set slot (some idx))) ∧
    (∀ hashes, ∃ order, setOrder hashes = some order ∧ order.Perm (List.range hashes.length)) ∧
    ∀ elts, (∃ e, pyHashes elts = .error e ∧ cpythonSetOrder elts = .error e) ∨
      ∃ order, cpythonSetOrder elts = .ok (some order) ∧ order.Perm (List.range elts.length) := by
  refine ⟨fun k table idx h hlen hroom => ?_,setOrder_perm,fun elts => ?_⟩
  · obtain ⟨slot,hfree,heq⟩ := pickleSetInsert_finds hlen hroom idx h
    exact ⟨slot,of_decide_eq_true hfree,heq⟩
  · cases hhash : pyHashes elts with
    | error e => exact .inl ⟨e,rfl,by rw [cpythonSetOrder,hhash]; rfl⟩
    | ok hashes =>
      obtain ⟨order,horder,hperm⟩ := setOrder_perm hashes
      refine .inr ⟨order,?_,length_pyHashes hhash ▸ hperm⟩
      rw [cpythonSetOrder,hhash,← horder]
      rfl

end Unagi.Objects
