import Mathlib.Data.List.Forall2
import Unagi.Runtime.StructCells

/-! # Packed records read back

Which values a cell takes, what is read back from it, and which bytes of a record are padding: packing
and unpacking a record agree cell by cell, and so for a whole format. -/

namespace Unagi.Runtime

open Lib (overwrite toBytes ofBytes)
open Objects (Bytes Halt)

namespace Cell

def takesValue : Cell → Bool
  | pad _ => false
  | _ => true

/-- The values that a cell takes: an int in the range of its code, one byte for `c`, bytes for a string
field and anything with a truth for `?`. -/
def Accepts (c : Cell) (v : StructValue) : Prop :=
  match c with
  | pad _ => False
  | value .bool _ => ∃ t, v.truthOf = .ok t
  | value .c _ => ∃ b, v.asBytesLike = some [b]
  | value code width =>
    ∃ n, v.asInteger = .ok n ∧ (intRange code width).1 ≤ n ∧ n ≤ (intRange code width).2
  | field _ _ => ∃ b, v.asBytes = some b

def stored (c : Cell) (v : StructValue) : StructValue :=
  match c with
  | pad _ => v
  | value .bool _ => .bool (v.truthOf.toOption.getD false)
  | value .c _ => .bytes (v.asBytesLike.getD [])
  | value _ _ => .int (v.asInteger.toOption.getD 0)
  | field n false =>
    let b := v.asBytes.getD []
    .bytes (b.take n ++ List.replicate (n - b.length) 0)
  | field n true => .bytes ((v.asBytes.getD []).take (min 255 (n - 1)))

/-- The bytes of a cell that its value sets; a `p` field has a byte for the length. -/
def used (c : Cell) (v : StructValue) : Nat :=
  match c with
  | field n pascal => min n (pascal.toNat + (v.asBytes.getD []).length)
  | c => c.size

end Cell

def takers (cells : List Cell) : List Cell := cells.filter Cell.takesValue
@[simp] theorem takers_pad (n : Nat) (cells : List Cell) : takers (.pad n :: cells) = takers cells := rfl
theorem takers_cons (c : Cell) (cells : List Cell) : takers (c :: cells) = takers [c] ++ takers cells :=
  List.filter_append [c] cells

/-! ## One value -/

section
variable {packFloat : Bool → StructCode → StructValue → Except Halt Bytes}
  {unpackFloat : Bool → StructCode → Bytes → StructValue} {big native : Bool}

theorem elemSize_pos (code : StructCode) (native : Bool) : 0 < code.elemSize native := by
  cases code <;> cases native <;> decide

theorem unpackInt_toBytes {code : StructCode} {width : Nat} (hwidth : 0 < width) {n : Int}
    (hlo : (intRange code width).1 ≤ n) (hhi : n ≤ (intRange code width).2) :
    unpackInt big code width (toBytes big width (if n < 0 then n + 2 ^ (8 * width) else n).toNat) =
      .int n := by
  have hbits : (256 : Nat) ^ width = 2 ^ (8 * width) := by rw [Nat.pow_mul]
  have hhalf : (2 : Nat) ^ (8 * width) = 2 * 2 ^ (8 * width - 1) := by
    rw [← Nat.pow_succ']
    congr 1
    omega
  have hcast : (2 : Int) ^ (8 * width) = ((2 ^ (8 * width) : Nat) : Int) := by norm_cast
  have hcasthalf : (2 : Int) ^ (8 * width - 1) = ((2 ^ (8 * width - 1) : Nat) : Int) := by norm_cast
  unfold intRange at hlo hhi
  unfold unpackInt
  rw [hcast,hcasthalf] at hlo hhi
  rw [hcast]
  clear hcast hcasthalf
  generalize 2 ^ (8 * width) = full at *
  generalize 2 ^ (8 * width - 1) = half at *
  cases hsigned : code.signed with
  | true =>
    rw [hsigned,if_pos rfl] at hlo hhi
    dsimp only at hlo hhi
    by_cases hneg : n < 0
    · rw [if_pos hneg,Lib.ofBytes_toBytes big (by omega),if_pos ⟨rfl,by omega⟩]
      congr 1
      omega
    · rw [if_neg hneg,Lib.ofBytes_toBytes big (by omega),if_neg (by omega)]
      congr 1
      omega
  | false =>
    rw [hsigned,if_neg (by decide)] at hlo hhi
    dsimp only at hlo hhi
    have hnonneg : ¬ n < 0 := by omega
    rw [if_neg hnonneg,Lib.ofBytes_toBytes big (by omega),if_neg (by simp)]
    congr 1
    omega

theorem packOne_int {code : StructCode} (hfloat : code.isFloat = false) (hbool : code ≠ .bool)
    (hchar : code ≠ .c) (width : Nat) (v : StructValue) :
    packOne packFloat big code width v = packInt big code width v ∧
      ((Cell.value code width).Accepts v ↔
        ∃ n, v.asInteger = .ok n ∧ (intRange code width).1 ≤ n ∧ n ≤ (intRange code width).2) := by
  cases code with
  | bool => exact absurd rfl hbool
  | c => exact absurd rfl hchar
  | e | f | d | F | D => cases hfloat
  | _ => exact ⟨rfl,Iff.rfl⟩

theorem unpackOne_int {code : StructCode} (hfloat : code.isFloat = false) (hbool : code ≠ .bool)
    (hchar : code ≠ .c) (width : Nat) (v : StructValue) (bs : Bytes) :
    unpackOne unpackFloat big code width bs = unpackInt big code width bs ∧
      (Cell.value code width).stored v = .int (v.asInteger.toOption.getD 0) := by
  cases code with
  | bool => exact absurd rfl hbool
  | c => exact absurd rfl hchar
  | e | f | d | F | D => cases hfloat
  | _ => exact ⟨rfl,rfl⟩

theorem packOne_accepts {code : StructCode} (hcode : code.isFloat = false) {v : StructValue}
    (hv : (Cell.value code (code.elemSize native)).Accepts v) :
    ∃ bs, packOne packFloat big code (code.elemSize native) v = .ok bs ∧
      unpackOne unpackFloat big code (code.elemSize native) bs =
        (Cell.value code (code.elemSize native)).stored v := by
  by_cases hbool : code = .bool
  · subst hbool
    obtain ⟨t,ht⟩ := hv
    refine ⟨[if t then 1 else 0],?_,?_⟩
    · rw [packOne,ht]
      rfl
    · rw [Cell.stored,ht,unpackOne]
      cases t <;> rfl
  · by_cases hchar : code = .c
    · subst hchar
      obtain ⟨b,hb⟩ := hv
      refine ⟨[b],?_,?_⟩
      · rw [packOne,hb]
      · rw [Cell.stored,hb]
        rfl
    · obtain ⟨n,hn,hlo,hhi⟩ := (@packOne_int packFloat big code hcode hbool hchar _ v).2.mp hv
      refine ⟨toBytes big (code.elemSize native)
        (if n < 0 then n + 2 ^ (8 * code.elemSize native) else n).toNat,?_,?_⟩
      · have hrange : ¬ (n < (intRange code (code.elemSize native)).1 ∨
            (intRange code (code.elemSize native)).2 < n) := by omega
        rw [(packOne_int hcode hbool hchar _ v).1,packInt,hn]
        exact if_neg hrange
      · have hread := @unpackInt_toBytes big code _ (elemSize_pos code native) n hlo hhi
        obtain ⟨hunpack,hstored⟩ := unpackOne_int hcode hbool hchar _ v _
        rw [hunpack,hstored,hn,hread]
        rfl

theorem packOne_ok {code : StructCode} (hcode : code.isFloat = false) {v : StructValue} {bs : Bytes}
    (h : packOne packFloat big code (code.elemSize native) v = .ok bs) :
    bs.length = code.elemSize native ∧ (Cell.value code (code.elemSize native)).Accepts v := by
  by_cases hbool : code = .bool
  · subst hbool
    obtain ⟨t,ht,h⟩ := (Except.bind_isOk_iff ..).mp h
    cases h
    exact ⟨rfl,t,ht⟩
  · by_cases hchar : code = .c
    · subst hchar
      rw [packOne] at h
      split at h
      · rename_i b hb
        cases h
        exact ⟨rfl,b,hb⟩
      · cases h
    · obtain ⟨hpack,haccepts⟩ := @packOne_int packFloat big code hcode hbool hchar _ v
      rw [hpack] at h
      obtain ⟨n,hn,h⟩ := (Except.bind_isOk_iff ..).mp h
      dsimp only at h
      split at h
      · cases h
      · cases h
        exact ⟨Lib.length_toBytes ..,haccepts.mpr ⟨n,hn,by omega,by omega⟩⟩

/-! ## One string field -/

def fieldHead (n : Nat) (pascal : Bool) (b : Bytes) : Bytes :=
  if pascal then
    if n = 0 then [] else UInt8.ofNat (min (min b.length (n - 1)) 255) :: b.take (n - 1)
  else b.take n

theorem length_fieldHead (n : Nat) (pascal : Bool) (b : Bytes) :
    (fieldHead n pascal b).length = min n (pascal.toNat + b.length) := by
  unfold fieldHead
  cases pascal with
  | false => simp
  | true =>
    rw [if_pos rfl]
    by_cases hn : n = 0
    · simp [hn]
    · rw [if_neg hn,List.length_cons,List.length_take,Bool.toNat_true]
      omega

theorem packBytesField_eq {old b : Bytes} {v : StructValue} (hv : v.asBytes = some b) (pascal : Bool) :
    packBytesField old v pascal = .ok (fieldHead old.length pascal b ++
      old.drop (fieldHead old.length pascal b).length) := by
  unfold packBytesField fieldHead
  rw [hv]
  cases pascal with
  | false => simp [overwrite]
  | true =>
    dsimp only
    rw [if_pos rfl,if_pos rfl]
    by_cases hn : old.length = 0
    · simp [hn]
    · rw [if_neg hn,if_neg hn]
      cases old with
      | nil => exact absurd rfl hn
      | cons o old => simp [overwrite,Nat.add_comm,Nat.min_comm b.length]

theorem packBytesField_ok {old bs : Bytes} {v : StructValue} {pascal : Bool}
    (h : packBytesField old v pascal = .ok bs) : bs.length = old.length ∧ ∃ b, v.asBytes = some b := by
  cases hv : v.asBytes with
  | none =>
    rw [packBytesField,hv] at h
    cases pascal <;> cases h
  | some b =>
    rw [packBytesField_eq hv] at h
    cases h
    have hhead := length_fieldHead old.length pascal b
    refine ⟨?_,b,rfl⟩
    rw [List.length_append,List.length_drop]
    omega

theorem unpackCell_fieldHead (n : Nat) (pascal : Bool) {v : StructValue} {b : Bytes}
    (hv : v.asBytes = some b) :
    unpackCell unpackFloat big (.field n pascal)
      (fieldHead n pascal b ++ List.replicate (n - (fieldHead n pascal b).length) 0) =
        [(Cell.field n pascal).stored v] := by
  rw [length_fieldHead]
  cases pascal with
  | false =>
    have hfill : n - min n (Bool.toNat false + b.length) = n - b.length := by
      rw [Bool.toNat_false]
      omega
    rw [hfill,unpackCell,Cell.stored,hv]
    rfl
  | true =>
    simp only [unpackCell,Cell.stored,hv,fieldHead,if_true,Option.getD_some]
    by_cases hn : n = 0
    · subst hn
      simp
    · rw [if_neg hn,List.cons_append]
      have hlen : (UInt8.ofNat (min (min b.length (n - 1)) 255)).toNat =
          min (min b.length (n - 1)) 255 := by
        rw [UInt8.toNat_ofNat']
        exact Nat.mod_eq_of_lt (by omega)
      dsimp only
      rw [hlen,List.take_append_of_le_length (by rw [List.length_take]; omega),List.take_take]
      -- the count stops at the end of the value, where taking does too
      have htake : ∀ k, min k b.length = min (min 255 (n - 1)) b.length →
          b.take k = b.take (min 255 (n - 1)) := by
        intro k hk
        rw [List.take_eq_take_iff.mpr hk]
      rw [htake _ (by omega)]

/-! ## Cells -/

/-- A cell that was packed has its size, and took a value that it accepts, if it takes one. -/
theorem packCell_ok {c : Cell} {old bs : Bytes} {vals rest : List StructValue} (hc : c.Plain)
    (hold : old.length = c.size) (h : packCell packFloat big c old vals = .ok (bs, rest)) :
    bs.length = c.size ∧
      ∃ taken, vals = taken ++ rest ∧ List.Forall₂ Cell.Accepts (takers [c]) taken := by
  cases c with
  | pad n =>
    cases h
    exact ⟨List.length_replicate,[],rfl,.nil⟩
  | value code width =>
    obtain ⟨hcode,native,rfl⟩ := hc code width rfl
    cases vals with
    | nil => cases h
    | cons v vals =>
      obtain ⟨bs,hv,h⟩ := (Except.bind_isOk_iff ..).mp h
      cases h
      obtain ⟨hlen,haccepts⟩ := packOne_ok hcode hv
      exact ⟨hlen,[v],rfl,.cons haccepts .nil⟩
  | field n pascal =>
    cases vals with
    | nil => cases h
    | cons v vals =>
      obtain ⟨bs,hv,h⟩ := (Except.bind_isOk_iff ..).mp h
      cases h
      obtain ⟨hlen,haccepts⟩ := packBytesField_ok hv
      exact ⟨hlen.trans hold,[v],rfl,.cons haccepts .nil⟩

theorem packCells_ok {cells : List Cell} {old bs : Bytes} {vals rest : List StructValue}
    (hcells : ∀ c ∈ cells, c.Plain) (hold : cellsSize cells ≤ old.length)
    (h : packCells packFloat big cells old vals = .ok (bs, rest)) :
    bs.length = cellsSize cells ∧
      ∃ taken, vals = taken ++ rest ∧ List.Forall₂ Cell.Accepts (takers cells) taken := by
  induction cells generalizing old bs vals rest with
  | nil =>
    cases h
    exact ⟨rfl,[],rfl,.nil⟩
  | cons c cells ih =>
    rw [List.forall_mem_cons] at hcells
    rw [cellsSize_cons] at hold ⊢
    obtain ⟨⟨bs₁,vals₁⟩,hfirst,h⟩ := (Except.bind_isOk_iff ..).mp h
    obtain ⟨⟨bs₂,vals₂⟩,hlater,h⟩ := (Except.bind_isOk_iff ..).mp h
    cases h
    obtain ⟨hlen₁,taken₁,rfl,haccepts₁⟩ :=
      packCell_ok hcells.1 (by rw [List.length_take]; omega) hfirst
    obtain ⟨hlen₂,taken₂,rfl,haccepts₂⟩ :=
      ih hcells.2 (by rw [List.length_drop]; omega) hlater
    refine ⟨by rw [List.length_append,hlen₁,hlen₂],taken₁ ++ taken₂,(List.append_assoc ..).symm,?_⟩
    rw [takers_cons]
    exact List.rel_append haccepts₁ haccepts₂

end

/-- The padding of a record, byte by byte: its pad cells and what values leave of their fields, each
if asked for. -/
def padMask (gaps fills : Bool) : List Cell → List StructValue → List Bool
  | [], _ => []
  | .pad n :: cells, vals => List.replicate n gaps ++ padMask gaps fills cells vals
  | c :: cells, v :: vals =>
    List.replicate (c.used v) false ++ List.replicate (c.size - c.used v) fills ++
      padMask gaps fills cells vals
  | _ :: _, [] => []

theorem padMask_cons {c : Cell} {taken : List StructValue} (h : taken.length = (takers [c]).length)
    (gaps fills : Bool) (cells : List Cell) (vals : List StructValue) :
    padMask gaps fills (c :: cells) (taken ++ vals) =
      padMask gaps fills [c] taken ++ padMask gaps fills cells vals := by
  cases c with
  | pad n =>
    rw [List.eq_nil_of_length_eq_zero h]
    simp [padMask]
  | value | field =>
    obtain ⟨v,rfl⟩ := List.length_eq_one_iff.mp h
    simp [padMask]

theorem length_padMask {c : Cell} {taken : List StructValue} (h : taken.length = (takers [c]).length)
    (gaps fills : Bool) : (padMask gaps fills [c] taken).length = c.size := by
  cases c with
  | pad n => simp [padMask,Cell.size]
  | value | field =>
    obtain ⟨v,rfl⟩ := List.length_eq_one_iff.mp h
    simp only [padMask,List.length_append,List.length_replicate,Cell.used,Cell.size,List.length_nil]
    omega

def Zeroed (mask : List Bool) (bs : Bytes) : Prop := ∀ p ∈ mask.zip bs, p.1 = true → p.2 = 0
instance (mask : List Bool) (bs : Bytes) : Decidable (Zeroed mask bs) :=
  inferInstanceAs (Decidable (∀ p ∈ mask.zip bs, p.1 = true → p.2 = 0))

theorem zeroed_append {m₁ : List Bool} {bs₁ : Bytes} (h : m₁.length = bs₁.length) (m₂ : List Bool)
    (bs₂ : Bytes) : Zeroed (m₁ ++ m₂) (bs₁ ++ bs₂) ↔ Zeroed m₁ bs₁ ∧ Zeroed m₂ bs₂ := by
  rw [Zeroed,List.zip_append h,List.forall_mem_append]
  rfl

theorem zeroed_replicate {n : Nat} {bs : Bytes} (h : bs.length = n) (marked : Bool) :
    Zeroed (List.replicate n marked) bs ↔ (marked = true → bs = List.replicate n 0) := by
  induction bs generalizing n with
  | nil =>
    subst h
    simp [Zeroed]
  | cons b bs ih =>
    subst h
    have hone : Zeroed [marked] [b] ↔ (marked = true → b = 0) := by simp [Zeroed]
    have hsplit := @zeroed_append [marked] [b] rfl (List.replicate bs.length marked) bs
    rw [hone,ih rfl] at hsplit
    rw [List.length_cons,List.replicate_succ,List.replicate_succ,List.cons.injEq]
    refine hsplit.trans ⟨?_,?_⟩
    · intro h hmarked
      exact ⟨h.1 hmarked,h.2 hmarked⟩
    · intro h
      exact ⟨fun hmarked => (h hmarked).1,fun hmarked => (h hmarked).2⟩

theorem zeroed_zeros (mask : List Bool) (n : Nat) : Zeroed mask (List.replicate n 0) := by
  intro p hp _
  exact List.eq_of_mem_replicate (List.of_mem_zip hp).2

theorem zeroed_cell {head fill : Bytes} {j k : Nat} (hhead : head.length = j) (hfill : fill.length = k)
    (fills : Bool) :
    Zeroed (List.replicate j false ++ List.replicate k fills ++ []) (head ++ fill) ↔
      (fills = true → fill = List.replicate k 0) := by
  have hfalse : Zeroed (List.replicate j false) head := (zeroed_replicate hhead false).mpr nofun
  rw [List.append_nil,zeroed_append (by rw [List.length_replicate,hhead]),zeroed_replicate hfill]
  exact and_iff_right hfalse

/-! ## A whole record -/

section
variable {packFloat : Bool → StructCode → StructValue → Except Halt Bytes}
  {unpackFloat : Bool → StructCode → Bytes → StructValue} {big native : Bool}

/-- What packing values over old bytes gives: pad cells are zero, the rests of fields are what they
were, and where those are zero the values are read back. -/
structure Packed (unpackFloat : Bool → StructCode → Bytes → StructValue) (big : Bool)
    (cells : List Cell) (vals : List StructValue) (old bs : Bytes) : Prop where
  length : bs.length = cellsSize cells
  gaps : Zeroed (padMask true false cells vals) bs
  pads : Zeroed (padMask true true cells vals) bs ↔ Zeroed (padMask false true cells vals) old
  values : Zeroed (padMask false true cells vals) old →
    unpackCells unpackFloat big cells bs = List.zipWith Cell.stored (takers cells) vals

theorem Packed.cons {c : Cell} {cells : List Cell} {taken vals : List StructValue} {old bs bs' : Bytes}
    (hold : c.size ≤ old.length) (htaken : taken.length = (takers [c]).length)
    (hc : Packed unpackFloat big [c] taken (old.take c.size) bs)
    (h : Packed unpackFloat big cells vals (old.drop c.size) bs') :
    Packed unpackFloat big (c :: cells) (taken ++ vals) old (bs ++ bs') := by
  have hlen : bs.length = c.size := hc.length
  have hnew : ∀ gaps fills, Zeroed (padMask gaps fills (c :: cells) (taken ++ vals)) (bs ++ bs') ↔
      Zeroed (padMask gaps fills [c] taken) bs ∧ Zeroed (padMask gaps fills cells vals) bs' := by
    intro gaps fills
    rw [padMask_cons htaken,zeroed_append ((length_padMask htaken ..).trans hlen.symm)]
  have hbefore : Zeroed (padMask false true (c :: cells) (taken ++ vals)) old ↔
      Zeroed (padMask false true [c] taken) (old.take c.size) ∧
        Zeroed (padMask false true cells vals) (old.drop c.size) := by
    have htake : (old.take c.size).length = c.size := List.length_take_of_le hold
    conv_lhs => rw [← List.take_append_drop c.size old]
    rw [padMask_cons htaken,zeroed_append ((length_padMask htaken ..).trans htake.symm)]
  refine ⟨?_,(hnew ..).mpr ⟨hc.gaps,h.gaps⟩,?_,fun hfills => ?_⟩
  · rw [List.length_append,hlen,h.length,cellsSize_cons]
  · rw [hnew,hbefore,hc.pads,h.pads]
  · obtain ⟨hfirst,hlater⟩ := hbefore.mp hfills
    have hread := hc.values hfirst
    rw [unpackCells,← hlen,List.take_length,List.drop_length] at hread
    rw [unpackCells,← hlen,List.take_left,List.drop_left,h.values hlater,takers_cons,
      List.zipWith_append htaken.symm]
    exact congrArg (· ++ _) ((List.append_nil _).symm.trans hread)

/-- A value sets the head of its cell; what is behind the head stays. -/
theorem Packed.head {c : Cell} {v : StructValue} {old head : Bytes} (hc : takers [c] = [c])
    (hmask : ∀ gaps fills, padMask gaps fills [c] [v] =
      List.replicate (c.used v) false ++ List.replicate (c.size - c.used v) fills ++ [])
    (hold : old.length = c.size) (hhead : head.length = c.used v) (hused : c.used v ≤ c.size)
    (hread : unpackCell unpackFloat big c (head ++ List.replicate (c.size - head.length) 0) =
      [c.stored v]) :
    Packed unpackFloat big [c] [v] old (head ++ old.drop head.length) := by
  have hlen : (old.drop head.length).length = c.size - c.used v := by
    rw [List.length_drop,hhead,hold]
  have hkept : (old.take head.length).length = c.used v := by
    rw [List.length_take,hhead,hold,Nat.min_eq_left hused]
  have hbefore : Zeroed (padMask false true [c] [v]) old ↔
      old.drop head.length = List.replicate (c.size - c.used v) 0 := by
    conv_lhs => rw [← List.take_append_drop head.length old]
    rw [hmask,zeroed_cell hkept hlen]
    exact ⟨fun h => h rfl,fun h _ => h⟩
  have hnew : ∀ fills, Zeroed (padMask true fills [c] [v]) (head ++ old.drop head.length) ↔
      (fills = true → old.drop head.length = List.replicate (c.size - c.used v) 0) := by
    intro fills
    rw [hmask,zeroed_cell hhead hlen]
  have hsize : (head ++ old.drop head.length).length = c.size := by
    rw [List.length_append,hlen,hhead]
    omega
  refine ⟨hsize,(hnew false).mpr nofun,?_,fun hfills => ?_⟩
  · rw [hnew,hbefore]
    exact ⟨fun h => h rfl,fun h _ => h⟩
  · rw [unpackCells,← hsize,List.take_length,hbefore.mp hfills,← hhead,hread,hc]
    rfl

theorem packCell_accepts {c : Cell} (hplain : c.Plain) {taken : List StructValue}
    (htaken : List.Forall₂ Cell.Accepts (takers [c]) taken) {old : Bytes} (hold : old.length = c.size) :
    ∃ bs, (∀ vals, packCell packFloat big c old (taken ++ vals) = .ok (bs, vals)) ∧
      Packed unpackFloat big [c] taken old bs := by
  cases c with
  | pad n =>
    cases htaken
    have hzeros : (List.replicate n (0 : UInt8)).length = n := List.length_replicate
    refine ⟨List.replicate n 0,fun vals => rfl,hzeros,zeroed_zeros _ _,?_,fun _ => rfl⟩
    refine iff_of_true (zeroed_zeros _ _) ?_
    rw [padMask,padMask,List.append_nil]
    exact (zeroed_replicate hold false).mpr nofun
  | value code width =>
    obtain ⟨hcode,native,rfl⟩ := hplain code width rfl
    cases htaken with
    | cons hv hnil =>
      rename_i v _
      cases hnil
      obtain ⟨bs,hbs,hread⟩ := @packOne_accepts packFloat unpackFloat big native code hcode v hv
      have hlen := (packOne_ok hcode hbs).1
      have hdrop : old.drop bs.length = [] := by
        rw [List.drop_eq_nil_iff,hold,hlen]
        exact Nat.le_refl _
      refine ⟨bs ++ old.drop bs.length,?_,.head rfl (fun _ _ => rfl) hold hlen le_rfl ?_⟩
      · intro vals
        rw [List.singleton_append,packCell,hbs,hdrop,List.append_nil]
        rfl
      · rw [Cell.size,hlen,Nat.sub_self,List.replicate_zero,List.append_nil,unpackCell,hread]
  | field n pascal =>
    cases htaken with
    | cons hv hnil =>
      rename_i v _
      cases hnil
      obtain ⟨b,hb⟩ := hv
      have hlen : (fieldHead n pascal b).length = (Cell.field n pascal).used v := by
        rw [length_fieldHead,Cell.used,hb,Option.getD_some]
      refine ⟨_,?_,.head rfl (fun _ _ => rfl) hold hlen (Nat.min_le_left _ _)
        (unpackCell_fieldHead n pascal hb)⟩
      intro vals
      have hfield := @packBytesField_eq old b v hb pascal
      rw [show old.length = n from hold] at hfield
      rw [List.singleton_append,packCell,hfield]
      rfl

theorem packCells_accepts {cells : List Cell} (hplain : ∀ c ∈ cells, c.Plain)
    {vals : List StructValue} (hvals : List.Forall₂ Cell.Accepts (takers cells) vals) {old : Bytes}
    (hold : cellsSize cells ≤ old.length) :
    ∃ bs, packCells packFloat big cells old vals = .ok (bs, []) ∧
      Packed unpackFloat big cells vals old bs := by
  induction cells generalizing vals old with
  | nil =>
    cases hvals
    have hnone : ∀ bs, Zeroed [] bs := fun bs p hp => absurd hp List.not_mem_nil
    exact ⟨[],rfl,rfl,hnone _,iff_of_true (hnone _) (hnone _),fun _ => rfl⟩
  | cons c cells ih =>
    rw [List.forall_mem_cons] at hplain
    rw [cellsSize_cons] at hold
    rw [takers_cons] at hvals
    have htaken := (List.forall₂_take_append _ _ _ hvals.flip).flip
    have hleft := (List.forall₂_drop_append _ _ _ hvals.flip).flip
    have hsplit := List.take_append_drop (takers [c]).length vals
    generalize vals.take (takers [c]).length = taken at *
    generalize vals.drop (takers [c]).length = left at *
    subst hsplit
    have htake : (old.take c.size).length = c.size := List.length_take_of_le (by omega)
    obtain ⟨bs,hbs,hcell⟩ := @packCell_accepts packFloat unpackFloat big c hplain.1 taken htaken _ htake
    obtain ⟨bs',hbs',hpacked⟩ := @ih hplain.2 left hleft (old.drop c.size)
      (by rw [List.length_drop]; omega)
    refine ⟨bs ++ bs',?_,hcell.cons (by omega) htaken.length_eq.symm hpacked⟩
    rw [packCells,hbs]
    simp only [bind,Except.bind,hbs',pure,Except.pure]

end
end Unagi.Runtime
