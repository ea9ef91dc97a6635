import Unagi.Lib.SortBy
import Unagi.Objects.Equals
import Unagi.Objects.KeyCode

/-! # Equal keys are equal objects

Equal objects have one key. Unequal ones have one key only where unions have equal members that are
not the same objects, or where the keys of different parts run into one text. -/

namespace Unagi.Objects

open Lib

/-- Hashable objects: numbers, texts, type objects and what is built from them, with doubles of some
kind. A set has distinct keys, and the members of a union are distinct objects. -/
inductive Keyable (ok : Float64 → Prop) : Object → Prop
  | none : Keyable ok .none
  | bool (v : Bool) : Keyable ok (.bool v)
  | int (a : Addr) (v : Int) : Keyable ok (.int a v)
  | float (a : Addr) (v : Float64) (h : ok v) : Keyable ok (.float a v)
  | str (a : Addr) (v : Bytes) : Keyable ok (.str a v)
  | bytes (a : Addr) (v : Bytes) : Keyable ok (.bytes a v)
  | tuple (a : Addr) (elts : List Object) (h : ∀ e ∈ elts, Keyable ok e) : Keyable ok (.tuple a elts)
  | frozenset (a : Addr) (elts : List Object) (h : ∀ e ∈ elts, Keyable ok e)
      (distinct : (keysOf elts).Nodup) : Keyable ok (.frozenset a elts)
  | slice (a : Addr) (x y z : Object) (hx : Keyable ok x) (hy : Keyable ok y) (hz : Keyable ok z) :
      Keyable ok (.slice a x y z)
  | union (a : Addr) (args : List Object) (h : ∀ e ∈ args, Keyable ok e) (distinct : args.Nodup) :
      Keyable ok (.union a args)
  | genericAlias (a : Addr) (origin : Object) (args : List Object) (ho : Keyable ok origin)
      (h : ∀ e ∈ args, Keyable ok e) : Keyable ok (.genericAlias a origin args)
  | identity (a : Addr) : Keyable ok (.identity a)

abbrev NotNaN (v : Float64) : Prop := v.isNaN = false

variable {ok : Float64 → Prop}

def isIdentity : Object → Bool
  | .identity _ => true
  | _ => false

/-- A text that has no separator of a generic alias, if it is a text. -/
def tight : Object → Bool
  | .str _ v | .bytes _ v => v.all fun c => !decide (isDelim c)
  | _ => true

mutual

/-- The members of unions are objects by identity, and the texts that stand directly in generic
aliases have no separators. -/
def clear : Object → Bool
  | .tuple _ elts | .frozenset _ elts => clearAll elts
  | .slice _ x y z => clear x && clear y && clear z
  | .union _ args => args.all isIdentity
  | .genericAlias _ origin args =>
    clear origin && tight origin && clearAll args && args.all tight
  | _ => true

def clearAll : List Object → Bool
  | [] => true
  | o :: os => clear o && clearAll os

end

theorem clearAll_iff {os : List Object} : clearAll os = true ↔ ∀ o ∈ os, clear o = true := by
  induction os with
  | nil => simp [clearAll]
  | cons o os ih => rw [clearAll,Bool.and_eq_true,ih,List.forall_mem_cons]

/-! ## Codes of objects -/

def floatCode (a : Addr) (v : Float64) : KeyCode :=
  if v.isNaN then .nan a else if v.isIntegral && !v.isInf then .num v.toInt else .frac v

def codeOf : Object → Option KeyCode
  | .none => some .none
  | .bool v => some (.num v.toInt)
  | .int _ v => some (.num v)
  | .float a v => some (floatCode a v)
  | .str _ v => some (.str v)
  | .bytes _ v => some (.bytes v)
  | .tuple _ elts => (hashKeys elts).toOption.map .tuple
  | .frozenset _ elts => (hashKeys elts).toOption.map fun ks => .frozen (sortStrings ks)
  | .slice _ x y z => (hashKeys [x, y, z]).toOption.map .slice
  | .union _ args => (hashKeys args).toOption.map fun ks => .union (sortStrings ks)
  | .genericAlias _ origin args =>
    match (hashKey origin).toOption, (hashKeys args).toOption with
    | some k, some ks => some (.generic k ks)
    | _, _ => none
  | .typeVar a | .identity a => some (.pointer a)
  | _ => none

theorem toOption_hashKey (o : Object) : (hashKey o).toOption = (codeOf o).map KeyCode.text := by
  cases o with
  | none | int | str | bytes | identity | typeVar | complex | list | dict | set | range
  | memoryview => rfl
  | bool v => cases v <;> decide +kernel
  | float a v =>
    rw [hashKey,codeOf,floatKey,floatCode]
    split
    · rfl
    · split <;> rfl
  | tuple a elts => rw [hashKey,codeOf]; cases hashKeys elts <;> rfl
  | frozenset a elts => rw [hashKey,codeOf]; cases hashKeys elts <;> rfl
  | union a args => rw [hashKey,codeOf]; cases hashKeys args <;> rfl
  | slice a x y z =>
    rw [hashKey,codeOf,hashKeys,hashKeys,hashKeys,hashKeys]
    cases hashKey x <;> cases hashKey y <;> cases hashKey z <;> rfl
  | genericAlias a origin args =>
    rw [hashKey,codeOf]
    cases hashKey origin <;> cases hashKeys args <;> rfl

variable {o : Object}

private theorem hashKey_eq_ok {c : KeyCode} (h : codeOf o = some c) : hashKey o = .ok c.text := by
  have ho := toOption_hashKey o
  rw [h] at ho
  cases hk : hashKey o with
  | error e => rw [hk] at ho; cases ho
  | ok k => rw [hk] at ho; rw [Option.some.inj ho]
def keyOf (o : Object) : Bytes := (hashKey o).toOption.getD []

section Keys
variable {os : List Object}

private theorem hashKeys_eq_map (h : ∀ o ∈ os, hashKey o = .ok (keyOf o)) :
    hashKeys os = .ok (os.map keyOf) := by
  induction os with
  | nil => rfl
  | cons o os ih =>
    rw [List.forall_mem_cons] at h
    rw [hashKeys,h.1,ih h.2,List.map_cons]

theorem Keyable.hashKey_eq {o : Object} (h : Keyable ok o) : hashKey o = .ok (keyOf o) := by
  induction h with
  | tuple a elts h ih | frozenset a elts h distinct ih | union a elts h distinct ih =>
    rw [keyOf,hashKey,hashKeys_eq_map ih]
    rfl
  | slice a x y z hx hy hz ihx ihy ihz =>
    rw [keyOf,hashKey,ihx,ihy,ihz]
    rfl
  | genericAlias a origin args ho h iho ih =>
    rw [keyOf,hashKey,iho,hashKeys_eq_map ih]
    rfl
  | _ => rfl

private theorem hashKeys_eq (h : ∀ o ∈ os, Keyable ok o) : hashKeys os = .ok (os.map keyOf) :=
  hashKeys_eq_map fun o ho => (h o ho).hashKey_eq
theorem keysOf_eq (h : ∀ o ∈ os, Keyable ok o) : keysOf os = os.map keyOf := by
  rw [keysOf,← List.filterMap_eq_map]
  apply List.filterMap_congr
  intro o ho
  rw [(h o ho).hashKey_eq]
  rfl

end Keys

/-! ## Clear codes -/

private theorem hashKeys_identities {args : List Object} (h : args.all isIdentity = true) :
    ∃ as : List Addr, args = as.map Object.identity ∧ hashKeys args = .ok (as.map pointerKey) := by
  induction args with
  | nil => exact ⟨[],rfl,rfl⟩
  | cons o args ih =>
    rw [List.all_cons,Bool.and_eq_true] at h
    obtain ⟨as,rfl,hks⟩ := ih h.2
    cases o with
    | identity a => exact ⟨a :: as,rfl,by rw [hashKeys,hks]; rfl⟩
    | _ => exact absurd h.1 (by simp [isIdentity])

private theorem isNumber_plain {c : UInt8} {k : Bytes}
    (hc : c ∉ ['t'.toUInt8, 'F'.toUInt8, 'S'.toUInt8, 'G'.toUInt8]) (hdelim : ¬ isDelim c)
    (hk : ∀ a ∈ k, isNumberChar a) : TightKey (c :: k) :=
  .plain c k hc (List.forall_mem_cons.mpr ⟨hdelim,fun a ha => (hk a ha).not_isDelim⟩)

private theorem joined_not_isDelim {ks : List Bytes} (h : ∀ k ∈ ks, ∀ c ∈ k, ¬ isDelim c) :
    ∀ c ∈ joined '|'.toUInt8 ks, ¬ isDelim c := by
  have hbar : ¬ isDelim '|'.toUInt8 := by decide
  cases ks with
  | nil => intro c hc; cases hc
  | cons k ks =>
    obtain ⟨hk,hks⟩ := List.forall_mem_cons.mp h
    intro c hc
    rcases List.mem_append.mp hc with hc | hc
    · exact hk c hc
    · obtain ⟨k',hk',hc⟩ := List.mem_flatMap.mp hc
      rcases List.mem_cons.mp hc with rfl | hc
      · exact hbar
      · exact hks k' hk' c hc

private theorem pointerKey_not_isDelim (a : Addr) : ∀ c ∈ pointerKey a, ¬ isDelim c := by
  intro c hc
  rcases List.mem_append.mp hc with hc | hc
  · have hprefix : ∀ c ∈ ascii "p0x", ¬ isDelim c := by decide +kernel
    exact hprefix c hc
  · exact (isNumberChar_hex hc).not_isDelim
private theorem pointerKey_tight (a : Addr) : TightKey (pointerKey a) :=
  .plain 'p'.toUInt8 (ascii "0x" ++ hex a) (by decide) (pointerKey_not_isDelim a)

private theorem Keyable.tightKey (h : Keyable ok o) (hclear : clear o = true)
    (htight : tight o = true) : TightKey (keyOf o) := by
  induction h with
  | none => exact isNumber_plain (by decide) (by decide) (by simp)
  | bool v =>
    cases v
    · exact .plain 'i'.toUInt8 (ascii "0") (by decide) (by decide +kernel)
    · exact .plain 'i'.toUInt8 (ascii "1") (by decide) (by decide +kernel)
  | int a v => exact isNumber_plain (by decide) (by decide) fun c hc => isNumberChar_intDecimal hc
  | float a v h =>
    change TightKey (floatKey a v)
    unfold floatKey
    split
    · exact isNumber_plain (by decide) (by decide) fun c hc => isNumberChar_hex hc
    split
    · exact isNumber_plain (by decide) (by decide) fun c hc => isNumberChar_intDecimal hc
    · exact isNumber_plain (by decide) (by decide) fun c hc => isNumberChar_hex hc
  | str a v | bytes a v =>
    have htext : ∀ c ∈ v, ¬ isDelim c := by simpa [tight] using htight
    exact .plain _ _ (by decide) (List.forall_mem_cons.mpr ⟨by decide,htext⟩)
  | tuple a elts h ih | frozenset a elts h distinct ih =>
    rw [keyOf,hashKey,hashKeys_eq h]
    exact .lengths _ (by decide) _
  | slice a x y z hx hy hz ihx ihy ihz =>
    rw [keyOf,hashKey,hx.hashKey_eq,hy.hashKey_eq,hz.hashKey_eq]
    exact .lengths _ (by decide) _
  | union a args h distinct ih =>
    rw [clear] at hclear
    obtain ⟨as,-,hks⟩ := hashKeys_identities hclear
    rw [keyOf,hashKey,hks]
    refine .plain _ _ (by decide) (List.forall_mem_cons.mpr ⟨by decide,joined_not_isDelim ?_⟩)
    intro k hk
    obtain ⟨a,-,rfl⟩ := List.mem_map.mp ((List.perm_insertionSort _ _).mem_iff.mp hk)
    exact pointerKey_not_isDelim a
  | genericAlias a origin args ho h iho ih =>
    simp only [clear,Bool.and_eq_true] at hclear
    obtain ⟨⟨⟨hco,hto⟩,hca⟩,hta⟩ := hclear
    rw [keyOf,hashKey,ho.hashKey_eq,hashKeys_eq h]
    refine .generic _ _ (iho hco hto) (List.forall_mem_map.mpr fun e he => ?_)
    exact ih e he (clearAll_iff.mp hca e he) (List.all_eq_true.mp hta e he)
  | identity a => exact pointerKey_tight a

private theorem Keyable.code (h : Keyable ok o) (hclear : clear o = true) :
    ∃ c, codeOf o = some c ∧ c.Clear := by
  cases h with
  | none | bool | int | str | bytes | identity => exact ⟨_,rfl,trivial⟩
  | float a v h =>
    refine ⟨_,rfl,?_⟩
    unfold floatCode
    split
    · trivial
    · split <;> trivial
  | tuple a elts h | frozenset a elts h distinct =>
    rw [codeOf,hashKeys_eq h]
    exact ⟨_,rfl,trivial⟩
  | slice a x y z hx hy hz =>
    have hparts : ∀ o ∈ [x,y,z], Keyable ok o := by simp [hx,hy,hz]
    rw [codeOf,hashKeys_eq hparts]
    exact ⟨_,rfl,trivial⟩
  | union a args h distinct =>
    rw [clear] at hclear
    obtain ⟨as,-,hks⟩ := hashKeys_identities hclear
    rw [codeOf,hks]
    refine ⟨_,rfl,fun k hk => ?_⟩
    obtain ⟨a,-,rfl⟩ := List.mem_map.mp ((List.perm_insertionSort _ _).mem_iff.mp hk)
    exact ⟨a,rfl⟩
  | genericAlias a origin args ho h =>
    simp only [clear,Bool.and_eq_true] at hclear
    obtain ⟨⟨⟨hco,hto⟩,hca⟩,hta⟩ := hclear
    rw [codeOf,ho.hashKey_eq,hashKeys_eq h]
    refine ⟨_,rfl,ho.tightKey hco hto,List.forall_mem_map.mpr fun e he => ?_⟩
    exact (h e he).tightKey (clearAll_iff.mp hca e he) (List.all_eq_true.mp hta e he)

/-- Hashable objects whose keys can be read back. -/
def Legible (ok : Float64 → Prop) (o : Object) : Prop := Keyable ok o ∧ clear o = true

variable {a b : Object} {xs ys : List Object}

private theorem keyOf_eq_iff (ha : Legible ok a) (hb : Legible ok b) :
    keyOf a = keyOf b ↔ codeOf a = codeOf b := by
  obtain ⟨c,hc,hclear⟩ := ha.1.code ha.2
  obtain ⟨c',hc',hclear'⟩ := hb.1.code hb.2
  rw [keyOf,keyOf,hashKey_eq_ok hc,hashKey_eq_ok hc',hc,hc',Option.some.injEq]
  exact ⟨KeyCode.text_injective hclear hclear',fun h => h ▸ rfl⟩
theorem cmpI_eq_zero {i j : Int} : cmpI i j = 0 ↔ i = j := by
  unfold cmpI
  split
  · omega
  · split <;> omega

namespace Float64
variable {v w : Float64}

private theorem floatCode_eq_iff (hv : v.isNaN = false) (hw : w.isNaN = false) (a b : Addr) :
    floatCode a v = floatCode b w ↔ v.scaled = w.scaled := by
  constructor
  · intro h
    rw [floatCode,floatCode,hv,hw] at h
    simp only [Bool.false_eq_true,if_false] at h
    split at h <;> split at h
    · rename_i hvi hwi
      rw [Bool.and_eq_true] at hvi hwi
      rw [scaled_of_isIntegral hvi.1,scaled_of_isIntegral hwi.1,KeyCode.num.inj h]
    · cases h
    · cases h
    · rw [KeyCode.frac.inj h]
  · intro h
    by_cases hzero : v.scaled = 0
    · have hint : ∀ {u : Float64} (c : Addr), u.isNaN = false → u.scaled = 0 →
          floatCode c u = .num 0 := by
        intro u c hu hu0
        obtain ⟨hui,hun⟩ := isIntegral_of_scaled (i := 0) (by rw [hu0,Int.zero_mul])
        have hinf : u.isInf = false := by
          cases hinf : u.isInf
          · rfl
          · exact absurd hu0 (scaled_ne_zero_of_isInf hinf)
        rw [floatCode,hu,hui,hinf,hun]
        rfl
      rw [hint a hv hzero,hint b hw (h ▸ hzero)]
    · rw [eq_of_scaled_eq h hzero,floatCode,floatCode,hw]
      rfl

private theorem floatCode_eq_num_iff (hv : v.isNaN = false) (a : Addr) (i : Int) :
    floatCode a v = .num i ↔ v.isInf = false ∧ v.scaled = i * one := by
  rw [floatCode,hv]
  simp only [Bool.false_eq_true,if_false]
  constructor
  · intro h
    split at h
    · rename_i hvi
      simp only [Bool.and_eq_true,Bool.not_eq_true'] at hvi
      rw [scaled_of_isIntegral hvi.1,KeyCode.num.inj h]
      exact ⟨hvi.2,rfl⟩
    · cases h
  · rintro ⟨hinf,hi⟩
    obtain ⟨hint,rfl⟩ := isIntegral_of_scaled hi
    rw [hint,hinf]
    rfl

end Float64

private theorem floatIntCmp_eq_zero {v : Float64} (hv : v.isNaN = false) (a : Addr) (i : Int) :
    ((!(floatIntCmp v i).2 && decide ((floatIntCmp v i).1 = 0)) = true) ↔
      floatCode a v = .num i := by
  rw [Float64.floatCode_eq_num_iff hv,floatIntCmp_eq,hv]
  cases hinf : v.isInf with
  | true => cases v.msb <;> simp
  | false => simp [cmpI_eq_zero]

/-! ## Kinds -/

inductive KeyKind
  | number | none | str | bytes | tuple | frozenset | slice | union | generic | pointer | other
  deriving DecidableEq

def kind : Object → KeyKind
  | .bool _ | .int .. | .float .. => .number
  | .none => .none
  | .str .. => .str
  | .bytes .. => .bytes
  | .tuple .. => .tuple
  | .frozenset .. => .frozenset
  | .slice .. => .slice
  | .union .. => .union
  | .genericAlias .. => .generic
  | .typeVar _ | .identity _ => .pointer
  | _ => .other

def KeyCode.kind : KeyCode → KeyKind
  | .num _ | .frac _ | .nan _ => .number
  | .none => .none
  | .str _ => .str
  | .bytes _ => .bytes
  | .tuple _ => .tuple
  | .frozen _ => .frozenset
  | .slice _ => .slice
  | .union _ => .union
  | .generic .. => .generic
  | .pointer _ => .pointer

private theorem codeOf_kind {c : KeyCode} (h : codeOf o = some c) : c.kind = kind o := by
  cases o with
  | float a v =>
    obtain rfl := Option.some.inj h
    unfold floatCode
    split
    · rfl
    · split <;> rfl
  | tuple | frozenset | slice | union =>
    rw [codeOf,Option.map_eq_some_iff] at h
    obtain ⟨ks,-,rfl⟩ := h
    rfl
  | genericAlias a origin args =>
    rw [codeOf] at h
    split at h
    · obtain rfl := Option.some.inj h
      rfl
    · cases h
  | none | bool | int | str | bytes | typeVar | identity =>
    obtain rfl := Option.some.inj h
    rfl
  | _ => cases h

/-- Equality of objects that are not numbers, by their constructors. -/
def shapeEquals : Object → Object → Bool
  | .none, .none => true
  | .str _ v, .str _ w => v = w
  | .bytes _ v, .bytes _ w => v = w
  | .tuple _ xs, .tuple _ ys => seqEquals xs ys
  | .frozenset _ xs, .frozenset _ ys => coreEquals xs ys
  | .slice _ x y z, .slice _ x' y' z' => equals x x' && equals y y' && equals z z'
  | .union _ xs, .union _ ys => unionArgsEqual xs ys
  | .genericAlias _ x xs, .genericAlias _ y ys => equals x y && seqEquals xs ys
  | .identity p, .identity q => p = q
  | _, _ => false

theorem equals_eq_shapeEquals (ha : Keyable ok a) (hb : Keyable ok b)
    (hn : ¬ (kind a = .number ∧ kind b = .number)) : equals a b = shapeEquals a b := by
  rw [equals.eq_def]
  cases ha <;> cases hb <;>
    first
    | (simp [kind] at hn; done)
    | simp [numCmp,asInt,asComplex,bufferEqType,bufferEq,bufferEqDunder,Object.same,
        shapeEquals]

/-- Numbers are equal if they have one code, apart from nans, which are not equal to themselves. -/
theorem number_equals_iff (hna : kind a = .number) (hnb : kind b = .number) :
    equals a b = true ↔ codeOf a = codeOf b ∧ ∀ p, codeOf a ≠ some (.nan p) := by
  have hcode : ∀ {p : Addr} {v : Float64}, v.isNaN = true → floatCode p v = .nan p :=
    fun hv => if_pos hv
  have hnot : ∀ {p q : Addr} {v : Float64}, v.isNaN = false → floatCode p v ≠ .nan q := by
    intro p q v hv
    rw [floatCode,hv]
    simp only [Bool.false_eq_true,if_false]
    split <;> simp
  rw [equals.eq_def]
  cases a with
  | bool v | int a v =>
    cases b with
    | bool w | int b w => simp [numCmp,asInt,codeOf,cmpI_eq_zero]
    | float b w =>
      simp only [numCmp,asInt,Option.map_some,codeOf,Option.some.injEq]
      cases hw : w.isNaN with
      | true => simp [floatIntCmp,hw,hcode hw]
      | false =>
        rw [eq_comm (a := KeyCode.num _),← floatIntCmp_eq_zero hw b]
        simp
    | _ => cases hnb
  | float a v =>
    cases hv : v.isNaN with
    | true => cases b <;> cases hnb <;> simp [numCmp,asInt,codeOf,floatIntCmp,hv,hcode hv]
    | false =>
      cases b with
      | bool w | int b w => simpa [numCmp,asInt,codeOf,hnot hv] using floatIntCmp_eq_zero hv a _
      | float b w =>
        cases hw : w.isNaN with
        | true => simp [numCmp,asInt,codeOf,hv,hw,hcode hw,hnot hv]
        | false =>
          simp [numCmp,asInt,codeOf,hv,hw,hnot hv,cmpF,cmpI_eq_zero,
            Float64.floatCode_eq_iff hv hw a b]
      | _ => cases hnb
  | _ => cases hna

private theorem sortStrings_eq_iff {ks ks' : List Bytes} :
    sortStrings ks = sortStrings ks' ↔ ks.Perm ks' := by
  have : Std.Total (α := Bytes) (· ≤ ·) := ⟨List.le_total⟩
  have : IsTrans Bytes (· ≤ ·) := ⟨fun _ _ _ => List.le_trans⟩
  exact insertionSort_eq_iff fun _ _ => List.le_antisymm

private theorem perm_iff_of_nodup {α : Type} {l l' : List α} (hl : l.Nodup) :
    l.Perm l' ↔ l.length = l'.length ∧ ∀ a ∈ l, a ∈ l' := by
  constructor
  · intro h
    exact ⟨h.length_eq,fun a ha => h.mem_iff.mp ha⟩
  · rintro ⟨hlen,hsub⟩
    exact (hl.subperm hsub).perm_of_length_le (Nat.le_of_eq hlen.symm)

theorem coreEquals_iff (hxs : (keysOf xs).Nodup) :
    (keysOf xs).Perm (keysOf ys) ↔ coreEquals xs ys = true := by
  rw [perm_iff_of_nodup hxs]
  simp [coreEquals]
theorem unionArgsEqual_iff (hxs : xs.Nodup) :
    xs.Perm ys ↔ unionArgsEqual xs ys = true := by
  rw [perm_iff_of_nodup hxs]
  simp [unionArgsEqual,Object.same_iff]

/-! ## Keys and equality -/

private theorem kind_eq_of_equals (ha : Keyable ok a) (hb : Keyable ok b)
    (h : equals a b = true) : kind a = kind b := by
  by_contra hkind
  rw [equals_eq_shapeEquals ha hb fun hn => hkind (hn.1.trans hn.2.symm)] at h
  cases ha <;> cases hb <;> first | exact absurd rfl hkind | cases h
theorem KeyCode.kind_eq_of_tag {c c' : KeyCode} (h : c.tag = c'.tag) : c.kind = c'.kind := by
  cases c <;> cases c' <;> first | rfl | exact absurd h (by rw [tag,tag]; decide)

theorem Keyable.exists_code (h : Keyable ok o) : ∃ c, codeOf o = some c := by
  have hkey := toOption_hashKey o
  rw [h.hashKey_eq] at hkey
  cases hc : codeOf o with
  | none => rw [hc] at hkey; cases hkey
  | some c => exact ⟨c,rfl⟩

private theorem keyOf_eq_text {c : KeyCode} (h : codeOf o = some c) : keyOf o = c.text := by
  rw [keyOf,hashKey_eq_ok h]
  rfl

theorem kind_eq_of_keyOf (ha : Keyable ok a) (hb : Keyable ok b) (h : keyOf a = keyOf b) :
    kind a = kind b := by
  obtain ⟨c,hc⟩ := ha.exists_code
  obtain ⟨c',hc'⟩ := hb.exists_code
  rw [keyOf_eq_text hc,keyOf_eq_text hc'] at h
  rw [← codeOf_kind hc,← codeOf_kind hc',KeyCode.kind_eq_of_tag (List.cons.inj h).1]

section
variable (hxs : ∀ x ∈ xs, Keyable ok x) (hys : ∀ y ∈ ys, Keyable ok y) (p q : Addr)
include hxs hys

theorem keyOf_tuple : keyOf (.tuple p xs) = keyOf (.tuple q ys) ↔ xs.map keyOf = ys.map keyOf := by
  rw [keyOf,keyOf,hashKey,hashKey,hashKeys_eq hxs,hashKeys_eq hys]
  simp [Except.map,Except.toOption,delimited_injective.eq_iff]
private theorem keyOf_frozenset :
    keyOf (.frozenset p xs) = keyOf (.frozenset q ys) ↔ (xs.map keyOf).Perm (ys.map keyOf) := by
  rw [keyOf,keyOf,hashKey,hashKey,hashKeys_eq hxs,hashKeys_eq hys]
  simp [Except.map,Except.toOption,delimited_injective.eq_iff,sortStrings_eq_iff]
private theorem keyOf_union_of_perm (h : (xs.map keyOf).Perm (ys.map keyOf)) :
    keyOf (.union p xs) = keyOf (.union q ys) := by
  rw [keyOf,keyOf,hashKey,hashKey,hashKeys_eq hxs,hashKeys_eq hys,Except.map,Except.map,
    sortStrings_eq_iff.mpr h]

end

private theorem keyOf_slice {x y z x' y' z' : Object} (hx : Keyable ok x) (hy : Keyable ok y)
    (hz : Keyable ok z) (hx' : Keyable ok x') (hy' : Keyable ok y') (hz' : Keyable ok z')
    (p q : Addr) : keyOf (.slice p x y z) = keyOf (.slice q x' y' z') ↔
      keyOf x = keyOf x' ∧ keyOf y = keyOf y' ∧ keyOf z = keyOf z' := by
  rw [keyOf,keyOf,hashKey,hashKey,hx.hashKey_eq,hy.hashKey_eq,hz.hashKey_eq,hx'.hashKey_eq,
    hy'.hashKey_eq,hz'.hashKey_eq]
  simp [Except.toOption,delimited_injective.eq_iff]

private theorem keyOf_alias_of_parts {o o' : Object} (ho : Keyable ok o) (ho' : Keyable ok o')
    (hxs : ∀ x ∈ xs, Keyable ok x) (hys : ∀ y ∈ ys, Keyable ok y) (p q : Addr)
    (h : keyOf o = keyOf o') (hs : xs.map keyOf = ys.map keyOf) :
    keyOf (.genericAlias p o xs) = keyOf (.genericAlias q o' ys) := by
  rw [keyOf,keyOf,hashKey,hashKey,ho.hashKey_eq,ho'.hashKey_eq,hashKeys_eq hxs,hashKeys_eq hys,h,hs]

/-! ## Unequal objects of one key -/

mutual

/-- Whether two objects are confused: at one place of both stand unions whose members have the same
keys and are not the same objects, or unions or generic aliases whose parts have different keys that
run into one text. -/
def confused : Object → Object → Bool
  | .tuple _ xs, .tuple _ ys => xs.map keyOf = ys.map keyOf && confusedAny xs ys
  | .slice _ x y z, .slice _ x' y' z' =>
    (keyOf x = keyOf x' && keyOf y = keyOf y' && keyOf z = keyOf z') &&
      (confused x x' || confused y y' || confused z z')
  | a@(.union _ xs), b@(.union _ ys) =>
    if (xs.map keyOf).Perm (ys.map keyOf) then !unionArgsEqual xs ys else keyOf a = keyOf b
  | a@(.genericAlias _ o xs), b@(.genericAlias _ o' ys) =>
    if keyOf o = keyOf o' ∧ xs.map keyOf = ys.map keyOf then confused o o' || confusedAny xs ys
    else keyOf a = keyOf b
  | _, _ => false

def confusedAny : List Object → List Object → Bool
  | x :: xs, y :: ys => confused x y || confusedAny xs ys
  | _, _ => false

end

private theorem kind_eq_of_confused (h : confused a b = true) : kind a = kind b := by
  cases a <;> cases b <;> first | rfl | simp [confused] at h

/-- Equal objects have one key, and the unequal ones of one key are those that are confused. -/
structure Judged (a b : Object) : Prop where
  sound : equals a b = true → keyOf a = keyOf b
  exact : confused a b = true ↔ keyOf a = keyOf b ∧ equals a b = false

theorem judged_of_kind (ha : Keyable ok a) (hb : Keyable ok b)
    (h : kind a = kind b → (kind a ≠ .number → equals a b = shapeEquals a b) → Judged a b) :
    Judged a b := by
  by_cases hkind : kind a = kind b
  · exact h hkind fun hn => equals_eq_shapeEquals ha hb fun hboth => hn hboth.1
  · refine ⟨fun he => absurd (kind_eq_of_equals ha hb he) hkind,fun hc => ?_,fun hk => ?_⟩
    · exact absurd (kind_eq_of_confused hc) hkind
    · exact absurd (kind_eq_of_keyOf ha hb hk.1) hkind

private theorem Keyable.number_judged (ha : Keyable NotNaN a) (hna : kind a = .number)
    (hnb : kind b = .number) : equals a b = true ↔ codeOf a = codeOf b := by
  rw [number_equals_iff hna hnb]
  refine and_iff_left fun p hp => ?_
  cases ha with
  | bool | int => cases hp
  | float a v hv =>
    rw [codeOf,floatCode,hv,Option.some.injEq] at hp
    simp only [Bool.false_eq_true,if_false] at hp
    split at hp <;> cases hp
  | _ => cases hna

private theorem seqEquals_refl (xs : List Object) : seqEquals xs xs = true := by
  induction xs with
  | nil => rfl
  | cons x xs ih => rw [seqEquals,ih,(Object.same_iff x x).mpr rfl]; rfl

private theorem equals_self (h : Keyable NotNaN o)
    (hs : kind o ≠ .number → shapeEquals o o = true) : equals o o = true := by
  by_cases hk : kind o = .number
  · exact (h.number_judged hk hk).mpr rfl
  · exact (equals_eq_shapeEquals h h fun hboth => hk hboth.1).trans (hs hk)

theorem equals_refl (h : Keyable NotNaN o) : equals o o = true := by
  induction h with refine equals_self (by constructor <;> assumption) fun hk => ?_
  | bool | int | float => exact absurd rfl hk
  | none | identity | str | bytes => simp [shapeEquals]
  | tuple a xs => exact seqEquals_refl xs
  | frozenset a xs hxs distinct => exact (coreEquals_iff distinct).mp (.refl _)
  | union a xs hxs distinct => exact (unionArgsEqual_iff distinct).mp (.refl _)
  | slice a x y z hx hy hz ihx ihy ihz =>
    rw [shapeEquals,ihx,ihy,ihz]
    rfl
  | genericAlias a o xs ho hxs iho =>
    rw [shapeEquals,iho,seqEquals_refl]
    rfl

theorem judgedAny (hrefl : ∀ x ∈ xs, equals x x = true) (h : ∀ x ∈ xs, ∀ y ∈ ys, Judged x y) :
    (seqEquals xs ys = true → xs.map keyOf = ys.map keyOf) ∧
      (xs.map keyOf = ys.map keyOf → (confusedAny xs ys = true ↔ seqEquals xs ys = false)) := by
  induction xs generalizing ys with
  | nil => cases ys <;> simp [seqEquals,confusedAny]
  | cons x xs ih =>
    cases ys with
    | nil => simp [seqEquals]
    | cons y ys =>
      obtain ⟨hx,hrefl⟩ := List.forall_mem_cons.mp hrefl
      have hxy := h x List.mem_cons_self y List.mem_cons_self
      obtain ⟨hsound,hexact⟩ := ih hrefl fun x' hx' y' hy' =>
        h x' (List.mem_cons_of_mem x hx') y' (List.mem_cons_of_mem y hy')
      have hsame : (Object.same x y || equals x y) = equals x y := by
        cases hs : Object.same x y with
        | false => rfl
        | true => rw [← (Object.same_iff x y).mp hs,hx]; rfl
      rw [seqEquals,hsame,confusedAny,List.map_cons,List.map_cons,List.cons.injEq,Bool.and_eq_true,
        Bool.or_eq_true]
      refine ⟨fun he => ⟨hxy.sound he.1,hsound he.2⟩,fun hk => ?_⟩
      rw [hxy.exact,hexact hk.2,and_iff_right hk.1,Bool.and_eq_false_iff]

theorem judged_of_iff (hc : confused a b = false) (h : keyOf a = keyOf b ↔ equals a b = true) :
    Judged a b := by
  refine ⟨h.mpr,iff_of_false (by rw [hc]; exact Bool.false_ne_true) fun hk => ?_⟩
  rw [h.mp hk.1] at hk
  cases hk.2

theorem keyOf_number (ha : Keyable ok a) (hb : Keyable ok b) (hna : kind a = .number)
    (hnb : kind b = .number) : keyOf a = keyOf b ↔ codeOf a = codeOf b := by
  obtain ⟨c,hc⟩ := ha.exists_code
  obtain ⟨c',hc'⟩ := hb.exists_code
  have hclear {o : Object} {c : KeyCode} (hn : kind o = .number) (hc : codeOf o = some c) :
      c.Clear := by
    have hk := codeOf_kind hc
    rw [hn] at hk
    cases c <;> trivial
  rw [keyOf_eq_text hc,keyOf_eq_text hc',hc,hc',Option.some.injEq]
  exact ⟨KeyCode.text_injective (hclear hna hc) (hclear hnb hc'),fun h => h ▸ rfl⟩

theorem judged_number (ha : Keyable NotNaN a) (hb : Keyable NotNaN b) (hn : kind a = .number) :
    Judged a b := by
  refine judged_of_kind ha hb fun hkind _ => judged_of_iff ?_ ?_
  · cases ha <;> first | (cases hb <;> simp [confused]; done) | cases hn
  · rw [ha.number_judged hn (hkind ▸ hn),keyOf_number ha hb hn (hkind ▸ hn)]

theorem judged (ha : Keyable NotNaN a) (hb : Keyable NotNaN b) : Judged a b := by
  induction ha generalizing b with
    refine judged_of_kind (by constructor <;> assumption) hb fun hkind heq => ?_
  | bool | int | float a v h => exact judged_number (by constructor <;> assumption) hb rfl
  | none | str | bytes | identity =>
    cases hb <;> cases hkind
    refine judged_of_iff (by simp [confused]) ?_
    rw [heq (by simp [kind])]
    simp [shapeEquals,keyOf,hashKey,Except.toOption,KeyCode.pointerKey_injective.eq_iff]
  | tuple a xs hxs ih =>
    cases hb <;> cases hkind
    rename_i b ys hys
    obtain ⟨hsound,hexact⟩ := judgedAny (fun x hx => equals_refl (hxs x hx)) fun x hx y hy =>
      ih x hx (hys y hy)
    refine ⟨?_,?_⟩ <;> rw [heq (by simp [kind]),shapeEquals,keyOf_tuple hxs hys]
    · exact hsound
    · rw [confused,Bool.and_eq_true,decide_eq_true_eq]
      exact and_congr_right hexact
  | frozenset a xs hxs distinct ih =>
    cases hb <;> cases hkind
    rename_i b ys hys distinct'
    refine judged_of_iff (by simp [confused]) ?_
    rw [heq (by simp [kind]),shapeEquals,← coreEquals_iff distinct,keyOf_frozenset hxs hys,
      keysOf_eq hxs,keysOf_eq hys]
  | slice a x y z hx hy hz ihx ihy ihz =>
    cases hb <;> cases hkind
    rename_i b x' y' z' hx' hy' hz'
    have hkey := keyOf_slice hx hy hz hx' hy' hz' a b
    refine ⟨fun h => ?_,?_⟩
    · rw [heq (by simp [kind]),shapeEquals,Bool.and_eq_true,Bool.and_eq_true] at h
      exact hkey.mpr ⟨(ihx hx').sound h.1.1,(ihy hy').sound h.1.2,(ihz hz').sound h.2⟩
    · rw [heq (by simp [kind]),hkey]
      simp only [shapeEquals,confused,Bool.and_eq_true,decide_eq_true_eq,Bool.or_eq_true,
        (ihx hx').exact,(ihy hy').exact,(ihz hz').exact,Bool.and_eq_false_iff]
      constructor
      · rintro ⟨⟨⟨hkx,hky⟩,hkz⟩,h⟩
        exact ⟨⟨hkx,hky,hkz⟩,h.imp (Or.imp And.right And.right) And.right⟩
      · rintro ⟨⟨hkx,hky,hkz⟩,h⟩
        exact ⟨⟨⟨hkx,hky⟩,hkz⟩,h.imp (Or.imp (.intro hkx) (.intro hky)) (.intro hkz)⟩
  | union a xs hxs distinct ih =>
    cases hb <;> cases hkind
    rename_i b ys hys distinct'
    replace heq := heq (by simp [kind])
    rw [shapeEquals] at heq
    by_cases hperm : (xs.map keyOf).Perm (ys.map keyOf)
    · refine ⟨fun _ => keyOf_union_of_perm hxs hys a b hperm,?_⟩
      rw [confused,if_pos hperm,heq,and_iff_right (keyOf_union_of_perm hxs hys a b hperm),
        Bool.not_eq_true']
    · have hne : equals (.union a xs) (.union b ys) = false := by
        rw [heq]
        by_contra h
        exact hperm (((unionArgsEqual_iff distinct).mpr (by simpa using h)).map _)
      refine ⟨fun h => absurd h (by simp [hne]),?_⟩
      rw [confused,if_neg hperm,decide_eq_true_eq,and_iff_left hne]
  | genericAlias a o xs ho hxs iho ih =>
    cases hb <;> cases hkind
    rename_i b o' ys ho' hys
    obtain ⟨hsound,hexact⟩ := judgedAny (fun x hx => equals_refl (hxs x hx)) fun x hx y hy =>
      ih x hx (hys y hy)
    replace heq := heq (by simp [kind])
    rw [shapeEquals] at heq
    by_cases hparts : keyOf o = keyOf o' ∧ xs.map keyOf = ys.map keyOf
    · have hkey := keyOf_alias_of_parts ho ho' hxs hys a b hparts.1 hparts.2
      refine ⟨fun _ => hkey,?_⟩
      rw [confused,if_pos hparts,heq,and_iff_right hkey,Bool.or_eq_true,(iho ho').exact,
        hexact hparts.2,and_iff_right hparts.1,Bool.and_eq_false_iff]
    · have hne : equals (.genericAlias a o xs) (.genericAlias b o' ys) = false := by
        rw [heq]
        by_contra h
        rw [Bool.not_eq_false,Bool.and_eq_true] at h
        exact hparts ⟨(iho ho').sound h.1,hsound h.2⟩
      refine ⟨fun h => absurd h (by simp [hne]),?_⟩
      rw [confused,if_neg hparts,decide_eq_true_eq,and_iff_left hne]

private theorem not_confusedAny (h : ∀ x ∈ xs, ∀ y ∈ ys, confused x y = false) :
    confusedAny xs ys = false := by
  induction xs generalizing ys with
  | nil => rfl
  | cons x xs ih =>
    cases ys with
    | nil => rfl
    | cons y ys =>
      rw [confusedAny,h x List.mem_cons_self y List.mem_cons_self,ih fun x' hx' y' hy' =>
        h x' (List.mem_cons_of_mem x hx') y' (List.mem_cons_of_mem y hy')]
      rfl

private theorem not_confused_of_clear (ha : Keyable ok a) (hb : Keyable ok b) (hca : clear a = true)
    (hcb : clear b = true) : confused a b = false := by
  -- only a pair of one kind has parts to compare
  induction ha generalizing b with
  | tuple a xs hxs ih =>
    cases hb with
    | tuple b ys hys =>
      rw [clear,clearAll_iff] at hca hcb
      rw [confused,not_confusedAny fun x hx y hy => ih x hx (hys y hy) (hca x hx) (hcb y hy),
        Bool.and_false]
    | _ => rfl
  | slice a x y z hx hy hz ihx ihy ihz =>
    cases hb with
    | slice b x' y' z' hx' hy' hz' =>
      simp only [clear,Bool.and_eq_true] at hca hcb
      rw [confused,ihx hx' hca.1.1 hcb.1.1,ihy hy' hca.1.2 hcb.1.2,ihz hz' hca.2 hcb.2,
        Bool.or_false,Bool.or_false,Bool.and_false]
    | _ => rfl
  | union a xs hxs distinct ih =>
    cases hb with
    | union b ys hys distinct' =>
      rw [confused]
      split
      · rename_i hperm
        obtain ⟨ps,rfl,-⟩ := hashKeys_identities hca
        obtain ⟨qs,rfl,-⟩ := hashKeys_identities hcb
        have hinj : Function.Injective (keyOf ∘ Object.identity) := KeyCode.pointerKey_injective
        rw [List.map_map,List.map_map,List.map_perm_map_iff hinj] at hperm
        rw [(unionArgsEqual_iff distinct).mp (hperm.map _)]
        rfl
      · rename_i hperm
        refine decide_eq_false fun hkey => hperm ?_
        rw [keyOf_eq_iff ⟨.union a xs hxs distinct,hca⟩ ⟨.union b ys hys distinct',hcb⟩,codeOf,
          codeOf,hashKeys_eq hxs,hashKeys_eq hys] at hkey
        exact sortStrings_eq_iff.mp (KeyCode.union.inj (Option.some.inj hkey))
    | _ => rfl
  | genericAlias a o xs ho hxs iho ih =>
    cases hb with
    | genericAlias b o' ys ho' hys =>
      have hkeys := @keyOf_eq_iff ok _ _ ⟨.genericAlias a o xs ho hxs,hca⟩
        ⟨.genericAlias b o' ys ho' hys,hcb⟩
      rw [codeOf,codeOf,ho.hashKey_eq,ho'.hashKey_eq,hashKeys_eq hxs,hashKeys_eq hys] at hkeys
      simp only [clear,Bool.and_eq_true,clearAll_iff] at hca hcb
      rw [confused]
      split
      · rw [iho ho' hca.1.1.1 hcb.1.1.1,
          not_confusedAny fun x hx y hy => ih x hx (hys y hy) (hca.1.2 x hx) (hcb.1.2 y hy)]
        rfl
      · rename_i hparts
        refine decide_eq_false fun hkey => hparts ?_
        exact KeyCode.generic.inj (Option.some.inj (hkeys.mp hkey))
    | _ => rfl
  | _ => cases b <;> rfl

end Unagi.Objects
