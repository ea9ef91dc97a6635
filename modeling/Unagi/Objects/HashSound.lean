import Unagi.Objects.HashNumbers
import Unagi.Objects.KeySound
import Unagi.Objects.RangeExact

/-! # Hashes and keys

Which objects have a hash and which have a key is a matter of their parts. Objects that compare
equal have equal hashes, unless an int was rounded to be compared or the members of sets were taken
for equal by a key that they share. -/

namespace Unagi.Objects

open Lib

/-! ## Parts -/

mutual

def partsAll (p : Object → Bool) : Object → Bool
  | o@(.tuple _ elts) | o@(.frozenset _ elts) | o@(.union _ elts) => p o && partsAllOf p elts
  | o@(.slice _ x y z) => p o && partsAll p x && partsAll p y && partsAll p z
  | o@(.genericAlias _ origin args) => p o && partsAll p origin && partsAllOf p args
  | o@(.memoryview _ _ base _) => p o && partsAll p base
  | o => p o
def partsAllOf (p : Object → Bool) : List Object → Bool
  | [] => true
  | o :: os => partsAll p o && partsAllOf p os

end

def hasPart (p : Object → Bool) (o : Object) : Bool := !partsAll (fun o => !p o) o

/-- The types without a hash and without a key, those that have no key only, and the one that has no
hash only. -/
def refusedByBoth : Object → Bool
  | .list .. | .dict .. | .set .. => true
  | .memoryview _ view _ _ => (viewRefuses view).isSome
  | _ => false
def onlyHashed : Object → Bool
  | .complex .. | .range .. => true
  | .memoryview _ view _ _ => (viewRefuses view).isNone
  | _ => false
def onlyKeyed : Object → Bool
  | .typeVar _ => true
  | _ => false
def hasKeyType : Object → Bool
  | .complex .. | .list .. | .dict .. | .set .. | .range .. | .memoryview .. => false
  | _ => true
def hasHashType : Object → Bool
  | .list .. | .dict .. | .set .. | .typeVar _ => false
  | .memoryview _ view _ _ => (viewRefuses view).isNone
  | _ => true

variable {os : List Object} {p : Object → Bool} {o : Object} {hs hs' : List UInt64}

theorem partsAllOf_iff :
    partsAllOf p os = true ↔ ∀ o ∈ os, partsAll p o = true := by
  induction os with
  | nil => simp [partsAllOf]
  | cons o os ih => rw [partsAllOf,Bool.and_eq_true,ih,List.forall_mem_cons]
private theorem isOk_map {α β ε : Type} (f : α → β) (r : Except ε α) : (r.map f).isOk = r.isOk := by
  cases r <;> rfl

/-- A list has a result if each part has one. -/
theorem isOk_parts {ε β : Type} {f : Object → Except ε β} {fs : List Object → Except ε (List β)}
    (hnil : (fs []).isOk = true)
    (hcons : ∀ o os, (fs (o :: os)).isOk = ((f o).isOk && (fs os).isOk))
    (h : ∀ o ∈ os, (f o).isOk = partsAll p o) : (fs os).isOk = partsAllOf p os := by
  induction os with
  | nil => exact hnil
  | cons o os ih =>
    rw [List.forall_mem_cons] at h
    rw [hcons,partsAllOf,h.1,ih h.2]

private theorem isOk_hashKey (o : Object) : (hashKey o).isOk = partsAll hasKeyType o := by
  have hlist : ∀ {os : List Object}, (∀ o ∈ os, (hashKey o).isOk = partsAll hasKeyType o) →
      (hashKeys os).isOk = partsAllOf hasKeyType os :=
    isOk_parts rfl fun o os => by rw [hashKeys]; cases hashKey o <;> cases hashKeys os <;> rfl
  induction o using Object.induct with
  | tuple a elts ih | frozenset a elts ih | union a args ih =>
    rw [hashKey,isOk_map,hlist ih,partsAll]
    rfl
  | slice a x y z ihx ihy ihz =>
    rw [hashKey,partsAll,← ihx,← ihy,← ihz]
    cases hashKey x <;> cases hashKey y <;> cases hashKey z <;> rfl
  | genericAlias a origin args iho ih =>
    rw [hashKey,partsAll,← iho,← hlist ih]
    cases hashKey origin <;> cases hashKeys args <;> rfl
  | memoryview a view base elements ihb ih => rfl
  | _ => rfl

private theorem isOk_pyHash (o : Object) : (pyHash o).isOk = partsAll hasHashType o := by
  have hlist : ∀ {os : List Object}, (∀ o ∈ os, (pyHash o).isOk = partsAll hasHashType o) →
      (pyHashes os).isOk = partsAllOf hasHashType os :=
    isOk_parts rfl fun o os => by rw [pyHashes]; cases pyHash o <;> cases pyHashes os <;> rfl
  induction o using Object.induct with
  | tuple a elts ih | frozenset a elts ih | union a args ih =>
    rw [pyHash,isOk_map,hlist ih,partsAll]
    rfl
  | slice a x y z ihx ihy ihz =>
    rw [pyHash,partsAll,← ihx,← ihy,← ihz]
    cases pyHash x <;> cases pyHash y <;> cases pyHash z <;> rfl
  | genericAlias a origin args iho ih =>
    rw [pyHash,partsAll,← iho,← hlist ih]
    cases pyHash origin <;> cases pyHashes args <;> rfl
  | memoryview a view base elements ihb ih =>
    rw [pyHash,partsAll,← ihb,hasHashType]
    cases viewRefuses view
    · exact isOk_map _ _
    · rfl
  | _ => rfl

private theorem partsAll_and {q : Object → Bool} (o : Object) :
    partsAll (fun o => p o && q o) o = (partsAll p o && partsAll q o) := by
  have hlist : ∀ {os : List Object},
      (∀ o ∈ os, partsAll (fun o => p o && q o) o = (partsAll p o && partsAll q o)) →
      partsAllOf (fun o => p o && q o) os = (partsAllOf p os && partsAllOf q os) := by
    intro os h
    induction os with
    | nil => rfl
    | cons o os ih =>
      rw [List.forall_mem_cons] at h
      rw [partsAllOf,partsAllOf,partsAllOf,h.1,ih h.2]
      ac_rfl
  induction o using Object.induct with
  | tuple a elts ih | frozenset a elts ih | union a args ih =>
    rw [partsAll,partsAll,partsAll,hlist ih]
    ac_rfl
  | slice a x y z ihx ihy ihz =>
    rw [partsAll,partsAll,partsAll,ihx,ihy,ihz]
    ac_rfl
  | genericAlias a origin args iho ih =>
    rw [partsAll,partsAll,partsAll,iho,hlist ih]
    ac_rfl
  | memoryview a view base elements ihb ih =>
    rw [partsAll,partsAll,partsAll,ihb]
    ac_rfl
  | _ => rfl

private theorem isOk_pyHash_iff (o : Object) :
    (pyHash o).isOk = (!hasPart refusedByBoth o && !hasPart onlyKeyed o) := by
  have htype : hasHashType = fun o => !refusedByBoth o && !onlyKeyed o := by
    funext o
    cases o <;> simp [hasHashType,refusedByBoth,onlyKeyed]
  rw [isOk_pyHash,htype,partsAll_and,hasPart,hasPart,Bool.not_not,Bool.not_not]
private theorem isOk_hashKey_iff (o : Object) :
    (hashKey o).isOk = (!hasPart refusedByBoth o && !hasPart onlyHashed o) := by
  have htype : hasKeyType = fun o => !refusedByBoth o && !onlyHashed o := by
    funext o
    cases o with
    | memoryview a view base elements =>
      cases hv : viewRefuses view <;> simp [hasKeyType,refusedByBoth,onlyHashed,hv]
    | _ => rfl
  rw [isOk_hashKey,htype,partsAll_and,hasPart,hasPart,Bool.not_not,Bool.not_not]

/-! ## Equal codes -/

def numberHash : KeyCode → UInt64
  | .num n => pyHashInt n
  | .frac v => pyHashFloat v
  | .nan a => pyHashPointer a
  | _ => 0

private theorem pyHash_number {c : KeyCode} (hn : kind o = .number) (hc : codeOf o = some c) :
    pyHash o = .ok (numberHash c) := by
  cases o with
  | bool v =>
    obtain rfl := Option.some.inj hc
    cases v <;> decide
  | int a v =>
    obtain rfl := Option.some.inj hc
    rfl
  | float a v =>
    obtain rfl := Option.some.inj hc
    rw [pyHash,floatCode]
    cases hnan : v.isNaN with
    | true => rfl
    | false =>
      simp only [Bool.false_eq_true,if_false]
      split
      · rename_i hint
        simp only [Bool.and_eq_true,Bool.not_eq_true'] at hint
        rw [numberHash,pyHashFloat_of_integral hint.2 hnan (Float64.scaled_of_isIntegral hint.1)]
      · rfl
  | _ => cases hn

private theorem perm_map_of_perm_map {α β γ : Type} {f : α → β} {g : α → γ} {xs ys : List α}
    (hfg : ∀ x ∈ xs, ∀ y ∈ ys, f x = f y → g x = g y) (h : (xs.map f).Perm (ys.map f)) :
    (xs.map g).Perm (ys.map g) := by
  induction xs generalizing ys with
  | nil =>
    have hys : ys = [] := by simpa using h.length_eq.symm
    rw [hys]
  | cons x xs ih =>
    obtain ⟨y,hy,hfy⟩ := List.mem_map.mp (h.mem_iff.mp List.mem_cons_self)
    obtain ⟨s,t,rfl⟩ := List.append_of_mem hy
    have hmid : ((s ++ y :: t).map f).Perm (f y :: (s ++ t).map f) := List.perm_middle.map f
    rw [List.map_cons,← hfy] at h
    have hrest := ih (fun x' hx' y' hy' => hfg x' (List.mem_cons_of_mem x hx') y' (by
      rcases List.mem_append.mp hy' with hs | ht
      · exact List.mem_append_left _ hs
      · exact List.mem_append_right _ (List.mem_cons_of_mem y ht))) (h.trans hmid).cons_inv
    rw [List.map_cons,hfg x List.mem_cons_self y hy hfy.symm]
    exact (hrest.cons (g y)).trans (List.perm_middle.map g).symm

private theorem frozensetHash_perm (h : hs.Perm hs') :
    frozensetHash hs = frozensetHash hs' := by
  have : RightCommutative fun (acc u : UInt64) => acc ^^^ shuffleBits u :=
    ⟨fun a b c => by rw [UInt64.xor_assoc,UInt64.xor_comm (shuffleBits b),← UInt64.xor_assoc]⟩
  rw [frozensetHash,frozensetHash,h.foldl_eq,h.length_eq]
private theorem unionHash_perm (h : hs.Perm hs') : unionHash hs = unionHash hs' := by
  have : RightCommutative fun (acc u : UInt64) => acc ^^^ u :=
    ⟨fun a b c => by rw [UInt64.xor_assoc,UInt64.xor_comm b,← UInt64.xor_assoc]⟩
  rw [unionHash,unionHash,h.foldl_eq]

def hashOf (o : Object) : UInt64 := (pyHash o).toOption.getD 0
private theorem pyHash_eq_of_isOk (h : (pyHash o).isOk) : pyHash o = .ok (hashOf o) := by
  rw [hashOf]
  cases hh : pyHash o with
  | error e => rw [hh] at h; cases h
  | ok x => rfl
theorem pyHashes_eq_map (h : ∀ o ∈ os, (pyHash o).isOk) : pyHashes os = .ok (os.map hashOf) := by
  induction os with
  | nil => rfl
  | cons o os ih =>
    obtain ⟨ho,hos⟩ := List.forall_mem_cons.mp h
    rw [pyHashes,ih hos,pyHash_eq_of_isOk ho,List.map_cons]

/-! ## Hashable objects -/

abbrev AnyFloat (_ : Float64) : Prop := True

/-- The element that a byte of a view is, by its format. -/
inductive Decodes : ViewFormat → UInt8 → Object → Prop
  | unsigned (a : Addr) (b : UInt8) : Decodes .B b (.int a b.toNat)
  | signed (a : Addr) (b : UInt8) :
      Decodes .b b (.int a (if b.toNat < 128 then b.toNat else b.toNat - 256))
  | char (a : Addr) (b : UInt8) : Decodes .c b (.bytes a [b])

/-- Objects with a hash. The members of a set are distinct by their keys and those of a union by
themselves, and a view shows what its bytes are. -/
inductive Hashable : Object → Prop
  | none : Hashable .none
  | bool (v : Bool) : Hashable (.bool v)
  | int (a : Addr) (v : Int) : Hashable (.int a v)
  | float (a : Addr) (v : Float64) : Hashable (.float a v)
  | complex (a : Addr) (re im : Float64) : Hashable (.complex a re im)
  | str (a : Addr) (v : Bytes) : Hashable (.str a v)
  | bytes (a : Addr) (v : Bytes) : Hashable (.bytes a v)
  | range (a : Addr) (r : RangeObject) : Hashable (.range a r)
  | identity (a : Addr) : Hashable (.identity a)
  | tuple (a : Addr) (elts : List Object) (h : ∀ e ∈ elts, Hashable e) : Hashable (.tuple a elts)
  | frozenset (a : Addr) (elts : List Object) (h : ∀ e ∈ elts, Hashable e)
      (hkey : ∀ e ∈ elts, Keyable AnyFloat e) (distinct : (keysOf elts).Nodup) :
      Hashable (.frozenset a elts)
  | slice (a : Addr) (x y z : Object) (hx : Hashable x) (hy : Hashable y) (hz : Hashable z) :
      Hashable (.slice a x y z)
  | union (a : Addr) (args : List Object) (h : ∀ e ∈ args, Hashable e) (distinct : args.Nodup) :
      Hashable (.union a args)
  | genericAlias (a : Addr) (origin : Object) (args : List Object) (ho : Hashable origin)
      (h : ∀ e ∈ args, Hashable e) : Hashable (.genericAlias a origin args)
  | memoryview (a : Addr) (view : View) (base : Object) (elements : List Object)
      (hview : viewRefuses view = none) (hbase : (pyHash base).isOk)
      (h : List.Forall₂ (Decodes view.format) view.span elements) :
      Hashable (.memoryview a view base elements)

theorem Keyable.hashable (h : Keyable AnyFloat o) : Hashable o := by
  induction h with
  | frozenset a elts h distinct ih => exact .frozenset a elts ih h distinct
  | tuple a elts h ih => exact .tuple a elts ih
  | union a args h distinct ih => exact .union a args ih distinct
  | slice a x y z hx hy hz ihx ihy ihz => exact .slice a x y z ihx ihy ihz
  | genericAlias a origin args ho h iho ih => exact .genericAlias a origin args iho ih
  | _ => constructor

private theorem Hashable.isOk (h : Hashable o) : (pyHash o).isOk := by
  induction h with
  | tuple a elts h ih | frozenset a elts h hkey distinct ih | union a args h distinct ih =>
    rw [pyHash,pyHashes_eq_map ih]
    rfl
  | slice a x y z hx hy hz ihx ihy ihz =>
    rw [pyHash,pyHash_eq_of_isOk ihx,pyHash_eq_of_isOk ihy,pyHash_eq_of_isOk ihz]
    rfl
  | genericAlias a origin args ho h iho ih =>
    rw [pyHash,pyHash_eq_of_isOk iho,pyHashes_eq_map ih]
    rfl
  | memoryview a view base elements hview hbase h =>
    rw [pyHash,hview,pyHash_eq_of_isOk hbase]
    rfl
  | _ => rfl
theorem Keyable.isOk (h : Keyable AnyFloat o) : (pyHash o).isOk := h.hashable.isOk

/-! ## Equal values -/

mutual

/-- One value, by the values of the parts: the members of a set or a union have the same keys, and
those of one key are one value. -/
def alike (a b : Object) : Bool :=
  Object.same a b ||
    match a, b with
    | .tuple _ xs, .tuple _ ys => alikeAll xs ys
    | .slice _ x y z, .slice _ x' y' z' => alike x x' && alike y y' && alike z z'
    | .frozenset _ xs, .frozenset _ ys | .union _ xs, .union _ ys =>
      (xs.map keyOf).Perm (ys.map keyOf) && alikeMembers xs ys
    | .genericAlias _ o xs, .genericAlias _ o' ys => alike o o' && alikeAll xs ys
    | _, _ => keyOf a = keyOf b

def alikeAll : List Object → List Object → Bool
  | [], [] => true
  | x :: xs, y :: ys => alike x y && alikeAll xs ys
  | _, _ => false
def alikeMembers : List Object → List Object → Bool
  | [], _ => true
  | x :: xs, ys => (ys.all fun y => keyOf x ≠ keyOf y || alike x y) && alikeMembers xs ys

end

variable {xs ys : List Object} {a b o x y : Object}

private theorem alikeMembers_iff :
    alikeMembers xs ys = true ↔ ∀ x ∈ xs, ∀ y ∈ ys, keyOf x = keyOf y → alike x y = true := by
  induction xs with
  | nil => simp [alikeMembers]
  | cons x xs ih =>
    rw [alikeMembers,Bool.and_eq_true,ih,List.forall_mem_cons,List.all_eq_true]
    simp [← imp_iff_not_or]

private theorem alikeAll_iff :
    alikeAll xs ys = true ↔ List.Forall₂ (fun x y => alike x y = true) xs ys := by
  induction xs generalizing ys with
  | nil => cases ys <;> simp [alikeAll]
  | cons x xs ih => cases ys <;> simp [alikeAll,ih]

/-! ## Hashes by the hashes of the parts -/

section
variable {xs ys : List Object} {p q : Addr}

theorem pyHashes_congr {r : Object → Object → Prop} (h : List.Forall₂ r xs ys)
    (hr : ∀ x ∈ xs, ∀ y ∈ ys, r x y → pyHash x = pyHash y) : pyHashes xs = pyHashes ys := by
  induction h with
  | nil => rfl
  | cons hhead htail ih =>
    rw [pyHashes,pyHashes,hr _ List.mem_cons_self _ List.mem_cons_self hhead,ih fun x hx y hy =>
      hr x (List.mem_cons_of_mem _ hx) y (List.mem_cons_of_mem _ hy)]

private theorem pyHash_tuple_congr (h : pyHashes xs = pyHashes ys) :
    pyHash (.tuple p xs) = pyHash (.tuple q ys) := by rw [pyHash,pyHash,h]
private theorem pyHash_slice_congr {x y z x' y' z' : Object} (hx : pyHash x = pyHash x')
    (hy : pyHash y = pyHash y') (hz : pyHash z = pyHash z') :
    pyHash (.slice p x y z) = pyHash (.slice q x' y' z') := by rw [pyHash,pyHash,hx,hy,hz]
private theorem pyHash_alias_congr {o o' : Object} (ho : pyHash o = pyHash o')
    (h : pyHashes xs = pyHashes ys) :
    pyHash (.genericAlias p o xs) = pyHash (.genericAlias q o' ys) := by rw [pyHash,pyHash,ho,h]

/-- Members of one key have one hash, and the keys are the same. -/
theorem perm_hashOf (hxs : ∀ x ∈ xs, Keyable AnyFloat x) (hys : ∀ y ∈ ys, Keyable AnyFloat y)
    (h : ((xs.map keyOf).Perm (ys.map keyOf) && alikeMembers xs ys) = true)
    (ih : ∀ x ∈ xs, ∀ y ∈ ys, alike x y = true → pyHash x = pyHash y) :
    (xs.map hashOf).Perm (ys.map hashOf) := by
  rw [Bool.and_eq_true,decide_eq_true_eq] at h
  refine perm_map_of_perm_map (fun x hx y hy hkey => ?_) h.1
  have hhash := ih x hx y hy (alikeMembers_iff.mp h.2 x hx y hy hkey)
  rwa [pyHash_eq_of_isOk (hxs x hx).isOk,pyHash_eq_of_isOk (hys y hy).isOk,Except.ok.injEq] at hhash

theorem pyHash_frozenset_congr (hxs : ∀ x ∈ xs, (pyHash x).isOk)
    (hys : ∀ y ∈ ys, (pyHash y).isOk) (h : (xs.map hashOf).Perm (ys.map hashOf)) :
    pyHash (.frozenset p xs) = pyHash (.frozenset q ys) := by
  rw [pyHash,pyHash,pyHashes_eq_map hxs,pyHashes_eq_map hys,Except.map,Except.map,
    frozensetHash_perm h]
private theorem pyHash_union_congr (hxs : ∀ x ∈ xs, (pyHash x).isOk)
    (hys : ∀ y ∈ ys, (pyHash y).isOk) (h : (xs.map hashOf).Perm (ys.map hashOf)) :
    pyHash (.union p xs) = pyHash (.union q ys) := by
  rw [pyHash,pyHash,pyHashes_eq_map hxs,pyHashes_eq_map hys,Except.map,Except.map,
    unionHash_perm h]

end

/-- What makes two objects alike that are not the same one. -/
def alikeParts : Object → Object → Bool
  | .tuple _ xs, .tuple _ ys => alikeAll xs ys
  | .slice _ x y z, .slice _ x' y' z' => alike x x' && alike y y' && alike z z'
  | .frozenset _ xs, .frozenset _ ys | .union _ xs, .union _ ys =>
    (xs.map keyOf).Perm (ys.map keyOf) && alikeMembers xs ys
  | .genericAlias _ o xs, .genericAlias _ o' ys => alike o o' && alikeAll xs ys
  | a, b => keyOf a = keyOf b

private theorem alike_cases (ha : Keyable AnyFloat a) (hb : Keyable AnyFloat b)
    (h : alike a b = true) : a = b ∨ kind a = kind b ∧ alikeParts a b = true := by
  have hparts : alike a b = (Object.same a b || alikeParts a b) := by
    rw [alike.eq_def]
    cases a <;> cases b <;> rfl
  rw [hparts,Bool.or_eq_true,Object.same_iff] at h
  refine h.imp_right fun h => ⟨?_,h⟩
  unfold alikeParts at h
  split at h
  · rfl
  · rfl
  · rfl
  · rfl
  · rfl
  · exact kind_eq_of_keyOf ha hb (decide_eq_true_eq.mp h)

theorem pyHash_number_of_alike (ha : Keyable AnyFloat a) (hb : Keyable AnyFloat b)
    (hn : kind a = .number) (h : alike a b = true) : pyHash a = pyHash b := by
  obtain rfl | ⟨hkind,hparts⟩ := alike_cases ha hb h
  · rfl
  have hkey : keyOf a = keyOf b := by
    unfold alikeParts at hparts
    split at hparts <;> first | exact of_decide_eq_true hparts | cases hn
  have hcode := (keyOf_number ha hb hn (hkind ▸ hn)).mp hkey
  obtain ⟨c,hc⟩ := ha.exists_code
  rw [pyHash_number hn hc,pyHash_number (hkind ▸ hn) (hcode ▸ hc)]

theorem pyHash_eq_of_alike (ha : Keyable AnyFloat a) (hb : Keyable AnyFloat b)
    (h : alike a b = true) : pyHash a = pyHash b := by
  induction ha generalizing b with
    refine (alike_cases (by constructor <;> assumption) hb h).elim (congrArg pyHash)
      (And.rec fun hkind hparts => ?_)
  | bool | int | float a v h' =>
    exact pyHash_number_of_alike (by constructor <;> assumption) hb rfl h
  | none | str | bytes | identity =>
    cases hb <;> cases hkind
    simp [alikeParts,keyOf,hashKey,Except.toOption,KeyCode.pointerKey_injective.eq_iff] at hparts
    simp [pyHash,hparts]
  | tuple a xs hxs ih =>
    cases hb <;> cases hkind
    rename_i b ys hys
    exact pyHash_tuple_congr
      (pyHashes_congr (alikeAll_iff.mp hparts) fun x hx y hy => ih x hx (hys y hy))
  | frozenset a xs hxs distinct ih =>
    cases hb <;> cases hkind
    rename_i b ys hys distinct'
    exact pyHash_frozenset_congr (fun x hx => (hxs x hx).isOk) (fun y hy => (hys y hy).isOk)
      (perm_hashOf hxs hys hparts fun x hx y hy => ih x hx (hys y hy))
  | union a xs hxs distinct ih =>
    cases hb <;> cases hkind
    rename_i b ys hys distinct'
    exact pyHash_union_congr (fun x hx => (hxs x hx).isOk) (fun y hy => (hys y hy).isOk)
      (perm_hashOf hxs hys hparts fun x hx y hy => ih x hx (hys y hy))
  | slice a x y z hx hy hz ihx ihy ihz =>
    cases hb <;> cases hkind
    rename_i b x' y' z' hx' hy' hz'
    simp only [alikeParts,Bool.and_eq_true] at hparts
    exact pyHash_slice_congr (ihx hx' hparts.1.1) (ihy hy' hparts.1.2) (ihz hz' hparts.2)
  | genericAlias a o xs ho hxs iho ih =>
    cases hb <;> cases hkind
    rename_i b o' ys ho' hys
    simp only [alikeParts,Bool.and_eq_true] at hparts
    exact pyHash_alias_congr (iho ho' hparts.1)
      (pyHashes_congr (alikeAll_iff.mp hparts.2) fun x hx y hy => ih x hx (hys y hy))

/-! ## Numbers and buffers -/

private theorem Float64.eq_symm (v w : Float64) : v.eq w = w.eq v := by
  rw [Float64.eq,Float64.eq,Bool.and_comm (!v.isNaN)]
  simp only [eq_comm]

theorem pyHashFloat_congr {v w : Float64} (h : v.eq w = true) : pyHashFloat v = pyHashFloat w := by
  simp only [Float64.eq,Bool.and_eq_true,Bool.not_eq_true',decide_eq_true_eq] at h
  obtain ⟨⟨hv,hw⟩,heq⟩ := h
  have hzero {u : Float64} (hu : u.isNaN = false) (h : u.scaled = 0) :
      pyHashFloat u = pyHashInt 0 := by
    refine pyHashFloat_of_integral ?_ hu (by rw [h,Int.zero_mul])
    by_contra hinf
    exact Float64.scaled_ne_zero_of_isInf (by simpa using hinf) h
  by_cases hv0 : v.scaled = 0
  · rw [hzero hv hv0,hzero hw (heq ▸ hv0)]
  · rw [Float64.eq_of_scaled_eq heq hv0]

private theorem pyHashFloat_ne (v : Float64) : pyHashFloat v ≠ -1 := by
  have hnot (r : UInt64) : notMinusOne r (-2) ≠ -1 := by
    unfold notMinusOne
    split
    · decide
    · assumption
  unfold pyHashFloat
  split
  · split <;> decide
  · split
    · decide
    · exact hnot _

private theorem pyHashComplex_real {re im : Float64} (h : im.eq 0 = true) :
    pyHashComplex re im = pyHashFloat re := by
  have hzero : pyHashFloat 0 = 0 := by decide +kernel
  rw [pyHashComplex,pyHashFloat_congr h,hzero,UInt64.mul_zero,UInt64.add_zero,notMinusOne,
    if_neg (pyHashFloat_ne re)]

/-- An int that the double is not. -/
def rounded (re : Float64) (o : Object) : Bool :=
  match asInt o with
  | some i => re.isInf || re.scaled ≠ i * Float64.one
  | none => false

theorem pyHash_of_complex {re im v w : Float64} (ho : asComplex o = some (v, w))
    (hre : re.eq v = true) (him : im.eq w = true) (hr : rounded re o = false) :
    pyHash o = .ok (pyHashComplex re im) := by
  have hnan : re.isNaN = false ∧ v.isNaN = false := by
    simp only [Float64.eq,Bool.and_eq_true,Bool.not_eq_true'] at hre
    exact hre.1
  have hint {i : Int} (hi : asInt o = some i) (hw : w = 0) : pyHashComplex re im = pyHashInt i := by
    simp only [rounded,hi,Bool.or_eq_false_iff,decide_eq_false_iff_not,not_not] at hr
    rw [pyHashComplex_real (hw ▸ him),pyHashFloat_of_integral hr.1 hnan.1 hr.2]
  cases o with
  | complex a re' im' =>
    cases ho
    rw [pyHash,pyHashComplex,pyHashComplex,pyHashFloat_congr hre,pyHashFloat_congr him]
  | float a x =>
    cases ho
    rw [pyHashComplex_real him,pyHashFloat_congr hre,pyHash,hnan.2]
    rfl
  | int a i =>
    cases ho
    rw [hint rfl rfl]
    rfl
  | bool b =>
    cases ho
    rw [hint rfl rfl]
    cases b <;> decide
  | _ => cases ho

theorem byte_eq_of_elements {f g : ViewFormat} {b c : UInt8} (hx : Decodes f b x)
    (hy : Decodes g c y) (h : elementEquals x y = true) : b = c := by
  have hint {p q : Addr} {v w : Int} (h : elementEquals (.int p v) (.int q w) = true) : v = w := by
    simp only [elementEquals,Object.same,numCmp,asInt,Bool.not_false,Bool.true_and,Bool.or_eq_true,
      Bool.and_eq_true,decide_eq_true_eq,cmpI_eq_zero] at h
    exact h.elim And.right id
  have hb := b.toNat_lt
  have hc := c.toNat_lt
  cases hx <;> cases hy
  case char.char =>
    simp [elementEquals,Object.same,numCmp,asInt] at h
    exact h.elim And.right id
  case unsigned.char | signed.char | char.unsigned | char.signed => cases h
  all_goals
    have heq := hint h
    apply UInt8.toNat_inj.mp
    try split at heq
    all_goals try split at heq
    all_goals omega

private theorem span_eq_of_elements {f g : ViewFormat} {bs cs : Bytes}
    (hx : List.Forall₂ (Decodes f) bs xs) (hy : List.Forall₂ (Decodes g) cs ys)
    (h : elementsEqual xs ys = true) : bs = cs := by
  induction hx generalizing cs ys with
  | nil => cases hy <;> first | rfl | cases h
  | cons hhead htail ih =>
    cases hy with
    | nil => cases h
    | cons hhead' htail' =>
      rw [elementsEqual,Bool.and_eq_true] at h
      rw [byte_eq_of_elements hhead hhead' h.1,ih htail' h.2]

def contents : Object → Option Bytes
  | .bytes _ v => some v
  | .memoryview _ view _ _ => some view.span
  | _ => none

/-! ## Equal objects have equal hashes -/

mutual

/-- Whether a comparison is misled: it rounds an int to the real part of a complex number, or it
takes members of sets for equal that have one key and are not alike. -/
def misled : Object → Object → Bool
  | .complex _ re _, b => rounded re b
  | a, .complex _ re _ => rounded re a
  | .tuple _ xs, .tuple _ ys => misledAny xs ys
  | .slice _ x y z, .slice _ x' y' z' => misled x x' || misled y y' || misled z z'
  | .genericAlias _ o xs, .genericAlias _ o' ys => misled o o' || misledAny xs ys
  | .frozenset _ xs, .frozenset _ ys => !alikeMembers xs ys
  | _, _ => false

def misledAny : List Object → List Object → Bool
  | x :: xs, y :: ys => misled x y || misledAny xs ys
  | _, _ => false

end

theorem pyHash_of_contents {bs : Bytes} (ho : Hashable o) (h : contents o = some bs) :
    pyHash o = .ok (pyHashBytes bs) := by
  cases ho with
  | bytes a v =>
    cases h
    rfl
  | memoryview a view base elements hview hbase helts =>
    cases h
    rw [pyHash,hview]
    cases hb : pyHash base with
    | ok x => rfl
    | error e => rw [hb] at hbase; cases hbase
  | _ => cases h

private theorem bufferElements_decode (ho : Hashable o) (h : bufferElements o = some xs) :
    ∃ f bs, contents o = some bs ∧ List.Forall₂ (Decodes f) bs xs := by
  cases ho with
  | bytes a v =>
    cases h
    refine ⟨.B,v,rfl,?_⟩
    induction v with
    | nil => exact .nil
    | cons b v ih => exact .cons (.unsigned _ b) ih
  | memoryview a view base elements hview hbase helts =>
    rw [bufferElements] at h
    split at h
    · cases h
    · cases h
      exact ⟨view.format,view.span,rfl,helts⟩
  | _ => cases h

private theorem contents_of_bufferEqDunder (hx : Hashable x) (hy : Hashable y)
    (h : bufferEqDunder x y = some true) : pyHash x = pyHash y := by
  cases hx with
  | bytes a v =>
    cases hy <;> simp [bufferEqDunder] at h
    rw [pyHash,pyHash,h]
  | memoryview a view base elements hview hbase helts =>
    have hx := Hashable.memoryview a view base elements hview hbase helts
    rw [bufferEqDunder] at h
    split at h
    · rw [(Object.same_iff _ _).mp (Option.some.inj h)]
    · split at h
      · cases h
      · rename_i others hothers
        obtain ⟨f,bs,hbs,hdecode⟩ := bufferElements_decode hy hothers
        split at h
        · cases h
        · split at h
          · cases h
          · have hspan := span_eq_of_elements helts hdecode (Option.some.inj h)
            rw [pyHash_of_contents hx rfl,pyHash_of_contents hy hbs,hspan]
  | _ => cases h

private theorem pyHash_eq_of_bufferEq (hx : Hashable x) (hy : Hashable y)
    (h : bufferEq x y = true) : pyHash x = pyHash y := by
  rw [bufferEq] at h
  cases hxy : bufferEqDunder x y with
  | some r =>
    rw [hxy] at h
    exact contents_of_bufferEqDunder hx hy (by rw [hxy]; exact congrArg some h)
  | none =>
    cases hyx : bufferEqDunder y x with
    | some r =>
      rw [hxy,hyx] at h
      exact (contents_of_bufferEqDunder hy hx (by rw [hyx]; exact congrArg some h)).symm
    | none =>
      rw [hxy,hyx] at h
      rw [(Object.same_iff x y).mp h]

/-- Equality of objects that are neither numbers nor buffers. -/
def plainEquals : Object → Object → Bool
  | .none, .none => true
  | .str _ v, .str _ w => v = w
  | .list _ xs, .list _ ys | .tuple _ xs, .tuple _ ys => seqEquals xs ys
  | .dict _ xs, .dict _ ys => xs.length = ys.length && entriesEqual xs ys
  | .set _ xs, .set _ ys | .set _ xs, .frozenset _ ys => coreEquals xs ys
  | .frozenset _ xs, .set _ ys | .frozenset _ xs, .frozenset _ ys => coreEquals xs ys
  | .range _ r, .range _ r' => rangeEquals r r'
  | .slice _ x y z, .slice _ x' y' z' => equals x x' && equals y y' && equals z z'
  | .union _ xs, .union _ ys => unionArgsEqual xs ys
  | .genericAlias _ x xs, .genericAlias _ y ys => equals x y && seqEquals xs ys
  | .typeVar p, .typeVar q | .identity p, .identity q => p = q
  | _, _ => false

private theorem asComplex_of_numCmp (h : numCmp a b ≠ none) :
    (asComplex a).isSome ∧ (asComplex b).isSome := by
  cases a <;> cases b <;> first | exact ⟨rfl,rfl⟩ | exact absurd rfl h

/-- Equal objects are both numbers, or equal as buffers or as other objects. -/
theorem equals_cases (h : equals a b = true) :
    (asComplex a).isSome ∧ (asComplex b).isSome ∨ bufferEq a b = true ∨ plainEquals a b = true := by
  rw [equals.eq_def] at h
  split at h
  · rename_i hnum
    exact .inl (asComplex_of_numCmp (by rw [hnum]; exact Option.some_ne_none _))
  split at h
  · rename_i ha hb
    exact .inl ⟨by rw [ha]; rfl,by rw [hb]; rfl⟩
  · cases h
  · cases h
  right
  split at h
  · exact .inl h
  · refine .inr ?_
    cases a <;> cases b <;> exact h

private theorem pyHash_number_of_equals (ha : (asComplex a).isSome) (hb : (asComplex b).isSome)
    (h : equals a b = true) (hm : misled a b = false) : pyHash a = pyHash b := by
  obtain ⟨⟨v,w⟩,ha⟩ := Option.isSome_iff_exists.mp ha
  obtain ⟨⟨v',w'⟩,hb⟩ := Option.isSome_iff_exists.mp hb
  -- a complex number has no order, so it is compared by its parts
  have hparts (hnum : numCmp a b = none) : v.eq v' = true ∧ w.eq w' = true := by
    rw [equals.eq_def,hnum,ha,hb] at h
    exact Bool.and_eq_true _ _ ▸ h
  by_cases hkind : kind a = .number ∧ kind b = .number
  · obtain ⟨hna,hnb⟩ := hkind
    have hcode := ((number_equals_iff hna hnb).mp h).1
    obtain ⟨c,hc⟩ : ∃ c, codeOf a = some c := by cases a <;> first | exact ⟨_,rfl⟩ | cases hna
    rw [pyHash_number hna hc,pyHash_number hnb (hcode ▸ hc)]
  cases a with
  | complex p re im =>
    cases ha
    have h := hparts (by cases b <;> rfl)
    rw [pyHash_of_complex hb h.1 h.2 (by cases b <;> exact hm)]
    rfl
  | bool | int | float =>
    cases b with
    | complex q re im =>
      cases hb
      have h := hparts rfl
      rw [Float64.eq_symm,Float64.eq_symm w] at h
      rw [pyHash_of_complex ha h.1 h.2 hm]
      rfl
    | bool | int | float => exact absurd ⟨rfl,rfl⟩ hkind
    | _ => cases hb
  | _ => cases ha

private theorem rangeHash_congr {r r' : RangeObject} (h : rangeEquals r r' = true) :
    rangeHash r = rangeHash r' := by
  rw [rangeEquals_cases] at h
  simp only [Bool.and_eq_true,Bool.or_eq_true,decide_eq_true_eq] at h
  obtain ⟨hlen,hrest⟩ := h
  rw [rangeHash,rangeHash,← hlen]
  rcases hrest with hzero | ⟨hstart,hone | hstep⟩
  · simp [hzero]
  · simp [hone,hstart]
  · simp [hstart,hstep]

private theorem misledAny_forall (h : seqEquals xs ys = true) (hm : misledAny xs ys = false) :
    List.Forall₂ (fun x y => (Object.same x y || equals x y) = true ∧ misled x y = false) xs ys := by
  induction xs generalizing ys with
  | nil => cases ys <;> first | exact .nil | cases h
  | cons x xs ih =>
    cases ys with
    | nil => cases h
    | cons y ys =>
      rw [seqEquals,Bool.and_eq_true] at h
      rw [misledAny,Bool.or_eq_false_iff] at hm
      exact .cons ⟨h.1,hm.1⟩ (ih h.2 hm.2)

private theorem pyHash_of_plain (ha : Hashable a) (hb : Hashable b) (h : equals a b = true)
    (hm : misled a b = false) (hplain : plainEquals a b = true → pyHash a = pyHash b) :
    pyHash a = pyHash b := by
  rcases equals_cases h with ⟨hna,hnb⟩ | hbuffer | heq
  · exact pyHash_number_of_equals hna hnb h hm
  · exact pyHash_eq_of_bufferEq ha hb hbuffer
  · exact hplain heq

/-- Objects that compare equal have one hash, unless the comparison is misled. -/
theorem pyHash_eq_of_equals (ha : Hashable a) (hb : Hashable b) (h : equals a b = true)
    (hm : misled a b = false) : pyHash a = pyHash b := by
  have hseq {xs ys : List Object} (hxs : ∀ x ∈ xs, ∀ y ∈ ys, equals x y = true →
      misled x y = false → pyHash x = pyHash y) (h : seqEquals xs ys = true)
      (hm : misledAny xs ys = false) : pyHashes xs = pyHashes ys := by
    refine pyHashes_congr (misledAny_forall h hm) fun x hx y hy hxy => ?_
    rw [Bool.or_eq_true,Object.same_iff] at hxy
    obtain ⟨rfl | heq,hm⟩ := hxy
    · rfl
    · exact hxs x hx y hy heq hm
  induction ha generalizing b with
    refine pyHash_of_plain (by constructor <;> assumption) hb h hm fun hplain => ?_
  | none | str | identity | bool | int | float | complex | bytes =>
    cases hb <;> first
      | (cases hplain; done) | rfl | (simp [plainEquals] at hplain; simp [pyHash,hplain])
  | range a r =>
    cases hb with
    | range b r' => exact congrArg Except.ok (rangeHash_congr hplain)
    | _ => cases hplain
  | memoryview => cases hb <;> cases hplain
  | tuple a xs hxs ih =>
    cases hb with
    | tuple b ys hys =>
      exact pyHash_tuple_congr (hseq (fun x hx y hy => ih x hx (hys y hy)) hplain hm)
    | _ => cases hplain
  | frozenset a xs hhxs hxs distinct =>
    cases hb with
    | frozenset b ys _ hys distinct' =>
      have hkeys := (coreEquals_iff distinct).mpr hplain
      rw [keysOf_eq hxs,keysOf_eq hys] at hkeys
      have hmembers : alikeMembers xs ys = true := by simpa [misled] using hm
      exact pyHash_frozenset_congr (fun x hx => (hxs x hx).isOk) (fun y hy => (hys y hy).isOk)
        (perm_hashOf hxs hys (by simp [hkeys,hmembers])
          fun x hx y hy => pyHash_eq_of_alike (hxs x hx) (hys y hy))
    | _ => cases hplain
  | slice a x y z hx hy hz ihx ihy ihz =>
    cases hb with
    | slice b x' y' z' hx' hy' hz' =>
      simp only [plainEquals,Bool.and_eq_true] at hplain
      simp only [misled,Bool.or_eq_false_iff] at hm
      exact pyHash_slice_congr (ihx hx' hplain.1.1 hm.1.1) (ihy hy' hplain.1.2 hm.1.2)
        (ihz hz' hplain.2 hm.2)
    | _ => cases hplain
  | union a xs hxs distinct =>
    cases hb with
    | union b ys hys distinct' =>
      exact pyHash_union_congr (fun x hx => (hxs x hx).isOk) (fun y hy => (hys y hy).isOk)
        (((unionArgsEqual_iff distinct).mpr hplain).map hashOf)
    | _ => cases hplain
  | genericAlias a o xs ho hxs iho ih =>
    cases hb with
    | genericAlias b o' ys ho' hys =>
      simp only [plainEquals,Bool.and_eq_true] at hplain
      simp only [misled,Bool.or_eq_false_iff] at hm
      exact pyHash_alias_congr (iho ho' hplain.1 hm.1)
        (hseq (fun x hx y hy => ih x hx (hys y hy)) hplain.2 hm.2)
    | _ => cases hplain

/-- An object has a hash exactly if it has a key, unless a type among its parts is hashed only or
keyed only; and objects that compare equal have one hash, unless the comparison is misled. -/
theorem hash_and_key_agree (a b : Object) :
    ((pyHash a).isOk = (hashKey a).isOk ↔
      hasPart refusedByBoth a = true ∨ hasPart onlyHashed a = hasPart onlyKeyed a) ∧
    (Hashable a → Hashable b → misled a b = false → equals a b = true → pyHash a = pyHash b) := by
  constructor
  · rw [isOk_pyHash_iff,isOk_hashKey_iff]
    cases hasPart refusedByBoth a <;> cases hasPart onlyHashed a <;> cases hasPart onlyKeyed a <;>
      decide
  · intro ha hb hm h
    exact pyHash_eq_of_equals ha hb h hm

/-- `(3, range(3), 2j)` and `(3.0, range(0, 3, 1), 2j)`, which have no keys, and a view of bytes with
the bytes themselves. -/
theorem hash_of_equal_numbers :
    pyHash (.tuple 1 [.int 2 3, .range 3 (newRangeBig 0 3 1), .complex 4 0 0x4000000000000000]) =
      pyHash (.tuple 5 [.float 6 0x4008000000000000, .range 7 (newRangeBig 0 3 1),
        .complex 8 0 0x4000000000000000]) ∧
    pyHash (.memoryview 9 ⟨false, true, .B, true, [1], [7]⟩ (.bytes 10 [7]) [.int 7 7]) =
      pyHash (.bytes 10 [7]) := by
  constructor
  · refine (hash_and_key_agree _ _).2 (.tuple 1 _ ?_) (.tuple 5 _ ?_) (by decide +kernel)
      (by decide +kernel)
    · simp [Hashable.int,Hashable.range,Hashable.complex]
    · simp [Hashable.float,Hashable.range,Hashable.complex]
  · refine (hash_and_key_agree _ _).2 (.memoryview 9 _ _ _ rfl rfl ?_) (.bytes 10 _)
      (by decide +kernel) (by decide +kernel)
    exact .cons (.unsigned 7 7) .nil

/-- A complex number and a range have hashes but no keys; an int that a double cannot hold is equal
to the complex number it rounds to, with another hash. -/
theorem hash_without_key :
    (pyHash (.complex 1 0 0)).isOk = true ∧ (hashKey (.complex 1 0 0)).isOk = false ∧
    (pyHash (.range 2 (newRangeBig 0 3 1))).isOk = true ∧
    (hashKey (.range 2 (newRangeBig 0 3 1))).isOk = false ∧
    equals (.int 3 (2 ^ 53 + 1)) (.complex 4 (Float64.ofInt (2 ^ 53)) 0) = true ∧
    (pyHash (.int 3 (2 ^ 53 + 1))).toOption ≠
      (pyHash (.complex 4 (Float64.ofInt (2 ^ 53)) 0)).toOption := by
  decide +kernel

end Unagi.Objects
