import Unagi.Objects.Float64
import Unagi.Objects.Range

/-! # Builtin objects

A builtin value with the objects that it holds. Each object that is not a singleton has an address,
which stands for the pointer by which the runtime tells it from equal objects. -/

namespace Unagi.Objects

abbrev Bytes := List UInt8

/-- What tells one object from another. -/
abbrev Addr := Nat

def ascii (s : String) : Bytes := s.toList.map fun c => c.toNat.toUInt8

inductive ViewFormat
  | B | b | c | other
  deriving DecidableEq

/-- A memoryview: what it shows of its buffer, and whether the format of its elements is one that
the runtime decodes. -/
structure View where
  released : Bool
  readonly : Bool
  format : ViewFormat
  decodes : Bool
  shape : List Nat
  span : Bytes
  deriving DecidableEq

/-- Builtin objects. `identity` stands for those that are equal to themselves only, such as functions and
classes. A memoryview has the object that it views and the elements that it decodes to. -/
inductive Object
  | none
  | bool (v : Bool)
  | int (addr : Addr) (v : Int)
  | float (addr : Addr) (v : Float64)
  | complex (addr : Addr) (re im : Float64)
  | str (addr : Addr) (v : Bytes)
  | bytes (addr : Addr) (v : Bytes)
  | tuple (addr : Addr) (elts : List Object)
  | list (addr : Addr) (elts : List Object)
  | dict (addr : Addr) (entries : List (Object × Object))
  | set (addr : Addr) (elts : List Object)
  | frozenset (addr : Addr) (elts : List Object)
  | slice (addr : Addr) (start stop step : Object)
  | range (addr : Addr) (r : RangeObject)
  | memoryview (addr : Addr) (view : View) (base : Object) (elements : List Object)
  | union (addr : Addr) (args : List Object)
  | genericAlias (addr : Addr) (origin : Object) (args : List Object)
  | typeVar (addr : Addr)
  | identity (addr : Addr)

namespace Object

@[match_pattern]
abbrev ellipsis : Object := .identity 0

def typeName : Object → String
  | .none => "NoneType"
  | .bool _ => "bool"
  | .int .. => "int"
  | .float .. => "float"
  | .complex .. => "complex"
  | .str .. => "str"
  | .bytes .. => "bytes"
  | .tuple .. => "tuple"
  | .list .. => "list"
  | .dict .. => "dict"
  | .set .. => "set"
  | .frozenset .. => "frozenset"
  | .slice .. => "slice"
  | .range .. => "range"
  | .memoryview .. => "memoryview"
  | .union .. => "typing.Union"
  | .genericAlias .. => "types.GenericAlias"
  | .typeVar _ => "typing.TypeVar"
  | .identity _ => "type"

theorem induct {P : Object → Prop} (none : P .none) (bool : ∀ v, P (.bool v))
    (int : ∀ a v, P (.int a v)) (float : ∀ a v, P (.float a v))
    (complex : ∀ a re im, P (.complex a re im)) (str : ∀ a v, P (.str a v))
    (bytes : ∀ a v, P (.bytes a v))
    (tuple : ∀ a elts, (∀ e ∈ elts, P e) → P (.tuple a elts))
    (list : ∀ a elts, (∀ e ∈ elts, P e) → P (.list a elts))
    (dict : ∀ a entries, (∀ e : Object × Object, e ∈ entries → P e.1 ∧ P e.2) →
      P (.dict a entries))
    (set : ∀ a elts, (∀ e ∈ elts, P e) → P (.set a elts))
    (frozenset : ∀ a elts, (∀ e ∈ elts, P e) → P (.frozenset a elts))
    (slice : ∀ a start stop step, P start → P stop → P step → P (.slice a start stop step))
    (range : ∀ a r, P (.range a r))
    (memoryview : ∀ a view base elements, P base → (∀ e ∈ elements, P e) →
      P (.memoryview a view base elements))
    (union : ∀ a args, (∀ e ∈ args, P e) → P (.union a args))
    (genericAlias : ∀ a origin args, P origin → (∀ e ∈ args, P e) → P (.genericAlias a origin args))
    (typeVar : ∀ a, P (.typeVar a)) (identity : ∀ a, P (.identity a)) (o : Object) : P o :=
  @Object.rec P (fun l => ∀ e ∈ l, P e) (fun l => ∀ e ∈ l, P e.1 ∧ P e.2) (fun p => P p.1 ∧ P p.2)
    none bool int float complex str bytes tuple list dict set frozenset slice range memoryview
    union genericAlias typeVar identity
    (fun _ h => absurd h List.not_mem_nil)
    (fun _ _ hd tl => List.forall_mem_cons.mpr ⟨hd,tl⟩)
    (fun _ h => absurd h List.not_mem_nil)
    (fun _ _ hd tl => List.forall_mem_cons.mpr ⟨hd,tl⟩)
    (fun _ _ h h' => ⟨h,h'⟩) o

mutual

/-- Whether two references are to one object: objects that are equal with their addresses. -/
def same : Object → Object → Bool
  | .none, .none => true
  | .bool v, .bool w => v = w
  | .int a v, .int b w => a = b && v = w
  | .float a v, .float b w => a = b && v = w
  | .complex a re im, .complex b re' im' => a = b && re = re' && im = im'
  | .str a v, .str b w => a = b && v = w
  | .bytes a v, .bytes b w => a = b && v = w
  | .tuple a xs, .tuple b ys => a = b && sameAll xs ys
  | .list a xs, .list b ys => a = b && sameAll xs ys
  | .dict a xs, .dict b ys => a = b && samePairs xs ys
  | .set a xs, .set b ys => a = b && sameAll xs ys
  | .frozenset a xs, .frozenset b ys => a = b && sameAll xs ys
  | .slice a x y z, .slice b x' y' z' => a = b && same x x' && same y y' && same z z'
  | .range a r, .range b r' => a = b && r = r'
  | .memoryview a v x xs, .memoryview b w y ys => a = b && v = w && same x y && sameAll xs ys
  | .union a xs, .union b ys => a = b && sameAll xs ys
  | .genericAlias a x xs, .genericAlias b y ys => a = b && same x y && sameAll xs ys
  | .typeVar a, .typeVar b => a = b
  | .identity a, .identity b => a = b
  | _, _ => false

def sameAll : List Object → List Object → Bool
  | [], [] => true
  | x :: xs, y :: ys => same x y && sameAll xs ys
  | _, _ => false
def samePairs : List (Object × Object) → List (Object × Object) → Bool
  | [], [] => true
  | (k, v) :: xs, (k', v') :: ys => same k k' && same v v' && samePairs xs ys
  | _, _ => false

end

theorem sameAll_iff {xs : List Object} (ih : ∀ x ∈ xs, ∀ y, same x y = true ↔ x = y)
    (ys : List Object) : sameAll xs ys = true ↔ xs = ys := by
  induction xs generalizing ys with
  | nil => cases ys <;> simp [sameAll]
  | cons x xs ihxs =>
    obtain ⟨hx,hxs⟩ := List.forall_mem_cons.mp ih
    cases ys with
    | nil => simp [sameAll]
    | cons y ys => rw [sameAll,Bool.and_eq_true,hx,ihxs hxs,List.cons.injEq]

theorem samePairs_iff {xs : List (Object × Object)}
    (ih : ∀ x ∈ xs, (∀ y, same x.1 y = true ↔ x.1 = y) ∧ ∀ y, same x.2 y = true ↔ x.2 = y)
    (ys : List (Object × Object)) : samePairs xs ys = true ↔ xs = ys := by
  induction xs generalizing ys with
  | nil => cases ys <;> simp [samePairs]
  | cons x xs ihxs =>
    obtain ⟨hx,hxs⟩ := List.forall_mem_cons.mp ih
    cases ys with
    | nil => simp [samePairs]
    | cons y ys =>
      rw [samePairs,Bool.and_eq_true,Bool.and_eq_true,hx.1,hx.2,ihxs hxs,List.cons.injEq,
        Prod.ext_iff]

theorem same_iff (x y : Object) : same x y = true ↔ x = y := by
  induction x using Object.induct generalizing y with
  | tuple a elts ih | list a elts ih | set a elts ih | frozenset a elts ih | union a args ih =>
    cases y <;> simp [same,sameAll_iff ih]
  | dict a entries ih => cases y <;> simp [same,samePairs_iff ih]
  | slice a start stop step ih₁ ih₂ ih₃ => cases y <;> simp [same,ih₁,ih₂,ih₃,and_assoc]
  | memoryview a view base elements ih₁ ih₂ =>
    cases y <;> simp [same,ih₁,sameAll_iff ih₂,and_assoc]
  | genericAlias a origin args ih₁ ih₂ => cases y <;> simp [same,ih₁,sameAll_iff ih₂,and_assoc]
  | _ => cases y <;> simp [same,and_assoc]

instance : DecidableEq Object := fun x y => decidable_of_iff _ (same_iff x y)

end Object
end Unagi.Objects
