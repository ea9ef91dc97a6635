import Unagi.Types.Lattice

/-! # The values of a lattice element

A model says what inference may assume about the values of a program: the linearization of each
value's class, the parts of containers, and what the refinement bits state. Each lattice element
then stands for a set of values. -/

namespace Unagi.Types

/-- The values of a program. `knownLen` is what the bit states of a value whose type gives no
arity; it is left open. -/
structure Model (V : Type) where
  mro : V → List String
  items : V → List V
  entries : V → List (V × V)
  asciiOnly : V → Prop
  nonNegative : V → Prop
  knownLen : V → Prop
  callable : List Char → V → Prop
  proto : String → V → Prop

def Atom.className : Atom → String
  | .none => "NoneType"
  | .bool => "bool"
  | .int => "int"
  | .float => "float"
  | .complex => "complex"
  | .str => "str"
  | .bytes => "bytes"

def Ty.className : Ty → Option String
  | .atom a _ => some a.className
  | .cls n _ => some n
  | .list _ _ => some "list"
  | .set _ _ => some "set"
  | .dict _ _ _ => some "dict"
  | .tuple _ _ | .tupleVar _ _ => some "tuple"
  | _ => none

def Ty.fixedArity : Ty → Bool
  | .tuple _ _ => true
  | _ => false

namespace Model
variable {V : Type} (M : Model V)

def IsA (v : V) (name : String) : Prop := name ∈ M.mro v
instance (v : V) (name : String) : Decidable (M.IsA v name) :=
  inferInstanceAs (Decidable (name ∈ M.mro v))

/-- What the bits `r` of a type say about a value: `name` is the class that the type names, and
the length of a type with an arity is the arity. -/
structure Bits (name : Option String) (fixed : Bool) (r : Refine) (v : V) : Prop where
  asciiOnly : r.asciiOnly = true → M.asciiOnly v
  nonNegative : r.nonNegative = true → M.nonNegative v
  knownLen : r.knownLen = true → fixed = false → M.knownLen v
  exactType : r.exactType = true → ∀ n, name = some n → (M.mro v).head? = some n

mutual
def Has : Ty → V → Prop
  | .never _, _ => False
  | .atom a r, v => M.IsA v a.className ∧ M.Bits (some a.className) false r v
  | .cls n r, v => M.IsA v n ∧ M.Bits (some n) false r v
  | .proto n r, v => M.proto n v ∧ M.Bits none false r v
  | .list t r, v =>
    (M.IsA v "list" ∧ ∀ x ∈ M.items v, Has t x) ∧ M.Bits (some "list") false r v
  | .set t r, v => (M.IsA v "set" ∧ ∀ x ∈ M.items v, Has t x) ∧ M.Bits (some "set") false r v
  | .dict k e r, v =>
    (M.IsA v "dict" ∧ ∀ x ∈ M.entries v, Has k x.1 ∧ Has e x.2) ∧ M.Bits (some "dict") false r v
  | .tuple ts r, v => (M.IsA v "tuple" ∧ HasEach ts (M.items v)) ∧ M.Bits (some "tuple") true r v
  | .tupleVar t r, v =>
    (M.IsA v "tuple" ∧ ∀ x ∈ M.items v, Has t x) ∧ M.Bits (some "tuple") false r v
  | .callable c r, v => M.callable c v ∧ M.Bits none false r v
  | .union ts r, v => HasAny ts v ∧ M.Bits none false r v
  | .dyn _, _ => True

def HasEach : List Ty → List V → Prop
  | [], [] => True
  | t :: ts, v :: vs => Has t v ∧ HasEach ts vs
  | _, _ => False

def HasAny : List Ty → V → Prop
  | [], _ => False
  | t :: ts, v => Has t v ∨ HasAny ts v
end

theorem hasAny_iff (ts : List Ty) (v : V) : M.HasAny ts v ↔ ∃ t ∈ ts, M.Has t v := by
  induction ts with
  | nil => simp [HasAny]
  | cons t ts ih => simp [HasAny,ih]

theorem HasEach.mem {ts : List Ty} {vs : List V} (h : M.HasEach ts vs) :
    ∀ v ∈ vs, ∃ t ∈ ts, M.Has t v := by
  induction ts generalizing vs with
  | nil =>
    cases vs with
    | nil => exact fun v hv => absurd hv List.not_mem_nil
    | cons w ws => exact absurd h (by simp [HasEach])
  | cons t ts ih =>
    cases vs with
    | nil => exact absurd h (by simp [HasEach])
    | cons w ws =>
      rw [HasEach] at h
      intro v hv
      rcases List.mem_cons.mp hv with rfl | hv
      · exact ⟨t,List.mem_cons_self,h.1⟩
      · obtain ⟨u,hu,hhas⟩ := ih h.2 v hv
        exact ⟨u,List.mem_cons_of_mem _ hu,hhas⟩

theorem bits_plain (name : Option String) (fixed : Bool) (v : V) : M.Bits name fixed .plain v where
  asciiOnly h := by cases h
  nonNegative h := by cases h
  knownLen h := by cases h
  exactType h := by cases h
theorem has_setRefine {t : Ty} (ht : t.kind ≠ .dyn) (r : Refine) (v : V) :
    M.Has (t.setRefine r) v ↔ M.Has t.stripRefine v ∧ M.Bits t.className t.fixedArity r v := by
  cases t <;>
    simp_all only [Has,Ty.stripRefine,Ty.setRefine,Ty.className,Ty.fixedArity,
      bits_plain,and_true,false_and,Ty.kind_dyn,ne_eq,not_true_eq_false]
theorem setRefine_refine (t : Ty) : t.setRefine t.refine = t := by cases t <;> rfl

theorem bits_union {name : Option String} {fixed : Bool} {r s : Refine} {v : V} :
    M.Bits name fixed (r.union s) v ↔ M.Bits name fixed r v ∧ M.Bits name fixed s v := by
  have hbits : ∀ r, M.Bits name fixed r v ↔ (r.asciiOnly = true → M.asciiOnly v) ∧
      (r.nonNegative = true → M.nonNegative v) ∧ (r.knownLen = true → fixed = false → M.knownLen v) ∧
      (r.exactType = true → ∀ n, name = some n → (M.mro v).head? = some n) :=
    fun r => ⟨fun h => ⟨h.1,h.2,h.3,h.4⟩,fun h => ⟨h.1,h.2.1,h.2.2.1,h.2.2.2⟩⟩
  simp only [hbits,Refine.union,Bool.or_eq_true,or_imp]
  tauto

theorem has_withRefine {t : Ty} (ht : t.kind ≠ .dyn) (r : Refine) (v : V) :
    M.Has (t.withRefine r) v ↔ M.Has t v ∧ M.Bits t.className t.fixedArity r v := by
  have hown := M.has_setRefine ht t.refine v
  rw [setRefine_refine] at hown
  rw [Ty.withRefine,M.has_setRefine ht,bits_union,hown,and_assoc]
theorem has_bits {t : Ty} (ht : t.kind ≠ .dyn) {v : V} (h : M.Has t v) :
    M.Bits t.className t.fixedArity t.refine v := by
  rw [← setRefine_refine t,has_setRefine M ht] at h
  exact h.2
theorem has_stripRefine {t : Ty} {v : V} (h : M.Has t v) : M.Has t.stripRefine v := by
  by_cases ht : t.kind = .dyn
  · obtain ⟨r,rfl⟩ := (Ty.kind_eq_dyn t).mp ht
    trivial
  · rw [← setRefine_refine t,has_setRefine M ht] at h
    exact h.1
theorem has_dyn (v : V) : M.Has dyn v := trivial

end Model

/-- The linearizations are those of a class hierarchy. -/
structure Hierarchy (mro : String → List String) : Prop where
  trans : ∀ n m k, m ∈ mro n → k ∈ mro m → k ∈ mro n
  antisymm : ∀ n m, m ∈ mro n → n ∈ mro m → n = m
  bool : "int" ∈ mro "bool"

/-- The values keep to the class table: a value of a class is a value of each class that the
table lists for it, and a bool is an int. -/
structure Model.Respects {V : Type} (M : Model V) (mro : String → List String) : Prop where
  bool : ∀ v, M.IsA v "bool" → M.IsA v "int"
  ancestors : ∀ v n m, M.IsA v n → m ∈ mro n → M.IsA v m

section Subtype
variable {mro : String → List String}

theorem classBelow_iff (name : String) (b : Ty) : classBelow mro name b = true ↔
    (∃ m r, b = .cls m r ∧ m ∈ mro name) ∨
      ∃ a r, b = .atom a r ∧ a ≠ .none ∧ a.className ∈ mro name := by
  cases b with
  | cls m r => simp [classBelow]
  | atom a r => cases a <;> simp [classBelow,builtinClassName,Atom.className]
  | _ => simp [classBelow,builtinClassName]

theorem isSubtype_iff (a b : Ty) : isSubtype mro a b = true ↔
    a = b ∨ a.kind = .never ∨ b.kind = .dyn ∨ (a.kind = .atom .bool ∧ b.kind = .atom .int) ∨
      ∃ n r, a = .cls n r ∧ classBelow mro n b = true := by
  unfold isSubtype
  cases a with
  | atom k r => cases k <;> simp
  | _ => simp

theorem isSubtype_sound {V : Type} {M : Model V} (hM : M.Respects mro) {a b : Ty}
    (hsub : isSubtype mro a b = true) (hplain : b.refine = .plain) {v : V} (h : M.Has a v) :
    M.Has b v := by
  rcases (isSubtype_iff a b).mp hsub with rfl | ha | hb | ⟨ha,hb⟩ | ⟨n,r,rfl,hbelow⟩
  · exact h
  · obtain ⟨r,rfl⟩ := (Ty.kind_eq_never a).mp ha
    simp only [Model.Has] at h
  · obtain ⟨r,rfl⟩ := (Ty.kind_eq_dyn b).mp hb
    trivial
  · obtain ⟨r,rfl⟩ := (Ty.kind_eq_atom .bool a).mp ha
    obtain ⟨s,rfl⟩ := (Ty.kind_eq_atom .int b).mp hb
    obtain rfl : s = .plain := hplain
    rw [Model.Has] at h ⊢
    exact ⟨hM.bool v h.1,M.bits_plain _ _ v⟩
  · rw [Model.Has] at h
    rcases (classBelow_iff n b).mp hbelow with ⟨m,s,rfl,hm⟩ | ⟨k,s,rfl,-,hm⟩
    · rw [Ty.refine] at hplain
      rw [hplain,Model.Has]
      exact ⟨hM.ancestors v n m h.1 hm,M.bits_plain _ _ v⟩
    · rw [Ty.refine] at hplain
      rw [hplain,Model.Has]
      exact ⟨hM.ancestors v n _ h.1 hm,M.bits_plain _ _ v⟩

end Subtype
end Unagi.Types
