import Unagi.Build.DirectCalls
import Unagi.Lib.Fresh

/-! # The Go names of the static forms

`planStatic` gives every static unit a Go name of its own, and names the handlers of a unit that
can deoptimise by adding an ending to that name. -/

namespace Unagi.Build
open Frontend (FuncDef Module)
open Lib.Fresh (fresh assign)

/-- What the partitioner decides about a unit: static without a guard, static with guards, or
neither. -/
inductive Tier where
  | boxed | staticFree | deoptTarget
deriving DecidableEq, Repr

def foldChar (c : Char) : Char :=
  if c = '_' ∨ ('a' ≤ c ∧ c ≤ 'z') ∨ ('A' ≤ c ∧ c ≤ 'Z') ∨ ('0' ≤ c ∧ c ≤ '9') then c else '_'

/-- The Go identifier of a qualified name: "static", then the folded name behind the module
marker. -/
def staticBase (qual : List String) : String :=
  "static" ++ String.map foldChar (String.join (qual.map ("." ++ ·)))

/-- The names `staticName` tries: the identifier itself, then with the numbers from 2 on. -/
def nameCandidate (base : String) : Nat → String
  | 0 => base
  | n + 1 => base ++ "_" ++ toString (n + 2)

def staticName (qual : List String) (seen : List String) : String :=
  fresh (nameCandidate (staticBase qual)) seen

/-- The loop over the units: each gets its name from the names seen so far. -/
def nameUnits : List String → List QualFunc → List (QualFunc × String)
  | _, [] => []
  | seen, qf :: qfs =>
    let name := staticName qf.qual seen
    (qf, name) :: nameUnits (name :: seen) qfs

/-- What the names of a plan come from: the module, the decisions, the deopt targets that a shim
can be made for (`VerifyPlan` and `shimEntryFor`), and the defs with a loop to resume
(`resumeShapeFor`). -/
structure NamePlan where
  module : Module
  decision : List String → Tier
  shim : QualFunc → Bool
  resumable : FuncDef → Bool

namespace NamePlan
variable (P : NamePlan)

def tier (qual : List String) : Tier :=
  if redefinedQual P.module qual then .boxed else P.decision qual
def units : List QualFunc :=
  (collectFuncs [] P.module.body).filter fun qf => P.tier qf.qual ≠ .boxed
def names : List (QualFunc × String) :=
  nameUnits [] P.units
def deopt (qf : QualFunc) : Bool :=
  P.tier qf.qual = .deoptTarget && (topLevelName qf.qual).isSome && P.shim qf
def resume (qf : QualFunc) : Bool := P.deopt qf && P.resumable qf.fn

/-- The endings of the names that come with a unit: its deopt handler, its resume handler and
the twin that the resume handler enters. -/
def endings (qf : QualFunc) : List String :=
  (if P.deopt qf then ["_deopt"] else []) ++
    (if P.resume qf then ["_resume", "_resume_twin"] else [])

def introduced : List String :=
  P.names.flatMap fun u => u.2 :: (P.endings u.1).map (u.2 ++ ·)

end NamePlan

/-! ## Endings -/

theorem toString_nat_injective {m n : Nat} (h : toString m = toString n) : m = n := by
  have hdigits : Nat.toDigits 10 m = Nat.toDigits 10 n := by
    rw [Nat.toString_eq_ofList_toDigits,Nat.toString_eq_ofList_toDigits] at h
    exact String.ofList_injective h
  have hval := congrArg (fun ds => Nat.ofDigitChars 10 ds 0) hdigits
  simpa using hval

theorem nameCandidate_injective (base : String) : Function.Injective (nameCandidate base) := by
  intro m n h
  have hlen := congrArg (fun s => s.toList.length) h
  cases m with
  | zero =>
    cases n with
    | zero => rfl
    | succ n => simp [nameCandidate] at hlen
  | succ m =>
    cases n with
    | zero => simp [nameCandidate] at hlen
    | succ n =>
      rw [nameCandidate,nameCandidate,String.append_right_inj] at h
      have hnum := toString_nat_injective h
      omega

def lastChar (s : String) : Option Char := s.toList.getLast?
theorem lastChar_append (a s : String) (hs : s ≠ "") : lastChar (a ++ s) = lastChar s := by
  have hne : s.toList ≠ [] := by simpa using hs
  rw [lastChar,lastChar,String.toList_append,List.getLast?_append_of_ne_nil _ hne]

theorem lastChar_nameCandidate (base : String) (n : Nat) :
    ∃ c, lastChar (nameCandidate base (n + 1)) = some c ∧ c.isDigit = true := by
  have hne : toString (n + 2) ≠ "" := Nat.repr_ne_empty
  rw [nameCandidate,lastChar_append _ _ hne,Nat.toString_eq_ofList_toDigits,lastChar,
    String.toList_ofList]
  refine ⟨_,List.getLast?_eq_getLast_of_ne_nil Nat.toDigits_ne_nil,?_⟩
  exact Nat.isDigit_of_mem_toDigits (by decide) (by decide) (List.getLast_mem _)

theorem ending_eq {a b s t : String} (hs : s ∈ ["_deopt", "_resume", "_resume_twin"])
    (ht : t ∈ ["_deopt", "_resume", "_resume_twin"]) (h : a ++ s = b ++ t) : s = t := by
  have hlast : lastChar s = lastChar t := by
    have hs' : s ≠ "" := by rintro rfl; simp at hs
    have ht' : t ≠ "" := by rintro rfl; simp at ht
    rw [← lastChar_append a s hs',← lastChar_append b t ht',h]
  have hall : ∀ s ∈ ["_deopt","_resume","_resume_twin"],
      ∀ t ∈ ["_deopt","_resume","_resume_twin"], lastChar s = lastChar t → s = t := by
    simp [lastChar]
  exact hall s hs t ht hlast

theorem nameCandidate_ne_derived (base a : String) (n : Nat) {s : String}
    (hs : s ∈ ["_deopt", "_resume", "_resume_twin"]) : nameCandidate base (n + 1) ≠ a ++ s := by
  intro h
  obtain ⟨c,hc,hdigit⟩ := lastChar_nameCandidate base n
  have hs' : s ≠ "" := by rintro rfl; simp at hs
  have hlast : lastChar s = some c := by rw [← lastChar_append a s hs',← h,hc]
  have hno : ∀ t ∈ ["_deopt","_resume","_resume_twin"], ∀ d, lastChar t = some d →
      d.isDigit = false := by
    simp [lastChar]
  exact absurd hdigit (by rw [hno s hs c hlast]; decide)

namespace NamePlan
variable (P : NamePlan)

theorem mem_endings {qf : QualFunc} {s : String} (hs : s ∈ P.endings qf) :
    s ∈ ["_deopt", "_resume", "_resume_twin"] := by
  rw [endings,List.mem_append] at hs
  rcases hs with hs | hs
  · split_ifs at hs
    · rw [List.mem_singleton] at hs
      rw [hs]
      decide
    · exact absurd hs List.not_mem_nil
  · split_ifs at hs
    · exact List.mem_cons_of_mem _ hs
    · exact absurd hs List.not_mem_nil

theorem endings_nodup (qf : QualFunc) : (P.endings qf).Nodup := by
  rw [endings]
  split_ifs <;> decide
theorem names_eq_assign :
    P.names = assign (fun qf : QualFunc => nameCandidate (staticBase qf.qual)) [] P.units := by
  have hunits : ∀ qfs seen, nameUnits seen qfs =
      assign (fun qf : QualFunc => nameCandidate (staticBase qf.qual)) seen qfs := by
    intro qfs
    induction qfs with
    | nil => exact fun _ => rfl
    | cons qf qfs ih =>
      intro seen
      rw [nameUnits,assign,ih]
      rfl
  exact hunits P.units []

theorem names_nodup : (P.names.map Prod.snd).Nodup := by
  rw [names_eq_assign]
  exact (Lib.Fresh.assign_nodup _ (fun qf : QualFunc => nameCandidate_injective (staticBase qf.qual))
    [] P.units).1

theorem name_cases {u : QualFunc × String} (hu : u ∈ P.names) :
    u.2 = staticBase u.1.qual ∨
      ∃ n ≥ 2, u.2 = staticBase u.1.qual ++ "_" ++ toString n := by
  obtain ⟨k,hk⟩ := Lib.Fresh.assign_eq_cand _ (P.names_eq_assign ▸ hu)
  cases k with
  | zero => exact .inl hk
  | succ k => exact .inr ⟨k + 2,by omega,hk⟩

theorem staticBase_mem_names {v : QualFunc} (hv : v ∈ P.units) :
    ∃ w ∈ P.names, w.2 = staticBase v.qual := by
  rw [names_eq_assign]
  rcases Lib.Fresh.first_mem_assign (fun qf : QualFunc => nameCandidate (staticBase qf.qual)) hv
    with h | h
  · exact absurd h List.not_mem_nil
  · exact List.mem_map.mp h

theorem name_eq_derived {w : QualFunc × String} (hw : w ∈ P.names) {a s : String}
    (hs : s ∈ ["_deopt", "_resume", "_resume_twin"]) (h : w.2 = a ++ s) :
    staticBase w.1.qual = a ++ s := by
  obtain ⟨k,hk⟩ := Lib.Fresh.assign_eq_cand _ (P.names_eq_assign ▸ hw)
  cases k with
  | zero => rw [← h,hk]; rfl
  | succ k => exact absurd (hk.symm.trans h) (nameCandidate_ne_derived _ _ _ hs)

theorem own_nodup (u : QualFunc × String) :
    (u.2 :: (P.endings u.1).map (u.2 ++ ·)).Nodup := by
  rw [List.nodup_cons]
  constructor
  · intro hmem
    obtain ⟨s,hs,h⟩ := List.mem_map.mp hmem
    have hempty : s = "" := by simpa using h
    rw [hempty] at hs
    exact absurd (P.mem_endings hs) (by decide)
  · apply (P.endings_nodup u.1).map
    intro s t h
    exact String.append_right_inj u.2 |>.mp h

theorem own_disjoint {u w : QualFunc × String} (hu : u ∈ P.names) (hw : w ∈ P.names)
    (hne : u.2 ≠ w.2)
    (huw : ∀ s ∈ P.endings u.1, staticBase w.1.qual ≠ u.2 ++ s)
    (hwu : ∀ s ∈ P.endings w.1, staticBase u.1.qual ≠ w.2 ++ s) :
    List.Disjoint (u.2 :: (P.endings u.1).map (u.2 ++ ·))
      (w.2 :: (P.endings w.1).map (w.2 ++ ·)) := by
  intro x hxu hxw
  rcases List.mem_cons.mp hxu with rfl | hxu
  · rcases List.mem_cons.mp hxw with h | hxw
    · exact hne h
    · obtain ⟨s,hs,h⟩ := List.mem_map.mp hxw
      exact hwu s hs (P.name_eq_derived hu (P.mem_endings hs) h.symm)
  · obtain ⟨s,hs,rfl⟩ := List.mem_map.mp hxu
    rcases List.mem_cons.mp hxw with h | hxw
    · exact huw s hs (P.name_eq_derived hw (P.mem_endings hs) h.symm)
    · obtain ⟨t,ht,h⟩ := List.mem_map.mp hxw
      obtain rfl := ending_eq (P.mem_endings ht) (P.mem_endings hs) h
      exact hne (String.append_left_inj t |>.mp h.symm)

/-- The introduced identifiers are distinct exactly when no static unit's identifier is the name
of a unit that can deoptimise with one of its endings. -/
theorem introduced_nodup_iff :
    (P.introduced.Nodup ↔ ∀ u ∈ P.names, ∀ s ∈ P.endings u.1, ∀ v ∈ P.units,
      staticBase v.qual ≠ u.2 ++ s) ∧
    ((P.units.map fun v => staticBase v.qual).Nodup →
      ∀ u ∈ P.names, u.2 = staticBase u.1.qual) ∧
    (∀ u ∈ P.names, u.2 = staticBase u.1.qual ∨
      ∃ n ≥ 2, u.2 = staticBase u.1.qual ++ "_" ++ toString n) := by
  refine ⟨⟨?_,?_⟩,?_,fun u hu => P.name_cases hu⟩
  · intro hnd u hu s hs v hv h
    -- the identifier of `v` is the name of some unit, which then clashes with the derived name
    obtain ⟨w,hw,hname⟩ := P.staticBase_mem_names hv
    rw [introduced,List.nodup_flatMap] at hnd
    have hmem : w.2 ∈ (P.endings u.1).map (u.2 ++ ·) :=
      List.mem_map.mpr ⟨s,hs,by rw [hname,h]⟩
    by_cases huw : u = w
    · subst huw
      exact (List.nodup_cons.mp (P.own_nodup u)).1 hmem
    · have hsymm : Std.Symm (Function.onFun List.Disjoint
          fun u : QualFunc × String => u.2 :: (P.endings u.1).map (u.2 ++ ·)) :=
        ⟨fun a b hab => hab.symm⟩
      have hdis := hnd.2.forall hu hw huw
      exact hdis (List.mem_cons_of_mem _ hmem) List.mem_cons_self
  · intro hclear
    rw [introduced,List.nodup_flatMap]
    refine ⟨fun u _ => P.own_nodup u,?_⟩
    have hpair := List.pairwise_map.mp P.names_nodup
    apply hpair.imp_of_mem
    intro u w hu hw hne
    have hunit : ∀ x ∈ P.names, x.1 ∈ P.units := by
      intro x hx
      have hfst : x.1 ∈ P.names.map Prod.fst := List.mem_map.mpr ⟨x,hx,rfl⟩
      rwa [names_eq_assign,Lib.Fresh.assign_map_fst] at hfst
    apply P.own_disjoint hu hw hne
    · exact fun s hs => hclear u hu s hs w.1 (hunit w hw)
    · exact fun s hs => hclear w hw s hs u.1 (hunit u hu)
  · intro hnd u hu
    exact Lib.Fresh.assign_eq_first (fun qf : QualFunc => nameCandidate (staticBase qf.qual)) hnd
      (fun _ _ => List.not_mem_nil) (P.names_eq_assign ▸ hu)

end NamePlan

/-- A def of one parameter with its own type as result that returns `op` of it with itself. -/
def doublingDef (name type : String) (op : Frontend.BinKind) : FuncDef :=
  .mk name [.mk "a" .plain (some (.name type)) none] (some (.name type))
    [.returnStmt (some (.binOp (.name "a") op (.name "a")))] [] false

/-- `def f(a: int)`, whose product may overflow, beside `def f_deopt(a: float)`, which has no
guard. -/
def deoptPairPlan : NamePlan where
  module := ⟨[.funcDef (doublingDef "f" "int" .mul), .funcDef (doublingDef "f_deopt" "float" .add)]⟩
  decision qual := if qual = ["f"] then .deoptTarget else .staticFree
  shim _ := true
  resumable _ := false

/-- The deopt handler of `f` and the static form of `f_deopt` have one name. -/
theorem deoptPair_clash :
    deoptPairPlan.introduced = ["static_f", "static_f_deopt", "static_f_deopt"] ∧
      ¬ deoptPairPlan.introduced.Nodup := by
  have h : deoptPairPlan.introduced = ["static_f","static_f_deopt","static_f_deopt"] := by
    decide +kernel
  rw [h]
  exact ⟨rfl,by decide⟩

end Unagi.Build
