import Mathlib.Data.List.TakeWhile
import Unagi.Objects.Mro
import Unagi.Types.Unions

/-! # The class table of the interner

A join of two classes registers their nearest common ancestor with the tail of the first MRO, where
it is not registered yet, and the first registration stays. -/

namespace Unagi.Types

def c3 (mro : String → List String) (c : String) (bases : List String) : Option (List String) :=
  (Objects.c3Merge id (bases.map mro ++ [bases])).toOption.map (c :: ·)

/-- A hierarchy whose classes have linearizations; a class without bases of its own has `object`. -/
structure ClassTree where
  bases : String → List String
  mro : String → List String
  rooted : ∀ c, bases c = [] ↔ c = "object"
  linear : ∀ c, c3 mro c (bases c) = some (mro c)

/-- The class table, the joins that are known, and the elements that callers have. -/
structure Interner where
  classes : List (String × List String)
  joinMemo : List ((Ty × Ty) × Ty)
  returned : List Ty

namespace Interner

def baseElems : List Ty :=
  [.never .plain, .atom .none .plain, .atom .bool .plain, .atom .int .plain, .atom .float .plain,
    .atom .complex .plain, .atom .str .plain, .atom .bytes .plain, dyn]
def new : Interner := ⟨[], [], baseElems⟩

variable (st : Interner)

def mroOf (name : String) : List String := (st.classes.lookup name).getD []

/-- The first registration of a name fixes its MRO. -/
def classRef (name : String) (mro : List String) : Interner :=
  match st.classes.lookup name with
  | some _ => st
  | none => { st with classes := (name, if mro = [] then [name] else mro) :: st.classes }

/-- The join; without containers, the only class that it can register is a common ancestor. It
returns every other class as it got it, and such a class is registered already. -/
def joinUncached (a b : Ty) : Ty × Interner :=
  let r := Types.join st.mroOf a b
  match a, r with
  | .cls x _, .cls n _ => (r, st.classRef n ((st.mroOf x).dropWhile (· ≠ n)))
  | _, _ => (r, st)

def join (a b : Ty) : Ty × Interner :=
  if a = b then (a, st)
  else
    match st.joinMemo.find? fun e => e.1 = (a, b) ∨ e.1 = (b, a) with
    | some e => (e.2, st)
    | none =>
      let (r, st) := st.joinUncached a b
      (r, { st with joinMemo := ((a, b), r) :: st.joinMemo })

inductive Call where
  | cls (name : String)
  | join (i j : Nat)

def give (t : Ty) : Interner := { st with returned := st.returned ++ [t] }
def step (tree : ClassTree) : Call → Interner
  | .cls name => (st.classRef name (tree.mro name)).give (.cls name .plain)
  | .join i j =>
    match st.returned[i]?, st.returned[j]? with
    | some a, some b => (st.join a b).2.give (st.join a b).1
    | _, _ => st
def run (tree : ClassTree) (calls : List Call) : Interner :=
  calls.foldl (fun st call => st.step tree call) new

/-- Every class element has the linearization of its class. -/
def Linear (tree : ClassTree) : Prop :=
  ∀ n r, .cls n r ∈ st.returned → st.classes.lookup n = some (tree.mro n)

end Interner

/-- Where neither of two classes is below the other, the tail of the first one's MRO from a nearest
common ancestor is the MRO of that ancestor. -/
def ClassTree.TailsLinear (tree : ClassTree) : Prop :=
  ∀ a b n, a ∉ tree.mro b → b ∉ tree.mro a →
    (tree.mro a).find? (fun name => name ≠ "object" && name ∈ tree.mro b) = some n →
      (tree.mro a).dropWhile (· ≠ n) = tree.mro n

/-! ## What a join returns -/

section
variable {mro : String → List String}

def IsAtom (t : Ty) : Prop := ∃ a, t = .atom a .plain

/-- The elements that the calls build: no containers and no bits. -/
def Flat : Ty → Prop
  | .never r | .atom _ r | .cls _ r | .dyn r => r = .plain
  | .union ts r => r = .plain ∧ ∀ t ∈ ts, IsAtom t
  | _ => False

theorem Flat.refine_eq {t : Ty} (h : Flat t) : t.refine = .plain := by
  cases t with
  | never r | atom a r | cls n r | dyn r => exact h
  | union ts r => exact h.1
  | _ => exact h.elim
theorem Flat.stripRefine_eq {t : Ty} (h : Flat t) : t.stripRefine = t := by
  have hr := h.refine_eq
  cases t <;> cases hr <;> rfl

theorem makeUnion_flat {members : List Ty} (h : ∀ t ∈ members, Flat t ∧ t.kind ≠ .cls) :
    Flat (makeUnion mro members) ∧ (makeUnion mro members).kind ≠ .cls := by
  have hkept (hno : ∀ t ∈ members, t.kind ≠ .dyn) : ∀ t ∈ keptParts mro members, IsAtom t := by
    intro t ht
    obtain ⟨u,hu,htu⟩ := List.mem_flatMap.mp (mem_keptParts.mp ht).1
    have hu' := h u hu
    cases u with
    | never r => exact absurd htu List.not_mem_nil
    | atom a r => exact ⟨a,(List.mem_singleton.mp htu).trans (congrArg _ hu'.1)⟩
    | cls n r => exact absurd rfl hu'.2
    | dyn r => exact absurd rfl (hno _ hu)
    | union ts r => exact hu'.1.2 t htu
    | _ => exact hu'.1.elim
  cases @makeUnion_made mro members with
  | dyn _ _ heq | never _ heq => simp [heq,dyn,never,Flat]
  | one hno hone =>
    obtain ⟨a,heq⟩ := hkept hno _ (hone ▸ List.mem_singleton_self _)
    simp [heq,Flat]
  | @widened hno acc m ms hcons _ heq =>
    obtain ⟨a,rfl⟩ := hkept hno acc (hcons ▸ List.mem_cons_self)
    have hdyn := (@widen_cases mro (.atom a .plain) m ms).resolve_right (by simp)
    simp [heq,hdyn,dyn,Flat]
  | union hno _ _ _ heq =>
    rw [heq]
    exact ⟨⟨rfl,fun t ht => hkept hno t ((List.mem_insertionSort _).mp ht)⟩,by simp⟩

theorem join_cases {a b : Ty} (ha : Flat a) (hb : Flat b) :
    join mro a b = a ∨ join mro a b = b ∨
      (∃ x y, a = .cls x .plain ∧ b = .cls y .plain ∧ x ∉ mro y ∧ y ∉ mro x ∧
        join mro a b = commonAncestor mro x y) ∨
      Flat (join mro a b) ∧ (join mro a b).kind ≠ .cls := by
  have hdyn : Flat dyn ∧ dyn.kind ≠ .cls := ⟨rfl,by simp [dyn]⟩
  rw [join,joinN]
  split
  · exact .inl rfl
  rename_i hne
  rw [joinUncached,ha.stripRefine_eq,hb.stripRefine_eq,ha.refine_eq,hb.refine_eq]
  split
  · exact .inr (.inr (.inr hdyn))
  split
  · exact .inr (.inl rfl)
  split
  · exact .inl rfl
  dsimp only
  rw [if_neg (fun h => h.1 rfl)]
  unfold structuralJoin
  rw [if_neg hne]
  split
  · exact .inr (.inl rfl)
  split
  · exact .inl rfl
  rename_i hdyns hnever hnever' hab hba
  have hunion : a.kind ≠ .cls → b.kind ≠ .cls →
      Flat (makeUnion mro [a,b]) ∧ (makeUnion mro [a,b]).kind ≠ .cls := by
    intro hka hkb
    exact makeUnion_flat
      (List.forall_mem_cons.mpr ⟨⟨ha,hka⟩,List.forall_mem_singleton.mpr ⟨hb,hkb⟩⟩)
  cases a with
  | never r => exact absurd rfl hnever
  | dyn r => exact absurd (.inl rfl) hdyns
  | cls x r =>
    cases b with
    | cls y s =>
      cases (show r = .plain from ha)
      cases (show s = .plain from hb)
      have hy : y ∉ mro x := fun h => hab ((isSubtype_iff _ _).mpr
        (.inr (.inr (.inr (.inr ⟨x,_,rfl,decide_eq_true h⟩)))))
      have hx : x ∉ mro y := fun h => hba ((isSubtype_iff _ _).mpr
        (.inr (.inr (.inr (.inr ⟨y,_,rfl,decide_eq_true h⟩)))))
      exact .inr (.inr (.inl ⟨x,y,rfl,rfl,hx,hy,rfl⟩))
    | _ => exact .inr (.inr (.inr hdyn))
  | atom k r | union ts r =>
    cases b with
    | never s => exact absurd rfl hnever'
    | dyn s => exact absurd (.inr rfl) hdyns
    | cls y s => exact .inr (.inr (.inr hdyn))
    | atom k' s | union us s =>
      simp only [Ty.kind_atom,Ty.kind_union,reduceCtorEq,and_self,if_false]
      exact .inr (.inr (.inr (hunion (by simp) (by simp))))
    | _ => exact hb.elim
  | _ => exact ha.elim

theorem join_unrelated {x y : String} (hx : x ∉ mro y) (hy : y ∉ mro x) (hne : x ≠ y) :
    join mro (.cls x .plain) (.cls y .plain) = commonAncestor mro x y := by
  have hplain : Refine.plain.inter .plain = .plain := rfl
  simp [join,joinN,joinUncached,Ty.stripRefine,Ty.setRefine,structuralJoin,isSubtype,classBelow,
    Ty.refine,hplain,hx,hy,hne,hne.symm]

end

/-! ## Runs -/

variable {tree : ClassTree}

theorem ClassTree.mro_head (tree : ClassTree) (c : String) : ∃ rest, tree.mro c = c :: rest := by
  obtain ⟨rest,-,hrest⟩ := Option.map_eq_some_iff.mp (tree.linear c)
  exact ⟨rest,hrest.symm⟩
theorem ClassTree.mem_mro_self (tree : ClassTree) (c : String) : c ∈ tree.mro c := by
  obtain ⟨rest,hrest⟩ := tree.mro_head c
  rw [hrest]
  exact List.mem_cons_self

namespace Interner
variable {st : Interner} {a b : Ty}

theorem lookup_classRef (n m : String) (l : List String) : (st.classRef n l).classes.lookup m =
    (st.classes.lookup m).or (if m = n then some (if l = [] then [n] else l) else none) := by
  unfold classRef
  split
  · rename_i found hn
    by_cases hm : m = n
    · rw [hm,hn]
      rfl
    · rw [if_neg hm,Option.or_none]
  · rename_i hn
    by_cases hm : m = n
    · rw [hm,hn,if_pos rfl,Option.none_or]
      exact List.lookup_cons_self
    · rw [if_neg hm,Option.or_none,List.lookup_cons,beq_eq_false_iff_ne.mpr hm]

theorem classRef_of_known {n : String} (h : (st.classes.lookup n).isSome) (l : List String) :
    st.classRef n l = st := by
  obtain ⟨found,hn⟩ := Option.isSome_iff_exists.mp h
  rw [classRef,hn]
@[simp] theorem classRef_returned (n : String) (l : List String) :
    (st.classRef n l).returned = st.returned := by
  unfold classRef
  split <;> rfl
@[simp] theorem classRef_joinMemo (n : String) (l : List String) :
    (st.classRef n l).joinMemo = st.joinMemo := by
  unfold classRef
  split <;> rfl
def Knows (st : Interner) (t : Ty) : Prop :=
  Flat t ∧ ∀ n r, t = .cls n r → (st.classes.lookup n).isSome

/-- What a run keeps: the registered MROs are those of the tree. -/
structure Faithful (tree : ClassTree) (st : Interner) : Prop where
  linear : ∀ n l, st.classes.lookup n = some l → l = tree.mro n
  known : ∀ t ∈ st.returned, st.Knows t
  memo : ∀ e ∈ st.joinMemo, e.2 ∈ st.returned

theorem Faithful.mroOf_eq (h : Faithful tree st) {n : String} {r : Refine}
    (hn : .cls n r ∈ st.returned) : st.mroOf n = tree.mro n := by
  obtain ⟨l,hl⟩ := Option.isSome_iff_exists.mp ((h.known _ hn).2 n r rfl)
  rw [mroOf,hl]
  exact h.linear n l hl

theorem Faithful.classRef (h : Faithful tree st) (n : String) :
    Faithful tree (st.classRef n (tree.mro n)) ∧
      (st.classRef n (tree.mro n)).Knows (.cls n .plain) := by
  have hhead : tree.mro n ≠ [] := List.ne_nil_of_mem (tree.mem_mro_self n)
  refine ⟨⟨?_,?_,?_⟩,rfl,?_⟩
  · intro m l hl
    rw [lookup_classRef,if_neg hhead,Option.or_eq_some_iff] at hl
    rcases hl with hl | ⟨-,hl⟩
    · exact h.linear m l hl
    · split at hl
      · rename_i hm
        rw [hm]
        exact (Option.some.inj hl).symm
      · cases hl
  · intro t ht
    rw [classRef_returned] at ht
    refine ⟨(h.known t ht).1,fun m r hm => ?_⟩
    rw [lookup_classRef,Option.isSome_or,(h.known t ht).2 m r hm,Bool.true_or]
  · intro e he
    rw [classRef_joinMemo] at he
    rw [classRef_returned]
    exact h.memo e he
  · intro m r hm
    cases hm
    rw [lookup_classRef,if_pos rfl,Option.isSome_or,Option.isSome_some,Bool.or_true]

theorem Faithful.give (h : Faithful tree st) {t : Ty} (ht : st.Knows t) : Faithful tree (st.give t) where
  linear := h.linear
  known u hu := by
    rcases List.mem_append.mp hu with hu | hu
    · exact h.known u hu
    · rw [List.mem_singleton.mp hu]
      exact ht
  memo e he := List.mem_append_left _ (h.memo e he)

theorem joinUncached_of_knows (h : st.Knows (Types.join st.mroOf a b)) :
    st.joinUncached a b = (Types.join st.mroOf a b, st) := by
  unfold joinUncached
  dsimp only
  split
  · rename_i hr
    rw [classRef_of_known (h.2 _ _ hr)]
  · rfl

theorem Faithful.joinUncached (h : Faithful tree st) (htails : tree.TailsLinear)
    (ha : a ∈ st.returned) (hb : b ∈ st.returned) :
    Faithful tree (st.joinUncached a b).2 ∧ (st.joinUncached a b).2.Knows (st.joinUncached a b).1 := by
  have hknown : st.Knows (Types.join st.mroOf a b) → Faithful tree (st.joinUncached a b).2 ∧
      (st.joinUncached a b).2.Knows (st.joinUncached a b).1 := by
    intro hr
    rw [joinUncached_of_knows hr]
    exact ⟨h,hr⟩
  rcases @join_cases st.mroOf a b (h.known a ha).1 (h.known b hb).1 with
    hr | hr | ⟨x,y,rfl,rfl,hx,hy,hr⟩ | ⟨hflat,hcls⟩
  · exact hknown (hr.symm ▸ h.known a ha)
  · exact hknown (hr.symm ▸ h.known b hb)
  · rw [commonAncestor] at hr
    rw [h.mroOf_eq ha] at hr hy
    rw [h.mroOf_eq hb] at hr hx
    split at hr
    · rename_i n hn
      unfold Interner.joinUncached
      simp only [hr,h.mroOf_eq ha]
      rw [htails x y n hx hy hn]
      exact h.classRef n
    · exact hknown (hr.symm ▸ ⟨rfl,fun n r hd => by cases hd⟩)
  · refine hknown ⟨hflat,fun n r hr => ?_⟩
    rw [hr] at hcls
    exact absurd rfl hcls

theorem Faithful.step (h : Faithful tree st) (htails : tree.TailsLinear) (call : Call) :
    Faithful tree (st.step tree call) := by
  cases call with
  | cls name => exact (h.classRef name).1.give (h.classRef name).2
  | join i j =>
    rw [Interner.step]
    split
    · rename_i a b hi hj
      have ha := List.mem_of_getElem? hi
      have hb := List.mem_of_getElem? hj
      unfold Interner.join
      split
      · exact h.give (h.known a ha)
      · split
        · rename_i e he
          exact h.give (h.known _ (h.memo e (List.mem_of_find?_eq_some he)))
        · obtain ⟨hnext,hr⟩ := h.joinUncached htails ha hb
          refine ⟨(hnext.give hr).linear,(hnext.give hr).known,?_⟩
          intro e he
          rcases List.mem_cons.mp he with rfl | he
          · exact List.mem_append_right _ List.mem_cons_self
          · exact (hnext.give hr).memo e he
    · exact h

theorem Faithful.run (htails : tree.TailsLinear) (calls : List Call) :
    Faithful tree (run tree calls) := by
  have hnew : Faithful tree new := by
    refine ⟨fun n l hl => (by cases hl),?_,fun e he => absurd he List.not_mem_nil⟩
    simp [new,baseElems,Knows,Flat,dyn]
  have hrun : ∀ st, Faithful tree st →
      Faithful tree (calls.foldl (fun st call => st.step tree call) st) := by
    induction calls with
    | nil => exact fun _ h => h
    | cons call calls ih => exact fun st h => ih (st.step tree call) (h.step htails call)
  exact hrun new hnew

theorem run_pair {a b : String} (hne : a ≠ b) : run tree [.cls a, .cls b] =
    ⟨[(b, tree.mro b), (a, tree.mro a)], [], baseElems ++ [.cls a .plain, .cls b .plain]⟩ := by
  have hhead : ∀ n, tree.mro n ≠ [] := fun n => List.ne_nil_of_mem (tree.mem_mro_self n)
  have hba : (b == a) = false := beq_eq_false_iff_ne.mpr hne.symm
  simp [run,step,Interner.classRef,Interner.give,new,List.lookup_cons,hhead,hba]

/-- In all runs over a tree the class elements have the linearizations of their classes if and only
if the tails of its MROs are linearizations. -/
theorem joined_classes_linear_iff (tree : ClassTree) :
    (∀ calls, (run tree calls).Linear tree) ↔ tree.TailsLinear := by
  constructor
  · intro h a b n ha hb hn
    have hne : a ≠ b := fun hab => ha (hab ▸ tree.mem_mro_self a)
    have hshared := List.find?_some hn
    rw [Bool.and_eq_true,decide_eq_true_eq,decide_eq_true_eq] at hshared
    have hna : n ≠ a := fun h => ha (h ▸ hshared.2)
    have hnb : n ≠ b := fun h => hb (h ▸ List.mem_of_find?_eq_some hn)
    have hmem := List.mem_of_find?_eq_some hn
    have htail : (tree.mro a).dropWhile (· ≠ n) ≠ [] := by
      intro hnil
      simpa using List.dropWhile_eq_nil_iff.mp hnil n hmem
    generalize hst : run tree [.cls a,.cls b] = st
    rw [run_pair hne] at hst
    have hma : st.mroOf a = tree.mro a := by
      simp [← hst,mroOf,List.lookup_cons,beq_eq_false_iff_ne.mpr hne]
    have hmb : st.mroOf b = tree.mro b := by simp [← hst,mroOf]
    have hnew : st.classes.lookup n = none := by
      simp [← hst,List.lookup_cons,beq_eq_false_iff_ne.mpr hna,beq_eq_false_iff_ne.mpr hnb]
    have hjoin : st.joinUncached (.cls a .plain) (.cls b .plain) =
        (.cls n .plain, st.classRef n ((tree.mro a).dropWhile (· ≠ n))) := by
      have hr := join_unrelated (hmb.symm ▸ ha) (hma.symm ▸ hb) hne
      rw [commonAncestor,hma,hmb,hn] at hr
      unfold joinUncached
      simp only [hr,hma]
    have hrun : run tree [.cls a,.cls b,.join 9 10] =
        (st.join (.cls a .plain) (.cls b .plain)).2.give
          (st.join (.cls a .plain) (.cls b .plain)).1 := by
      change (run tree [.cls a,.cls b]).step tree (.join 9 10) = _
      rw [run_pair hne,hst,step,← hst]
      rfl
    have hlinear := h [.cls a,.cls b,.join 9 10] n .plain
    have hmemo : st.joinMemo = [] := by rw [← hst]
    simp only [hrun,Interner.join,hjoin,hmemo,Interner.give,Ty.cls.injEq,hne,false_and,if_false,
      List.find?_nil] at hlinear
    have htable := hlinear (List.mem_append_right _ List.mem_cons_self)
    rw [lookup_classRef,hnew,if_pos rfl,if_neg htail,Option.none_or] at htable
    exact Option.some.inj htable
  · intro htails calls n r hn
    have hrun := Faithful.run htails calls
    obtain ⟨l,hl⟩ := Option.isSome_iff_exists.mp ((hrun.known _ hn).2 n r rfl)
    rw [hl,hrun.linear n l hl]

open Objects in
def diamond : ClassTree where
  bases c :=
    if c = "object" then [] else if c = "B" ∨ c = "C" then ["A"] else if c = "D" then ["B", "C"]
    else if c = "E" then ["B"] else ["object"]
  mro c :=
    if c = "object" then [c] else if c = "B" ∨ c = "C" then [c, "A", "object"]
    else if c = "D" then ["D", "B", "C", "A", "object"] else if c = "E" then ["E", "B", "A", "object"]
    else [c, "object"]
  rooted c := by
    split_ifs with h
    · simp [h]
    all_goals simp [h]
  linear c := by
    rw [c3]
    split_ifs with h₁ h₂ h₃ h₄
    · rw [c3Merge_nil rfl]
      rfl
    · rw [c3Merge_cons (c := "A") rfl,c3Merge_cons (c := "object") rfl,c3Merge_nil rfl]
      rfl
    · rw [c3Merge_cons (c := "B") rfl,c3Merge_cons (c := "C") rfl,c3Merge_cons (c := "A") rfl,
        c3Merge_cons (c := "object") rfl,c3Merge_nil rfl,h₃]
      rfl
    · rw [c3Merge_cons (c := "B") rfl,c3Merge_cons (c := "A") rfl,
        c3Merge_cons (c := "object") rfl,c3Merge_nil rfl,h₄]
      rfl
    · rw [c3Merge_cons (c := "object") rfl,c3Merge_nil rfl]
      rfl

/-- The join of `D` and `E` is `B`, and it makes `B` a subclass of `C`. -/
theorem diamond_ancestor_below_sibling :
    (run diamond [.cls "D", .cls "E", .join 9 10]).returned.getLast? = some (.cls "B" .plain) ∧
    (run diamond [.cls "D", .cls "E", .join 9 10]).classes.lookup "B" =
      some ["B", "C", "A", "object"] ∧
    diamond.mro "B" = ["B", "A", "object"] ∧
    ¬ (run diamond [.cls "D", .cls "E", .join 9 10]).Linear diamond := by
  have hlookup : (run diamond [.cls "D",.cls "E",.join 9 10]).classes.lookup "B" =
      some ["B","C","A","object"] := by decide +kernel
  have hlast : (run diamond [.cls "D",.cls "E",.join 9 10]).returned.getLast? =
      some (.cls "B" .plain) := by decide +kernel
  refine ⟨hlast,hlookup,by decide,?_⟩
  intro h
  have hB := h "B" .plain (List.mem_of_getLast? hlast)
  rw [hlookup] at hB
  exact absurd hB (by decide)

end Interner
end Unagi.Types
