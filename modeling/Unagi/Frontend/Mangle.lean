import Mathlib.Data.List.TakeWhile
import Unagi.Frontend.Renaming

/-! # Private names

Inside a class an identifier that begins with two underscores and does not end with two is private: it
stands for a name that begins with the name of the class. `MangleClassPrivates` rewrites these names,
though not everywhere that the language does, and by the name that it gave the class. -/

namespace Unagi.Frontend

def mangleEligible (name : String) : Bool :=
  "__".toList.isPrefixOf name.toList && !"__".toList.isSuffixOf name.toList
def mangleName (priv name : String) : String :=
  if priv = "" || !mangleEligible name then name else "_" ++ priv ++ name
def classPriv (name : String) : String := String.ofList (name.toList.dropWhile (· = '_'))

/-- The pass keeps the prefix for the class around it, empty outside. -/
def manglePass : Pass String where
  rename priv
    | .plain, name => mangleName priv name
    | .annot, name | .classKeyword, name | .typeAlias, name | .importName, name => name
  -- the class has its new name already when the prefix for its body is taken from it
  enter priv name := classPriv (mangleName priv name)

def mangleStmts (stmts : List Stmt) (priv : String) : List Stmt := renameStmts manglePass priv stmts
def mangleClassPrivates (m : Module) : Module := ⟨mangleStmts m.body ""⟩

/-- `_Py_Mangle`, for an identifier in these classes, the innermost first. The dotted path of an import
is left as it is. -/
def pyMangle (classes : List String) (at_ : Place) (name : String) : String :=
  match classes with
  | [] => name
  | cls :: _ =>
    let bare := String.ofList (cls.toList.dropWhile (· = '_'))
    if bare = "" ∨ ¬ "__".toList <+: name.toList ∨ "__".toList <:+ name.toList ∨
        at_ = .importName ∧ '.' ∈ name.toList then name
    else "_" ++ bare ++ name

def pyPass : Pass (List String) where
  rename := pyMangle
  enter classes name := name :: classes
def pyMangled (m : Module) : Module := ⟨renameStmts pyPass [] m.body⟩
def Stripped (priv : String) : Prop := priv.toList.head? ≠ some '_'

theorem stripped_classPriv (name : String) : Stripped (classPriv name) := by
  unfold Stripped classPriv
  rw [String.toList_ofList]
  intro h
  have hnot := List.head?_dropWhile_not (· = '_') name.toList
  rw [h] at hnot
  simp at hnot

theorem mangleEligible_iff (name : String) :
    mangleEligible name = true ↔ "__".toList <+: name.toList ∧ ¬ "__".toList <:+ name.toList := by
  rw [mangleEligible,Bool.and_eq_true,Bool.not_eq_true',List.isPrefixOf_iff_prefix,
    ← List.isSuffixOf_iff_suffix,Bool.not_eq_true]

theorem classPriv_ne_of_eligible {name : String} (h : mangleEligible name = true) :
    classPriv name ≠ "" := by
  intro hempty
  obtain ⟨hpre,hsuf⟩ := (mangleEligible_iff name).mp h
  have hnil : name.toList.dropWhile (· = '_') = [] := by
    simpa [classPriv] using congrArg String.toList hempty
  have hall : ∀ c ∈ name.toList, c = '_' := fun c hc =>
    of_decide_eq_true (List.dropWhile_eq_nil_iff.mp hnil c hc)
  have hrep : name.toList = List.replicate name.toList.length '_' :=
    List.eq_replicate_iff.mpr ⟨rfl,hall⟩
  have hlen : 2 ≤ name.toList.length := hpre.length_le
  apply hsuf
  rw [hrep,show name.toList.length = (name.toList.length - 2) + 2 by omega,List.replicate_add]
  exact List.suffix_append _ _

variable {priv : String} {classes : List String}

theorem not_eligible_mangled (hs : Stripped priv) (hne : priv ≠ "") (name : String) :
    mangleEligible ("_" ++ priv ++ name) = false := by
  unfold Stripped at hs
  rw [Bool.eq_false_iff,ne_eq,mangleEligible_iff]
  rintro ⟨hpre,-⟩
  cases hp : priv.toList with
  | nil => exact hne (String.toList_eq_nil_iff.mp hp)
  | cons c cs =>
    rw [hp] at hs
    rw [String.toList_append,String.toList_append,hp] at hpre
    have hc : c = '_' := by
      have := hpre
      simp at this
      exact this.symm
    exact hs (by rw [hc]; rfl)

theorem classPriv_mangled (hs : Stripped priv) (hne : priv ≠ "") (name : String) :
    classPriv ("_" ++ priv ++ name) = priv ++ name := by
  unfold Stripped at hs
  apply String.toList_inj.mp
  rw [classPriv,String.toList_ofList,String.toList_append,String.toList_append,
    String.toList_append]
  cases hp : priv.toList with
  | nil => exact absurd (String.toList_eq_nil_iff.mp hp) hne
  | cons c cs =>
    rw [hp] at hs
    have hc : c ≠ '_' := fun h => hs (by rw [h]; rfl)
    simp [hc]

theorem mangleName_idem (hs : Stripped priv) (name : String) :
    mangleName priv (mangleName priv name) = mangleName priv name := by
  by_cases h : priv = "" ∨ mangleEligible name = false
  · have hid : mangleName priv name = name := if_pos (by simpa using h)
    rw [hid,hid]
  · have hne : priv ≠ "" := fun hp => h (.inl hp)
    have hm : mangleName priv name = "_" ++ priv ++ name := if_neg (by simpa using h)
    rw [hm,mangleName,if_pos (by simp [not_eligible_mangled hs hne])]

/-- The prefix that the pass has inside classes of these names, the innermost first. -/
def privIn : List String → String
  | [] => ""
  | name :: outer => classPriv (mangleName (privIn outer) name)

theorem stripped_privIn (classes : List String) : Stripped (privIn classes) := by
  cases classes with
  | nil => exact nofun
  | cons name outer => exact stripped_classPriv _

theorem privIn_cons (name : String) (outer : List String) :
    privIn (name :: outer) =
      if mangleEligible name = true ∧ privIn outer ≠ "" then privIn outer ++ name
      else classPriv name := by
  rw [privIn,mangleName]
  by_cases h : mangleEligible name = true ∧ privIn outer ≠ ""
  · rw [if_pos h,if_neg (by simp [h.1,h.2]),classPriv_mangled (stripped_privIn outer) h.2]
  · rw [if_neg h,if_pos]
    simp only [Bool.or_eq_true,decide_eq_true_eq,Bool.not_eq_true']
    by_cases hp : privIn outer = ""
    · exact .inl hp
    · exact .inr (Bool.eq_false_iff.mpr fun he => h ⟨he,hp⟩)

theorem privIn_eq_empty (name : String) (outer : List String) :
    privIn (name :: outer) = "" ↔ classPriv name = "" := by
  rw [privIn_cons]
  split
  · rename_i h
    constructor
    · intro hempty
      exact absurd (String.append_eq_empty_iff.mp hempty).1 h.2
    · intro hempty
      exact absurd hempty (classPriv_ne_of_eligible h.1)
  · rfl

theorem privIn_eq_classPriv (name : String) (outer : List String) :
    privIn (name :: outer) = classPriv name ↔ ¬ (mangleEligible name = true ∧ privIn outer ≠ "") := by
  rw [privIn_cons]
  split
  · rename_i h
    refine ⟨fun heq => ?_,fun hno => absurd h hno⟩
    -- the prefix is longer than the name
    have hlen := congrArg (fun s => s.toList.length) heq
    have hpos : 0 < (privIn outer).toList.length :=
      List.length_pos_iff.mpr fun hnil => h.2 (String.toList_eq_nil_iff.mp hnil)
    have hdrop : (classPriv name).toList.length ≤ name.toList.length := by
      rw [classPriv,String.toList_ofList]
      exact (List.dropWhile_sublist _).length_le
    simp only [String.toList_append,List.length_append] at hlen
    omega
  · rename_i h
    exact ⟨fun _ => h,fun _ => rfl⟩

/-! ## Agreement -/

/-- An identifier that the language mangles: private, in a class with more than underscores for a name,
and not a dotted path. -/
def Private (classes : List String) (at_ : Place) (name : String) : Prop :=
  (∃ cls outer, classes = cls :: outer ∧ classPriv cls ≠ "") ∧ mangleEligible name = true ∧
    ¬ (at_ = .importName ∧ '.' ∈ name.toList)

/-- The innermost class has a private name in a class with more than underscores for a name. -/
def PrivateClass : List String → Prop
  | cls :: outer :: _ => mangleEligible cls = true ∧ classPriv outer ≠ ""
  | _ => False

theorem privateClass_cons (name : String) (outer : List String) :
    PrivateClass (name :: outer) ↔ mangleEligible name = true ∧ privIn outer ≠ "" := by
  cases outer with
  | nil => simp [PrivateClass,privIn]
  | cons cls outer => rw [PrivateClass,ne_eq,ne_eq,privIn_eq_empty]

theorem pyMangle_of_private {a : Place} {name cls : String}
    {outer : List String} (hc : classes = cls :: outer) (h : Private classes a name) :
    pyMangle classes a name = "_" ++ classPriv cls ++ name := by
  obtain ⟨⟨cls',outer',heq,hne⟩,helig,hdot⟩ := h
  obtain ⟨rfl,rfl⟩ := List.cons.inj (hc.symm.trans heq)
  obtain ⟨hpre,hsuf⟩ := (mangleEligible_iff name).mp helig
  subst hc
  rw [pyMangle,if_neg,classPriv]
  rintro (h | h | h | h)
  · exact hne h
  · exact h hpre
  · exact hsuf h
  · exact hdot h

theorem pyMangle_of_not_private {a : Place} {name : String}
    (h : ¬ Private classes a name) : pyMangle classes a name = name := by
  cases classes with
  | nil => rfl
  | cons cls outer =>
    rw [pyMangle,if_pos]
    by_contra hno
    push Not at hno
    obtain ⟨hne,hpre,hsuf,hdot⟩ := hno
    apply h
    refine ⟨⟨cls,outer,rfl,hne⟩,(mangleEligible_iff name).mpr ⟨hpre,hsuf⟩,?_⟩
    exact fun hd => hdot hd.1 hd.2

theorem append_left_cancel {p q name : String} (h : "_" ++ p ++ name = "_" ++ q ++ name) : p = q := by
  have hlist := congrArg String.toList h
  simp only [String.toList_append,List.append_assoc] at hlist
  exact String.toList_inj.mp (List.append_cancel_right (List.append_cancel_left hlist))
theorem ne_mangled (p name : String) : name ≠ "_" ++ p ++ name := by
  intro h
  have hlen := congrArg (fun s => s.toList.length) h
  simp [String.toList_append] at hlen
  omega

/-- The pass does with an identifier what the language does, unless it is private and stands where the
pass does not go, or its class is renamed before the prefix is taken. -/
theorem rename_eq_iff (classes : List String) (a : Place) (name : String) :
    manglePass.rename (privIn classes) a name = pyPass.rename classes a name ↔
      (Private classes a name → a = .plain ∧ ¬ PrivateClass classes) := by
  by_cases hp : Private classes a name
  · obtain ⟨cls,outer,hc,hne⟩ := hp.1
    have hpy : pyPass.rename classes a name = "_" ++ classPriv cls ++ name :=
      pyMangle_of_private hc hp
    rw [hpy]
    by_cases ha : a = .plain
    · subst ha
      have hpriv : privIn classes ≠ "" := by
        rw [hc,ne_eq,privIn_eq_empty]
        exact hne
      have hm : manglePass.rename (privIn classes) .plain name =
          "_" ++ privIn classes ++ name := if_neg (by simp [hpriv,hp.2.1])
      rw [hm,hc]
      constructor
      · intro h _
        refine ⟨rfl,?_⟩
        rw [privateClass_cons]
        exact (privIn_eq_classPriv cls outer).mp (append_left_cancel h)
      · intro h
        have hno := (h (hc ▸ hp)).2
        rw [privateClass_cons] at hno
        rw [(privIn_eq_classPriv cls outer).mpr hno]
    · have hm : manglePass.rename (privIn classes) a name = name := by
        cases a with
        | plain => exact absurd rfl ha
        | _ => rfl
      rw [hm]
      exact ⟨fun h => absurd h (ne_mangled _ _),fun h => absurd (h hp).1 ha⟩
  · have hpy : pyPass.rename classes a name = name := pyMangle_of_not_private hp
    rw [hpy]
    refine ⟨fun _ h => absurd h hp,fun _ => ?_⟩
    cases a with
    | plain =>
      apply if_pos
      by_contra hno
      simp only [Bool.or_eq_true,decide_eq_true_eq,Bool.not_eq_true',not_or,
        Bool.not_eq_false] at hno
      apply hp
      cases classes with
      | nil => exact absurd rfl hno.1
      | cons cls outer =>
        have hne := hno.1
        rw [privIn_eq_empty] at hne
        exact ⟨⟨cls,outer,rfl,hne⟩,hno.2,fun h => nomatch h.1⟩
    | _ => rfl

/-- The private identifiers of a module stand in no annotation, class keyword, type alias or import,
and in no class whose own name is private. -/
def Handled (m : Module) : Prop :=
  ∀ u ∈ stmtsUses (fun classes name => name :: classes) [] m.body,
    Private u.1 u.2.1 u.2.2 → u.2.1 = .plain ∧ ¬ PrivateClass u.1

theorem mangle_eq_iff (m : Module) : mangleClassPrivates m = pyMangled m ↔ Handled m := by
  have hagree := @renameStmts_eq_iff (List String) _ _ (fun classes name => name :: classes)
    manglePass pyPass privIn id (fun _ _ => rfl) (fun _ _ => rfl) [] m.body
  simp only [AgreeIn,id,rename_eq_iff] at hagree
  rw [mangleClassPrivates,pyMangled,Module.mk.injEq,mangleStmts]
  exact hagree

theorem mangle_idem (m : Module) :
    mangleClassPrivates (mangleClassPrivates m) = mangleClassPrivates m := by
  have hrename : ∀ classes a name,
      (manglePass.after manglePass).rename (privIn classes, privIn classes) a name =
        manglePass.rename (privIn classes) a name := by
    intro classes a name
    cases a with
    | plain => exact mangleName_idem (stripped_privIn classes) name
    | _ => rfl
  have henter : ∀ classes name,
      (manglePass.after manglePass).enter (privIn classes, privIn classes) name =
        (privIn (name :: classes), privIn (name :: classes)) := by
    intro classes name
    exact congrArg (fun n => (classPriv n, privIn (name :: classes)))
      (mangleName_idem (stripped_privIn classes) name)
  have htwice := renameStmts_after manglePass manglePass ("", "") m.body
  have honce : renameStmts (manglePass.after manglePass) (privIn [], privIn []) m.body =
      renameStmts manglePass (privIn []) m.body :=
    (@renameStmts_eq_iff (List String) _ _ (fun classes name => name :: classes) _ _
      (fun classes => (privIn classes, privIn classes)) privIn henter (fun _ _ => rfl) [] m.body).mpr
      fun u _ => hrename u.1 u.2.1 u.2.2
  exact congrArg Module.mk (htwice.trans honce)

/-- The names of two nested classes, of which the inner one is private, and an import. -/
def nestedPrivates : Module :=
  ⟨[.classDef "A" [] [] [.classDef "__B" [] [] [.assign [.name "__x"] (.intLit 1)] []] []]⟩

def privateImport : Module := ⟨[.classDef "A" [] [] [.importStmt [⟨"__m", ""⟩]] []]⟩

end Unagi.Frontend
