import Unagi.Objects.Halt

/-! # Exception groups and `except*`

A raised exception is a tree: a leaf, or a group of sub-exceptions. `splitStarBy` divides it in one walk
into what a matcher takes and the rest; `prune` says what each side is. `newExcGroup` chooses the class of
a group by its members, and the functions of `except*` build groups without it. -/

namespace Unagi.Objects

/-- The class of a group: one of the two builtin ones, or a subclass of the program. -/
inductive GroupKind
  | exceptionGroup
  | baseExceptionGroup
  | user (name : String)
  deriving DecidableEq

/-- What a group carries besides its class and members: the message, and `T` for the frames, the cause,
the context and the notes. -/
structure GroupInfo (T : Type) where
  message : String
  trail : T
  deriving DecidableEq

inductive ExcTree (L T : Type)
  | leaf (e : L)
  | group (kind : GroupKind) (info : GroupInfo T) (subs : List (ExcTree L T))

section
variable {L T : Type}

/-- What derives from `Exception`, by the class of a leaf and by the name of a group's own class. -/
structure Derives (L : Type) where
  leaf : L → Bool
  user : String → Bool

/-- Whether a leaf or a group derives from `Exception` and not only from `BaseException`. -/
def derivesFromException (d : Derives L) : ExcTree L T → Bool
  | .leaf e => d.leaf e
  | .group .exceptionGroup _ _ => true
  | .group .baseExceptionGroup _ _ => false
  | .group (.user name) _ _ => d.user name

/-- An argument of the constructor. An item of a sequence is an exception or something else. -/
inductive GroupArg (L T : Type)
  | str (s : String)
  | sequence (typeName : String) (items : List (Option (ExcTree L T)))
  | other (typeName : String)

def GroupArg.typeName : GroupArg L T → String
  | .str _ => "str"
  | .sequence name _ => name
  | .other name => name
def sequenceItems : GroupArg L T → Option (List (Option (ExcTree L T)))
  | .str s => some (List.replicate s.length none)
  | .sequence _ items => some items
  | .other _ => none

/-- The items as exceptions, where the first item that is none is reported by its place. -/
def groupItems : Nat → List (Option (ExcTree L T)) → Except Halt (List (ExcTree L T))
  | _, [] => .ok []
  | i, none :: _ => raise .valueError
      ("Item " ++ toString i ++ " of second argument (exceptions) is not an exception")
  | i, some e :: items => (e :: ·) <$> groupItems (i + 1) items

/-- `ExceptionGroup(…)` and `BaseExceptionGroup(…)`: the group is an `ExceptionGroup` if all its members
derive from `Exception`, and an `ExceptionGroup` of others is refused. -/
def newExcGroup [Inhabited T] (d : Derives L) (kind : GroupKind) :
    List (GroupArg L T) → Except Halt (ExcTree L T)
  | [.str message, second] =>
    match sequenceItems second with
    | none => raise .typeError "second argument (exceptions) must be a sequence"
    | some [] => raise .valueError "second argument (exceptions) must be a non-empty sequence"
    | some items => do
      let excs ← groupItems 0 items
      let allExc := excs.all (derivesFromException d)
      if kind = .exceptionGroup ∧ allExc = false then
        raise .typeError "Cannot nest BaseExceptions in an ExceptionGroup"
      else if kind = .baseExceptionGroup ∧ allExc then
        .ok (.group .exceptionGroup ⟨message, default⟩ excs)
      else .ok (.group kind ⟨message, default⟩ excs)
  | [first, _] => raise .typeError
      ("BaseExceptionGroup.__new__() argument 1 must be str, not " ++ first.typeName)
  | args => raise .typeError ("BaseExceptionGroup.__new__() takes exactly 2 arguments (" ++
      toString args.length ++ " given)")

/-- A new group with the class and the data of an old one. -/
def deriveGroup (kind : GroupKind) (info : GroupInfo T) (subs : List (ExcTree L T)) :
    Option (ExcTree L T) :=
  if 0 < subs.length then some (.group kind info subs) else none

def wrapGroup [Inhabited T] (e : ExcTree L T) : ExcTree L T :=
  .group .exceptionGroup ⟨"", default⟩ [e]

mutual

/-- The walk of the split: what the matcher takes of an exception, and what is left. -/
def splitRec (m : L → Bool) : ExcTree L T → Option (ExcTree L T) × Option (ExcTree L T)
  | .leaf e => if m e then (some (.leaf e), none) else (none, some (.leaf e))
  | .group kind info subs =>
    let halves := splitSubs m subs ([], [])
    (deriveGroup kind info halves.1, deriveGroup kind info halves.2)

def splitSubs (m : L → Bool) : List (ExcTree L T) → List (ExcTree L T) × List (ExcTree L T) →
    List (ExcTree L T) × List (ExcTree L T)
  | [], halves => halves
  | s :: subs, halves =>
    let split := splitRec m s
    splitSubs m subs (halves.1 ++ split.1.toList, halves.2 ++ split.2.toList)

end

/-- The split of `except*`: a naked exception that matches is wrapped. -/
def splitStarBy [Inhabited T] (m : L → Bool) :
    ExcTree L T → Option (ExcTree L T) × Option (ExcTree L T)
  | .leaf e => if m e then (some (wrapGroup (.leaf e)), none) else (none, some (.leaf e))
  | .group kind info subs => splitRec m (.group kind info subs)

/-- Fold what the handlers raised and what they left into the exception that leaves the `try`. -/
def combineStar [Inhabited T] (rest : Option (ExcTree L T)) (raised : List (ExcTree L T)) :
    Option (ExcTree L T) :=
  if raised.length = 0 then rest
  else
    match raised ++ rest.toList with
    | [e] => some e
    | all => some (.group .exceptionGroup ⟨"", default⟩ all)

mutual

def ExcTree.leaves : ExcTree L T → List L
  | .leaf e => [e]
  | .group _ _ subs => leavesOf subs
def leavesOf : List (ExcTree L T) → List L
  | [] => []
  | s :: subs => s.leaves ++ leavesOf subs

end

mutual

def ExcTree.groups : ExcTree L T → List (ExcTree L T)
  | .leaf _ => []
  | .group kind info subs => .group kind info subs :: groupsOf subs
def groupsOf : List (ExcTree L T) → List (ExcTree L T)
  | [] => []
  | s :: subs => s.groups ++ groupsOf subs

end

mutual

/-- The tree of the leaves that satisfy `p`, nested as they were, without the groups left empty. -/
def ExcTree.prune (p : L → Bool) : ExcTree L T → Option (ExcTree L T)
  | .leaf e => if p e then some (.leaf e) else none
  | .group kind info subs =>
    if (pruneAll p subs).isEmpty then none else some (.group kind info (pruneAll p subs))

def pruneAll (p : L → Bool) : List (ExcTree L T) → List (ExcTree L T)
  | [] => []
  | s :: subs => (s.prune p).toList ++ pruneAll p subs

end

/-- The class a group of these leaves should have. -/
def kindOf (h : L → Bool) (leaves : List L) : GroupKind :=
  if leaves.all h then .exceptionGroup else .baseExceptionGroup

/-- A group has the class that fits its leaves. -/
def ExcTree.Fits (h : L → Bool) : ExcTree L T → Prop
  | .leaf _ => True
  | .group kind _ subs => kind = kindOf h (leavesOf subs)

/-- Every group of a tree has the class that fits its leaves. -/
def ExcTree.Kinded (h : L → Bool) (t : ExcTree L T) : Prop := ∀ g ∈ t.groups, g.Fits h

/-! ## The walk prunes the tree twice -/

theorem deriveGroup_eq (kind : GroupKind) (info : GroupInfo T) (subs : List (ExcTree L T)) :
    deriveGroup kind info subs = if subs.isEmpty then none else some (.group kind info subs) := by
  cases subs <;> simp [deriveGroup]

mutual

theorem splitRec_eq (m : L → Bool) (t : ExcTree L T) :
    splitRec m t = (t.prune m, t.prune fun e => !m e) := by
  cases t with
  | leaf e => cases h : m e <;> simp [splitRec,ExcTree.prune,h]
  | group kind info subs =>
    simp only [splitRec,splitSubs_eq m subs,List.nil_append,ExcTree.prune,deriveGroup_eq]

theorem splitSubs_eq (m : L → Bool) (subs : List (ExcTree L T))
    (halves : List (ExcTree L T) × List (ExcTree L T)) :
    splitSubs m subs halves =
      (halves.1 ++ pruneAll m subs, halves.2 ++ pruneAll (fun e => !m e) subs) := by
  cases subs with
  | nil => simp [splitSubs,pruneAll]
  | cons s subs => simp [splitSubs,pruneAll,splitRec_eq m s,splitSubs_eq m subs]

end

@[simp] theorem leavesOf_append (ss ts : List (ExcTree L T)) :
    leavesOf (ss ++ ts) = leavesOf ss ++ leavesOf ts := by
  induction ss with
  | nil => simp [leavesOf]
  | cons s ss ih => simp [leavesOf,ih]
@[simp] theorem groupsOf_append (ss ts : List (ExcTree L T)) :
    groupsOf (ss ++ ts) = groupsOf ss ++ groupsOf ts := by
  induction ss with
  | nil => simp [groupsOf]
  | cons s ss ih => simp [groupsOf,ih]

theorem leavesOf_singleton (t : ExcTree L T) : leavesOf [t] = t.leaves := by
  simp [leavesOf]
theorem groupsOf_singleton (t : ExcTree L T) : groupsOf [t] = t.groups := by
  simp [groupsOf]

variable {ts : List (ExcTree L T)} {g t : ExcTree L T} {p h : L → Bool} {kind : GroupKind}
  {d : Derives L}

theorem mem_leavesOf {l : L} :
    l ∈ leavesOf ts ↔ ∃ t ∈ ts, l ∈ t.leaves := by
  induction ts with
  | nil => simp [leavesOf]
  | cons t ts ih => simp [leavesOf,ih]
theorem mem_groupsOf :
    g ∈ groupsOf ts ↔ ∃ t ∈ ts, g ∈ t.groups := by
  induction ts with
  | nil => simp [groupsOf]
  | cons t ts ih => simp [groupsOf,ih]

mutual

theorem leavesOf_prune (p : L → Bool) (t : ExcTree L T) :
    leavesOf (t.prune p).toList = t.leaves.filter p := by
  cases t with
  | leaf e => cases h : p e <;> simp [ExcTree.prune,ExcTree.leaves,leavesOf,h]
  | group kind info subs =>
    have ih := leavesOf_pruneAll p subs
    cases h : pruneAll p subs with
    | nil => simpa [ExcTree.prune,ExcTree.leaves,h] using ih
    | cons s kept =>
      rw [h] at ih
      simpa [ExcTree.prune,ExcTree.leaves,h,leavesOf_singleton] using ih

theorem leavesOf_pruneAll (p : L → Bool) (subs : List (ExcTree L T)) :
    leavesOf (pruneAll p subs) = (leavesOf subs).filter p := by
  cases subs with
  | nil => simp [pruneAll,leavesOf]
  | cons s subs => simp [pruneAll,leavesOf,leavesOf_prune p s,leavesOf_pruneAll p subs]

end

mutual

theorem prune_leaves_ne_nil (p : L → Bool) (t : ExcTree L T) :
    ∀ kept ∈ t.prune p, kept.leaves ≠ [] := by
  cases t with
  | leaf e => cases h : p e <;> simp [ExcTree.prune,ExcTree.leaves,h]
  | group kind info subs =>
    have ih := pruneAll_leaves_ne_nil p subs
    cases h : pruneAll p subs with
    | nil => simp [ExcTree.prune,h]
    | cons s kept =>
      have hs : s.leaves ≠ [] := ih s (by simp [h])
      simp [ExcTree.prune,ExcTree.leaves,leavesOf,h,hs]

theorem pruneAll_leaves_ne_nil (p : L → Bool) (subs : List (ExcTree L T)) :
    ∀ kept ∈ pruneAll p subs, kept.leaves ≠ [] := by
  cases subs with
  | nil => simp [pruneAll]
  | cons s subs =>
    intro kept hkept
    rw [pruneAll,List.mem_append,Option.mem_toList] at hkept
    exact hkept.elim (prune_leaves_ne_nil p s kept) (pruneAll_leaves_ne_nil p subs kept)

end

mutual

theorem groupsOf_prune (p : L → Bool) (t : ExcTree L T) :
    groupsOf (t.prune p).toList = t.groups.filterMap fun g => g.prune p := by
  cases t with
  | leaf e => cases h : p e <;> simp [ExcTree.prune,ExcTree.groups,groupsOf,h]
  | group kind info subs =>
    have ih := groupsOf_pruneAll p subs
    cases h : pruneAll p subs with
    | nil => simpa [ExcTree.prune,ExcTree.groups,h,groupsOf] using ih
    | cons s kept =>
      rw [h] at ih
      simp [ExcTree.prune,ExcTree.groups,h,groupsOf_singleton,← ih]

theorem groupsOf_pruneAll (p : L → Bool) (subs : List (ExcTree L T)) :
    groupsOf (pruneAll p subs) = (groupsOf subs).filterMap fun g => g.prune p := by
  cases subs with
  | nil => simp [pruneAll,groupsOf]
  | cons s subs => simp [pruneAll,groupsOf,groupsOf_prune p s,groupsOf_pruneAll p subs]

end

theorem mem_groupsOf_prune :
    g ∈ groupsOf (t.prune p).toList ↔ ∃ whole ∈ t.groups, whole.prune p = some g := by
  rw [groupsOf_prune,List.mem_filterMap]

/-! ## The classes of the groups -/

/-- The class of a group fits the leaves of one side of the split, if it has any there. -/
def ExcTree.FitsKept (h p : L → Bool) : ExcTree L T → Prop
  | .leaf _ => True
  | .group kind _ subs =>
    (leavesOf subs).filter p ≠ [] → kind = kindOf h ((leavesOf subs).filter p)

theorem fitsKept_iff :
    g.FitsKept h p ↔ ∀ kept ∈ g.prune p, kept.Fits h := by
  cases g with
  | leaf e => cases hp : p e <;> simp [ExcTree.FitsKept,ExcTree.prune,ExcTree.Fits,hp]
  | group kind info subs =>
    have hleaves := leavesOf_pruneAll p subs
    have hempty := pruneAll_leaves_ne_nil p subs
    rw [ExcTree.FitsKept,← hleaves]
    cases hp : pruneAll p subs with
    | nil => simp [ExcTree.prune,hp,leavesOf]
    | cons s kept =>
      have hs : s.leaves ≠ [] := hempty s (by simp [hp])
      simp [ExcTree.prune,hp,leavesOf,ExcTree.Fits,hs]

theorem prune_fits_iff :
    (∀ g ∈ groupsOf (t.prune p).toList, g.Fits h) ↔ ∀ g ∈ t.groups, g.FitsKept h p := by
  constructor
  · intro hfits g hg
    rw [fitsKept_iff]
    intro kept hkept
    exact hfits kept (mem_groupsOf_prune.mpr ⟨g,hg,hkept⟩)
  · intro hfits g hg
    obtain ⟨whole,hwhole,hkept⟩ := mem_groupsOf_prune.mp hg
    exact fitsKept_iff.mp (hfits whole hwhole) g hkept

variable {subs : List (ExcTree L T)} {items : List (Option (ExcTree L T))}

/-- A group whose class fits its leaves fits a part of them, unless it is a `BaseExceptionGroup` and the
part has leaves that all derive from `Exception`. -/
theorem fitsKept_iff_of_fits {info : GroupInfo T} (hfits : (ExcTree.group kind info subs).Fits h) :
    (ExcTree.group kind info subs).FitsKept h p ↔
      (kind = .baseExceptionGroup → (∃ l ∈ leavesOf subs, p l) →
        ∃ l ∈ leavesOf subs, p l ∧ h l = false) := by
  rw [ExcTree.Fits] at hfits
  rw [ExcTree.FitsKept,hfits,kindOf,kindOf]
  by_cases hall : (leavesOf subs).all h
  · have hkept : ((leavesOf subs).filter p).all h := by
      rw [List.all_eq_true] at hall ⊢
      exact fun l hl => hall l (List.mem_of_mem_filter hl)
    simp [hall,hkept]
  · rw [if_neg hall]
    by_cases hkept : ((leavesOf subs).filter p).all h
    · rw [if_pos hkept]
      rw [List.all_eq_true] at hkept
      constructor
      · rintro hfit - ⟨l,hl,hp⟩
        have hne := List.ne_nil_of_mem (List.mem_filter.mpr ⟨hl,hp⟩)
        exact absurd (hfit hne) (by decide)
      · intro hex hne
        obtain ⟨l,hl⟩ := List.exists_mem_of_ne_nil _ hne
        obtain ⟨l',hl',hp',hh⟩ := hex rfl ⟨l,List.mem_filter.mp hl⟩
        rw [hkept l' (List.mem_filter.mpr ⟨hl',hp'⟩)] at hh
        exact absurd hh (by decide)
    · rw [if_neg hkept]
      have hother : ∃ l ∈ leavesOf subs, p l ∧ h l = false := by simpa using hkept
      exact ⟨fun _ _ _ => hother,fun _ _ => rfl⟩

theorem derivesFromException_of_kinded (ht : t.Kinded d.leaf) :
    derivesFromException d t = t.leaves.all d.leaf := by
  cases t with
  | leaf e => simp [derivesFromException,ExcTree.leaves]
  | group kind info subs =>
    have hfits : kind = kindOf d.leaf (leavesOf subs) :=
      ht (.group kind info subs) (by simp [ExcTree.groups])
    rw [hfits,kindOf,ExcTree.leaves]
    split <;> simp_all [derivesFromException]

theorem kindOf_leavesOf
    (hts : ∀ t ∈ ts, t.Kinded d.leaf) : kindOf d.leaf (leavesOf ts) =
      if ts.all (derivesFromException d) then .exceptionGroup else .baseExceptionGroup := by
  have hall : (leavesOf ts).all d.leaf = ts.all (derivesFromException d) := by
    induction ts with
    | nil => simp [leavesOf]
    | cons t ts ih =>
      have ht := derivesFromException_of_kinded (hts t (by simp))
      have ih := ih fun u hu => hts u (by simp [hu])
      simp only [leavesOf,List.all_append,List.all_cons,ht,ih]
  rw [kindOf,hall]

theorem groupItems_mem {i : Nat} {excs : List (ExcTree L T)}
    (h : groupItems i items = .ok excs) : ∀ e ∈ excs, some e ∈ items := by
  induction items generalizing i excs with
  | nil =>
    cases h
    simp
  | cons item items ih =>
    cases item with
    | none => cases h
    | some e =>
      cases hrest : groupItems (i + 1) items with
      | error halt =>
        rw [groupItems,hrest] at h
        cases h
      | ok others =>
        rw [groupItems,hrest] at h
        cases h
        have ih := ih hrest
        simp_all

/-- From members whose groups fit the two builtin names build a tree whose groups fit. -/
theorem newExcGroup_kinded [Inhabited T]
    (hkind : ∀ name, kind ≠ .user name) {message : String} {second : GroupArg L T} (hitems : sequenceItems second = some items)
    (hmembers : ∀ e, some e ∈ items → e.Kinded d.leaf)
    (ht : newExcGroup d kind [.str message, second] = .ok t) : t.Kinded d.leaf := by
  cases items with
  | nil => simp [newExcGroup,hitems,raise] at ht
  | cons item items =>
    cases hexcs : groupItems 0 (item :: items) with
    | error halt => simp [newExcGroup,hitems,hexcs,bind,Except.bind] at ht
    | ok excs =>
      have hexc (e : ExcTree L T) (he : e ∈ excs) : e.Kinded d.leaf :=
        hmembers e (groupItems_mem hexcs e he)
      have hgroup {k : GroupKind} {info : GroupInfo T} (hk : k = kindOf d.leaf (leavesOf excs)) :
          (ExcTree.group k info excs).Kinded d.leaf := by
        intro g hg
        rw [ExcTree.groups,List.mem_cons,mem_groupsOf] at hg
        rcases hg with rfl | ⟨e,he,hg⟩
        · exact hk
        · exact hexc e he g hg
      rw [kindOf_leavesOf hexc] at hgroup
      simp only [newExcGroup,hitems,hexcs,bind,Except.bind] at ht
      split at ht
      · cases ht
      · split at ht
        · next hbase =>
          cases ht
          exact hgroup (if_pos hbase.2).symm
        · next hnested hbase =>
          cases ht
          apply hgroup
          cases kind with
          | exceptionGroup => rw [if_pos (by simpa using hnested)]
          | baseExceptionGroup => rw [if_neg (by simpa using hbase)]
          | user name => exact absurd rfl (hkind name)

/-! ## What `except*` does to a tree -/

/-- The two parts of an exception, divided by a matcher: each leaf is on its side, in the order of the
tree and under the groups it was under, no group is empty, and only a naked match is wrapped. -/
structure Divided [Inhabited T] (m : L → Bool) (e : ExcTree L T)
    (matched rest : Option (ExcTree L T)) : Prop where
  matched_leaves : leavesOf matched.toList = e.leaves.filter m
  rest_leaves : leavesOf rest.toList = e.leaves.filter fun l => !m l
  matched_nesting : matched = match e with
    | .leaf _ => (e.prune m).map wrapGroup
    | .group _ _ _ => e.prune m
  rest_nesting : rest = e.prune fun l => !m l
  no_empty : ∀ g ∈ groupsOf (matched.toList ++ rest.toList), g.leaves ≠ []

/-- The condition for the groups of a split: a naked exception that is wrapped derives from `Exception`,
and every group has the class that fits the leaves it keeps on each side. -/
def SplitFits (h m : L → Bool) : ExcTree L T → Prop
  | .leaf l => m l → h l
  | .group kind info subs => ∀ g ∈ (ExcTree.group kind info subs).groups,
      g.FitsKept h m ∧ g.FitsKept h fun l => !m l

theorem wrapGroup_fits [Inhabited T] {e : ExcTree L T} :
    (wrapGroup e).Fits h ↔ ∀ l ∈ e.leaves, h l := by
  by_cases hall : ∀ l ∈ e.leaves, h l <;>
    simp [wrapGroup,ExcTree.Fits,kindOf,leavesOf_singleton,hall]
theorem prune_groups_ne_nil :
    ∀ g ∈ groupsOf (t.prune p).toList, g.leaves ≠ [] := by
  intro g hg
  obtain ⟨whole,-,hkept⟩ := mem_groupsOf_prune.mp hg
  exact prune_leaves_ne_nil p whole g hkept

theorem splitStarBy_divided [Inhabited T] (m : L → Bool) (e : ExcTree L T) :
    Divided m e (splitStarBy m e).1 (splitStarBy m e).2 := by
  cases e with
  | leaf l =>
    cases hm : m l <;> constructor <;>
      simp [splitStarBy,hm,leavesOf,groupsOf,ExcTree.leaves,ExcTree.groups,ExcTree.prune,
        wrapGroup]
  | group kind info subs =>
    rw [splitStarBy,splitRec_eq]
    constructor
    case matched_leaves => exact leavesOf_prune m _
    case rest_leaves => exact leavesOf_prune _ _
    case matched_nesting => rfl
    case rest_nesting => rfl
    case no_empty =>
      intro g hg
      rw [groupsOf_append,List.mem_append] at hg
      exact hg.elim (prune_groups_ne_nil g) (prune_groups_ne_nil g)

theorem splitStarBy_fits_iff [Inhabited T] (h m : L → Bool) (e : ExcTree L T) :
    (∀ g ∈ groupsOf ((splitStarBy m e).1.toList ++ (splitStarBy m e).2.toList), g.Fits h) ↔
      SplitFits h m e := by
  cases e with
  | leaf l =>
    cases hm : m l
    · simp [splitStarBy,hm,groupsOf,ExcTree.groups,SplitFits]
    · have hfits := wrapGroup_fits (e := (ExcTree.leaf l : ExcTree L T)) (h := h)
      simpa [splitStarBy,hm,groupsOf,ExcTree.groups,SplitFits,wrapGroup,ExcTree.leaves]
        using hfits
  | group kind info subs =>
    rw [splitStarBy,splitRec_eq,groupsOf_append,SplitFits]
    constructor
    · intro hall g hg
      exact ⟨prune_fits_iff.mp (fun g hg => hall g (List.mem_append_left _ hg)) g hg,
        prune_fits_iff.mp (fun g hg => hall g (List.mem_append_right _ hg)) g hg⟩
    · intro hall g hg
      rcases List.mem_append.mp hg with hg | hg
      · exact prune_fits_iff.mpr (fun g hg => (hall g hg).1) g hg
      · exact prune_fits_iff.mpr (fun g hg => (hall g hg).2) g hg

/-- For a tree whose groups fit, the condition is about its `BaseExceptionGroup`s alone. -/
theorem splitFits_iff_of_kinded {m : L → Bool} {info : GroupInfo T} (ht : (ExcTree.group kind info subs).Kinded h) :
    SplitFits h m (.group kind info subs) ↔
      ∀ i members, ExcTree.group .baseExceptionGroup i members ∈ (ExcTree.group kind info subs).groups →
        ∀ side : Bool, (∃ l ∈ leavesOf members, m l = side) →
          ∃ l ∈ leavesOf members, m l = side ∧ h l = false := by
  rw [SplitFits]
  constructor
  · intro hsplit i members hg side
    have hfits := ht _ hg
    obtain ⟨hm,hr⟩ := hsplit _ hg
    cases side
    · simpa using (fitsKept_iff_of_fits hfits).mp hr rfl
    · exact (fitsKept_iff_of_fits hfits).mp hm rfl
  · intro hsides g hg
    cases g with
    | leaf l => exact ⟨trivial,trivial⟩
    | group k i members =>
      have hfits := ht _ hg
      constructor
      · refine (fitsKept_iff_of_fits hfits).mpr ?_
        rintro rfl
        exact hsides i members hg true
      · refine (fitsKept_iff_of_fits hfits).mpr ?_
        rintro rfl
        simpa using hsides i members hg false

/-- Two or more exceptions, one of them raised by a handler, are folded into a new group, whose class
fits exactly if all their leaves derive from `Exception`. -/
theorem combineStar_fits_iff [Inhabited T] (h : L → Bool) {rest : Option (ExcTree L T)}
    {raised : List (ExcTree L T)} (hraised : raised ≠ [])
    (hmany : 1 < (raised ++ rest.toList).length) :
    ∃ g, combineStar rest raised = some g ∧
      (g.Fits h ↔ ∀ e ∈ raised ++ rest.toList, ∀ l ∈ e.leaves, h l) := by
  refine ⟨.group .exceptionGroup ⟨"",default⟩ (raised ++ rest.toList),?_,?_⟩
  · rw [combineStar,if_neg (by simpa using hraised)]
    split
    · next hone =>
      rw [hone] at hmany
      exact absurd hmany (by simp)
    · rfl
  · rw [ExcTree.Fits,kindOf]
    have hall : (leavesOf (raised ++ rest.toList)).all h ↔
        ∀ e ∈ raised ++ rest.toList, ∀ l ∈ e.leaves, h l := by
      rw [List.all_eq_true]
      simp only [mem_leavesOf]
      exact ⟨fun hl e he l hle => hl l ⟨e,he,hle⟩,fun hl l ⟨e,he,hle⟩ => hl e he l hle⟩
    rw [← hall]
    split
    · next hyes => exact iff_of_true rfl hyes
    · next hno => exact iff_of_false (by decide) hno

/-- A split divides the exception. The groups that the split, the wrapping and the folding build have the
class that the constructor would give them exactly under a condition on their leaves. -/
theorem except_star_groups_iff [Inhabited T] (h m : L → Bool) (e : ExcTree L T) :
    Divided m e (splitStarBy m e).1 (splitStarBy m e).2 ∧
    ((∀ g ∈ groupsOf ((splitStarBy m e).1.toList ++ (splitStarBy m e).2.toList), g.Fits h) ↔
      SplitFits h m e) ∧
    ((wrapGroup e).Fits h ↔ ∀ l ∈ e.leaves, h l) ∧
    ∀ rest raised, raised ≠ [] → 1 < (raised ++ rest.toList).length →
      ∃ g : ExcTree L T, combineStar rest raised = some g ∧
        (g.Fits h ↔ ∀ x ∈ raised ++ rest.toList, ∀ l ∈ x.leaves, h l) :=
  ⟨splitStarBy_divided m e,splitStarBy_fits_iff h m e,wrapGroup_fits,
    fun _ _ hraised hmany => combineStar_fits_iff h hraised hmany⟩

/-- Split by `ValueError`, which derives from `Exception`, a `BaseExceptionGroup` of one and of a
`KeyboardInterrupt` leaves a `BaseExceptionGroup` of the `ValueError` alone; a naked `KeyboardInterrupt` is
wrapped in an `ExceptionGroup`, and so is one that a handler raises beside another exception. -/
theorem except_star_keeps_wrong_class :
    (ExcTree.group .baseExceptionGroup ⟨"", ()⟩ [.leaf true, .leaf false]).Kinded id ∧
    (splitStarBy id (ExcTree.group .baseExceptionGroup ⟨"", ()⟩ [.leaf true, .leaf false])).1 =
      some (.group .baseExceptionGroup ⟨"", ()⟩ [.leaf true]) ∧
    ¬ (ExcTree.group .baseExceptionGroup ⟨"", ()⟩ [.leaf true]).Fits id ∧
    (splitStarBy (!·) (ExcTree.leaf false)).1 =
      some (.group .exceptionGroup ⟨"", ()⟩ [.leaf false]) ∧
    ¬ (ExcTree.group .exceptionGroup ⟨"", ()⟩ [.leaf false]).Fits id ∧
    combineStar none [.leaf false, .leaf true] =
      some (.group .exceptionGroup ⟨"", ()⟩ [.leaf false, .leaf true]) ∧
    ¬ (ExcTree.group .exceptionGroup ⟨"", ()⟩ [.leaf false, .leaf true]).Fits id := by
  refine ⟨?_,rfl,by simp [ExcTree.Fits,kindOf,leavesOf,ExcTree.leaves],rfl,
    by simp [ExcTree.Fits,kindOf,leavesOf,ExcTree.leaves],rfl,
    by simp [ExcTree.Fits,kindOf,leavesOf,ExcTree.leaves]⟩
  simp [ExcTree.Kinded,ExcTree.groups,groupsOf,ExcTree.Fits,kindOf,leavesOf,ExcTree.leaves]

/-! ## Constructed trees -/

/-- The trees that calls of the two constructors build. -/
inductive ExcTree.Built [Inhabited T] (d : Derives L) : ExcTree L T → Prop
  | leaf (e : L) : Built d (.leaf e)
  | new {kind : GroupKind} {args : List (GroupArg L T)} {t : ExcTree L T}
    (hkind : ∀ name, kind ≠ .user name)
    (hmembers : ∀ a ∈ args, ∀ items, sequenceItems a = some items → ∀ e, some e ∈ items → Built d e)
    (hnew : newExcGroup d kind args = .ok t) : Built d t

theorem ExcTree.Built.kinded [Inhabited T] (ht : t.Built d) : t.Kinded d.leaf := by
  induction ht with
  | leaf e => simp [ExcTree.Kinded,ExcTree.groups]
  | @new kind args t hkind _ hnew ih =>
    have hargs : ∃ message second, args = [.str message,second] := by
      unfold newExcGroup at hnew
      split at hnew
      · exact ⟨_,_,rfl⟩
      · cases hnew
      · cases hnew
    obtain ⟨message,second,rfl⟩ := hargs
    cases hitems : sequenceItems second with
    | none => simp [newExcGroup,hitems,raise] at hnew
    | some items => exact newExcGroup_kinded hkind hitems (ih second (by simp) items hitems) hnew

/-- In a constructed tree every group has the class that fits its leaves, so that it counts as an
`Exception` if and only if they all do. A split keeps the classes if and only if each `BaseExceptionGroup`
with leaves on one side has one there that is none. -/
theorem built_groups_fit [Inhabited T] (t : { t : ExcTree L T // t.Built d }) :
    t.1.Kinded d.leaf ∧ derivesFromException d t.1 = t.1.leaves.all d.leaf ∧
    ∀ kind info subs, t.1 = .group kind info subs → ∀ m,
      (∀ g ∈ groupsOf ((splitStarBy m t.1).1.toList ++ (splitStarBy m t.1).2.toList), g.Fits d.leaf) ↔
        ∀ i members, ExcTree.group .baseExceptionGroup i members ∈ t.1.groups →
          ∀ side : Bool, (∃ l ∈ leavesOf members, m l = side) →
            ∃ l ∈ leavesOf members, m l = side ∧ d.leaf l = false := by
  obtain ⟨t,ht⟩ := t
  refine ⟨ht.kinded,derivesFromException_of_kinded ht.kinded,?_⟩
  rintro kind info subs rfl m
  exact (splitStarBy_fits_iff d.leaf m _).trans (splitFits_iff_of_kinded ht.kinded)

end
end Unagi.Objects
