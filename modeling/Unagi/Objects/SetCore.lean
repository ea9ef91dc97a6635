import Mathlib.Order.CompletePartialOrder
import Unagi.Lib.OrderedMap
import Unagi.Objects.HashSound

/-! # The algebra of sets

A set keeps its keys and its elements in two slices, in insertion order, and the position of each
key in an index. Every operation leaves the three consistent and computes the set of keys that its
name says, also where an argument is the receiver itself. -/

namespace Unagi.Objects

structure SetCore (H E : Type) where
  keys : List H
  elts : List E
  index : H → Option Nat

/-- An argument of a method: a set, the receiver, or an iterable that gives its elements and then
ends or raises. -/
inductive SetArg (H E X : Type)
  | core (c : SetCore H E)
  | self
  | iter (elts : List E) (stop : Option X)

inductive CmpOp
  | lt | le | gt | ge

namespace SetCore

/-! ## The code -/

section
variable {H E X : Type} [DecidableEq H] (hashKey : E → Except X H) (wrap : E → X → X)

def setKey (elt : E) : Except X H := (hashKey elt).mapError (wrap elt)
def new : SetCore H E := ⟨[], [], fun _ => none⟩

variable (c : SetCore H E)

def has (k : H) : Bool := (c.index k).isSome
def addKeyed (k : H) (elt : E) : SetCore H E :=
  if c.has k then c
  else ⟨c.keys ++ [k], c.elts ++ [elt], Function.update c.index k (some c.elts.length)⟩

def removeKey (k : H) : SetCore H E :=
  match c.index k with
  | none => c
  | some idx => ⟨c.keys.eraseIdx idx, c.elts.eraseIdx idx, fun hk => if hk = k then none else
      (c.index hk).map fun i => if idx < i then i - 1 else i⟩

def addIf (cond : H → Bool) (src : SetCore H E) : SetCore H E :=
  (src.keys.zip src.elts).foldl (fun c p => if cond p.1 then c.addKeyed p.1 p.2 else c) c
def unionInto (src : SetCore H E) : SetCore H E := c.addIf (fun _ => true) src
def intersectInto (a b : SetCore H E) : SetCore H E := c.addIf b.has a
def diffInto (a b : SetCore H E) : SetCore H E := c.addIf (fun k => !b.has k) a
def symDiffInto (a b : SetCore H E) : SetCore H E := (c.diffInto a b).diffInto b a

def bitOr (b : SetCore H E) : SetCore H E := (new.unionInto c).unionInto b
def bitAnd (b : SetCore H E) : SetCore H E := new.intersectInto c b
def sub (b : SetCore H E) : SetCore H E := new.diffInto c b
def bitXor (b : SetCore H E) : SetCore H E := new.symDiffInto c b

def isSubsetCore (b : SetCore H E) : Bool := c.keys.length ≤ b.keys.length && c.keys.all b.has
def setOrder (b : SetCore H E) : CmpOp → Bool
  | .lt => c.keys.length < b.keys.length && c.isSubsetCore b
  | .le => c.isSubsetCore b
  | .gt => b.keys.length < c.keys.length && b.isSubsetCore c
  | .ge => b.isSubsetCore c

/-- The argument of a method as a set, a copy where it is one. -/
def buildArgCore : SetArg H E X → Except X (SetCore H E)
  | .core b => .ok b
  | .self => .ok c
  | .iter elts stop => do
    let keys ← elts.mapM (setKey hashKey wrap)
    match stop with
    | some x => .error x
    | none => .ok ((keys.zip elts).foldl (fun out p => out.addKeyed p.1 p.2) new)

/-- The keys of an argument, with the plain error of the hash. -/
def argMembership : SetArg H E X → Except X (List H)
  | .core b => .ok b.keys
  | .self => .ok c.keys
  | .iter elts stop => do
    let keys ← elts.mapM hashKey
    match stop with
    | some x => .error x
    | none => .ok keys

def removeKeys (b : SetCore H E) : SetCore H E := b.keys.foldl removeKey c
def unionMethod (args : List (SetArg H E X)) : Except X (SetCore H E) :=
  args.foldlM (fun out arg => (buildArgCore hashKey wrap c arg).map out.unionInto) (new.unionInto c)
def intersection (args : List (SetArg H E X)) : Except X (SetCore H E) :=
  args.foldlM (fun acc arg => (argMembership hashKey c arg).map fun memb =>
    new.addIf (fun k => k ∈ memb) acc) c
def difference (args : List (SetArg H E X)) : Except X (SetCore H E) :=
  args.foldlM (fun acc arg => (buildArgCore hashKey wrap c arg).map acc.removeKeys) c
def symmetricDifference (arg : SetArg H E X) : Except X (SetCore H E) :=
  (buildArgCore hashKey wrap c arg).map (new.symDiffInto c)
def issubset (arg : SetArg H E X) : Except X Bool :=
  (argMembership hashKey c arg).map fun memb => c.keys.all fun k => k ∈ memb
def issuperset (arg : SetArg H E X) : Except X Bool :=
  (buildArgCore hashKey wrap c arg).map fun b => b.isSubsetCore c
def isdisjoint (arg : SetArg H E X) : Except X Bool :=
  (buildArgCore hashKey wrap c arg).map fun b => b.keys.all fun k => !c.has k

/-- Change the receiver by one argument after the other, until one raises. -/
def eachArg (change : SetCore H E → SetCore H E → SetCore H E) :
    List (SetArg H E X) → SetCore H E → Except X Unit × SetCore H E
  | [], c => (.ok (), c)
  | arg :: args, c =>
    match buildArgCore hashKey wrap c arg with
    | .error x => (.error x, c)
    | .ok b => eachArg change args (change c b)

def update (args : List (SetArg H E X)) : Except X Unit × SetCore H E :=
  eachArg hashKey wrap unionInto args c
def differenceUpdate (args : List (SetArg H E X)) : Except X Unit × SetCore H E :=
  eachArg hashKey wrap removeKeys args c

def intersectionUpdate (args : List (SetArg H E X)) : Except X Unit × SetCore H E :=
  match intersection hashKey c args with
  | .error x => (.error x, c)
  | .ok acc => (.ok (), acc)
def toggle (p : H × E) : SetCore H E := if c.has p.1 then c.removeKey p.1 else c.addKeyed p.1 p.2
def symmetricDifferenceUpdate (arg : SetArg H E X) : Except X Unit × SetCore H E :=
  match buildArgCore hashKey wrap c arg with
  | .error x => (.error x, c)
  | .ok b => (.ok (), (b.keys.zip b.elts).foldl toggle c)

end

/-! ## Consistent sets -/

section
variable {H E X : Type} {hashKey : E → Except X H} {wrap : E → X → X}

/-- The slices and the index are consistent, and the keys are those of a set. -/
structure Holds (hashKey : E → Except X H) (c : SetCore H E) (s : Set H) : Prop where
  hashed : c.elts.map hashKey = c.keys.map .ok
  nodup : c.keys.Nodup
  index : Lib.Positions c.index c.keys
  mem : ∀ k, k ∈ c.keys ↔ k ∈ s

variable {c a b : SetCore H E} {s t : Set H}

theorem holds_new : Holds hashKey new ∅ where
  hashed := rfl
  nodup := List.nodup_nil
  index k i := by simp [new]
  mem k := by simp [new]

theorem Holds.length_eq (h : Holds hashKey c s) : c.elts.length = c.keys.length := by
  simpa using congrArg List.length h.hashed
theorem Holds.has_iff (h : Holds hashKey c s) (k : H) : c.has k = true ↔ k ∈ s := by
  rw [has,Option.isSome_iff_exists,← h.mem,List.mem_iff_getElem?]
  exact exists_congr fun i => h.index k i
theorem Holds.congr (h : Holds hashKey c s) (hst : ∀ k, k ∈ s ↔ k ∈ t) : Holds hashKey c t :=
  ⟨h.hashed,h.nodup,h.index,fun k => (h.mem k).trans (hst k)⟩

variable {keys : List H} {elts : List E} {args : List (SetArg H E X)}

theorem hashed_of_mem_zip (h : elts.map hashKey = keys.map .ok) :
    ∀ p ∈ keys.zip elts, hashKey p.2 = .ok p.1 := by
  intro p hp
  obtain ⟨i,hi⟩ := List.mem_iff_getElem?.mp hp
  obtain ⟨hkey,helt⟩ := List.getElem?_zip_eq_some.mp hi
  have hat := congrArg (·[i]?) h
  simpa [hkey,helt] using hat

theorem Holds.keys_zip (h : Holds hashKey c s) : (c.keys.zip c.elts).map Prod.fst = c.keys :=
  List.map_fst_zip (Nat.le_of_eq h.length_eq.symm)

theorem Holds.length_lt_iff (ha : Holds hashKey a s) (hb : Holds hashKey b t) (hst : s ⊆ t) :
    a.keys.length < b.keys.length ↔ ¬ t ⊆ s := by
  have hsub := ha.nodup.subperm fun k hk => (hb.mem k).mpr (hst ((ha.mem k).mp hk))
  rw [← Nat.not_le,not_iff_not]
  constructor
  · intro hle k hk
    have hmem := (hsub.perm_of_length_le hle).mem_iff.mpr ((hb.mem k).mpr hk)
    exact (ha.mem k).mp hmem
  · intro hts
    exact (hb.nodup.subperm fun k hk => (ha.mem k).mpr (hts ((hb.mem k).mp hk))).length_le

theorem map_of_mapM {f : E → Except X H} (hf : ∀ elt k, f elt = .ok k → hashKey elt = .ok k) (h : elts.mapM f = .ok keys) :
    elts.map hashKey = keys.map .ok := by
  induction elts generalizing keys with
  | nil =>
    cases h
    rfl
  | cons elt elts ih =>
    rw [List.mapM_cons] at h
    cases hk : f elt with
    | error x => simp [hk,bind,Except.bind] at h
    | ok k =>
      cases hks : elts.mapM f with
      | error x => simp [hk,hks,bind,Except.bind] at h
      | ok ks =>
        simp only [hk,hks,bind,Except.bind,pure,Except.pure,Except.ok.injEq] at h
        subst h
        rw [List.map_cons,List.map_cons,hf elt k hk,ih hks]

theorem mem_of_map (h : elts.map hashKey = keys.map .ok) (k : H) :
    k ∈ keys ↔ ∃ elt ∈ elts, hashKey elt = .ok k := by
  rw [← List.mem_map,h,List.mem_map]
  simp

variable [DecidableEq H]

theorem Holds.addKeyed (h : Holds hashKey c s) {k : H} {elt : E} (hk : hashKey elt = .ok k) :
    Holds hashKey (c.addKeyed k elt) (insert k s) := by
  unfold SetCore.addKeyed
  split
  · rename_i hhas
    have hs := (h.has_iff k).mp hhas
    exact h.congr fun k' => by rw [Set.insert_eq_of_mem hs]
  · rename_i hhas
    have hnew : k ∉ c.keys := fun hmem => hhas ((h.has_iff k).mpr ((h.mem k).mp hmem))
    refine ⟨?_,?_,?_,?_⟩
    · rw [List.map_append,List.map_append,h.hashed,List.map_singleton,List.map_singleton,hk]
    · exact h.nodup.append (List.nodup_singleton k) (by simpa using hnew)
    · rw [h.length_eq]
      exact h.index.concat (by simpa [has] using hhas)
    · intro k'
      rw [List.mem_append,List.mem_singleton,h.mem,Set.mem_insert_iff,or_comm]

theorem Holds.removeKey (h : Holds hashKey c s) (k : H) :
    Holds hashKey (c.removeKey k) (s \ {k}) := by
  unfold SetCore.removeKey
  split
  · rename_i hnone
    have hs : k ∉ s := by
      rw [← h.has_iff,has,hnone]
      simp
    exact h.congr fun k' => by rw [Set.sdiff_singleton_eq_self hs]
  · rename_i idx hidx
    have hpos := (h.index k idx).mp hidx
    refine ⟨?_,h.nodup.sublist (List.eraseIdx_sublist _ _),h.index.eraseIdx h.nodup hidx,?_⟩
    · rw [← List.eraseIdx_map,← List.eraseIdx_map,h.hashed]
    · intro k'
      rw [Set.mem_sdiff,← h.mem,Set.mem_singleton_iff,List.mem_eraseIdx_iff_getElem?]
      constructor
      · rintro ⟨j,hj,hk'⟩
        refine ⟨List.mem_of_getElem? hk',?_⟩
        rintro rfl
        exact hj (Option.some.inj (((h.index _ _).mpr hk').symm.trans hidx))
      · rintro ⟨hmem,hne⟩
        obtain ⟨j,hj⟩ := List.mem_iff_getElem?.mp hmem
        exact ⟨j,fun hji => hne (Option.some.inj ((hji ▸ hj).symm.trans hpos)),hj⟩

theorem Holds.addPairs (h : Holds hashKey c s) (cond : H → Bool) {pairs : List (H × E)}
    (hp : ∀ p ∈ pairs, hashKey p.2 = .ok p.1) :
    Holds hashKey (pairs.foldl (fun c p => if cond p.1 then c.addKeyed p.1 p.2 else c) c)
      (s ∪ {k | k ∈ pairs.map Prod.fst ∧ cond k = true}) := by
  induction pairs generalizing c s with
  | nil => exact h.congr fun k => by simp
  | cons p pairs ih =>
    obtain ⟨hhead,htail⟩ := List.forall_mem_cons.mp hp
    rw [List.foldl_cons]
    split
    · rename_i hcond
      apply (ih (h.addKeyed hhead) htail).congr
      intro k
      simp only [Set.mem_union,Set.mem_insert_iff,Set.mem_ofPred_eq,List.map_cons,List.mem_cons]
      grind
    · rename_i hcond
      apply (ih h htail).congr
      intro k
      simp only [Set.mem_union,Set.mem_ofPred_eq,List.map_cons,List.mem_cons]
      grind

theorem Holds.addIf (hc : Holds hashKey c s) (hb : Holds hashKey b t) (cond : H → Bool) :
    Holds hashKey (c.addIf cond b) (s ∪ {k | k ∈ t ∧ cond k = true}) := by
  apply (hc.addPairs cond (hashed_of_mem_zip hb.hashed)).congr
  intro k
  rw [hb.keys_zip]
  simp [hb.mem]

theorem Holds.unionInto (hc : Holds hashKey c s) (hb : Holds hashKey b t) :
    Holds hashKey (c.unionInto b) (s ∪ t) :=
  (hc.addIf hb _).congr fun k => by simp
theorem Holds.diffInto {u : Set H} (hc : Holds hashKey c u) (ha : Holds hashKey a s)
    (hb : Holds hashKey b t) : Holds hashKey (c.diffInto a b) (u ∪ s \ t) :=
  (hc.addIf ha _).congr fun k => by simp [← hb.has_iff]
theorem Holds.symDiffInto (ha : Holds hashKey a s) (hb : Holds hashKey b t) :
    Holds hashKey (new.symDiffInto a b) (symmDiff s t) :=
  ((holds_new.diffInto ha hb).diffInto hb ha).congr fun k => by simp [symmDiff]

theorem Holds.removeKeys (hc : Holds hashKey c s) (hb : Holds hashKey b t) :
    Holds hashKey (c.removeKeys b) (s \ t) := by
  have hfold : ∀ (keys : List H) {c : SetCore H E} {s : Set H}, Holds hashKey c s →
      Holds hashKey (keys.foldl SetCore.removeKey c) (s \ {k | k ∈ keys}) := by
    intro keys
    induction keys with
    | nil => exact fun h => h.congr fun k => by simp
    | cons key keys ih =>
      intro c s h
      apply (ih (h.removeKey key)).congr
      intro k
      simp [and_assoc]
  exact (hfold b.keys hc).congr fun k => by simp [hb.mem]

theorem Holds.toggle (hc : Holds hashKey c s) {p : H × E} (hp : hashKey p.2 = .ok p.1) :
    Holds hashKey (c.toggle p) (symmDiff s {p.1}) := by
  unfold SetCore.toggle
  split
  · rename_i hhas
    have hs := (hc.has_iff p.1).mp hhas
    exact (hc.removeKey p.1).congr fun k => by simp [symmDiff]; grind
  · rename_i hhas
    have hs : p.1 ∉ s := fun hs => hhas ((hc.has_iff p.1).mpr hs)
    exact (hc.addKeyed hp).congr fun k => by simp [symmDiff]; grind

theorem Holds.toggleAll (hc : Holds hashKey c s) (hb : Holds hashKey b t) :
    Holds hashKey ((b.keys.zip b.elts).foldl SetCore.toggle c) (symmDiff s t) := by
  have hfold : ∀ (pairs : List (H × E)), (pairs.map Prod.fst).Nodup →
      (∀ p ∈ pairs, hashKey p.2 = .ok p.1) → ∀ {c : SetCore H E} {s : Set H}, Holds hashKey c s →
      Holds hashKey (pairs.foldl SetCore.toggle c) (symmDiff s {k | k ∈ pairs.map Prod.fst}) := by
    intro pairs
    induction pairs with
    | nil => exact fun _ _ _ _ h => h.congr fun k => by simp [symmDiff]
    | cons p pairs ih =>
      intro hnodup hp c s h
      rw [List.map_cons,List.nodup_cons] at hnodup
      obtain ⟨hhead,htail⟩ := List.forall_mem_cons.mp hp
      apply (ih hnodup.2 htail (h.toggle hhead)).congr
      intro k
      simp only [Set.mem_symmDiff,Set.mem_singleton_iff,Set.mem_ofPred_eq,List.map_cons,
        List.mem_cons]
      grind
  apply (hfold _ (hb.keys_zip.symm ▸ hb.nodup) (hashed_of_mem_zip hb.hashed) hc).congr
  intro k
  rw [hb.keys_zip]
  simp [Set.mem_symmDiff,hb.mem]

def argKeys (hashKey : E → Except X H) (s : Set H) :
    SetArg H E X → Set H
  | .core b => {k | k ∈ b.keys}
  | .self => s
  | .iter elts _ => {k | ∃ elt ∈ elts, hashKey elt = .ok k}
def ArgConsistent (hashKey : E → Except X H) : SetArg H E X → Prop
  | .core b => Holds hashKey b {k | k ∈ b.keys}
  | _ => True

theorem Holds.buildArgCore (hc : Holds hashKey c s) {arg : SetArg H E X}
    (harg : ArgConsistent hashKey arg) (h : buildArgCore hashKey wrap c arg = .ok b) :
    Holds hashKey b (argKeys hashKey s arg) := by
  cases arg with
  | core d =>
    cases h
    exact harg
  | self =>
    cases h
    exact hc
  | iter elts stop =>
    rw [SetCore.buildArgCore] at h
    cases hks : elts.mapM (setKey hashKey wrap) with
    | error x => simp [hks,bind,Except.bind] at h
    | ok keys =>
      cases stop with
      | some x => simp [hks,bind,Except.bind] at h
      | none =>
        simp only [hks,bind,Except.bind,Except.ok.injEq] at h
        subst h
        have hmap : elts.map hashKey = keys.map .ok := map_of_mapM (fun elt k hk => by
          unfold setKey at hk
          cases hh : hashKey elt <;> simp_all [Except.mapError]) hks
        have hlen : keys.length ≤ elts.length := by
          simpa using Nat.le_of_eq (congrArg List.length hmap).symm
        have hadd := holds_new.addPairs (fun _ => true) (hashed_of_mem_zip hmap)
        simp only [if_true] at hadd
        apply hadd.congr
        intro k
        rw [List.map_fst_zip hlen]
        simp [mem_of_map hmap,argKeys]

omit [DecidableEq H] in
theorem Holds.argMembership (hc : Holds hashKey c s) {arg : SetArg H E X} {memb : List H}
    (h : argMembership hashKey c arg = .ok memb) (k : H) : k ∈ memb ↔ k ∈ argKeys hashKey s arg := by
  cases arg with
  | core d =>
    cases h
    rfl
  | self =>
    cases h
    exact hc.mem k
  | iter elts stop =>
    rw [SetCore.argMembership] at h
    cases hks : elts.mapM hashKey with
    | error x => simp [hks,bind,Except.bind] at h
    | ok keys =>
      cases stop with
      | some x => simp [hks,bind,Except.bind] at h
      | none =>
        simp only [hks,bind,Except.bind,Except.ok.injEq] at h
        subst h
        exact mem_of_map (map_of_mapM (fun _ _ hk => hk) hks) k

variable {op : Set H → Set H → Set H}

omit [DecidableEq H] in
theorem Holds.foldArgs {step : SetCore H E → SetArg H E X → Except X (SetCore H E)} {out : SetCore H E}
    (hstep : ∀ arg ∈ args, ∀ {acc u next}, Holds hashKey acc u → step acc arg = .ok next →
      Holds hashKey next (op u (argKeys hashKey t arg)))
    (hc : Holds hashKey c s) (h : args.foldlM step c = .ok out) :
    Holds hashKey out (args.foldl (fun u arg => op u (argKeys hashKey t arg)) s) := by
  induction args generalizing c s with
  | nil =>
    cases h
    exact hc
  | cons arg args ih =>
    obtain ⟨hhead,htail⟩ := List.forall_mem_cons.mp hstep
    rw [List.foldlM_cons] at h
    cases hnext : step c arg with
    | error x => simp [hnext,bind,Except.bind] at h
    | ok next =>
      rw [hnext] at h
      exact ih htail (hhead hc hnext) h

theorem Holds.eachArg {change : SetCore H E → SetCore H E → SetCore H E}
    (hchange : ∀ {c b s t}, Holds hashKey c s → Holds hashKey b t →
      Holds hashKey (change c b) (op s t))
    (hargs : ∀ arg ∈ args, ArgConsistent hashKey arg) (hc : Holds hashKey c s) :
    ∃ done, done <+: args ∧
      ((eachArg hashKey wrap change args c).1 = .ok () → done = args) ∧
      Holds hashKey (eachArg hashKey wrap change args c).2
        (done.foldl (fun u arg => op u (argKeys hashKey u arg)) s) := by
  induction args generalizing c s with
  | nil => exact ⟨[],List.prefix_rfl,fun _ => rfl,hc⟩
  | cons arg args ih =>
    obtain ⟨hhead,htail⟩ := List.forall_mem_cons.mp hargs
    rw [SetCore.eachArg]
    cases hb : SetCore.buildArgCore hashKey wrap c arg with
    | error x => exact ⟨[], List.nil_prefix,fun h => (by cases h),hc⟩
    | ok b =>
      obtain ⟨done, hprefix,hdone,hholds⟩ := ih htail (hchange hc (hc.buildArgCore hhead hb))
      exact ⟨arg :: done,List.cons_prefix_cons.mpr ⟨rfl, hprefix⟩,
        fun h => congrArg (arg :: ·) (hdone h),hholds⟩

/-! ## Comparisons -/

omit [DecidableEq H] in
theorem Holds.isSubsetCore_iff (ha : Holds hashKey a s) (hb : Holds hashKey b t) :
    a.isSubsetCore b = true ↔ s ⊆ t := by
  have hall : a.keys.all b.has = true ↔ s ⊆ t := by
    simp only [List.all_eq_true,hb.has_iff,ha.mem]
    rfl
  rw [isSubsetCore,Bool.and_eq_true,hall,and_iff_right_iff_imp,decide_eq_true_eq]
  intro hst
  exact (ha.nodup.subperm fun k hk => (hb.mem k).mpr (hst ((ha.mem k).mp hk))).length_le

omit [DecidableEq H] in
theorem Holds.proper_iff (ha : Holds hashKey a s) (hb : Holds hashKey b t) :
    (a.keys.length < b.keys.length && a.isSubsetCore b) = true ↔ s ⊂ t := by
  rw [Bool.and_eq_true,decide_eq_true_eq,ha.isSubsetCore_iff hb,Set.ssubset_def,and_comm]
  exact and_congr_right fun hst => ha.length_lt_iff hb hst

theorem isOk_of_map {α β : Type} {r : Except X α} {f : α → β} {y : β} (h : r.map f = .ok y) :
    ∃ x, r = .ok x ∧ f x = y := by
  cases r with
  | error e => cases h
  | ok x => exact ⟨x,rfl,Except.ok.inj h⟩

/-- The laws of sets: operators, methods, in-place methods and comparisons. An in-place method reads its
arguments when their turn comes, and one that raises leaves what was done before. -/
structure Laws (hashKey : E → Except X H) (wrap : E → X → X) : Prop where
  operators : ∀ {a b s t}, Holds hashKey a s → Holds hashKey b t →
    Holds hashKey (a.bitOr b) (s ∪ t) ∧ Holds hashKey (a.bitAnd b) (s ∩ t) ∧
    Holds hashKey (a.sub b) (s \ t) ∧ Holds hashKey (a.bitXor b) (symmDiff s t)
  methods : ∀ {c s out} {args : List (SetArg H E X)}, Holds hashKey c s →
    (∀ arg ∈ args, ArgConsistent hashKey arg) →
    (unionMethod hashKey wrap c args = .ok out →
      Holds hashKey out (args.foldl (fun u arg => u ∪ argKeys hashKey s arg) s)) ∧
    (intersection hashKey c args = .ok out →
      Holds hashKey out (args.foldl (fun u arg => u ∩ argKeys hashKey s arg) s)) ∧
    (difference hashKey wrap c args = .ok out →
      Holds hashKey out (args.foldl (fun u arg => u \ argKeys hashKey s arg) s))
  symmetric : ∀ {c s out arg}, Holds hashKey c s → ArgConsistent hashKey arg →
    symmetricDifference hashKey wrap c arg = .ok out →
      Holds hashKey out (symmDiff s (argKeys hashKey s arg))
  updates : ∀ {c s} {args : List (SetArg H E X)}, Holds hashKey c s →
    (∀ arg ∈ args, ArgConsistent hashKey arg) →
    (∃ done, done <+: args ∧ ((update hashKey wrap c args).1 = .ok () → done = args) ∧
      Holds hashKey (update hashKey wrap c args).2
        (done.foldl (fun u arg => u ∪ argKeys hashKey u arg) s)) ∧
    (∃ done, done <+: args ∧ ((differenceUpdate hashKey wrap c args).1 = .ok () → done = args) ∧
      Holds hashKey (differenceUpdate hashKey wrap c args).2
        (done.foldl (fun u arg => u \ argKeys hashKey u arg) s)) ∧
    Holds hashKey (intersectionUpdate hashKey c args).2
      (if (intersectionUpdate hashKey c args).1.isOk then
        args.foldl (fun u arg => u ∩ argKeys hashKey s arg) s else s)
  symmetricUpdate : ∀ {c s arg}, Holds hashKey c s → ArgConsistent hashKey arg →
    Holds hashKey (symmetricDifferenceUpdate hashKey wrap c arg).2
      (if (symmetricDifferenceUpdate hashKey wrap c arg).1.isOk then
        symmDiff s (argKeys hashKey s arg) else s)
  order : ∀ {a b s t}, Holds hashKey a s → Holds hashKey b t →
    (a.setOrder b .le = true ↔ s ⊆ t) ∧ (a.setOrder b .lt = true ↔ s ⊂ t) ∧
    (a.setOrder b .ge = true ↔ t ⊆ s) ∧ (a.setOrder b .gt = true ↔ t ⊂ s)
  tests : ∀ {c s arg r}, Holds hashKey c s → ArgConsistent hashKey arg →
    (isdisjoint hashKey wrap c arg = .ok r → (r = true ↔ Disjoint s (argKeys hashKey s arg))) ∧
    (issubset hashKey c arg = .ok r → (r = true ↔ s ⊆ argKeys hashKey s arg)) ∧
    (issuperset hashKey wrap c arg = .ok r → (r = true ↔ argKeys hashKey s arg ⊆ s))

theorem Holds.intersection (hc : Holds hashKey c s)
    {out : SetCore H E} (h : intersection hashKey c args = .ok out) :
    Holds hashKey out (args.foldl (fun u arg => u ∩ argKeys hashKey s arg) s) := by
  refine hc.foldArgs (fun arg _ acc u next hacc hnext => ?_) h
  obtain ⟨memb,hmemb,rfl⟩ := isOk_of_map hnext
  apply (holds_new.addIf hacc _).congr
  intro k
  simp [hc.argMembership hmemb]

theorem laws (hashKey : E → Except X H) (wrap : E → X → X) : Laws hashKey wrap where
  operators ha hb :=
    ⟨((holds_new.unionInto ha).unionInto hb).congr fun k => by simp,
      (holds_new.addIf ha _).congr fun k => by simp [hb.has_iff],
      (holds_new.diffInto ha hb).congr fun k => by simp,ha.symDiffInto hb⟩
  methods hc hargs := by
    refine ⟨fun h => ?_,hc.intersection,fun h => ?_⟩
    · refine ((holds_new.unionInto hc).congr fun k => by simp).foldArgs
        (fun arg harg acc u next hacc hnext => ?_) h
      obtain ⟨b,hb,rfl⟩ := isOk_of_map hnext
      exact hacc.unionInto (hc.buildArgCore (hargs arg harg) hb)
    · refine hc.foldArgs (fun arg harg acc u next hacc hnext => ?_) h
      obtain ⟨b,hb,rfl⟩ := isOk_of_map hnext
      exact hacc.removeKeys (hc.buildArgCore (hargs arg harg) hb)
  symmetric hc harg h := by
    obtain ⟨b,hb,rfl⟩ := isOk_of_map h
    exact hc.symDiffInto (hc.buildArgCore harg hb)
  updates {c s args} hc hargs := by
    refine ⟨hc.eachArg Holds.unionInto hargs,hc.eachArg Holds.removeKeys hargs,?_⟩
    unfold intersectionUpdate
    cases h : SetCore.intersection hashKey c args with
    | error x => exact hc
    | ok out => exact hc.intersection h
  symmetricUpdate {c s arg} hc harg := by
    unfold symmetricDifferenceUpdate
    cases h : SetCore.buildArgCore hashKey wrap c arg with
    | error x => exact hc
    | ok b => exact hc.toggleAll (hc.buildArgCore harg h)
  order ha hb :=
    ⟨ha.isSubsetCore_iff hb,ha.proper_iff hb,hb.isSubsetCore_iff ha,hb.proper_iff ha⟩
  tests {c s arg r} hc harg := by
    refine ⟨fun h => ?_,fun h => ?_,fun h => ?_⟩
    · obtain ⟨b,hb,rfl⟩ := isOk_of_map h
      have hb := hc.buildArgCore harg hb
      simp only [List.all_eq_true,Bool.not_eq_true',← Bool.not_eq_true,hc.has_iff,hb.mem]
      rw [Set.disjoint_right]
    · obtain ⟨memb,hmemb,rfl⟩ := isOk_of_map h
      simp only [List.all_eq_true,decide_eq_true_eq,hc.argMembership hmemb,hc.mem]
      rfl
    · obtain ⟨b,hb,rfl⟩ := isOk_of_map h
      exact (hc.buildArgCore harg hb).isSubsetCore_iff hc

end
end SetCore

def notAnElement (elt : Object) (x : Python.Exc) : Python.Exc :=
  if x.cls = .typeError then
    ⟨.typeError, "cannot use '" ++ elt.typeName ++ "' as a set element (" ++ x.msg ++ ")"⟩
  else x

variable {xs ys zs : List Object}

/-- Frozensets of equal members in any order have one hash, unless the comparison of two of them is
misled, and sets satisfy the laws of sets. -/
theorem frozenset_hash_and_laws (hx : ∀ x ∈ xs, Keyable AnyFloat x)
    (hy : ∀ y ∈ ys, Keyable AnyFloat y) (horder : zs.Perm ys)
    (hequal : List.Forall₂ (fun x z => (Object.same x z || equals x z) = true) xs zs)
    (hm : ∀ x ∈ xs, ∀ y ∈ ys, equals x y = true → misled x y = false) (p q : Addr) :
    pyHash (.frozenset p xs) = pyHash (.frozenset q ys) ∧ SetCore.Laws hashKey notAnElement := by
  have hz : ∀ z ∈ zs, z ∈ ys := fun z hz => horder.mem_iff.mp hz
  refine ⟨?_,SetCore.laws hashKey notAnElement⟩
  have hhashes : pyHashes xs = pyHashes zs := by
    refine pyHashes_congr hequal fun x hxs z hzs h => ?_
    rw [Bool.or_eq_true,Object.same_iff] at h
    rcases h with rfl | h
    · rfl
    · exact pyHash_eq_of_equals (hx x hxs).hashable (hy z (hz z hzs)).hashable h
        (hm x hxs z (hz z hzs) h)
  calc pyHash (.frozenset p xs) = pyHash (.frozenset p zs) := by rw [pyHash,pyHash,hhashes]
    _ = pyHash (.frozenset q ys) :=
      pyHash_frozenset_congr (fun z hzs => (hy z (hz z hzs)).isOk) (fun y hys => (hy y hys).isOk)
        (horder.map hashOf)

/-- `frozenset({1, "x", list[int] | int})` and `frozenset({list[int] | int, "x", True})`. -/
theorem hash_of_reordered_frozenset :
    let u := Object.union 6 [.genericAlias 7 (.identity 8) [.identity 9],.identity 9]
    pyHash (.frozenset 1 [.int 2 1,.str 3 (ascii "x"),u]) =
      pyHash (.frozenset 4 [u,.str 5 (ascii "x"),.bool true]) := by
  intro u
  have hu : Keyable AnyFloat u := by
    refine .union 6 _ ?_ (by decide)
    simp [Keyable.identity,Keyable.genericAlias]
  refine (@frozenset_hash_and_laws _ _ [.bool true,.str 5 (ascii "x"),u] ?_ ?_ ?_ ?_ ?_ 1 4).1
  · simp [Keyable.int,Keyable.str,hu]
  · simp [Keyable.bool,Keyable.str,hu]
  · exact List.reverse_perm [u,.str 5 (ascii "x"),.bool true]
  · exact .cons (by decide +kernel) (.cons (by decide +kernel) (.cons (by decide +kernel) .nil))
  · decide +kernel

/-- The frozensets of `list["a,sb"]` and of `list["a", "b"]` are equal by their keys, and the
frozensets of these two have different hashes. -/
theorem hash_of_equal_members_differs :
    (let one := Object.frozenset 1 [.genericAlias 2 (.identity 3) [.str 4 (ascii "a,sb")]]
     let two := Object.frozenset 5
       [.genericAlias 6 (.identity 3) [.str 7 (ascii "a"),.str 8 (ascii "b")]]
     equals one two = true ∧
      (pyHash (.frozenset 9 [one])).toOption ≠ (pyHash (.frozenset 10 [two])).toOption) := by
  decide +kernel

end Unagi.Objects
