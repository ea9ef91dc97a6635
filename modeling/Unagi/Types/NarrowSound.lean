import Unagi.Types.Narrow

/-! # What narrowing keeps

A value on the true edge of a test against a class stays in the type of the place if it belongs
to a member of the type that the meet can relate to the class; the meet takes all other pairs to
the bottom. The false edges keep every value. -/

namespace Unagi.Types

section Meet
variable {mro : String → List String}

private theorem size_setRefine (t : Ty) (r : Refine) : (t.setRefine r).size = t.size := by
  cases t <;> rfl
private theorem size_pos (t : Ty) : 0 < t.size := by
  cases t <;> simp [Ty.size]

theorem size_le_of_mem {ts : List Ty} {t : Ty} (ht : t ∈ ts) : t.size ≤ Ty.size.sizeList ts := by
  induction ts with
  | nil => exact absurd ht List.not_mem_nil
  | cons u us ih =>
    rw [Ty.size.sizeList]
    rcases List.mem_cons.mp ht with rfl | ht
    · omega
    · have hle := ih ht
      omega

variable {j j' : Ty → Ty → Ty}

variable {a b : Ty}

theorem structuralMeet_congr (h : ∀ t u, t.size + u.size < a.size + b.size → j t u = j' t u) :
    structuralMeet mro j a b = structuralMeet mro j' a b := by
  unfold structuralMeet
  split_ifs with heq hab hba
  · rfl
  · rfl
  · rfl
  · split
    · rename_i ts r
      have hmap : ts.map (fun m => j m b) = ts.map fun m => j' m b := by
        apply List.map_congr_left
        intro m hm
        have hlt := size_le_of_mem hm
        exact h m b (by simp only [Ty.size]; omega)
      rw [meetUnion,meetUnion,hmap]
    · rename_i us r _
      have hmap : us.map (fun m => j m a) = us.map fun m => j' m a := by
        apply List.map_congr_left
        intro m hm
        have hlt := size_le_of_mem hm
        exact h m a (by simp only [Ty.size]; omega)
      rw [meetUnion,meetUnion,hmap]
    · rw [h _ _ (by simp only [Ty.size]; omega)]
    · rw [h _ _ (by simp only [Ty.size]; omega)]
    · rw [h _ _ (by simp only [Ty.size]; omega),h _ _ (by simp only [Ty.size]; omega)]
    · rfl

private theorem meetUncached_congr (h : ∀ t u, t.size + u.size < a.size + b.size → j t u = j' t u) :
    meetUncached mro j a b = meetUncached mro j' a b := by
  have hbase : structuralMeet mro j a.stripRefine b.stripRefine =
      structuralMeet mro j' a.stripRefine b.stripRefine := by
    apply structuralMeet_congr
    rwa [Ty.stripRefine,Ty.stripRefine,size_setRefine,size_setRefine]
  rw [meetUncached,meetUncached,hbase]

private theorem meetN_stable (k : Nat) (a b : Ty) (hk : a.size + b.size ≤ k) :
    meetN mro k a b = meetN mro (k + 1) a b := by
  induction k generalizing a b with
  | zero =>
    have hpos := size_pos a
    omega
  | succ k ih =>
    rw [meetN,meetN,meetUncached_congr fun t u hlt => ih t u (by omega)]

private theorem meetN_eq_meet {k : Nat} (hk : a.size + b.size ≤ k) :
    meetN mro k a b = meet mro a b := by
  rw [meet]
  obtain ⟨i,rfl⟩ : ∃ i, k = a.size + b.size + i := ⟨k - (a.size + b.size),by omega⟩
  clear hk
  induction i with
  | zero => rfl
  | succ i ih => rw [← ih,← Nat.add_assoc,← meetN_stable _ a b (by omega)]

theorem meet_eq (a b : Ty) :
    meet mro a b = if a = b then a else meetUncached mro (meet mro) a b := by
  have hpos := size_pos a
  obtain ⟨k,hk⟩ : ∃ k, a.size + b.size = k + 1 := ⟨a.size + b.size - 1,by omega⟩
  rw [meet,hk,meetN]
  rw [meetUncached_congr fun t u hlt => meetN_eq_meet (by omega)]

end Meet

/-! ## Tests against a class -/

inductive Testable : Ty → Prop
  | atom (a : Atom) : Testable (.atom a .plain)
  | cls (n : String) : Testable (.cls n .plain)
  | list : Testable (.list dyn .plain)
  | set : Testable (.set dyn .plain)
  | dict : Testable (.dict dyn dyn .plain)
  | tuple : Testable (.tupleVar dyn .plain)

def Model.InstanceOf {V : Type} (M : Model V) (v : V) (c : Ty) : Prop :=
  ∃ n, c.className = some n ∧ M.IsA v n
def Model.ExactlyOf {V : Type} (M : Model V) (v : V) (c : Ty) : Prop :=
  ∃ n, c.className = some n ∧ (M.mro v).head? = some n

/-- The table has the linearization of the value's own class. -/
def Model.Linearized {V : Type} (M : Model V) (mro : String → List String) : Prop :=
  ∀ v n, (M.mro v).head? = some n → ∀ m, M.IsA v m → m ∈ mro n

/-- Containers of one kind, tuples apart, whose elements are not the bottom. -/
def sameContainer : Ty → Ty → Bool
  | .list t _, .list _ _ | .set t _, .set _ _ => t.kind ≠ .never
  | .dict k v _, .dict _ _ _ => k.kind ≠ .never && v.kind ≠ .never
  | _, _ => false

/-- The pairs that the meet does not take to the bottom. -/
def related (mro : String → List String) (m c : Ty) : Bool :=
  m.kind = .dyn || isSubtype mro m.stripRefine c || isSubtype mro c m.stripRefine ||
    sameContainer m c

namespace Testable
variable {c : Ty}

private theorem refine_eq (hc : Testable c) : c.refine = .plain := by cases hc <;> rfl
private theorem stripRefine_eq (hc : Testable c) : c.stripRefine = c := by cases hc <;> rfl
private theorem kind_ne (hc : Testable c) : c.kind ≠ .dyn ∧ c.kind ≠ .never ∧ c.kind ≠ .union := by
  cases hc <;> simp

private theorem has_iff {V : Type} (M : Model V) (hc : Testable c) (v : V) :
    M.Has c v ↔ M.InstanceOf v c := by
  cases hc <;>
    simp [Model.Has,Model.InstanceOf,Ty.className,M.bits_plain,M.has_dyn]

end Testable

section Members
variable {mro : String → List String}

theorem meet_dyn (t : Ty) : meet mro t dyn = if t.kind = .dyn then dyn else t := by
  rw [meet_eq,meetUncached]
  by_cases h : t = dyn
  · rw [if_pos h,h]
    rfl
  · rw [if_neg h]
    simp [dyn]

private theorem has_meet_dyn {V : Type} {M : Model V} {t : Ty} {v : V} :
    M.Has (meet mro t dyn) v ↔ M.Has t v := by
  rw [meet_dyn]
  split_ifs with h
  · obtain ⟨r,rfl⟩ := (Ty.kind_eq_dyn t).mp h
    exact ⟨fun _ => trivial,fun _ => trivial⟩
  · rfl

private theorem kind_meet_dyn (t : Ty) : (meet mro t dyn).kind = t.kind := by
  rw [meet_dyn]
  split_ifs with h
  · rw [h]
    rfl
  · rfl

/-- `b` with the bits of `m`, if it has the kind of both. -/
def keepBits (m c b : Ty) : Ty :=
  if b.kind = m.kind ∧ b.kind = c.kind then b.withRefine m.refine else b

variable {m c : Ty}

private theorem has_keepBits {V : Type} {M : Model V} {b : Ty} (hb : b.kind ≠ .dyn) {v : V} :
    M.Has (keepBits m c b) v ↔ M.Has b v ∧
      (b.kind = m.kind → b.kind = c.kind → M.Bits b.className b.fixedArity m.refine v) := by
  rw [keepBits,← and_imp]
  split_ifs with h
  · rw [M.has_withRefine hb]
    exact and_congr_right fun _ => ⟨fun hbits _ => hbits,fun hbits => hbits h⟩
  · exact ⟨fun hhas => ⟨hhas,fun h' => absurd h' h⟩,And.left⟩

/-- How the meet of a member and a tested class comes to be `u`: the bottom, the member, the class
below it, or the container with the same values. -/
inductive Met (mro : String → List String) (m c u : Ty) : Prop
  | bottom (hrel : m.kind = .never ∨ related mro m c = false) (h : u = never)
  | dyn (hm : m.kind = .dyn) (h : u = c)
  | below (hsub : isSubtype mro m.stripRefine c = true) (hdyn : m.kind ≠ .dyn)
      (hnever : m.kind ≠ .never) (h : u = keepBits m c m.stripRefine)
  | above (hsub : isSubtype mro c m.stripRefine = true)
      (hnot : isSubtype mro m.stripRefine c = false) (hdyn : m.kind ≠ .dyn) (h : u = keepBits m c c)
  | container {b : Ty} (hrel : related mro m c = true)
      (hnot : isSubtype mro m.stripRefine c = false) (hm : b.kind = m.kind) (hc : b.kind = c.kind)
      (hdyn : m.kind ≠ .dyn) (htuple : m.kind ≠ .tuple) (hcls : m.kind ≠ .cls)
      (hhas : ∀ (V : Type) (M : Model V) (v : V), M.Has b v ↔ M.Has m.stripRefine v)
      (h : u = keepBits m c b)

private theorem Refine.union_plain (r : Refine) : r.union .plain = r := by
  cases r
  simp [Refine.union,Refine.plain]

private theorem withRefine_plain (t : Ty) : t.withRefine .plain = t := by
  rw [Ty.withRefine,Refine.union_plain,Model.setRefine_refine]

private theorem meet_member (hc : Testable c) (hne : m ≠ c) (hdyn : m.kind ≠ .dyn)
    (hnever : m.kind ≠ .never) :
    meet mro m c = keepBits m c (structuralMeet mro (meet mro) m.stripRefine c) := by
  rw [meet_eq,if_neg hne,meetUncached,if_neg hdyn,if_neg hc.kind_ne.1,
    if_neg (not_or.mpr ⟨hnever,hc.kind_ne.2.1⟩)]
  simp only [hc.stripRefine_eq,hc.refine_eq,Refine.union_plain]
  by_cases hplain : m.refine = .plain
  · rw [if_neg fun h => h.1 hplain,keepBits,hplain,withRefine_plain,ite_self]
  · simp only [keepBits,ne_eq,hplain,not_false_eq_true,true_and]

private theorem containerMeet_dyn (elems : List Ty) (b : Ty) :
    containerMeet (elems.map (meet mro · dyn)) b =
      if elems.any fun t => t.kind = .never then never else b := by
  simp only [containerMeet,List.any_map,Function.comp_def,kind_meet_dyn]

private theorem meet_met (hc : Testable c) (hunion : m.kind ≠ .union) :
    Met mro m c (meet mro m c) := by
  by_cases hdyn : m.kind = .dyn
  · apply Met.dyn hdyn
    rw [meet_eq,meetUncached,if_pos hdyn]
    split_ifs with heq
    · exact heq
    · rfl
  by_cases heq : m = c
  · refine .below ?_ hdyn (heq ▸ hc.kind_ne.2.1) ?_
    · simp [isSubtype,heq,hc.stripRefine_eq]
    · rw [meet_eq,if_pos heq,heq,hc.stripRefine_eq,keepBits,hc.refine_eq,withRefine_plain,ite_self]
  by_cases hnever : m.kind = .never
  · apply Met.bottom (.inl hnever)
    rw [meet_eq,if_neg heq,meetUncached,if_neg hdyn,if_neg hc.kind_ne.1,if_pos (.inl hnever)]
  have hkeeps := @meet_member mro m c hc heq hdyn hnever
  by_cases hmc : isSubtype mro m.stripRefine c = true
  · refine .below hmc hdyn hnever ?_
    unfold structuralMeet at hkeeps
    rwa [if_pos hmc,ite_self] at hkeeps
  by_cases hstrip : m.stripRefine = c
  · simp [isSubtype,hstrip] at hmc
  by_cases hcm : isSubtype mro c m.stripRefine = true
  · refine .above hcm (Bool.eq_false_iff.mpr hmc) hdyn ?_
    unfold structuralMeet at hkeeps
    rwa [if_neg hstrip,if_neg hmc,if_pos hcm] at hkeeps
  unfold structuralMeet at hkeeps
  rw [if_neg hstrip,if_neg hmc,if_neg hcm] at hkeeps
  rw [Bool.not_eq_true] at hmc hcm
  have hrelated : related mro m c = sameContainer m c := by simp [related,hmc,hcm,hdyn]
  have hbottom : related mro m c = false → meet mro m c = keepBits m c never →
      Met mro m c (meet mro m c) := fun h hkeeps =>
    .bottom (.inr h) (hkeeps.trans (if_neg fun h => hnever h.1.symm))
  -- what is left are containers of one kind, and pairs without a case
  have hcontainer : ∀ (elems : List Ty) (b : Ty),
      (sameContainer m c = !elems.any fun t => t.kind = .never) →
      meet mro m c = keepBits m c (containerMeet (elems.map (meet mro · dyn)) b) →
      b.kind = m.kind → b.kind = c.kind → m.kind ≠ .tuple → m.kind ≠ .cls →
      (∀ (V : Type) (M : Model V) (v : V), M.Has b v ↔ M.Has m.stripRefine v) →
      Met mro m c (meet mro m c) := by
    intro elems b hsame hkeeps hkm hkc htuple hcls hhas
    rw [containerMeet_dyn] at hkeeps
    split_ifs at hkeeps with hany
    · exact hbottom (by rw [hrelated,hsame,hany]; rfl) hkeeps
    · rw [Bool.not_eq_true] at hany
      exact .container (by rw [hrelated,hsame,hany]; rfl) hmc hkm hkc hdyn htuple hcls hhas hkeeps
  cases m with
  | union ts r => exact absurd rfl hunion
  | list t r =>
    cases hc with
    | list =>
      refine hcontainer [t] _ ?_ hkeeps rfl rfl (by simp) (by simp) fun V M v => ?_
      · simp [sameContainer]
      · simp only [Ty.stripRefine,Ty.setRefine,Model.Has,has_meet_dyn]
    | _ => exact hbottom hrelated hkeeps
  | set t r =>
    cases hc with
    | set =>
      refine hcontainer [t] _ ?_ hkeeps rfl rfl (by simp) (by simp) fun V M v => ?_
      · simp [sameContainer]
      · simp only [Ty.stripRefine,Ty.setRefine,Model.Has,has_meet_dyn]
    | _ => exact hbottom hrelated hkeeps
  | dict k e r =>
    cases hc with
    | dict =>
      refine hcontainer [k,e] _ ?_ hkeeps rfl rfl (by simp) (by simp) fun V M v => ?_
      · simp [sameContainer]
      · simp only [Ty.stripRefine,Ty.setRefine,Model.Has,has_meet_dyn]
    | _ => exact hbottom hrelated hkeeps
  | _ => cases hc <;> exact hbottom hrelated hkeeps

section
variable (t : Ty) (r : Refine)

private theorem className_setRefine : (t.setRefine r).className = t.className := by cases t <;> rfl
theorem fixedArity_setRefine : (t.setRefine r).fixedArity = t.fixedArity := by cases t <;> rfl
private theorem kind_setRefine : (t.setRefine r).kind = t.kind := by cases t <;> rfl

end

/-- The member is related to the class and has the value but for its bits; and if it is of the kind
of the class, its bits hold of the value, the exact class being the lower one of the two. -/
def Narrows (mro : String → List String) {V : Type} (M : Model V) (m c : Ty) (v : V) : Prop :=
  related mro m c = true ∧ M.Has m.stripRefine v ∧ (m.kind = c.kind →
    M.Bits (if isSubtype mro m.stripRefine c then m.className else c.className) m.fixedArity
      m.refine v)

private theorem has_meet_member {V : Type} {M : Model V} (hM : M.Respects mro) (hc : Testable c)
    (hunion : m.kind ≠ .union) {v : V} (hinst : M.InstanceOf v c) :
    M.Has (meet mro m c) v ↔ Narrows mro M m c v := by
  have hhasc : M.Has c v := (hc.has_iff M v).mpr hinst
  rw [Narrows]
  cases @meet_met mro m c hc hunion with
  | bottom hrel heq =>
    rw [heq]
    refine iff_of_false id fun h => ?_
    rcases hrel with hk | hrel
    · obtain ⟨r,rfl⟩ := (Ty.kind_eq_never m).mp hk
      exact h.2.1
    · exact absurd (hrel.symm.trans h.1) (by simp)
  | dyn hm heq =>
    rw [heq]
    refine iff_of_true hhasc ⟨by simp [related,hm],?_,
      fun h => absurd (h.symm.trans hm) hc.kind_ne.1⟩
    obtain ⟨r,rfl⟩ := (Ty.kind_eq_dyn m).mp hm
    trivial
  | below hsub hdyn _ heq =>
    have hrel : related mro m c = true := by simp [related,hsub]
    rw [heq,has_keepBits (stripRefine_kind m ▸ hdyn),stripRefine_kind,hsub,if_pos rfl,hrel,
      Ty.stripRefine,className_setRefine,fixedArity_setRefine]
    exact ⟨fun h => ⟨rfl,h.1,h.2 rfl⟩,fun h => ⟨h.2.1,fun _ => h.2.2⟩⟩
  | above hsub hnot hdyn heq =>
    have hrel : related mro m c = true := by simp [related,hsub]
    have harity : m.kind = c.kind → m.fixedArity = c.fixedArity := by
      intro hk
      by_cases htuple : m.kind = .tuple
      · -- nothing but itself is below the tuple of Dyn
        cases hc <;> simp [htuple] at hk
        rcases (isSubtype_iff _ _).mp hsub with h | h | h | ⟨h,-⟩ | ⟨n,r,h,-⟩
        · simp [← h,isSubtype] at hnot
        all_goals simp [stripRefine_kind,htuple] at h
      · rw [fixedArity_of_kind htuple,fixedArity_of_kind (hk ▸ htuple)]
    rw [heq,has_keepBits hc.kind_ne.1,hnot,if_neg Bool.false_ne_true,hrel]
    refine ⟨fun h => ⟨rfl,isSubtype_sound hM hsub (stripRefine_refine m) hhasc,fun hk => ?_⟩,
      fun h => ⟨hhasc,fun hk _ => ?_⟩⟩
    · exact harity hk ▸ h.2 hk.symm rfl
    · exact harity hk.symm ▸ h.2.2 hk.symm
  | container hrel hnot hkm hkc hdyn htuple hcls hhas heq =>
    rw [heq,has_keepBits (hkm ▸ hdyn),hnot,if_neg Bool.false_ne_true,hrel,hhas,
      className_of_kind hkc (hkm ▸ hcls),fixedArity_of_kind (hkm ▸ htuple),
      fixedArity_of_kind htuple]
    exact ⟨fun h => ⟨rfl,h.1,fun _ => h.2 hkm hkc⟩,fun h => ⟨h.2.1,fun _ _ => h.2.2 (hkm ▸ hkc)⟩⟩

theorem kind_meet (hc : Testable c) (hunion : m.kind ≠ .union) (hdyn : m.kind ≠ .dyn) :
    (meet mro m c).kind ≠ .dyn ∧ (meet mro m c).kind ≠ .union := by
  have hkeep : ∀ b : Ty, (keepBits m c b).kind = b.kind := by
    intro b
    rw [keepBits,Ty.withRefine]
    split_ifs
    · exact kind_setRefine ..
    · rfl
  cases @meet_met mro m c hc hunion with
  | bottom _ heq => simp [heq,never]
  | dyn hm _ => exact absurd hm hdyn
  | below _ _ _ heq => rw [heq,hkeep,stripRefine_kind]; exact ⟨hdyn,hunion⟩
  | above _ _ _ heq => rw [heq,hkeep]; exact ⟨hc.kind_ne.1,hc.kind_ne.2.2⟩
  | container _ _ hkm _ _ _ _ _ heq => rw [heq,hkeep,hkm]; exact ⟨hdyn,hunion⟩

end Members

/-! ## Unions -/

/-- A union as the interner builds it. -/
def Canonical (mro : String → List String) : Ty → Prop
  | .union ts _ => ts.length ≤ unionBudget ∧
    (∀ t ∈ ts, t.kind ≠ .dyn ∧ t.kind ≠ .union ∧ t.kind ≠ .never) ∧
    ∀ t ∈ ts, ∀ u ∈ ts, u ≠ t → isSubtype mro t u = false
  | _ => True

section Unions
variable {mro : String → List String}

private theorem flatten_eq {t : Ty} (hunion : t.kind ≠ .union) (hnever : t.kind ≠ .never) :
    flatten t = [t] := by
  cases t with
  | never r => exact absurd rfl hnever
  | union ts r => exact absurd rfl hunion
  | _ => rfl

variable {members : List Ty}

theorem flatMap_flatten_eq
    (h : ∀ t ∈ members, t.kind ≠ .union ∧ t.kind ≠ .never) : parts members = members := by
  induction members with
  | nil => rfl
  | cons t ts ih =>
    have ht := h t List.mem_cons_self
    rw [parts] at ih ⊢
    rw [List.flatMap_cons,flatten_eq ht.1 ht.2,ih fun u hu => h u (List.mem_cons_of_mem _ hu)]
    rfl

private theorem length_dedupe (ts : List Ty) : (dedupe ts).length ≤ ts.length := by
  induction ts with
  | nil => exact Nat.le_refl _
  | cons t ts ih =>
    have hle := List.length_filter_le (fun u => decide (u ≠ t)) (dedupe ts)
    rw [dedupe,List.length_cons,List.length_cons]
    omega

section Flat
variable (hlen : members.length ≤ unionBudget)
  (h : ∀ t ∈ members, t.kind ≠ .dyn ∧ t.kind ≠ .union ∧ t.kind ≠ .never)
include h

theorem mem_keptParts_flat {t : Ty} : t ∈ keptParts mro members ↔
    t ∈ members ∧ ∀ u ∈ members, u ≠ t → isSubtype mro t u = false := by
  rw [mem_keptParts,flatMap_flatten_eq fun t ht => (h t ht).2]

include hlen

private theorem length_keptParts : (keptParts mro members).length ≤ unionBudget := by
  rw [keptParts,flatMap_flatten_eq fun t ht => (h t ht).2]
  exact (List.length_filter_le _ _).trans ((length_dedupe members).trans hlen)

theorem has_makeUnion_iff {V : Type} {M : Model V} (hM : M.Respects mro) {v : V} :
    M.Has (makeUnion mro members) v ↔ ∃ t ∈ keptParts mro members, M.Has t v :=
  ⟨kept_of_has_makeUnion (fun t ht => (h t ht).1) (length_keptParts hlen h),
    fun ⟨_,ht,hhas⟩ => has_makeUnion_of_kept hM ht hhas⟩

/-- A union of the members that names a class is one of them. -/
theorem mem_of_className {n : String} (hn : (makeUnion mro members).className = some n) :
    makeUnion mro members ∈ members := by
  cases @makeUnion_made mro members with
  | dyn ht hk _ => exact absurd hk (h _ ht).1
  | never _ heq | union _ _ _ _ heq =>
    rw [heq] at hn
    cases hn
  | one _ hone => exact ((mem_keptParts_flat h).mp (hone ▸ List.mem_singleton_self _)).1
  | widened _ _ hlong _ => exact absurd hlong (Nat.not_lt.mpr (length_keptParts hlen h))

end Flat

def meetParts (mro : String → List String) (ts : List Ty) (c : Ty) : List Ty :=
  (ts.map fun m => meet mro m c).filter fun m => m.kind ≠ .never
variable {ts : List Ty}

theorem mem_meetParts {c t : Ty} :
    t ∈ meetParts mro ts c ↔ (∃ m ∈ ts, meet mro m c = t) ∧ t.kind ≠ .never := by
  rw [meetParts,List.mem_filter,List.mem_map,decide_eq_true_eq]

theorem meet_union {r : Refine} {b : Ty} (hne : Ty.union ts .plain ≠ b) (hplain : b.refine = .plain)
    (hdyn : b.kind ≠ .dyn) (hnever : b.kind ≠ .never) (hr : r = .plain ∨ b.kind ≠ .union) :
    meet mro (.union ts r) b =
      if meetParts mro ts b = [] then never else makeUnion mro (meetParts mro ts b) := by
  have hne' : Ty.union ts r ≠ b := by
    rintro rfl
    exact hne (congrArg (Ty.union ts) (hr.resolve_right fun h => h rfl).symm)
  have hstrip : b.stripRefine = b := by
    rw [Ty.stripRefine,← hplain,Model.setRefine_refine]
  have hsub : ¬ isSubtype mro (.union ts .plain) b = true := by
    rw [isSubtype_iff]
    simp [hne,hdyn]
  have hsub' : ¬ isSubtype mro b (.union ts .plain) = true := by
    rw [isSubtype_iff]
    simp [hne.symm,hnever,classBelow_iff]
  have hbase : structuralMeet mro (meet mro) (.union ts .plain) b =
      meetUnion mro (meet mro) ts b := by
    unfold structuralMeet
    rw [if_neg hne,if_neg hsub,if_neg hsub']
  rw [meet_eq,if_neg hne',meetUncached,if_neg (by simp),if_neg hdyn,if_neg (by simp [hnever])]
  simp only [hstrip,hplain,Refine.union_plain]
  rw [if_neg]
  · exact hbase
  · rintro ⟨hbits,hk,hk'⟩
    exact hr.elim hbits fun h => h (hk'.symm.trans hk)

private theorem meet_testable {r : Refine} {c : Ty} (hc : Testable c) :
    meet mro (.union ts r) c =
      if meetParts mro ts c = [] then never else makeUnion mro (meetParts mro ts c) := by
  apply meet_union ?_ hc.refine_eq hc.kind_ne.1 hc.kind_ne.2.1 (.inr hc.kind_ne.2.2)
  rintro rfl
  exact hc.kind_ne.2.2 rfl

private theorem kind_meetParts {c t : Ty} (hc : Testable c)
    (hts : ∀ t ∈ ts, t.kind ≠ .dyn ∧ t.kind ≠ .union ∧ t.kind ≠ .never)
    (ht : t ∈ meetParts mro ts c) : t.kind ≠ .dyn ∧ t.kind ≠ .union ∧ t.kind ≠ .never := by
  obtain ⟨⟨m,hm,rfl⟩,hnever⟩ := mem_meetParts.mp ht
  obtain ⟨hdyn,hunion⟩ := @kind_meet mro m c hc (hts m hm).2.1 (hts m hm).1
  exact ⟨hdyn,hunion,hnever⟩

private theorem isSubtype_never {a b : Ty} (ha : a.kind ≠ .never) (hb : b.kind = .never) :
    isSubtype mro a b = false := by
  obtain ⟨r,rfl⟩ := (Ty.kind_eq_never b).mp hb
  rw [Bool.eq_false_iff,ne_eq,isSubtype_iff]
  rintro (rfl | h | h | ⟨-,h⟩ | ⟨n,s,rfl,h⟩)
  · exact ha rfl
  · exact ha h
  all_goals simp [classBelow_iff] at h

theorem length_meetParts (ts : List Ty) (c : Ty) : (meetParts mro ts c).length ≤ ts.length := by
  rw [meetParts]
  exact (List.length_filter_le _ _).trans (List.length_map _).le

end Unions

/-! ## The edges -/

section Edges
variable {mro : String → List String} {V : Type} {M : Model V}

/-- A member of the type narrows to an element that has the value, and no other element that a
member narrows to is above it. -/
def KeptMember (mro : String → List String) (M : Model V) (cur c : Ty) (v : V) : Prop :=
  ∃ m ∈ flatten cur, Narrows mro M m c v ∧ ∀ m' ∈ flatten cur, meet mro m' c ≠ meet mro m c →
    isSubtype mro (meet mro m c) (meet mro m' c) = false

variable {v : V}

variable {cur c : Ty}

/-- A value that passes the test is in the meet exactly when a member is kept with it. -/
theorem has_meet_iff (hM : M.Respects mro) (hc : Testable c) (hcur : Canonical mro cur)
    (hv : M.Has cur v) (hinst : M.InstanceOf v c) :
    M.Has (meet mro cur c) v ↔ KeptMember mro M cur c v := by
  have hmember {m : Ty} (hunion : m.kind ≠ .union) :=
    @has_meet_member mro m c V M hM hc hunion v hinst
  by_cases hunion : cur.kind = .union
  · obtain ⟨ts,r,rfl⟩ : ∃ ts r, cur = .union ts r := by
      cases cur <;> simp at hunion
      exact ⟨_,_,rfl⟩
    obtain ⟨hlen,hts,-⟩ := hcur
    have hkind := fun t => @kind_meetParts mro ts c t hc hts
    have hsome {m : Ty} (hhas : M.Has (meet mro m c) v) : (meet mro m c).kind ≠ .never := by
      intro hk
      obtain ⟨s,hs⟩ := (Ty.kind_eq_never _).mp hk
      rw [hs] at hhas
      exact hhas.elim
    have hparts : M.Has (meet mro (.union ts r) c) v ↔
        ∃ t ∈ keptParts mro (meetParts mro ts c), M.Has t v := by
      rw [meet_testable hc,← has_makeUnion_iff ((length_meetParts ts c).trans hlen) hkind hM]
      split_ifs with hnil
      · rw [hnil]
        rfl
      · rfl
    rw [hparts]
    constructor
    · rintro ⟨t,ht,hhas⟩
      obtain ⟨hmem,hmax⟩ := (mem_keptParts_flat hkind).mp ht
      obtain ⟨⟨m,hm,rfl⟩,-⟩ := mem_meetParts.mp hmem
      refine ⟨m,hm,(hmember (hts m hm).2.1).mp hhas,fun m' hm' hne => ?_⟩
      by_cases hnever : (meet mro m' c).kind = .never
      · exact isSubtype_never (hsome hhas) hnever
      · exact hmax _ (mem_meetParts.mpr ⟨⟨m',hm',rfl⟩,hnever⟩) hne
    · rintro ⟨m,hm,hnarrows,hmax⟩
      have hhas := (hmember (hts m hm).2.1).mpr hnarrows
      refine ⟨_,(mem_keptParts_flat hkind).mpr ⟨mem_meetParts.mpr ⟨⟨m,hm,rfl⟩,hsome hhas⟩,?_⟩,hhas⟩
      intro u hu hne
      obtain ⟨⟨m',hm',rfl⟩,-⟩ := mem_meetParts.mp hu
      exact hmax m' hm' hne
  · have hnever : cur.kind ≠ .never := by
      intro hk
      obtain ⟨r,rfl⟩ := (Ty.kind_eq_never _).mp hk
      exact hv.elim
    rw [KeptMember,flatten_eq hunion hnever,hmember hunion]
    simp

private theorem has_subtract (hM : M.Respects mro) {other : Ty} (hother : other.refine = .plain)
    (hcur : Canonical mro cur) (hv : M.Has cur v) (hout : ¬ M.Has other v) :
    M.Has (subtract mro cur other) v := by
  have hkeep : ∀ t, M.Has t v → isSubtype mro t other = false := by
    intro t ht
    rw [Bool.eq_false_iff]
    exact fun hsub => hout (isSubtype_sound hM hsub hother ht)
  cases cur with
  | dyn r => trivial
  | never r => exact hv
  | union ts r =>
    obtain ⟨-,hts,hapart⟩ := hcur
    rw [subtract]
    split_ifs with hlen
    · exact hv
    · rw [Model.Has,M.hasAny_iff] at hv
      obtain ⟨t,ht,hhas⟩ := hv.1
      -- no member is below another, so the union of those that stay drops none
      refine has_makeUnion_of_kept hM ((mem_keptParts_flat ?_).mpr ⟨?_,?_⟩) hhas
      · exact fun u hu => hts u (List.mem_of_mem_filter hu)
      · exact List.mem_filter.mpr ⟨ht,by simp [hkeep t hhas]⟩
      · exact fun u hu => hapart t ht u (List.mem_of_mem_filter hu)
  | _ => simpa [subtract,hkeep _ hv] using hv

private theorem isA_of_has {t : Ty} {n : String} (hn : t.className = some n) (h : M.Has t v) :
    M.IsA v n := by
  cases t <;> simp only [Ty.className,Option.some.injEq,reduceCtorEq] at hn <;>
    simp only [Model.Has] at h
  all_goals subst hn
  · exact h.1
  · exact h.1
  · exact h.1.1
  · exact h.1.1
  · exact h.1.1
  · exact h.1.1
  · exact h.1.1

private theorem meet_className (hmro : Hierarchy mro) {m : Ty} (hc : Testable c)
    (hunion : m.kind ≠ .union) {n k : String} (hn : (meet mro m c).className = some n)
    (hk : c.className = some k) : n = k ∨ k ∈ mro n := by
  have hself : c.className = some n → n = k ∨ k ∈ mro n :=
    fun h => .inl (Option.some.inj (h.symm.trans hk))
  have hkeeps : ∀ {b : Ty}, meet mro m c = keepBits m c b → b.className = some n := by
    intro b heq
    rw [heq,keepBits] at hn
    split_ifs at hn
    · rwa [Ty.withRefine,className_setRefine] at hn
    · exact hn
  cases @meet_met mro m c hc hunion with
  | bottom _ heq =>
    rw [heq] at hn
    cases hn
  | dyn _ heq => exact hself (heq ▸ hn)
  | above _ _ _ heq => exact hself (hkeeps heq)
  | container _ _ hkm hkc _ _ hcls _ heq =>
    exact hself (className_of_kind hkc (hkm ▸ hcls) ▸ hkeeps heq)
  | below hsub _ hnever heq =>
    have hbase := hkeeps heq
    rcases (isSubtype_iff m.stripRefine c).mp hsub with h | h | h | ⟨h,h'⟩ | ⟨x,r,h,hbelow⟩
    · exact hself (h ▸ hbase)
    · exact absurd (stripRefine_kind m ▸ h) hnever
    · exact absurd h hc.kind_ne.1
    · obtain ⟨s,hs⟩ := (Ty.kind_eq_atom .bool _).mp h
      obtain ⟨t,rfl⟩ := (Ty.kind_eq_atom .int c).mp h'
      rw [hs] at hbase
      cases hbase
      cases hk
      exact .inr hmro.bool
    · rw [h] at hbase
      cases hbase
      rcases (classBelow_iff _ c).mp hbelow with ⟨y,s,rfl,hy⟩ | ⟨a,s,rfl,-,hy⟩
      · cases hk
        exact .inr hy
      · cases hk
        exact .inr hy

private theorem has_exact_meet (hmro : Hierarchy mro) (hlin : M.Linearized mro) (hc : Testable c)
    (hcur : Canonical mro cur) (hexact : M.ExactlyOf v c) :
    M.Has ((meet mro cur c).withRefine .exact) v ↔ M.Has (meet mro cur c) v := by
  obtain ⟨k,hk,hhead⟩ := hexact
  by_cases hdyn : (meet mro cur c).kind = .dyn
  · obtain ⟨r,hr⟩ := (Ty.kind_eq_dyn _).mp hdyn
    rw [hr]
    exact ⟨fun _ => trivial,fun _ => trivial⟩
  rw [M.has_withRefine hdyn,and_iff_left_iff_imp]
  intro h
  refine ⟨nofun,nofun,nofun,fun _ n hn => ?_⟩
  -- the class of the meet is the tested one: the value has both, and one lies below the other
  have hbelow : n = k ∨ k ∈ mro n := by
    by_cases hunion : cur.kind = .union
    · obtain ⟨ts,r,rfl⟩ : ∃ ts r, cur = .union ts r := by
        cases cur <;> simp at hunion
        exact ⟨_,_,rfl⟩
      rw [meet_testable hc] at hn
      split_ifs at hn
      · cases hn
      · have hmem := mem_of_className ((length_meetParts ts c).trans hcur.1)
          (fun t => kind_meetParts hc hcur.2.1) hn
        obtain ⟨⟨m,hm,heq⟩,-⟩ := mem_meetParts.mp hmem
        rw [← heq] at hn
        exact meet_className hmro hc (hcur.2.1 m hm).2.1 hn hk
    · exact meet_className hmro hc hunion hn hk
  rcases hbelow with rfl | hbelow
  · exact hhead
  · rw [hhead,hmro.antisymm n k hbelow (hlin v k hhead n (isA_of_has hn h))]

end Edges

/-! ## Tests and environments -/

def Predicate.Test {V : Type} (M : Model V) (truth : V → Prop) : Predicate → V → Prop
  | isInstance _ c, v => M.InstanceOf v c
  | isNone _, v => M.IsA v "NoneType"
  | truthy _, v => truth v
  | typeIs _ c, v => M.ExactlyOf v c
  | not inner, v => ¬ inner.Test M truth v
def Predicate.WellFormed : Predicate → Prop
  | isInstance _ c | typeIs _ c => Testable c
  | isNone _ | truthy _ => True
  | not inner => inner.WellFormed

/-- If the value passes the test against a class, a member of the type is kept with it. -/
def Predicate.Comparable (mro : String → List String) {V : Type} (M : Model V) (cur : Ty) (v : V) :
    Predicate → Prop
  | isInstance _ c => M.InstanceOf v c → KeptMember mro M cur c v
  | isNone _ => M.IsA v "NoneType" → KeptMember mro M cur (.atom .none .plain) v
  | truthy _ => True
  | typeIs _ c => M.ExactlyOf v c → KeptMember mro M cur c v
  | not inner => inner.Comparable mro M cur v

section Narrow
variable {mro : String → List String} {V : Type} {M : Model V} {truth : V → Prop}

theorem instanceOf_none (v : V) : M.InstanceOf v (.atom .none .plain) ↔ M.IsA v "NoneType" := by
  simp [Model.InstanceOf,Ty.className,Atom.className]
theorem instanceOf_of_exactlyOf {v : V} {c : Ty} (h : M.ExactlyOf v c) : M.InstanceOf v c := by
  obtain ⟨n,hn,hhead⟩ := h
  exact ⟨n,hn,List.mem_of_mem_head? hhead⟩

/-- The edges of a test keep a value exactly when the test against a class keeps a member with
it. -/
theorem edges_iff (hmro : Hierarchy mro) (hM : M.Respects mro) (hlin : M.Linearized mro)
    (htruth : ∀ v, M.IsA v "NoneType" → ¬ truth v) {cur : Ty} (hcur : Canonical mro cur) {v : V}
    (hv : M.Has cur v) (pred : Predicate) (hpred : pred.WellFormed) :
    ((pred.Test M truth v → M.Has (pred.edges mro cur).1 v) ∧
      (¬ pred.Test M truth v → M.Has (pred.edges mro cur).2 v)) ↔
      pred.Comparable mro M cur v := by
  have htest : ∀ c, Testable c → (((M.InstanceOf v c → M.Has (meet mro cur c) v) ∧
      (¬ M.InstanceOf v c → M.Has (subtract mro cur c) v)) ↔
        (M.InstanceOf v c → KeptMember mro M cur c v)) := by
    intro c hc
    rw [and_iff_left fun hinst => has_subtract hM hc.refine_eq hcur hv (by rwa [hc.has_iff])]
    exact forall_congr' fun hinst => has_meet_iff hM hc hcur hv hinst
  induction pred with
  | isInstance p c => exact htest c hpred
  | isNone p =>
    have h := htest _ (.atom .none)
    rwa [instanceOf_none] at h
  | truthy p =>
    simp only [Predicate.Test,Predicate.edges,Predicate.Comparable,iff_true]
    refine ⟨fun h => has_subtract hM rfl hcur hv fun hin => ?_,fun _ => hv⟩
    rw [Model.Has] at hin
    exact htruth v hin.1 h
  | typeIs p c =>
    have hc : Testable c := hpred
    simp only [Predicate.Test,Predicate.edges,Predicate.Comparable]
    constructor
    · intro h hexact
      have hmeet := (has_exact_meet hmro hlin hc hcur hexact).mp (h.1 hexact)
      exact (has_meet_iff hM hc hcur hv (instanceOf_of_exactlyOf hexact)).mp hmeet
    · intro h
      refine ⟨fun hexact => (has_exact_meet hmro hlin hc hcur hexact).mpr ?_,fun _ => hv⟩
      exact (has_meet_iff hM hc hcur hv (instanceOf_of_exactlyOf hexact)).mpr (h hexact)
  | not inner ih =>
    simp only [Predicate.Test,Predicate.edges,Predicate.Comparable,not_not]
    exact and_comm.trans (ih hpred)

end Narrow

/-- A class with two bases that do not know each other. -/
def mixins (n : String) : List String :=
  if n = "Both" then ["Both", "Left", "Right", "object"]
  else if n = "bool" then ["bool", "int", "object"]
  else if n = "object" then ["object"]
  else [n, "object"]

private theorem mixins_hierarchy : Hierarchy mixins where
  trans n m k hm hk := by grind [mixins]
  antisymm n m hm hn := by grind [mixins]
  bool := by decide
theorem classModel_linearized {mro : String → List String} (hhead : ∀ n, (mro n).head? = some n) :
    (classModel mro).Linearized mro := by
  intro v n hn m hm
  obtain rfl : v = n := Option.some.inj ((hhead v).symm.trans hn)
  exact hm

private theorem mixins_head (n : String) : (mixins n).head? = some n := by grind [mixins]
def placeX : Place := ⟨.local, "x"⟩
def holding (t : Ty) : Env := Env.bind (fun _ => none) placeX t none

end Unagi.Types
