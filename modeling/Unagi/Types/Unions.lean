import Unagi.Types.Values
import Unagi.Lib.Maximal

/-! # Subtypes and unions

A union keeps the members that have no other one above them. Its values are theirs, up to the
budget. -/

namespace Unagi.Types

section Unions
variable {mro : String → List String}

/-! ## Subtypes without bits -/

theorem isSubtype_trans (hmro : Hierarchy mro) {a b c : Ty} (hab : isSubtype mro a b = true)
    (hbc : isSubtype mro b c = true) : isSubtype mro a c = true := by
  rw [isSubtype_iff] at hab hbc ⊢
  rcases hbc with rfl | hb | hc | ⟨hb,hc⟩ | ⟨m,s,rfl,hbc⟩
  · exact hab
  · -- nothing but Never is below Never
    obtain ⟨s,rfl⟩ := (Ty.kind_eq_never b).mp hb
    rcases hab with rfl | h | h | ⟨-,h⟩ | ⟨n,r,rfl,h⟩
    · exact .inr (.inl rfl)
    · exact .inr (.inl h)
    all_goals simp [classBelow_iff] at h
  · exact .inr (.inr (.inl hc))
  · obtain ⟨s,rfl⟩ := (Ty.kind_eq_atom .bool b).mp hb
    obtain ⟨u,rfl⟩ := (Ty.kind_eq_atom .int c).mp hc
    rcases hab with rfl | h | h | ⟨-,h⟩ | ⟨n,r,rfl,h⟩
    · exact .inr (.inr (.inr (.inl ⟨rfl,rfl⟩)))
    · exact .inr (.inl h)
    · simp at h
    · simp at h
    · -- a class below `bool` is below `int`
      have hn : "bool" ∈ mro n := by simpa [classBelow_iff,Atom.className] using h
      refine .inr (.inr (.inr (.inr ⟨n,r,rfl,(classBelow_iff n _).mpr (.inr ?_)⟩)))
      exact ⟨.int,u,rfl,by simp,hmro.trans n "bool" "int" hn hmro.bool⟩
  · rcases hab with rfl | h | h | ⟨-,h⟩ | ⟨n,r,rfl,h⟩
    · exact .inr (.inr (.inr (.inr ⟨m,s,rfl,hbc⟩)))
    · exact .inr (.inl h)
    · simp at h
    · simp at h
    · have hm : m ∈ mro n := by simpa [classBelow_iff] using h
      refine .inr (.inr (.inr (.inr ⟨n,r,rfl,?_⟩)))
      rcases (classBelow_iff m c).mp hbc with ⟨k,u,rfl,hk⟩ | ⟨k,u,rfl,hne,hk⟩
      · exact (classBelow_iff n _).mpr (.inl ⟨k,u,rfl,hmro.trans n m k hm hk⟩)
      · exact (classBelow_iff n _).mpr (.inr ⟨k,u,rfl,hne,hmro.trans n m _ hm hk⟩)

theorem isSubtype_antisymm (hmro : Hierarchy mro) {a b : Ty} (ha : a.refine = .plain)
    (hb : b.refine = .plain) (hab : isSubtype mro a b = true) (hba : isSubtype mro b a = true) :
    a = b := by
  rw [isSubtype_iff] at hab hba
  rcases hab with h | h | h | ⟨h,h'⟩ | ⟨n,r,rfl,hbelow⟩
  · exact h
  · obtain ⟨r,rfl⟩ := (Ty.kind_eq_never a).mp h
    rcases hba with hba | hba | hba | ⟨-,hba⟩ | ⟨m,s,-,hba⟩
    · exact hba.symm
    · obtain ⟨s,rfl⟩ := (Ty.kind_eq_never b).mp hba
      exact congrArg Ty.never (ha.trans hb.symm)
    all_goals simp [classBelow_iff] at hba
  · obtain ⟨r,rfl⟩ := (Ty.kind_eq_dyn b).mp h
    rcases hba with hba | hba | hba | ⟨hba,-⟩ | ⟨m,s,hba,-⟩
    · exact hba.symm
    · simp at hba
    · obtain ⟨s,rfl⟩ := (Ty.kind_eq_dyn a).mp hba
      exact congrArg Ty.dyn (ha.trans hb.symm)
    all_goals simp at hba
  · obtain ⟨r,rfl⟩ := (Ty.kind_eq_atom .int b).mp h'
    obtain ⟨s,rfl⟩ := (Ty.kind_eq_atom .bool a).mp h
    rcases hba with hba | hba | hba | ⟨hba,-⟩ | ⟨m,s,hba,-⟩ <;> simp at hba
  · rcases (classBelow_iff n b).mp hbelow with ⟨m,s,rfl,hm⟩ | ⟨k,s,rfl,-,hm⟩
    · rcases hba with hba | hba | hba | ⟨hba,-⟩ | ⟨m',s',hba,hbelow'⟩
      · exact hba.symm
      iterate 3 simp at hba
      obtain ⟨rfl,rfl⟩ : m = m' ∧ s = s' := by simpa using hba
      have hn : n ∈ mro m := by simpa [classBelow_iff] using hbelow'
      obtain rfl := hmro.antisymm n m hm hn
      exact congrArg (Ty.cls n) (ha.trans hb.symm)
    · rcases hba with hba | hba | hba | ⟨hba,hba'⟩ | ⟨m',s',hba,-⟩ <;> simp_all

/-! ## Unions -/

theorem mem_dedupe (ts : List Ty) (t : Ty) : t ∈ dedupe ts ↔ t ∈ ts := by
  induction ts with
  | nil => rfl
  | cons u us ih =>
    rw [dedupe,List.mem_cons,List.mem_cons,List.mem_filter,ih,decide_eq_true_eq]
    by_cases h : t = u
    · simp [h]
    · simp [h]

theorem nodup_dedupe (ts : List Ty) : (dedupe ts).Nodup := by
  induction ts with
  | nil => exact List.nodup_nil
  | cons t ts ih =>
    rw [dedupe,List.nodup_cons]
    refine ⟨fun h => ?_,ih.filter _⟩
    simp at h

theorem exists_undominated (hmro : Hierarchy mro) {uniq : List Ty}
    (hplain : ∀ t ∈ uniq, t.refine = .plain) {t : Ty} (ht : t ∈ uniq) :
    ∃ u ∈ undominated mro uniq, isSubtype mro t u = true := by
  have htrans : ∀ x ∈ uniq, ∀ y ∈ uniq, ∀ z ∈ uniq,
      (y ≠ x ∧ isSubtype mro x y = true) → (z ≠ y ∧ isSubtype mro y z = true) →
        z ≠ x ∧ isSubtype mro x z = true := by
    intro x hx y hy z _ hxy hyz
    refine ⟨?_,isSubtype_trans hmro hxy.2 hyz.2⟩
    rintro rfl
    exact hxy.1 (isSubtype_antisymm hmro (hplain y hy) (hplain z hx) hyz.2 hxy.2)
  obtain ⟨u,hu,habove,hmax⟩ := Lib.exists_maximal_above
    (fun x y : Ty => y ≠ x ∧ isSubtype mro x y = true) uniq htrans (fun _ _ h => h.1 rfl) ht
  refine ⟨u,?_,?_⟩
  · rw [undominated,List.mem_filter,Bool.not_eq_true',List.any_eq_false]
    refine ⟨hu,fun z hz h => hmax z hz ?_⟩
    simpa using h
  · rcases habove with rfl | h
    · exact (isSubtype_iff t t).mpr (.inl rfl)
    · exact h.2

theorem commonAncestor_cases (a b : String) :
    commonAncestor mro a b = dyn ∨
      ∃ c, commonAncestor mro a b = .cls c .plain ∧ c ∈ mro a ∧ c ∈ mro b := by
  rw [commonAncestor]
  cases h : (mro a).find? fun name => name ≠ "object" && name ∈ mro b with
  | none => exact .inl rfl
  | some c =>
    have hc := List.find?_some h
    simp only [Bool.and_eq_true,decide_eq_true_eq] at hc
    exact .inr ⟨c,rfl,List.mem_of_find?_eq_some h,hc.2⟩

theorem widen_cases (acc m : Ty) (ms : List Ty) : widen mro acc (m :: ms) = dyn ∨
    acc.kind = .cls ∧ ∃ c, widen mro acc (m :: ms) = .cls c .plain := by
  cases acc with
  | cls a r =>
    cases m with
    | cls b s =>
      rw [widen]
      rcases @commonAncestor_cases mro a b with h | ⟨c,h,-⟩ <;> rw [h]
      · exact .inl rfl
      · cases ms with
        | nil => exact .inr ⟨rfl,c,rfl⟩
        | cons m' ms => exact (widen_cases (.cls c .plain) m' ms).imp_right fun h => ⟨rfl,h.2⟩
    | _ => exact .inl rfl
  | _ => exact .inl (by simp only [widen])

def parts (members : List Ty) : List Ty := members.flatMap flatten
def keptParts (mro : String → List String) (members : List Ty) : List Ty :=
  undominated mro (dedupe (parts members))

theorem mem_keptParts {members : List Ty} {t : Ty} : t ∈ keptParts mro members ↔
    t ∈ parts members ∧ ∀ c ∈ parts members, c ≠ t → isSubtype mro t c = false := by
  rw [keptParts,undominated,List.mem_filter,Bool.not_eq_true',List.any_eq_false]
  simp only [mem_dedupe,Bool.and_eq_true,decide_eq_true_eq,not_and,Bool.not_eq_true]

/-- The ways in which a union of the members comes to be `u`. -/
inductive Made (mro : String → List String) (members : List Ty) (u : Ty) : Prop
  | dyn {t : Ty} (ht : t ∈ members) (hk : t.kind = .dyn) (h : u = Types.dyn)
  | never (hparts : parts members = []) (h : u = Types.never)
  | one (hno : ∀ t ∈ members, t.kind ≠ .dyn) (hkept : keptParts mro members = [u])
  | widened (hno : ∀ t ∈ members, t.kind ≠ .dyn) {acc m : Ty} {ms : List Ty}
      (hkept : keptParts mro members = acc :: m :: ms)
      (hlen : unionBudget < (keptParts mro members).length) (h : u = widen mro acc (m :: ms))
  | union (hno : ∀ t ∈ members, t.kind ≠ .dyn) (hparts : parts members ≠ [])
      (hone : (keptParts mro members).length ≠ 1)
      (hlen : (keptParts mro members).length ≤ unionBudget)
      (h : u = .union (sortKeys (keptParts mro members)) .plain)

theorem makeUnion_made (members : List Ty) : Made mro members (makeUnion mro members) := by
  have hkept : undominated mro (dedupe (members.flatMap flatten)) = keptParts mro members := rfl
  rw [makeUnion,hkept]
  split_ifs with hdyn hnil
  · obtain ⟨t,ht,hk⟩ := List.any_eq_true.mp hdyn
    exact .dyn ht (of_decide_eq_true hk) rfl
  · exact .never hnil rfl
  · have hno : ∀ t ∈ members, t.kind ≠ .dyn := by simpa using hdyn
    match hk : keptParts mro members with
    | [] => exact .union hno hnil (by simp [hk]) (by simp [hk]) (by rw [hk]; rfl)
    | [t] => exact .one hno hk
    | acc :: m :: ms =>
      dsimp only
      split_ifs with hbudget
      · exact .widened hno hk (hk ▸ hbudget) rfl
      · exact .union hno hnil (by simp [hk]) (hk ▸ Nat.not_lt.mp hbudget) (by rw [hk])

section Values
variable {V : Type} {M : Model V}

variable {v : V}

theorem commonAncestor_sound (hM : M.Respects mro) (a b : String)
    (h : M.IsA v a ∨ M.IsA v b) : M.Has (commonAncestor mro a b) v := by
  rcases commonAncestor_cases a b with heq | ⟨c,heq,ha,hb⟩
  · rw [heq]
    exact M.has_dyn v
  · rw [heq,Model.Has]
    refine ⟨?_,M.bits_plain _ _ v⟩
    rcases h with h | h
    · exact hM.ancestors v a c h ha
    · exact hM.ancestors v b c h hb

theorem widen_sound (hM : M.Respects mro) (acc : Ty) (ms : List Ty)
    (h : ∃ t ∈ acc :: ms, M.Has t v) : M.Has (widen mro acc ms) v := by
  induction ms generalizing acc with
  | nil =>
    obtain ⟨t,ht,hhas⟩ := h
    rw [List.mem_singleton.mp ht] at hhas
    cases acc <;> exact hhas
  | cons m ms ih =>
    cases acc with
    | cls a r =>
      cases m with
      | cls b s =>
        rw [widen]
        have hrest : (∃ t ∈ ms, M.Has t v) ∨ M.Has (commonAncestor mro a b) v := by
          obtain ⟨t,ht,hhas⟩ := h
          rcases List.mem_cons.mp ht with rfl | ht
          · rw [Model.Has] at hhas
            exact .inr (commonAncestor_sound hM a b (.inl hhas.1))
          · rcases List.mem_cons.mp ht with rfl | ht
            · rw [Model.Has] at hhas
              exact .inr (commonAncestor_sound hM a b (.inr hhas.1))
            · exact .inl ⟨t,ht,hhas⟩
        rcases @commonAncestor_cases mro a b with heq | ⟨c,heq,-⟩
        · rw [heq]
          exact M.has_dyn v
        · rw [heq] at hrest ⊢
          apply ih
          rcases hrest with ⟨t,ht,hhas⟩ | hhas
          · exact ⟨t,List.mem_cons_of_mem _ ht,hhas⟩
          · exact ⟨_,List.mem_cons_self,hhas⟩
      | _ => exact M.has_dyn v
    | _ =>
      simp only [widen]
      exact M.has_dyn v

theorem has_flatten (t : Ty) (h : M.Has t v) : ∃ u ∈ flatten t, M.Has u v := by
  cases t with
  | never r => simp only [Model.Has] at h
  | union ts r =>
    rw [Model.Has] at h
    exact (M.hasAny_iff ts v).mp h.1
  | _ => exact ⟨_,List.mem_singleton_self _,h⟩

theorem has_makeUnion_of_kept (hM : M.Respects mro) {members : List Ty} {b : Ty}
    (hb : b ∈ keptParts mro members) (h : M.Has b v) : M.Has (makeUnion mro members) v := by
  cases @makeUnion_made mro members with
  | dyn _ _ heq =>
    rw [heq]
    exact M.has_dyn v
  | never hparts _ =>
    rw [keptParts,hparts] at hb
    exact absurd hb List.not_mem_nil
  | one _ hkept =>
    rw [hkept,List.mem_singleton] at hb
    rwa [← hb]
  | widened _ hkept _ heq =>
    rw [heq]
    exact widen_sound hM _ _ ⟨b,hkept ▸ hb,h⟩
  | union _ _ _ _ heq =>
    rw [heq,Model.Has,Model.hasAny_iff]
    exact ⟨⟨b,(List.mem_insertionSort _).mpr hb,h⟩,M.bits_plain _ _ v⟩

theorem kept_of_has_makeUnion {members : List Ty} (hno : ∀ t ∈ members, t.kind ≠ .dyn)
    (hlen : (keptParts mro members).length ≤ unionBudget) (h : M.Has (makeUnion mro members) v) :
    ∃ b ∈ keptParts mro members, M.Has b v := by
  cases @makeUnion_made mro members with
  | dyn ht hk _ => exact absurd hk (hno _ ht)
  | never _ heq =>
    rw [heq] at h
    exact h.elim
  | one _ hone => exact ⟨_,hone ▸ List.mem_singleton_self _,h⟩
  | widened _ _ hlong _ => exact absurd hlong (Nat.not_lt.mpr hlen)
  | union _ _ _ _ heq =>
    rw [heq,Model.Has,Model.hasAny_iff] at h
    obtain ⟨⟨b,hb,hhas⟩,-⟩ := h
    exact ⟨b,(List.mem_insertionSort _).mp hb,hhas⟩

theorem makeUnion_sound (hmro : Hierarchy mro) (hM : M.Respects mro) {members : List Ty}
    (hplain : ∀ t ∈ parts members, t.refine = .plain)
    (h : ∃ t ∈ members, M.Has t v) : M.Has (makeUnion mro members) v := by
  obtain ⟨t,ht,hhas⟩ := h
  obtain ⟨u,hu,hhasu⟩ := has_flatten t hhas
  have huniq : u ∈ dedupe (parts members) :=
    (mem_dedupe _ u).mpr (List.mem_flatMap.mpr ⟨t,ht,hu⟩)
  have hplain' : ∀ t ∈ dedupe (parts members), t.refine = .plain :=
    fun t ht => hplain t ((mem_dedupe _ t).mp ht)
  obtain ⟨k,hk,hsub⟩ := exists_undominated hmro hplain' huniq
  have hkplain : k.refine = .plain := hplain' k (List.mem_of_mem_filter hk)
  exact has_makeUnion_of_kept hM hk (isSubtype_sound hM hsub hkplain hhasu)

end Values
end Unions

section
variable {a b : Ty}

theorem stripRefine_refine (t : Ty) : t.stripRefine.refine = .plain := by cases t <;> rfl
theorem stripRefine_kind (t : Ty) : t.stripRefine.kind = t.kind := by cases t <;> rfl
theorem className_of_kind (hk : a.kind = b.kind) (hcls : a.kind ≠ .cls) :
    a.className = b.className := by
  cases a <;> cases b <;> simp_all [Ty.className]
theorem fixedArity_of_kind (hk : a.kind ≠ .tuple) : a.fixedArity = false := by
  cases a <;> simp_all [Ty.fixedArity]

end
end Unagi.Types
