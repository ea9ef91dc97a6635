import Mathlib.Data.List.Pairwise
import Unagi.Types.NarrowSound
import Unagi.Types.UnionMembers

/-! # Meets of scalars, tuples and unions

The meet goes over the members of unions and takes scalars to the lower one, but it has no case for
tuples: two tuple elements that are not the same meet in Never, whatever values they share. -/

namespace Unagi.Types

inductive Simple : Ty → Prop
  | atom (a : Atom) (scalar : a ∈ [Atom.none, .bool, .int, .float, .str]) : Simple (.atom a .plain)
  | tuple (ts : List Ty) : Simple (.tuple ts .plain)
  | tupleVar (t : Ty) : Simple (.tupleVar t .plain)

inductive Built (mro : String → List String) : Ty → Prop
  | atom (a : Atom) (scalar : a ∈ [Atom.none, .bool, .int, .float, .str]) : Built mro (.atom a .plain)
  | tuple (ts : List Ty) (elems : ∀ t ∈ ts, Built mro t) : Built mro (.tuple ts .plain)
  | tupleVar (t : Ty) (elem : Built mro t) : Built mro (.tupleVar t .plain)
  | union (members : List Ty) (parts : ∀ t ∈ members, Built mro t) : Built mro (makeUnion mro members)

/-- The top of a built element: Dyn where a union was too wide, Never where it was empty. -/
inductive Shaped (mro : String → List String) : Ty → Prop
  | simple {t : Ty} (h : Simple t) : Shaped mro t
  | dyn : Shaped mro Types.dyn
  | never : Shaped mro Types.never
  | union (ts : List Ty) (few : ts.length ≤ unionBudget) (members : ∀ t ∈ ts, Simple t)
      (apart : ts.Pairwise fun a b => isSubtype mro a b = false ∧ isSubtype mro b a = false) :
      Shaped mro (.union ts .plain)

namespace Simple
variable {t : Ty} (h : Simple t)

include h in
theorem kind_ne : t.kind ≠ .dyn ∧ t.kind ≠ .union ∧ t.kind ≠ .never ∧ t.kind ≠ .cls := by
  cases h <;> simp

include h in
theorem refine_eq : t.refine = .plain := by cases h <;> rfl

include h in
theorem stripRefine_eq : t.stripRefine = t := by cases h <;> rfl

include h in
theorem flatten_eq : flatten t = [t] := by cases h <;> rfl

end Simple

section
variable {mro : String → List String}

variable {m m' b a : Ty} {ts us : List Ty}

private theorem isSubtype_simple (hm : Simple m) (hm' : Simple m') :
    isSubtype mro m m' = true ↔ m = m' ∨ m = .atom .bool .plain ∧ m' = .atom .int .plain := by
  rw [isSubtype_iff]
  constructor
  · rintro (h | h | h | ⟨h,h'⟩ | ⟨n,r,rfl,-⟩)
    · exact .inl h
    · exact absurd h hm.kind_ne.2.2.1
    · exact absurd h hm'.kind_ne.1
    · obtain ⟨r,rfl⟩ := (Ty.kind_eq_atom .bool m).mp h
      obtain ⟨s,rfl⟩ := (Ty.kind_eq_atom .int m').mp h'
      obtain rfl : r = .plain := hm.refine_eq
      obtain rfl : s = .plain := hm'.refine_eq
      exact .inr ⟨rfl,rfl⟩
    · exact absurd rfl hm.kind_ne.2.2.2
  · rintro (rfl | ⟨rfl,rfl⟩)
    · exact .inl rfl
    · exact .inr (.inr (.inr (.inl ⟨rfl,rfl⟩)))

private theorem Shaped.simple_member {t : Ty} (h : Shaped mro t) (hdyn : t ≠ Types.dyn) :
    ∀ m ∈ flatten t, Simple m := by
  intro m hm
  cases h with
  | simple hs =>
    rw [hs.flatten_eq] at hm
    rwa [List.mem_singleton.mp hm]
  | dyn => exact absurd rfl hdyn
  | never => cases hm
  | union ts _ hts _ => exact hts m hm

private theorem parts_simple {members : List Ty} (h : ∀ t ∈ members, Shaped mro t)
    (hdyn : ∀ t ∈ members, t.kind ≠ .dyn) : ∀ t ∈ parts members, Simple t := by
  intro t ht
  obtain ⟨u,hu,ht⟩ := List.mem_flatMap.mp ht
  apply (h u hu).simple_member _ t ht
  rintro rfl
  exact hdyn _ hu rfl

private theorem shaped_makeUnion {members : List Ty} (h : ∀ t ∈ members, Shaped mro t) :
    Shaped mro (makeUnion mro members) := by
  have hkept (hno : ∀ t ∈ members, t.kind ≠ .dyn) : ∀ t ∈ keptParts mro members, Simple t :=
    fun t ht => parts_simple h hno t (mem_keptParts.mp ht).1
  cases @makeUnion_made mro members with
  | dyn _ _ heq => exact heq ▸ .dyn
  | never _ heq => exact heq ▸ .never
  | one hno hone => exact .simple (hkept hno _ (hone ▸ List.mem_singleton_self _))
  | @widened hno acc m ms hcons _ heq =>
    -- no class is among the members, so that they widen to Dyn
    have hacc := (hkept hno acc (hcons ▸ List.mem_cons_self)).kind_ne.2.2.2
    rw [heq,(@widen_cases mro acc m ms).resolve_right fun h => hacc h.1]
    exact .dyn
  | union hno _ _ hlen heq =>
    rw [heq]
    refine .union _ ?_ (fun t ht => hkept hno t ((List.mem_insertionSort _).mp ht))
      (pairwise_keptParts members)
    rwa [sortKeys,List.length_insertionSort]

private theorem Built.shaped {t : Ty} (h : Built mro t) : Shaped mro t := by
  induction h with
  | atom a ha => exact .simple (.atom a ha)
  | tuple ts => exact .simple (.tuple ts)
  | tupleVar t => exact .simple (.tupleVar t)
  | union members _ ih => exact shaped_makeUnion ih

private theorem meet_simple (hm : Simple m) (hm' : Simple m') :
    meet mro m m' = if isSubtype mro m m' then m else if isSubtype mro m' m then m' else never := by
  rw [meet_eq]
  by_cases heq : m = m'
  · rw [if_pos heq,if_pos ((isSubtype_simple hm hm').mpr (.inl heq))]
  have hplain : ¬ (m.refine.union m'.refine ≠ .plain ∧
      (structuralMeet mro (meet mro) m m').kind = m.kind ∧
      (structuralMeet mro (meet mro) m m').kind = m'.kind) := by
    rw [hm.refine_eq,hm'.refine_eq]
    exact fun h => h.1 rfl
  have hnever : ¬ (m.kind = .never ∨ m'.kind = .never) :=
    not_or.mpr ⟨hm.kind_ne.2.2.1,hm'.kind_ne.2.2.1⟩
  rw [if_neg heq,meetUncached,if_neg hm.kind_ne.1,if_neg hm'.kind_ne.1,if_neg hnever]
  dsimp only
  rw [hm.stripRefine_eq,hm'.stripRefine_eq,if_neg hplain]
  unfold structuralMeet
  rw [if_neg heq]
  cases hm <;> cases hm' <;> rfl

private theorem meet_simple_comm (hm : Simple m) (hm' : Simple m') :
    meet mro m m' = meet mro m' m := by
  rw [meet_simple hm hm',meet_simple hm' hm]
  by_cases h : isSubtype mro m m' = true
  · by_cases h' : isSubtype mro m' m = true
    · rw [if_pos h,if_pos h']
      rcases (isSubtype_simple hm hm').mp h with heq | ⟨rfl,rfl⟩
      · exact heq
      · simp [isSubtype_simple hm' hm] at h'
    · rw [if_pos h,if_neg h',if_pos h]
  · rw [if_neg h]
    split_ifs <;> rfl

private theorem simple_meet (hm : Simple m) (hm' : Simple m') :
    Simple (meet mro m m') ∨ meet mro m m' = never := by
  rw [meet_simple hm hm']
  split_ifs
  · exact .inl hm
  · exact .inl hm'
  · exact .inr rfl

/-! ## Meets of unions -/

private theorem meet_simple_union (hm : Simple m) :
    meet mro m (.union us .plain) =
      if meetParts mro us m = [] then never else makeUnion mro (meetParts mro us m) := by
  have hne : m ≠ Ty.union us .plain := by
    rintro rfl
    exact hm.kind_ne.2.1 rfl
  have hsub : ¬ isSubtype mro m (.union us .plain) = true := by
    rw [isSubtype_iff]
    rintro (h | h | h | ⟨-,h⟩ | ⟨n,r,rfl,-⟩)
    · exact hne h
    · exact hm.kind_ne.2.2.1 h
    · cases h
    · cases h
    · exact hm.kind_ne.2.2.2 rfl
  have hsub' : ¬ isSubtype mro (.union us .plain) m = true := by
    rw [isSubtype_iff]
    simp [hne.symm,hm.kind_ne.1]
  have hbase : structuralMeet mro (meet mro) m (.union us .plain) = meetUnion mro (meet mro) us m := by
    unfold structuralMeet
    rw [if_neg hne,if_neg hsub,if_neg hsub']
    cases hm <;> rfl
  rw [meet_eq,if_neg hne,meetUncached,if_neg hm.kind_ne.1,if_neg (by simp),
    if_neg (not_or.mpr ⟨hm.kind_ne.2.2.1,by simp⟩)]
  dsimp only
  rw [hm.stripRefine_eq,hm.refine_eq,if_neg fun h => h.1 rfl]
  exact hbase

private theorem makeUnion_const {ps : List Ty} {x : Ty} (hx : Simple x) (hne : ps ≠ [])
    (h : ∀ t ∈ ps, t = x) : makeUnion mro ps = x := by
  have hno : ∀ t ∈ ps, t.kind ≠ .dyn := fun t ht => h t ht ▸ hx.kind_ne.1
  have hparts : parts ps = ps := flatMap_flatten_eq fun t ht => h t ht ▸ ⟨hx.kind_ne.2.1,hx.kind_ne.2.2.1⟩
  have hdedupe : dedupe ps = [x] := by
    cases ps with
    | nil => exact absurd rfl hne
    | cons t ts =>
      have hrest : (dedupe ts).filter (· ≠ t) = [] := by
        rw [List.filter_eq_nil_iff]
        intro u hu
        rw [h t List.mem_cons_self,h u (List.mem_cons_of_mem t ((mem_dedupe ts u).mp hu))]
        simp
      rw [dedupe,hrest,h t List.mem_cons_self]
  have hkept : keptParts mro ps = [x] := by
    rw [keptParts,hparts,hdedupe,undominated]
    simp
  cases @makeUnion_made mro ps with
  | dyn ht hk _ => exact absurd hk (hno _ ht)
  | never hnil _ => exact absurd (hparts.symm.trans hnil) hne
  | one _ hone => exact (List.cons.inj (hone.symm.trans hkept)).1
  | widened _ hcons _ _ => cases hkept.symm.trans hcons
  | union _ _ hone _ _ => exact absurd (congrArg List.length hkept) hone

private theorem comparable_of_meet (hm : Simple m) (hm' : Simple m')
    (h : (meet mro m m').kind ≠ .never) :
    m = m' ∨ m = .atom .bool .plain ∧ m' = .atom .int .plain ∨
      m = .atom .int .plain ∧ m' = .atom .bool .plain := by
  rw [meet_simple hm hm'] at h
  split_ifs at h with hsub hsub'
  · exact ((isSubtype_simple hm hm').mp hsub).imp_right .inl
  · rcases (isSubtype_simple hm' hm).mp hsub' with heq | ⟨hbool,hint⟩
    · exact .inl heq.symm
    · exact .inr (.inr ⟨hint,hbool⟩)
  · exact absurd rfl h

private theorem meets_one (hus : ∀ t ∈ us, Simple t)
    (hapart : us.Pairwise fun a b => isSubtype mro a b = false ∧ isSubtype mro b a = false)
    (hm : Simple m) (ha : a ∈ us) (hb : b ∈ us) (hma : (meet mro a m).kind ≠ .never)
    (hmb : (meet mro b m).kind ≠ .never) : a = b := by
  by_contra hne
  have hsymm : Std.Symm fun a b => isSubtype mro a b = false ∧ isSubtype mro b a = false :=
    ⟨fun _ _ h => ⟨h.2,h.1⟩⟩
  have hsep : isSubtype mro a b = false ∧ isSubtype mro b a = false := hapart.forall ha hb hne
  have hbelow : isSubtype mro (.atom .bool .plain) (.atom .int .plain) = true := rfl
  rcases comparable_of_meet (hus a ha) hm hma with rfl | ⟨rfl,rfl⟩ | ⟨rfl,rfl⟩ <;>
    rcases comparable_of_meet (hus b hb) hm hmb with hb' | ⟨hb',hm'⟩ | ⟨hb',hm'⟩ <;> simp_all

section Values
variable {V : Type} {M : Model V}

private theorem has_makeUnion_simple (hmro : Hierarchy mro) (hM : M.Respects mro) {ps : List Ty}
    (hps : ∀ t ∈ ps, Simple t) (hlen : ps.length ≤ unionBudget) (v : V) :
    M.Has (if ps = [] then never else makeUnion mro ps) v ↔ ∃ t ∈ ps, M.Has t v := by
  have hkind : ∀ t ∈ ps, t.kind ≠ .dyn ∧ t.kind ≠ .union ∧ t.kind ≠ .never := fun t ht =>
    ⟨(hps t ht).kind_ne.1,(hps t ht).kind_ne.2.1,(hps t ht).kind_ne.2.2.1⟩
  constructor
  · intro h
    split at h
    · exact h.elim
    · obtain ⟨t,ht,hhas⟩ := (has_makeUnion_iff hlen hkind hM).mp h
      exact ⟨t,((mem_keptParts_flat hkind).mp ht).1,hhas⟩
  · intro h
    have hne : ps ≠ [] := by
      obtain ⟨t,ht,-⟩ := h
      exact List.ne_nil_of_mem ht
    rw [if_neg hne]
    apply makeUnion_sound hmro hM _ h
    rw [flatMap_flatten_eq fun t ht => (hkind t ht).2]
    exact fun t ht => (hps t ht).refine_eq

variable {v : V}

private theorem exists_meetParts :
    (∃ t ∈ meetParts mro ts b, M.Has t v) ↔ ∃ m ∈ ts, M.Has (meet mro m b) v := by
  constructor
  · rintro ⟨t,ht,h⟩
    obtain ⟨⟨m,hm,rfl⟩,-⟩ := mem_meetParts.mp ht
    exact ⟨m,hm,h⟩
  · rintro ⟨m,hm,h⟩
    refine ⟨_,mem_meetParts.mpr ⟨⟨m,hm,rfl⟩,?_⟩,h⟩
    intro hk
    obtain ⟨r,hr⟩ := (Ty.kind_eq_never _).mp hk
    rw [hr] at h
    exact h.elim

private theorem simple_meetParts (hts : ∀ t ∈ ts, Simple t) (hb : Simple b) :
    ∀ t ∈ meetParts mro ts b, Simple t := by
  intro t ht
  obtain ⟨⟨m,hm,rfl⟩,hk⟩ := mem_meetParts.mp ht
  rcases simple_meet (hts m hm) hb with h | h
  · exact h
  · rw [h] at hk
    exact absurd rfl hk

private theorem simple_meet_union (hus : ∀ t ∈ us, Simple t)
    (hapart : us.Pairwise fun a b => isSubtype mro a b = false ∧ isSubtype mro b a = false)
    (hm : Simple m) :
    Simple (meet mro m (.union us .plain)) ∨ meet mro m (.union us .plain) = never := by
  rw [meet_simple_union hm]
  by_cases hnil : meetParts mro us m = []
  · exact .inr (if_pos hnil)
  obtain ⟨x,hx⟩ := List.exists_mem_of_ne_nil _ hnil
  have hsimple := simple_meetParts hus hm x hx
  rw [if_neg hnil,makeUnion_const hsimple hnil]
  · exact .inl hsimple
  · intro t ht
    obtain ⟨⟨a,ha,rfl⟩,hka⟩ := mem_meetParts.mp ht
    obtain ⟨⟨b,hb,rfl⟩,hkb⟩ := mem_meetParts.mp hx
    rw [meets_one hus hapart hm ha hb hka hkb]

private theorem has_meet_simple_union (hmro : Hierarchy mro) (hM : M.Respects mro)
    (few : us.length ≤ unionBudget) (hus : ∀ t ∈ us, Simple t) (hm : Simple m) (v : V) :
    M.Has (meet mro m (.union us .plain)) v ↔ ∃ m' ∈ us, M.Has (meet mro m m') v := by
  rw [meet_simple_union hm,has_makeUnion_simple hmro hM (simple_meetParts hus hm)
    ((length_meetParts us m).trans few),exists_meetParts]
  constructor
  · rintro ⟨m',hm',h⟩
    exact ⟨m',hm',meet_simple_comm (hus m' hm') hm ▸ h⟩
  · rintro ⟨m',hm',h⟩
    exact ⟨m',hm',meet_simple_comm hm (hus m' hm') ▸ h⟩

private theorem has_of_has_meet (hm : Simple m) (hm' : Simple m')
    (h : M.Has (meet mro m m') v) : M.Has m v ∨ M.Has m' v := by
  rw [meet_simple hm hm'] at h
  split_ifs at h
  · exact .inl h
  · exact .inr h
  · exact h.elim

/-- The parts of two elements, of which one or both may be unions. -/
def MeetsIn (mro : String → List String) (M : Model V) (a b : Ty) (v : V) : Prop :=
  ∃ m ∈ flatten a, ∃ m' ∈ flatten b, M.Has (meet mro m m') v

private theorem has_meet_members (hmro : Hierarchy mro) (hM : M.Respects mro) (ha : Shaped mro a)
    (hb : Shaped mro b) (hdyn : a ≠ dyn ∧ b ≠ dyn) (hnever : a ≠ never ∧ b ≠ never) (v : V) :
    M.Has (meet mro a b) v ↔ MeetsIn mro M a b v := by
  unfold MeetsIn
  have hlen : ∀ ts c, ts.length ≤ unionBudget → (meetParts mro ts c).length ≤ unionBudget :=
    fun ts c h => (length_meetParts ts c).trans h
  cases ha with
  | dyn => exact absurd rfl hdyn.1
  | never => exact absurd rfl hnever.1
  | simple hm =>
    rw [hm.flatten_eq]
    cases hb with
    | dyn => exact absurd rfl hdyn.2
    | never => exact absurd rfl hnever.2
    | simple hm' =>
      rw [hm'.flatten_eq]
      simp only [List.mem_singleton,exists_eq_left]
    | union us few hus _ =>
      rw [has_meet_simple_union hmro hM few hus hm]
      simp only [List.mem_singleton,exists_eq_left,flatten]
  | union ts few hts _ =>
    cases hb with
    | dyn => exact absurd rfl hdyn.2
    | never => exact absurd rfl hnever.2
    | simple hm' =>
      have hne : Ty.union ts .plain ≠ b := by
        rintro rfl
        exact hm'.kind_ne.2.1 rfl
      rw [meet_union hne hm'.refine_eq hm'.kind_ne.1 hm'.kind_ne.2.2.1 (.inl rfl),
        has_makeUnion_simple hmro hM (simple_meetParts hts hm') (hlen _ _ few),exists_meetParts,
        hm'.flatten_eq]
      simp only [List.mem_singleton,exists_eq_left,flatten]
    | union us few' hus hapart =>
      by_cases heq : Ty.union ts .plain = .union us .plain
      · obtain ⟨rfl,-⟩ := Ty.union.inj heq
        rw [meet_eq,if_pos rfl,Model.Has,Model.hasAny_iff]
        constructor
        · rintro ⟨⟨m,hm,h⟩,-⟩
          refine ⟨m,hm,m,hm,?_⟩
          rwa [meet_eq,if_pos rfl]
        · rintro ⟨m,hm,m',hm',h⟩
          refine ⟨?_,M.bits_plain _ _ v⟩
          exact (has_of_has_meet (hts m hm) (hts m' hm') h).elim (fun h => ⟨m,hm,h⟩)
            fun h => ⟨m',hm',h⟩
      · have hparts : ∀ t ∈ meetParts mro ts (.union us .plain), Simple t := by
          intro t ht
          obtain ⟨⟨m,hm,rfl⟩,hk⟩ := mem_meetParts.mp ht
          rcases simple_meet_union hus hapart (hts m hm) with h | h
          · exact h
          · rw [h] at hk
            exact absurd rfl hk
        rw [meet_union heq rfl (by simp) (by simp) (.inl rfl),
          has_makeUnion_simple hmro hM hparts (hlen _ _ few),exists_meetParts]
        constructor
        · rintro ⟨m,hm,h⟩
          exact ⟨m,hm,(has_meet_simple_union hmro hM few' hus (hts m hm) v).mp h⟩
        · rintro ⟨m,hm,h⟩
          exact ⟨m,hm,(has_meet_simple_union hmro hM few' hus (hts m hm) v).mpr h⟩

/-- No value is of two of the builtin classes that have layouts of their own. -/
def ScalarsApart (M : Model V) : Prop :=
  ∀ v, ∀ n ∈ ["NoneType", "int", "float", "str", "tuple"],
    ∀ m ∈ ["NoneType", "int", "float", "str", "tuple"], M.IsA v n → M.IsA v m → n = m

def layout : Ty → String
  | .atom .none _ => "NoneType"
  | .atom .bool _ | .atom .int _ => "int"
  | .atom .float _ => "float"
  | .atom .str _ => "str"
  | _ => "tuple"

private theorem isA_layout (hM : M.Respects mro) (hm : Simple m) (h : M.Has m v) :
    layout m ∈ ["NoneType", "int", "float", "str", "tuple"] ∧ M.IsA v (layout m) := by
  cases hm with
  | atom a ha =>
    rw [Model.Has] at h
    cases a with
    | bool => exact ⟨by decide,hM.bool v h.1⟩
    | complex => exact absurd ha (by decide)
    | bytes => exact absurd ha (by decide)
    | _ => exact ⟨by simp [layout],h.1⟩
  | tuple ts =>
    rw [Model.Has] at h
    exact ⟨by simp [layout],h.1.1⟩
  | tupleVar t =>
    rw [Model.Has] at h
    exact ⟨by simp [layout],h.1.1⟩

private theorem comparable_of_layout (hm : Simple m) (hm' : Simple m') (h : layout m = layout m')
    (htuple : layout m ≠ "tuple") : isSubtype mro m m' = true ∨ isSubtype mro m' m = true := by
  rw [isSubtype_simple hm hm',isSubtype_simple hm' hm]
  cases hm with
  | tuple ts => exact absurd rfl htuple
  | tupleVar t => exact absurd rfl htuple
  | atom a ha =>
    cases hm' with
    | tuple ts => exact absurd h htuple
    | tupleVar t => exact absurd h htuple
    | atom b hb => cases a <;> cases b <;> simp_all [layout]

private theorem eq_of_has_meet_tuple (hM : M.Respects mro) (hapart : ScalarsApart M)
    (hm : Simple m) (hm' : Simple m') (htuple : M.IsA v "tuple")
    (h : M.Has (meet mro m m') v) : m = m' := by
  have hint : ¬ M.IsA v "int" := fun hint =>
    absurd (hapart v "int" (by decide) "tuple" (by decide) hint htuple) (by decide)
  have hbool : ¬ M.Has (.atom .bool .plain) v := by
    rw [Model.Has]
    exact fun h => hint (hM.bool v h.1)
  rw [meet_simple hm hm'] at h
  split_ifs at h with hsub hsub'
  · exact ((isSubtype_simple hm hm').mp hsub).resolve_right fun heq => hbool (heq.1 ▸ h)
  · exact (((isSubtype_simple hm' hm).mp hsub').resolve_right fun heq => hbool (heq.1 ▸ h)).symm
  · exact h.elim

private theorem has_meet_simple (hM : M.Respects mro) (hapart : ScalarsApart M) (hm : Simple m)
    (hm' : Simple m') (hv : M.Has m v) (hv' : M.Has m' v) :
    M.Has (meet mro m m') v ↔ (M.IsA v "tuple" → m = m') := by
  obtain ⟨hl,hisA⟩ := isA_layout hM hm hv
  obtain ⟨hl',hisA'⟩ := isA_layout hM hm' hv'
  have hlayout : layout m = layout m' := hapart v _ hl _ hl' hisA hisA'
  by_cases htuple : layout m = "tuple"
  · constructor
    · intro h hisA
      exact eq_of_has_meet_tuple hM hapart hm hm' hisA h
    · intro h
      obtain rfl := h (htuple ▸ hisA)
      rwa [meet_eq,if_pos rfl]
  · have hscalar : ¬ M.IsA v "tuple" := fun h => htuple (hapart v _ hl "tuple" (by decide) hisA h)
    refine ⟨fun _ h => absurd h hscalar,fun _ => ?_⟩
    rw [meet_simple hm hm']
    split_ifs with hsub hsub'
    · exact hv
    · exact hv'
    · exact absurd (comparable_of_layout hm hm' hlayout htuple) (not_or.mpr ⟨hsub,hsub'⟩)

private theorem has_meet_dyn_arm (h : a = dyn ∨ b = dyn) (hva : M.Has a v)
    (hvb : M.Has b v) : M.Has (meet mro a b) v := by
  rcases h with rfl | rfl
  · rw [meet_eq]
    split
    · exact hva
    · have hk : dyn.kind = .dyn := rfl
      rwa [meetUncached,if_pos hk]
  · rw [meet_dyn]
    split_ifs <;> assumption

end Values
end

/-- A value of both elements is a value of the meet exactly if it is no tuple, or a tuple of one
member that both elements have, or if one of them is Dyn. -/
theorem meet_keeps_common_values {mro : String → List String} (hmro : Hierarchy mro) {V : Type}
    (M : Model V) (hM : M.Respects mro) (hapart : ScalarsApart M) (a b : Ty) (ha : Built mro a)
    (hb : Built mro b) (v : V) (hva : M.Has a v) (hvb : M.Has b v) :
    M.Has (meet mro a b) v ↔ a = dyn ∨ b = dyn ∨
      (M.IsA v "tuple" → ∃ t ∈ flatten a, t ∈ flatten b ∧ M.Has t v) := by
  by_cases hdyn : a = dyn ∨ b = dyn
  · have hmeet : M.Has (meet mro a b) v := has_meet_dyn_arm hdyn hva hvb
    exact ⟨fun _ => or_assoc.mp (.inl hdyn),fun _ => hmeet⟩
  have hdyn' := not_or.mp hdyn
  have hnever : a ≠ never ∧ b ≠ never := by
    constructor
    · rintro rfl
      exact hva.elim
    · rintro rfl
      exact hvb.elim
  rw [has_meet_members hmro hM ha.shaped hb.shaped hdyn' hnever]
  constructor
  · rintro ⟨m,hm,m',hm',h⟩
    right; right
    intro htuple
    have hs := ha.shaped.simple_member hdyn'.1 m hm
    have hs' := hb.shaped.simple_member hdyn'.2 m' hm'
    obtain rfl := eq_of_has_meet_tuple hM hapart hs hs' htuple h
    exact ⟨m,hm,hm',(has_of_has_meet hs hs' h).elim id id⟩
  · rintro (h | h | h)
    · exact absurd h hdyn'.1
    · exact absurd h hdyn'.2
    by_cases htuple : M.IsA v "tuple"
    · obtain ⟨t,ht,ht',hv⟩ := h htuple
      refine ⟨t,ht,t,ht',?_⟩
      rwa [meet_eq,if_pos rfl]
    · obtain ⟨m,hm,hv⟩ := has_flatten a hva
      obtain ⟨m',hm',hv'⟩ := has_flatten b hvb
      refine ⟨m,hm,m',hm',?_⟩
      exact (has_meet_simple hM hapart (ha.shaped.simple_member hdyn'.1 m hm)
        (hb.shaped.simple_member hdyn'.2 m' hm') hv hv').mpr fun h => absurd h htuple

theorem layout_of_shapes {v n : String} (hn : n ∈ ["NoneType", "int", "float", "str", "tuple"])
    (h : n ∈ shapes v) : n = if v = "bool" then "int" else v := by
  simp only [List.mem_cons,List.not_mem_nil,or_false] at hn
  rcases hn with rfl | rfl | rfl | rfl | rfl <;> grind [shapes]
private theorem shapes_scalarsApart : ScalarsApart (classModel shapes) := fun _ _ hn _ hm hvn hvm =>
  (layout_of_shapes hn hvn).trans (layout_of_shapes hm hvm).symm

/-- An integer of `int | None` and of `int` is in the meet of the two. -/
theorem int_in_meet :
    (classModel shapes).Has
      (meet shapes (makeUnion shapes [.atom .int .plain, .atom .none .plain]) (.atom .int .plain))
      "int" := by
  have hint : (classModel shapes).Has (.atom .int .plain) "int" :=
    ⟨by decide,(classModel shapes).bits_plain _ _ _⟩
  have hunion : makeUnion shapes [.atom .int .plain,.atom .none .plain] =
      .union [.atom .none .plain,.atom .int .plain] .plain := by decide +kernel
  have hscalars : ∀ t ∈ [Ty.atom .int .plain,.atom .none .plain], Built shapes t := by
    intro t ht
    rcases List.mem_cons.mp ht with rfl | ht
    · exact .atom .int (by decide)
    · rw [List.mem_singleton.mp ht]
      exact .atom .none (by decide)
  apply (meet_keeps_common_values shapes_hierarchy (classModel shapes)
    (classModel_respects shapes_hierarchy) shapes_scalarsApart _ _ (.union _ hscalars)
    (.atom .int (by decide)) "int" ?_ hint).mpr
  · right; right
    intro h
    exact absurd h (by decide)
  · rw [hunion,Model.Has,Model.hasAny_iff]
    exact ⟨⟨_,List.mem_cons_of_mem _ List.mem_cons_self,hint⟩,(classModel shapes).bits_plain _ _ _⟩

/-- The empty tuple is a value of the tuple without elements and of the tuples of integers, and
nothing is a value of their meet. -/
theorem empty_tuple_lost :
    (classModel shapes).Has (.tuple [] .plain) "tuple" ∧
      (classModel shapes).Has (.tupleVar (.atom .int .plain) .plain) "tuple" ∧
      meet shapes (.tuple [] .plain) (.tupleVar (.atom .int .plain) .plain) = never ∧
      ¬ (classModel shapes).Has never "tuple" := by
  have htuple : (classModel shapes).IsA "tuple" "tuple" := by decide
  refine ⟨?_,?_,by decide +kernel,id⟩
  · rw [Model.Has]
    exact ⟨⟨htuple,by simp [Model.HasEach,classModel]⟩,(classModel shapes).bits_plain _ _ _⟩
  · rw [Model.Has]
    exact ⟨⟨htuple,by simp [classModel]⟩,(classModel shapes).bits_plain _ _ _⟩

end Unagi.Types
