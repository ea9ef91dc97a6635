import Unagi.Types.Unions

/-! # What a union keeps

`Union` drops a member when another one is above it, which `isSubtype` decides without the bits of the
other: two class elements of one name with different bits are above each other, and both go. -/

namespace Unagi.Types

/-- The values are the classes of a table, one instance each, and no length is known. -/
def classModel (mro : String → List String) : Model String where
  mro := mro
  items _ := []
  entries _ := []
  asciiOnly _ := True
  nonNegative _ := True
  knownLen _ := False
  callable _ _ := False
  proto _ _ := False

/-- The table of two shapes beside the builtin classes. -/
def shapes (n : String) : List String :=
  if n = "Circle" ∨ n = "Square" then [n, "Shape", "object"]
  else if n = "bool" then ["bool", "int", "object"]
  else if n = "object" then ["object"]
  else [n, "object"]

theorem shapes_hierarchy : Hierarchy shapes where
  trans n m k hm hk := by grind [shapes]
  antisymm n m hm hn := by grind [shapes]
  bool := by decide
theorem shapes_head (n : String) : (shapes n).head? = some n := by grind [shapes]

/-- The bits of `b` are bits of `m`, and `b` is not exact. -/
structure BitsWithin (m b : Ty) : Prop where
  asciiOnly : b.refine.asciiOnly = true → m.refine.asciiOnly = true
  nonNegative : b.refine.nonNegative = true → m.refine.nonNegative = true
  knownLen : b.refine.knownLen = true → m.refine.knownLen = true
  exactType : b.refine.exactType = false

def Unnested (members : List Ty) : Prop := ∀ t ∈ parts members, t.kind ≠ .union

section
variable (mro : String → List String)

/-- Each member is one that no other is above, or is below such a one with bits of its own. -/
def Settled (members : List Ty) : Prop :=
  ∀ m ∈ parts members, ∃ b ∈ parts members, (∀ c ∈ parts members, c ≠ b → isSubtype mro b c = false) ∧
    isSubtype mro m b = true ∧ (m = b ∨ BitsWithin m b)

/-- The union has the values of all listed elements, and it is a union only of two to four members,
none above another. -/
structure KeepsMembers (members : List Ty) : Prop where
  values : ∀ (V : Type) (M : Model V), M.Respects mro → ∀ v, (∃ t ∈ members, M.Has t v) →
    M.Has (makeUnion mro members) v
  shape : ∀ ts r, makeUnion mro members = .union ts r → 2 ≤ ts.length ∧ ts.length ≤ unionBudget ∧
    ts.Pairwise fun a b => isSubtype mro a b = false ∧ isSubtype mro b a = false

end

section
variable {mro : String → List String} {V : Type} {M : Model V}

variable {m b t : Ty} {v : V} {members : List Ty}

theorem isSubtype_strip (hsub : isSubtype mro m b = true) (hne : m ≠ b)
    (hm : m.kind ≠ .never) (hb : b.kind ≠ .dyn) :
    isSubtype mro m b.stripRefine = true ∧ m.kind ≠ .dyn ∧ m.fixedArity = false := by
  rw [isSubtype_iff]
  rcases (isSubtype_iff m b).mp hsub with h | h | h | ⟨h,h'⟩ | ⟨n,r,rfl,hbelow⟩
  · exact absurd h hne
  · exact absurd h hm
  · exact absurd h hb
  · obtain ⟨r,rfl⟩ := (Ty.kind_eq_atom .bool m).mp h
    obtain ⟨s,rfl⟩ := (Ty.kind_eq_atom .int b).mp h'
    exact ⟨.inr (.inr (.inr (.inl ⟨rfl,rfl⟩))),by simp,rfl⟩
  · refine ⟨.inr (.inr (.inr (.inr ⟨n,r,rfl,?_⟩))),by simp,rfl⟩
    rw [classBelow_iff] at hbelow ⊢
    rcases hbelow with ⟨k,s,rfl,hk⟩ | ⟨k,s,rfl,hne',hk⟩
    · exact .inl ⟨k,.plain,rfl,hk⟩
    · exact .inr ⟨k,.plain,rfl,hne',hk⟩

theorem has_of_bitsWithin (hM : M.Respects mro) (hsub : isSubtype mro m b = true)
    (hbits : m = b ∨ BitsWithin m b) (h : M.Has m v) : M.Has b v := by
  by_cases hne : m = b
  · exact hne ▸ h
  by_cases hb : b.kind = .dyn
  · obtain ⟨r,rfl⟩ := (Ty.kind_eq_dyn b).mp hb
    trivial
  by_cases hm : m.kind = .never
  · obtain ⟨r,rfl⟩ := (Ty.kind_eq_never m).mp hm
    simp only [Model.Has] at h
  obtain ⟨hstrip,hdyn,hfixed⟩ := isSubtype_strip hsub hne hm hb
  have hown := M.has_bits hdyn h
  have hwithin := hbits.resolve_left hne
  rw [← Model.setRefine_refine b,M.has_setRefine hb]
  refine ⟨isSubtype_sound hM hstrip (stripRefine_refine b) h,?_,?_,?_,?_⟩
  · exact fun hbit => hown.asciiOnly (hwithin.asciiOnly hbit)
  · exact fun hbit => hown.nonNegative (hwithin.nonNegative hbit)
  · exact fun hbit _ => hown.knownLen (hwithin.knownLen hbit) hfixed
  · intro hbit
    rw [hwithin.exactType] at hbit
    cases hbit

/-! ## Members that stay -/

theorem pairwise_keptParts (members : List Ty) : (sortKeys (keptParts mro members)).Pairwise
    fun a b => isSubtype mro a b = false ∧ isSubtype mro b a = false := by
  have hnodup : (keptParts mro members).Nodup := (nodup_dedupe _).filter _
  apply ((List.perm_insertionSort _ _).pairwise_iff fun h => h.symm).mpr
  refine hnodup.imp_of_mem ?_
  intro a b ha hb hne
  rw [mem_keptParts] at ha hb
  exact ⟨ha.2 b hb.1 hne.symm,hb.2 a ha.1 hne⟩

theorem has_makeUnion_of_settled (hM : M.Respects mro) (h : Settled mro members)
    (hv : ∃ t ∈ members, M.Has t v) : M.Has (makeUnion mro members) v := by
  obtain ⟨t,ht,hhas⟩ := hv
  obtain ⟨m,hm,hhasm⟩ := has_flatten t hhas
  obtain ⟨b,hb,hmax,hsub,hbits⟩ := h m (List.mem_flatMap.mpr ⟨t,ht,hm⟩)
  exact has_makeUnion_of_kept hM (mem_keptParts.mpr ⟨hb,hmax⟩)
    (has_of_bitsWithin hM hsub hbits hhasm)

theorem keepsMembers_of_settled (hflat : Unnested members)
    (h : Settled mro members) : KeepsMembers mro members where
  values _ _ hM _ hv := has_makeUnion_of_settled hM h hv
  shape := by
    intro ts r hunion
    cases @makeUnion_made mro members with
    | dyn _ _ heq | never _ heq => cases heq.symm.trans hunion
    | one _ hone =>
      -- a single member that stays is no union
      have ht := mem_keptParts.mp (hone ▸ List.mem_singleton_self _)
      exact absurd (congrArg Ty.kind hunion) (hflat _ ht.1)
    | @widened _ acc m ms _ _ heq =>
      rcases @widen_cases mro acc m ms with h | ⟨-,c,h⟩ <;>
        cases h.symm.trans (heq.symm.trans hunion)
    | union _ hparts hone hlen heq =>
      obtain ⟨rfl,-⟩ := Ty.union.inj (hunion.symm.trans heq)
      obtain ⟨m,hm⟩ := List.exists_mem_of_ne_nil _ hparts
      obtain ⟨b,hb,hmax,-⟩ := h m hm
      have hpos := List.length_pos_of_mem (mem_keptParts.mpr ⟨hb,hmax⟩)
      rw [sortKeys,List.length_insertionSort]
      exact ⟨by omega,hlen,pairwise_keptParts members⟩

/-! ## Lists of classes -/

theorem classModel_respects (hmro : Hierarchy mro) : (classModel mro).Respects mro where
  bool v hv := hmro.trans v "bool" "int" hv hmro.bool
  ancestors v n m hn hm := hmro.trans v n m hn hm

def instanceModel (mro : String → List String) (n : String) (r : Refine) : Model Unit where
  mro _ := mro n
  items _ := []
  entries _ := []
  asciiOnly _ := r.asciiOnly = true
  nonNegative _ := r.nonNegative = true
  knownLen _ := r.knownLen = true
  callable _ _ := False
  proto _ _ := False

theorem instanceModel_respects (hmro : Hierarchy mro) (n : String) (r : Refine) :
    (instanceModel mro n r).Respects mro where
  bool _ hv := hmro.trans n "bool" "int" hv hmro.bool
  ancestors _ k m hk hm := hmro.trans n k m hk hm

theorem instanceModel_has (hhead : ∀ n, (mro n).head? = some n) (n : String) (r : Refine) :
    (instanceModel mro n r).Has (.cls n r) () := by
  rw [Model.Has]
  refine ⟨List.mem_of_mem_head? (hhead n),id,id,fun h _ => h,?_⟩
  intro _ k hk
  rw [← Option.some.inj hk]
  exact hhead n

theorem bitsWithin_of_instance (hhead : ∀ n, (mro n).head? = some n) {n m : String} {r s : Refine}
    (hne : n ≠ m) (h : (instanceModel mro n r).Has (.cls m s) ()) :
    isSubtype mro (.cls n r) (.cls m s) = true ∧ BitsWithin (.cls n r) (.cls m s) := by
  rw [Model.Has] at h
  obtain ⟨hisA,hbits⟩ := h
  refine ⟨?_,hbits.asciiOnly,hbits.nonNegative,fun hbit => hbits.knownLen hbit rfl,?_⟩
  · rw [isSubtype_iff]
    exact .inr (.inr (.inr (.inr ⟨n,r,rfl,(classBelow_iff n _).mpr (.inl ⟨m,s,rfl,hisA⟩)⟩)))
  · rw [Bool.eq_false_iff]
    intro hbit
    have hm := hbits.exactType hbit m rfl
    exact hne (Option.some.inj ((hhead n).symm.trans hm))

/-- The listed elements are classes and unions of classes without bits of their own, and at most four
classes have none above them. -/
structure FewClasses (mro : String → List String) (members : List Ty) : Prop where
  classes : ∀ t ∈ parts members, t.kind = .cls
  unions : ∀ t ∈ members, t.kind = .union → t.refine = .plain
  few : (keptParts mro members).length ≤ unionBudget

theorem FewClasses.no_dyn (h : FewClasses mro members) :
    ∀ t ∈ members, t.kind ≠ .dyn := by
  intro t ht hk
  obtain ⟨r,rfl⟩ := (Ty.kind_eq_dyn t).mp hk
  cases h.classes (.dyn r) (List.mem_flatMap.mpr ⟨_,ht,List.mem_singleton_self _⟩)

theorem FewClasses.has_part (h : FewClasses mro members)
    (hm : m ∈ parts members) (hhas : M.Has m v) : ∃ t ∈ members, M.Has t v := by
  obtain ⟨t,ht,hflat⟩ := List.mem_flatMap.mp hm
  refine ⟨t,ht,?_⟩
  cases t with
  | union ts r =>
    obtain rfl : r = .plain := h.unions _ ht rfl
    rw [Model.Has,Model.hasAny_iff]
    exact ⟨⟨m,hflat,hhas⟩,M.bits_plain _ _ v⟩
  | never r => cases hflat
  | _ => rwa [← List.mem_singleton.mp hflat]

theorem settled_of_keepsMembers (hmro : Hierarchy mro) (hhead : ∀ n, (mro n).head? = some n)
    (hfew : FewClasses mro members) (h : KeepsMembers mro members) : Settled mro members := by
  intro m hm
  by_cases hmax : ∀ c ∈ parts members, c ≠ m → isSubtype mro m c = false
  · exact ⟨m,hm,hmax,(isSubtype_iff m m).mpr (.inl rfl),.inl rfl⟩
  obtain ⟨n,r,rfl⟩ := (Ty.kind_eq_cls m).mp (hfew.classes m hm)
  have hin := h.values Unit (instanceModel mro n r) (instanceModel_respects hmro n r) ()
    (hfew.has_part hm (instanceModel_has hhead n r))
  obtain ⟨b,hb,hhas⟩ := kept_of_has_makeUnion hfew.no_dyn hfew.few hin
  obtain ⟨hpart,hbmax⟩ := mem_keptParts.mp hb
  obtain ⟨k,s,rfl⟩ := (Ty.kind_eq_cls b).mp (hfew.classes b hpart)
  have hne : n ≠ k := by
    rintro rfl
    by_cases hsame : Ty.cls n r = .cls n s
    · exact hmax (hsame ▸ hbmax)
    · -- the two of one name are above each other
      have hself : n ∈ mro n := List.mem_of_mem_head? (hhead n)
      have habove : isSubtype mro (.cls n s) (.cls n r) = true := by
        rw [isSubtype_iff]
        exact .inr (.inr (.inr (.inr ⟨n,s,rfl,(classBelow_iff n _).mpr (.inl ⟨n,r,rfl,hself⟩)⟩)))
      rw [hbmax _ hm hsame] at habove
      cases habove
  obtain ⟨hsub,hbits⟩ := bitsWithin_of_instance hhead hne hhas
  exact ⟨_,hpart,hbmax,hsub,.inr hbits⟩

end

/-- A union has the values of all its members and is well shaped if its members are settled, and a
union of a few classes only then. -/
theorem union_keeps_members {mro : String → List String} (hmro : Hierarchy mro) :
    (∀ members, Unnested members → Settled mro members → KeepsMembers mro members) ∧
    ((∀ n, (mro n).head? = some n) → ∀ members, FewClasses mro members →
      (KeepsMembers mro members ↔ Settled mro members)) := by
  refine ⟨fun members hflat h => keepsMembers_of_settled hflat h,?_⟩
  intro hhead members hfew
  constructor
  · exact settled_of_keepsMembers hmro hhead hfew
  · apply keepsMembers_of_settled
    intro t ht hk
    rw [hfew.classes t ht] at hk
    exact nomatch hk

/-- `int | None`. -/
theorem int_or_none_kept :
    KeepsMembers shapes [.atom .int .plain, .atom .none .plain] ∧
      (classModel shapes).Has (makeUnion shapes [.atom .int .plain, .atom .none .plain]) "bool" := by
  have hkept := (union_keeps_members shapes_hierarchy).1 [.atom .int .plain,.atom .none .plain]
    (by unfold Unnested; decide) (by
      intro m hm
      refine ⟨m,hm,?_,(isSubtype_iff m m).mpr (.inl rfl),.inl rfl⟩
      revert m
      decide)
  refine ⟨hkept,hkept.values String (classModel shapes) (classModel_respects shapes_hierarchy) "bool"
    ⟨_,List.mem_cons_self,?_⟩⟩
  rw [Model.Has]
  exact ⟨by decide,(classModel shapes).bits_plain _ _ _⟩

/-- `Circle` and exactly `Circle` remove each other, and a union without members is left. -/
theorem union_loses_circle :
    makeUnion shapes [.cls "Circle" .plain, .cls "Circle" .exact] = .union [] .plain ∧
      (classModel shapes).Has (.cls "Circle" .plain) "Circle" ∧
      ¬ (classModel shapes).Has (makeUnion shapes [.cls "Circle" .plain, .cls "Circle" .exact])
        "Circle" := by
  have hempty : makeUnion shapes [.cls "Circle" .plain,.cls "Circle" .exact] = .union [] .plain := by
    decide +kernel
  refine ⟨hempty,?_,?_⟩
  · rw [Model.Has]
    exact ⟨List.mem_of_mem_head? (shapes_head "Circle"),(classModel shapes).bits_plain _ _ _⟩
  · rw [hempty,Model.Has]
    exact fun h => h.1

end Unagi.Types
