import Unagi.Calls.Bind
import Mathlib.Data.List.Nodup

/-! # The two binders agree, and bind as the language does

The binding algorithm commutes with every map of its values, so the compile-time binder,
read through the values of its expressions, is the run-time binder. -/

namespace Unagi.Calls
open Frontend (ParamKind)

variable {α β γ : Type}

/-! ## The algorithm commutes with maps of its values -/

section Map
variable (f : β → γ)

def Signature.map (s : Signature β) : Signature γ :=
  { named := s.named.map (Param.map f), nPosonly := s.nPosonly, nPosCap := s.nPosCap,
    star := s.star, starstar := s.starstar }
def KeywordState.map (st : KeywordState β) : KeywordState γ :=
  { slot := st.slot.map (Option.map f), kwonlyGiven := st.kwonlyGiven,
    kwExtra := st.kwExtra.map fun kw => (kw.1, f kw.2) }
def mapArgs : List (Option (Passed β)) → List (Option (Passed γ)) := List.map (Option.map (Passed.map f))

@[simp] theorem Param.map_name (p : Param β) : (p.map f).name = p.name := rfl
@[simp] theorem Param.map_kind (p : Param β) : (p.map f).kind = p.kind := rfl
@[simp] theorem Param.map_dflt (p : Param β) : (p.map f).dflt = p.dflt.map f := rfl

private theorem Signature.add_map (s : Signature β) (p : Param β) :
    (s.map f).add (p.map f) = (s.add p).map f := by
  cases hk : p.kind <;> simp [Signature.add,Signature.map,hk]

private theorem splitSig_map (params : List (Param β)) :
    splitSig (params.map (Param.map f)) = (splitSig params).map f := by
  have hfold : ∀ s : Signature β,
      (params.map (Param.map f)).foldl Signature.add (s.map f) =
        (params.foldl Signature.add s).map f := by
    induction params with
    | nil => intro s; rfl
    | cons p ps ih =>
      intro s
      rw [List.map_cons,List.foldl_cons,List.foldl_cons,Signature.add_map,ih]
  exact hfold {}

@[simp] theorem Signature.keywordNames_map (s : Signature β) :
    (s.map f).keywordNames = s.keywordNames := by
  simp only [Signature.keywordNames,Signature.map,← List.map_drop,List.map_map]
  rfl
@[simp] theorem Signature.keywordIndex_map (s : Signature β) (kw : String) :
    (s.map f).keywordIndex kw = s.keywordIndex kw := by
  simp only [Signature.keywordIndex,Signature.keywordNames_map]
  rfl
@[simp] theorem Signature.minReq_map (s : Signature β) : (s.map f).minReq = s.minReq := by
  simp only [Signature.minReq,Signature.map,← List.map_take,List.countP_map]
  congr 1
  funext p
  simp
private theorem posOnlyViolations_map (s : Signature β) (kws : List (String × β)) :
    posOnlyViolations (s.map f) (kws.map fun kw => (kw.1, f kw.2)) = posOnlyViolations s kws := by
  simp only [posOnlyViolations,Signature.map,← List.map_take,List.filter_map,List.map_map,
    List.any_map]
  rfl

private theorem bindKeyword_map (s : Signature β) (bound : Nat) (st : KeywordState β)
    (kw : String × β) :
    bindKeyword (s.map f) bound (st.map f) (kw.1, f kw.2) =
      (bindKeyword s bound st kw).map (KeywordState.map f) := by
  simp only [bindKeyword,Signature.keywordIndex_map,Signature.keywordNames_map]
  cases hi : s.keywordIndex kw.1 with
  | none =>
    cases hs : s.starstar <;> simp [Signature.map,hs,Except.map,KeywordState.map]
  | some idx =>
    by_cases hb : idx < bound
    · simp [hb,Except.map]
    · simp [hb,Except.map,KeywordState.map,Signature.map]
      rfl

private theorem bindKeywords_map (s : Signature β) (bound : Nat) (st : KeywordState β)
    (kws : List (String × β)) :
    bindKeywords (s.map f) bound (st.map f) (kws.map fun kw => (kw.1, f kw.2)) =
      (bindKeywords s bound st kws).map (KeywordState.map f) := by
  induction kws generalizing st with
  | nil => rfl
  | cons kw kws ih =>
    simp only [List.map_cons,bindKeywords,bindKeyword_map]
    cases hstep : bindKeyword s bound st kw with
    | error e => rfl
    | ok st' => exact ih st'

private theorem missingNames_map (slots : List (Param β × Option β)) :
    missingNames (slots.map fun s => (s.1.map f, s.2.map f)) = missingNames slots := by
  simp only [missingNames,List.filter_map,List.map_map]
  congr 1
  congr 1
  funext s
  simp

private theorem fillDefaults_map (named : List (Param β)) (slot : List (Option β)) :
    fillDefaults (named.map (Param.map f)) (slot.map (Option.map f)) =
      (fillDefaults named slot).map (Option.map f) := by
  simp only [fillDefaults,List.zipWith_map,List.map_zipWith,Param.map_dflt]
  congr 1
  funext p v
  cases v <;> rfl

theorem finalArgs_map (extra : List β) (kwExtra : List (String × β)) (params : List (Param β))
    (slot : List (Option β)) :
    finalArgs (extra.map f) (kwExtra.map fun kw => (kw.1, f kw.2)) (params.map (Param.map f))
        (slot.map (Option.map f)) =
      mapArgs f (finalArgs extra kwExtra params slot) := by
  induction params generalizing slot with
  | nil => rfl
  | cons p ps ih =>
    have hhead : ((slot.map (Option.map f)).head?.join).map Passed.value =
        ((slot.head?.join).map Passed.value).map (Passed.map f) := by
      cases slot with
      | nil => rfl
      | cons v vs => cases v <;> rfl
    have htail : (slot.map (Option.map f)).tail = slot.tail.map (Option.map f) := by
      cases slot <;> rfl
    cases hk : p.kind <;>
      simp only [List.map_cons,finalArgs,Param.map_kind,hk,mapArgs,ih,hhead,htail,
        Option.map_some,Passed.map]

private theorem positionalSlots_map (n : Nat) (pos : List β) :
    positionalSlots n (pos.map f) = (positionalSlots n pos).map (Option.map f) := by
  simp [positionalSlots]
private theorem mapArgs_values (l : List β) :
    mapArgs f (l.map fun v => some (.value v)) = (l.map f).map fun v => some (.value v) := by
  simp [mapArgs,Passed.map]

private theorem finishBind_map (params : List (Param β)) (s : Signature β) (pos : List β)
    (st : KeywordState β) :
    finishBind (params.map (Param.map f)) (s.map f) (pos.map f) (st.map f) =
      (finishBind params s pos st).map (mapArgs f) := by
  have hzip : (s.map f).named.zip (st.map f).slot =
      (s.named.zip st.slot).map fun s => (s.1.map f, s.2.map f) := by
    simp [Signature.map,KeywordState.map,List.zip_map]
  simp only [finishBind,hzip,← List.map_take,← List.map_drop,missingNames_map,
    Signature.minReq_map,List.length_map]
  simp only [Signature.map,KeywordState.map,ne_eq,List.map_eq_nil_iff,fillDefaults_map,
    finalArgs_map]
  split_ifs <;> rfl

private theorem bindArgs_map (params : List (Param β)) (s : Signature β) (pos : List β)
    (kws : List (String × β)) :
    bindArgs (params.map (Param.map f)) (s.map f) (pos.map f)
        (kws.map fun kw => (kw.1, f kw.2)) =
      (bindArgs params s pos kws).map (mapArgs f) := by
  have hstart : ∀ n bound : Nat,
      ({ slot := positionalSlots n ((pos.map f).take bound) } : KeywordState γ) =
        KeywordState.map f { slot := positionalSlots n (pos.take bound) } := by
    intro n bound
    simp [KeywordState.map,← List.map_take,positionalSlots_map]
  simp only [bindArgs,posOnlyViolations_map,List.length_map]
  rw [show (s.map f).starstar = s.starstar from rfl,show (s.map f).nPosCap = s.nPosCap from rfl,
    show (s.map f).named.length = s.named.length by simp [Signature.map],hstart,
    bindKeywords_map]
  split_ifs
  · rfl
  · cases hk : bindKeywords s (min pos.length s.nPosCap)
      { slot := positionalSlots s.named.length (pos.take (min pos.length s.nPosCap)) } kws with
    | error e => rfl
    | ok st => exact finishBind_map f params s pos st

end Map

/-! ## The split parameter list -/

variable {l : List β} {j : Nat} {p : Param α}

private theorem take_drop_countP {P : β → Bool}
    (h : l.Pairwise fun a b => P b = true → P a = true) :
    l.take (l.countP P) = l.filter P ∧ l.drop (l.countP P) = l.filter fun a => !P a := by
  induction l with
  | nil => simp
  | cons a l ih =>
    obtain ⟨ha,hl⟩ := List.pairwise_cons.mp h
    obtain ⟨ht,hd⟩ := ih hl
    by_cases hP : P a
    · simp [hP,ht,hd]
    · have hnone : ∀ b ∈ l, ¬ P b = true := fun b hb hPb => hP (ha b hb hPb)
      have hself : l.filter (fun b => !P b) = l :=
        List.filter_eq_self.mpr fun b hb => by simp [hnone b hb]
      simp [hP,List.countP_eq_zero.mpr hnone,List.filter_eq_nil_iff.mpr hnone,hself]

private theorem lt_countP_iff {P : β → Bool} {a : β}
    (h : l.Pairwise fun a b => P b = true → P a = true) (hj : l[j]? = some a) :
    j < l.countP P ↔ P a = true := by
  obtain ⟨ht,hd⟩ := take_drop_countP h
  constructor
  · intro hlt
    have hmem : a ∈ l.take (l.countP P) :=
      List.mem_of_getElem? (by rw [List.getElem?_take_of_lt hlt]; exact hj)
    rw [ht] at hmem
    exact List.of_mem_filter hmem
  · intro hP
    by_contra hge
    have hmem : a ∈ l.drop (l.countP P) := by
      apply List.mem_of_getElem? (i := j - l.countP P)
      rw [List.getElem?_drop,Nat.add_sub_cancel' (Nat.le_of_not_lt hge)]
      exact hj
    rw [hd] at hmem
    have hnot := List.of_mem_filter hmem
    simp [hP] at hnot

private theorem findIdx?_eq_some_of_nodup {l : List String} (h : l.Nodup) {x : String} {k : Nat} :
    (l.findIdx? fun n => n = x) = some k ↔ l[k]? = some x := by
  rw [List.findIdx?_eq_some_iff_getElem]
  constructor
  · rintro ⟨hk,hx,-⟩
    rw [List.getElem?_eq_getElem hk]
    simpa using hx
  · intro hx
    obtain ⟨hk,rfl⟩ := List.getElem?_eq_some_iff.mp hx
    refine ⟨hk,by simp,?_⟩
    intro j hj
    have hne : l[j] ≠ l[k] := by
      intro heq
      have hjk := (h.getElem_inj_iff (i := j) (j := k)).mp heq
      omega
    simpa using hne

private theorem splitSig_eq (params : List (Param β)) :
    splitSig params =
      { named := params.filter Param.isNamed
        nPosonly := params.countP fun p => p.kind = .posOnly
        nPosCap := params.countP Param.isPositional
        star := params.any fun p => p.kind = .star
        starstar := params.any fun p => p.kind = .starStar } := by
  have hfold : ∀ s : Signature β, params.foldl Signature.add s =
      { named := s.named ++ params.filter Param.isNamed
        nPosonly := s.nPosonly + params.countP fun p => p.kind = .posOnly
        nPosCap := s.nPosCap + params.countP Param.isPositional
        star := s.star || params.any fun p => p.kind = .star
        starstar := s.starstar || params.any fun p => p.kind = .starStar } := by
    induction params with
    | nil => intro s; simp
    | cons p ps ih =>
      intro s
      rw [List.foldl_cons,ih]
      cases hk : p.kind <;>
        simp [Signature.add,hk,Param.isNamed,Param.isPositional,Nat.add_assoc,
          Nat.add_comm 1]
  simpa [splitSig] using hfold {}

section Def
variable (d : FuncDef α)

def FuncDef.named : List (Param α) := d.params.filter Param.isNamed
abbrev FuncDef.sig : Signature α := splitSig d.params
private theorem FuncDef.named_pairwise :
    d.named.Pairwise fun p q => kindRank p.kind ≤ kindRank q.kind :=
  d.ordered.filter _
private theorem FuncDef.named_distinct : (d.named.map Param.name).Nodup :=
  d.distinct.sublist (List.filter_sublist.map _)

/-- A name stands at one index. -/
theorem FuncDef.index_unique {x : String} {i : Nat} (hi : (d.named.map Param.name)[i]? = some x)
    (hj : (d.named.map Param.name)[j]? = some x) : i = j :=
  (List.getElem?_inj (List.getElem?_eq_some_iff.mp hi).1 d.named_distinct).mp (hi.trans hj.symm)

private theorem FuncDef.posOnly_first :
    d.named.Pairwise fun p q => decide (q.kind = .posOnly) = true → decide (p.kind = .posOnly) = true := by
  refine d.named_pairwise.imp ?_
  intro p q hle hq
  have hq' : q.kind = .posOnly := by simpa using hq
  rw [hq'] at hle
  cases hk : p.kind <;> simp [hk,kindRank] at hle ⊢

private theorem FuncDef.positional_first :
    d.named.Pairwise fun p q => q.isPositional = true → p.isPositional = true := by
  refine d.named_pairwise.imp ?_
  intro p q hle hq
  cases hp : p.kind <;> cases hq' : q.kind <;>
    simp [hp,hq',kindRank,Param.isPositional] at hle hq ⊢

private theorem FuncDef.filter_named {P : Param α → Bool} (h : ∀ p, P p = true → p.isNamed = true) :
    d.named.filter P = d.params.filter P := by
  rw [FuncDef.named,List.filter_filter]
  apply List.filter_congr
  intro p _
  cases hP : P p
  · rfl
  · simp [h p hP]

private theorem Param.isNamed_of_isPositional (h : p.isPositional = true) : p.isNamed = true := by
  cases hk : p.kind <;> simp_all [Param.isPositional,Param.isNamed]

private theorem FuncDef.sig_eq :
    d.sig =
      { named := d.named
        nPosonly := d.named.countP fun p => p.kind = .posOnly
        nPosCap := d.named.countP Param.isPositional
        star := d.hasKind .star
        starstar := d.hasKind .starStar } := by
  have honly : ∀ p : Param α, decide (p.kind = .posOnly) = true → p.isNamed = true := by
    intro p hp
    simp_all [Param.isNamed]
  simp only [FuncDef.sig,splitSig_eq,List.countP_eq_length_filter,d.filter_named honly,
    d.filter_named fun _ => Param.isNamed_of_isPositional]
  rfl

private theorem FuncDef.positional_eq :
    d.positional = (d.named.map Param.name).take (d.named.countP Param.isPositional) := by
  rw [← List.map_take,(take_drop_countP d.positional_first).1,FuncDef.positional,
    d.filter_named fun _ => Param.isNamed_of_isPositional]
private theorem FuncDef.keywordNames_splitSig : d.sig.keywordNames = d.keywords := by
  rw [FuncDef.sig_eq,Signature.keywordNames,(take_drop_countP d.posOnly_first).2,
    FuncDef.keywords,FuncDef.named,List.filter_filter]
  congr 2
  funext p
  cases hk : p.kind <;> simp [Param.isKeyword,Param.isNamed,hk]

private theorem FuncDef.keywordIndex_eq_some {kw : String} {i : Nat} :
    d.sig.keywordIndex kw = some i ↔
      d.sig.nPosonly ≤ i ∧ (d.named.map Param.name)[i]? = some kw := by
  have hnames : d.sig.keywordNames =
      (d.named.map Param.name).drop d.sig.nPosonly := by
    rw [Signature.keywordNames,FuncDef.sig_eq,List.map_drop]
  have hnodup : d.sig.keywordNames.Nodup := by
    rw [hnames]
    exact d.named_distinct.sublist (List.drop_sublist _ _)
  rw [Signature.keywordIndex,Option.map_eq_some_iff]
  constructor
  · rintro ⟨k,hk,rfl⟩
    rw [findIdx?_eq_some_of_nodup hnodup,hnames,List.getElem?_drop] at hk
    exact ⟨Nat.le_add_right _ _,hk⟩
  · rintro ⟨hle,hi⟩
    refine ⟨i - d.sig.nPosonly,?_,Nat.add_sub_cancel' hle⟩
    rw [findIdx?_eq_some_of_nodup hnodup,hnames,List.getElem?_drop,Nat.add_sub_cancel' hle]
    exact hi

private theorem FuncDef.keywordIndex_eq_none {kw : String} :
    d.sig.keywordIndex kw = none ↔ kw ∉ d.keywords := by
  rw [Signature.keywordIndex,Option.map_eq_none_iff,List.findIdx?_eq_none_iff,
    FuncDef.keywordNames_splitSig]
  constructor
  · intro h hmem
    simpa using h kw hmem
  · intro h x hx
    simp only [decide_eq_false_iff_not]
    rintro rfl
    exact h hx

end Def

/-! ## The keyword loop -/

def fillKeywords (sig : Signature β) : List (Option β) → List (String × β) → List (Option β)
  | slot, [] => slot
  | slot, kw :: kws =>
    match sig.keywordIndex kw.1 with
    | none => fillKeywords sig slot kws
    | some i => fillKeywords sig (slot.set i (some kw.2)) kws

/-- The keyword names a slot that is still free, or there is a dict to take it. -/
def KeywordFits (sig : Signature β) (bound : Nat) (kw : String) : Prop :=
  (sig.keywordIndex kw = none → sig.starstar = true) ∧
    ∀ i, sig.keywordIndex kw = some i → bound ≤ i

section Keywords
variable {sig : Signature β} {bound : Nat}

theorem bindKeywords_ok {kws : List (String × β)} (h : ∀ kw ∈ kws, KeywordFits sig bound kw.1)
    (st : KeywordState β) :
    ∃ n, bindKeywords sig bound st kws =
      .ok { slot := fillKeywords sig st.slot kws, kwonlyGiven := n,
            kwExtra := st.kwExtra ++ kws.filter fun kw => (sig.keywordIndex kw.1).isNone } := by
  induction kws generalizing st with
  | nil => exact ⟨st.kwonlyGiven,by simp [bindKeywords,fillKeywords]⟩
  | cons kw kws ih =>
    obtain ⟨hnone,hsome⟩ := h kw (by simp)
    have hrest : ∀ kw ∈ kws, KeywordFits sig bound kw.1 := fun kw hkw => h kw (by simp [hkw])
    cases hi : sig.keywordIndex kw.1 with
    | none =>
      obtain ⟨n,hn⟩ := ih hrest { st with kwExtra := st.kwExtra ++ [kw] }
      refine ⟨n,?_⟩
      simp [bindKeywords,bindKeyword,fillKeywords,hi,hnone hi,hn]
    | some i =>
      have hlt : ¬ i < bound := Nat.not_lt.mpr (hsome i hi)
      simp only [bindKeywords,bindKeyword,hi,hlt,if_false,fillKeywords]
      obtain ⟨n,hn⟩ := ih hrest { st with
        slot := st.slot.set i (some kw.2)
        kwonlyGiven := if sig.nPosCap ≤ i then st.kwonlyGiven + 1 else st.kwonlyGiven }
      refine ⟨n,?_⟩
      rw [hn]
      simp [hi]

private theorem bindKeywords_error {kws : List (String × β)} {kw : String × β} (hmem : kw ∈ kws)
    (h : ¬ KeywordFits sig bound kw.1) (st : KeywordState β) :
    ∃ e, bindKeywords sig bound st kws = .error e := by
  induction kws generalizing st with
  | nil => simp at hmem
  | cons kw' kws ih =>
    cases hstep : bindKeyword sig bound st kw' with
    | error e => exact ⟨e,by simp [bindKeywords,hstep]⟩
    | ok st' =>
      have hne : kw ≠ kw' := by
        rintro rfl
        apply h
        constructor
        · intro hi
          by_contra hs
          simp [bindKeyword,hi,hs] at hstep
        · intro i hi
          by_contra hlt
          simp [bindKeyword,hi,Nat.lt_of_not_le hlt] at hstep
      obtain ⟨e,he⟩ := ih (List.mem_of_ne_of_mem hne hmem) st'
      exact ⟨e,by simp [bindKeywords,hstep,he]⟩

end Keywords

section Def
variable (d : FuncDef α)

theorem FuncDef.getElem?_fillKeywords {kws : List (String × α)} (hkw : (kws.map Prod.fst).Nodup)
    {slot : List (Option α)} (hlen : slot.length = d.named.length)
    (hj : d.named[j]? = some p) :
    (fillKeywords d.sig slot kws)[j]? =
      if d.sig.nPosonly ≤ j then
        match kws.lookup p.name with
        | some v => some (some v)
        | none => slot[j]?
      else slot[j]? := by
  have hname : (d.named.map Param.name)[j]? = some p.name := by simp [hj]
  have hlt : j < d.named.length := (List.getElem?_eq_some_iff.mp hj).1
  induction kws generalizing slot with
  | nil => simp [fillKeywords]
  | cons kw kws ih =>
    obtain ⟨name,val⟩ := kw
    obtain ⟨hnot,hrest⟩ := List.nodup_cons.mp hkw
    cases hi : d.sig.keywordIndex name with
    | none =>
      rw [fillKeywords,hi]
      simp only
      rw [ih hrest hlen]
      by_cases hle : d.sig.nPosonly ≤ j
      · have hne : p.name ≠ name := by
          rintro heq
          have hsome := (d.keywordIndex_eq_some (i := j)).mpr ⟨hle,heq ▸ hname⟩
          rw [hi] at hsome
          cases hsome
        have hbeq : (p.name == name) = false := by simpa using hne
        simp [List.lookup_cons,hle,hbeq]
      · simp [hle]
    | some i =>
      obtain ⟨hge,hi'⟩ := d.keywordIndex_eq_some.mp hi
      rw [fillKeywords,hi]
      simp only
      rw [ih hrest (by simpa using hlen)]
      by_cases hij : i = j
      · subst hij
        have heq : p.name = name := by
          rw [hname] at hi'
          exact Option.some.inj hi'
        have hlookup : kws.lookup name = none := by
          rw [List.lookup_eq_none_iff]
          intro q hq
          simp only [bne_iff_ne,ne_eq]
          intro hqe
          exact hnot (List.mem_map.mpr ⟨q,hq,hqe.symm⟩)
        simp [hge,heq,hlookup,hlen,hlt]
      · have hne : p.name ≠ name := fun heq => hij (d.index_unique hi' (heq ▸ hname))
        have hbeq : (p.name == name) = false := by simpa using hne
        simp [List.lookup_cons,hbeq,hij]

end Def

/-! ## The values the slots end up with -/

/-- The value the calling convention gives to a parameter with a value slot. -/
def pySlot (d : FuncDef α) (pos : List α) (kws : List (String × α)) (p : Param α) : Option α :=
  match p.kind with
  | .posOnly => (pos[d.positional.idxOf p.name]?).or p.dflt
  | .plain => (pos[d.positional.idxOf p.name]?).or ((kws.lookup p.name).or p.dflt)
  | _ => (kws.lookup p.name).or p.dflt

private theorem pyArgument_named (d : FuncDef α) (pos : List α) (kws : List (String × α))
    (hp : p.isNamed = true) : pyArgument d pos kws p = (pySlot d pos kws p).map .value := by
  cases hk : p.kind <;> simp [Param.isNamed,hk,pyArgument,pySlot] at hp ⊢
private theorem getElem?_positionalSlots {n : Nat} (hj : j < n) :
    (positionalSlots n l)[j]? = some l[j]? := by
  by_cases hl : j < l.length
  · simp [positionalSlots,List.getElem?_append,hl]
  · have hrest : j - l.length < n - l.length := by omega
    simp [positionalSlots,List.getElem?_append,hl,hrest]

section Def
variable (d : FuncDef α) {pos : List α} {kws : List (String × α)}

def FuncDef.bound (pos : List α) : Nat := min pos.length d.sig.nPosCap
private theorem FuncDef.nPosonly_le_iff (hj : d.named[j]? = some p) :
    d.sig.nPosonly ≤ j ↔ p.kind ≠ .posOnly := by
  rw [← Nat.not_lt,d.sig_eq]
  simpa using not_congr (lt_countP_iff d.posOnly_first hj)
private theorem FuncDef.lt_nPosCap_iff (hj : d.named[j]? = some p) :
    j < d.sig.nPosCap ↔ p.isPositional = true := by
  rw [d.sig_eq]
  exact lt_countP_iff d.positional_first hj

private theorem FuncDef.idxOf_positional (hj : d.named[j]? = some p)
    (hp : p.isPositional = true) : d.positional.idxOf p.name = j := by
  have hlt : j < d.named.countP Param.isPositional := by
    rw [← (lt_countP_iff d.positional_first hj)] at hp
    exact hp
  have hget : d.positional[j]? = some p.name := by
    rw [d.positional_eq,List.getElem?_take_of_lt hlt]
    simp [hj]
  obtain ⟨hlen,heq⟩ := List.getElem?_eq_some_iff.mp hget
  have hnodup : d.positional.Nodup := by
    rw [d.positional_eq]
    exact d.named_distinct.sublist (List.take_sublist _ _)
  rw [← heq,hnodup.idxOf_getElem]

private theorem FuncDef.getElem?_take_bound (hj : d.named[j]? = some p) :
    (pos.take (d.bound pos))[j]? = if p.isPositional then pos[j]? else none := by
  have hiff := d.lt_nPosCap_iff hj
  rw [List.getElem?_take,FuncDef.bound]
  by_cases hp : p.isPositional
  · have hlt := hiff.mpr hp
    rw [if_pos hp]
    split
    · rfl
    · rw [List.getElem?_eq_none (by omega)]
  · have hnot : ¬ j < d.sig.nPosCap := fun h => hp (hiff.mp h)
    rw [if_neg hp,if_neg (by omega)]

private theorem FuncDef.filled_eq (hkw : (kws.map Prod.fst).Nodup)
    (hfits : ∀ kw ∈ kws, KeywordFits d.sig (d.bound pos) kw.1) :
    fillDefaults d.named (fillKeywords d.sig
        (positionalSlots d.named.length (pos.take (d.bound pos))) kws) =
      d.named.map (pySlot d pos kws) := by
  have hlen : (positionalSlots d.named.length (pos.take (d.bound pos))).length =
      d.named.length := by
    have hle : (pos.take (d.bound pos)).length ≤ d.named.length := by
      have hcap : d.sig.nPosCap ≤ d.named.length := by
        rw [d.sig_eq]
        exact List.countP_le_length
      simp only [List.length_take,FuncDef.bound]
      omega
    simp only [positionalSlots,List.length_append,List.length_map,List.length_replicate]
    omega
  apply List.ext_getElem?
  intro j
  cases hj : d.named[j]? with
  | none =>
    simp [fillDefaults,List.getElem?_zipWith,hj]
  | some p =>
    have hlt : j < d.named.length := (List.getElem?_eq_some_iff.mp hj).1
    simp only [fillDefaults,List.getElem?_zipWith,List.getElem?_map,hj,Option.map_some,
      d.getElem?_fillKeywords hkw hlen hj,getElem?_positionalSlots hlt,
      d.getElem?_take_bound hj]
    cases hk : p.kind with
    | posOnly =>
      have hpos : p.isPositional = true := by simp [Param.isPositional,hk]
      have hnot : ¬ d.sig.nPosonly ≤ j := fun hle => (d.nPosonly_le_iff hj).mp hle hk
      simp [hnot,hpos,pySlot,hk,d.idxOf_positional hj hpos]
    | plain =>
      have hpos : p.isPositional = true := by simp [Param.isPositional,hk]
      have hle := (d.nPosonly_le_iff hj).mpr (by simp [hk])
      cases hl : kws.lookup p.name with
      | none => simp [hle,hl,hpos,pySlot,hk,d.idxOf_positional hj hpos]
      | some v =>
        -- a keyword that fits names a slot the positional arguments have not filled
        have hmem : (p.name, v) ∈ kws := by
          obtain ⟨l₁,l₂,rfl,-⟩ := List.lookup_eq_some_iff.mp hl
          simp
        have hidx : d.sig.keywordIndex p.name = some j :=
          d.keywordIndex_eq_some.mpr ⟨hle,by simp [hj]⟩
        have hge := (hfits _ hmem).2 j hidx
        have hcap := (d.lt_nPosCap_iff hj).mpr hpos
        have hfree : pos[j]? = none := by
          apply List.getElem?_eq_none
          simp only [FuncDef.bound] at hge
          omega
        simp [hle,hl,pySlot,hk,d.idxOf_positional hj hpos,hfree]
    | kwOnly =>
      have hpos : p.isPositional = false := by simp [Param.isPositional,hk]
      have hle := (d.nPosonly_le_iff hj).mpr (by simp [hk])
      cases hl : kws.lookup p.name <;> simp [hle,hl,hpos,pySlot,hk]
    | star | starStar =>
      have hnamed : p.isNamed = true := List.of_mem_filter (List.mem_of_getElem? hj)
      simp [Param.isNamed,hk] at hnamed

theorem finalArgs_named (extra : List β) (kwExtra : List (String × β)) (g : Param β → Option β)
    (params : List (Param β)) :
    finalArgs extra kwExtra params ((params.filter Param.isNamed).map g) =
      params.map fun p =>
        match p.kind with
        | .star => some (.tuple extra)
        | .starStar => some (.dict kwExtra)
        | _ => (g p).map .value := by
  induction params with
  | nil => rfl
  | cons p ps ih =>
    cases hk : p.kind <;> simp [finalArgs,hk,Param.isNamed,ih]

private theorem missingNames_eq_nil (named : List (Param β)) (slot : List (Option β)) :
    missingNames (named.zip slot) = [] ↔ ∀ v ∈ fillDefaults named slot, v.isSome := by
  rw [missingNames,List.map_eq_nil_iff,List.filter_eq_nil_iff,fillDefaults,
    ← List.map_uncurry_zip_eq_zipWith,List.forall_mem_map]
  apply forall₂_congr
  rintro ⟨p,v⟩ _
  cases v <;> cases hd : p.dflt <;> simp [hd]

private theorem missingNames_take_drop (slots : List (Param β × Option β)) (n : Nat) :
    missingNames (slots.take n) = [] ∧ missingNames (slots.drop n) = [] ↔
      missingNames slots = [] := by
  have happ : missingNames (slots.take n) ++ missingNames (slots.drop n) = missingNames slots := by
    simp only [missingNames,← List.map_append,← List.filter_append,List.take_append_drop]
  rw [← happ,List.append_eq_nil_iff]
private theorem FuncDef.length_positional : d.positional.length = d.sig.nPosCap := by
  rw [d.positional_eq,d.sig_eq,List.length_take,List.length_map,
    Nat.min_eq_left List.countP_le_length]

private theorem FuncDef.keywordFits_iff (kw : String) :
    KeywordFits d.sig (d.bound pos) kw ↔
      (kw ∈ d.keywords ∨ d.hasKind .starStar = true) ∧
        (kw ∈ d.keywords → kw ∉ d.positional.take pos.length) := by
  have hstar : d.sig.starstar = d.hasKind .starStar := by rw [d.sig_eq]
  cases hi : d.sig.keywordIndex kw with
  | none =>
    have hnot := d.keywordIndex_eq_none.mp hi
    simp [KeywordFits,hi,hnot,hstar]
  | some i =>
    have hin : kw ∈ d.keywords := by
      by_contra hcon
      rw [d.keywordIndex_eq_none.mpr hcon] at hi
      cases hi
    obtain ⟨_,hname⟩ := d.keywordIndex_eq_some.mp hi
    have htake : kw ∈ d.positional.take pos.length ↔ i < d.bound pos := by
      rw [d.positional_eq,List.take_take]
      have hcap : d.named.countP Param.isPositional = d.sig.nPosCap := by
        rw [d.sig_eq]
      rw [hcap,← FuncDef.bound]
      rw [List.mem_take_iff_getElem]
      constructor
      · rintro ⟨k,hk,heq⟩
        have hki := d.index_unique (List.getElem?_eq_some_iff.mpr ⟨by omega,heq⟩) hname
        omega
      · intro hlt
        obtain ⟨hi,heq⟩ := List.getElem?_eq_some_iff.mp hname
        exact ⟨i,by omega,heq⟩
    simp [KeywordFits,hi,hin,htake]

private theorem FuncDef.posOnlyViolations_eq_nil
    (hfits : ∀ kw ∈ kws, KeywordFits d.sig (d.bound pos) kw.1)
    (hstar : d.sig.starstar = false) :
    posOnlyViolations d.sig kws = [] := by
  rw [posOnlyViolations,List.map_eq_nil_iff,List.filter_eq_nil_iff]
  intro p hp
  simp only [List.any_eq_true,decide_eq_true_eq,not_exists,not_and]
  intro kw hkw hname
  rw [d.sig_eq] at hp
  obtain ⟨j,hlt,rfl⟩ := List.mem_take_iff_getElem.mp hp
  have hj : (d.named.map Param.name)[j]? = some kw.1 := by
    rw [hname,List.getElem?_map,List.getElem?_eq_getElem]
    rfl
  have hnone : d.sig.keywordIndex kw.1 = none := by
    cases hi : d.sig.keywordIndex kw.1 with
    | none => rfl
    | some i =>
      obtain ⟨hge,hi'⟩ := d.keywordIndex_eq_some.mp hi
      have hij := d.index_unique hi' hj
      rw [d.sig_eq] at hge
      omega
  have htrue := (hfits kw hkw).1 hnone
  rw [hstar] at htrue
  cases htrue

private theorem FuncDef.extra_iff :
    ¬ (pos.drop (d.bound pos) ≠ [] ∧ d.sig.star = false) ↔
      (pos.length ≤ d.positional.length ∨ d.hasKind .star = true) := by
  have hstar : d.sig.star = d.hasKind .star := by rw [d.sig_eq]
  have hdrop : pos.drop (d.bound pos) ≠ [] ↔ ¬ pos.length ≤ d.positional.length := by
    rw [ne_eq,List.drop_eq_nil_iff,d.length_positional,FuncDef.bound]
    omega
  rw [hdrop,hstar]
  by_cases hle : pos.length ≤ d.positional.length <;> cases d.hasKind .star <;> simp [hle]

private theorem FuncDef.finalArgs_eq (hkw : (kws.map Prod.fst).Nodup)
    (hfits : ∀ kw ∈ kws, KeywordFits d.sig (d.bound pos) kw.1) :
    finalArgs (pos.drop (d.bound pos))
        (kws.filter fun kw => (d.sig.keywordIndex kw.1).isNone) d.params
        (fillDefaults d.named (fillKeywords d.sig
          (positionalSlots d.named.length (pos.take (d.bound pos))) kws)) =
      d.params.map (pyArgument d pos kws) := by
  rw [d.filled_eq hkw hfits,FuncDef.named,finalArgs_named]
  apply List.map_congr_left
  intro p _
  have hextra : pos.drop (d.bound pos) = pos.drop d.positional.length := by
    rw [d.length_positional,FuncDef.bound]
    rcases Nat.le_total pos.length d.sig.nPosCap with hle | hle
    · rw [Nat.min_eq_left hle,List.drop_length,List.drop_eq_nil_of_le hle]
    · rw [Nat.min_eq_right hle]
  have hrest : (kws.filter fun kw => (d.sig.keywordIndex kw.1).isNone) =
      kws.filter fun kw => !d.keywords.contains kw.1 := by
    apply List.filter_congr
    intro kw _
    rw [Bool.eq_iff_iff,Option.isNone_iff_eq_none,d.keywordIndex_eq_none]
    simp
  cases hk : p.kind with
  | star => simp [pyArgument,hk,hextra]
  | starStar => simp [pyArgument,hk,hrest]
  | posOnly | plain | kwOnly =>
    exact (pyArgument_named d pos kws (by simp [Param.isNamed,hk])).symm

/-- The algorithm succeeds exactly when the keywords fit, the positional arguments have room
and every slot gets a value, and then passes what the calling convention prescribes. -/
theorem FuncDef.bindArgs_eq_ok (hkw : (kws.map Prod.fst).Nodup)
    (r : List (Option (Passed α))) :
    bindArgs d.params d.sig pos kws = .ok r ↔
      (∀ kw ∈ kws, KeywordFits d.sig (d.bound pos) kw.1) ∧
        (pos.length ≤ d.positional.length ∨ d.hasKind .star = true) ∧
        (∀ p ∈ d.named, (pySlot d pos kws p).isSome) ∧
        r = d.params.map (pyArgument d pos kws) := by
  have hnamed : d.sig.named = d.named := by rw [d.sig_eq]
  by_cases hfits : ∀ kw ∈ kws, KeywordFits d.sig (d.bound pos) kw.1
  · have hviol : ¬ (d.sig.starstar = false ∧
        posOnlyViolations d.sig kws ≠ []) := by
      rintro ⟨hs,hne⟩
      exact hne (d.posOnlyViolations_eq_nil hfits hs)
    obtain ⟨n,hn⟩ := bindKeywords_ok hfits
      { slot := positionalSlots d.named.length (pos.take (d.bound pos)) }
    have hmissing : ∀ slot : List (Option α),
        (missingNames ((d.named.zip slot).take d.sig.nPosCap) = [] ∧
          missingNames ((d.named.zip slot).drop d.sig.nPosCap) = []) ↔
        ∀ v ∈ fillDefaults d.named slot, v.isSome := by
      intro slot
      rw [missingNames_take_drop,missingNames_eq_nil]
    have hall := hmissing (fillKeywords d.sig
      (positionalSlots d.named.length (pos.take (d.bound pos))) kws)
    rw [d.filled_eq hkw hfits,List.forall_mem_map] at hall
    simp only [bindArgs,if_neg hviol,hnamed]
    rw [← FuncDef.bound,hn]
    simp only [finishBind,hnamed,List.nil_append]
    rw [← FuncDef.bound,d.finalArgs_eq hkw hfits,← d.extra_iff,← hall]
    by_cases hextra : pos.drop (d.bound pos) ≠ [] ∧ d.sig.star = false
    · simp [hextra]
    · rw [if_neg hextra]
      simp only [hextra,not_false_eq_true,true_and,and_assoc]
      split_ifs with h₁ h₂
      · simp [h₁]
      · simp [h₂]
      · simp only [ne_eq,not_not] at h₁ h₂
        constructor
        · intro h
          exact ⟨hfits,h₁,h₂,(Except.ok.inj h).symm⟩
        · rintro ⟨-,-,-,rfl⟩
          rfl
  · have hfail : ∃ e, bindArgs d.params d.sig pos kws = .error e := by
      obtain ⟨kw,hmem,hnot⟩ : ∃ kw ∈ kws,
          ¬ KeywordFits d.sig (d.bound pos) kw.1 := by
        simpa using hfits
      obtain ⟨e,he⟩ := bindKeywords_error hmem hnot
        { slot := positionalSlots d.named.length (pos.take (d.bound pos)) }
      simp only [bindArgs,hnamed]
      split_ifs with hv
      · exact ⟨_,rfl⟩
      · rw [← FuncDef.bound,he]
        exact ⟨e,rfl⟩
    obtain ⟨e,he⟩ := hfail
    rw [he]
    constructor
    · intro h
      cases h
    · intro h
      exact absurd h.1 hfits

private theorem mapM_eq_some {f : β → Option γ} {r : List γ} :
    l.mapM f = some r ↔ l.map f = r.map some := by
  induction l generalizing r with
  | nil => cases r <;> simp
  | cons a l ih =>
    rw [List.mapM_cons]
    cases r with
    | nil => simp [Option.bind_eq_some_iff]
    | cons b r =>
      simp only [Option.bind_eq_bind,Option.bind_eq_some_iff,ih,List.map_cons,List.cons.injEq]
      constructor
      · rintro ⟨b',ha,r',hl,heq⟩
        cases heq
        exact ⟨ha,hl⟩
      · rintro ⟨ha,hl⟩
        exact ⟨b,ha,r,hl,rfl⟩

private theorem exists_map_some {l : List (Option β)} (h : ∀ a ∈ l, a.isSome) :
    ∃ r : List β, l = r.map some := by
  induction l with
  | nil => exact ⟨[],rfl⟩
  | cons a l ih =>
    obtain ⟨v,rfl⟩ := Option.isSome_iff_exists.mp (h a (by simp))
    obtain ⟨r,rfl⟩ := ih fun b hb => h b (by simp [hb])
    exact ⟨v :: r,rfl⟩

private theorem FuncDef.bindArgs_iff_pyBind (hkw : (kws.map Prod.fst).Nodup)
    (r : List (Option (Passed α))) :
    bindArgs d.params d.sig pos kws = .ok r ↔
      ∃ py, pyBind d pos kws = some py ∧ r = py.map some := by
  have hfits : (∀ kw ∈ kws, KeywordFits d.sig (d.bound pos) kw.1) ↔
      (∀ kw ∈ kws, kw.1 ∈ d.keywords ∨ d.hasKind .starStar = true) ∧
        (∀ kw ∈ kws, kw.1 ∈ d.keywords → kw.1 ∉ d.positional.take pos.length) := by
    simp only [d.keywordFits_iff,forall₂_and]
  rw [d.bindArgs_eq_ok hkw,hfits]
  constructor
  · rintro ⟨⟨hknown,honce⟩,hroom,hall,rfl⟩
    have hsome : ∀ a ∈ d.params.map (pyArgument d pos kws), a.isSome := by
      rw [List.forall_mem_map]
      intro p hp
      by_cases hn : p.isNamed = true
      · rw [pyArgument_named d pos kws hn,Option.isSome_map]
        exact hall p (List.mem_filter.mpr ⟨hp,hn⟩)
      · cases hk : p.kind <;> simp [Param.isNamed,hk] at hn <;> simp [pyArgument,hk]
    obtain ⟨py,hpy⟩ := exists_map_some hsome
    exact ⟨py,by rw [pyBind,if_pos ⟨hroom,hknown,honce⟩,mapM_eq_some,hpy],hpy⟩
  · rintro ⟨py,hpy,rfl⟩
    rw [pyBind] at hpy
    split_ifs at hpy with hcond
    rw [mapM_eq_some] at hpy
    refine ⟨⟨hcond.2.1,hcond.2.2⟩,hcond.1,?_,hpy.symm⟩
    intro p hp
    obtain ⟨hp,hn⟩ := List.mem_filter.mp hp
    have hmem : pyArgument d pos kws p ∈ py.map some := hpy ▸ List.mem_map_of_mem hp
    obtain ⟨v,_,hv⟩ := List.mem_map.mp hmem
    rw [pyArgument_named d pos kws hn] at hv
    cases hs : pySlot d pos kws p with
    | none => simp [hs] at hv
    | some w => rfl

end Def

/-! ## The two binders -/

def positionalArgs (args : List (Arg α)) : List α :=
  args.filterMap fun a => if a.name.isNone then some a.value else none
def keywordArgs (args : List (Arg α)) : List (String × α) :=
  args.filterMap fun a => a.name.map fun n => (n, a.value)

section Def
variable (d : FuncDef α) (args : List (Arg α))

private theorem find?_name {l : List (Param β)} (h : (l.map Param.name).Nodup) {p : Param β}
    (hp : p ∈ l) : (l.find? fun q => q.name = p.name) = some p := by
  induction l with
  | nil => simp at hp
  | cons q l ih =>
    obtain ⟨hq,hl⟩ := List.nodup_cons.mp h
    rcases List.mem_cons.mp hp with rfl | hp
    · simp
    · have hne : q.name ≠ p.name := by
        intro heq
        exact hq (heq ▸ List.mem_map_of_mem hp)
      rw [List.find?_cons_of_neg (by simpa using hne),ih hl hp]

private theorem FuncDef.compileParams_eval :
    d.compileParams.map (Param.map (ArgExpr.eval d args)) = d.params.map (Param.map some) := by
  rw [FuncDef.compileParams,List.map_map]
  apply List.map_congr_left
  intro p hp
  have hfind := find?_name d.distinct hp
  cases hd : p.dflt with
  | none => simp [Param.map,hd]
  | some v => simp [Param.map,hd,ArgExpr.eval,hfind]

private theorem temps_eval {i : Nat} {as : List (Arg α)} (h : args.drop i = as) :
    (evalPositional i as).map (ArgExpr.eval d args) = (positionalArgs as).map some ∧
      ((evalKeywords i as).map fun kw => (kw.1, kw.2.eval d args)) =
        (keywordArgs as).map fun kw => (kw.1, some kw.2) := by
  induction as generalizing i with
  | nil => exact ⟨rfl,rfl⟩
  | cons a as ih =>
    have hi : args[i]? = some a := by rw [← List.head?_drop,h]; rfl
    have hrest : args.drop (i + 1) = as := by rw [← List.tail_drop,h]; rfl
    obtain ⟨hpos,hkws⟩ := ih hrest
    cases hn : a.name with
    | none =>
      simp [evalPositional,evalKeywords,positionalArgs,keywordArgs,hn,ArgExpr.eval,hi] at hpos hkws ⊢
      exact ⟨hpos,hkws⟩
    | some n =>
      simp [evalPositional,evalKeywords,positionalArgs,keywordArgs,hn,ArgExpr.eval,hi] at hpos hkws ⊢
      exact ⟨hpos,hkws⟩

private theorem FuncDef.functionObject_param (hj : d.params[j]? = some p) :
    d.functionObject.param j = p := by
  have hdflt : d.functionObject.dflt j = p.dflt := by
    simp only [FunctionObject.dflt,FuncDef.functionObject]
    by_cases hany : d.params.any fun p => p.dflt.isSome
    · simp [hany,hj]
    · have hnone : p.dflt = none := by
        have hp := List.mem_of_getElem? hj
        simp only [List.any_eq_true,not_exists,not_and] at hany
        simpa using hany p hp
      simp [hany,hnone]
  have hget : d.functionObject.params.getD j ("", .plain) = (p.name, p.kind) := by
    simp [FuncDef.functionObject,List.getD,hj]
  simp only [FunctionObject.param,hget,hdflt]

private theorem FuncDef.functionObject_params :
    (List.range d.functionObject.params.length).map d.functionObject.param = d.params := by
  have hlen : d.functionObject.params.length = d.params.length := by
    simp [FuncDef.functionObject]
  apply List.ext_getElem?
  intro j
  rw [hlen,List.getElem?_map]
  cases hj : d.params[j]? with
  | none =>
    have hge : d.params.length ≤ j := List.getElem?_eq_none_iff.mp hj
    simp [hge]
  | some p =>
    have hlt : j < d.params.length := (List.getElem?_eq_some_iff.mp hj).1
    simp [hlt,d.functionObject_param hj]

private theorem FuncDef.bind_functionObject (pos : List α) (kws : List (String × α)) :
    d.functionObject.bind pos kws = bindArgs d.params d.sig pos kws := by
  have hsig : d.functionObject.signature = d.sig := by
    rw [FunctionObject.signature,FuncDef.sig,splitSig,← List.foldl_map,d.functionObject_params]
  rw [FunctionObject.bind,hsig,d.functionObject_params]

private theorem FuncDef.bindArgs_direct {pos : List α} (hstar : d.sig.star = false)
    (hstarstar : d.sig.starstar = false)
    (hnamed : d.sig.nPosCap = d.sig.named.length)
    (hlen : pos.length = d.sig.nPosCap) :
    bindArgs d.params d.sig pos [] = .ok (pos.map fun v => some (.value v)) := by
  have hparams : d.named = d.params := by
    rw [FuncDef.named,List.filter_eq_self]
    rw [d.sig_eq] at hstar hstarstar
    intro p hp
    have hkind : ∀ k, d.hasKind k = false → p.kind ≠ k := fun k h =>
      by simpa using List.any_eq_false.mp h p hp
    have hstar := hkind .star hstar
    have hstarstar := hkind .starStar hstarstar
    cases hk : p.kind <;> simp_all [Param.isNamed]
  have hcap : d.sig.nPosCap = d.named.length := by
    rw [hnamed,d.sig_eq]
  have hslot : ∀ j p, d.named[j]? = some p →
      pySlot d pos [] p = pos[j]? ∧ j < pos.length := by
    intro j p hj
    have hlt : j < d.named.length := (List.getElem?_eq_some_iff.mp hj).1
    have hjp : j < pos.length := by omega
    have hpos := (d.lt_nPosCap_iff hj).mp (by omega)
    refine ⟨?_,hjp⟩
    have hidx := d.idxOf_positional hj hpos
    have hget : pos[j]? = some pos[j] := List.getElem?_eq_getElem hjp
    cases hk : p.kind <;> simp [Param.isPositional,hk] at hpos <;>
      simp [pySlot,hk,hidx,hget]
  rw [d.bindArgs_eq_ok (by simp)]
  refine ⟨by simp,Or.inl (by rw [d.length_positional]; omega),?_,?_⟩
  · intro p hp
    obtain ⟨j,hj⟩ := List.mem_iff_getElem?.mp hp
    obtain ⟨heq,hlt⟩ := hslot j p hj
    rw [heq,List.getElem?_eq_getElem hlt]
    rfl
  · apply List.ext_getElem?
    intro j
    rw [List.getElem?_map,List.getElem?_map,← hparams]
    cases hj : d.named[j]? with
    | none =>
      have hge : d.named.length ≤ j := List.getElem?_eq_none_iff.mp hj
      have hge' : pos.length ≤ j := by omega
      simp [hge']
    | some p =>
      obtain ⟨heq,hlt⟩ := hslot j p hj
      have hp : p.isNamed = true := List.of_mem_filter (List.mem_of_getElem? hj)
      rw [Option.map_some,pyArgument_named d pos [] hp,heq,List.getElem?_eq_getElem hlt]
      rfl

/-- What the compile-time binder emits, read through the values of the temporaries and of the
default variables, is what the run-time binder computes. -/
theorem FuncDef.userCall_eval :
    (userCall d args).map (mapArgs (ArgExpr.eval d args)) =
      (d.functionObject.bind (positionalArgs args) (keywordArgs args)).map (mapArgs some) := by
  obtain ⟨hpos,hkws⟩ := temps_eval d args (List.drop_zero : args.drop 0 = args)
  have hsig : (splitSig d.compileParams).map (ArgExpr.eval d args) =
      d.sig.map some := by
    rw [← splitSig_map,← splitSig_map,d.compileParams_eval]
  have hgeneral : (bindArgs d.compileParams (splitSig d.compileParams) (evalPositional 0 args)
        (evalKeywords 0 args)).map (mapArgs (ArgExpr.eval d args)) =
      (d.functionObject.bind (positionalArgs args) (keywordArgs args)).map (mapArgs some) := by
    rw [← bindArgs_map,d.compileParams_eval,hsig,hpos,hkws,bindArgs_map,
      d.bind_functionObject]
  simp only [userCall]
  split_ifs with hdirect
  · obtain ⟨hkw,-,hstar,hstarstar,hcap,hlen⟩ := hdirect
    have hnames : ∀ a ∈ args, a.name = none := by
      intro a ha
      simp only [List.any_eq_false] at hkw
      simpa using hkw a ha
    have hargs : keywordArgs args = [] := by
      rw [keywordArgs,List.filterMap_eq_nil_iff]
      intro a ha
      simp [hnames a ha]
    have hposlen : (positionalArgs args).length = args.length := by
      rw [positionalArgs,List.filterMap_length_eq_length]
      intro a ha
      simp [hnames a ha]
    have hs := congrArg Signature.star hsig
    have hss := congrArg Signature.starstar hsig
    have hc := congrArg Signature.nPosCap hsig
    have hn := congrArg (fun s => s.named.length) hsig
    simp only [Signature.map,List.length_map] at hs hss hc hn
    rw [d.bind_functionObject,hargs,
      d.bindArgs_direct (hs ▸ hstar) (hss ▸ hstarstar) (by omega) (by omega)]
    simp only [Except.map,mapArgs_values,hpos]
  · exact hgeneral

end Def

/-- The compile-time and the run-time binder agree on every def and every call with distinct
keywords: both pass the same values or fail with the same error, and they bind exactly when
the calling convention does, with the values it prescribes. -/
theorem binders_agree (d : FuncDef α) (args : List (Arg α))
    (hkw : ((keywordArgs args).map Prod.fst).Nodup) :
    (userCall d args).map (mapArgs (ArgExpr.eval d args)) =
        (d.functionObject.bind (positionalArgs args) (keywordArgs args)).map (mapArgs some) ∧
      ∀ r, d.functionObject.bind (positionalArgs args) (keywordArgs args) = .ok r ↔
        ∃ py, pyBind d (positionalArgs args) (keywordArgs args) = some py ∧ r = py.map some := by
  refine ⟨d.userCall_eval args,?_⟩
  intro r
  rw [d.bind_functionObject]
  exact d.bindArgs_iff_pyBind hkw r

def mixedDef : FuncDef Nat :=
  { name := "f"
    params := [⟨"a", .posOnly, none⟩, ⟨"b", .plain, none⟩, ⟨"rest", .star, none⟩,
      ⟨"c", .kwOnly, some 30⟩, ⟨"kw", .starStar, none⟩]
    ordered := by decide
    distinct := by decide }
def mixedCall : List (Arg Nat) := [⟨none, 1⟩, ⟨some "b", 2⟩, ⟨some "a", 9⟩]

theorem mixedCall_binds :
    (userCall mixedDef mixedCall).map (mapArgs (ArgExpr.eval mixedDef mixedCall)) =
        (mixedDef.functionObject.bind [1] [("b", 2), ("a", 9)]).map (mapArgs some) ∧
      mixedDef.functionObject.bind [1] [("b", 2), ("a", 9)] =
        .ok [some (.value 1), some (.value 2), some (.tuple []), some (.value 30),
          some (.dict [("a", 9)])] := by
  have h := binders_agree mixedDef mixedCall (by decide)
  exact ⟨h.1,(h.2 _).mpr ⟨_,rfl,rfl⟩⟩

end Unagi.Calls
