import Unagi.Objects.KeyCode
import Unagi.Partition.Decision

/-! # What the decision hash tells apart

The text under the hash can be read back into the fields that it is written from, as long as the
names in it do not blur the separators. -/

namespace Unagi.Partition

open Lib
open Objects (Bytes ascii intDecimalLoose isNumberChar_intDecimal intDecimalLoose_injective)

/-- Texts are compared byte by byte. -/
scoped instance : LinearOrder Bytes where
  le_refl := List.le_refl
  le_trans _ _ _ := List.le_trans
  le_antisymm _ _ := List.le_antisymm
  le_total := List.le_total
  lt_iff_le_not_ge _ _ := by
    rw [List.not_le]
    exact ⟨fun h => ⟨List.le_of_lt h, h⟩, fun h => h.2⟩
  toDecidableLE := inferInstance
  compare a b := compareOfLessAndEq a b
  compare_eq_compareOfLessAndEq _ _ := rfl

structure Hashed where
  key : Bytes
  state : State
  score : Score
  reasons : List (Bytes × Span)
  guards : List (GuardKind × Span × FailureEdge)
  deopts : List (Int × Span × Nat)
deriving DecidableEq

structure Relevant where
  key : Bytes
  state : State
  score : Score
  reasons : List Reason
  guards : List Guard
  deopts : List DeoptSite
deriving DecidableEq

namespace Decision

def hashed (d : Decision) : Hashed where
  key := d.key
  state := d.state
  score := d.score
  reasons := d.reasons.map fun r => (r.rule, r.span)
  guards := d.guards.map fun g => (g.kind, g.site, g.edge)
  deopts := d.deopts.map fun s => (s.resume.id, s.resume.site, s.liveCount)

def relevant (d : Decision) : Relevant where
  key := d.key
  state := d.state
  score := d.score
  reasons := d.reasons
  guards := d.guards
  deopts := d.deopts

/-- The texts of a decision without the separators that would blur them. -/
structure Separable (d : Decision) : Prop where
  unit : '|'.toUInt8 ∉ d.unit.module ∧ '|'.toUInt8 ∉ d.unit.name
  rules : ∀ r ∈ d.reasons, '@'.toUInt8 ∉ r.rule ∧ ';'.toUInt8 ∉ r.rule ∧ '|'.toUInt8 ∉ r.rule
  reasonFiles : ∀ r ∈ d.reasons, ';'.toUInt8 ∉ r.span.file
  guardFiles : ∀ g ∈ d.guards, ';'.toUInt8 ∉ g.site.file
  deoptFiles : ∀ s ∈ d.deopts, ';'.toUInt8 ∉ s.resume.site.file

end Decision

theorem not_mem_number {c : UInt8} (h : c ≠ '-'.toUInt8 ∧ ∀ d < 16, c ≠ Objects.digitChar d)
    (n : Int) : c ∉ intDecimalLoose n := by
  intro hc
  rcases isNumberChar_intDecimal hc with hminus | ⟨d,hd,hdigit⟩
  · exact h.1 hminus
  · exact h.2 d hd hdigit

theorem State.text_injective : Function.Injective State.text := by
  intro s t h
  cases s <;> cases t <;> first | rfl | exact absurd h (by decide)
theorem GuardKind.text_injective : Function.Injective GuardKind.text := by
  intro s t h
  cases s <;> cases t <;> first | rfl | exact absurd h (by decide)
theorem FailureEdge.text_injective : Function.Injective FailureEdge.text := by
  intro s t h
  cases s <;> cases t <;> first | rfl | exact absurd h (by decide)

theorem Span.text_injective : Function.Injective Span.text := by
  have hcolon : ∀ n, ':'.toUInt8 ∉ intDecimalLoose n := not_mem_number (by decide)
  have hnone : ∀ {s : Span} {l r : Bytes}, s.isZero = true → s.text ≠ l ++ ':'.toUInt8 :: r := by
    intro s l r hs h
    rw [Span.text,if_pos hs] at h
    have hmem : ':'.toUInt8 ∈ ascii "<none>" := h ▸ List.mem_append_right l List.mem_cons_self
    exact absurd hmem (by decide)
  intro s t h
  by_cases hs : s.isZero = true
  · by_cases ht : t.isZero = true
    · simp only [Span.isZero,Bool.and_eq_true,decide_eq_true_eq] at hs ht
      cases s
      cases t
      simp_all
    · rw [Span.text.eq_def t,if_neg ht] at h
      exact absurd h (hnone hs)
  · by_cases ht : t.isZero = true
    · rw [Span.text.eq_def s,if_neg hs] at h
      exact absurd h.symm (hnone ht)
    · rw [Span.text,if_neg hs,Span.text,if_neg ht] at h
      rw [← List.cons_append,← List.append_assoc,← List.cons_append,← List.append_assoc] at h
      obtain ⟨hfile,hcol⟩ := split_at_last (hcolon _) (hcolon _) h
      obtain ⟨hfile,hline⟩ := split_at_last (hcolon _) (hcolon _) hfile
      cases s
      cases t
      simp_all [intDecimalLoose_injective.eq_iff]

theorem Span.not_mem_text {s : Span} (h : ';'.toUInt8 ∉ s.file) : ';'.toUInt8 ∉ s.text := by
  have hnumber : ∀ n, ';'.toUInt8 ∉ intDecimalLoose n := not_mem_number (by decide)
  unfold Span.text
  split
  · decide
  · simp only [List.mem_append,List.mem_cons,not_or]
    exact ⟨h,by decide,hnumber _,by decide,hnumber _⟩

/-! ## Records -/

theorem map_eq_of_map_eq {α β γ : Type} {f : α → β} {g : α → γ} {l l' : List α}
    (h : ∀ a ∈ l, ∀ b ∈ l', f a = f b → g a = g b) (heq : l.map f = l'.map f) :
    l.map g = l'.map g := by
  induction l generalizing l' with
  | nil =>
    rw [List.map_nil,eq_comm,List.map_eq_nil_iff] at heq
    rw [heq]
  | cons a l ih =>
    cases l' with
    | nil => exact nomatch heq
    | cons b l' =>
      obtain ⟨hhead,htail⟩ := List.cons.inj heq
      rw [List.map_cons,List.map_cons,h a List.mem_cons_self b List.mem_cons_self hhead]
      exact congrArg _ (ih (fun a ha b hb => h a (List.mem_cons_of_mem _ ha) b
        (List.mem_cons_of_mem _ hb)) htail)

namespace Decision

theorem reasonText_eq {r r' : Reason} (h : '@'.toUInt8 ∉ r.rule) (h' : '@'.toUInt8 ∉ r'.rule)
    (heq : reasonText r = reasonText r') : (r.rule, r.span) = (r'.rule, r'.span) := by
  obtain ⟨hrule,hspan⟩ := split_at_separator h h' heq
  rw [hrule,Span.text_injective hspan]

theorem guardText_eq {g g' : Guard} (heq : guardText g = guardText g') :
    (g.kind, g.site, g.edge) = (g'.kind, g'.site, g'.edge) := by
  have hkind : ∀ k : GuardKind, '@'.toUInt8 ∉ k.text := by
    intro k
    cases k <;> decide
  have hedge : ∀ e : FailureEdge, '>'.toUInt8 ∉ e.text := by
    intro e
    cases e <;> decide
  obtain ⟨h₁,hrest⟩ := split_at_separator (hkind _) (hkind _) heq
  obtain ⟨h₂,h₃⟩ := split_at_last (hedge _) (hedge _) hrest
  rw [GuardKind.text_injective h₁,Span.text_injective h₂,FailureEdge.text_injective h₃]

theorem deoptText_eq {s s' : DeoptSite} (heq : deoptText s = deoptText s') :
    (s.resume.id, s.resume.site, s.liveCount) = (s'.resume.id, s'.resume.site, s'.liveCount) := by
  have hat : ∀ n, '@'.toUInt8 ∉ intDecimalLoose n := not_mem_number (by decide)
  have hsharp : ∀ n, '#'.toUInt8 ∉ intDecimalLoose n := not_mem_number (by decide)
  obtain ⟨h₁,hrest⟩ := split_at_separator (hat _) (hat _) (List.cons.inj heq).2
  obtain ⟨h₂,h₃⟩ := split_at_last (hsharp _) (hsharp _) hrest
  rw [intDecimalLoose_injective h₁,Span.text_injective h₂,
    Int.ofNat_inj.mp (intDecimalLoose_injective h₃)]

namespace Separable
variable {d : Decision} (h : d.Separable)

include h in
theorem bar_not_mem_key : '|'.toUInt8 ∉ d.key := by
  have hnumber : ∀ n, '|'.toUInt8 ∉ intDecimalLoose n := not_mem_number (by decide)
  simp only [key,Unit.key,List.mem_append,List.mem_cons,not_or]
  exact ⟨h.unit.1,by decide,h.unit.2,by decide,hnumber _⟩

include h in
theorem reasonTexts : ∀ t ∈ d.reasons.map reasonText,
    ';'.toUInt8 ∉ t ∧ '|'.toUInt8 ∉ (t ++ [';'.toUInt8]).head? := by
  intro t ht
  obtain ⟨r,hr,rfl⟩ := List.mem_map.mp ht
  obtain ⟨-,hsemi,hbar⟩ := h.rules r hr
  constructor
  · simp only [reasonText,List.mem_append,List.mem_cons,not_or]
    exact ⟨hsemi,by decide,Span.not_mem_text (h.reasonFiles r hr)⟩
  · rw [reasonText]
    cases hrule : r.rule with
    | nil => exact fun hc => absurd (Option.some.inj hc) (by decide)
    | cons c cs =>
      rw [hrule] at hbar
      exact fun hc => hbar (Option.some.inj hc ▸ List.mem_cons_self)

include h in
theorem guardTexts : ∀ t ∈ d.guards.map guardText,
    ';'.toUInt8 ∉ t ∧ '|'.toUInt8 ∉ (t ++ [';'.toUInt8]).head? := by
  intro t ht
  obtain ⟨g,hg,rfl⟩ := List.mem_map.mp ht
  have hsite := Span.not_mem_text (h.guardFiles g hg)
  constructor
  · simp only [guardText,List.mem_append,List.mem_cons,not_or]
    refine ⟨?_,by decide,hsite,by decide,?_⟩
    · cases g.kind <;> decide
    · cases g.edge <;> decide
  · rw [guardText]
    cases g.kind <;> exact fun hc => absurd (Option.some.inj hc) (by decide)

include h in
theorem deoptTexts : ∀ t ∈ d.deopts.map deoptText,
    ';'.toUInt8 ∉ t ∧ '\n'.toUInt8 ∉ (t ++ [';'.toUInt8]).head? := by
  intro t ht
  obtain ⟨s,hs,rfl⟩ := List.mem_map.mp ht
  have hnumber : ∀ n, ';'.toUInt8 ∉ intDecimalLoose n := not_mem_number (by decide)
  have hsite := Span.not_mem_text (h.deoptFiles s hs)
  constructor
  · simp only [deoptText,List.mem_append,List.mem_cons,not_or]
    exact ⟨by decide,hnumber _,by decide,hsite,by decide,hnumber _⟩
  · exact fun hc => absurd (Option.some.inj hc) (by decide)

end Separable

theorem record_append {d d' : Decision} (h : d.Separable) (h' : d'.Separable) {r r' : Bytes}
    (heq : d.record ++ r = d'.record ++ r') : d.hashed = d'.hashed ∧ r = r' := by
  have hstate : ∀ s : State, '|'.toUInt8 ∉ s.text := by
    intro s
    cases s <;> decide
  have hcomma : ∀ n, ','.toUInt8 ∉ intDecimalLoose n := not_mem_number (by decide)
  have hbar : ∀ n, '|'.toUInt8 ∉ intDecimalLoose n := not_mem_number (by decide)
  simp only [record,List.append_assoc,List.cons_append,List.nil_append] at heq
  obtain ⟨hkey,heq⟩ := split_at_separator h.bar_not_mem_key h'.bar_not_mem_key heq
  obtain ⟨hst,heq⟩ := split_at_separator (hstate _) (hstate _) heq
  obtain ⟨hstatic,heq⟩ := split_at_separator (hcomma _) (hcomma _) heq
  obtain ⟨hboxed,heq⟩ := split_at_separator (hbar _) (hbar _) heq
  obtain ⟨hreasons,heq⟩ := terminated_append h.reasonTexts h'.reasonTexts heq
  obtain ⟨hguards,heq⟩ := terminated_append h.guardTexts h'.guardTexts heq
  obtain ⟨hdeopts,heq⟩ := terminated_append h.deoptTexts h'.deoptTexts heq
  refine ⟨?_,heq⟩
  have hscore : d.score = d'.score :=
    Score.ext (intDecimalLoose_injective hstatic) (intDecimalLoose_injective hboxed)
  rw [hashed,hashed,hkey,State.text_injective hst,hscore,
    map_eq_of_map_eq (fun a ha b hb => reasonText_eq (h.rules a ha).1 (h'.rules b hb).1) hreasons,
    map_eq_of_map_eq (fun _ _ _ _ => guardText_eq) hguards,
    map_eq_of_map_eq (fun _ _ _ _ => deoptText_eq) hdeopts]

theorem record_ne_nil (d : Decision) : d.record ≠ [] := by simp [record]

theorem hashed_of_records {ds es : List Decision} (hds : ∀ d ∈ ds, d.Separable)
    (hes : ∀ e ∈ es, e.Separable) (heq : ds.flatMap record = es.flatMap record) :
    ds.map hashed = es.map hashed := by
  induction ds generalizing es with
  | nil =>
    cases es with
    | nil => rfl
    | cons e es => exact absurd heq.symm (by simp [record_ne_nil])
  | cons d ds ih =>
    cases es with
    | nil => exact absurd heq (by simp [record_ne_nil])
    | cons e es =>
      obtain ⟨hd,hds⟩ := List.forall_mem_cons.mp hds
      obtain ⟨he,hes⟩ := List.forall_mem_cons.mp hes
      obtain ⟨hhead,htail⟩ := record_append hd he heq
      rw [List.map_cons,List.map_cons,hhead,ih hds hes htail]

theorem record_of_hashed {d e : Decision} (h : d.hashed = e.hashed) : d.record = e.record := by
  simp only [hashed,Hashed.mk.injEq] at h
  obtain ⟨hkey,hstate,hscore,hreasons,hguards,hdeopts⟩ := h
  have hr : d.reasons.map reasonText = e.reasons.map reasonText :=
    map_eq_of_map_eq (fun a _ b _ h => by simp_all [reasonText]) hreasons
  have hg : d.guards.map guardText = e.guards.map guardText :=
    map_eq_of_map_eq (fun a _ b _ h => by simp_all [guardText]) hguards
  have hs : d.deopts.map deoptText = e.deopts.map deoptText :=
    map_eq_of_map_eq (fun a _ b _ h => by simp_all [deoptText]) hdeopts
  rw [record,record,hkey,hstate,hscore,hr,hg,hs]

end Decision

/-! ## The hash -/

section
variable {δ : Type} {sha256 : Bytes → δ} {ds es : List Decision}

theorem decisionHash_eq_iff (hsha : Function.Injective sha256) (hds : ∀ d ∈ ds, d.Separable)
    (hes : ∀ e ∈ es, e.Separable) (sort : SortBy Decision.key) :
    decisionHash sha256 sort ds = decisionHash sha256 sort es ↔
      (sort.sort ds).map Decision.hashed = (sort.sort es).map Decision.hashed := by
  unfold decisionHash
  rw [hsha.eq_iff]
  constructor
  · exact Decision.hashed_of_records (fun d hd => hds d ((sort.perm ds).mem_iff.mp hd))
      fun e he => hes e ((sort.perm es).mem_iff.mp he)
  · intro h
    have hrecords := map_eq_of_map_eq (fun a _ b _ h => Decision.record_of_hashed h) h
    rw [List.flatMap_def,hrecords,List.flatMap_def]

theorem perm_hashed_of_sort {sort : SortBy Decision.key}
    (h : (sort.sort ds).map Decision.hashed = (sort.sort es).map Decision.hashed) :
    (ds.map Decision.hashed).Perm (es.map Decision.hashed) :=
  ((sort.perm ds).map _).symm.trans (h ▸ (sort.perm es).map _)

theorem exists_sort_hashed (hds : ∀ d ∈ ds, d.Separable) (hes : ∀ e ∈ es, e.Separable)
    (h : (ds.map Decision.hashed).Perm (es.map Decision.hashed)) :
    ∃ sort : SortBy Decision.key,
      (sort.sort ds).map Decision.hashed = (sort.sort es).map Decision.hashed := by
  obtain ⟨sort,hsort⟩ := SortBy.exists_map_sort_eq Decision.key Decision.record
  have hfactors : Function.FactorsThrough (fun d : Decision => toLex (d.key, d.record))
      Decision.hashed := by
    intro d e h
    have hkey : d.key = e.key := congrArg Hashed.key h
    simp only [hkey,Decision.record_of_hashed h]
  obtain ⟨g,hg⟩ := (Function.factorsThrough_iff _).mp hfactors
  have hperm := h.map g
  rw [List.map_map,List.map_map,← hg] at hperm
  refine ⟨sort,Decision.hashed_of_records (fun d hd => hds d ((sort.perm ds).mem_iff.mp hd))
    (fun e he => hes e ((sort.perm es).mem_iff.mp he)) ?_⟩
  rw [List.flatMap_def,hsort ds es hperm,List.flatMap_def]

theorem exists_sort_ne (hne : ds ≠ es) {d e : Decision} (hd : d ∈ ds) (he : e ∈ ds)
    (hkey : d.key = e.key) (hhashed : d.hashed ≠ e.hashed) :
    ∃ sort : SortBy Decision.key,
      (sort.sort ds).map Decision.hashed ≠ (sort.sort es).map Decision.hashed := by
  let S : SortBy Decision.key := SortBy.insertion Decision.key
  obtain ⟨p,q,hp,hq,hps,hqs,hpq⟩ :=
    @SortBy.exists_map_ne _ _ _ _ _ Decision.hashed Hashed.key ds d e hd he hkey hhashed
  by_cases h : p.map Decision.hashed = (S.sort es).map Decision.hashed
  · refine ⟨S.update ds q hq hqs,?_⟩
    simp only [SortBy.update,if_true,if_neg hne.symm]
    exact fun h' => hpq (h.trans h'.symm)
  · refine ⟨S.update ds p hp hps,?_⟩
    simpa only [SortBy.update,if_true,if_neg hne.symm] using h

end

/-- The hash is the same for every order of a list, and for no list that differs in a field that a
build depends on, exactly if the two lists do not differ in such a field while they agree in the
fields under the hash, and units of one key agree in them. -/
theorem decisionHash_identifies {δ : Type} {sha256 : Bytes → δ} (hsha : Function.Injective sha256)
    (ds es : List Decision) (hds : ∀ d ∈ ds, d.Separable) (hes : ∀ e ∈ es, e.Separable) :
    (∀ sort : SortBy Decision.key,
      (ds.Perm es → decisionHash sha256 sort ds = decisionHash sha256 sort es) ∧
      (decisionHash sha256 sort ds = decisionHash sha256 sort es →
        (ds.map Decision.relevant).Perm (es.map Decision.relevant))) ↔
    ((ds.map Decision.hashed).Perm (es.map Decision.hashed) →
      (ds.map Decision.relevant).Perm (es.map Decision.relevant)) ∧
    (ds.Perm es → ds = es ∨ ∀ d ∈ ds, ∀ e ∈ ds, d.key = e.key → d.hashed = e.hashed) := by
  constructor
  · intro h
    constructor
    · intro hperm
      obtain ⟨sort,hsort⟩ := exists_sort_hashed hds hes hperm
      exact (h sort).2 ((decisionHash_eq_iff hsha hds hes sort).mpr hsort)
    · intro hperm
      by_contra hno
      push Not at hno
      obtain ⟨hne,d,hd,e,he,hkey,hhashed⟩ := hno
      obtain ⟨sort,hsort⟩ := exists_sort_ne hne hd he hkey hhashed
      exact hsort ((decisionHash_eq_iff hsha hds hes sort).mp ((h sort).1 hperm))
  · rintro ⟨hfields,hkeys⟩ sort
    rw [decisionHash_eq_iff hsha hds hes sort]
    refine ⟨fun hperm => ?_,fun h => hfields (perm_hashed_of_sort h)⟩
    rcases hkeys hperm with rfl | hkeys
    · rfl
    · exact @SortBy.map_sort_eq _ _ _ _ Decision.hashed Hashed.key ds es sort (hperm.map _) hkeys

def appSpan (line : Int) : Span := ⟨ascii "app.py", line, 1⟩

def appUnit (name : String) (state : State) (reasons : List Reason) (guards : List Guard)
    (deopts : List DeoptSite) : Decision where
  unit := ⟨ascii "app", ascii name, appSpan 1, 0⟩
  state := state
  reasons := reasons
  score := ⟨0, 0⟩
  excursions := 0
  proofs := 0
  guards := guards
  deopts := deopts

def overflowGuard (assumption : String) (hoisted : Bool) : Guard :=
  ⟨.overflow, appSpan 2, ascii assumption, .deopt, 1, true, 0, 0, hoisted⟩

/-- The one live variable of a site, copied into the slot of the frame. -/
def oneVariable (name : String) : DeoptSite :=
  ⟨overflowGuard "n fits" false, ⟨0, appSpan 2, .statement⟩, [⟨0, ascii name, .rebox, .atom .int .plain, false⟩],
    [ascii name], false⟩

/-- Two units have one hash in both orders. -/
theorem two_units_one_hash :
    decisionHash id (SortBy.insertion Decision.key)
        [appUnit "f" .staticProven [] [] [], appUnit "g" .boxedByCost [] [] []] =
      decisionHash id (SortBy.insertion Decision.key)
        [appUnit "g" .boxedByCost [] [] [], appUnit "f" .staticProven [] [] []] := by
  have hf : (appUnit "f" .staticProven [] [] []).Separable :=
    ⟨by decide +kernel,List.forall_mem_nil _,List.forall_mem_nil _,List.forall_mem_nil _,
      List.forall_mem_nil _⟩
  have hg : (appUnit "g" .boxedByCost [] [] []).Separable :=
    ⟨by decide +kernel,List.forall_mem_nil _,List.forall_mem_nil _,List.forall_mem_nil _,
      List.forall_mem_nil _⟩
  refine ((decisionHash_identifies Function.injective_id _ _ ?_ ?_).mpr ?_ _).1 (List.Perm.swap _ _ _)
  · simp only [List.forall_mem_cons]
    exact ⟨hf,hg,List.forall_mem_nil _⟩
  · simp only [List.forall_mem_cons]
    exact ⟨hg,hf,List.forall_mem_nil _⟩
  · refine ⟨fun _ => List.Perm.swap _ _ _,fun _ => .inr ?_⟩
    decide +kernel

/-- Lists that differ in a field that a build depends on and have one text under the hash. -/
def Confused (ds es : List Decision) : Prop :=
  decisionHash id (SortBy.insertion Decision.key) ds =
    decisionHash id (SortBy.insertion Decision.key) es ∧
  ¬ (ds.map Decision.relevant).Perm (es.map Decision.relevant)

/-- Two units of one key have another text in the other order. Another file with separators in its
name in the place of a second reason, other guards, and other deoptimization sites leave the text as
it is. -/
theorem hash_confuses :
    decisionHash id (SortBy.insertion Decision.key)
        [appUnit "f" .staticProven [] [] [], appUnit "f" .boxedByCost [] [] []] ≠
      decisionHash id (SortBy.insertion Decision.key)
        [appUnit "f" .boxedByCost [] [] [], appUnit "f" .staticProven [] [] []] ∧
    Confused
      [appUnit "f" .boxedByCensus [⟨ascii "eval", appSpan 2, .unit, []⟩,
        ⟨ascii "exec", appSpan 3, .unit, []⟩] [] []]
      [appUnit "f" .boxedByCensus
        [⟨ascii "eval", ⟨ascii "app.py:2:1;exec@app.py", 3, 1⟩, .unit, []⟩] [] []] ∧
    Confused [appUnit "f" .staticProven [] [overflowGuard "n fits" true] []]
      [appUnit "f" .staticProven [] [overflowGuard "m fits" false] []] ∧
    Confused [appUnit "f" .staticProven [] [] [oneVariable "n"]]
      [appUnit "f" .staticProven [] [] [oneVariable "m"]] := by
  have hone : ∀ d e : Decision, d.relevant ≠ e.relevant →
      ¬ ([d].map Decision.relevant).Perm ([e].map Decision.relevant) :=
    fun d e hne h => hne (List.singleton_perm_singleton.mp h)
  refine ⟨by decide +kernel,⟨by decide +kernel,hone _ _ ?_⟩,⟨by decide +kernel,hone _ _ ?_⟩,
    by decide +kernel,hone _ _ ?_⟩ <;> decide +kernel

end Unagi.Partition
