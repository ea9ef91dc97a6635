import Unagi.Runtime.JsonText

/-! # Reading back trees

The scanner reads what `dumps` wrote for a tree as the tree with its strings as Go's `range` sees them.
So a tree comes back if and only if no string in it has a surrogate. -/

namespace Unagi.Runtime

open JsonScanner

/-- Trees of None, bools, ints, strings, lists and dicts with distinct string keys. -/
inductive JsonValue.Plain : JsonValue → Prop
  | none : Plain .none
  | bool (b : Bool) : Plain (.bool b)
  | int (n : Int) : Plain (.int n)
  | str (s : List Rune) : Plain (.str s)
  | list (vs : List JsonValue) (items : ∀ v ∈ vs, Plain v) : Plain (.list vs)
  | dict (entries : List (JsonKey × JsonValue)) (keys : ∀ e ∈ entries, ∃ s, e.1 = .str s)
      (distinct : (entries.map Prod.fst).Nodup) (values : ∀ e ∈ entries, Plain e.2) :
      Plain (.dict entries)

def JsonKey.strings : JsonKey → List (List Rune)
  | .str s => [s]
  | _ => []

mutual

def JsonValue.strings : JsonValue → List (List Rune)
  | .str s => [s]
  | .list vs | .tuple vs => itemStrings vs
  | .dict entries => entryStrings entries
  | _ => []

def itemStrings : List JsonValue → List (List Rune)
  | [] => []
  | v :: vs => v.strings ++ itemStrings vs
def entryStrings : List (JsonKey × JsonValue) → List (List Rune)
  | [] => []
  | (k, v) :: entries => k.strings ++ v.strings ++ entryStrings entries

end

variable {s : List Rune} {entries : List (JsonKey × JsonValue)} {p : Rune → Prop} {v : JsonValue}
  {pairs : List (List Rune × JsonValue)}

theorem mem_itemStrings {vs : List JsonValue} : s ∈ itemStrings vs ↔ ∃ v ∈ vs, s ∈ v.strings := by
  induction vs with
  | nil => simp [itemStrings]
  | cons v vs ih =>
    rw [itemStrings,List.mem_append,ih]
    simp only [List.mem_cons,exists_eq_or_imp]

theorem mem_entryStrings :
    s ∈ entryStrings entries ↔ ∃ e ∈ entries, s ∈ e.1.strings ∨ s ∈ e.2.strings := by
  induction entries with
  | nil => simp [entryStrings]
  | cons e entries ih =>
    rw [entryStrings,List.mem_append,List.mem_append,ih]
    simp only [List.mem_cons,exists_eq_or_imp]

/-- All strings of a tree are made of such code points. -/
def JsonValue.Over (p : Rune → Prop) (v : JsonValue) : Prop := ∀ s ∈ v.strings, ∀ r ∈ s, p r

theorem JsonValue.Over.item {vs : List JsonValue} (h : Over p (.list vs)) (hv : v ∈ vs) :
    Over p v := by
  intro s hs
  apply h s
  rw [strings]
  exact mem_itemStrings.mpr ⟨v,hv,hs⟩
theorem JsonValue.Over.value (h : Over p (.dict entries)) {e : JsonKey × JsonValue}
    (he : e ∈ entries) : Over p e.2 := by
  intro s hs
  apply h s
  rw [strings]
  exact mem_entryStrings.mpr ⟨e,he,.inr hs⟩
theorem JsonValue.Over.key (h : Over p (.dict entries)) (he : (.str s, v) ∈ entries) :
    ∀ r ∈ s, p r := by
  apply h s
  rw [strings]
  exact mem_entryStrings.mpr ⟨_,he,.inl (List.mem_singleton_self s)⟩
def JsonKey.readBack : JsonKey → List Rune
  | .str s => goRunes s
  | _ => []

mutual

def JsonValue.readBack : JsonValue → JsonValue
  | .str s => .str (goRunes s)
  | .list vs => .list (readBackItems vs)
  | .dict entries => newDict (readBackEntries entries)
  | v => v

def readBackItems : List JsonValue → List JsonValue
  | [] => []
  | v :: vs => v.readBack :: readBackItems vs
def readBackEntries : List (JsonKey × JsonValue) → List (List Rune × JsonValue)
  | [] => []
  | (k, v) :: entries => (k.readBack, v.readBack) :: readBackEntries entries

end

theorem readBackItems_eq (vs : List JsonValue) : readBackItems vs = vs.map JsonValue.readBack := by
  induction vs with
  | nil => rfl
  | cons v vs ih => rw [readBackItems,ih,List.map_cons]
theorem readBackEntries_eq (entries : List (JsonKey × JsonValue)) :
    readBackEntries entries = entries.map fun e => (e.1.readBack, e.2.readBack) := by
  induction entries with
  | nil => rfl
  | cons e entries ih => rw [readBackEntries,ih,List.map_cons]

theorem foldl_setEntry (h : (entries.map Prod.fst ++ pairs.map fun p => JsonKey.str p.1).Nodup) :
    pairs.foldl (fun entries p => setEntry entries (.str p.1) p.2) entries =
      entries ++ pairs.map fun p => (.str p.1, p.2) := by
  induction pairs generalizing entries with
  | nil => rw [List.map_nil,List.append_nil,List.foldl_nil]
  | cons p pairs ih =>
    have hnew : JsonKey.str p.1 ∉ entries.map Prod.fst := by
      intro hmem
      exact (List.nodup_append.mp h).2.2 _ hmem _ List.mem_cons_self rfl
    rw [List.foldl_cons,setEntry,if_neg hnew,ih,List.append_assoc]
    · rfl
    · rw [List.map_append,List.append_assoc]
      exact h

theorem newDict_eq (h : (pairs.map fun p => JsonKey.str p.1).Nodup) :
    newDict pairs = .dict (pairs.map fun p => (.str p.1, p.2)) := by
  exact congrArg JsonValue.dict (@foldl_setEntry [] pairs h)

theorem forall_foldl_setEntry {p : JsonKey → Prop} {q : JsonValue → Prop}
    (hentries : ∀ e ∈ entries, p e.1 ∧ q e.2) (hpairs : ∀ x ∈ pairs, p (.str x.1) ∧ q x.2) :
    ∀ e ∈ pairs.foldl (fun entries x => setEntry entries (.str x.1) x.2) entries, p e.1 ∧ q e.2 := by
  induction pairs generalizing entries with
  | nil => exact hentries
  | cons x pairs ih =>
    apply ih
    · intro e he
      have hx := hpairs x List.mem_cons_self
      change e ∈ setEntry entries (.str x.1) x.2 at he
      unfold setEntry at he
      split at he
      · obtain ⟨e',he',rfl⟩ := List.mem_map.mp he
        split
        · exact hx
        · exact hentries e' he'
      · rcases List.mem_append.mp he with he | he
        · exact hentries e he
        · rw [List.mem_singleton.mp he]
          exact hx
    · exact fun x' hx' => hpairs x' (List.mem_cons_of_mem x hx')

theorem over_newDict (h : ∀ x ∈ pairs, (∀ r ∈ x.1, p r) ∧ x.2.Over p) : (newDict pairs).Over p := by
  intro s hs
  rw [newDict,JsonValue.strings] at hs
  obtain ⟨e,he,hs⟩ := mem_entryStrings.mp hs
  have hentry : (∀ s ∈ e.1.strings, ∀ r ∈ s, p r) ∧ e.2.Over p := by
    refine @forall_foldl_setEntry [] pairs (fun k => ∀ s ∈ k.strings, ∀ r ∈ s, p r)
      (JsonValue.Over p) (fun e he => nomatch he) ?_ e he
    intro x hx
    refine ⟨?_,(h x hx).2⟩
    intro s hs
    rw [List.mem_singleton.mp hs]
    exact (h x hx).1
  exact hs.elim (hentry.1 s) (hentry.2 s)

theorem over_readBack (hplain : v.Plain) (h : v.Over (· ≤ 0x10FFFF)) :
    v.readBack.Over (isScalar · = true) := by
  induction hplain with
  | none | bool b | int n => exact fun s hs => nomatch hs
  | str s =>
    intro s' hs' r hr
    rw [JsonValue.readBack,JsonValue.strings,List.mem_singleton] at hs'
    subst hs'
    exact isScalar_goRunes (h s (List.mem_singleton_self s)) hr
  | list vs items ih =>
    intro s hs
    rw [JsonValue.readBack,readBackItems_eq,JsonValue.strings] at hs
    obtain ⟨v',hv',hs⟩ := mem_itemStrings.mp hs
    obtain ⟨v,hv,rfl⟩ := List.mem_map.mp hv'
    exact ih v hv (h.item hv) s hs
  | dict entries keys distinct values ih =>
    rw [JsonValue.readBack,readBackEntries_eq]
    apply over_newDict
    intro x hx
    obtain ⟨e,he,rfl⟩ := List.mem_map.mp hx
    obtain ⟨s,hs⟩ := keys e he
    have hmem : (JsonKey.str s, e.2) ∈ entries := by
      rw [← hs]
      exact he
    constructor
    · intro r hr
      rw [hs] at hr
      exact isScalar_goRunes (h.key hmem) hr
    · exact ih e he (h.value he)

theorem readBack_eq (hplain : v.Plain) (h : v.Over (isScalar · = true)) : v.readBack = v := by
  induction hplain with
  | none | bool b | int n => rfl
  | str s => rw [JsonValue.readBack,goRunes_of_scalar (h s (List.mem_singleton_self s))]
  | list vs items ih =>
    rw [JsonValue.readBack,readBackItems_eq,List.map_congr_left fun v hv => ih v hv (h.item hv),
      List.map_id']
  | dict entries keys distinct values ih =>
    have hback : ∀ e ∈ entries, (JsonKey.str e.1.readBack, e.2.readBack) = e := by
      intro e he
      obtain ⟨s,hs⟩ := keys e he
      have hmem : (JsonKey.str s, e.2) ∈ entries := by
        rw [← hs]
        exact he
      rw [ih e he (h.value he),hs,JsonKey.readBack,goRunes_of_scalar (h.key hmem),← hs]
    have hpairs : ((readBackEntries entries).map fun p => (JsonKey.str p.1, p.2)) = entries := by
      rw [readBackEntries_eq,List.map_map]
      exact (List.map_congr_left hback).trans (List.map_id' entries)
    rw [JsonValue.readBack,newDict_eq,hpairs]
    rw [← hpairs,List.map_map] at distinct
    exact distinct

end Unagi.Runtime
