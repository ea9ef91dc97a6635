import Mathlib.Data.List.Perm.Basic

/-! # Sorting a list in place

`listSort` sorts the places of the list, backwards before and after the pass if the order is reversed,
and moves the elements at the end. The keys are computed by calls in between, which may leave the list
shorter than the places. -/

namespace Unagi.Objects

inductive SortStop (E : Type)
  | raise (e : E)
  | panic
deriving DecidableEq

/-- The list, and the cells of the array that the loop over the keys walks along. -/
structure Sorting (α : Type) where
  elts : List α
  cell : Nat → α

structure StrictWeak {ι : Type} (l : List ι) (lt : ι → ι → Bool) : Prop where
  asymm : ∀ a ∈ l, ∀ b ∈ l, lt a b = true → lt b a = false
  trans : ∀ a ∈ l, ∀ b ∈ l, ∀ c ∈ l, lt b a = false → lt c b = false → lt c a = false

structure StableSorted {ι : Type} (lt : ι → ι → Bool) (l p : List ι) : Prop where
  perm : p.Perm l
  sorted : p.Pairwise fun a b => lt b a = false
  stable : ∀ a b, lt a b = false → lt b a = false → [a, b].Sublist l → [a, b].Sublist p

/-- `sort.SliceStable`, with the error of a comparison that fails. -/
structure SliceStable (E : Type) where
  sort : (Nat → Nat → Except E Bool) → List Nat → Except E (List Nat)
  perm : ∀ less l p, sort less l = .ok p → p.Perm l
  stable : ∀ less l lt, (∀ a ∈ l, ∀ b ∈ l, less a b = .ok (lt a b)) → StrictWeak l lt →
    ∃ p, sort less l = .ok p ∧ StableSorted lt l p

section
variable {α E : Type}

/-- A call of the key function, which may do anything to the list. -/
abbrev KeyFn (E α : Type) := α → Sorting α → Except E α × Sorting α

def sortKeys (key : KeyFn E α) :
    Nat → Nat → Sorting α → Except E (List α) × Sorting α
  | 0, _, s => (.ok [], s)
  | left + 1, i, s =>
    match key (s.cell i) s with
    | (.error e, s) => (.error e, s)
    | (.ok k, s) =>
      match sortKeys key left (i + 1) s with
      | (.error e, s) => (.error e, s)
      | (.ok ks, s) => (.ok (k :: ks), s)

def sortKeysOf (keyFn : Option (KeyFn E α)) (s : Sorting α) :
    Except E (List α) × Sorting α :=
  match keyFn with
  | none => (.ok s.elts, s)
  | some key => sortKeys key s.elts.length 0 s
def lessAt (less : α → α → Except E Bool) (keys : List α) (a b : Nat) : Except E Bool :=
  match keys[a]?, keys[b]? with
  | some x, some y => less x y
  | _, _ => .ok false
def turned {β : Type} (reverse : Bool) (l : List β) : List β := if reverse then l.reverse else l

def sortPlaces (S : SliceStable E) (less : α → α → Except E Bool) (reverse : Bool) (n : Nat)
    (keys : List α) (s : Sorting α) : Except (SortStop E) Unit × Sorting α :=
  match S.sort (lessAt less keys) (turned reverse (List.range n)) with
  | .error e => (.error (.raise e), s)
  | .ok perm =>
    match (turned reverse perm).mapM fun p => s.elts[p]? with
    | none => (.error .panic, s)
    | some sorted => (.ok (), { s with elts := sorted ++ s.elts.drop n })

def listSort (S : SliceStable E) (keyFn : Option (KeyFn E α))
    (less : α → α → Except E Bool) (reverse : Bool) (s : Sorting α) :
    Except (SortStop E) Unit × Sorting α :=
  match sortKeysOf keyFn s with
  | (.error e, s) => (.error (.raise e), s)
  | (.ok keys, after) => sortPlaces S less reverse s.elts.length keys after

/-- The list as the sort finds it, with whatever stands behind it in the array. -/
def Sorting.start (l : List α) (rest : Nat → α) : Sorting α := ⟨l, fun i => l.getD i (rest i)⟩

/-- The calls return these keys and do not touch the list. -/
def Untouched (keyFn : Option (KeyFn E α)) (k : α → α) : Prop :=
  match keyFn with
  | none => k = id
  | some key => ∀ e s, key e s = (.ok (k e), s)

theorem sortKeys_untouched {key : KeyFn E α} {k : α → α}
    (h : ∀ e s, key e s = (.ok (k e), s)) (left i : Nat) (s : Sorting α) :
    sortKeys key left i s = (.ok ((List.range' i left).map fun j => k (s.cell j)), s) := by
  induction left generalizing i with
  | zero => rfl
  | succ left ih => simp only [sortKeys,h,ih,List.range'_succ,List.map_cons]

theorem map_start_cell (l : List α) (rest : Nat → α) (k : α → α) :
    (List.range' 0 l.length).map (fun j => k ((Sorting.start l rest).cell j)) = l.map k := by
  apply List.ext_getElem
  · rw [List.length_map,List.length_map,List.length_range']
  · intro i hi hj
    rw [List.length_map] at hj
    simp [Sorting.start,List.getElem?_eq_getElem hj]

theorem sortKeysOf_untouched {keyFn : Option (KeyFn E α)} {k : α → α} (h : Untouched keyFn k)
    (l : List α) (rest : Nat → α) :
    sortKeysOf keyFn (.start l rest) = (.ok (l.map k), .start l rest) := by
  cases keyFn with
  | none =>
    obtain rfl : k = id := h
    rw [List.map_id]
    rfl
  | some key =>
    have hkeys := sortKeys_untouched h l.length 0 (.start l rest)
    rw [map_start_cell] at hkeys
    exact hkeys

/-! ## The places -/

theorem turned_perm {β : Type} (reverse : Bool) (l : List β) : (turned reverse l).Perm l := by
  cases reverse
  · exact .refl l
  · exact l.reverse_perm
theorem mem_places {reverse : Bool} {n i : Nat} : i ∈ turned reverse (List.range n) ↔ i < n := by
  rw [(turned_perm reverse _).mem_iff,List.mem_range]

theorem mapM_getElem? (elts : List α) (ps : List Nat) : (ps.mapM fun p => elts[p]?)
    = if ∀ p ∈ ps, p < elts.length then some (ps.filterMap fun p => elts[p]?) else none := by
  induction ps with
  | nil => simp
  | cons p ps ih =>
    have hall : (∀ q ∈ p :: ps, q < elts.length) ↔ p < elts.length ∧ ∀ q ∈ ps, q < elts.length :=
      List.forall_mem_cons
    rw [List.mapM_cons,ih,if_congr hall rfl rfl]
    by_cases hp : p < elts.length
    · by_cases hps : ∀ p ∈ ps, p < elts.length
      · rw [if_pos hps,if_pos ⟨hp,hps⟩]
        simp [hp]
      · rw [if_neg hps,if_neg fun h => hps h.2]
        simp [hp]
    · have hnot : ¬ (p < elts.length ∧ ∀ q ∈ ps, q < elts.length) := fun h => hp h.1
      rw [if_neg hnot]
      simp [Nat.not_lt.mp hp]

theorem filterMap_range_getElem? (l : List α) :
    (List.range l.length).filterMap (fun p => l[p]?) = l := by
  have hmap : (List.range l.length).map (fun p => l[p]?) = l.map some := by
    apply List.ext_getElem
    · simp
    · intro i hi hj
      simp
  have hid := congrArg (List.filterMap id) hmap
  simpa [List.filterMap_map] using hid

theorem pair_sublist_range {i j n : Nat} (hij : i < j) (hj : j < n) :
    [i, j].Sublist (List.range n) := by
  have hsplit : List.range n = List.range j ++ (List.range (n - j)).map fun d => j + d := by
    rw [← List.range_add,Nat.add_sub_cancel' (Nat.le_of_lt hj)]
  have hlast : j ∈ (List.range (n - j)).map fun d => j + d :=
    List.mem_map.mpr ⟨0,List.mem_range.mpr (Nat.sub_pos_of_lt hj),rfl⟩
  rw [hsplit]
  exact (List.singleton_sublist.mpr (List.mem_range.mpr hij)).append (List.singleton_sublist.mpr hlast)

variable {k : α → α} {lt : α → α → Bool} {reverse : Bool} {l : List α} {p : List Nat}

/-- The places of the sorted list: they hold the elements in the order of their keys, and elements of
equivalent keys in the order of the list. -/
structure Arranged (k : α → α) (lt : α → α → Bool) (reverse : Bool) (l : List α) (p : List Nat) :
    Prop where
  perm : p.Perm (List.range l.length)
  sorted : p.Pairwise fun i j => ∀ x ∈ l[i]?, ∀ y ∈ l[j]?,
    (if reverse then lt (k x) (k y) else lt (k y) (k x)) = false
  stable : ∀ i j x y, i < j → l[i]? = some x → l[j]? = some y → lt (k x) (k y) = false →
    lt (k y) (k x) = false → [i, j].Sublist p

def placeLt (k : α → α) (lt : α → α → Bool) (l : List α) (i j : Nat) : Bool :=
  match l[i]?, l[j]? with
  | some x, some y => lt (k x) (k y)
  | _, _ => false
theorem placeLt_eq {i j : Nat} {x y : α} (hi : l[i]? = some x) (hj : l[j]? = some y) :
    placeLt k lt l i j = lt (k x) (k y) := by
  simp only [placeLt,hi,hj]

theorem strictWeak_places (hp : ∀ i ∈ p, i < l.length) (h : StrictWeak (l.map k) lt) :
    StrictWeak p (placeLt k lt l) := by
  have hget (i : Nat) (hi : i ∈ p) : ∃ x, l[i]? = some x ∧ k x ∈ l.map k :=
    ⟨_,List.getElem?_eq_getElem (hp i hi),List.mem_map_of_mem (List.getElem_mem _)⟩
  constructor
  · intro a ha b hb
    obtain ⟨x,hx,hkx⟩ := hget a ha
    obtain ⟨y,hy,hky⟩ := hget b hb
    rw [placeLt_eq hx hy,placeLt_eq hy hx]
    exact h.asymm _ hkx _ hky
  · intro a ha b hb c hc
    obtain ⟨x,hx,hkx⟩ := hget a ha
    obtain ⟨y,hy,hky⟩ := hget b hb
    obtain ⟨z,hz,hkz⟩ := hget c hc
    rw [placeLt_eq hy hx,placeLt_eq hz hy,placeLt_eq hz hx]
    exact h.trans _ hkx _ hky _ hkz

/-- The stable pass over the places, turned before and after, keeps the order of ties both ways. -/
theorem arranged_of_stableSorted
    (h : StableSorted (placeLt k lt l) (turned reverse (List.range l.length)) p) :
    Arranged k lt reverse l (turned reverse p) where
  perm := (turned_perm reverse p).trans (h.perm.trans (turned_perm reverse _))
  sorted := by
    cases reverse with
    | false =>
      refine h.sorted.imp fun hij x hx y hy => ?_
      rwa [placeLt_eq hy hx] at hij
    | true =>
      refine List.pairwise_reverse.mpr (h.sorted.imp fun hij x hx y hy => ?_)
      rwa [placeLt_eq hx hy] at hij
  stable := by
    intro i j x y hij hi hj hxy hyx
    have hlt : j < l.length := (List.getElem?_eq_some_iff.mp hj).1
    have hrange := pair_sublist_range hij hlt
    cases reverse with
    | false => exact h.stable i j (by rwa [placeLt_eq hi hj]) (by rwa [placeLt_eq hj hi]) hrange
    | true =>
      have hback := h.stable j i (by rwa [placeLt_eq hj hi]) (by rwa [placeLt_eq hi hj])
        (List.reverse_sublist.mpr hrange)
      exact List.reverse_sublist.mpr hback

theorem lessAt_places {less : α → α → Except E Bool}
    (hless : ∀ x ∈ l, ∀ y ∈ l, less (k x) (k y) = .ok (lt (k x) (k y))) {i j : Nat}
    (hi : i < l.length) (hj : j < l.length) :
    lessAt less (l.map k) i j = .ok (placeLt k lt l i j) := by
  have hx := List.getElem?_eq_getElem hi
  have hy := List.getElem?_eq_getElem hj
  rw [placeLt_eq hx hy]
  simp only [lessAt,List.getElem?_map,hx,hy,Option.map_some]
  exact hless _ (List.getElem_mem _) _ (List.getElem_mem _)

theorem sortPlaces_arranged {less : α → α → Except E Bool} (S : SliceStable E)
    (hless : ∀ x ∈ l, ∀ y ∈ l, less (k x) (k y) = .ok (lt (k x) (k y)))
    (hlt : StrictWeak (l.map k) lt) (reverse : Bool) (rest : Nat → α) :
    ∃ p, Arranged k lt reverse l p ∧ sortPlaces S less reverse l.length (l.map k) (.start l rest)
      = (.ok (), { Sorting.start l rest with elts := p.filterMap fun i => l[i]? }) := by
  obtain ⟨p,hsort,hp⟩ := S.stable (lessAt less (l.map k)) (turned reverse (List.range l.length))
    (placeLt k lt l)
    (fun i hi j hj => lessAt_places hless (mem_places.mp hi) (mem_places.mp hj))
    (strictWeak_places (fun i hi => mem_places.mp hi) hlt)
  have harr := arranged_of_stableSorted hp
  have hlist : (Sorting.start l rest).elts = l := rfl
  have hin : ∀ i ∈ turned reverse p, i < l.length :=
    fun i hi => List.mem_range.mp (harr.perm.mem_iff.mp hi)
  refine ⟨turned reverse p,harr,?_⟩
  simp only [sortPlaces,hsort,hlist,mapM_getElem?,if_pos hin,List.drop_length,List.append_nil]

theorem Arranged.elements (h : Arranged k lt reverse l p) : (p.filterMap fun i => l[i]?).Perm l ∧
    (p.filterMap fun i => l[i]?).Pairwise fun x y =>
        (if reverse then lt (k x) (k y) else lt (k y) (k x)) = false := by
  constructor
  · have hperm := h.perm.filterMap fun i => l[i]?
    rwa [filterMap_range_getElem?] at hperm
  · exact List.pairwise_filterMap.mpr h.sorted

/-- The sort indexes outside of the list exactly if nothing was raised before and the list is shorter
than it was at the start. -/
theorem sortPlaces_panic_iff (S : SliceStable E) (less : α → α → Except E Bool) (reverse : Bool)
    (n : Nat) (keys : List α) (s : Sorting α) :
    (sortPlaces S less reverse n keys s).1 = .error .panic ↔
      (∃ p, S.sort (lessAt less keys) (turned reverse (List.range n)) = .ok p) ∧ s.elts.length < n := by
  unfold sortPlaces
  cases hsort : S.sort (lessAt less keys) (turned reverse (List.range n)) with
  | error e => simp
  | ok p =>
    have hmem (i : Nat) : i ∈ turned reverse p ↔ i < n := by
      rw [(turned_perm reverse p).mem_iff,(S.perm _ _ _ hsort).mem_iff,mem_places]
    simp only [mapM_getElem?,hmem]
    by_cases hlen : s.elts.length < n
    · have hout : ¬ ∀ i, i < n → i < s.elts.length := fun h => Nat.lt_irrefl _ (h _ hlen)
      simp [hout,hlen]
    · have hin : ∀ i, i < n → i < s.elts.length := fun i hi => by omega
      rw [if_pos hin]
      simp [hlen]

/-- With keys in a strict weak order and calls that leave the list alone, the sort is a stable one,
reversed or not. It indexes outside of the list exactly if the calls leave it shorter, and nothing
raises. -/
theorem list_sort_stable_and_safe_iff (S : SliceStable E)
    (keyFn : Option (KeyFn E α)) (less : α → α → Except E Bool) (reverse : Bool) (l : List α)
    (rest : Nat → α) :
    (∀ (k : α → α) (lt : α → α → Bool), Untouched keyFn k →
      (∀ x ∈ l, ∀ y ∈ l, less (k x) (k y) = .ok (lt (k x) (k y))) → StrictWeak (l.map k) lt →
      ∃ p after, listSort S keyFn less reverse (.start l rest) = (.ok (), after) ∧
        Arranged k lt reverse l p ∧ after.elts = (p.filterMap fun i => l[i]?) ∧ after.elts.Perm l ∧
        after.elts.Pairwise fun x y =>
          (if reverse then lt (k x) (k y) else lt (k y) (k x)) = false) ∧
    ((listSort S keyFn less reverse (.start l rest)).1 ≠ .error .panic ↔
      ∀ keys p after, sortKeysOf keyFn (.start l rest) = (.ok keys, after) →
        S.sort (lessAt less keys) (turned reverse (List.range l.length)) = .ok p →
        l.length ≤ after.elts.length) := by
  constructor
  · intro k lt hkey hless hlt
    obtain ⟨p,harr,hsort⟩ := sortPlaces_arranged S hless hlt reverse rest
    refine ⟨p,{ Sorting.start l rest with elts := p.filterMap fun i => l[i]? },?_,harr,rfl,
      harr.elements⟩
    unfold listSort
    rw [sortKeysOf_untouched hkey]
    exact hsort
  · unfold listSort
    rcases sortKeysOf keyFn (.start l rest) with ⟨result,after⟩
    cases result with
    | error e => simp
    | ok keys =>
      dsimp only
      rw [ne_eq,sortPlaces_panic_iff,not_and,forall_exists_index]
      constructor
      · intro h keys' p after' heq hsort
        cases heq
        exact Nat.not_lt.mp (h p hsort)
      · exact fun h p hsort => Nat.not_lt.mpr (h keys p after rfl hsort)

end

section
variable {E : Type}

def lessOr (less : Nat → Nat → Except E Bool) (a b : Nat) : Bool :=
  match less a b with
  | .ok r => r
  | .error _ => false
def compareError (less : Nat → Nat → Except E Bool) (l : List Nat) : Option E :=
  (l.flatMap fun a => l.map fun b => less a b).findSome? fun
    | .ok _ => none
    | .error e => some e

theorem compareError_none {less : Nat → Nat → Except E Bool} {l : List Nat}
    {lt : Nat → Nat → Bool} (h : ∀ a ∈ l, ∀ b ∈ l, less a b = .ok (lt a b)) :
    compareError less l = none := by
  apply List.findSome?_eq_none_iff.mpr
  intro r hr
  obtain ⟨a,ha,hr⟩ := List.mem_flatMap.mp hr
  obtain ⟨b,hb,rfl⟩ := List.mem_map.mp hr
  rw [h a ha b hb]

def mergedMembers (lt : Nat → Nat → Bool) (l : List Nat) : List Nat :=
  (l.attach.mergeSort fun a b => !lt b.1 a.1).map (·.1)
theorem mergedMembers_perm (lt : Nat → Nat → Bool) (l : List Nat) : (mergedMembers lt l).Perm l := by
  have hperm := (List.mergeSort_perm l.attach fun a b => !lt b.1 a.1).map (·.1)
  rwa [List.attach_map_subtype_val] at hperm

theorem mergedMembers_stable {lt : Nat → Nat → Bool} {l : List Nat} (h : StrictWeak l lt) :
    StableSorted lt l (mergedMembers lt l) := by
  have htrans (a b c : {x // x ∈ l}) : (!lt b.1 a.1) = true → (!lt c.1 b.1) = true →
      (!lt c.1 a.1) = true := by
    simpa using h.trans a.1 a.2 b.1 b.2 c.1 c.2
  have htotal (a b : {x // x ∈ l}) : (!lt b.1 a.1 || !lt a.1 b.1) = true := by
    cases hab : lt b.1 a.1 with
    | false => rfl
    | true => rw [h.asymm b.1 b.2 a.1 a.2 hab]; rfl
  refine ⟨mergedMembers_perm lt l,?_,?_⟩
  · apply List.pairwise_map.mpr
    refine (List.pairwise_mergeSort htrans htotal l.attach).imp fun hab => ?_
    simpa using hab
  · intro a b hab hba hsub
    rw [← List.attach_map_subtype_val l] at hsub
    obtain ⟨pair,hpair,heq⟩ := List.sublist_map_iff.mp hsub
    match pair, heq with
    | [x,y], heq =>
      obtain ⟨rfl,rfl⟩ : a = x.1 ∧ b = y.1 := by simpa using heq
      exact (List.pair_sublist_mergeSort htrans htotal (by rw [hba]; rfl) hpair).map (·.1)

def mergeStable (E : Type) : SliceStable E where
  sort less l :=
    match compareError less l with
    | some e => .error e
    | none => .ok (mergedMembers (lessOr less) l)
  perm less l p h := by
    split at h
    · cases h
    · cases h
      exact mergedMembers_perm _ l
  stable less l lt h hlt := by
    have heq : mergedMembers (lessOr less) l = mergedMembers lt l := by
      have hle : (fun a b : {x // x ∈ l} => !lessOr less b.1 a.1) = fun a b => !lt b.1 a.1 := by
        funext a b
        simp only [lessOr,h b.1 b.2 a.1 a.2]
      rw [mergedMembers,hle,mergedMembers]
    refine ⟨mergedMembers lt l, ?_, mergedMembers_stable hlt⟩
    rw [compareError_none h,heq]

/-- A key that clears the list leaves no element to move to the one place. -/
theorem cleared_by_key_panics :
    (listSort (mergeStable Empty) (some fun e s => (.ok e, { s with elts := [] }))
      (fun x y : Nat => .ok (decide (x < y))) false (.start [5] id)).1 = .error .panic := by
  have hone (lt : Nat → Nat → Bool) : mergedMembers lt [0] = [0] := by simp [mergedMembers]
  apply (sortPlaces_panic_iff _ _ _ _ _ _).mpr
  exact ⟨⟨_,congrArg Except.ok (hone _)⟩,Nat.one_pos⟩

end
end Unagi.Objects
