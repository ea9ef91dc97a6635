import Mathlib.Data.List.Nodup

/-! # Insertion-ordered finite maps

A map is a list of keys with their entries, each key once, in the order in which the keys came in.
Storing under a key that is there changes its entry in place. -/

namespace Unagi.Lib

section
variable {κ : Type*} {l : List κ} {k : κ} {i : Nat}

theorem getElem?_concat_eq_some {k' : κ} :
    (l ++ [k])[i]? = some k' ↔ l[i]? = some k' ∨ i = l.length ∧ k = k' := by
  rcases Nat.lt_trichotomy i l.length with h | h | h
  · rw [List.getElem?_append_left h,or_iff_left fun he => Nat.ne_of_lt h he.1]
  · subst h
    simp
  · rw [List.getElem?_eq_none (by rw [List.length_append]; exact h),List.getElem?_eq_none (Nat.le_of_lt h)]
    simp [Nat.ne_of_gt h]

def Positions (index : κ → Option Nat) (l : List κ) : Prop := ∀ k i, index k = some i ↔ l[i]? = some k

variable [DecidableEq κ] {index : κ → Option Nat}

theorem Positions.concat (h : Positions index l) (hk : index k = none) :
    Positions (Function.update index k (some l.length)) (l ++ [k]) := by
  intro k' j
  rw [Function.update_apply,getElem?_concat_eq_some,← h k' j]
  by_cases hkk : k' = k
  · subst hkk
    simp [hk,eq_comm]
  · simp [hkk,Ne.symm hkk]

theorem Positions.eraseIdx (h : Positions index l) (hl : l.Nodup) (hi : index k = some i) :
    Positions (fun k' => if k' = k then none else
      (index k').map fun j => if i < j then j - 1 else j) (l.eraseIdx i) := by
  intro k' j
  have hpos := (h k i).mp hi
  have hinj : ∀ j, l[j]? = some k → i = j := fun j hj =>
    (List.getElem?_inj (List.getElem?_eq_some_iff.mp hpos).1 hl).mp (hpos.trans hj.symm)
  rw [List.getElem?_eraseIdx]
  by_cases hkk : k' = k
  · subst hkk
    simp only [if_true]
    refine iff_of_false (by simp) fun hj => ?_
    split at hj
    · have := hinj _ hj
      omega
    · have := hinj _ hj
      omega
  · simp only [if_neg hkk]
    rw [Option.map_eq_some_iff]
    constructor
    · rintro ⟨a,ha,rfl⟩
      rw [h k' a] at ha
      have hne : a ≠ i := by
        rintro rfl
        exact hkk (Option.some.inj (ha.symm.trans hpos))
      by_cases hlt : i < a
      · rw [if_pos hlt,if_neg (by omega),Nat.sub_add_cancel (by omega)]
        exact ha
      · rw [if_neg hlt,if_pos (by omega)]
        exact ha
    · intro hj
      split at hj
      · exact ⟨j,(h k' j).mpr hj,if_neg (by omega)⟩
      · exact ⟨j + 1,(h k' (j + 1)).mpr hj,by rw [if_pos (by omega)]; rfl⟩

end

structure OrderedMap (κ α : Type*) where
  list : List (κ × α)
  nodup : (list.map Prod.fst).Nodup

namespace OrderedMap
variable {κ α : Type*}

def empty : OrderedMap κ α := ⟨[], List.nodup_nil⟩
def keys (m : OrderedMap κ α) : List κ := m.list.map Prod.fst

variable {m : OrderedMap κ α} {k : κ} {i j : Nat} {a b : α}

theorem getElem?_keys : m.keys[i]? = some k ↔ ∃ a, m.list[i]? = some (k, a) := by
  rw [keys,List.getElem?_map,Option.map_eq_some_iff]
  constructor
  · rintro ⟨p,hp,rfl⟩
    exact ⟨p.2,hp⟩
  · rintro ⟨a,ha⟩
    exact ⟨(k, a),ha,rfl⟩

theorem keys_inj (h : m.keys[i]? = some k) (h' : m.keys[j]? = some k) : i = j :=
  (List.getElem?_inj (List.getElem?_eq_some_iff.mp h).1 m.nodup).mp (h.trans h'.symm)
theorem position_unique (h : m.list[i]? = some (k, a)) (h' : m.list[j]? = some (k, b)) : i = j :=
  keys_inj (getElem?_keys.mpr ⟨a,h⟩) (getElem?_keys.mpr ⟨b,h'⟩)

section
variable [DecidableEq κ]

def find? (m : OrderedMap κ α) (k : κ) : Option α := (m.list.find? (·.1 = k)).map Prod.snd

def put (m : OrderedMap κ α) (k : κ) (new : α) (change : α → α) : OrderedMap κ α where
  list :=
    if k ∈ m.list.map Prod.fst then m.list.map fun p => if p.1 = k then (p.1, change p.2) else p
    else m.list ++ [(k, new)]
  nodup := by
    split
    · have hkeys : (m.list.map fun p => if p.1 = k then (p.1, change p.2) else p).map Prod.fst =
          m.list.map Prod.fst := by
        rw [List.map_map]
        apply List.map_congr_left
        intro p _
        simp only [Function.comp_apply]
        split <;> rfl
      rw [hkeys]
      exact m.nodup
    · rename_i hk
      rw [List.map_append,List.map_singleton]
      exact m.nodup.append (List.nodup_singleton k) (by simpa using hk)

def erase (m : OrderedMap κ α) (k : κ) : OrderedMap κ α where
  list := m.list.filter (·.1 ≠ k)
  nodup := m.nodup.sublist (List.filter_sublist.map _)

theorem find?_eq_some : m.find? k = some a ↔ ∃ i : Nat, m.list[i]? = some (k, a) := by
  unfold find?
  constructor
  · intro h
    obtain ⟨p,hp,rfl⟩ := Option.map_eq_some_iff.mp h
    obtain ⟨i,hi⟩ := List.mem_iff_getElem?.mp (List.mem_of_find?_eq_some hp)
    have hk : p.1 = k := by simpa using List.find?_some hp
    exact ⟨i,hk ▸ hi⟩
  · rintro ⟨i,hi⟩
    cases hf : m.list.find? (·.1 = k) with
    | none =>
      have hne := List.find?_eq_none.mp hf (k, a) (List.mem_of_getElem? hi)
      simp at hne
    | some p =>
      obtain ⟨j,hj⟩ := List.mem_iff_getElem?.mp (List.mem_of_find?_eq_some hf)
      have hk : p.1 = k := by simpa using List.find?_some hf
      have hj' : m.list[j]? = some (k, p.2) := hk ▸ hj
      obtain rfl := position_unique hi hj'
      rw [hi] at hj'
      rw [Option.map_some,← congrArg Prod.snd (Option.some.inj hj')]

theorem mem_keys : k ∈ m.keys ↔ ∃ a, m.find? k = some a := by
  simp only [find?_eq_some]
  constructor
  · intro h
    obtain ⟨p,hp,rfl⟩ := List.mem_map.mp h
    obtain ⟨i,hi⟩ := List.mem_iff_getElem?.mp hp
    exact ⟨p.2,i,hi⟩
  · rintro ⟨a,i,hi⟩
    exact List.mem_map.mpr ⟨(k, a),List.mem_of_getElem? hi,rfl⟩

theorem find?_eq_none : m.find? k = none ↔ k ∉ m.keys := by
  rw [mem_keys]
  cases m.find? k <;> simp

theorem keys_put (new : α) (change : α → α) :
    (m.put k new change).keys = if k ∈ m.keys then m.keys else m.keys ++ [k] := by
  unfold keys put
  simp only
  split
  · rw [List.map_map]
    apply List.map_congr_left
    intro p _
    simp only [Function.comp_apply]
    split <;> rfl
  · rw [List.map_append,List.map_singleton]

theorem keys_erase : (m.erase k).keys = m.keys.filter (· ≠ k) := by
  unfold keys erase
  rw [List.filter_map]
  rfl

theorem put_of_some (h : m.list[i]? = some (k, a)) (new : α) (change : α → α) :
    (m.put k new change).list = m.list.modify i fun p => (p.1, change p.2) := by
  have hmem : k ∈ m.list.map Prod.fst := mem_keys.mpr ⟨a,find?_eq_some.mpr ⟨i,h⟩⟩
  rw [put]
  simp only [if_pos hmem]
  apply List.ext_getElem?
  intro j
  rw [List.getElem?_map,List.getElem?_modify]
  by_cases hij : i = j
  · subst hij
    rw [h]
    simp
  · simp only [if_neg hij]
    cases hj : m.list[j]? with
    | none => rfl
    | some p =>
      have hp : p.1 ≠ k := by
        intro hp
        exact hij (position_unique h (hp ▸ hj : m.list[j]? = some (k, p.2)))
      simp [hp]

theorem put_of_none (h : m.find? k = none) (new : α) (change : α → α) :
    (m.put k new change).list = m.list ++ [(k, new)] := by
  rw [put]
  exact if_neg (find?_eq_none.mp h)

theorem erase_of_some (h : m.list[i]? = some (k, a)) :
    (m.erase k).list = m.list.eraseIdx i := by
  have hnodup := m.nodup
  show m.list.filter (·.1 ≠ k) = m.list.eraseIdx i
  generalize m.list = l at h hnodup
  induction l generalizing i with
  | nil => simp at h
  | cons p l ih =>
    rw [List.map_cons,List.nodup_cons] at hnodup
    cases i with
    | zero =>
      obtain rfl : p = (k, a) := by simpa using h
      rw [List.filter_cons_of_neg (by simp),List.eraseIdx_cons_zero,List.filter_eq_self]
      intro q hq
      have hne : q.1 ≠ k := fun he => hnodup.1 (List.mem_map.mpr ⟨q,hq,he⟩)
      simpa using hne
    | succ i =>
      rw [List.getElem?_cons_succ] at h
      have hne : p.1 ≠ k := by
        intro he
        exact hnodup.1 (he ▸ List.mem_map.mpr ⟨(k, a),List.mem_of_getElem? h,rfl⟩)
      rw [List.filter_cons_of_pos (by simpa using hne),List.eraseIdx_cons_succ,ih h hnodup.2]

theorem erase_of_none (h : m.find? k = none) : m.erase k = m := by
  have hlist : m.list.filter (·.1 ≠ k) = m.list := by
    rw [List.filter_eq_self]
    intro p hp
    have hne : p.1 ≠ k := fun he => find?_eq_none.mp h (List.mem_map.mpr ⟨p,hp,he⟩)
    simpa using hne
  obtain ⟨l,hl⟩ := m
  simp only [erase] at hlist ⊢
  congr

theorem find?_put (new : α) (change : α → α) (k' : κ) :
    (m.put k new change).find? k' =
      if k' = k then some ((m.find? k).elim new change) else m.find? k' := by
  cases hk : m.find? k with
  | some a =>
    obtain ⟨i,hi⟩ := find?_eq_some.mp hk
    have hat : ∀ j b, (m.put k new change).list[j]? = some (k', b) ↔
        ∃ p, m.list[j]? = some p ∧ (if i = j then (p.1, change p.2) else p) = (k', b) := by
      intro j b
      rw [put_of_some hi,List.getElem?_modify]
      exact Option.map_eq_some_iff
    split
    · rename_i he
      subst he
      exact find?_eq_some.mpr ⟨i,(hat i _).mpr ⟨(k', a),hi,by simp⟩⟩
    · rename_i hne
      ext b
      rw [find?_eq_some,find?_eq_some]
      constructor
      · rintro ⟨j,hj⟩
        obtain ⟨p,hp,he⟩ := (hat j b).mp hj
        split at he
        · rename_i hij
          subst hij
          rw [hi] at hp
          cases hp
          exact absurd (congrArg Prod.fst he).symm hne
        · exact ⟨j,he ▸ hp⟩
      · rintro ⟨j,hj⟩
        refine ⟨j,(hat j b).mpr ⟨(k', b),hj,if_neg fun hij => ?_⟩⟩
        subst hij
        rw [hi] at hj
        exact hne (congrArg Prod.fst (Option.some.inj hj)).symm
  | none =>
    have hlist := put_of_none hk new change
    rw [find?,hlist,List.find?_append,find?]
    split
    · rename_i he
      subst he
      have hnone : m.list.find? (·.1 = k') = none := by simpa [find?] using hk
      simp [hnone]
    · rename_i hne
      cases m.list.find? (·.1 = k') with
      | none => simp [Ne.symm hne]
      | some p => rfl

theorem find?_erase (k' : κ) : (m.erase k).find? k' = if k' = k then none else m.find? k' := by
  split
  · rename_i he
    subst he
    rw [find?_eq_none,keys_erase]
    simp
  · rename_i hne
    unfold find? erase
    congr 1
    rw [List.find?_filter]
    congr 1
    funext p
    simp only [ne_eq,decide_not,Bool.decide_and]
    by_cases hp : p.1 = k'
    · simp [hp,hne]
    · simp [hp]

end
end OrderedMap
end Unagi.Lib
