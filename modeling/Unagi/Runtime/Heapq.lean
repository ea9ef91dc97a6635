import Unagi.Lib.HeapOrder
import Unagi.Objects.Halt

/-! # The heap operations

`siftup` moves the hole at a place to a leaf, the better child moving up at each step, and then sifts the
element that was there back towards the place. The max forms compare the other way around. -/

namespace Unagi.Runtime

open Lib Objects

section
variable {α : Type}

/-! ## The operations -/

def hget (heap : List α) (i : Nat) : Except Halt α :=
  heap[i]?.elim (raise .indexError "list index out of range") .ok
def hset (heap : List α) (i : Nat) (v : α) : Except Halt (List α) :=
  if i < heap.length then .ok (heap.set i v)
  else raise .indexError "list assignment index out of range"

/-- Whether an element belongs nearer to the root than another. -/
def ahead (less : α → α → Bool) (maxHeap : Bool) (a b : α) : Bool :=
  if maxHeap then less b a else less a b

variable (less : α → α → Bool) (maxHeap : Bool)

def siftdownLoop (startpos : Nat) (newitem : α) (heap : List α) (pos : Nat) :
    Except Halt (List α) :=
  if startpos < pos then do
    let parent ← hget heap ((pos - 1) / 2)
    if ahead less maxHeap newitem parent then
      let heap ← hset heap pos parent
      siftdownLoop startpos newitem heap ((pos - 1) / 2)
    else hset heap pos newitem
  else hset heap pos newitem
termination_by pos

def siftdown (heap : List α) (startpos pos : Nat) : Except Halt (List α) := do
  let newitem ← hget heap pos
  siftdownLoop less maxHeap startpos newitem heap pos
def takeRight (endpos : Nat) (heap : List α) (childpos : Nat) : Except Halt Bool :=
  if childpos + 1 < endpos then do
    let left ← hget heap childpos
    let right ← hget heap (childpos + 1)
    return !ahead less maxHeap left right
  else return false

def siftupLoop (endpos : Nat) (heap : List α) (pos : Nat) : Except Halt (List α × Nat) :=
  if 2 * pos + 1 < endpos then do
    let right ← takeRight less maxHeap endpos heap (2 * pos + 1)
    let childpos := if right then 2 * pos + 2 else 2 * pos + 1
    let child ← hget heap childpos
    let heap ← hset heap pos child
    siftupLoop endpos heap childpos
  else return (heap, pos)
termination_by endpos - pos
decreasing_by split <;> omega

def siftup (heap : List α) (pos : Nat) : Except Halt (List α) := do
  let newitem ← hget heap pos
  let (heap, leaf) ← siftupLoop less maxHeap heap.length heap pos
  let heap ← hset heap leaf newitem
  siftdown less maxHeap heap pos leaf
def pushImpl (heap : List α) (item : α) : Except Halt (List α) :=
  siftdown less maxHeap (heap ++ [item]) 0 heap.length

def popImpl (heap : List α) : Except Halt (α × List α) :=
  match heap.getLast? with
  | none => raise .indexError "pop from empty list"
  | some last =>
    if heap.dropLast.length = 0 then .ok (last, heap.dropLast)
    else do
      let returnitem ← hget heap.dropLast 0
      let heap ← hset heap.dropLast 0 last
      return (returnitem, ← siftup less maxHeap heap 0)

def replaceImpl (heap : List α) (item : α) : Except Halt (α × List α) :=
  if heap.length = 0 then raise .indexError "index out of range"
  else do
    let returnitem ← hget heap 0
    let heap ← hset heap 0 item
    return (returnitem, ← siftup less maxHeap heap 0)

def pushpopImpl (heap : List α) (item : α) : Except Halt (α × List α) :=
  if heap.length = 0 then .ok (item, heap)
  else do
    let root ← hget heap 0
    if ahead less maxHeap root item then
      let heap ← hset heap 0 item
      return (root, ← siftup less maxHeap heap 0)
    else return (item, heap)

def heapifyLoop : Nat → List α → Except Halt (List α)
  | 0, heap => .ok heap
  | i + 1, heap => do
    let heap ← siftup less maxHeap heap i
    heapifyLoop i heap
def heapifyImpl (heap : List α) : Except Halt (List α) :=
  heapifyLoop less maxHeap (heap.length / 2) heap

/-- `<` comes from a total preorder: `a ≤ b`, which is that `b < a` does not hold, is one. -/
structure TotalPreorder : Prop where
  total : ∀ a b, less b a = false ∨ less a b = false
  trans : ∀ a b c, less b a = false → less c b = false → less c a = false

/-- No child belongs nearer to the root than its parent: in a min heap `a[k] ≤ a[c]`. -/
def IsHeap (heap : List α) : Prop :=
  ∀ k c x y, c = 2 * k + 1 ∨ c = 2 * k + 2 → heap[k]? = some x → heap[c]? = some y →
    ahead less maxHeap y x = false

def Above (a b : α) : Prop := ahead less maxHeap b a = false

variable {less maxHeap}

theorem TotalPreorder.above_trans (h : TotalPreorder less) (x y z : α) (hxy : Above less maxHeap x y)
    (hyz : Above less maxHeap y z) : Above less maxHeap x z := by
  cases maxHeap with
  | false => exact h.trans x y z hxy hyz
  | true => exact h.trans z y x hyz hxy

variable {x root : α} {heap rest : List α} {i pos s : Nat}

theorem TotalPreorder.above_of_ahead (h : TotalPreorder less) {y : α}
    (hxy : ahead less maxHeap x y = true) : Above less maxHeap x y := by
  have htotal (a b : α) (hab : less a b = true) : less b a = false :=
    (h.total a b).resolve_right (by simp [hab])
  cases maxHeap with
  | false => exact htotal x y hxy
  | true => exact htotal y x hxy

theorem TotalPreorder.above_refl (h : TotalPreorder less) (x : α) : Above less maxHeap x x := by
  have hself : less x x = false := (h.total x x).elim id id
  cases maxHeap <;> exact hself
def look (heap : List α) : Nat → Option α := fun k => heap[k]?

theorem isHeap_iff :
    IsHeap less maxHeap heap ↔ HeapFrom (Above less maxHeap) 0 (look heap) := by
  constructor
  · intro h i hi _ x hx y hy
    refine h (parent i) i x y ?_ hx hy
    unfold parent
    omega
  · intro h k c x y hc hx hy
    have hp : parent c = k := by
      unfold parent
      omega
    have hedge := h c (by omega) (Nat.zero_le _)
    rw [hp] at hedge
    exact hedge x hx y hy

theorem hget_ok (h : heap[i]? = some x) : hget heap i = .ok x := by
  rw [hget,h]
  rfl
theorem hset_ok (h : i < heap.length) (v : α) :
    hset heap i v = .ok (heap.set i v) := if_pos h

theorem look_move {j : Nat} {p : α} (hpos : pos < heap.length) (hj : j ≠ pos)
    (hp : heap[j]? = some p) :
    look ((heap.set pos p).set j x) = exchange (look (heap.set pos x)) pos j := by
  have hjlt : j < heap.length := (List.getElem?_eq_some_iff.mp hp).1
  funext k
  by_cases hkj : k = j
  · subst hkj
    simp [look,hjlt,hpos]
  · by_cases hkp : k = pos
    · subst hkp
      rw [exchange_left,look,look,List.getElem?_set_ne hj,List.getElem?_set_self hpos,
        List.getElem?_set_ne hj.symm,hp]
    · rw [exchange_of_ne hkp hkj]
      simp [look,Ne.symm hkj,Ne.symm hkp]

theorem perm_move {j : Nat} {p : α} (hpos : pos < heap.length) (hj : j ≠ pos)
    (hp : heap[j]? = some p) : ((heap.set pos p).set j x).Perm (heap.set pos x) := by
  obtain ⟨hjlt,hpj⟩ := List.getElem?_eq_some_iff.mp hp
  have hperm := @List.set_set_perm _ (heap.set pos x) pos j (by simpa using hpos)
    (by simpa using hjlt)
  simpa [List.getElem_set,Ne.symm hj,hpj] using hperm

/-! ## Sifting -/

theorem siftdownLoop_spec (h : TotalPreorder less)
    (hpos : pos < heap.length) (hbelow : Below s pos)
    (hhole : Hole (Above less maxHeap) s (look (heap.set pos x)) pos)
    (htops : Tops (Above less maxHeap) (look (heap.set pos x)) pos) :
    ∃ r, siftdownLoop less maxHeap s x heap pos = .ok r ∧ r.Perm (heap.set pos x) ∧
      HeapFrom (Above less maxHeap) s (look r) := by
  induction pos using Nat.strongRecOn generalizing heap with
  | _ pos ih =>
    rw [siftdownLoop]
    have hx : look (heap.set pos x) pos = some x := by simp [look,hpos]
    by_cases hs : s < pos
    · have hlt : parent pos < pos := parent_lt (Nat.zero_lt_of_lt hs)
      obtain ⟨p,hp⟩ : ∃ p, heap[parent pos]? = some p :=
        ⟨_,List.getElem?_eq_getElem (Nat.lt_trans hlt hpos)⟩
      have hpar : look (heap.set pos x) (parent pos) = some p := by
        rw [look,List.getElem?_set_ne (Nat.ne_of_gt hlt),hp]
      rw [if_pos hs,show (pos - 1) / 2 = parent pos from rfl,hget_ok hp]
      simp only [bind,Except.bind]
      by_cases hahead : ahead less maxHeap x p
      · rw [if_pos hahead,hset_ok hpos]
        obtain ⟨hhole',htops'⟩ := hhole.up h.above_trans hbelow hs hx hpar (h.above_of_ahead hahead)
        rw [← look_move hpos (Nat.ne_of_lt hlt) hp] at hhole' htops'
        obtain ⟨r,hr,hperm,hheap⟩ := @ih (parent pos) hlt (heap.set pos p)
          (by rw [List.length_set]; exact Nat.lt_trans hlt hpos) (hbelow.parent hs) hhole' htops'
        exact ⟨r,hr,hperm.trans (perm_move hpos (Nat.ne_of_lt hlt) hp),hheap⟩
      · rw [if_neg hahead,hset_ok hpos]
        refine ⟨_,rfl,List.Perm.refl _,hhole.close htops fun _ z hz y hy => ?_⟩
        rw [hpar] at hz
        rw [hx] at hy
        cases hz
        cases hy
        simpa [Above] using hahead
    · rw [if_neg hs,hset_ok hpos]
      exact ⟨_,rfl,List.Perm.refl _,hhole.close htops fun hlt => absurd hlt hs⟩

theorem takeRight_spec (maxHeap : Bool) (h : TotalPreorder less)
    (hpos : 2 * pos + 1 < heap.length) :
    ∃ right, takeRight less maxHeap heap.length heap (2 * pos + 1) = .ok right ∧
      (if right then 2 * pos + 2 else 2 * pos + 1) < heap.length ∧
      ∀ d, 0 < d → parent d = pos → d ≠ (if right then 2 * pos + 2 else 2 * pos + 1) →
        Edge (Above less maxHeap) (look heap) (if right then 2 * pos + 2 else 2 * pos + 1) d := by
  have hchild {d : Nat} (hd : 0 < d) (hp : parent d = pos) : d = 2 * pos + 1 ∨ d = 2 * pos + 2 := by
    unfold parent at hp
    omega
  rw [takeRight]
  by_cases hright : 2 * pos + 1 + 1 < heap.length
  · rw [if_pos hright]
    obtain ⟨l,hl⟩ : ∃ l, heap[2 * pos + 1]? = some l := ⟨_,List.getElem?_eq_getElem hpos⟩
    obtain ⟨r,hr⟩ : ∃ r, heap[2 * pos + 2]? = some r := ⟨_,List.getElem?_eq_getElem hright⟩
    rw [hget_ok hl,hget_ok hr]
    refine ⟨_,rfl,?_⟩
    cases hahead : ahead less maxHeap l r
    · refine ⟨hright,fun d hd hp hne x hx y hy => ?_⟩
      obtain rfl := (hchild hd hp).resolve_right hne
      cases hr.symm.trans hx
      cases hl.symm.trans hy
      exact hahead
    · refine ⟨hpos,fun d hd hp hne x hx y hy => ?_⟩
      obtain rfl := (hchild hd hp).resolve_left hne
      cases hl.symm.trans hx
      cases hr.symm.trans hy
      exact h.above_of_ahead hahead
  · rw [if_neg hright]
    refine ⟨false,rfl,hpos,fun d hd hp hne x hx y hy => ?_⟩
    obtain rfl := (hchild hd hp).resolve_left hne
    exact absurd (List.getElem?_eq_some_iff.mp hy).1 hright

theorem siftupLoop_spec (h : TotalPreorder less) (x : α)
    (hpos : pos < heap.length) (hbelow : Below s pos)
    (hhole : Hole (Above less maxHeap) s (look (heap.set pos x)) pos) :
    ∃ r leaf, siftupLoop less maxHeap heap.length heap pos = .ok (r, leaf) ∧
      (r.set leaf x).Perm (heap.set pos x) ∧ Below s leaf ∧ leaf < r.length ∧ r.length ≤ 2 * leaf + 1 ∧
      Hole (Above less maxHeap) s (look (r.set leaf x)) leaf := by
  induction hn : heap.length - pos using Nat.strongRecOn generalizing heap pos with
  | _ n ih =>
    rw [siftupLoop]
    by_cases hleaf : 2 * pos + 1 < heap.length
    · obtain ⟨right,hright,hclt,hleast⟩ := takeRight_spec maxHeap h hleaf
      rw [if_pos hleaf,hright]
      simp only [bind,Except.bind]
      generalize hc : (if right then 2 * pos + 2 else 2 * pos + 1) = c at *
      have hcpos : 0 < c ∧ parent c = pos ∧ pos < c := by
        unfold parent
        split at hc <;> omega
      obtain ⟨hc0,hpar,hlt⟩ := hcpos
      obtain ⟨v,hv⟩ : ∃ v, heap[c]? = some v := ⟨_,List.getElem?_eq_getElem hclt⟩
      rw [hget_ok hv]
      simp only [hset_ok hpos]
      have hlen : (heap.set pos v).length = heap.length := List.length_set
      have hdown := hhole.down hc0 hpar hbelow.start_le (by
        intro d hd hp hne
        have hdlt : pos < d := hp ▸ parent_lt hd
        rw [Edge,look,look,List.getElem?_set_ne (Nat.ne_of_lt hlt),
          List.getElem?_set_ne (Nat.ne_of_lt hdlt)]
        exact hleast d hd hp hne)
      rw [← look_move hpos (Nat.ne_of_gt hlt) hv] at hdown
      obtain ⟨r,leaf,hr,hperm,hrest⟩ := @ih (heap.length - c) (by omega) (heap.set pos v)
        c (by omega) (.child hc0 (hpar ▸ hbelow)) hdown (by rw [hlen])
      rw [hlen] at hr
      exact ⟨r,leaf,hr,hperm.trans (perm_move hpos (Nat.ne_of_gt hlt) hv),hrest⟩
    · rw [if_neg hleaf]
      exact ⟨heap,pos,rfl,List.Perm.refl _,hbelow,hpos,by omega,hhole⟩

theorem siftup_spec (h : TotalPreorder less) (hs : s < heap.length)
    (hheap : HeapFrom (Above less maxHeap) (s + 1) (look heap)) :
    ∃ r, siftup less maxHeap heap s = .ok r ∧ r.Perm heap ∧
      HeapFrom (Above less maxHeap) s (look r) := by
  have hset : heap.set s heap[s] = heap := List.set_getElem_self hs
  have hhole := hheap.hole
  rw [← hset] at hhole
  obtain ⟨r,leaf,hr,hperm,hbelow,hlt,hleaf,hhole⟩ := siftupLoop_spec h heap[s] hs .root hhole
  have htops : Tops (Above less maxHeap) (look (r.set leaf heap[s])) leaf := by
    intro c hc hp x _ y hy
    have hout : (r.set leaf heap[s]).length ≤ c := by
      unfold parent at hp
      rw [List.length_set]
      omega
    rw [look,List.getElem?_eq_none hout] at hy
    cases hy
  have hself : (r.set leaf heap[s]).set leaf heap[s] = r.set leaf heap[s] := by simp
  rw [← hself] at hhole htops
  obtain ⟨r',hr',hperm',hdone⟩ := siftdownLoop_spec h (by simpa using hlt) hbelow hhole htops
  refine ⟨r',?_,?_,hdone⟩
  · rw [siftup,hget_ok (List.getElem?_eq_getElem hs)]
    simp only [bind,Except.bind,hr,hset_ok hlt,siftdown,
      hget_ok (show (r.set leaf heap[s])[leaf]? = some heap[s] by simp [hlt])]
    exact hr'
  · rw [hself] at hperm'
    rw [hset] at hperm
    exact hperm'.trans hperm

/-! ## The operations on a heap -/

theorem heapifyLoop_spec (h : TotalPreorder less) (hi : i ≤ heap.length)
    (hheap : HeapFrom (Above less maxHeap) i (look heap)) :
    ∃ r, heapifyLoop less maxHeap i heap = .ok r ∧ r.Perm heap ∧ IsHeap less maxHeap r := by
  induction i generalizing heap with
  | zero => exact ⟨heap,rfl,List.Perm.refl _,isHeap_iff.mpr hheap⟩
  | succ i ih =>
    obtain ⟨r,hr,hperm,hheap⟩ := siftup_spec h hi hheap
    obtain ⟨r',hr',hperm',hdone⟩ := ih (by rw [hperm.length_eq]; omega) hheap
    refine ⟨r',?_,hperm'.trans hperm,hdone⟩
    rw [heapifyLoop,hr]
    exact hr'

theorem heapifyImpl_spec (h : TotalPreorder less) (heap : List α) :
    ∃ r, heapifyImpl less maxHeap heap = .ok r ∧ r.Perm heap ∧ IsHeap less maxHeap r := by
  refine heapifyLoop_spec h (Nat.div_le_self _ _) fun i hi hs x _ y hy => ?_
  -- the places from the middle on have no children
  have hlt := (List.getElem?_eq_some_iff.mp hy).1
  unfold parent at hs
  omega

theorem siftup_root (h : TotalPreorder less) (item : α)
    (hheap : IsHeap less maxHeap (root :: rest)) :
    ∃ r, siftup less maxHeap (item :: rest) 0 = .ok r ∧ r.Perm (item :: rest) ∧
      IsHeap less maxHeap r := by
  have hbehind : HeapFrom (Above less maxHeap) 1 (look (item :: rest)) := by
    intro i hi hs
    have hedge := isHeap_iff.mp hheap i hi (Nat.zero_le _)
    obtain ⟨j,hj⟩ := Nat.exists_eq_add_of_le' hs
    obtain ⟨k,rfl⟩ := Nat.exists_eq_add_of_le' hi
    rw [hj] at hedge ⊢
    exact hedge
  obtain ⟨r,hr,hperm,hdone⟩ := siftup_spec h (Nat.zero_lt_succ _) hbehind
  exact ⟨r,hr,hperm,isHeap_iff.mpr hdone⟩

theorem root_above (h : TotalPreorder less)
    (hheap : IsHeap less maxHeap (root :: rest)) : ∀ x ∈ root :: rest, Above less maxHeap root x := by
  intro x hx
  obtain ⟨i,hi⟩ := List.getElem?_of_mem hx
  refine (isHeap_iff.mp hheap).root_le h.above_refl h.above_trans (fun i j hij hj => ?_) i root rfl x hi
  have hlt := (List.getElem?_eq_some_iff.mp (Option.get_mem hj)).1
  exact Option.isSome_of_mem (List.getElem?_eq_getElem (Nat.lt_of_le_of_lt hij hlt))

theorem pushImpl_spec (h : TotalPreorder less) (item : α)
    (hheap : IsHeap less maxHeap heap) :
    ∃ r, pushImpl less maxHeap heap item = .ok r ∧ IsHeap less maxHeap r ∧ r.Perm (item :: heap) := by
  have hbelow : ∀ i, Below 0 i := by
    intro i
    induction i using Nat.strongRecOn with
    | _ i ih =>
      rcases Nat.eq_zero_or_pos i with rfl | hi
      · exact .root
      · exact .child hi (ih _ (parent_lt hi))
  have hlast {c : Nat} {y : α} (hc : 0 < c) (hp : parent c = heap.length)
      (hy : y ∈ look (heap ++ [item]) c) : False := by
    have hlt := (List.getElem?_eq_some_iff.mp hy).1
    have hplt := parent_lt hc
    rw [List.length_append,List.length_singleton] at hlt
    omega
  have hset : (heap ++ [item]).set heap.length item = heap ++ [item] := by simp
  have hhole : Hole (Above less maxHeap) 0 (look (heap ++ [item])) heap.length := by
    refine ⟨fun i hi _ hne hp x hx y hy => ?_,fun _ c hc hp x _ y hy => (hlast hc hp hy).elim⟩
    have hilt := (List.getElem?_eq_some_iff.mp hy).1
    have hplt := parent_lt hi
    rw [List.length_append,List.length_singleton] at hilt
    rw [look,List.getElem?_append_left (by omega)] at hx hy
    exact isHeap_iff.mp hheap i hi (Nat.zero_le _) x hx y hy
  rw [← hset] at hhole
  obtain ⟨r,hr,hperm,hdone⟩ := siftdownLoop_spec h (by simp) (hbelow _) hhole (by
    rw [hset]
    exact fun c hc hp x _ y hy => (hlast hc hp hy).elim)
  rw [hset] at hperm
  refine ⟨r,?_,isHeap_iff.mpr hdone,hperm.trans (List.perm_append_singleton _ _)⟩
  rw [pushImpl,siftdown,hget_ok (show (heap ++ [item])[heap.length]? = some item by simp)]
  exact hr

theorem replaceImpl_spec (h : TotalPreorder less) (item : α)
    (hheap : IsHeap less maxHeap (root :: rest)) :
    ∃ r, replaceImpl less maxHeap (root :: rest) item = .ok (root, r) ∧ IsHeap less maxHeap r ∧
      r.Perm (item :: rest) := by
  obtain ⟨r,hr,hperm,hdone⟩ := siftup_root h item hheap
  refine ⟨r,?_,hdone,hperm⟩
  simp [replaceImpl,hget,hset,hr,bind,Except.bind,pure,Except.pure]

theorem pushpopImpl_spec (h : TotalPreorder less) (item : α)
    (hheap : IsHeap less maxHeap heap) :
    ∃ m r, pushpopImpl less maxHeap heap item = .ok (m, r) ∧ IsHeap less maxHeap r ∧
      (m :: r).Perm (item :: heap) ∧ ∀ x ∈ item :: heap, Above less maxHeap m x := by
  cases heap with
  | nil =>
    refine ⟨item,[],rfl,hheap,List.Perm.refl _,fun x hx => ?_⟩
    rw [List.mem_singleton.mp hx]
    exact h.above_refl item
  | cons root rest =>
    have habove := root_above h hheap
    cases hahead : ahead less maxHeap root item with
    | true =>
      obtain ⟨r,hr,hperm,hdone⟩ := siftup_root h item hheap
      refine ⟨root,r,?_,hdone,(hperm.cons root).trans (List.Perm.swap _ _ _),fun x hx => ?_⟩
      · simp [pushpopImpl,hget,hset,hr,hahead,bind,Except.bind,pure,Except.pure]
      · rcases List.mem_cons.mp hx with rfl | hx
        · exact h.above_of_ahead hahead
        · exact habove x hx
    | false =>
      refine ⟨item,root :: rest,?_,hheap,List.Perm.refl _,fun x hx => ?_⟩
      · simp [pushpopImpl,hget,hahead,bind,Except.bind,pure,Except.pure]
      · rcases List.mem_cons.mp hx with rfl | hx
        · exact h.above_refl _
        · exact h.above_trans item root x hahead (habove x hx)

theorem IsHeap.init {last : α} (h : IsHeap less maxHeap (heap ++ [last])) :
    IsHeap less maxHeap heap := by
  intro k c x y hc hx hy
  refine h k c x y hc ?_ ?_
  · rw [List.getElem?_append_left (List.getElem?_eq_some_iff.mp hx).1,hx]
  · rw [List.getElem?_append_left (List.getElem?_eq_some_iff.mp hy).1,hy]

theorem popImpl_spec (h : TotalPreorder less)
    (hheap : IsHeap less maxHeap (root :: rest)) :
    ∃ r, popImpl less maxHeap (root :: rest) = .ok (root, r) ∧ IsHeap less maxHeap r ∧
      r.Perm rest := by
  rcases List.eq_nil_or_concat' rest with rfl | ⟨front,last,rfl⟩
  · exact ⟨[],rfl,fun k c x y _ hx => (Option.some_ne_none x hx.symm).elim,List.Perm.refl _⟩
  · have hinit : IsHeap less maxHeap (root :: front) := IsHeap.init hheap
    obtain ⟨r,hr,hperm,hdone⟩ := siftup_root h last hinit
    have hlast : (root :: (front ++ [last])).getLast? = some last := by
      rw [← List.cons_append,List.getLast?_concat]
    have hdrop : (root :: (front ++ [last])).dropLast = root :: front := by
      rw [← List.cons_append,List.dropLast_concat]
    refine ⟨r,?_,hdone,hperm.trans (List.perm_append_singleton _ _).symm⟩
    simp [popImpl,hlast,hdrop,hget,hset,hr,bind,Except.bind,pure,Except.pure]

/-- The heap operations, for the min and for the max forms: `heapify` makes a heap of the same elements,
and the others keep a heap, add the item and take out what they return, which no element they choose
from belongs nearer to the root than. -/
theorem heap_operations_correct (less : α → α → Bool) (maxHeap : Bool) (h : TotalPreorder less) :
    (∀ heap, ∃ r, heapifyImpl less maxHeap heap = .ok r ∧ r.Perm heap ∧ IsHeap less maxHeap r) ∧
    (∀ heap item, IsHeap less maxHeap heap →
      ∃ r, pushImpl less maxHeap heap item = .ok r ∧ IsHeap less maxHeap r ∧
        r.Perm (item :: heap)) ∧
    (∀ heap, IsHeap less maxHeap heap → heap ≠ [] →
      ∃ m r, popImpl less maxHeap heap = .ok (m, r) ∧ IsHeap less maxHeap r ∧
        (m :: r).Perm heap ∧ ∀ x ∈ heap, ahead less maxHeap x m = false) ∧
    (∀ heap item, IsHeap less maxHeap heap → heap ≠ [] →
      ∃ m r, replaceImpl less maxHeap heap item = .ok (m, r) ∧ IsHeap less maxHeap r ∧
        (m :: r).Perm (item :: heap) ∧ ∀ x ∈ heap, ahead less maxHeap x m = false) ∧
    ∀ heap item, IsHeap less maxHeap heap →
      ∃ m r, pushpopImpl less maxHeap heap item = .ok (m, r) ∧ IsHeap less maxHeap r ∧
        (m :: r).Perm (item :: heap) ∧ ∀ x ∈ item :: heap, ahead less maxHeap x m = false := by
  refine ⟨heapifyImpl_spec h,fun _ item hheap => pushImpl_spec h item hheap,?_,?_,
    fun _ item hheap => pushpopImpl_spec h item hheap⟩
  · intro heap hheap hne
    obtain ⟨root,rest,rfl⟩ := List.exists_cons_of_ne_nil hne
    obtain ⟨r,hr,hdone,hperm⟩ := popImpl_spec h hheap
    exact ⟨root,r,hr,hdone,hperm.cons root,root_above h hheap⟩
  · intro heap item hheap hne
    obtain ⟨root,rest,rfl⟩ := List.exists_cons_of_ne_nil hne
    obtain ⟨r,hr,hdone,hperm⟩ := replaceImpl_spec h item hheap
    exact ⟨root,r,hr,hdone,(hperm.cons root).trans (List.Perm.swap _ _ _),root_above h hheap⟩

theorem heap_operations_on_naturals : ∃ r,
    heapifyImpl (fun a b : Nat => decide (a < b)) true [3, 1, 2] = .ok r ∧ r.Perm [3, 1, 2] ∧
      IsHeap (fun a b : Nat => decide (a < b)) true r :=
  (heap_operations_correct (fun a b : Nat => decide (a < b)) true
    ⟨fun a b => by simp; omega,fun a b c => by simp; omega⟩).1 [3,1,2]

/-- What a number of pops give. -/
def popTimes (less : α → α → Bool) (maxHeap : Bool) : Nat → List α → Except Halt (List α)
  | 0, _ => .ok []
  | n + 1, heap => do
    let (m, heap) ← popImpl less maxHeap heap
    return m :: (← popTimes less maxHeap n heap)

theorem popTimes_sorts (h : TotalPreorder less) {n : Nat} (hn : heap.length = n)
    (hheap : IsHeap less maxHeap heap) : ∃ out, popTimes less maxHeap n heap = .ok out ∧
      out.Perm heap ∧ out.Pairwise (Above less maxHeap) := by
  induction n generalizing heap with
  | zero =>
    cases List.eq_nil_of_length_eq_zero hn
    exact ⟨[],rfl,.refl _,.nil⟩
  | succ n ih =>
    obtain ⟨root,rest,rfl⟩ := List.exists_cons_of_length_eq_add_one hn
    obtain ⟨r,hr,hdone,hperm⟩ := popImpl_spec h hheap
    obtain ⟨out,hout,hall,hsorted⟩ := ih (hperm.length_eq.trans (Nat.succ.inj hn)) hdone
    refine ⟨root :: out,?_,(hall.trans hperm).cons root,.cons (fun x hx => ?_) hsorted⟩
    · simp only [popTimes,hr,hout,bind,Except.bind,pure,Except.pure]
    · exact root_above h hheap x (List.mem_cons_of_mem root ((hall.trans hperm).mem_iff.mp hx))

/-- Made a heap and popped until it is empty, a list comes out sorted, from the root's end of the order. -/
theorem heap_sorts (less : α → α → Bool) (maxHeap : Bool) (h : TotalPreorder less) (items : List α) :
    ∃ heap out, heapifyImpl less maxHeap items = .ok heap ∧
      popTimes less maxHeap items.length heap = .ok out ∧ out.Perm items ∧
      out.Pairwise (Above less maxHeap) := by
  obtain ⟨heap,hheap,hperm,hdone⟩ := heapifyImpl_spec h items
  obtain ⟨out,hout,hall,hsorted⟩ := popTimes_sorts h hperm.length_eq hdone
  exact ⟨heap,out,hheap,hout,hall.trans hperm,hsorted⟩

theorem heap_sorts_naturals : ∃ out : List Nat, out.Perm [3, 1, 2] ∧
    out.Pairwise (Above (fun a b => decide (a < b)) false) := by
  obtain ⟨_,out,-,-,hout⟩ := heap_sorts (fun a b : Nat => decide (a < b)) false
    ⟨fun a b => by simp; omega,fun a b c => by simp; omega⟩ [3,1,2]
  exact ⟨out,hout⟩

end
end Unagi.Runtime
