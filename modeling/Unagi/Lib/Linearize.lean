import Unagi.Lib.Maximal

/-! # One order from several

Several sequences each put their elements in an order. A merge takes, again and again, a head that is in
no tail. There is such a head as long as the orders together have no cycle, and what is merged is in the
order of every sequence. -/

namespace Unagi.Lib

variable {α : Type*}

def Precedes (seqs : List (List α)) (x y : α) : Prop := ∃ s ∈ seqs, [x, y].Sublist s
def Acyclic (r : α → α → Prop) : Prop := ∀ x, ¬ Relation.TransGen r x x
def GoodHead (seqs : List (List α)) (x : α) : Prop :=
  (∃ s ∈ seqs, s.head? = some x) ∧ ∀ s ∈ seqs, x ∉ s.tail

/-- A list without repetitions of the elements of the sequences, in the order of each. -/
structure Merged (seqs : List (List α)) (r : List α) : Prop where
  nodup : r.Nodup
  sublist : ∀ s ∈ seqs, s.Sublist r
  mem : ∀ x ∈ r, ∃ s ∈ seqs, x ∈ s

theorem Acyclic.mono {r r' : α → α → Prop} (h : Acyclic r) (hle : ∀ x y, r' x y → r x y) :
    Acyclic r' :=
  fun x hx => h x (Relation.TransGen.mono hle _ _ hx)

variable {seqs : List (List α)} {x : α}

theorem precedes_of_mem_tail {s : List α} {y : α} (hs : s ∈ seqs)
    (hx : s.head? = some x) (hy : y ∈ s.tail) : Precedes seqs x y := by
  cases s with
  | nil => cases hy
  | cons z s =>
    cases hx
    exact ⟨_,hs,(List.singleton_sublist.mpr hy).cons_cons x⟩

theorem Acyclic.exists_first {r : α → α → Prop} (h : Acyclic r) {l : List α} (hl : l ≠ []) :
    ∃ x ∈ l, ∀ y ∈ l, ¬ r y x := by
  classical
  obtain ⟨a,ha⟩ := List.exists_mem_of_ne_nil l hl
  obtain ⟨x,hx,-,hfirst⟩ := exists_maximal_above (fun x y => Relation.TransGen r y x) l
    (fun _ _ _ _ _ _ hxy hyz => hyz.trans hxy) (fun x _ => h x) ha
  exact ⟨x,hx,fun y hy hyx => hfirst y hy (.single hyx)⟩

theorem Acyclic.exists_goodHead (h : Acyclic (Precedes seqs))
    (hlive : ∃ s ∈ seqs, s ≠ []) : ∃ x, GoodHead seqs x := by
  have hne : seqs.flatten ≠ [] := by simpa using hlive
  obtain ⟨x,hx,hfirst⟩ := h.exists_first hne
  have htail (s : List α) (hs : s ∈ seqs) : x ∉ s.tail := by
    intro hmem
    cases s with
    | nil => cases hmem
    | cons y s =>
      exact hfirst y (List.mem_flatten.mpr ⟨_,hs,by simp⟩) (precedes_of_mem_tail hs rfl hmem)
  obtain ⟨s,hs,hxs⟩ := List.mem_flatten.mp hx
  refine ⟨x,⟨s,hs,?_⟩,htail⟩
  cases s with
  | nil => cases hxs
  | cons y s =>
    rcases List.mem_cons.mp hxs with rfl | hxs
    · rfl
    · exact absurd hxs (htail _ hs)

section
variable [DecidableEq α]

def dropHead (x : α) (seqs : List (List α)) : List (List α) :=
  seqs.map fun s => if s.head? = some x then s.tail else s
theorem sublist_of_dropped (x : α) (s : List α) :
    (if s.head? = some x then s.tail else s).Sublist s := by
  split
  · exact List.tail_sublist s
  · exact List.Sublist.refl s
theorem precedes_of_dropHead {y z : α}
    (h : Precedes (dropHead x seqs) y z) : Precedes seqs y z := by
  obtain ⟨s',hs',hyz⟩ := h
  obtain ⟨s,hs,rfl⟩ := List.mem_map.mp hs'
  exact ⟨s,hs,hyz.trans (sublist_of_dropped x s)⟩

theorem length_dropHead_lt (h : ∃ s ∈ seqs, s.head? = some x) :
    (dropHead x seqs).flatten.length < seqs.flatten.length := by
  have hle (ts : List (List α)) : (dropHead x ts).flatten.length ≤ ts.flatten.length := by
    induction ts with
    | nil => exact Nat.le_refl 0
    | cons t ts ih =>
      have ht := (sublist_of_dropped x t).length_le
      simp only [dropHead,List.map_cons,List.flatten_cons,List.length_append] at ih ⊢
      omega
  obtain ⟨s,hs,hx⟩ := h
  obtain ⟨as,bs,rfl⟩ := List.append_of_mem hs
  have has := hle as
  have hbs := hle bs
  cases s with
  | nil => cases hx
  | cons y s =>
    simp only [dropHead,List.map_append,List.map_cons,List.flatten_append,List.flatten_cons,
      List.length_append,if_pos hx,List.tail_cons,List.length_cons] at has hbs ⊢
    omega

theorem Merged.cons {r : List α} (hx : GoodHead seqs x)
    (h : Merged (dropHead x seqs) r) : Merged seqs (x :: r) where
  nodup := by
    refine List.nodup_cons.mpr ⟨fun hmem => ?_,h.nodup⟩
    obtain ⟨s',hs',hxs⟩ := h.mem x hmem
    obtain ⟨s,hs,rfl⟩ := List.mem_map.mp hs'
    have htail := hx.2 s hs
    split at hxs
    · exact htail hxs
    · next hhead =>
      cases s with
      | nil => cases hxs
      | cons y s =>
        rcases List.mem_cons.mp hxs with rfl | hxs
        · exact hhead rfl
        · exact htail hxs
  sublist := by
    intro s hs
    have hsub := h.sublist _ (List.mem_map_of_mem hs)
    split at hsub
    · next hhead =>
      cases s with
      | nil => cases hhead
      | cons y s =>
        cases hhead
        exact hsub.cons_cons x
    · exact hsub.cons x
  mem := by
    intro y hy
    rcases List.mem_cons.mp hy with rfl | hy
    · obtain ⟨s,hs,hhead⟩ := hx.1
      exact ⟨s,hs,List.mem_of_mem_head? hhead⟩
    · obtain ⟨s',hs',hys⟩ := h.mem y hy
      obtain ⟨s,hs,rfl⟩ := List.mem_map.mp hs'
      exact ⟨s,hs,(sublist_of_dropped x s).subset hys⟩

theorem Merged.acyclic {r : List α} (h : Merged seqs r) :
    Acyclic (Precedes seqs) := by
  have hstep (x y : α) (hxy : Precedes seqs x y) : r.idxOf x < r.idxOf y := by
    obtain ⟨s,hs,hsub⟩ := hxy
    obtain ⟨as,bs,hr,hx,hy⟩ := List.append_sublist_iff.mp
      (show ([x] ++ [y]).Sublist r from hsub.trans (h.sublist s hs))
    have hxas := List.singleton_sublist.mp hx
    have hynot : y ∉ as := by
      intro hyas
      have hnodup := h.nodup
      rw [hr] at hnodup
      exact (List.nodup_append.mp hnodup).2.2 y hyas y (List.singleton_sublist.mp hy) rfl
    rw [hr,List.idxOf_append_of_mem hxas,List.idxOf_append_of_notMem hynot]
    exact Nat.lt_of_lt_of_le (List.idxOf_lt_length_of_mem hxas) (Nat.le_add_right _ _)
  intro x hx
  have hlt {y : α} (hxy : Relation.TransGen (Precedes seqs) x y) : r.idxOf x < r.idxOf y := by
    induction hxy with
    | single hxy => exact hstep _ _ hxy
    | tail _ hyz ih => exact Nat.lt_trans ih (hstep _ _ hyz)
  exact Nat.lt_irrefl _ (hlt hx)

end
end Unagi.Lib
