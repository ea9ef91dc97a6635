import Unagi.Lib.Linearize
import Unagi.Objects.Halt

/-! # The method resolution order

`c3Linearize` merges the linearizations of the bases and the list of the bases, with `object` at the end
of each, and drops `object` from the result. It succeeds exactly if these orders have no cycle. -/

namespace Unagi.Objects

open Lib

/-- The classes of a program: their names, bases and linearizations. A class is made after its bases, so
it is not among its own ancestors, and `object` has no bases. -/
structure Classes (C : Type) where
  object : C
  name : C → String
  bases : C → List C
  mro : C → List C
  rooted : bases object = []
  acyclic : Acyclic fun c b => b ∈ bases c

section
variable {C : Type} [DecidableEq C]

def liveSeqs (seqs : List (List C)) : List (List C) := seqs.filter fun s => !s.isEmpty
def inSomeTail (c : C) (seqs : List (List C)) : Bool := seqs.any fun s => s.tail.contains c
def blockedNames (name : C → String) (seqs : List (List C)) : String :=
  ", ".intercalate ((seqs.filterMap List.head?).eraseDups.map name)
def candidate (live : List (List C)) : Option C :=
  (live.filterMap List.head?).find? fun head => !inSomeTail head live

variable {c x : C} {seqs : List (List C)}

theorem goodHead_of_candidate {live : List (List C)} (h : candidate live = some c) :
    GoodHead live c := by
  constructor
  · simpa [candidate] using List.mem_of_find?_eq_some h
  · simpa [inSomeTail] using List.find?_some h

/-- The merge: take a head that is in no tail and remove it from every head, until nothing is left. -/
def c3Merge (name : C → String) (seqs : List (List C)) : Except Halt (List C) :=
  if (liveSeqs seqs).isEmpty then .ok []
  else
    match _hc : candidate (liveSeqs seqs) with
    | none => raise .typeError
        ("Cannot create a consistent method resolution order (MRO) for bases " ++
          blockedNames name (liveSeqs seqs))
    | some cand => (cand :: ·) <$> c3Merge name (dropHead cand (liveSeqs seqs))
termination_by seqs.flatten.length
decreasing_by
  rw [← List.flatten_filter_not_isEmpty (L := seqs)]
  exact length_dropHead_lt (goodHead_of_candidate _hc).1

variable {name : C → String}

theorem c3Merge_nil (h : liveSeqs seqs = []) : c3Merge name seqs = .ok [] := by
  rw [c3Merge,if_pos (by rw [h]; rfl)]

theorem c3Merge_cons (hc : candidate (liveSeqs seqs) = some c) :
    c3Merge name seqs = (c :: ·) <$> c3Merge name (dropHead c (liveSeqs seqs)) := by
  have hlive : ¬ (liveSeqs seqs).isEmpty = true := by
    intro h
    rw [List.isEmpty_iff.mp h] at hc
    cases hc
  rw [c3Merge,if_neg hlive]
  split
  · rename_i hnone
    cases hnone.symm.trans hc
  · rename_i cand hcand
    rw [Option.some.inj (hcand.symm.trans hc)]

variable (w : Classes C)

def fullMRO (b : C) : List C := if b = w.object then [w.object] else w.mro b ++ [w.object]

/-- The bases in their order, with `object` last unless it is a base. -/
def baseSeq (c : C) : List C :=
  if w.object ∈ w.bases c then w.bases c else w.bases c ++ [w.object]

def sequences (c : C) : List (List C) := (w.bases c).map (fullMRO w) ++ [baseSeq w c]
def dropClass (cs : List C) (drop : C) : List C := cs.filter (· ≠ drop)

def c3Linearize (c : C) : Except Halt (List C) :=
  if (w.bases c).length = 0 then .ok [c]
  else do
    let merged ← c3Merge w.name (sequences w c)
    return dropClass (c :: merged) w.object

variable {w}

omit [DecidableEq C] in
theorem merged_of_live {r : List C} (h : Merged (liveSeqs seqs) r) : Merged seqs r where
  nodup := h.nodup
  sublist := by
    intro s hs
    cases s with
    | nil => exact List.nil_sublist r
    | cons x s => exact h.sublist _ (List.mem_filter.mpr ⟨hs,rfl⟩)
  mem := by
    intro x hx
    obtain ⟨s,hs,hxs⟩ := h.mem x hx
    exact ⟨s,List.mem_of_mem_filter hs,hxs⟩

theorem c3Merge_merged {r : List C} (h : c3Merge name seqs = .ok r) : Merged seqs r := by
  fun_induction c3Merge name seqs generalizing r with
  | case1 seqs hlive =>
    cases h
    refine merged_of_live ⟨List.nodup_nil,?_,by simp⟩
    intro s hs
    rw [List.isEmpty_iff.mp hlive] at hs
    cases hs
  | case2 seqs hlive hc => cases h
  | case3 seqs hlive cand hc ih =>
    cases hrest : c3Merge name (dropHead cand (liveSeqs seqs)) with
    | error halt =>
      rw [hrest] at h
      cases h
    | ok rest =>
      rw [hrest] at h
      cases h
      exact merged_of_live ((ih hrest).cons (goodHead_of_candidate hc))

theorem candidate_isSome {live : List (List C)} (h : GoodHead live c) :
    candidate live ≠ none := by
  intro hnone
  have hmem : c ∈ live.filterMap List.head? := by simpa using h.1
  have hblocked : inSomeTail c live := by simpa using List.find?_eq_none.mp hnone c hmem
  obtain ⟨s,hs,hc⟩ := List.any_eq_true.mp hblocked
  exact h.2 s hs (by simpa using hc)

theorem c3Merge_ok (name : C → String) (h : Acyclic (Precedes seqs)) :
    ∃ r, c3Merge name seqs = .ok r := by
  fun_induction c3Merge name seqs with
  | case1 seqs hlive => exact ⟨[],rfl⟩
  | case2 seqs hlive hc =>
    have hacyclic : Acyclic (Precedes (liveSeqs seqs)) :=
      h.mono fun x y ⟨s,hs,hxy⟩ => ⟨s,List.mem_of_mem_filter hs,hxy⟩
    obtain ⟨s,hs⟩ := List.exists_mem_of_ne_nil (liveSeqs seqs) (by simpa using hlive)
    obtain ⟨c,hgood⟩ := hacyclic.exists_goodHead
      ⟨s,hs,by simpa using (List.mem_filter.mp hs).2⟩
    exact absurd hc (candidate_isSome hgood)
  | case3 seqs hlive cand hc ih =>
    have hacyclic : Acyclic (Precedes (dropHead cand (liveSeqs seqs))) := by
      refine h.mono fun x y hxy => ?_
      obtain ⟨s,hs,hsub⟩ := precedes_of_dropHead hxy
      exact ⟨s,List.mem_of_mem_filter hs,hsub⟩
    obtain ⟨rest,hrest⟩ := ih hacyclic
    exact ⟨cand :: rest,by rw [hrest]; rfl⟩

theorem c3Merge_error {halt : Halt} (h : c3Merge name seqs = .error halt) :
    ∃ msg, halt = .raise ⟨.typeError, msg⟩ := by
  fun_induction c3Merge name seqs generalizing halt with
  | case1 => cases h
  | case2 =>
    cases h
    exact ⟨_,rfl⟩
  | case3 seqs hlive cand hc ih =>
    cases hrest : c3Merge name (dropHead cand (liveSeqs seqs)) with
    | ok rest =>
      rw [hrest] at h
      cases h
    | error e =>
      rw [hrest] at h
      cases h
      exact ih hrest

/-! ## The linearization -/

def Classes.Ancestor (w : Classes C) (c x : C) : Prop :=
  Relation.TransGen (fun c b => b ∈ w.bases c) c x

/-- The stored order of a class lists the class first, and then its ancestors other than `object`. -/
structure Linear (w : Classes C) (b : C) : Prop where
  head : (w.mro b).head? = some b
  nodup : (w.mro b).Nodup
  mem : ∀ x, x ∈ w.mro b ↔ x ≠ w.object ∧ (x = b ∨ w.Ancestor b x)

/-- A linearization of a class: each ancestor other than `object` once, behind the class, in the order of
every base's linearization and of the bases. -/
structure Linearizes (w : Classes C) (c : C) (r : List C) : Prop where
  head : r.head? = some c
  nodup : r.Nodup
  mem : ∀ x, x ∈ r ↔ x = c ∨ w.Ancestor c x ∧ x ≠ w.object
  mros : ∀ b ∈ w.bases c, b ≠ w.object → (w.mro b).Sublist r
  order : (dropClass (w.bases c) w.object).Sublist r

omit [DecidableEq C] in
theorem ancestor_iff :
    w.Ancestor c x ↔ ∃ b ∈ w.bases c, x = b ∨ w.Ancestor b x := by
  rw [Classes.Ancestor,Relation.TransGen.head'_iff]
  constructor
  · rintro ⟨b,hb,hx⟩
    exact ⟨b,hb,(Relation.reflTransGen_iff_eq_or_transGen.mp hx)⟩
  · rintro ⟨b,hb,hx⟩
    exact ⟨b,hb,Relation.reflTransGen_iff_eq_or_transGen.mpr hx⟩

omit [DecidableEq C] in
theorem not_ancestor_object (x : C) : ¬ w.Ancestor w.object x := by
  rw [ancestor_iff,w.rooted]
  rintro ⟨b,hb,-⟩
  cases hb

theorem mem_baseSeq (h : x ∈ baseSeq w c) : x = w.object ∨ x ∈ w.bases c := by
  rw [baseSeq] at h
  split at h
  · exact .inr h
  · rcases List.mem_append.mp h with hx | hx
    · exact .inr hx
    · exact .inl (List.mem_singleton.mp hx)

theorem bases_sublist_baseSeq (c : C) : (w.bases c).Sublist (baseSeq w c) := by
  rw [baseSeq]
  split
  · exact List.Sublist.refl _
  · exact List.sublist_append_left _ _

theorem mem_sequences_iff (hlinear : ∀ b ∈ w.bases c, b ≠ w.object → Linear w b)
    (hx : x ≠ w.object) : (∃ s ∈ sequences w c, x ∈ s) ↔ w.Ancestor c x := by
  rw [ancestor_iff]
  constructor
  · rintro ⟨s,hs,hxs⟩
    rcases List.mem_append.mp hs with hs | hs
    · obtain ⟨b,hb,rfl⟩ := List.mem_map.mp hs
      rw [fullMRO] at hxs
      split at hxs
      · exact absurd (List.mem_singleton.mp hxs) hx
      · next hobject =>
        have hmro : x ∈ w.mro b := by simpa [hx] using hxs
        exact ⟨b,hb,(((hlinear b hb hobject).mem x).mp hmro).2⟩
    · rw [List.mem_singleton.mp hs] at hxs
      exact ⟨x,(mem_baseSeq hxs).resolve_left hx,.inl rfl⟩
  · rintro ⟨b,hb,hanc⟩
    refine ⟨fullMRO w b,List.mem_append_left _ (List.mem_map_of_mem hb),?_⟩
    have hobject : b ≠ w.object := by
      rintro rfl
      exact hanc.elim hx (not_ancestor_object x)
    rw [fullMRO,if_neg hobject]
    exact List.mem_append_left _ (((hlinear b hb hobject).mem x).mpr ⟨hx,hanc⟩)

theorem linearizes_of_merged {m : List C} (hbases : w.bases c ≠ [])
    (hlinear : ∀ b ∈ w.bases c, b ≠ w.object → Linear w b) (hm : Merged (sequences w c) m) :
    Linearizes w c (dropClass (c :: m) w.object) := by
  have hc : c ≠ w.object := by
    rintro rfl
    exact hbases w.rooted
  have hmem (x : C) : x ∈ dropClass m w.object ↔ w.Ancestor c x ∧ x ≠ w.object := by
    simp only [dropClass,List.mem_filter,decide_eq_true_eq]
    refine and_congr_left fun hx => ?_
    rw [← mem_sequences_iff hlinear hx]
    exact ⟨hm.mem x,fun ⟨s,hs,hxs⟩ => (hm.sublist s hs).subset hxs⟩
  have hcons : dropClass (c :: m) w.object = c :: dropClass m w.object := by
    simp [dropClass,hc]
  have hsub {s : List C} (hs : s.Sublist m) :
      (dropClass s w.object).Sublist (c :: dropClass m w.object) := (hs.filter _).cons c
  rw [hcons]
  constructor
  case head => rfl
  case nodup =>
    refine List.nodup_cons.mpr ⟨fun hcm => ?_,hm.nodup.filter _⟩
    exact w.acyclic c ((hmem c).mp hcm).1
  case mem =>
    intro x
    rw [List.mem_cons,hmem]
  case mros =>
    intro b hb hobject
    have hfull := hm.sublist (fullMRO w b) (List.mem_append_left _ (List.mem_map_of_mem hb))
    rw [fullMRO,if_neg hobject] at hfull
    have hmro := hsub ((List.sublist_append_left _ _).trans hfull)
    have hdrop : dropClass (w.mro b) w.object = w.mro b :=
      List.filter_eq_self.mpr fun x hx => by simpa using (((hlinear b hb hobject).mem x).mp hx).1
    rwa [hdrop] at hmro
  case order =>
    apply hsub
    exact (bases_sublist_baseSeq c).trans
      (hm.sublist _ (List.mem_append_right _ (List.mem_singleton_self _)))

theorem linearizes_alone (hbases : w.bases c = []) : Linearizes w c [c] := by
  have hanc (x : C) : ¬ w.Ancestor c x := by
    rw [ancestor_iff,hbases]
    rintro ⟨b,hb,-⟩
    cases hb
  constructor <;> simp [hbases,hanc,dropClass]
theorem acyclic_alone (hbases : w.bases c = []) : Acyclic (Precedes (sequences w c)) := by
  have hseqs : sequences w c = [[w.object]] := by simp [sequences,baseSeq,hbases]
  rw [hseqs]
  exact (Merged.mk (List.nodup_singleton w.object) (by simp) (by simp)).acyclic

/-- The linearization of a class whose bases have linearizations succeeds exactly if the orders that it
merges have no cycle together. What it returns is a linearization, and it fails with a `TypeError`. -/
theorem c3_linearize_iff_acyclic (w : Classes C) (c : C)
    (hlinear : ∀ b ∈ w.bases c, b ≠ w.object → Linear w b) :
    ((∃ r, c3Linearize w c = .ok r) ↔ Acyclic (Precedes (sequences w c))) ∧
    (∀ r, c3Linearize w c = .ok r → Linearizes w c r) ∧
    ∀ halt, c3Linearize w c = .error halt → ∃ msg, halt = .raise ⟨.typeError, msg⟩ := by
  by_cases hbases : w.bases c = []
  · have hok : c3Linearize w c = .ok [c] := if_pos (by simp [hbases])
    refine ⟨iff_of_true ⟨_,hok⟩ (acyclic_alone hbases),fun r hr => ?_,fun halt he => ?_⟩
    · rw [hok] at hr
      cases hr
      exact linearizes_alone hbases
    · rw [hok] at he
      cases he
  · have heq : c3Linearize w c = (do
        let merged ← c3Merge w.name (sequences w c)
        return dropClass (c :: merged) w.object) := if_neg (by simpa using hbases)
    rw [heq]
    cases hm : c3Merge w.name (sequences w c) with
    | ok m =>
      have hmerged := c3Merge_merged hm
      refine ⟨iff_of_true ⟨_,rfl⟩ hmerged.acyclic,fun r hr => ?_,fun halt he => by cases he⟩
      cases hr
      exact linearizes_of_merged hbases hlinear hmerged
    | error halt =>
      refine ⟨iff_of_false ?_ fun hacyclic => ?_,fun r hr => ?_,fun e he => ?_⟩
      · rintro ⟨r,hr⟩
        cases hr
      · obtain ⟨r,hr⟩ := c3Merge_ok w.name hacyclic
        rw [hm] at hr
        cases hr
      · cases hr
      · cases he
        exact c3Merge_error hm

end

/-- `A`, `B` and `C` over it, and `D` over both, by the numbers 1 to 4. -/
def diamond : Classes Nat where
  object := 0
  name := toString
  bases := fun c => if c = 0 then [] else if c = 4 then [2, 3] else if c = 2 ∨ c = 3 then [1] else [0]
  mro := fun c => if c = 4 then [4, 2, 3, 1] else if c = 2 ∨ c = 3 then [c, 1] else [c]
  rooted := rfl
  acyclic := by
    have hlt {x y : Nat} (h : Relation.TransGen (fun c b => b ∈ if c = 0 then [] else
        if c = 4 then [2, 3] else if c = 2 ∨ c = 3 then [1] else [0]) x y) : y < x := by
      induction h with
      | single h => grind
      | tail _ h ih => grind
    exact fun x hx => Nat.lt_irrefl x (hlt hx)

/-- The linearization of `D`. -/
theorem c3_linearize_diamond :
    c3Linearize diamond 4 = .ok [4, 2, 3, 1] ∧ Linearizes diamond 4 [4, 2, 3, 1] := by
  have hmerge : c3Merge diamond.name (sequences diamond 4) = .ok [2,3,1,0] := by
    rw [c3Merge_cons (c := 2) rfl,c3Merge_cons (c := 3) rfl,c3Merge_cons (c := 1) rfl,
      c3Merge_cons (c := 0) rfl,c3Merge_nil rfl]
    rfl
  have hok : c3Linearize diamond 4 = .ok [4,2,3,1] := by
    rw [c3Linearize,hmerge]
    rfl
  have hobject (x : Nat) : ¬ diamond.Ancestor 0 x := not_ancestor_object (w := diamond) x
  have hone (x : Nat) : diamond.Ancestor 1 x ↔ x = 0 := by
    simp [ancestor_iff (w := diamond) (c := 1),show diamond.bases 1 = [0] from rfl,hobject]
  have htop {b : Nat} (hb : b = 2 ∨ b = 3) : Linear diamond b := by
    have hbases : diamond.bases b = [1] ∧ diamond.mro b = [b,1] := by
      rcases hb with rfl | rfl <;> exact ⟨rfl,rfl⟩
    refine ⟨by rw [hbases.2]; rfl,by rw [hbases.2]; grind,fun x => ?_⟩
    rw [hbases.2,ancestor_iff,hbases.1]
    simp only [List.mem_singleton,exists_eq_left,hone]
    grind [diamond]
  refine ⟨hok,(c3_linearize_iff_acyclic diamond 4 fun b hb _ => htop ?_).2.1 _ hok⟩
  simpa [diamond] using hb
end Unagi.Objects
