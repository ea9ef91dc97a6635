import Mathlib.Data.Set.Card
import Unagi.Lib.Worklist

/-! # How far Dyn spreads

`Analyze` counts for each Dyn origin the slots that it poisons, and names for each function the
origin that poisons most of it. An origin on a cycle counts itself, and slot 0 loses ties that it
should win. -/

namespace Unagi.Types

/-! ## The code -/

inductive OriginKind where
  | none | exportedParam | unannotatedParam | returnsAny | externalImport | dynamicAttr
deriving DecidableEq

structure Slot where
  id : Int
  func : String
  dyn : Bool
  origin : OriginKind
deriving DecidableEq

structure TaintGraph where
  slots : List Slot
  edges : Int → List Int
  distinct : (slots.map Slot.id).Nodup

namespace TaintGraph

def new : TaintGraph := ⟨[], fun _ => [], List.nodup_nil⟩

/-- A slot replaces the earlier one of its id. -/
def addSlot (g : TaintGraph) (s : Slot) : TaintGraph where
  slots := if s.id ∈ g.slots.map Slot.id then g.slots.map (fun t => if t.id = s.id then s else t)
    else g.slots ++ [s]
  edges := g.edges
  distinct := by
    split
    · have hids : (g.slots.map fun t => if t.id = s.id then s else t).map Slot.id =
          g.slots.map Slot.id := by
        rw [List.map_map]
        apply List.map_congr_left
        intro t _
        by_cases h : t.id = s.id <;> simp [h]
      rw [hids]
      exact g.distinct
    · rename_i hnew
      rw [List.map_append,List.nodup_append]
      exact ⟨g.distinct, List.nodup_singleton _, by simpa using hnew⟩

def addEdge (g : TaintGraph) (src dst : Int) : TaintGraph where
  slots := g.slots
  edges := fun id => if id = src ∧ dst ∉ g.edges src then g.edges src ++ [dst] else g.edges id
  distinct := g.distinct

variable (g : TaintGraph)

def slot? (id : Int) : Option Slot := g.slots.find? (·.id = id)
def isDyn (id : Int) : Bool := (g.slot? id).any Slot.dyn

/-- The fuel is enough for every edge out of the origin and out of a slot. -/
def poisonSet (origin : Int) : List Int :=
  (Lib.worklist g.isDyn g.edges ((g.edges origin).length +
    Lib.pending g.edges (g.slots.map Slot.id) []) (g.edges origin).reverse []).getD []

end TaintGraph

structure OriginRank where
  slot : Slot
  poisons : Nat

/-- The report while the origins are looked at; `bestCause` is read as 0 where it is not set. -/
structure ContagionReport where
  total : Nat
  dynDyn : Nat
  origins : List OriginRank
  cause : String → Option Int
  bestCause : String → Nat

def originWins (candidate current : Int) : Bool := current = 0 || candidate < current

/-- The entry of one function after the origin `id` that reaches `n` of its slots. -/
def improve (best : Nat) (cause : Option Int) (n : Nat) (id : Int) : Nat × Option Int :=
  if n ≠ 0 ∧ (best < n ∨ n = best ∧ originWins id (cause.getD 0) = true) then (n, some id)
  else (best, cause)

namespace TaintGraph
variable (g : TaintGraph)

def perFunc (reached : List Int) (fn : String) : Nat :=
  reached.countP fun id => (g.slot? id).any (·.func = fn)

/-- The functions of a report are looked at in the order of a map, and each has its own entry. -/
def addOrigin (r : ContagionReport) (s : Slot) : ContagionReport :=
  let reached := g.poisonSet s.id
  let entry fn := improve (r.bestCause fn) (r.cause fn) (g.perFunc reached fn) s.id
  { r with
    origins := r.origins ++ [⟨s, reached.length⟩]
    cause := fun fn => (entry fn).2
    bestCause := fun fn => (entry fn).1 }

def dynOrigins : List Slot := g.slots.filter fun s => s.dyn && s.origin ≠ .none
def analyze : ContagionReport :=
  let r := g.dynOrigins.foldl g.addOrigin
    ⟨g.slots.length, g.slots.countP Slot.dyn, [], fun _ => none, fun _ => 0⟩
  { r with origins := r.origins.insertionSort fun a b =>
      b.poisons < a.poisons ∨ a.poisons = b.poisons ∧ a.slot.id ≤ b.slot.id }

end TaintGraph

def ContagionReport.causeFor (r : ContagionReport) (fn : String) : Option Slot :=
  (r.cause fn).bind fun id => (r.origins.find? (·.slot.id = id)).map OriginRank.slot

namespace TaintGraph
variable (g : TaintGraph)

/-- The first slot flows into the second one along edges, and through Dyn slots only. -/
def Reaches : Int → Int → Prop := Relation.TransGen (Lib.Leads g.isDyn g.edges)

def Poisons (o x : Int) : Prop := g.Reaches o x ∧ x ≠ o
def InFunc (fn : String) (x : Int) : Prop := (g.slot? x).any (·.func = fn) = true

noncomputable def count (fn : String) (o : Int) : Nat := {x | g.Poisons o x ∧ g.InFunc fn x}.ncard

theorem mem_ids_of_isDyn {x : Int} (h : g.isDyn x = true) : x ∈ g.slots.map Slot.id := by
  rw [isDyn,slot?] at h
  cases hs : g.slots.find? (·.id = x) with
  | none => simp [hs] at h
  | some s =>
    have hid : s.id = x := by simpa using List.find?_some hs
    exact List.mem_map.mpr ⟨s,List.mem_of_find?_eq_some hs,hid⟩

theorem poisonSet_spec (o : Int) :
    (g.poisonSet o).Nodup ∧ ∀ x, x ∈ g.poisonSet o ↔ g.Reaches o x := by
  obtain ⟨found,hrun,hnd,hmem⟩ := Lib.worklist_reaches g.isDyn g.edges g.distinct
    (fun _ => g.mem_ids_of_isDyn) o
  rw [poisonSet,hrun]
  exact ⟨hnd,hmem⟩
theorem ncard_of_nodup {l : List Int} (h : l.Nodup) : {x | x ∈ l}.ncard = l.length := by
  rw [← List.toFinset_card_of_nodup h,← Set.ncard_coe_finset,List.coe_toFinset]

theorem ncard_poisons (o : Int) :
    {x | g.Poisons o x}.ncard = ((g.poisonSet o).filter (· ≠ o)).length := by
  obtain ⟨hnd,hmem⟩ := g.poisonSet_spec o
  rw [← ncard_of_nodup (hnd.filter _)]
  congr 1
  ext x
  simp [Poisons,hmem]

theorem length_poisonSet_iff (o : Int) :
    (g.poisonSet o).length = {x | g.Poisons o x}.ncard ↔ ¬ g.Reaches o o := by
  rw [ncard_poisons,eq_comm,List.length_filter_eq_length_iff,← (g.poisonSet_spec o).2]
  constructor
  · intro h ho
    simpa using h o ho
  · intro ho x hx
    rw [decide_eq_true_eq]
    rintro rfl
    exact ho hx

theorem perFunc_poisonSet {o : Int} (ho : ¬ g.Reaches o o) (fn : String) :
    g.perFunc (g.poisonSet o) fn = g.count fn o := by
  obtain ⟨hnd,hmem⟩ := g.poisonSet_spec o
  rw [perFunc,List.countP_eq_length_filter,count,← ncard_of_nodup (hnd.filter _)]
  congr 1
  ext x
  have hne : g.Reaches o x → x ≠ o := fun h hx => ho (hx ▸ h)
  simp only [List.mem_filter,hmem,Set.mem_ofPred_eq,Poisons,InFunc]
  tauto

theorem count_pos_iff {fn : String} {o : Int} :
    0 < g.count fn o ↔ ∃ x, g.Poisons o x ∧ g.InFunc fn x := by
  have hfinite : {x | g.Poisons o x ∧ g.InFunc fn x}.Finite := by
    apply (List.finite_toSet (g.poisonSet o)).subset
    intro x hx
    exact ((g.poisonSet_spec o).2 x).mpr hx.1.1
  rw [count,Set.ncard_pos hfinite]
  rfl

end TaintGraph

/-! ## The best cause -/

/-- The last of the entries with `b` slots is that of slot 0. -/
def ZeroLast (L : List (Int × Nat)) (b : Nat) : Prop :=
  (L.filter (·.2 = b)).getLast? = some (0, b)

def Decided (L : List (Int × Nat)) (b : Nat) : Option Int → Prop
  | none => b = 0 ∧ ∀ p ∈ L, p.2 = 0
  | some c => 0 < b ∧ (c, b) ∈ L ∧ (∀ p ∈ L, p.2 ≤ b) ∧
    ((∀ p ∈ L, p.2 = b → c ≤ p.1) ∧ (c = 0 → ZeroLast L b) ∨
      (0, b) ∈ L ∧ (∀ p ∈ L, p.2 = b → 0 ≤ p.1) ∧ 0 < c ∧ ¬ ZeroLast L b)

theorem zeroLast_append {L : List (Int × Nat)} {b n : Nat} {id : Int} :
    ZeroLast (L ++ [(id, n)]) b ↔ if n = b then id = 0 else ZeroLast L b := by
  unfold ZeroLast
  rw [List.filter_append]
  split
  · rename_i h
    simp [h]
  · rename_i h
    simp [h]

theorem decided_append {L : List (Int × Nat)} {b n : Nat} {c : Option Int} {id : Int}
    (h : Decided L b c) (hid : ∀ p ∈ L, p.1 ≠ id) :
    Decided (L ++ [(id, n)]) (improve b c n id).1 (improve b c n id).2 := by
  have hzero : (0, b) ∈ L → id ≠ 0 := fun h0 h => hid _ h0 h.symm
  -- an entry above all others
  have hraise : 0 < n → (∀ p ∈ L, p.2 < n) → Decided (L ++ [(id, n)]) n (some id) := by
    intro hn hlt
    simp only [Decided,List.forall_mem_append,List.forall_mem_singleton,zeroLast_append,if_true]
    refine ⟨hn,by simp,⟨fun p hp => (hlt p hp).le,le_refl n⟩,.inl ⟨⟨?_,fun _ => le_refl id⟩,fun h => h⟩⟩
    intro p hp hpn
    exact absurd (hlt p hp) (by omega)
  unfold improve
  cases c with
  | none =>
    obtain ⟨rfl,hall⟩ := h
    by_cases hn : n = 0
    · rw [if_neg (by simp [hn])]
      exact ⟨rfl,List.forall_mem_append.mpr ⟨hall,List.forall_mem_singleton.mpr hn⟩⟩
    · rw [if_pos ⟨hn,.inl (by omega)⟩]
      exact hraise (by omega) fun p hp => by rw [hall p hp]; omega
  | some c =>
    obtain ⟨hb,hc,hmax,hstate⟩ := h
    rcases Nat.lt_trichotomy n b with hlt | rfl | hgt
    · rw [if_neg (by omega)]
      simp only [Decided,List.forall_mem_append,List.forall_mem_singleton,zeroLast_append,
        if_neg (Nat.ne_of_lt hlt)]
      refine ⟨hb,List.mem_append_left _ hc,⟨hmax,hlt.le⟩,?_⟩
      rcases hstate with ⟨hmin,hlast⟩ | ⟨h0,hnonneg,hpos,hnot⟩
      · exact .inl ⟨⟨hmin,fun h => absurd h (Nat.ne_of_lt hlt)⟩,hlast⟩
      · exact .inr ⟨List.mem_append_left _ h0,⟨hnonneg,fun h => absurd h (Nat.ne_of_lt hlt)⟩,hpos,hnot⟩
    · by_cases hwins : originWins id ((some c).getD 0) = true
      · rw [if_pos ⟨by omega,.inr ⟨rfl,hwins⟩⟩]
        replace hwins : c = 0 ∨ id < c := by simpa [originWins] using hwins
        simp only [Decided,List.forall_mem_append,List.forall_mem_singleton,zeroLast_append,if_true]
        refine ⟨hb,by simp,⟨hmax,le_refl n⟩,?_⟩
        by_cases hmin : ∀ p ∈ L, p.2 = n → id ≤ p.1
        · exact .inl ⟨⟨hmin,fun _ => le_refl id⟩,fun h => h⟩
        · push Not at hmin
          obtain ⟨q,hq,hqn,hlt⟩ := hmin
          have h0 : (0, n) ∈ L ∧ ∀ p ∈ L, p.2 = n → 0 ≤ p.1 := by
            rcases hstate with ⟨hmin,-⟩ | ⟨h0,hnonneg,-⟩
            · have hcq := hmin q hq hqn
              obtain rfl : c = 0 := by omega
              exact ⟨hc,hmin⟩
            · exact ⟨h0,hnonneg⟩
          have hpos := h0.2 q hq hqn
          exact .inr ⟨List.mem_append_left _ h0.1,⟨h0.2,fun _ => by omega⟩,by omega,hzero h0.1⟩
      · rw [if_neg fun h => h.2.elim (Nat.lt_irrefl n) fun h => hwins h.2]
        replace hwins : c ≠ 0 ∧ c ≤ id := by simpa [originWins] using hwins
        simp only [Decided,List.forall_mem_append,List.forall_mem_singleton,zeroLast_append,if_true]
        refine ⟨hb,List.mem_append_left _ hc,⟨hmax,le_refl n⟩,?_⟩
        rcases hstate with ⟨hmin,-⟩ | ⟨h0,hnonneg,hpos,-⟩
        · exact .inl ⟨⟨hmin,fun _ => hwins.2⟩,fun h => absurd h hwins.1⟩
        · exact .inr ⟨List.mem_append_left _ h0,⟨hnonneg,fun _ => by omega⟩,hpos,hzero h0⟩
    · rw [if_pos ⟨by omega,.inl hgt⟩]
      exact hraise (by omega) fun p hp => Nat.lt_of_le_of_lt (hmax p hp) hgt

theorem decided_foldl (L : List (Int × Nat)) (hdistinct : (L.map Prod.fst).Nodup) :
    Decided L (L.foldl (fun e p => improve e.1 e.2 p.2 p.1) (0, none)).1
      (L.foldl (fun e p => improve e.1 e.2 p.2 p.1) (0, none)).2 := by
  induction L using List.reverseRecOn with
  | nil => exact ⟨rfl,fun _ h => absurd h List.not_mem_nil⟩
  | append_singleton L p ih =>
    rw [List.map_append,List.nodup_append] at hdistinct
    rw [List.foldl_append]
    apply decided_append (ih hdistinct.1)
    intro q hq hqp
    exact hdistinct.2.2 q.1 (List.mem_map_of_mem hq) p.1 (by simp) hqp

namespace TaintGraph
variable (g : TaintGraph)

def entries (fn : String) : List (Int × Nat) :=
  g.dynOrigins.map fun s => (s.id, g.perFunc (g.poisonSet s.id) fn)

theorem foldl_addOrigin (origins : List Slot) (r : ContagionReport) (fn : String) :
    let r' := origins.foldl g.addOrigin r
    r'.origins = r.origins ++ origins.map (fun s => ⟨s,(g.poisonSet s.id).length⟩) ∧
    (r'.bestCause fn, r'.cause fn) = (origins.map fun s => (s.id, g.perFunc (g.poisonSet s.id) fn)).foldl
      (fun e p => improve e.1 e.2 p.2 p.1) (r.bestCause fn, r.cause fn) := by
  induction origins generalizing r with
  | nil => simp
  | cons s origins ih =>
    obtain ⟨h₁,h₂⟩ := ih (g.addOrigin r s)
    refine ⟨?_,h₂⟩
    rw [List.foldl_cons,h₁]
    simp [addOrigin]

theorem mem_origins {o : OriginRank} :
    o ∈ g.analyze.origins ↔ ∃ s ∈ g.dynOrigins, o = ⟨s, (g.poisonSet s.id).length⟩ := by
  have h := (g.foldl_addOrigin g.dynOrigins ⟨g.slots.length,g.slots.countP Slot.dyn,[],
    fun _ => none,fun _ => 0⟩ "").1
  rw [analyze,List.mem_insertionSort,h,List.nil_append,List.mem_map]
  simp only [eq_comm]
theorem nodup_dynOrigins : (g.dynOrigins.map Slot.id).Nodup :=
  g.distinct.sublist (List.filter_sublist.map _)

theorem decided_analyze (fn : String) : ∃ b, Decided (g.entries fn) b (g.analyze.cause fn) := by
  have h := (g.foldl_addOrigin g.dynOrigins ⟨g.slots.length,g.slots.countP Slot.dyn,[],
    fun _ => none,fun _ => 0⟩ fn).2
  have hids : (g.entries fn).map Prod.fst = g.dynOrigins.map Slot.id := by
    rw [entries,List.map_map]
    rfl
  have hsettled := decided_foldl (g.entries fn) (hids ▸ g.nodup_dynOrigins)
  rw [entries,← h] at hsettled
  exact ⟨_,hsettled⟩

theorem eq_of_id {s s' : Slot} (hs : s ∈ g.dynOrigins) (hs' : s' ∈ g.dynOrigins)
    (h : s.id = s'.id) : s = s' :=
  List.inj_on_of_nodup_map g.nodup_dynOrigins hs hs' h

theorem causeFor_eq {fn : String} {s : Slot} (hs : s ∈ g.dynOrigins)
    (hcause : g.analyze.cause fn = some s.id) : g.analyze.causeFor fn = some s := by
  rw [ContagionReport.causeFor,hcause,Option.bind_some]
  have hmem : (⟨s,(g.poisonSet s.id).length⟩ : OriginRank) ∈ g.analyze.origins :=
    g.mem_origins.mpr ⟨s,hs,rfl⟩
  cases hfind : g.analyze.origins.find? (·.slot.id = s.id) with
  | none => simpa using List.find?_eq_none.mp hfind _ hmem
  | some o =>
    obtain ⟨s',hs',rfl⟩ := g.mem_origins.mp (List.mem_of_find?_eq_some hfind)
    have hid : s'.id = s.id := by simpa using List.find?_some hfind
    rw [Option.map_some,g.eq_of_id hs' hs hid]

/-! ## The ranking -/

/-- The report counts for each Dyn origin what it poisons, and names for each function with a
poisoned slot the origin that poisons most of it, the lowest id among equals. -/
structure Exact : Prop where
  poisons : ∀ o ∈ g.analyze.origins, o.poisons = {x | g.Poisons o.slot.id x}.ncard
  ranked : ∀ s ∈ g.dynOrigins, ∃ o ∈ g.analyze.origins, o.slot = s
  cause : ∀ fn, (∃ o ∈ g.dynOrigins, ∃ x, g.Poisons o.id x ∧ g.InFunc fn x) →
    ∃ s ∈ g.dynOrigins, g.analyze.causeFor fn = some s ∧ ∀ o ∈ g.dynOrigins,
      g.count fn o.id < g.count fn s.id ∨ g.count fn o.id = g.count fn s.id ∧ s.id ≤ o.id

/-- Where slot 0 is among the origins that poison most of a function, it was added last of them, or
one of them has a negative id. -/
def ZeroYields : Prop := ∀ fn m, 0 < m → (∀ o ∈ g.dynOrigins, g.count fn o.id ≤ m) →
  ∀ z ∈ g.dynOrigins, z.id = 0 → g.count fn z.id = m →
    (g.dynOrigins.filter (g.count fn ·.id = m)).getLast? = some z ∨
      ∃ o ∈ g.dynOrigins, o.id < 0 ∧ g.count fn o.id = m

theorem entries_eq (hcycle : ∀ o ∈ g.dynOrigins, ¬ g.Reaches o.id o.id) (fn : String) :
    g.entries fn = g.dynOrigins.map fun s => (s.id, g.count fn s.id) := by
  apply List.map_congr_left
  intro s hs
  rw [g.perFunc_poisonSet (hcycle s hs)]

theorem zeroLast_iff (hcycle : ∀ o ∈ g.dynOrigins, ¬ g.Reaches o.id o.id) {fn : String} {z : Slot}
    (hz : z ∈ g.dynOrigins) (hz0 : z.id = 0) : ZeroLast (g.entries fn) (g.count fn z.id) ↔
      (g.dynOrigins.filter (g.count fn ·.id = g.count fn z.id)).getLast? = some z := by
  rw [ZeroLast,g.entries_eq hcycle,List.filter_map,List.getLast?_map]
  constructor
  · intro h
    obtain ⟨s,hs,hsz⟩ := Option.map_eq_some_iff.mp h
    have hmem := List.mem_of_mem_filter (List.mem_of_getLast? hs)
    have hsame := g.eq_of_id hmem hz ((Prod.ext_iff.mp hsz).1.trans hz0.symm)
    subst hsame
    exact hs
  · intro h
    exact Option.map_eq_some_iff.mpr ⟨z,h,by rw [hz0]⟩

/-- Without cycles through origins, the cause of a function is one that poisons most of it, and the
lowest such one unless slot 0 lost a tie. -/
theorem cause_cases (hcycle : ∀ o ∈ g.dynOrigins, ¬ g.Reaches o.id o.id) {fn : String}
    (hpoisoned : ∃ o ∈ g.dynOrigins, ∃ x, g.Poisons o.id x ∧ g.InFunc fn x) :
    ∃ s ∈ g.dynOrigins, g.analyze.causeFor fn = some s ∧ 0 < g.count fn s.id ∧
      (∀ o ∈ g.dynOrigins, g.count fn o.id ≤ g.count fn s.id) ∧
      ((∀ o ∈ g.dynOrigins, g.count fn o.id = g.count fn s.id → s.id ≤ o.id) ∧
          (s.id = 0 → ZeroLast (g.entries fn) (g.count fn s.id)) ∨
        (∃ z ∈ g.dynOrigins, z.id = 0 ∧ g.count fn z.id = g.count fn s.id) ∧
          (∀ o ∈ g.dynOrigins, g.count fn o.id = g.count fn s.id → 0 ≤ o.id) ∧ 0 < s.id ∧
          ¬ ZeroLast (g.entries fn) (g.count fn s.id)) := by
  obtain ⟨b,hsettled⟩ := g.decided_analyze fn
  have hentry : ∀ s ∈ g.dynOrigins, (s.id, g.count fn s.id) ∈ g.entries fn := by
    intro s hs
    rw [g.entries_eq hcycle]
    exact List.mem_map.mpr ⟨s,hs,rfl⟩
  have hslot : ∀ p ∈ g.entries fn, ∃ s ∈ g.dynOrigins, p = (s.id, g.count fn s.id) := by
    intro p hp
    rw [g.entries_eq hcycle] at hp
    obtain ⟨s,hs,rfl⟩ := List.mem_map.mp hp
    exact ⟨s,hs,rfl⟩
  cases hcause : g.analyze.cause fn with
  | none =>
    rw [hcause] at hsettled
    obtain ⟨o,ho,hx⟩ := hpoisoned
    have hpos := g.count_pos_iff.mpr hx
    have hzero := hsettled.2 _ (hentry o ho)
    exact absurd hzero (Nat.ne_of_gt hpos)
  | some c =>
    rw [hcause] at hsettled
    obtain ⟨hb,hc,hmax,hstate⟩ := hsettled
    obtain ⟨s,hs,hsc⟩ := hslot _ hc
    obtain ⟨rfl,rfl⟩ := Prod.ext_iff.mp hsc
    refine ⟨s,hs,g.causeFor_eq hs hcause,hb,fun o ho => hmax _ (hentry o ho),?_⟩
    rcases hstate with ⟨hmin,hlast⟩ | ⟨h0,hnonneg,hpos,hnot⟩
    · exact .inl ⟨fun o ho => hmin _ (hentry o ho),hlast⟩
    · obtain ⟨z,hz,hz0⟩ := hslot _ h0
      obtain ⟨hid,hcount⟩ := Prod.ext_iff.mp hz0
      exact .inr ⟨⟨z,hz,hid.symm,hcount.symm⟩,fun o ho => hnonneg _ (hentry o ho),hpos,hnot⟩

/-- The ranking is exact if and only if no Dyn origin lies on a cycle of Dyn slots, and slot 0 is
never followed by an origin that poisons as much of a function, unless one with a negative id does. -/
theorem contagion_exact_iff :
    g.Exact ↔ (∀ o ∈ g.dynOrigins, ¬ g.Reaches o.id o.id) ∧ g.ZeroYields := by
  constructor
  · intro hexact
    have hcycle : ∀ o ∈ g.dynOrigins, ¬ g.Reaches o.id o.id := by
      intro o ho
      rw [← g.length_poisonSet_iff]
      exact hexact.poisons _ (g.mem_origins.mpr ⟨o,ho,rfl⟩)
    refine ⟨hcycle,?_⟩
    intro fn m hm hmax z hz hz0 hzm
    have hpoisoned : ∃ o ∈ g.dynOrigins, ∃ x, g.Poisons o.id x ∧ g.InFunc fn x :=
      ⟨z,hz,g.count_pos_iff.mp (by omega)⟩
    obtain ⟨s,hs,hcause, -,hsmax,hstate⟩ := g.cause_cases hcycle hpoisoned
    obtain ⟨s', -,hcause',hbest⟩ := hexact.cause fn hpoisoned
    obtain rfl : s = s' := Option.some.inj (hcause.symm.trans hcause')
    have hsm : g.count fn s.id = m := by
      have h₁ := hmax s hs
      have h₂ := hsmax z hz
      omega
    have hle : s.id ≤ 0 := by
      have h := hbest z hz
      omega
    rcases hstate with ⟨-,hlast⟩ | ⟨-, -,hpos, -⟩
    · rcases Int.lt_or_eq_of_le hle with hneg | hzero
      · exact .inr ⟨s,hs,hneg,hsm⟩
      · obtain rfl : s = z := g.eq_of_id hs hz (hzero.trans hz0.symm)
        have h := (g.zeroLast_iff hcycle hs hz0).mp (hlast hz0)
        rw [hsm] at h
        exact .inl h
    · omega
  · rintro ⟨hcycle,hyields⟩
    refine ⟨?_,fun s hs => ⟨_,g.mem_origins.mpr ⟨s,hs,rfl⟩,rfl⟩,?_⟩
    · intro o ho
      obtain ⟨s,hs,rfl⟩ := g.mem_origins.mp ho
      exact (g.length_poisonSet_iff s.id).mpr (hcycle s hs)
    · intro fn hpoisoned
      obtain ⟨s,hs,hcause,hpos,hmax,hstate⟩ := g.cause_cases hcycle hpoisoned
      have hmin : ∀ o ∈ g.dynOrigins, g.count fn o.id = g.count fn s.id → s.id ≤ o.id := by
        rcases hstate with ⟨hmin, -⟩ | ⟨⟨z,hz,hz0,hzs⟩,hnonneg, -,hnot⟩
        · exact hmin
        · rcases hyields fn _ hpos hmax z hz hz0 hzs with hlast | ⟨o,ho,hneg,hos⟩
          · rw [← hzs] at hlast hnot
            exact absurd ((g.zeroLast_iff hcycle hz hz0).mpr hlast) hnot
          · have h := hnonneg o ho hos
            omega
      refine ⟨s,hs,hcause,fun o ho => ?_⟩
      rcases Nat.lt_or_eq_of_le (hmax o ho) with hlt | heq
      · exact .inl hlt
      · exact .inr ⟨heq,hmin o ho heq⟩

end TaintGraph

def selfLoop : TaintGraph := (TaintGraph.new.addSlot ⟨1, "f", true, .returnsAny⟩).addEdge 1 1
def zeroTie : TaintGraph :=
  (((((TaintGraph.new.addSlot ⟨0, "main", true, .returnsAny⟩).addSlot
    ⟨5, "main", true, .returnsAny⟩).addSlot ⟨7, "f", true, .none⟩).addEdge 0 7).addEdge 5 7)

/-- The origin on the loop is said to poison a slot, which is itself; and slot 5 is named before
slot 0. -/
theorem loop_and_zero_misranked :
    selfLoop.analyze.origins.map OriginRank.poisons = [1] ∧ ¬ selfLoop.Exact ∧
    zeroTie.analyze.causeFor "f" = some ⟨5, "main", true, .returnsAny⟩ ∧ ¬ zeroTie.Exact := by
  have hcause : zeroTie.analyze.causeFor "f" = some ⟨5,"main",true,.returnsAny⟩ := by
    decide +kernel
  refine ⟨by decide +kernel,?_,hcause,?_⟩
  · intro h
    have hlen := h.poisons _ (selfLoop.mem_origins.mpr ⟨⟨1,"f",true,.returnsAny⟩,by decide,rfl⟩)
    exact (selfLoop.length_poisonSet_iff 1).mp hlen (.single ⟨by decide,by decide⟩)
  · intro h
    have hcount : ∀ o, o ∉ zeroTie.poisonSet o →
        zeroTie.count "f" o = zeroTie.perFunc (zeroTie.poisonSet o) "f" := by
      intro o ho
      rw [zeroTie.perFunc_poisonSet]
      rwa [← (zeroTie.poisonSet_spec o).2]
    have h0 : zeroTie.count "f" 0 = 1 := (hcount 0 (by decide)).trans (by decide)
    have h5 : zeroTie.count "f" 5 = 1 := (hcount 5 (by decide)).trans (by decide)
    obtain ⟨s, -,hs,hbest⟩ := h.cause "f" ⟨⟨0,"main",true,.returnsAny⟩,by decide,
      zeroTie.count_pos_iff.mp (by rw [h0]; decide)⟩
    obtain rfl := Option.some.inj (hcause.symm.trans hs)
    have hzero := hbest ⟨0,"main",true,.returnsAny⟩ (by decide)
    simp [h0,h5] at hzero

end Unagi.Types
