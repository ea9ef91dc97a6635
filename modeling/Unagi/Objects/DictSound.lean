import Mathlib.Data.List.InsertIdx
import Unagi.Lib.OrderedMap
import Unagi.Objects.Dict

/-! # The dict is an insertion-ordered map

What a dict holds is told by the history of the stores and removals. Each key that is present has a
life: since when it is there, with which key object it came, and its last value. -/

namespace Unagi.Objects

open Lib (OrderedMap Positions)

inductive DictEvent (H K V : Type)
  | put (k : H) (key : K) (val : V)
  | gone (k : H)
  | cleared

/-- Since when a key is present, its first key object and its last value. -/
structure Life (K V : Type) where
  born : Nat
  key : K
  val : V

def Life.entry {K V : Type} (l : Life K V) : DictEntry K V := ⟨l.key, l.val⟩

namespace DictObject
variable {H K V E : Type} [DecidableEq H] (dictKey : K → Except E H)

def life (k : H) : List (DictEvent H K V) → Option (Life K V)
  | [] => none
  | .put k' key val :: past =>
    if k' = k then some (((life k past).map fun l => { l with val := val }).getD
      ⟨past.length, key, val⟩)
    else life k past
  | .gone k' :: past => if k' = k then none else life k past
  | .cleared :: _ => none

section
variable (past : List (DictEvent H K V))

def valueOf (k : H) : Option V := (life k past).map Life.val
def recordSet (key : K) (val : V) : Except (DictError K E) Unit × List (DictEvent H K V) :=
  match dictKey key with
  | .error e => (.error (.raised e), past)
  | .ok k => (.ok (), .put k key val :: past)
def recordLookup (key : K) : Except (DictError K E) (Option V) :=
  match dictKey key with
  | .error e => .error (.raised e)
  | .ok k => .ok (valueOf past k)
def recordDelete (key : K) : List (DictEvent H K V) :=
  match dictKey key with
  | .error _ => past
  | .ok k => .gone k :: past

def recordUpdate : List (K × V) → Option E → List (DictEvent H K V) →
    Except (DictError K E) Unit × List (DictEvent H K V)
  | [], stop, past => (stop.elim (.ok ()) fun e => .error (.raised e), past)
  | (key, val) :: pairs, stop, past =>
    match recordSet dictKey past key val with
    | (.error e, past) => (.error e, past)
    | (.ok _, past) => recordUpdate pairs stop past

def record : DictOp K V E → DictReply K V E × List (DictEvent H K V)
  | .set key val =>
    ((recordSet dictKey past key val).1.map fun _ => none, (recordSet dictKey past key val).2)
  | .get key =>
    (match recordLookup dictKey past key with
      | .error e => .error e
      | .ok (some v) => .ok (some v)
      | .ok none => .error (.keyError key), past)
  | .lookup key => (recordLookup dictKey past key, past)
  | .delete key => (recordLookup dictKey past key, recordDelete dictKey past key)
  | .pop key default =>
    (match recordLookup dictKey past key with
      | .error e => .error e
      | .ok (some v) => .ok (some v)
      | .ok none => default.elim (.error (.keyError key)) fun v => .ok (some v),
      recordDelete dictKey past key)
  | .clear => (.ok none, .cleared :: past)
  | .update pairs stop =>
    ((recordUpdate dictKey pairs stop past).1.map fun _ => none,
      (recordUpdate dictKey pairs stop past).2)
  | .reindex => (.ok none, past)

end

def chronicle : List (DictEvent H K V) → List (DictOp K V E) →
    List (DictReply K V E) × List (DictEvent H K V)
  | past, [] => ([], past)
  | past, op :: ops =>
    let next := record dictKey past op
    let rest := chronicle next.2 ops
    (next.1 :: rest.1, rest.2)

/-- A dict lists each present key once, in the order in which the keys were inserted, with the first
key object and the last value, and the index has exactly their positions. -/
structure Lists (past : List (DictEvent H K V)) (d : DictObject H K V) (keys : List H) : Prop where
  nodup : keys.Nodup
  present : ∀ k, k ∈ keys ↔ (life k past).isSome
  ordered : keys.Pairwise fun k k' =>
    ∀ l l', life k past = some l → life k' past = some l' → l.born < l'.born
  entries : d.entries.map some = keys.map fun k => (life k past).map Life.entry
  index : ∀ k i, d.index k = some i ↔ keys[i]? = some k

/-! ## The map between the two -/

structure Represents (m : OrderedMap H (DictEntry K V)) (d : DictObject H K V) : Prop where
  entries : d.entries = m.list.map Prod.snd
  hashed : ∀ p ∈ m.list, dictKey p.2.key = .ok p.1
  index : ∀ k i, d.index k = some i ↔ m.keys[i]? = some k

structure Tells (past : List (DictEvent H K V)) (m : OrderedMap H (DictEntry K V)) : Prop where
  find : ∀ k, m.find? k = (life k past).map Life.entry
  ordered : m.keys.Pairwise fun k k' =>
    ∀ l l', life k past = some l → life k' past = some l' → l.born < l'.born
  past : ∀ k l, life k past = some l → l.born < past.length

section
variable {dictKey} {m : OrderedMap H (DictEntry K V)} {d : DictObject H K V}
  {past : List (DictEvent H K V)}

theorem Represents.index_none (h : Represents dictKey m d) {k : H} :
    d.index k = none ↔ m.find? k = none := by
  rw [Option.eq_none_iff_forall_ne_some,Option.eq_none_iff_forall_ne_some]
  constructor
  · intro hnone e he
    obtain ⟨i,hi⟩ := OrderedMap.find?_eq_some.mp he
    exact hnone i ((h.index k i).mpr (OrderedMap.getElem?_keys.mpr ⟨e,hi⟩))
  · intro hnone i hi
    obtain ⟨e,he⟩ := OrderedMap.getElem?_keys.mp ((h.index k i).mp hi)
    exact hnone e (OrderedMap.find?_eq_some.mpr ⟨i,he⟩)

theorem Represents.at_index (h : Represents dictKey m d) {k : H} {i : Nat}
    (hi : d.index k = some i) :
    ∃ e, m.list[i]? = some (k, e) ∧ d.entries[i]? = some e ∧ m.find? k = some e := by
  obtain ⟨e,he⟩ := OrderedMap.getElem?_keys.mp ((h.index k i).mp hi)
  refine ⟨e,he,?_,OrderedMap.find?_eq_some.mpr ⟨i,he⟩⟩
  rw [h.entries,List.getElem?_map,he]
  rfl

theorem Represents.lookup (h : Represents dictKey m d) (key : K) :
    DictObject.lookup dictKey d key =
      match dictKey key with
      | .error e => .error (.raised e)
      | .ok k => .ok ((m.find? k).map DictEntry.val) := by
  unfold DictObject.lookup
  cases dictKey key with
  | error e => rfl
  | ok k =>
    simp only
    cases hi : d.index k with
    | none => rw [h.index_none.mp hi]; rfl
    | some i =>
      obtain ⟨e,-,hentry,hfind⟩ := h.at_index hi
      rw [hfind]
      simp only [hentry]
      rfl

theorem Represents.set (h : Represents dictKey m d) {key : K} {k : H} (hk : dictKey key = .ok k)
    (val : V) :
    ∃ d', DictObject.set dictKey d key val = (.ok (), d') ∧
      Represents dictKey (m.put k ⟨key, val⟩ fun e => { e with val := val }) d' := by
  unfold DictObject.set
  simp only [hk]
  cases hi : d.index k with
  | some i =>
    obtain ⟨e,hat,hentry,hfind⟩ := h.at_index hi
    have hlist := OrderedMap.put_of_some hat ⟨key,val⟩ fun e => { e with val := val }
    simp only
    rw [if_pos (List.getElem?_eq_some_iff.mp hentry).1]
    refine ⟨_,rfl,?_,fun p hp => ?_,fun k' j => ?_⟩
    · rw [hlist,h.entries]
      apply List.ext_getElem?
      intro j
      simp only [List.getElem?_modify,List.getElem?_map]
      cases m.list[j]? with
      | none => rfl
      | some p =>
        by_cases hij : i = j <;> simp [hij]
    · rw [hlist] at hp
      obtain ⟨j,hj⟩ := List.mem_iff_getElem?.mp hp
      rw [List.getElem?_modify] at hj
      obtain ⟨q,hq,rfl⟩ := Option.map_eq_some_iff.mp hj
      have hhash := h.hashed q (List.mem_of_getElem? hq)
      split
      · exact hhash
      · exact hhash
    · rw [OrderedMap.keys_put,if_pos (OrderedMap.mem_keys.mpr ⟨e,hfind⟩)]
      exact h.index k' j
  | none =>
    have hnone := h.index_none.mp hi
    have hlist := OrderedMap.put_of_none hnone (⟨key,val⟩ : DictEntry K V)
      fun e => { e with val := val }
    have hlen : d.entries.length = m.list.length := by rw [h.entries,List.length_map]
    refine ⟨_,rfl,?_,fun p hp => ?_,fun k' j => ?_⟩
    · rw [hlist,h.entries,List.map_append]
      rfl
    · rw [hlist,List.mem_append,List.mem_singleton] at hp
      rcases hp with hp | rfl
      · exact h.hashed p hp
      · exact hk
    · have hlen : d.entries.length = m.keys.length := by
        rw [h.entries,OrderedMap.keys,List.length_map,List.length_map]
      have hnew := OrderedMap.find?_eq_none.mp hnone
      rw [OrderedMap.keys_put,if_neg hnew,hlen]
      exact Positions.concat h.index hi k' j

theorem Represents.delete (h : Represents dictKey m d) {key : K} {k : H}
    (hk : dictKey key = .ok k) :
    ∃ d', DictObject.delete dictKey d key = (.ok ((m.find? k).map DictEntry.val), d') ∧
      Represents dictKey (m.erase k) d' := by
  unfold DictObject.delete
  simp only [hk]
  cases hi : d.index k with
  | none =>
    have hnone := h.index_none.mp hi
    rw [hnone,OrderedMap.erase_of_none hnone]
    exact ⟨d,rfl,h⟩
  | some i =>
    obtain ⟨e,hat,hentry,hfind⟩ := h.at_index hi
    have hlist := OrderedMap.erase_of_some hat
    have hkeys : (m.erase k).keys = m.keys.eraseIdx i := by
      rw [OrderedMap.keys,hlist,OrderedMap.keys,List.eraseIdx_map]
    simp only [hentry,hfind]
    refine ⟨_,rfl,?_,fun p hp => ?_,fun k' j => ?_⟩
    · rw [hlist,h.entries,List.eraseIdx_map]
    · rw [hlist] at hp
      exact h.hashed p (List.mem_of_mem_eraseIdx hp)
    · rw [hkeys]
      exact Positions.eraseIdx h.index m.nodup hi k' j

theorem positions_eq {l : List (H × DictEntry K V)} (hnodup : (l.map Prod.fst).Nodup)
    (hashed : ∀ p ∈ l, dictKey p.2.key = .ok p.1) (i : Nat) (index : H → Option Nat) (k : H)
    (j : Nat) :
    positions dictKey (l.map Prod.snd) i index k = some j ↔
      (∃ r, (l.map Prod.fst)[r]? = some k ∧ j = i + r) ∨
        k ∉ l.map Prod.fst ∧ index k = some j := by
  induction l generalizing i index with
  | nil => simp [positions]
  | cons p l ih =>
    obtain ⟨hp,hnodup⟩ := List.nodup_cons.mp hnodup
    have hrest := ih hnodup (fun q hq => hashed q (List.mem_cons_of_mem _ hq)) (i + 1)
      (Function.update index p.1 (some i))
    rw [List.map_cons,positions,hashed p List.mem_cons_self]
    simp only
    rw [hrest,List.map_cons]
    have hshift : (∃ r, (p.1 :: l.map Prod.fst)[r]? = some k ∧ j = i + r) ↔
        p.1 = k ∧ j = i ∨ ∃ r, (l.map Prod.fst)[r]? = some k ∧ j = i + 1 + r := by
      constructor
      · rintro ⟨r,hr,hj⟩
        cases r with
        | zero => exact .inl ⟨Option.some.inj hr,hj⟩
        | succ r => exact .inr ⟨r,hr,by omega⟩
      · rintro (⟨hk,hj⟩ | ⟨r,hr,hj⟩)
        · exact ⟨0,congrArg some hk,hj⟩
        · exact ⟨r + 1,hr,by omega⟩
    rw [hshift,Function.update_apply]
    by_cases hk : k = p.1
    · -- the later entries have other keys
      subst hk
      have hlater : ¬ ∃ r, (l.map Prod.fst)[r]? = some p.1 ∧ j = i + 1 + r :=
        fun ⟨r,hr,_⟩ => hp (List.mem_of_getElem? hr)
      rw [if_pos rfl,or_iff_right hlater,and_iff_right hp]
      constructor
      · intro hj
        exact .inl (.inl ⟨rfl,(Option.some.inj hj).symm⟩)
      · rintro ((⟨-,hj⟩ | hr) | ⟨hmem,-⟩)
        · rw [hj]
        · exact absurd hr hlater
        · exact absurd List.mem_cons_self hmem
    · have hhere : ¬ (p.1 = k ∧ j = i) := fun h => hk h.1.symm
      rw [if_neg hk,List.mem_cons,not_or,and_iff_right hk,or_iff_right hhere]

theorem Represents.reindex (h : Represents dictKey m d) :
    Represents dictKey m (DictObject.reindex dictKey d) := by
  refine ⟨h.entries,h.hashed,fun k i => ?_⟩
  rw [DictObject.reindex,h.entries]
  simp only
  rw [positions_eq m.nodup h.hashed]
  simp [OrderedMap.keys]

theorem life_put {k k' : H} {key : K} {val : V} {l : Life K V}
    (hl : life k' (.put k key val :: past) = some l) :
    (∃ l', life k' past = some l' ∧ l'.born = l.born) ∨
      k' = k ∧ life k past = none ∧ l.born = past.length := by
  rw [life] at hl
  split at hl
  · rename_i hk
    subst hk
    cases hold : life k past with
    | none =>
      rw [hold] at hl
      obtain rfl := Option.some.inj hl
      exact .inr ⟨rfl,rfl,rfl⟩
    | some l' =>
      rw [hold] at hl
      obtain rfl := Option.some.inj hl
      exact .inl ⟨l',rfl,rfl⟩
  · exact .inl ⟨l,hl,rfl⟩

theorem Tells.present (h : Tells past m) {k : H} : k ∈ m.keys ↔ (life k past).isSome := by
  rw [OrderedMap.mem_keys,h.find]
  cases life k past <;> simp

theorem Tells.put (h : Tells past m) (k : H) (key : K) (val : V) :
    Tells (.put k key val :: past) (m.put k ⟨key, val⟩ fun e => { e with val := val }) := by
  have hsame : ∀ {a l}, a ∈ m.keys → life a (.put k key val :: past) = some l →
      ∃ l', life a past = some l' ∧ l'.born = l.born := by
    intro a l ha hl
    rcases life_put hl with hold | ⟨rfl,hnone,-⟩
    · exact hold
    · rw [h.present,hnone] at ha
      cases ha
  have hordered : m.keys.Pairwise fun a b => ∀ l l', life a (.put k key val :: past) = some l →
      life b (.put k key val :: past) = some l' → l.born < l'.born := by
    apply h.ordered.imp_of_mem
    intro a b ha hb hab l l' hl hl'
    obtain ⟨o,ho,hborn⟩ := hsame ha hl
    obtain ⟨o',ho',hborn'⟩ := hsame hb hl'
    rw [← hborn,← hborn']
    exact hab o o' ho ho'
  refine ⟨fun k' => ?_,?_,fun k' l hl => ?_⟩
  · rw [OrderedMap.find?_put,life,h.find,h.find]
    by_cases hk : k' = k
    · subst hk
      rw [if_pos rfl,if_pos rfl]
      cases life k' past <;> rfl
    · rw [if_neg hk,if_neg (Ne.symm hk)]
  · rw [OrderedMap.keys_put]
    split
    · exact hordered
    · rename_i hk
      rw [List.pairwise_append]
      refine ⟨hordered,List.pairwise_singleton _ _,fun a ha b hb l l' hl hl' => ?_⟩
      obtain rfl := List.mem_singleton.mp hb
      obtain ⟨o,ho,hborn⟩ := hsame ha hl
      rcases life_put hl' with ⟨o',ho',-⟩ | ⟨-,-,hborn'⟩
      · exact absurd (h.present.mpr (ho' ▸ rfl)) hk
      · rw [hborn',← hborn]
        exact h.past a o ho
  · rw [List.length_cons]
    rcases life_put hl with ⟨o,ho,hborn⟩ | ⟨-,-,hborn⟩
    · have := h.past k' o ho
      omega
    · omega

theorem Tells.gone (h : Tells past m) (k : H) : Tells (.gone k :: past) (m.erase k) := by
  have hold : ∀ {a l}, life a (.gone k :: past) = some l → life a past = some l := by
    intro a l hl
    rw [life] at hl
    split at hl
    · cases hl
    · exact hl
  refine ⟨fun k' => ?_,?_,fun k' l hl => ?_⟩
  · rw [OrderedMap.find?_erase,life,h.find]
    by_cases hk : k' = k
    · rw [if_pos hk,if_pos hk.symm]
      rfl
    · rw [if_neg hk,if_neg (Ne.symm hk)]
  · rw [OrderedMap.keys_erase]
    apply (h.ordered.sublist List.filter_sublist).imp
    intro a b hab l l' hl hl'
    exact hab l l' (hold hl) (hold hl')
  · exact Nat.lt_succ_of_lt (h.past k' l (hold hl))

theorem Tells.empty (hlife : ∀ k, life k past = none) : Tells past OrderedMap.empty :=
  ⟨fun k => by rw [hlife]; rfl,List.Pairwise.nil,fun k l hl => by rw [hlife] at hl; cases hl⟩

omit [DecidableEq H] in
theorem Represents.empty :
    Represents dictKey OrderedMap.empty (⟨[], fun _ => none⟩ : DictObject H K V) :=
  ⟨rfl,fun _ hp => absurd hp List.not_mem_nil,
    fun _ _ => by simp [OrderedMap.empty,OrderedMap.keys]⟩

/-! ## Calls -/

variable (dictKey) in
def Holds (past : List (DictEvent H K V)) (d : DictObject H K V) : Prop :=
  ∃ m, Represents dictKey m d ∧ Tells past m

theorem Holds.lists (h : Holds dictKey past d) : ∃ keys, Lists past d keys := by
  obtain ⟨m,hrep,htell⟩ := h
  refine ⟨m.keys,m.nodup,fun k => htell.present,htell.ordered,?_,hrep.index⟩
  rw [hrep.entries,OrderedMap.keys,List.map_map,List.map_map]
  apply List.map_congr_left
  intro p hp
  obtain ⟨i,hi⟩ := List.mem_iff_getElem?.mp hp
  have hfind : m.find? p.1 = some p.2 := OrderedMap.find?_eq_some.mpr ⟨i,hi⟩
  rw [Function.comp_apply,Function.comp_apply,← htell.find,hfind]

theorem Holds.lookup (h : Holds dictKey past d) (key : K) :
    DictObject.lookup dictKey d key = recordLookup dictKey past key := by
  obtain ⟨m,hrep,htell⟩ := h
  rw [hrep.lookup,recordLookup]
  cases dictKey key with
  | error e => rfl
  | ok k =>
    show Except.ok ((m.find? k).map DictEntry.val) = Except.ok ((life k past).map Life.val)
    rw [htell.find,Option.map_map]
    rfl

theorem Holds.set (h : Holds dictKey past d) (key : K) (val : V) :
    (DictObject.set dictKey d key val).1 = (recordSet dictKey past key val).1 ∧
      Holds dictKey (recordSet dictKey past key val).2 (DictObject.set dictKey d key val).2 := by
  cases hk : dictKey key with
  | error e =>
    rw [DictObject.set,recordSet,hk]
    exact ⟨rfl,h⟩
  | ok k =>
    obtain ⟨m,hrep,htell⟩ := h
    obtain ⟨d',hset,hrep'⟩ := hrep.set hk val
    rw [hset,recordSet,hk]
    exact ⟨rfl,_,hrep',htell.put k key val⟩

theorem Holds.delete (h : Holds dictKey past d) (key : K) :
    (DictObject.delete dictKey d key).1 = recordLookup dictKey past key ∧
      Holds dictKey (recordDelete dictKey past key) (DictObject.delete dictKey d key).2 := by
  cases hk : dictKey key with
  | error e =>
    rw [DictObject.delete,recordLookup,recordDelete,hk]
    exact ⟨rfl,h⟩
  | ok k =>
    rw [← h.lookup]
    obtain ⟨m,hrep,htell⟩ := h
    obtain ⟨d',hdel,hrep'⟩ := hrep.delete hk
    rw [hdel,recordDelete,hrep.lookup,hk]
    exact ⟨rfl,_,hrep',htell.gone k⟩

theorem Holds.update (pairs : List (K × V)) (stop : Option E) (h : Holds dictKey past d) :
    (DictObject.update dictKey pairs stop d).1 = (recordUpdate dictKey pairs stop past).1 ∧
      Holds dictKey (recordUpdate dictKey pairs stop past).2
        (DictObject.update dictKey pairs stop d).2 := by
  induction pairs generalizing past d with
  | nil => exact ⟨rfl,h⟩
  | cons p pairs ih =>
    obtain ⟨hreply,hheld⟩ := h.set p.1 p.2
    rw [DictObject.update,recordUpdate]
    generalize DictObject.set dictKey d p.1 p.2 = r at hreply hheld
    generalize recordSet dictKey past p.1 p.2 = r' at hreply hheld
    obtain ⟨reply,d'⟩ := r
    obtain ⟨reply',past'⟩ := r'
    obtain rfl : reply = reply' := hreply
    cases reply with
    | error e => exact ⟨rfl,hheld⟩
    | ok _ => exact ih hheld

theorem Holds.step (h : Holds dictKey past d) (op : DictOp K V E) :
    (DictObject.step dictKey d op).1 = (record dictKey past op).1 ∧
      Holds dictKey (record dictKey past op).2 (DictObject.step dictKey d op).2 := by
  cases op with
  | set key val =>
    obtain ⟨hreply,hheld⟩ := h.set key val
    rw [DictObject.step,record,hreply]
    exact ⟨rfl,hheld⟩
  | get key =>
    refine ⟨?_,h⟩
    rw [DictObject.step,record,DictObject.get,h.lookup]
    cases recordLookup dictKey past key with
    | error e => rfl
    | ok v => cases v <;> rfl
  | lookup key => exact ⟨h.lookup key,h⟩
  | delete key => exact h.delete key
  | pop key default =>
    obtain ⟨hreply,hheld⟩ := h.delete key
    rw [DictObject.step,record,DictObject.pop]
    generalize DictObject.delete dictKey d key = r at hreply hheld
    obtain ⟨reply,d'⟩ := r
    simp only at hreply hheld ⊢
    rw [← hreply]
    cases reply with
    | error e => exact ⟨rfl,hheld⟩
    | ok v =>
      cases v with
      | some v => exact ⟨rfl,hheld⟩
      | none => cases default <;> exact ⟨rfl,hheld⟩
  | clear => exact ⟨rfl,_,Represents.empty,Tells.empty fun _ => rfl⟩
  | update pairs stop =>
    obtain ⟨hreply,hheld⟩ := h.update pairs stop
    rw [DictObject.step,record,hreply]
    exact ⟨rfl,hheld⟩
  | reindex =>
    obtain ⟨m,hrep,htell⟩ := h
    exact ⟨rfl,m,hrep.reindex,htell⟩

theorem Holds.run (h : Holds dictKey past d) (ops : List (DictOp K V E)) :
    (DictObject.run dictKey d ops).1 = (chronicle dictKey past ops).1 ∧
      Holds dictKey (chronicle dictKey past ops).2 (DictObject.run dictKey d ops).2 := by
  induction ops generalizing past d with
  | nil => exact ⟨rfl,h⟩
  | cons op ops ih =>
    obtain ⟨hreply,hheld⟩ := h.step op
    obtain ⟨hrest,hlast⟩ := ih hheld
    rw [DictObject.run,chronicle]
    simp only
    rw [hreply,hrest]
    exact ⟨rfl,hlast⟩

end

/-- From an empty dict every list of calls answers what its history tells, and the dict lists the
present keys in the order in which they were inserted. -/
theorem dict_is_ordered_map (ops : List (DictOp K V E)) :
    (run dictKey new ops).1 = (chronicle dictKey [] ops).1 ∧
      ∃ keys, Lists (chronicle dictKey [] ops).2 (run dictKey new ops).2 keys := by
  have hnew : Holds dictKey [] (new : DictObject H K V) :=
    ⟨_,Represents.empty,Tells.empty fun _ => rfl⟩
  obtain ⟨hreplies,hheld⟩ := hnew.run ops
  exact ⟨hreplies,hheld.lists⟩

end DictObject
end Unagi.Objects
