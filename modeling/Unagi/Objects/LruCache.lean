import Unagi.Lib.Machine
import Unagi.Objects.DictSound
import Unagi.Objects.KeySound

/-! # `lru_cache`

A call of the wrapper looks the key of its arguments up and, if it misses, calls the wrapped function;
when that returns, the result is stored. In between the function may call the wrapper again, so a run
is a list of events: calls, and the ends of the innermost running invocation. -/

namespace Unagi.Objects

open Lib

structure LruCache (H K V : Type) where
  maxsize : Int
  cache : DictObject H K V
  hits : Nat
  misses : Nat

/-- The sentinel between the positional and the keyword part of a key, which no program gets hold of.
Its key is a text of its own, as that of an object by identity is. -/
def kwMark : Object := .identity 1

/-- The arguments of a call, which are hashable. -/
structure CallArgs where
  args : List Object
  kw : List (Bytes × Object)
  hashable : ∀ v ∈ args ++ kw.map Prod.snd, Keyable NotNaN v ∧ v ≠ kwMark

namespace CallArgs
variable (c : CallArgs)

def keywordPart : List Object :=
  if c.kw = [] then [] else kwMark :: c.kw.flatMap fun p => [.str 0 p.1, p.2]
def typePart : List Object :=
  ((c.args ++ c.kw.map Prod.snd).map fun v => ascii v.typeName).map (.str 0)
def keyParts (typed : Bool) : List Object :=
  if typed then c.args ++ c.keywordPart ++ c.typePart else c.args ++ c.keywordPart

end CallArgs

def makeCacheKey (typed : Bool) (c : CallArgs) : Object :=
  if typed then .tuple 0 (c.keyParts true)
  else
    match c.keyParts false with
    | [.int a v] => .int a v
    | [.str a v] => .str a v
    | key => .tuple 0 key

section
variable {H K V X E A : Type} [DecidableEq H] (dictKey : K → Except E H) (make : A → K)

namespace LruCache
variable (c : LruCache H K V)

def moveToEnd (key : K) : LruCache H K V :=
  match dictKey key with
  | .error _ => c
  | .ok k =>
    match c.cache.index k with
    | none => c
    | some idx =>
      let entries := c.cache.entries.eraseIdx idx ++ c.cache.entries[idx]?.toList
      { c with cache := DictObject.reindex dictKey { c.cache with entries := entries } }

/-- A call up to the wrapped function: the answer from the cache, or nothing. -/
def beginCall (key : K) : Except (DictError K E) (Option V) × LruCache H K V :=
  if c.maxsize = 0 then (.ok none, { c with misses := c.misses + 1 })
  else
    match DictObject.lookup dictKey c.cache key with
    | .error e => (.error e, c)
    | .ok none => (.ok none, c)
    | .ok (some v) =>
      let c := { c with hits := c.hits + 1 }
      (.ok (some v), if c.maxsize > 0 then c.moveToEnd dictKey key else c)

def evict : LruCache H K V :=
  if c.maxsize > 0 ∧ (c.cache.entries.length : Int) > c.maxsize then
    { c with cache := DictObject.reindex dictKey { c.cache with entries := c.cache.entries.tail } }
  else c

/-- The rest of a call, once the wrapped function has returned or raised. -/
def endCall (key : K) : Except X V → LruCache H K V
  | .error _ => c
  | .ok v =>
    if c.maxsize = 0 then c
    else
      let c := { c with misses := c.misses + 1 }
      match DictObject.set dictKey c.cache key v with
      | (.error _, d) => { c with cache := d }
      | (.ok _, d) => { c with cache := d }.evict dictKey

end LruCache

/-- The wrapper, the running invocations from the innermost on with their keys, and what the run has
done, with the keys by their last uses, a use being a hit or a new entry. -/
structure LruRun (H K A V X : Type) where
  lru : LruCache H K V
  stack : List (H × A)
  calls : Nat
  invoked : Nat
  raised : Nat
  results : List (A × Except X V)
  replies : List (A × Except X V)
  uses : List H

/-- A call with hashable arguments, or the end of the innermost invocation. -/
inductive LruEvent (A V X : Type)
  | call (a : A)
  | done (o : Except X V)

def lruStep (s : LruRun H K A V X) : LruEvent A V X → Option (LruRun H K A V X)
  | .call a =>
    match dictKey (make a) with
    | .error _ => none
    | .ok k =>
      match s.lru.beginCall dictKey (make a) with
      | (.error _, _) => none
      | (.ok (some v), c) => some { s with
          lru := c, calls := s.calls + 1, replies := (a, .ok v) :: s.replies, uses := k :: s.uses }
      | (.ok none, c) => some { s with
          lru := c, calls := s.calls + 1, invoked := s.invoked + 1, stack := (k, a) :: s.stack }
  | .done o =>
    match s.stack with
    | [] => none
    | (k, a) :: stack => some { s with
        lru := s.lru.endCall dictKey (make a) o
        stack := stack
        raised := if o.isOk then s.raised else s.raised + 1
        results := (a, o) :: s.results
        replies := (a, o) :: s.replies
        uses := if o.isOk ∧ s.lru.cache.index k = none then k :: s.uses else s.uses }

def lruMachine : Machine (LruRun H K A V X) (LruEvent A V X) := ⟨lruStep dictKey make⟩
def lruStart (maxsize : Int) : LruRun H K A V X :=
  ⟨⟨maxsize, DictObject.new, 0, 0⟩, [], 0, 0, 0, [], [], []⟩

/-- The keys of a list of uses, each at its last use, the most recent first. -/
def distinct : List H → List H
  | [] => []
  | k :: past => k :: (distinct past).filter (· ≠ k)

private theorem distinct_nodup (uses : List H) : (distinct uses).Nodup := by
  induction uses with
  | nil => exact List.nodup_nil
  | cons k past ih => exact List.nodup_cons.mpr ⟨by simp,ih.filter _⟩

variable {n : Nat} {e : DictEntry K V} {uses : List H}

private theorem take_filter_of_mem {l : List H} (hl : l.Nodup) {k : H} (hk : k ∈ l.take (n + 1)) :
    (l.filter (· ≠ k)).take n = (l.take (n + 1)).filter (· ≠ k) := by
  induction l generalizing n with
  | nil => simp
  | cons x l ih =>
    obtain ⟨hx,hl⟩ := List.nodup_cons.mp hl
    by_cases hxk : x = k
    · subst hxk
      have hself (m : List H) (hm : ∀ y ∈ m, y ∈ l) : m.filter (· ≠ x) = m := by
        refine List.filter_eq_self.mpr fun y hy => ?_
        have hne : y ≠ x := fun h => hx (h ▸ hm y hy)
        simpa using hne
      rw [List.take_succ_cons,List.filter_cons_of_neg (by simp),List.filter_cons_of_neg (by simp),
        hself l fun _ h => h,hself (l.take n) fun _ h => List.mem_of_mem_take h]
    · cases n with
      | zero => simp_all
      | succ n =>
        have hk : k ∈ l.take (n + 1) := by simpa [Ne.symm hxk] using hk
        simpa [hxk] using ih hl hk

private theorem take_filter_of_notMem {l : List H} {k : H} (hk : k ∉ l.take (n + 1)) :
    (l.filter (· ≠ k)).take n = l.take n := by
  induction l generalizing n with
  | nil => simp
  | cons x l ih =>
    have hxk : x ≠ k := fun h => hk (by simp [h])
    cases n with
    | zero => simp
    | succ n =>
      have hk : k ∉ l.take (n + 1) := fun h => hk (by simp [h])
      simpa [hxk] using ih hk

variable {dictKey make} {m : OrderedMap H (DictEntry K V)} {c : LruCache H K V} {key : K} {k : H}

theorem represents_reindex {d : DictObject H K V} (hentries : d.entries = m.list.map Prod.snd)
    (hashed : ∀ p ∈ m.list, dictKey p.2.key = .ok p.1) :
    DictObject.Represents dictKey m (DictObject.reindex dictKey d) := by
  refine ⟨hentries,hashed,fun k i => ?_⟩
  rw [DictObject.reindex,hentries,DictObject.positions_eq m.nodup hashed]
  simp [OrderedMap.keys]

private theorem represents_moveToEnd (h : DictObject.Represents dictKey m c.cache)
    (hk : dictKey key = .ok k) (hfind : m.find? k = some e) :
    DictObject.Represents dictKey ((m.erase k).put k e id) (c.moveToEnd dictKey key).cache := by
  obtain ⟨i,hi⟩ := Option.ne_none_iff_exists'.mp fun hnone : c.cache.index k = none => by
    rw [h.index_none.mp hnone] at hfind
    cases hfind
  obtain ⟨e',hat,hentry,hfind'⟩ := h.at_index hi
  cases hfind.symm.trans hfind'
  have hgone : (m.erase k).find? k = none := by rw [OrderedMap.find?_erase,if_pos rfl]
  have hlist := OrderedMap.put_of_none hgone e id
  rw [OrderedMap.erase_of_some hat] at hlist
  simp only [LruCache.moveToEnd,hk,hi]
  refine represents_reindex ?_ fun p hp => ?_
  · rw [hlist,hentry,h.entries,List.map_append,List.eraseIdx_map]
    rfl
  · rw [hlist,List.mem_append,List.mem_singleton] at hp
    rcases hp with hp | rfl
    · exact h.hashed p (List.mem_of_mem_eraseIdx hp)
    · exact h.hashed _ (List.mem_of_getElem? hat)

private theorem keys_moveToEnd :
    ((m.erase k).put k e id).keys = m.keys.filter (· ≠ k) ++ [k] := by
  rw [OrderedMap.keys_put,if_neg (by rw [OrderedMap.keys_erase]; simp),OrderedMap.keys_erase]

/-- What a cache keeps of a map when it drops its oldest entry, if it is too large. -/
def evicted (maxsize : Int) (m : OrderedMap H (DictEntry K V)) : OrderedMap H (DictEntry K V) :=
  if maxsize > 0 ∧ (m.list.length : Int) > maxsize then
    ⟨m.list.tail, m.nodup.sublist ((List.tail_sublist _).map _)⟩
  else m

private theorem represents_evict (h : DictObject.Represents dictKey m c.cache) :
    DictObject.Represents dictKey (evicted c.maxsize m) (c.evict dictKey).cache := by
  have hlen : c.cache.entries.length = m.list.length := by rw [h.entries,List.length_map]
  rw [evicted,LruCache.evict,hlen]
  split
  · refine represents_reindex ?_ fun p hp => h.hashed p (List.mem_of_mem_tail hp)
    simp only [h.entries,List.map_tail]
  · exact h

variable {maxsize : Int}

private theorem find?_evicted (h : (evicted maxsize m).find? k = some e) : m.find? k = some e := by
  rw [evicted] at h
  split at h
  · obtain ⟨i,hi⟩ := OrderedMap.find?_eq_some.mp h
    exact OrderedMap.find?_eq_some.mpr ⟨i + 1,by simpa using hi⟩
  · exact h

/-! ## What every run keeps -/

/-- The cache holds results of the wrapped function, and a bounded one those of the keys that were
used last; the counters tell the calls that are over. -/
structure LruInv (dictKey : K → Except E H) (make : A → K) (maxsize : Int)
    (s : LruRun H K A V X) : Prop where
  size : s.lru.maxsize = maxsize
  held : ∃ m, DictObject.Represents dictKey m s.lru.cache ∧
    (∀ k e, m.find? k = some e → ∃ a, dictKey (make a) = .ok k ∧ (a, .ok e.val) ∈ s.results) ∧
    (0 < s.lru.maxsize → m.keys.reverse = (distinct s.uses).take s.lru.maxsize.toNat)
  replies : ∀ r ∈ s.replies, ∃ a, dictKey (make a) = dictKey (make r.1) ∧ (a, r.2) ∈ s.results
  stack : ∀ p ∈ s.stack, dictKey (make p.2) = .ok p.1
  calls : s.calls = s.lru.hits + s.invoked
  misses : if s.lru.maxsize = 0 then s.lru.misses = s.invoked
    else s.lru.misses + s.raised + s.stack.length = s.invoked

/-- A use of a key in a bounded cache: it is the most recent one, and the oldest leaves a full cache. -/
theorem take_distinct_hit {keys : List H} (hn : 0 < n)
    (h : keys.reverse = (distinct uses).take n) (hk : k ∈ keys) :
    (keys.filter (· ≠ k) ++ [k]).reverse = (distinct (k :: uses)).take n := by
  obtain ⟨n,rfl⟩ := Nat.exists_eq_add_of_le' hn
  have hmem : k ∈ (distinct uses).take (n + 1) := by rwa [← h,List.mem_reverse]
  rw [distinct,List.take_succ_cons,take_filter_of_mem (distinct_nodup uses) hmem,← h,
    List.reverse_append,List.filter_reverse]
  rfl

private theorem take_distinct_new {keys : List H} (hn : 0 < n)
    (h : keys.reverse = (distinct uses).take n) (hk : k ∉ keys) :
    (if (keys ++ [k]).length > n then (keys ++ [k]).tail else keys ++ [k]).reverse =
      (distinct (k :: uses)).take n := by
  obtain ⟨n,rfl⟩ := Nat.exists_eq_add_of_le' hn
  have hnot : k ∉ (distinct uses).take (n + 1) := by rwa [← h,List.mem_reverse]
  rw [distinct,List.take_succ_cons,take_filter_of_notMem hnot]
  have hlen : keys.length = min (n + 1) (distinct uses).length := by
    rw [← List.length_reverse,h,List.length_take]
  have htake : (distinct uses).take n = keys.reverse.take n := by
    rw [h,List.take_take,Nat.min_eq_left (Nat.le_succ n)]
  rw [htake]
  split
  · next hfull =>
    rw [List.length_append,List.length_singleton] at hfull
    cases keys with
    | nil => simp at hfull
    | cons x keys =>
      have hn : n = keys.length := by simp at hlen hfull; omega
      rw [hn,List.reverse_cons,List.take_left' (List.length_reverse),List.cons_append,
        List.tail_cons,List.reverse_append]
      rfl
  · next hroom =>
    rw [List.length_append,List.length_singleton] at hroom
    rw [List.take_of_length_le (by rw [List.length_reverse]; omega),List.reverse_append]
    rfl

theorem beginCall_miss (h : DictObject.Represents dictKey m c.cache) (hk : dictKey key = .ok k)
    (hmiss : c.maxsize = 0 ∨ m.find? k = none) :
    c.beginCall dictKey key =
      (.ok none, { c with misses := if c.maxsize = 0 then c.misses + 1 else c.misses }) := by
  by_cases hzero : c.maxsize = 0
  · rw [LruCache.beginCall,if_pos hzero,if_pos hzero]
  · rw [LruCache.beginCall,if_neg hzero,if_neg hzero,h.lookup key,hk]
    simp only [hmiss.resolve_left hzero,Option.map_none]

theorem beginCall_hit (h : DictObject.Represents dictKey m c.cache) (hk : dictKey key = .ok k)
    (hzero : c.maxsize ≠ 0) (hfind : m.find? k = some e) :
    ∃ d m', c.beginCall dictKey key = (.ok (some e.val), ⟨c.maxsize, d, c.hits + 1, c.misses⟩) ∧
      DictObject.Represents dictKey m' d ∧ (∀ k' e', m'.find? k' = some e' → m.find? k' = some e') ∧
      (0 < c.maxsize → m'.keys = m.keys.filter (· ≠ k) ++ [k]) := by
  rw [LruCache.beginCall,if_neg hzero,h.lookup key,hk]
  simp only [hfind,Option.map_some]
  by_cases hpos : c.maxsize > 0
  · have hmoved := represents_moveToEnd (c := { c with hits := c.hits + 1 }) h hk hfind
    refine ⟨_,(m.erase k).put k e id,?_,hmoved,fun k' e' he' => ?_,fun _ => keys_moveToEnd⟩
    · rw [if_pos hpos,LruCache.moveToEnd]
      split
      · rfl
      · split <;> rfl
    · rw [OrderedMap.find?_put,OrderedMap.find?_erase,OrderedMap.find?_erase,if_pos rfl] at he'
      split at he'
      · next heq =>
        cases he'
        rw [heq]
        exact hfind
      · exact he'
  · exact ⟨c.cache,m,by rw [if_neg hpos],h,fun _ _ he => he,fun h0 => absurd h0 hpos⟩

private theorem endCall_ok (h : DictObject.Represents dictKey m c.cache) (hk : dictKey key = .ok k)
    (hzero : c.maxsize ≠ 0) (v : V) :
    ∃ d m', c.endCall dictKey key (.ok v : Except X V) = ⟨c.maxsize, d, c.hits, c.misses + 1⟩ ∧
      DictObject.Represents dictKey m' d ∧
      (∀ k' e', m'.find? k' = some e' → k' = k ∧ e'.val = v ∨ m.find? k' = some e') ∧
      (0 < c.maxsize → m'.keys =
        (evicted c.maxsize (m.put k ⟨key, v⟩ fun e => { e with val := v })).keys) := by
  obtain ⟨d,hd,hset⟩ := h.set hk v
  have hevict := represents_evict (c := ⟨c.maxsize,d,c.hits,c.misses + 1⟩) hset
  refine ⟨_,_,?_,hevict,fun k' e' he' => ?_,fun _ => rfl⟩
  · simp only [LruCache.endCall,if_neg hzero,hd,LruCache.evict]
    split <;> rfl
  · have he' := find?_evicted he'
    rw [OrderedMap.find?_put] at he'
    split at he'
    · next heq =>
      cases he'
      refine .inl ⟨heq,?_⟩
      cases m.find? k <;> rfl
    · exact .inr he'

omit [DecidableEq H] in
theorem keys_evicted : (evicted maxsize m).keys =
    if maxsize > 0 ∧ (m.keys.length : Int) > maxsize then m.keys.tail else m.keys := by
  rw [evicted,OrderedMap.keys,OrderedMap.keys,List.length_map]
  split
  · exact List.map_tail
  · rfl

/-- Storing a result in a bounded cache: a key that it has stays where it is, a new one comes last. -/
theorem keys_stored (hpos : 0 < maxsize) (e : DictEntry K V)
    (change : DictEntry K V → DictEntry K V)
    (h : m.keys.reverse = (distinct uses).take maxsize.toNat) :
    (evicted maxsize (m.put k e change)).keys.reverse =
      (distinct (if m.find? k = none then k :: uses else uses)).take maxsize.toNat := by
  rw [keys_evicted,OrderedMap.keys_put]
  by_cases hk : k ∈ m.keys
  · have hlen : m.keys.length ≤ maxsize.toNat := by
      rw [← List.length_reverse,h]
      exact List.length_take_le _ _
    rw [if_pos hk,if_neg (by omega),if_neg (by rwa [OrderedMap.find?_eq_none,not_not])]
    exact h
  · rw [if_neg hk,if_pos (OrderedMap.find?_eq_none.mpr hk),← take_distinct_new (by omega) h hk]
    congr 1
    by_cases hfull : (m.keys ++ [k]).length > maxsize.toNat
    · rw [if_pos hfull,if_pos (by omega)]
    · rw [if_neg hfull,if_neg (by omega)]

variable {maxsize : Int} {s s' : LruRun H K A V X}

private theorem LruInv.call (h : LruInv dictKey make maxsize s) {a : A}
    (hs : lruStep dictKey make s (.call a) = some s') : LruInv dictKey make maxsize s' := by
  obtain ⟨m,hm,hresults,hrecent⟩ := h.held
  have hcalls := h.calls
  have hmisses := h.misses
  cases hk : dictKey (make a) with
  | error e => simp [lruStep,hk] at hs
  | ok k =>
    by_cases hmiss : s.lru.maxsize = 0 ∨ m.find? k = none
    · simp only [lruStep,hk,beginCall_miss hm hk hmiss,Option.some.injEq] at hs
      subst hs
      refine ⟨h.size,⟨m,hm,hresults,hrecent⟩,h.replies,fun p hp => ?_,?_,?_⟩
      · rcases List.mem_cons.mp hp with rfl | hp
        · exact hk
        · exact h.stack p hp
      · simp only [hcalls]
        omega
      · by_cases hzero : s.lru.maxsize = 0
        · simp only [if_pos hzero] at hmisses ⊢
          omega
        · simp only [if_neg hzero,List.length_cons] at hmisses ⊢
          omega
    · obtain ⟨hzero,hne⟩ := not_or.mp hmiss
      obtain ⟨e,he⟩ := Option.ne_none_iff_exists'.mp hne
      obtain ⟨d,m',hbegin,hm',hsub,hkeys⟩ := beginCall_hit hm hk hzero he
      simp only [lruStep,hk,hbegin,Option.some.injEq] at hs
      subst hs
      refine ⟨h.size,⟨m',hm',fun k' e' he' => hresults k' e' (hsub k' e' he'),fun hpos => ?_⟩,
        fun r hr => ?_,h.stack,?_,hmisses⟩
      · have hpos : 0 < s.lru.maxsize := hpos
        rw [hkeys hpos]
        exact take_distinct_hit (by omega) (hrecent hpos) (OrderedMap.mem_keys.mpr ⟨e,he⟩)
      · rcases List.mem_cons.mp hr with rfl | hr
        · obtain ⟨a',ha',hmem⟩ := hresults k e he
          exact ⟨a',ha'.trans hk.symm,hmem⟩
        · exact h.replies r hr
      · simp only [hcalls]
        omega

private theorem LruInv.done (h : LruInv dictKey make maxsize s) {o : Except X V}
    (hs : lruStep dictKey make s (.done o) = some s') : LruInv dictKey make maxsize s' := by
  obtain ⟨m,hm,hresults,hrecent⟩ := h.held
  have hcalls := h.calls
  have hmisses := h.misses
  cases hstack : s.stack with
  | nil => simp [lruStep,hstack] at hs
  | cons top stack =>
    obtain ⟨k,a⟩ := top
    have hk : dictKey (make a) = .ok k := h.stack (k, a) (by simp [hstack])
    have hrest : ∀ p ∈ stack, dictKey (make p.2) = .ok p.1 :=
      fun p hp => h.stack p (by simp [hstack,hp])
    have hreplies : ∀ r ∈ (a, o) :: s.replies, ∃ a', dictKey (make a') = dictKey (make r.1) ∧
        (a', r.2) ∈ (a, o) :: s.results := by
      intro r hr
      rcases List.mem_cons.mp hr with rfl | hr
      · exact ⟨a,rfl,List.mem_cons_self⟩
      · obtain ⟨a',ha',hmem⟩ := h.replies r hr
        exact ⟨a',ha',List.mem_cons_of_mem _ hmem⟩
    have hkeep (k' : H) (e' : DictEntry K V) (he' : m.find? k' = some e') :
        ∃ a', dictKey (make a') = .ok k' ∧ (a', .ok e'.val) ∈ (a, o) :: s.results := by
      obtain ⟨a',ha',hmem⟩ := hresults k' e' he'
      exact ⟨a',ha',List.mem_cons_of_mem _ hmem⟩
    simp only [lruStep,hstack,Option.some.injEq] at hs
    rw [hstack,List.length_cons] at hmisses
    subst hs
    cases o with
    | error x =>
      refine ⟨h.size,⟨m,hm,hkeep,hrecent⟩,hreplies,hrest,hcalls,?_⟩
      simp only [LruCache.endCall,Except.isOk,Except.toBool]
      split at hmisses <;> simp_all
      omega
    | ok v =>
      by_cases hzero : s.lru.maxsize = 0
      · rw [if_pos hzero] at hmisses
        simp only [LruCache.endCall,if_pos hzero]
        exact ⟨h.size,⟨m,hm,hkeep,fun hpos => absurd hzero (Int.ne_of_gt hpos)⟩,hreplies,hrest,
          hcalls,by simp only [if_pos hzero,hmisses]⟩
      · rw [if_neg hzero] at hmisses
        obtain ⟨d,m',hend,hm',hsub,hkeys⟩ := endCall_ok (X := X) hm hk hzero v
        simp only [hend]
        refine ⟨h.size,⟨m',hm',fun k' e' he' => ?_,fun hpos => ?_⟩,hreplies,hrest,hcalls,?_⟩
        · rcases hsub k' e' he' with ⟨rfl,hv⟩ | hold
          · rw [hv]
            exact ⟨a,hk,List.mem_cons_self⟩
          · exact hkeep k' e' hold
        · have hpos : 0 < s.lru.maxsize := hpos
          rw [hkeys hpos,keys_stored hpos _ _ (hrecent hpos)]
          simp only [Except.isOk,Except.toBool,true_and,hm.index_none]
        · simp only [if_neg hzero,Except.isOk,Except.toBool,if_true]
          omega

private theorem lruStart_inv (maxsize : Int) :
    LruInv dictKey make maxsize (lruStart maxsize : LruRun H K A V X) := by
  refine ⟨rfl,⟨.empty,DictObject.Represents.empty,fun k e he => ?_,fun _ => ?_⟩,
    fun r hr => ?_,fun p hp => ?_,rfl,?_⟩
  · cases he
  · simp [OrderedMap.empty,OrderedMap.keys,lruStart,distinct]
  · cases hr
  · cases hp
  · split <;> rfl

private theorem lruRun_inv {events : List (LruEvent A V X)}
    (hrun : (lruMachine dictKey make).run (lruStart maxsize) events = some s) :
    LruInv dictKey make maxsize s := by
  refine Machine.run_invariant (fun s e s' hs hinv => ?_) hrun (lruStart_inv maxsize)
  cases e with
  | call a => exact hinv.call hs
  | done o => exact hinv.done hs

/-- A cache of keys that were used last, as many as it may hold. -/
theorem LruInv.recent (h : LruInv dictKey make maxsize s) (hpos : 0 < maxsize) :
    (s.lru.cache.entries.length : Int) ≤ maxsize ∧
      s.lru.cache.entries.reverse.map (fun e => dictKey e.key) =
        ((distinct s.uses).take maxsize.toNat).map .ok := by
  obtain ⟨m,hm,-,hrecent⟩ := h.held
  rw [h.size] at hrecent
  have hkeys : s.lru.cache.entries.map (fun e => dictKey e.key) = m.keys.map .ok := by
    rw [hm.entries,OrderedMap.keys,List.map_map,List.map_map]
    exact List.map_congr_left fun p hp => hm.hashed p hp
  have hlen : s.lru.cache.entries.length ≤ maxsize.toNat := by
    have := congrArg List.length (hrecent hpos)
    rw [List.length_reverse,List.length_take,OrderedMap.keys,List.length_map] at this
    rw [hm.entries,List.length_map]
    omega
  refine ⟨by omega,?_⟩
  rw [List.map_reverse,hkeys,← List.map_reverse,hrecent hpos]

/-- The counters are exact if the cache is disabled, or no invocation has raised and none is running. -/
theorem LruInv.counters_iff (h : LruInv dictKey make maxsize s) :
    (s.lru.hits + s.lru.misses = s.calls ∧ s.lru.misses = s.invoked) ↔
      maxsize = 0 ∨ s.raised = 0 ∧ s.stack = [] := by
  have hcalls := h.calls
  have hmisses := h.misses
  rw [h.size] at hmisses
  split at hmisses
  · rename_i hzero
    exact iff_of_true ⟨by omega,hmisses⟩ (.inl hzero)
  · rename_i hzero
    rw [or_iff_right hzero,← List.length_eq_zero_iff]
    omega

end

/-! ## Keys and arguments -/

/-- Equal as the elements of a container are. -/
def SameValue (x y : Object) : Prop := (Object.same x y || equals x y) = true

private theorem sameValue_iff {x y : Object} : SameValue x y ↔ x = y ∨ equals x y = true := by
  rw [SameValue,Bool.or_eq_true,Object.same_iff]

structure SameArgs (c c' : CallArgs) : Prop where
  args : List.Forall₂ SameValue c.args c'.args
  kw : List.Forall₂ (fun p q => p.1 = q.1 ∧ SameValue p.2 q.2) c.kw c'.kw

variable {xs ys : List Object} {typed : Bool} {c c' : CallArgs}

private theorem forall₂_sameValue : List.Forall₂ SameValue xs ys ↔ seqEquals xs ys = true := by
  induction xs generalizing ys with
  | nil => cases ys <;> simp [seqEquals]
  | cons x xs ih => cases ys <;> simp [seqEquals,SameValue,ih]

private theorem keyable_keyParts (typed : Bool) (c : CallArgs) :
    ∀ o ∈ c.keyParts typed, Keyable NotNaN o := by
  have hkw : ∀ o ∈ c.keywordPart, Keyable NotNaN o := by
    intro o ho
    unfold CallArgs.keywordPart at ho
    split at ho
    · cases ho
    · rcases List.mem_cons.mp ho with rfl | ho
      · exact .identity 1
      · obtain ⟨p,hp,ho⟩ := List.mem_flatMap.mp ho
        rcases List.mem_pair.mp ho with rfl | rfl
        · exact .str 0 p.1
        · exact (c.hashable _ (List.mem_append_right _ (List.mem_map_of_mem hp))).1
  have hall : ∀ o ∈ c.args ++ c.keywordPart, Keyable NotNaN o := fun o ho =>
    (List.mem_append.mp ho).elim (fun h => (c.hashable o (List.mem_append_left _ h)).1) (hkw o)
  intro o ho
  unfold CallArgs.keyParts at ho
  split at ho
  · rcases List.mem_append.mp ho with ho | ho
    · exact hall o ho
    · obtain ⟨v,-,rfl⟩ := List.mem_map.mp ho
      exact .str 0 _
  · exact hall o ho

private theorem bufferEq_identity (p : Addr) (x : Object) :
    (bufferEq (.identity p) x = true → x = .identity p) ∧
      (bufferEq x (.identity p) = true → x = .identity p) := by
  have hsame (y : Object) : Object.same y (.identity p) = true → y = .identity p :=
    (Object.same_iff _ _).mp
  have hsame' (y : Object) : Object.same (.identity p) y = true → y = .identity p := fun h =>
    ((Object.same_iff _ _).mp h).symm
  rw [bufferEq,bufferEq]
  cases x with
  | memoryview a view base elements =>
    rw [bufferEqDunder]
    cases view.released with
    | true => exact ⟨hsame _,hsame _⟩
    | false => exact ⟨hsame' _,hsame _⟩
  | _ => exact ⟨hsame' _,hsame _⟩

private theorem sameValue_mark {x y : Object} (h : SameValue x y) : x = kwMark ↔ y = kwMark := by
  rcases sameValue_iff.mp h with rfl | h
  · rfl
  rw [equals.eq_def] at h
  constructor
  · rintro rfl
    cases y with
    | bytes _ _ => exact (bufferEq_identity 1 _).1 h
    | memoryview _ _ _ _ => exact (bufferEq_identity 1 _).1 h
    | identity p => exact congrArg Object.identity (of_decide_eq_true h).symm
    | _ => cases h
  · rintro rfl
    cases x with
    | bytes _ _ => exact (bufferEq_identity 1 _).2 h
    | memoryview _ _ _ _ => exact (bufferEq_identity 1 _).2 h
    | identity p => exact congrArg Object.identity (of_decide_eq_true h)
    | _ => cases h

theorem str_eq_of_sameValue {v w : Bytes} (h : SameValue (.str 0 v) (.str 0 w)) : v = w := by
  rcases sameValue_iff.mp h with h | h
  · cases h
    rfl
  · rw [@equals_eq_shapeEquals NotNaN _ _ (.str 0 v) (.str 0 w) (by simp [kind])] at h
    exact of_decide_eq_true h

private theorem forall₂_of_flat {zs zs' : List (Bytes × Object)} {r r' : List Object}
    (hlen : zs.length = zs'.length)
    (h : List.Forall₂ SameValue ((zs.flatMap fun p => [.str 0 p.1, p.2]) ++ r)
      ((zs'.flatMap fun p => [.str 0 p.1, p.2]) ++ r')) :
    List.Forall₂ (fun p q => p.1 = q.1 ∧ SameValue p.2 q.2) zs zs' := by
  induction zs generalizing zs' with
  | nil => rw [List.length_eq_zero_iff.mp hlen.symm]; exact .nil
  | cons z zs ih =>
    cases zs' with
    | nil => cases hlen
    | cons z' zs' =>
      rw [List.flatMap_cons,List.flatMap_cons] at h
      cases h with
      | cons hname h =>
        cases h with
        | cons hval h =>
          exact .cons ⟨str_eq_of_sameValue hname,hval⟩ (ih (Nat.succ.inj hlen) h)

/-- The sentinel ends the positional part of both keys, or stands in neither. -/
theorem forall₂_of_marked {t t' : List Object} (hx : kwMark ∉ xs) (hy : kwMark ∉ ys)
    (h : List.Forall₂ SameValue (xs ++ kwMark :: t) (ys ++ kwMark :: t')) :
    List.Forall₂ SameValue xs ys ∧ List.Forall₂ SameValue t t' := by
  induction xs generalizing ys with
  | nil =>
    cases ys with
    | nil =>
      cases h with
      | cons _ ht => exact ⟨.nil,ht⟩
    | cons y ys =>
      cases h with
      | cons hhead _ => exact absurd ((sameValue_mark hhead).mp rfl ▸ List.mem_cons_self) hy
  | cons x xs ih =>
    cases ys with
    | nil =>
      cases h with
      | cons hhead _ => exact absurd ((sameValue_mark hhead).mpr rfl ▸ List.mem_cons_self) hx
    | cons y ys =>
      cases h with
      | cons hhead htail =>
        obtain ⟨hargs,ht⟩ := ih (fun hm => hx (List.mem_cons_of_mem x hm))
          (fun hm => hy (List.mem_cons_of_mem y hm)) htail
        exact ⟨.cons hhead hargs,ht⟩

private theorem mark_mem_iff (h : List.Forall₂ SameValue xs ys) : kwMark ∈ xs ↔ kwMark ∈ ys := by
  induction h with
  | nil => rfl
  | cons hhead _ ih =>
    rw [List.mem_cons,List.mem_cons,ih,eq_comm,sameValue_mark hhead,eq_comm]

namespace CallArgs
variable {c c' : CallArgs}

private theorem mark_notMem_args : kwMark ∉ c.args := fun h =>
  (c.hashable _ (List.mem_append_left _ h)).2 rfl

/-- What follows the positional arguments: the sentinel and the keywords, if there are any, and the
types, as many as there are arguments. -/
theorem keyParts_eq (typed : Bool) (c : CallArgs) : ∃ types : List Object, kwMark ∉ types ∧
    (types.length = if typed then c.args.length + c.kw.length else 0) ∧
    c.keyParts typed = c.args ++ (c.keywordPart ++ types) := by
  cases typed with
  | true =>
    refine ⟨c.typePart,?_,?_,List.append_assoc ..⟩
    · intro h
      obtain ⟨v,-,h⟩ := List.mem_map.mp h
      cases h
    · rw [typePart,List.length_map,List.length_map,List.length_append,List.length_map]
      rfl
  | false => exact ⟨[],List.not_mem_nil,rfl,by rw [List.append_nil]; rfl⟩

private theorem keywordPart_eq (h : c.kw ≠ []) :
    c.keywordPart = kwMark :: c.kw.flatMap fun p => [.str 0 p.1, p.2] := if_neg h

private theorem mark_mem_keyParts (typed : Bool) : kwMark ∈ c.keyParts typed ↔ c.kw ≠ [] := by
  obtain ⟨types,htypes,-,heq⟩ := keyParts_eq typed c
  rw [heq,List.mem_append,List.mem_append,or_iff_right mark_notMem_args,or_iff_left htypes]
  by_cases h : c.kw = []
  · rw [keywordPart,if_pos h]
    exact iff_of_false List.not_mem_nil (not_not_intro h)
  · rw [keywordPart_eq h]
    exact iff_of_true List.mem_cons_self h

end CallArgs

private theorem length_pairs (zs : List (Bytes × Object)) :
    (zs.flatMap fun p => [Object.str 0 p.1, p.2]).length = 2 * zs.length := by
  induction zs with
  | nil => rfl
  | cons z zs ih =>
    rw [List.flatMap_cons,List.length_append,ih,List.length_cons]
    exact Nat.add_comm ..

private theorem sameArgs_of_parts
    (h : List.Forall₂ SameValue (c.keyParts typed) (c'.keyParts typed)) : SameArgs c c' := by
  have hkw : c.kw ≠ [] ↔ c'.kw ≠ [] := by
    rw [← CallArgs.mark_mem_keyParts typed,mark_mem_iff h,CallArgs.mark_mem_keyParts]
  obtain ⟨types,-,hlen,heq⟩ := CallArgs.keyParts_eq typed c
  obtain ⟨types',-,hlen',heq'⟩ := CallArgs.keyParts_eq typed c'
  rw [heq,heq'] at h
  by_cases hc : c.kw = []
  · have hc' : c'.kw = [] := not_not.mp fun hne => hkw.mpr hne hc
    rw [CallArgs.keywordPart,if_pos hc,CallArgs.keywordPart,if_pos hc',List.nil_append,
      List.nil_append] at h
    have hsum := h.length_eq
    rw [List.length_append,List.length_append,hlen,hlen',hc,hc',List.length_nil] at hsum
    have hargs : c.args.length = c'.args.length := by
      split at hsum <;> omega
    refine ⟨?_,by rw [hc,hc']; exact .nil⟩
    have := List.forall₂_take c.args.length h
    rwa [List.take_left,hargs,List.take_left] at this
  · rw [CallArgs.keywordPart_eq hc,CallArgs.keywordPart_eq (hkw.mp hc),List.cons_append,
      List.cons_append] at h
    obtain ⟨hargs,hrest⟩ := forall₂_of_marked CallArgs.mark_notMem_args
      CallArgs.mark_notMem_args h
    have hsum := hrest.length_eq
    rw [List.length_append,List.length_append,length_pairs,length_pairs,hlen,hlen',
      hargs.length_eq] at hsum
    exact ⟨hargs,forall₂_of_flat (by split at hsum <;> omega) hrest⟩

private theorem makeCacheKey_cases (typed : Bool) (c : CallArgs) :
    makeCacheKey typed c = .tuple 0 (c.keyParts typed) ∨
      c.keyParts typed = [makeCacheKey typed c] ∧ kind (makeCacheKey typed c) ≠ .tuple := by
  unfold makeCacheKey
  cases typed with
  | true => exact .inl rfl
  | false =>
    simp only [Bool.false_eq_true,if_false]
    split
    · rename_i h
      exact .inr ⟨h,by simp [kind]⟩
    · rename_i h
      exact .inr ⟨h,by simp [kind]⟩
    · exact .inl rfl

private theorem keyable_makeCacheKey (typed : Bool) (c : CallArgs) :
    Keyable NotNaN (makeCacheKey typed c) := by
  rcases makeCacheKey_cases typed c with h | ⟨h,-⟩
  · rw [h]
    exact .tuple 0 _ (keyable_keyParts typed c)
  · exact keyable_keyParts typed c _ (by rw [h]; exact List.mem_singleton_self _)

private theorem eq_of_keys {ts ts' : List Bytes}
    (h : (ts.map (Object.str 0)).map keyOf = (ts'.map (Object.str 0)).map keyOf) :
    ts.map (Object.str 0) = ts'.map (Object.str 0) := by
  rw [List.map_map,List.map_map] at h
  rw [List.map_injective_iff.mpr (fun t t' h => (List.cons.inj h).2) h]

private theorem parts_of_sameArgs (h : SameArgs c c')
    (hkey : (c.keyParts typed).map keyOf = (c'.keyParts typed).map keyOf) :
    List.Forall₂ SameValue (c.keyParts typed) (c'.keyParts typed) := by
  have hkw : List.Forall₂ SameValue c.keywordPart c'.keywordPart := by
    have hempty : c.kw = [] ↔ c'.kw = [] := by
      rw [← List.length_eq_zero_iff,h.kw.length_eq,List.length_eq_zero_iff]
    rw [CallArgs.keywordPart,CallArgs.keywordPart]
    by_cases hc : c.kw = []
    · rw [if_pos hc,if_pos (hempty.mp hc)]
      exact .nil
    · rw [if_neg hc,if_neg (mt hempty.mpr hc)]
      refine .cons (sameValue_iff.mpr (.inl rfl)) (List.rel_flatMap h.kw fun p q hpq => ?_)
      exact .cons (sameValue_iff.mpr (.inl (congrArg _ hpq.1))) (.cons hpq.2 .nil)
  have hfront := List.rel_append h.args hkw
  cases typed with
  | false => exact hfront
  | true =>
    have htypes : c.typePart = c'.typePart := by
      rw [CallArgs.keyParts,CallArgs.keyParts,if_pos rfl,if_pos rfl,List.map_append,
        @List.map_append _ _ keyOf (c'.args ++ _)] at hkey
      refine eq_of_keys (List.append_inj hkey ?_).2
      rw [List.length_map,List.length_map]
      exact hfront.length_eq
    refine List.rel_append hfront ?_
    rw [htypes]
    exact List.forall₂_same.mpr fun x _ => sameValue_iff.mpr (.inl rfl)

private theorem makeCacheKey_iff
    (hkind : kind (makeCacheKey typed c) = kind (makeCacheKey typed c')) :
    (equals (makeCacheKey typed c) (makeCacheKey typed c') = true ↔
      List.Forall₂ SameValue (c.keyParts typed) (c'.keyParts typed)) ∧
    (keyOf (makeCacheKey typed c) = keyOf (makeCacheKey typed c') ↔
      (c.keyParts typed).map keyOf = (c'.keyParts typed).map keyOf) := by
  have hc := keyable_makeCacheKey typed c
  have hc' := keyable_makeCacheKey typed c'
  rcases makeCacheKey_cases typed c with ht | ⟨hs,hne⟩
  · rcases makeCacheKey_cases typed c' with ht' | ⟨hs',hne'⟩
    · rw [ht] at hc
      rw [ht'] at hc'
      rw [ht,ht',equals_eq_shapeEquals hc hc' (by simp [kind]),forall₂_sameValue]
      exact ⟨.rfl,keyOf_tuple (keyable_keyParts typed c) (keyable_keyParts typed c') 0 0⟩
    · rw [ht] at hkind
      exact absurd hkind.symm hne'
  · rcases makeCacheKey_cases typed c' with ht' | ⟨hs',hne'⟩
    · rw [ht'] at hkind
      exact absurd hkind hne
    · rw [hs,hs',List.forall₂_cons,and_iff_left List.Forall₂.nil,sameValue_iff]
      exact ⟨⟨.inr,fun h => h.elim (fun h => h ▸ equals_refl hc) id⟩,by simp⟩

/-- Calls of one key have equal arguments, unless their keys are confused. -/
theorem sameArgs_iff_of_hashKey
    (h : hashKey (makeCacheKey typed c) = hashKey (makeCacheKey typed c')) :
    SameArgs c c' ↔ confused (makeCacheKey typed c) (makeCacheKey typed c') = false := by
  have hc := keyable_makeCacheKey typed c
  have hc' := keyable_makeCacheKey typed c'
  rw [hc.hashKey_eq,hc'.hashKey_eq,Except.ok.injEq] at h
  have hkind := kind_eq_of_keyOf hc hc' h
  obtain ⟨hequals,hkeys⟩ := makeCacheKey_iff hkind
  have hparts : SameArgs c c' ↔ List.Forall₂ SameValue (c.keyParts typed) (c'.keyParts typed) :=
    ⟨fun hsame => parts_of_sameArgs hsame (hkeys.mp h),sameArgs_of_parts⟩
  rw [hparts,← hequals,← Bool.not_eq_true (confused _ _),(judged hc hc').exact,and_iff_right h,
    Bool.not_eq_false]

section
variable {V X : Type}

end
end Unagi.Objects
