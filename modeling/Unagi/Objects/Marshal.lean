import Mathlib.Tactic.Linarith
import Unagi.Lib.Endian

/-! # What reading a marshal stream costs

A container takes room for the count that its header announces before the elements are known to be
there. A finished container has paid for its room with the bytes of its elements; the open ones, at
most one per level, have not. What the reader meets on its way is a matter of the bytes alone, and a
scan of them tells whether the memory is enough. -/

namespace Unagi.Objects

open Lib (ofLeBytes)

/-! ## The code -/

def marshalMaxDepth : Nat := 2000

/-- What the reader needs room for: the elements of a container, a key and a value of a dict, a
digit of an int at its place. -/
inductive MarshalNeed
  | count (n : Nat)
  | pair
  | digit (place value : Nat)

/-- The shift of the digit at a place, in 32 bits. -/
def shiftAt (i : Nat) : Int := (Int.ofNat (15 * i)).bmod (2 ^ 32)

namespace MarshalNeed

def slots : MarshalNeed → Nat
  | count n => n
  | pair => 2
  | digit _ _ => 1

/-- A shift that wrapped below zero asks for more than there can be; a zero is not shifted. -/
def wraps : MarshalNeed → Bool
  | digit i value => value ≠ 0 && shiftAt i < 0
  | _ => false

def total (needs : List MarshalNeed) : Nat := (needs.map slots).sum

end MarshalNeed

/-- What no program recovers from. -/
inductive MarshalCrash
  | panic | outOfMemory

/-- Why the reader has no value: its own exceptions, one of a constructor, a crash, or no end at
all. -/
inductive MarshalStop (E : Type)
  | eofError (msg : String)
  | valueError (msg : String)
  | raised (e : E)
  | crash (c : MarshalCrash)
  | stuck

def MarshalStop.isException {E : Type} : MarshalStop E → Bool
  | crash _ | stuck => false
  | _ => true

structure MarshalBuild (V E : Type) where
  none : V
  ellipsis : V
  bool : Bool → V
  int : Int → V
  float : Nat → V
  complex : Nat → Nat → V
  str : List UInt8 → V
  bytes : List UInt8 → V
  tuple : List V → V
  list : List V → V
  newSet : List V → Except E V
  newFrozenset : List V → Except E V
  newDict : List V → List V → Except E V

/-- The bytes from the position on, and the room that was taken. -/
structure MarshalReader (S : Type) where
  data : List UInt8
  room : S

/-- What becomes of the room when something is needed. -/
abbrev MarshalRoom (S : Type) := MarshalNeed → S → Except MarshalCrash S

def heap (memory : Nat) : MarshalRoom Nat := fun need taken =>
  if need.wraps then .error .panic
  else if memory < taken + need.slots then .error .outOfMemory
  else .ok (taken + need.slots)

/-- All that is needed, the last one first. -/
def ledger : MarshalRoom (List MarshalNeed) := fun need needs => .ok (need :: needs)

namespace MarshalReader

def Step (S E α : Type) := MarshalReader S → Except (MarshalStop E) α × MarshalReader S

variable {S V E α β : Type}

def fail (e : MarshalStop E) : Step S E α := fun r => (.error e, r)
instance : Monad (Step S E) where
  pure a r := (.ok a, r)
  bind x f r :=
    match x r with
    | (.ok a, r) => f a r
    | (.error e, r) => (.error e, r)
def short : Step S E α := fail (.eofError "EOF read where object expected")
def byte : Step S E UInt8 := fun r =>
  match r.data with
  | [] => short r
  | b :: data => (.ok b, { r with data := data })

def take (n : Nat) : Step S E (List UInt8) := fun r =>
  if n ≤ r.data.length then (.ok (r.data.take n), { r with data := r.data.drop n }) else short r
def u32 : Step S E Nat := do return ofLeBytes (← take 4)

section
variable (room : MarshalRoom S)

def alloc (need : MarshalNeed) : Step S E Unit := fun r =>
  match room need r.room with
  | .ok taken => (.ok (), { r with room := taken })
  | .error c => (.error (.crash c), r)

def elements (read : Step S E V) : Nat → Step S E (List V)
  | 0 => return []
  | count + 1 => do return (← read) :: (← elements read count)
def readSeq (read : Step S E V) : Step S E (List V) := do
  let n ← u32
  alloc room (.count n)
  elements read n

def both (read : Step S E V) : Step S E (V × V) := do return (← read, ← read)
def pair (read : Step S E V) : Step S E (V × V) := do
  let kv ← both read
  alloc room .pair
  return kv

/-- The pairs up to the sentinel; the fuel is for the bytes. -/
def pairs (read : Step S E V) : Nat → Step S E (List V × List V)
  | 0 => fail .stuck
  | fuel + 1 => fun r =>
    match byte r with
    | (.error e, r) => (.error e, r)
    | (.ok code, next) =>
      if code = '0'.toUInt8 then (.ok ([], []), next)
      else (do
        let (k, v) ← pair room read
        let (keys, vals) ← pairs read fuel
        return (k :: keys, v :: vals)) r

def lift (x : Except E α) : Step S E α :=
  match x with
  | .ok a => return a
  | .error e => fail (.raised e)
def readDict (build : MarshalBuild V E) (read : Step S E V) : Step S E V := do
  let (keys, vals) ← fun r => pairs room read (r.data.length + 1) r
  lift (build.newDict keys vals)

def digitAt (i : Nat) : Step S E Nat := do
  let value := ofLeBytes (← take 2)
  alloc room (.digit i value)
  return value <<< (shiftAt i).toNat
def longDigits : Nat → Nat → Step S E Nat
  | 0, _ => return 0
  | left + 1, i => do
    let shift ← digitAt room i
    return shift + (← longDigits left (i + 1))

/-- The number of digits, of which the lowest count has none, as its negation wraps. -/
def ndigits (count : Int) : Nat := if count < 0 then ((-count).bmod (2 ^ 32)).toNat else count.toNat

def signedLong (build : MarshalBuild V E) (count : Int) : Step S E V := do
  let result ← longDigits room (ndigits count) 0
  return build.int (if count < 0 then -result else result)
def readLong (build : MarshalBuild V E) : Step S E V := do
  signedLong room build ((Int.ofNat (← u32)).bmod (2 ^ 32))

def object (build : MarshalBuild V E) (read : Step S E V) (code : Char) : Step S E V :=
  match code with
  | 'N' => return build.none
  | '.' => return build.ellipsis
  | 'F' => return build.bool false
  | 'T' => return build.bool true
  | 'S' => fail (.valueError "bad marshal data (unexpected StopIteration)")
  | 'i' => return build.int ((Int.ofNat (← u32)).bmod (2 ^ 32))
  | 'I' => return build.int ((Int.ofNat (ofLeBytes (← take 8))).bmod (2 ^ 64))
  | 'l' => readLong room build
  | 'g' => return build.float (ofLeBytes (← take 8))
  | 'y' => do
    let b ← take 16
    return build.complex (ofLeBytes (b.take 8)) (ofLeBytes (b.drop 8))
  | 'u' => return build.str (← take (← u32))
  | 's' => return build.bytes (← take (← u32))
  | '(' => return build.tuple (← readSeq room read)
  | '[' => return build.list (← readSeq room read)
  | '<' => do lift (build.newSet (← readSeq room read))
  | '>' => do lift (build.newFrozenset (← readSeq room read))
  | '\x7b' => readDict room build read
  | _ => fail (.valueError "bad marshal data (unknown type code)")

def read (build : MarshalBuild V E) : Nat → Step S E V
  | 0 => fail (.valueError "recursion limit exceeded while unmarshalling")
  | left + 1 => do object room build (read build left) (Char.ofNat (← byte).toNat)

end
end MarshalReader

def marshalLoads {V E : Type} (build : MarshalBuild V E) (memory : Nat) (data : List UInt8) :
    Except (MarshalStop E) V × MarshalReader Nat :=
  MarshalReader.read (heap memory) build (marshalMaxDepth + 1) ⟨data, 0⟩

/-- What stands in the bytes where the reader looks for it. -/
def marshalScan {V E : Type} (build : MarshalBuild V E) (data : List UInt8) : List MarshalNeed :=
  (MarshalReader.read ledger build (marshalMaxDepth + 1) ⟨data, []⟩).2.room

namespace MarshalReader
variable {S V E α β : Type}

section
variable {f : α → Step S E β} {r next : MarshalReader S} {e : MarshalStop E} {x : Step S E α}

private theorem bind_ok {a : α} (h : x r = (.ok a, next)) : (x >>= f) r = f a next := by
  simp only [bind,h]
private theorem bind_error (h : x r = (.error e, next)) : (x >>= f) r = (.error e, next) := by
  simp only [bind,h]

private theorem bind_fails (h : (x r).1 = .error e) : ((x >>= f) r).1 = .error e := by
  have hout : x r = (.error e, (x r).2) := Prod.ext h rfl
  rw [bind_error hout]

end

/-! ## What a scan finds -/

open MarshalNeed (total)

theorem total_append (as bs : List MarshalNeed) : total (as ++ bs) = total as + total bs := by
  simp [total]

/-- What a stream of some length has room for: a count of 32 bits, and the digits up to a place. -/
def Fits (length : Nat) : MarshalNeed → Prop
  | .count n => n < 2 ^ 32
  | .pair => True
  | .digit i _ => 2 * (i + 1) ≤ length

/-- A step of a scan ends with a value or an exception. With two for each byte, what is needed is
paid, and `p` more, if it gives a value, and else up to `left` counts. -/
structure Costs (len left p : Nat) (r : MarshalReader (List MarshalNeed))
    (out : Except (MarshalStop E) α × MarshalReader (List MarshalNeed)) (needs : List MarshalNeed) :
    Prop where
  raises : ∀ e, out.1 = .error e → e.isException
  room : out.2.room = needs ++ r.room
  length : out.2.data.length ≤ r.data.length
  fits : ∀ n ∈ needs, Fits len n
  paid : ∀ a, out.1 = .ok a → total needs + 2 * out.2.data.length + p ≤ 2 * r.data.length
  bound : ∀ m, (∀ n, .count n ∈ needs → n ≤ m) →
    total needs + 2 * out.2.data.length ≤ 2 * r.data.length + left * m

/-- In a stream of `len` bytes. -/
def Fair (len left p : Nat) (r : MarshalReader (List MarshalNeed))
    (out : Except (MarshalStop E) α × MarshalReader (List MarshalNeed)) : Prop :=
  r.data.length ≤ len → ∃ needs, Costs len left p r out needs

variable {len left p q : Nat} {r next : MarshalReader (List MarshalNeed)} {needs : List MarshalNeed}
  {x : Step (List MarshalNeed) E α} {f : α → Step (List MarshalNeed) E β} {e : MarshalStop E}
  {out : Except (MarshalStop E) α × MarshalReader (List MarshalNeed)}

/-- A step that reads a part of the bytes and needs no room. -/
theorem fair_of_reads (hraises : ∀ e, out.1 = .error e → e.isException)
    (hroom : out.2.room = r.room) (hlen : out.2.data.length ≤ r.data.length)
    (hpaid : ∀ a, out.1 = .ok a → 2 * out.2.data.length + p ≤ 2 * r.data.length) :
    Fair len left p r out := by
  have hnone : total [] = 0 := rfl
  refine fun _ => ⟨[],hraises,hroom,hlen,fun n hn => (by cases hn),fun a ha => ?_,fun m _ => ?_⟩
  · have := hpaid a ha
    omega
  · omega

private theorem fair_pure (a : α) : Fair len left 0 r ((pure a : Step _ E α) r) :=
  fair_of_reads (fun _ h => by cases h) rfl (Nat.le_refl _) fun _ _ => Nat.le_refl _
private theorem fair_fail (he : e.isException) : Fair len left p r ((fail e : Step _ E α) r) :=
  fair_of_reads (fun _ h => Except.error.inj h ▸ he) rfl (Nat.le_refl _) fun _ h => by cases h

private theorem fair_byte : Fair len left 2 r ((byte : Step _ E UInt8) r) := by
  obtain ⟨data,room⟩ := r
  cases data with
  | nil => exact fair_fail rfl
  | cons b data =>
    exact fair_of_reads (fun _ h => by cases h) rfl (Nat.le_succ _)
      fun _ _ => by rw [List.length_cons]; exact Nat.le_refl _

theorem fair_take (n : Nat) : Fair len left (2 * n) r ((take n : Step _ E (List UInt8)) r) := by
  unfold take
  split
  · rename_i hn
    refine fair_of_reads (fun _ h => by cases h) rfl ?_ fun _ _ => ?_
    · rw [List.length_drop]
      exact Nat.sub_le _ _
    · rw [List.length_drop]
      omega
  · exact fair_fail rfl

private theorem Fair.weaken (h : Fair len left p r out) {left' q : Nat} (hleft : left ≤ left')
    (hq : q ≤ p) : Fair len left' q r out := by
  intro hlen
  obtain ⟨needs,c⟩ := h hlen
  refine ⟨needs,{ c with paid := fun a ha => ?_, bound := fun m hm => ?_ }⟩
  · have := c.paid a ha
    omega
  · exact (c.bound m hm).trans (Nat.add_le_add_left (Nat.mul_le_mul_right m hleft) _)

private theorem Costs.of_error
    (h : Costs len left p r ((.error e, next) : Except (MarshalStop E) α × _) needs) :
    Costs len left q r ((.error e, next) : Except (MarshalStop E) β × _) needs :=
  { h with
    raises := fun e' he => h.raises e' (by cases he; rfl)
    paid := fun _ ha => by cases ha }

private theorem fair_bind (hx : Fair len left p r (x r))
    (hf : ∀ a, (x r).1 = .ok a → Fair len left q (x r).2 (f a (x r).2)) :
    Fair len left (p + q) r ((x >>= f) r) := by
  intro hr
  obtain ⟨needs,cx⟩ := hx hr
  rcases hout : x r with ⟨result,next⟩
  rw [hout] at cx hf
  cases result with
  | error e =>
    rw [bind_error hout]
    exact ⟨needs,cx.of_error⟩
  | ok a =>
    have hpaid := cx.paid a rfl
    have hlen := cx.length
    obtain ⟨needs',cf⟩ := hf a rfl (hlen.trans hr)
    rw [bind_ok hout]
    refine ⟨needs' ++ needs,cf.raises,?_,cf.length.trans hlen,fun n hn => ?_,fun b hb => ?_,
      fun m hm => ?_⟩
    · rw [cf.room,cx.room,List.append_assoc]
    · exact (List.mem_append.mp hn).elim (cf.fits n) (cx.fits n)
    · have := cf.paid b hb
      rw [total_append]
      dsimp only at *
      omega
    · have := cf.bound m fun n hn => hm n (List.mem_append_left _ hn)
      rw [total_append]
      dsimp only at *
      omega

private theorem fair_bind_pure {f : α → β} (hx : Fair len left p r (x r)) :
    Fair len left p r ((do return f (← x)) r : Except (MarshalStop E) β × _) :=
  fair_bind (q := 0) hx fun _ _ => fair_pure _
theorem fair_u32 : Fair len left 8 r ((u32 : Step _ E Nat) r) := fair_bind_pure (fair_take 4)

private theorem fair_lift (y : Except E α) : Fair len left 0 r (lift y r) := by
  cases y with
  | ok a => exact fair_pure a
  | error e => exact fair_fail rfl

/-- A step that has paid for what it needs then. -/
theorem fair_alloc {need : α → MarshalNeed} {g : α → β} {n : Nat} (hn : ∀ a, (need a).slots = n)
    (hfits : ∀ a, (x r).1 = .ok a → Fits len (need a))
    (hx : Fair len left (p + n) r (x r)) :
    Fair len left p r ((do let a ← x; alloc ledger (need a); return g a) r) := by
  intro hr
  obtain ⟨needs,c⟩ := hx hr
  rcases hout : x r with ⟨result,next⟩
  rw [hout] at c hfits
  cases result with
  | error e =>
    rw [bind_error hout]
    exact ⟨needs,c.of_error⟩
  | ok a =>
    rw [bind_ok hout]
    have hpaid := c.paid a rfl
    have htotal : total (need a :: needs) = n + total needs := by
      rw [← hn a]
      rfl
    refine ⟨need a :: needs,fun _ h => (by cases h),congrArg (need a :: ·) c.room,c.length,
      List.forall_mem_cons.mpr ⟨hfits a rfl,c.fits⟩,fun b _ => ?_,fun m _ => ?_⟩
    · rw [htotal]
      show n + total needs + 2 * next.data.length + p ≤ _
      dsimp only at hpaid
      omega
    · rw [htotal]
      show n + total needs + 2 * next.data.length ≤ _
      dsimp only at hpaid
      omega

/-! ### Containers and ints -/

variable {read : Step (List MarshalNeed) E V}

private theorem fair_elements (hread : ∀ r, Fair len left 2 r (read r)) (n : Nat)
    (r : MarshalReader (List MarshalNeed)) : Fair len left n r (elements read n r) := by
  induction n generalizing r with
  | zero => exact fair_pure []
  | succ n ih =>
    change Fair len left (n + 1) r
      ((read >>= fun v => elements read n >>= fun vs => pure (v :: vs)) r)
    exact (fair_bind (hread r) fun _ _ => fair_bind_pure (ih _)).weaken (Nat.le_refl _) (by omega)

private theorem u32_lt {r' : MarshalReader S} {n : Nat} (h : ((u32 : Step S E Nat) r').1 = .ok n) :
    n < 2 ^ 32 := by
  by_cases hlen : 4 ≤ r'.data.length
  · have htake : (take 4 : Step S E _) r'
        = (.ok (r'.data.take 4), { r' with data := r'.data.drop 4 }) := if_pos hlen
    unfold u32 at h
    rw [bind_ok htake] at h
    cases h
    have hlt := Lib.ofLeBytes_lt (r'.data.take 4)
    rwa [List.length_take,Nat.min_eq_left hlen] at hlt
  · have htake : (take 4 : Step S E _) r' = short r' := if_neg hlen
    unfold u32 at h
    rw [bind_error htake] at h
    cases h

private theorem fair_readSeq (hread : ∀ r, Fair len left 2 r (read r)) :
    Fair len (left + 1) 0 r (readSeq ledger read r) := by
  refine (fair_bind (q := 0) (@fair_u32 E len (left + 1) r) fun n hn => ?_).weaken (Nat.le_refl _)
    (Nat.zero_le _)
  have hsmall : n < 2 ^ 32 := u32_lt hn
  generalize (u32 r).2 = r
  change Fair len (left + 1) 0 r (elements read n ⟨r.data,.count n :: r.room⟩)
  intro hr
  -- the room for the elements is paid by them, or by one count
  obtain ⟨needs,c⟩ := fair_elements hread n ⟨r.data,.count n :: r.room⟩ hr
  have htotal : total (needs ++ [.count n]) = total needs + n := by
    rw [total_append]
    rfl
  refine ⟨needs ++ [.count n],c.raises,?_,c.length,fun k hk => ?_,fun a ha => ?_,fun m hm => ?_⟩
  · rw [List.append_assoc]
    exact c.room
  · rcases List.mem_append.mp hk with hk | hk
    · exact c.fits k hk
    · rw [List.mem_singleton.mp hk]
      exact hsmall
  · have := c.paid a ha
    rw [htotal]
    dsimp only at *
    omega
  · have hn : n ≤ m := hm n (List.mem_append_right _ List.mem_cons_self)
    have := c.bound m fun k hk => hm k (List.mem_append_left _ hk)
    rw [htotal,Nat.add_mul,Nat.one_mul]
    dsimp only at *
    omega

private theorem fair_pair (hread : ∀ r, Fair len left 2 r (read r)) :
    Fair len left 2 r (pair ledger read r) :=
  fair_alloc (fun _ => rfl) (fun _ _ => trivial) (fair_bind (p := 2) (q := 2) (hread r)
    fun _ _ => fair_bind_pure (hread _))

/-- A pair is read only where a byte stands, so there are never more pairs than bytes. -/
theorem fair_pairs (hread : ∀ r, Fair len left 2 r (read r)) (fuel : Nat)
    (r : MarshalReader (List MarshalNeed)) (hfuel : r.data.length < fuel) :
    Fair len left 0 r (pairs ledger read fuel r) := by
  induction fuel generalizing r with
  | zero => exact absurd hfuel (Nat.not_lt_zero _)
  | succ fuel ih =>
    intro hr
    obtain ⟨needs,c⟩ := (fair_byte : Fair len left 2 r ((byte : Step _ E UInt8) r)) hr
    rcases hcode : (byte : Step _ E UInt8) r with ⟨result,next⟩
    rw [hcode] at c
    simp only [pairs,hcode]
    cases result with
    | error e => exact ⟨needs,c.of_error⟩
    | ok code =>
      dsimp only
      split_ifs with hend
      · refine ⟨needs,fun _ h => (by cases h),c.room,c.length,c.fits,fun _ _ => ?_,c.bound⟩
        have := c.paid code rfl
        dsimp only at *
        omega
      · refine (fair_bind (p := 2) (fair_pair hread) fun kv hkv => fair_bind_pure (ih _ ?_)).weaken
          (Nat.le_refl _) (Nat.zero_le _) hr
        obtain ⟨_,cpair⟩ := fair_pair (r := r) hread hr
        have := cpair.paid kv hkv
        omega

private theorem fair_readDict (build : MarshalBuild V E) (hread : ∀ r, Fair len left 2 r (read r)) :
    Fair len left 0 r (readDict ledger build read r) :=
  fair_bind (fair_pairs hread _ r (Nat.lt_succ_self _)) fun _ _ => fair_lift _

private theorem take_length {n : Nat} {r' : MarshalReader S} {b : List UInt8}
    (h : ((take n : Step S E (List UInt8)) r').1 = .ok b) :
    n + ((take n : Step S E (List UInt8)) r').2.data.length = r'.data.length := by
  unfold take at h ⊢
  split
  · rename_i hn
    rw [List.length_drop]
    omega
  · rename_i hn
    rw [if_neg hn] at h
    cases h

private theorem fair_digitAt {i : Nat} (hi : r.data.length + 2 * i ≤ len) :
    Fair len left 3 r ((digitAt ledger i : Step _ E Nat) r) := by
  refine fair_alloc (n := 1) (fun _ => rfl) (fun b hb => ?_) (fair_take 2)
  have := take_length hb
  show 2 * (i + 1) ≤ len
  omega

private theorem fair_longDigits (count i : Nat) (r : MarshalReader (List MarshalNeed))
    (hi : r.data.length + 2 * i ≤ len) :
    Fair len left 0 r ((longDigits ledger count i : Step _ E Nat) r) := by
  induction count generalizing i r with
  | zero => exact fair_pure 0
  | succ count ih =>
    intro hr
    have hdigit : Fair len left 3 r ((digitAt ledger i : Step _ E Nat) r) := fair_digitAt hi
    obtain ⟨_,c⟩ := hdigit hr
    refine (fair_bind hdigit fun a ha => fair_bind_pure (ih _ _ ?_)).weaken (Nat.le_refl _)
      (Nat.zero_le _) hr
    have := c.paid a ha
    omega

private theorem fair_signedLong (build : MarshalBuild V E) (count : Int) :
    Fair len left 0 r (signedLong ledger build count r) :=
  fun hr => fair_bind_pure (fair_longDigits _ _ _ hr) hr
theorem fair_readLong (build : MarshalBuild V E) : Fair len left 0 r (readLong ledger build r) :=
  (fair_bind fair_u32 fun _ _ => fair_signedLong build _).weaken (Nat.le_refl _) (Nat.zero_le _)

private theorem fair_object (build : MarshalBuild V E) (hread : ∀ r, Fair len left 2 r (read r))
    (code : Char) : Fair len (left + 1) 0 r (object ledger build read code r) := by
  have hseq {f : List V → V} :
      Fair len (left + 1) 0 r ((do return f (← readSeq ledger read) : Step _ E V) r) :=
    fair_bind_pure (fair_readSeq hread)
  have hset {f : List V → Except E V} :
      Fair len (left + 1) 0 r ((do lift (f (← readSeq ledger read)) : Step _ E V) r) :=
    fair_bind (fair_readSeq hread) fun _ _ => fair_lift _
  have htake {n : Nat} {f : List UInt8 → V} (r : MarshalReader _) :
      Fair len (left + 1) 0 r ((do return f (← take n) : Step _ E V) r) :=
    (fair_bind_pure (fair_take n)).weaken (Nat.le_refl _) (Nat.zero_le _)
  have htext {f : List UInt8 → V} :
      Fair len (left + 1) 0 r ((do return f (← take (← u32)) : Step _ E V) r) :=
    (fair_bind fair_u32 fun _ _ => htake _).weaken (Nat.le_refl _) (Nat.zero_le _)
  unfold object
  split
  · exact fair_pure _
  · exact fair_pure _
  · exact fair_pure _
  · exact fair_pure _
  · exact fair_fail rfl
  · exact (fair_bind_pure fair_u32).weaken (Nat.le_refl _) (Nat.zero_le _)
  · exact htake r
  · exact fair_readLong build
  · exact htake r
  · exact htake r
  · exact htext
  · exact htext
  · exact hseq
  · exact hseq
  · exact hset
  · exact hset
  · exact (fair_readDict build hread).weaken (Nat.le_succ _) (Nat.le_refl _)
  · exact fair_fail rfl

/-- An object with `left` levels to read costs its bytes and one count for each level. -/
theorem fair_read (build : MarshalBuild V E) (left : Nat) (r : MarshalReader (List MarshalNeed)) :
    Fair len left 2 r (MarshalReader.read ledger build left r) := by
  induction left generalizing r with
  | zero => exact fair_fail rfl
  | succ left ih => exact fair_bind fair_byte fun _ _ => fair_object build ih _

/-! ## A reader with a bounded memory -/

def Fine (memory : Nat) (needs : List MarshalNeed) : Prop :=
  (∀ n ∈ needs, n.wraps = false) ∧ total needs ≤ memory

theorem Fine.of_append {memory : Nat} {as bs : List MarshalNeed} (h : Fine memory (as ++ bs)) :
    Fine memory bs := by
  refine ⟨fun n hn => h.1 n (List.mem_append_right _ hn),?_⟩
  have := h.2
  rw [total_append] at this
  omega

section
variable {memory : Nat} {need : MarshalNeed} {data : List UInt8} {taken : Nat}

private theorem alloc_wraps (h : need.wraps = true) :
    (alloc (heap memory) need : Step Nat E Unit) ⟨data, taken⟩
      = (.error (.crash .panic), ⟨data, taken⟩) := by
  simp [alloc,heap,h]
private theorem alloc_full (hwraps : need.wraps = false) (h : memory < taken + need.slots) :
    (alloc (heap memory) need : Step Nat E Unit) ⟨data, taken⟩
      = (.error (.crash .outOfMemory), ⟨data, taken⟩) := by
  simp [alloc,heap,hwraps,h]
private theorem alloc_ok (hwraps : need.wraps = false) (h : taken + need.slots ≤ memory) :
    (alloc (heap memory) need : Step Nat E Unit) ⟨data, taken⟩
      = (.ok (), ⟨data, taken + need.slots⟩) := by
  simp [alloc,heap,hwraps,Nat.not_lt.mpr h]

end

/-- The step does what the scan does while the memory is enough, and crashes if it is not. -/
def Follows (memory : Nat) (x : Step Nat E α) (y : Step (List MarshalNeed) E α) : Prop :=
  ∀ data needs, ∃ more, (y ⟨data, needs⟩).2.room = more ++ needs ∧ (Fine memory needs →
    (Fine memory (more ++ needs) → x ⟨data, total needs⟩ =
      ((y ⟨data, needs⟩).1, ⟨(y ⟨data, needs⟩).2.data, total (more ++ needs)⟩)) ∧
    (¬ Fine memory (more ++ needs) → ∃ c, (x ⟨data, total needs⟩).1 = .error (.crash c)))

section
variable {memory : Nat} {x x' : Step Nat E V} {y y' : Step (List MarshalNeed) E V}

/-- A step that needs no room. -/
theorem Follows.of_reads {x : Step Nat E α} {y : Step (List MarshalNeed) E α}
    (h : ∀ data needs taken, (y ⟨data, needs⟩).2.room = needs ∧
      x ⟨data, taken⟩ = ((y ⟨data, needs⟩).1, ⟨(y ⟨data, needs⟩).2.data, taken⟩)) :
    Follows memory x y := by
  intro data needs
  refine ⟨[],(h data needs 0).1,fun hfine => ⟨fun _ => (h data needs _).2,fun hnot => ?_⟩⟩
  exact absurd hfine hnot

private theorem follows_pure (a : α) : Follows memory (pure a : Step Nat E α) (pure a) :=
  .of_reads fun _ _ _ => ⟨rfl,rfl⟩
theorem follows_fail (e : MarshalStop E) : Follows memory (fail e : Step Nat E α) (fail e) :=
  .of_reads fun _ _ _ => ⟨rfl,rfl⟩
private theorem follows_byte : Follows memory (byte : Step Nat E UInt8) byte :=
  .of_reads fun data _ _ => by cases data <;> exact ⟨rfl,rfl⟩
private theorem follows_take (n : Nat) : Follows memory (take n : Step Nat E _) (take n) := by
  refine .of_reads fun data needs taken => ?_
  by_cases hn : n ≤ data.length
  · simp [take,hn]
  · simp [take,hn,short,fail]

private theorem follows_alloc (need : MarshalNeed) :
    Follows memory (alloc (heap memory) need : Step Nat E Unit) (alloc ledger need) := by
  intro data needs
  have htotal : total (need :: needs) = total needs + need.slots := by
    rw [Nat.add_comm]
    rfl
  refine ⟨[need],rfl,fun hfine => ⟨fun h => ?_,fun hnot => ?_⟩⟩
  · rw [alloc_ok (h.1 need (by simp)) (htotal ▸ h.2),← htotal]
    rfl
  · rcases hwraps : need.wraps with _ | _
    · have hroom : memory < total needs + need.slots := by
        by_contra hle
        refine hnot ⟨List.forall_mem_cons.mpr ⟨hwraps,hfine.1⟩,?_⟩
        exact htotal ▸ Nat.not_lt.mp hle
      exact ⟨.outOfMemory,congrArg Prod.fst (alloc_full hwraps hroom)⟩
    · exact ⟨.panic,congrArg Prod.fst (alloc_wraps hwraps)⟩

theorem Follows.bind {x : Step Nat E α} {y : Step (List MarshalNeed) E α} {f : α → Step Nat E β}
    {g : α → Step (List MarshalNeed) E β} (h : Follows memory x y)
    (hf : ∀ a, Follows memory (f a) (g a)) : Follows memory (x >>= f) (y >>= g) := by
  intro data needs
  obtain ⟨more,hroom,h⟩ := h data needs
  rcases hy : y ⟨data,needs⟩ with ⟨result,rest,room⟩
  rw [hy] at hroom h
  obtain rfl : room = more ++ needs := hroom
  cases result with
  | error e =>
    rw [bind_error hy]
    refine ⟨more,rfl,fun hfine => ⟨fun hok => ?_,fun hnot => ?_⟩⟩
    · rw [bind_error ((h hfine).1 hok)]
    · obtain ⟨c,hc⟩ := (h hfine).2 hnot
      exact ⟨c,bind_fails hc⟩
  | ok a =>
    rw [bind_ok hy]
    obtain ⟨more',hroom',hf⟩ := hf a rest (more ++ needs)
    refine ⟨more' ++ more,by rw [hroom',List.append_assoc],fun hfine => ?_⟩
    rw [List.append_assoc]
    by_cases hok : Fine memory (more ++ needs)
    · rw [bind_ok ((h hfine).1 hok)]
      exact hf hok
    · obtain ⟨c,hc⟩ := (h hfine).2 hok
      exact ⟨fun hall => absurd hall.of_append hok,fun _ => ⟨c,bind_fails hc⟩⟩

private theorem follows_u32 : Follows memory (u32 : Step Nat E Nat) u32 :=
  (follows_take 4).bind fun _ => follows_pure _
theorem follows_lift (z : Except E α) : Follows memory (lift z : Step Nat E α) (lift z) := by
  cases z with
  | ok a => exact follows_pure a
  | error e => exact follows_fail _

private theorem follows_elements (h : Follows memory x y) (n : Nat) :
    Follows memory (elements x n) (elements y n) := by
  induction n with
  | zero => exact follows_pure []
  | succ n ih => exact h.bind fun _ => ih.bind fun _ => follows_pure _

private theorem follows_readSeq (h : Follows memory x y) :
    Follows memory (readSeq (heap memory) x) (readSeq ledger y) :=
  follows_u32.bind fun n => (follows_alloc _).bind fun _ => follows_elements h n

private theorem follows_pair (h : Follows memory x y) :
    Follows memory (pair (heap memory) x) (pair ledger y) :=
  Follows.bind (h.bind fun _ => h.bind fun _ => follows_pure _) fun _ =>
    (follows_alloc _).bind fun _ => follows_pure _

private theorem follows_pairs (h : Follows memory x y) (fuel : Nat) :
    Follows memory (pairs (heap memory) x fuel) (pairs ledger y fuel) := by
  induction fuel with
  | zero => exact follows_fail _
  | succ fuel ih =>
    have hpair := (follows_pair h).bind fun kv => ih.bind fun kvs =>
      follows_pure (E := E) (kv.1 :: kvs.1, kv.2 :: kvs.2)
    intro data needs
    cases data with
    | nil => exact follows_fail _ [] needs
    | cons code data =>
      by_cases hend : code = '0'.toUInt8
      · have hstop : Follows memory (pure ([], []) : Step Nat E (List V × List V))
            (pure ([], [])) := follows_pure _
        simp only [pairs,byte,hend]
        exact hstop data needs
      · have hmore := hpair (code :: data) needs
        simp only [pairs,byte,hend,if_false]
        exact hmore

private theorem follows_readDict (build : MarshalBuild V E) (h : Follows memory x y) :
    Follows memory (readDict (heap memory) build x) (readDict ledger build y) := by
  refine Follows.bind (fun data needs => ?_) fun _ => follows_lift _
  exact follows_pairs h (data.length + 1) data needs

private theorem follows_longDigits (count i : Nat) :
    Follows memory (longDigits (heap memory) count i : Step Nat E Nat)
      (longDigits ledger count i) := by
  induction count generalizing i with
  | zero => exact follows_pure 0
  | succ count ih =>
    have hdigit : Follows memory (digitAt (heap memory) i : Step Nat E Nat) (digitAt ledger i) :=
      (follows_take 2).bind fun _ => (follows_alloc _).bind fun _ => follows_pure _
    exact hdigit.bind fun _ => (ih _).bind fun _ => follows_pure _

private theorem follows_readLong (build : MarshalBuild V E) :
    Follows memory (readLong (heap memory) build : Step Nat E V) (readLong ledger build) := by
  have hsigned (count : Int) : Follows memory (signedLong (heap memory) build count : Step Nat E V)
      (signedLong ledger build count) := (follows_longDigits _ _).bind fun _ => follows_pure _
  exact follows_u32.bind fun _ => hsigned _

private theorem follows_object (build : MarshalBuild V E) (h : Follows memory x y) (code : Char) :
    Follows memory (object (heap memory) build x code) (object ledger build y code) := by
  have hseq := follows_readSeq h
  unfold object
  split
  · exact follows_pure _
  · exact follows_pure _
  · exact follows_pure _
  · exact follows_pure _
  · exact follows_fail _
  · exact follows_u32.bind fun _ => follows_pure _
  · exact (follows_take 8).bind fun _ => follows_pure _
  · exact follows_readLong build
  · exact (follows_take 8).bind fun _ => follows_pure _
  · exact (follows_take 16).bind fun _ => follows_pure _
  · exact follows_u32.bind fun _ => (follows_take _).bind fun _ => follows_pure _
  · exact follows_u32.bind fun _ => (follows_take _).bind fun _ => follows_pure _
  · exact hseq.bind fun _ => follows_pure _
  · exact hseq.bind fun _ => follows_pure _
  · exact hseq.bind fun _ => follows_lift _
  · exact hseq.bind fun _ => follows_lift _
  · exact follows_readDict build h
  · exact follows_fail _

private theorem follows_read (build : MarshalBuild V E) (left : Nat) :
    Follows memory (MarshalReader.read (heap memory) build left)
      (MarshalReader.read ledger build left) := by
  induction left with
  | zero => exact follows_fail _
  | succ left ih => exact follows_byte.bind fun _ => follows_object build ih _

end
end MarshalReader

open MarshalReader
open MarshalNeed (total)

/-! ## The bound -/

/-- The outcome is a value or an exception, and the slots are at most `k` for each byte. -/
structure Contained {V E : Type} (k : Nat) (data : List UInt8)
    (out : Except (MarshalStop E) V × MarshalReader Nat) : Prop where
  raises : ∀ e, out.1 = .error e → e.isException
  slots : out.2.room ≤ k * data.length

variable {V E : Type} (build : MarshalBuild V E) (memory : Nat) (data : List UInt8)

private theorem scan_costs : Costs data.length (marshalMaxDepth + 1) 2 ⟨data, []⟩
    (MarshalReader.read ledger build (marshalMaxDepth + 1) ⟨data, []⟩)
    (marshalScan build data) := by
  obtain ⟨needs,c⟩ := fair_read build (marshalMaxDepth + 1) ⟨data,[]⟩ (Nat.le_refl data.length)
  have hroom : marshalScan build data = needs := by
    rw [marshalScan,c.room,List.append_nil]
  rwa [hroom]

private theorem scan_count_lt {n : Nat} (h : .count n ∈ marshalScan build data) : n < 2 ^ 32 :=
  (scan_costs build data).fits _ h
private theorem count_le_total {n : Nat} {needs : List MarshalNeed} (h : .count n ∈ needs) :
    n ≤ total needs := by
  obtain ⟨before,after,rfl⟩ := List.append_of_mem h
  have hcount : total (.count n :: after) = n + total after := rfl
  rw [total_append,hcount]
  omega

private theorem shiftAt_nonneg {i : Nat} (h : i < 143165577) : 0 ≤ shiftAt i := by
  have hmod : (15 * (i : Int)).bmod 4294967296 = 15 * i := by
    apply Int.bmod_eq_of_le <;> omega
  have heq : shiftAt i = (15 * (i : Int)).bmod 4294967296 := rfl
  omega

/-- A place whose shift has wrapped is far down the stream. -/
theorem scan_clean_of_short (h : data.length < 286331156) :
    ∀ n ∈ marshalScan build data, n.wraps = false := by
  intro n hn
  have hfits := (scan_costs build data).fits n hn
  cases n with
  | digit i value =>
    have hi : 2 * (i + 1) ≤ data.length := hfits
    have hshift : ¬ shiftAt i < 0 := Int.not_lt.mpr (shiftAt_nonneg (by omega))
    simp [MarshalNeed.wraps,hshift]
  | _ => rfl

/-- The reader crashes exactly if what it finds does not fit, and else it has taken room for it. -/
theorem loads_cases :
    (Fine memory (marshalScan build data) ∧
      (marshalLoads build memory data).1 =
        (MarshalReader.read ledger build (marshalMaxDepth + 1) ⟨data, []⟩).1 ∧
      (marshalLoads build memory data).2.room = total (marshalScan build data)) ∨
    ¬ Fine memory (marshalScan build data) ∧
      ∃ c, (marshalLoads build memory data).1 = .error (.crash c) := by
  have hstart : Fine memory [] := ⟨fun n hn => (by cases hn),Nat.zero_le _⟩
  have hfollows : Follows memory (MarshalReader.read (heap memory) build (marshalMaxDepth + 1))
      (MarshalReader.read ledger build (marshalMaxDepth + 1)) := follows_read build _
  obtain ⟨more,hroom,h⟩ := hfollows data []
  rw [List.append_nil] at hroom h
  obtain rfl : marshalScan build data = more := hroom
  by_cases hfine : Fine memory (marshalScan build data)
  · have hsame := (h hstart).1 hfine
    exact .inl ⟨hfine,congrArg Prod.fst hsame,congrArg (·.2.room) hsame⟩
  · exact .inr ⟨hfine,(h hstart).2 hfine⟩

private theorem contained_iff (k : Nat) : Contained k data (marshalLoads build memory data) ↔
    Fine memory (marshalScan build data) ∧ total (marshalScan build data) ≤ k * data.length := by
  rcases loads_cases build memory data with ⟨hfine,heq,hroom⟩ | ⟨hnot,c,hc⟩
  · constructor
    · intro h
      exact ⟨hfine,hroom ▸ h.slots⟩
    · rintro ⟨-,hslots⟩
      refine ⟨fun e he => ?_,hroom ▸ hslots⟩
      exact (scan_costs build data).raises e (heq ▸ he)
  · refine iff_of_false (fun h => ?_) fun h => hnot h.1
    have hcrash := h.raises _ hc
    simp [MarshalStop.isException] at hcrash

/-- The open containers, one for each level, hold no more than what the largest count asks for. -/
theorem scan_total_le {k : Nat} (h : ∀ n, .count n ∈ marshalScan build data → n ≤ k * data.length) :
    total (marshalScan build data) ≤ ((marshalMaxDepth + 1) * k + 2) * data.length := by
  have hbound := (scan_costs build data).bound _ h
  rw [Nat.add_mul,Nat.mul_assoc]
  dsimp only at hbound
  omega

def unitBuild : MarshalBuild Unit Empty :=
  ⟨(), (), fun _ => (), fun _ => (), fun _ => (), fun _ _ => (), fun _ => (), fun _ => (),
    fun _ => (), fun _ => (), fun _ => .ok (), fun _ => .ok (), fun _ _ => .ok ()⟩

variable {memory : Nat}

private theorem u32_cons (a b c d : UInt8) (data : List UInt8) :
    (u32 : Step Nat E Nat) ⟨a :: b :: c :: d :: data, 0⟩
      = (.ok (ofLeBytes [a, b, c, d]), ⟨data, 0⟩) := by
  have htake : (take 4 : Step Nat E _) ⟨a :: b :: c :: d :: data,0⟩
      = (.ok [a,b,c,d], ⟨data,0⟩) := by
    simp [take]
  unfold u32
  rw [bind_ok htake]
  rfl

private theorem loads_cons (code : UInt8) (data : List UInt8) :
    marshalLoads build memory (code :: data)
      = object (heap memory) build (MarshalReader.read (heap memory) build marshalMaxDepth)
        (Char.ofNat code.toNat) ⟨data, 0⟩ := by
  have hcode : (byte : Step Nat E UInt8) ⟨code :: data,0⟩ = (.ok code, ⟨data,0⟩) := rfl
  unfold marshalLoads
  rw [MarshalReader.read,bind_ok hcode]

/-- The room for a list is taken before the stream is seen to end. -/
theorem loads_list_header {a b c d : UInt8} {n : Nat} (hn : ofLeBytes [a, b, c, d] = n + 1) :
    (n + 1 ≤ memory → (marshalLoads build memory ['['.toUInt8, a, b, c, d]).2.room = n + 1) ∧
    (memory < n + 1 →
      (marshalLoads build memory ['['.toUInt8, a, b, c, d]).1 = .error (.crash .outOfMemory)) := by
  have hobject (read : Step Nat E V) :
      object (heap memory) build read (Char.ofNat '['.toUInt8.toNat) =
        readSeq (heap memory) read >>= fun elts => pure (build.list elts) := rfl
  have hslots : 0 + (MarshalNeed.count (n + 1)).slots = n + 1 := Nat.zero_add _
  rw [loads_cons,hobject]
  constructor
  · intro h
    have hshort : MarshalReader.read (heap memory) build marshalMaxDepth
        ⟨[],0 + (MarshalNeed.count (n + 1)).slots⟩
        = short ⟨[],0 + (MarshalNeed.count (n + 1)).slots⟩ := rfl
    have hseq : readSeq (heap memory) (MarshalReader.read (heap memory) build marshalMaxDepth)
        ⟨[a,b,c,d],0⟩ = short ⟨[],0 + (MarshalNeed.count (n + 1)).slots⟩ := by
      unfold readSeq
      rw [bind_ok (u32_cons a b c d []),hn,bind_ok (alloc_ok rfl (hslots.trans_le h)),elements,
        bind_error hshort]
      rfl
    rw [bind_error hseq]
    exact hslots
  · intro h
    apply bind_fails
    unfold readSeq
    rw [bind_ok (u32_cons a b c d []),hn,bind_error (alloc_full rfl (h.trans_eq hslots.symm))]

private theorem digitAt_cons (i taken : Nat) (a b : UInt8) (data : List UInt8) :
    (digitAt (heap memory) i : Step Nat E Nat) ⟨a :: b :: data, taken⟩
      = (alloc (heap memory) (.digit i (ofLeBytes [a, b])) >>= fun _ =>
          pure (ofLeBytes [a, b] <<< (shiftAt i).toNat)) ⟨data, taken⟩ := by
  have htake : (take 2 : Step Nat E _) ⟨a :: b :: data,taken⟩ = (.ok [a,b], ⟨data,taken⟩) := by
    simp [take]
  unfold digitAt
  rw [bind_ok htake]

/-- Zeros are read up to the first digit that is shifted by less than nothing. -/
theorem longDigits_panics (k i taken : Nat) (h : shiftAt (i + k) < 0) (hroom : taken + k ≤ memory) :
    ((longDigits (heap memory) (k + 1) i : Step Nat E Nat)
      ⟨List.replicate (2 * k) 0 ++ [1, 0], taken⟩).1 = .error (.crash .panic) := by
  induction k generalizing i taken with
  | zero =>
    rw [Nat.add_zero] at h
    have hone : ofLeBytes [1,0] = 1 := by decide
    have hwraps : (MarshalNeed.digit i 1).wraps = true := by simpa [MarshalNeed.wraps] using h
    rw [longDigits,Nat.mul_zero,List.replicate_zero,List.nil_append]
    apply bind_fails
    rw [digitAt_cons,hone,bind_error (alloc_wraps hwraps)]
  | succ k ih =>
    have hzero : ofLeBytes [0,0] = 0 := rfl
    have hclean : (MarshalNeed.digit i 0).wraps = false := by simp [MarshalNeed.wraps]
    have hone : taken + (MarshalNeed.digit i 0).slots ≤ memory := by
      show taken + 1 ≤ memory
      omega
    have hdigit : (digitAt (heap memory) i : Step Nat E Nat)
        ⟨List.replicate (2 * (k + 1)) 0 ++ [1,0],taken⟩
        = (.ok 0, ⟨List.replicate (2 * k) 0 ++ [1,0],taken + 1⟩) := by
      rw [Nat.mul_succ,List.replicate_succ,List.replicate_succ,List.cons_append,List.cons_append,
        digitAt_cons,hzero,bind_ok (alloc_ok hclean hone),Nat.zero_shiftLeft]
      rfl
    rw [longDigits,bind_ok hdigit]
    apply bind_fails
    exact ih (i + 1) (taken + 1) (by rwa [Nat.succ_add_eq_add_succ]) (by omega)

private theorem loads_panics {a b c d : UInt8} {k : Nat}
    (hcount : (Int.ofNat (ofLeBytes [a, b, c, d])).bmod (2 ^ 32) = Int.ofNat (k + 1))
    (hk : shiftAt k < 0) (hroom : k ≤ memory) :
    (marshalLoads build memory
      ('l'.toUInt8 :: a :: b :: c :: d :: (List.replicate (2 * k) 0 ++ [1, 0]))).1
      = .error (.crash .panic) := by
  have hdigits : ndigits (Int.ofNat (k + 1)) = k + 1 := rfl
  have hobject (read : Step Nat E V) :
      object (heap memory) build read (Char.ofNat 'l'.toUInt8.toNat)
        = readLong (heap memory) build := rfl
  rw [loads_cons,hobject,readLong,bind_ok (u32_cons a b c d _),hcount,signedLong,hdigits]
  apply bind_fails
  apply longDigits_panics
  · rwa [Nat.zero_add]
  · rwa [Nat.zero_add]

end Unagi.Objects
