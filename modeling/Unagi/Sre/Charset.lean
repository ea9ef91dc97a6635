import Mathlib.Data.Nat.Bitwise
import Unagi.Lib.Endian

/-! # Character sets of the pattern matcher

`charset` walks the items of a set program until one has the character. The block index of a big
set is a byte that the code reads as a signed one, so that blocks from 128 on are never found. -/

namespace Unagi.Sre

open Lib (ofLeBytes)

def opFailure : UInt32 := 0
def opCategory : UInt32 := 8
def opCharset : UInt32 := 9
def opBigcharset : UInt32 := 10
def opLiteral : UInt32 := 16
def opNegate : UInt32 := 21
def opRange : UInt32 := 22
def opRangeUniIgnore : UInt32 := 42

def int32 (w : UInt32) : Int := w.toBitVec.toInt

/-- Bit `k` of the bitmap that starts here, if the code looks at it. -/
def bitmapBit (words : List UInt32) (looks : Bool) (k : Nat) : Option Bool :=
  if looks then
    words[k >>> 5]?.map fun word => word &&& ((1 : UInt32) <<< UInt32.ofNat (k &&& 31)) != 0
  else some false

section
variable (sreCategory : UInt32 → Nat → Bool) (sreUpperUnicode : Nat → Nat) (ch : Nat)

/-- The block of a big set that the character is in; none if the table says so. -/
def blockOf (table : List UInt32) : Option Int :=
  if ch < 0x10000 then
    let blockIdx := ch >>> 8
    table[blockIdx >>> 2]?.map fun word =>
      (word >>> UInt32.ofNat ((blockIdx &&& 3) * 8)).toUInt8.toInt8.toInt
  else some (-1)

/-- The walk over the words from `code[i]` on; no result where the code would read past the end. -/
def charsetLoop : Nat → Bool → List UInt32 → Option Bool
  | 0, _, _ | _, _, [] => none
  | fuel + 1, ok, op :: code =>
    if op = opFailure then some !ok
    else if op = opLiteral then
      match code with
      | c :: code => if (ch : Int) = int32 c then some ok else charsetLoop fuel ok code
      | _ => none
    else if op = opCategory then
      match code with
      | c :: code => if sreCategory c ch then some ok else charsetLoop fuel ok code
      | _ => none
    else if op = opCharset then do
      if ← bitmapBit code (ch < 256) ch then return ok
      charsetLoop fuel ok (code.drop 8)
    else if op = opRange then
      match code with
      | lo :: hi :: code =>
        if int32 lo ≤ ch ∧ ch ≤ int32 hi then some ok else charsetLoop fuel ok code
      | _ => none
    else if op = opRangeUniIgnore then
      match code with
      | lo :: hi :: code =>
        if int32 lo ≤ ch ∧ ch ≤ int32 hi then some ok
        else if int32 lo ≤ sreUpperUnicode ch ∧ sreUpperUnicode ch ≤ int32 hi then some ok
        else charsetLoop fuel ok code
      | _ => none
    else if op = opNegate then charsetLoop fuel (!ok) code
    else if op = opBigcharset then
      match code with
      | count :: code => do
        let block ← blockOf ch code
        let blocks := code.drop 64
        if ← bitmapBit (blocks.drop (block.toNat * 8)) (0 ≤ block) (ch &&& 0xFF) then return ok
        charsetLoop fuel ok (blocks.drop (count.toNat * 8))
      | _ => none
    else some false

def charset (code : List UInt32) (setIdx : Nat) : Option Bool :=
  charsetLoop sreCategory sreUpperUnicode ch (code.length + 1) true (code.drop setIdx)

/-- An item of a set program. A big set has a table of 256 block indices and its blocks. -/
inductive Item where
  | literal (c : Nat)
  | range (lo hi : Nat)
  | category (code : UInt32)
  | charset (bits : List UInt32)
  | bigcharset (table : List UInt8) (blocks : List (List UInt32))
  | negate
deriving DecidableEq

def packTable : List UInt8 → List UInt32
  | b₀ :: b₁ :: b₂ :: b₃ :: table => UInt32.ofNat (ofLeBytes [b₀, b₁, b₂, b₃]) :: packTable table
  | _ => []

namespace Item

def encode : Item → List UInt32
  | literal c => [opLiteral, UInt32.ofNat c]
  | range lo hi => [opRange, UInt32.ofNat lo, UInt32.ofNat hi]
  | category code => [opCategory, code]
  | charset bits => opCharset :: bits
  | bigcharset table blocks =>
    opBigcharset :: UInt32.ofNat blocks.length :: (packTable table ++ blocks.flatten)
  | negate => [opNegate]

/-- Operands are characters, bitmaps have 256 bits, and the table leads to blocks that there are. -/
def Valid : Item → Prop
  | literal c => c ≤ 0x10FFFF
  | range lo hi => lo ≤ 0x10FFFF ∧ hi ≤ 0x10FFFF
  | category _ | negate => True
  | charset bits => bits.length = 8
  | bigcharset table blocks => table.length = 256 ∧ blocks.length ≤ 256 ∧
    (∀ b ∈ blocks, b.length = 8) ∧ ∀ i ∈ table, i.toNat < blocks.length

def bit (bits : List UInt32) (k : Nat) : Bool := (bits.getD (k / 32) 0).toNat.testBit (k % 32)
def block (table : List UInt8) : Nat := (table.getD (ch / 256) 0).toNat

/-- The character belongs to the item; blocks from `limit` on do not count. -/
def hasBelow (limit : Nat) : Item → Bool
  | literal c => ch = c
  | range lo hi => lo ≤ ch && ch ≤ hi
  | category code => sreCategory code ch
  | charset bits => ch < 256 && bit bits ch
  | bigcharset table blocks => ch < 0x10000 && block ch table < limit &&
    bit (blocks.getD (block ch table) []) (ch % 256)
  | negate => false

def has : Item → Bool := hasBelow sreCategory ch 256

/-- The character belongs to the item, and not through a block from 128 on. -/
def found : Item → Bool := hasBelow sreCategory ch 128

end Item

/-- The set that a program denotes: the union of its items, or its complement. -/
def member (items : List Item) : Bool :=
  items.any (Item.has sreCategory ch) != (items.head? == some .negate)

/-! ## Bits -/

theorem and_bit (w : UInt32) {j : Nat} (hj : j < 32) :
    (w &&& ((1 : UInt32) <<< UInt32.ofNat j) != 0) = w.toNat.testBit j := by
  have hpow : ((1 : UInt32) <<< UInt32.ofNat j).toNat = 2 ^ j := by
    have hlt : 2 ^ j < 2 ^ 32 := Nat.pow_lt_pow_right (by decide) hj
    have hjn : (UInt32.ofNat j).toNat = j := UInt32.toNat_ofNat_of_lt' (Nat.lt_trans hj (by decide))
    rw [UInt32.toNat_shiftLeft,hjn,Nat.mod_eq_of_lt hj,show (1 : UInt32).toNat = 1 from rfl,
      Nat.shiftLeft_eq,Nat.one_mul,Nat.mod_eq_of_lt hlt]
  have hzero : w &&& ((1 : UInt32) <<< UInt32.ofNat j) = 0 ↔ w.toNat.testBit j = false := by
    rw [← UInt32.toNat_inj,UInt32.toNat_and,hpow,Nat.and_two_pow]
    cases w.toNat.testBit j <;> simp
  cases htest : w.toNat.testBit j with
  | false => simp [hzero.mpr htest]
  | true =>
    rw [bne_iff_ne,ne_eq,hzero,htest]
    decide

theorem bitmapBit_eq {bits rest : List UInt32} (hlen : bits.length = 8) (looks : Bool) {k : Nat}
    (hk : looks = true → k < 256) :
    bitmapBit (bits ++ rest) looks k = some (looks && Item.bit bits k) := by
  cases looks with
  | false => rfl
  | true =>
    replace hk := hk rfl
    have hidx : k >>> 5 = k / 32 := Nat.shiftRight_eq_div_pow k 5
    have hlow : k &&& 31 = k % 32 := Nat.and_two_pow_sub_one_eq_mod k 5
    have hlt : k / 32 < bits.length := by omega
    rw [bitmapBit,if_pos rfl,hidx,hlow,List.getElem?_append_left hlt,List.getElem?_eq_getElem hlt,
      Option.map_some,and_bit _ (Nat.mod_lt _ (by decide)),Item.bit,List.getD_eq_getElem _ _ hlt]
    rfl

theorem length_packTable : ∀ table : List UInt8, table.length % 4 = 0 →
    (packTable table).length = table.length / 4
  | [], _ => rfl
  | [_], h | [_,_], h | [_,_,_], h => absurd h (by simp)
  | _ :: _ :: _ :: _ :: table, h => by
    have ih := length_packTable table (by simp only [List.length_cons] at h; omega)
    simp only [packTable,List.length_cons,ih]
    omega

theorem shift_byte (bs : List UInt8) (hlen : bs.length = 4) {j : Nat} (hj : j < 4) :
    (UInt32.ofNat (ofLeBytes bs) >>> UInt32.ofNat (j * 8)).toUInt8 = bs.getD j 0 := by
  obtain ⟨b₀,b₁,b₂,b₃,rfl⟩ : ∃ b₀ b₁ b₂ b₃, bs = [b₀,b₁,b₂,b₃] := by
    match bs, hlen with
    | [b₀,b₁,b₂,b₃], _ => exact ⟨b₀,b₁,b₂,b₃,rfl⟩
  have h₀ := b₀.toNat_lt
  have h₁ := b₁.toNat_lt
  have h₂ := b₂.toNat_lt
  have h₃ := b₃.toNat_lt
  have hjn : (UInt32.ofNat (j * 8)).toNat = j * 8 :=
    UInt32.toNat_ofNat_of_lt' (show j * 8 < 2 ^ 32 by omega)
  have hval : (UInt32.ofNat (ofLeBytes [b₀,b₁,b₂,b₃])).toNat =
      b₀.toNat + 256 * (b₁.toNat + 256 * (b₂.toNat + 256 * (b₃.toNat + 256 * 0))) :=
    UInt32.toNat_ofNat_of_lt' (show _ < 2 ^ 32 by simp only [ofLeBytes]; omega)
  apply UInt8.toNat_inj.mp
  rw [UInt32.toNat_toUInt8,UInt32.toNat_shiftRight,hjn,hval,Nat.shiftRight_eq_div_pow]
  obtain rfl | rfl | rfl | rfl : j = 0 ∨ j = 1 ∨ j = 2 ∨ j = 3 := by omega
  all_goals
    simp only [List.getD_cons_zero,List.getD_cons_succ,Nat.reduceMul,Nat.reduceMod,Nat.reducePow]
    omega

theorem getElem?_packTable : ∀ (table : List UInt8) (rest : List UInt32) {k : Nat},
    table.length % 4 = 0 → k < table.length →
    ((packTable table ++ rest)[k / 4]?.map fun word =>
      (word >>> UInt32.ofNat (k % 4 * 8)).toUInt8) = some (table.getD k 0)
  | [], _, _, _, hk => absurd hk (Nat.not_lt_zero _)
  | [_], _, _, h, _ | [_,_], _, _, h, _ | [_,_,_], _, _, h, _ => absurd h (by simp)
  | b₀ :: b₁ :: b₂ :: b₃ :: table, rest, k, h, hk => by
    simp only [packTable,List.cons_append]
    by_cases hlow : k < 4
    · rw [Nat.div_eq_of_lt hlow,Nat.mod_eq_of_lt hlow,List.getElem?_cons_zero,Option.map_some,
        shift_byte _ rfl hlow]
      obtain rfl | rfl | rfl | rfl : k = 0 ∨ k = 1 ∨ k = 2 ∨ k = 3 := by omega
      all_goals rfl
    · obtain ⟨m,rfl⟩ : ∃ m, k = m + 4 := ⟨k - 4,by omega⟩
      simp only [List.length_cons] at h hk
      rw [show (m + 4) / 4 = m / 4 + 1 by omega,show (m + 4) % 4 = m % 4 by omega,
        List.getElem?_cons_succ]
      exact getElem?_packTable table rest (by omega) (by omega)

theorem blockOf_packTable {table : List UInt8} (hlen : table.length = 256) (rest : List UInt32) :
    blockOf ch (packTable table ++ rest) = some (if ch < 0x10000 then
      (if Item.block ch table < 128 then (Item.block ch table : Int) else Item.block ch table - 256)
      else -1) := by
  rw [blockOf]
  split
  · rename_i hch
    have hbyte := getElem?_packTable table rest (k := ch / 256) (by omega) (by omega)
    have h₁ : ch >>> 8 = ch / 256 := Nat.shiftRight_eq_div_pow ch 8
    have h₂ : (ch / 256) >>> 2 = ch / 256 / 4 := Nat.shiftRight_eq_div_pow _ 2
    have h₃ : ch / 256 &&& 3 = ch / 256 % 4 := Nat.and_two_pow_sub_one_eq_mod _ 2
    have hmap := congrArg (Option.map fun b : UInt8 => b.toInt8.toInt) hbyte
    rw [Option.map_map,Option.map_some] at hmap
    simp only [h₁,h₂,h₃]
    refine hmap.trans (congrArg some ?_)
    have hcond := BitVec.toInt_eq_toNat_cond (table.getD (ch / 256) 0).toBitVec
    refine hcond.trans ?_
    change (if 2 * Item.block ch table < 2 ^ 8 then _ else _) = _
    split <;> split <;> first | rfl | omega
  · rfl

/-! ## The walk -/

def walk : Bool → List Item → Bool
  | ok, [] => !ok
  | ok, .negate :: items => walk (!ok) items
  | ok, item :: items => if item.found sreCategory ch then ok else walk ok items
theorem int32_ofNat {n : Nat} (h : n ≤ 0x10FFFF) : int32 (UInt32.ofNat n) = n := by
  have hn : (UInt32.ofNat n).toBitVec.toNat = n := UInt32.toNat_ofNat_of_lt' (show n < 2 ^ 32 by omega)
  rw [int32,BitVec.toInt_eq_toNat_cond,hn,if_pos (by omega)]
theorem length_flatten_blocks {blocks : List (List UInt32)} (h : ∀ b ∈ blocks, b.length = 8) :
    blocks.flatten.length = blocks.length * 8 := by
  rw [List.length_flatten,List.map_congr_left (g := fun _ => 8) h,List.map_const',
    List.sum_replicate_nat]

theorem drop_blocks : ∀ (blocks : List (List UInt32)) (rest : List UInt32) {i : Nat},
    (∀ b ∈ blocks, b.length = 8) → i < blocks.length →
    ∃ rest', (blocks.flatten ++ rest).drop (i * 8) = blocks.getD i [] ++ rest'
  | [], _, _, _, hi => absurd hi (Nat.not_lt_zero _)
  | b :: blocks, rest, 0, _, _ => ⟨blocks.flatten ++ rest,by simp⟩
  | b :: blocks, rest, i + 1, h, hi => by
    obtain ⟨rest',hrest⟩ := drop_blocks blocks rest (i := i)
      (fun c hc => h c (List.mem_cons_of_mem _ hc)) (by simpa using hi)
    refine ⟨rest',?_⟩
    have hb := h b List.mem_cons_self
    rw [List.flatten_cons,List.append_assoc,show (i + 1) * 8 = b.length + i * 8 by omega,
      ← List.drop_drop,List.drop_left,hrest,List.getD_cons_succ]

theorem bitmapBit_bigcharset {table : List UInt8} {blocks : List (List UInt32)}
    (hitem : (Item.bigcharset table blocks).Valid) (code : List UInt32) :
    ∃ block, blockOf ch (packTable table ++ (blocks.flatten ++ code)) = some block ∧
      bitmapBit ((blocks.flatten ++ code).drop (block.toNat * 8)) (0 ≤ block) (ch &&& 0xFF) =
        some (Item.found sreCategory ch (.bigcharset table blocks)) := by
  obtain ⟨htable,hcount,hblocks,hindex⟩ := hitem
  refine ⟨_,blockOf_packTable ch htable _,?_⟩
  have hlow : ch &&& 0xFF = ch % 256 := Nat.and_two_pow_sub_one_eq_mod ch 8
  have hmod : ch % 256 < 256 := Nat.mod_lt _ (by decide)
  rw [hlow,Item.found,Item.hasBelow]
  by_cases hch : ch < 0x10000
  · have hidx : Item.block ch table < blocks.length := by
      rw [Item.block,List.getD_eq_getElem _ _ (by omega)]
      exact hindex _ (List.getElem_mem _)
    rw [if_pos hch,decide_eq_true hch,Bool.true_and]
    generalize Item.block ch table = i at hidx ⊢
    by_cases hi : i < 128
    · obtain ⟨rest,hrest⟩ := drop_blocks blocks code hblocks hidx
      have hlen : (blocks.getD i []).length = 8 := by
        rw [List.getD_eq_getElem _ _ hidx]
        exact hblocks _ (List.getElem_mem _)
      rw [if_pos hi,Int.toNat_natCast,hrest,bitmapBit_eq hlen _ (fun _ => hmod),decide_eq_true hi]
      simp
    · have hneg : ¬ (0 : Int) ≤ i - 256 := by omega
      rw [if_neg hi,decide_eq_false hi,decide_eq_false hneg]
      rfl
  · rw [if_neg hch,decide_eq_false hch]
    rfl

theorem charsetLoop_item {item : Item} (hitem : item.Valid) (hne : item ≠ .negate) (fuel : Nat)
    (ok : Bool) (code : List UInt32) :
    charsetLoop sreCategory sreUpperUnicode ch (fuel + 1) ok (item.encode ++ code) =
      if item.found sreCategory ch then some ok
      else charsetLoop sreCategory sreUpperUnicode ch fuel ok code := by
  cases item with
  | negate => exact absurd rfl hne
  | literal c =>
    have hc : (ch : Int) = int32 (UInt32.ofNat c) ↔ ch = c := by
      rw [int32_ofNat hitem,Int.natCast_inj]
    simp [charsetLoop,Item.encode,opLiteral,opFailure,hc,Item.found,Item.hasBelow]
  | range lo hi =>
    simp [charsetLoop,Item.encode,opLiteral,opFailure,opCategory,opCharset,opRange,
      int32_ofNat hitem.1,int32_ofNat hitem.2,Item.found,Item.hasBelow]
  | category c =>
    simp only [charsetLoop,Item.encode,List.cons_append,List.nil_append,Item.found,Item.hasBelow]
    rfl
  | charset bits =>
    have hbit := @bitmapBit_eq bits code hitem (ch < 256) ch (by simp)
    have hlen : bits.length = 8 := hitem
    simp [charsetLoop,Item.encode,opLiteral,opFailure,opCategory,opCharset,hbit,Item.found,
      Item.hasBelow,← hlen]
  | bigcharset table blocks =>
    obtain ⟨htable,hcount,hblocks,hindex⟩ := hitem
    have hn : (UInt32.ofNat blocks.length).toNat = blocks.length :=
      UInt32.toNat_ofNat_of_lt' (show _ < 2 ^ 32 by omega)
    have hpack : (packTable table).length = 64 := by
      rw [length_packTable table (by omega),htable]
    obtain ⟨block,hblock,hbit⟩ := bitmapBit_bigcharset sreCategory ch
      ⟨htable,hcount,hblocks,hindex⟩ code
    have hdrop : (packTable table ++ (blocks.flatten ++ code)).drop 64 = blocks.flatten ++ code := by
      rw [← hpack,List.drop_left]
    have hend : (blocks.flatten ++ code).drop (blocks.length * 8) = code := by
      rw [← length_flatten_blocks hblocks,List.drop_left]
    simp only [charsetLoop,Item.encode,List.cons_append,List.append_assoc,hdrop,hblock,hn,hend]
    simp [opLiteral,opFailure,opCategory,opCharset,opRange,opRangeUniIgnore,opNegate,
      opBigcharset,hbit]

theorem charsetLoop_negate (fuel : Nat) (ok : Bool) (code : List UInt32) :
    charsetLoop sreCategory sreUpperUnicode ch (fuel + 1) ok (Item.negate.encode ++ code) =
      charsetLoop sreCategory sreUpperUnicode ch fuel (!ok) code := rfl

theorem charsetLoop_encode {items : List Item} (hitems : ∀ item ∈ items, item.Valid) {fuel : Nat}
    (hfuel : items.length < fuel) (ok : Bool) (rest : List UInt32) :
    charsetLoop sreCategory sreUpperUnicode ch fuel ok
      (items.flatMap Item.encode ++ opFailure :: rest) = some (walk sreCategory ch ok items) := by
  induction items generalizing fuel ok with
  | nil =>
    obtain ⟨n,rfl⟩ : ∃ n, fuel = n + 1 := ⟨fuel - 1,by simp at hfuel; omega⟩
    rfl
  | cons item items ih =>
    obtain ⟨n,rfl⟩ : ∃ n, fuel = n + 1 := ⟨fuel - 1,by omega⟩
    replace ih := fun ok => @ih (fun i hi => hitems i (List.mem_cons_of_mem _ hi)) n
      (by simpa using hfuel) ok
    rw [List.flatMap_cons,List.append_assoc]
    by_cases hneg : item = .negate
    · subst hneg
      rw [charsetLoop_negate,ih,walk]
    · rw [charsetLoop_item _ _ _ (hitems item List.mem_cons_self) hneg,ih,walk]
      · split <;> rfl
      · exact hneg

/-- The `NEGATE` items behind the first place that stand before the first item in which the code
finds the character. -/
def innerFlips (items : List Item) : Nat :=
  ((items.drop (if items.head? = some .negate then 1 else 0)).takeWhile
    fun item => !item.found sreCategory ch).count .negate

/-- The character belongs to the set only through blocks from 128 on. -/
def missed (items : List Item) : Bool :=
  items.any (Item.has sreCategory ch) && !items.any (Item.found sreCategory ch)

theorem walk_eq (ok : Bool) (items : List Item) : walk sreCategory ch ok items =
    (items.any (Item.found sreCategory ch) == (ok == ((items.takeWhile fun item =>
      !item.found sreCategory ch).count .negate % 2 == 0))) := by
  induction items generalizing ok with
  | nil => cases ok <;> rfl
  | cons item items ih =>
    by_cases hneg : item = .negate
    · subst hneg
      have hnot : Item.found sreCategory ch .negate = false := rfl
      rw [walk,ih,List.any_cons,List.takeWhile_cons,hnot]
      simp only [Bool.not_false,if_true,List.count_cons_self,Bool.false_or]
      generalize (List.takeWhile _ items).count Item.negate = n
      have hflip : ((n + 1) % 2 == 0) = !(n % 2 == 0) := by
        rcases Nat.mod_two_eq_zero_or_one n with h | h <;> simp [Nat.add_mod,h]
      rw [hflip]
      cases ok <;> cases (n % 2 == 0) <;> rfl
    · have hwalk : walk sreCategory ch ok (item :: items) =
          if item.found sreCategory ch then ok else walk sreCategory ch ok items := by
        rw [walk]
        exact hneg
      rw [hwalk,List.any_cons,List.takeWhile_cons]
      cases hf : item.found sreCategory ch with
      | true => cases ok <;> rfl
      | false => simp [ih,hneg]

theorem found_has {item : Item} (h : item.found sreCategory ch = true) :
    item.has sreCategory ch = true := by
  cases item with
  | bigcharset table blocks =>
    simp only [Item.found,Item.has,Item.hasBelow,Bool.and_eq_true,decide_eq_true_eq] at h ⊢
    exact ⟨⟨h.1.1,by omega⟩,h.2⟩
  | _ => exact h

theorem agree_iff (hit hasIt : Bool) (n : Nat) (lead : Bool) (h : hit = true → hasIt = true) :
    (hit == (true == ((n + lead.toNat) % 2 == 0))) = (hasIt != lead) ↔
      ((hasIt && !hit) = true ↔ n % 2 = 1) := by
  revert h
  rcases Nat.mod_two_eq_zero_or_one n with h | h <;> cases hit <;> cases hasIt <;> cases lead <;>
    simp [Nat.add_mod,h]

/-- A set program decides membership in the set that it denotes, if and only if either the character
belongs to it through a block below 128 or not at all, and an even number of `NEGATE` items behind
the first place comes before the item that has it; or neither. -/
theorem charset_decides_iff {items : List Item} (hitems : ∀ item ∈ items, item.Valid)
    {code rest : List UInt32} {setIdx : Nat}
    (hcode : code.drop setIdx = items.flatMap Item.encode ++ opFailure :: rest) :
    charset sreCategory sreUpperUnicode ch code setIdx = some (member sreCategory ch items) ↔
      (missed sreCategory ch items = true ↔ innerFlips sreCategory ch items % 2 = 1) := by
  have hfuel : items.length < code.length + 1 := by
    have hlen := congrArg List.length hcode
    have hitem : ∀ items : List Item, items.length ≤ (items.flatMap Item.encode).length := by
      intro items
      induction items with
      | nil => exact Nat.le_refl 0
      | cons item items ih =>
        have hpos : 0 < item.encode.length := by cases item <;> simp [Item.encode]
        rw [List.flatMap_cons,List.length_append,List.length_cons]
        omega
    have hle := hitem items
    rw [List.length_drop,List.length_append,List.length_cons] at hlen
    omega
  have hsub : items.any (Item.found sreCategory ch) = true →
      items.any (Item.has sreCategory ch) = true := by
    simp only [List.any_eq_true]
    rintro ⟨item,hmem,hf⟩
    exact ⟨item,hmem,found_has sreCategory ch hf⟩
  rw [charset,hcode,charsetLoop_encode _ _ _ hitems hfuel,Option.some.injEq,walk_eq]
  unfold member missed innerFlips
  by_cases hlead : items.head? = some .negate
  · obtain ⟨items,rfl⟩ : ∃ tail, items = .negate :: tail := by
      cases items with
      | nil => exact absurd hlead (by simp)
      | cons item tail => exact ⟨tail,by rw [Option.some.inj hlead]⟩
    have hnot : Item.found sreCategory ch .negate = false := rfl
    rw [List.takeWhile_cons,hnot,Bool.not_false,if_pos rfl,List.count_cons_self,if_pos hlead]
    exact agree_iff _ _ _ true hsub
  · rw [if_neg hlead,beq_eq_false_iff_ne.mpr hlead]
    exact agree_iff _ _ _ false hsub

end

/-- Neither a lower case letter nor a character of the block from U+0300 on. -/
def notLowerOrGreek : List Item :=
  [.negate, .range 97 122, .bigcharset ((List.replicate 256 0).set 3 1)
    [List.replicate 8 0, List.replicate 8 0xFFFFFFFF]]

/-- Lower case alpha is in the second block of the big set. -/
theorem notLowerOrGreek_decides :
    charset (fun _ _ => false) id 0x3B1 (notLowerOrGreek.flatMap Item.encode ++ [opFailure]) 0 =
      some (member (fun _ _ => false) 0x3B1 notLowerOrGreek) := by
  apply (charset_decides_iff (fun _ _ => false) id 0x3B1
    (show ∀ item ∈ notLowerOrGreek, _ from ?_) rfl).mpr
  · decide +kernel
  · rw [notLowerOrGreek,List.forall_mem_cons,List.forall_mem_cons,List.forall_mem_singleton]
    refine ⟨trivial,⟨by decide,by decide⟩,?_,by decide,by simp,?_⟩
    · rw [List.length_set,List.length_replicate]
    · intro i hi
      rcases List.mem_or_eq_of_mem_set hi with hi | rfl
      · rw [List.eq_of_mem_replicate hi]
        decide
      · decide

/-- A big set of 129 blocks whose table leads every character to the last one, which is full. -/
def highBlock : Item :=
  .bigcharset (List.replicate 256 128) (List.replicate 129 (List.replicate 8 0xFFFFFFFF))

/-- The character belongs to the set, and the code does not find it. -/
theorem high_block_missed : highBlock.Valid ∧
    charset (fun _ _ => false) id 65 (highBlock.encode ++ [opFailure]) 0 = some false ∧
    member (fun _ _ => false) 65 [highBlock] = true := by
  refine ⟨⟨List.length_replicate,?_,?_,?_⟩,by decide +kernel,by decide +kernel⟩
  · rw [List.length_replicate]
    decide
  · intro b hb
    rw [List.eq_of_mem_replicate hb,List.length_replicate]
  · intro i hi
    rw [List.eq_of_mem_replicate hi,List.length_replicate]
    decide

end Unagi.Sre
