import Unagi.Objects.HashKey

/-! # Reading keys back

A key is a tag and a body. Which object was encoded, up to equality, can be read back from the text,
provided that the parts of a union and of a generic alias do not blur its separators. -/

namespace Unagi.Objects

open Lib

def digitValue (c : UInt8) : Nat := if c < 58 then c.toNat - 48 else c.toNat - 87
theorem digitValue_digitChar : ∀ d < 16, digitValue (digitChar d) = d := by decide
theorem decimal_injective : Function.Injective decimal :=
  numeral_injective (by decide) fun d hd => digitValue_digitChar d (Nat.lt_trans hd (by decide))
theorem hex_injective : Function.Injective hex :=
  numeral_injective (by decide) digitValue_digitChar
def isNumberChar (c : UInt8) : Prop := c = '-'.toUInt8 ∨ ∃ d < 16, c = digitChar d

variable {c : UInt8}

theorem isNumberChar_decimal {n : Nat} (h : c ∈ decimal n) : isNumberChar c := by
  obtain ⟨d,hd,rfl⟩ := mem_numeral (by decide) h
  exact .inr ⟨d,Nat.lt_trans hd (by decide),rfl⟩
theorem isNumberChar_hex {n : Nat} (h : c ∈ hex n) : isNumberChar c :=
  .inr (mem_numeral (by decide) h)

theorem isNumberChar_intDecimal {v : Int} (h : c ∈ intDecimalLoose v) :
    isNumberChar c := by
  unfold intDecimalLoose at h
  split at h
  · rcases List.mem_cons.mp h with rfl | h
    · exact .inl rfl
    · exact isNumberChar_decimal h
  · exact isNumberChar_decimal h

theorem digitChar_ne : ∀ d < 16, digitChar d ≠ '-'.toUInt8 ∧ digitChar d ≠ ':'.toUInt8 ∧
    digitChar d ≠ ','.toUInt8 ∧ digitChar d ≠ '['.toUInt8 ∧ digitChar d ≠ ']'.toUInt8 ∧
    digitChar d ≠ '|'.toUInt8 := by
  decide

theorem intDecimalLoose_injective : Function.Injective intDecimalLoose := by
  have hminus : ∀ {n m : Nat}, '-'.toUInt8 :: decimal n ≠ decimal m := by
    intro n m h
    have hmem : '-'.toUInt8 ∈ decimal m := h ▸ List.mem_cons_self
    obtain ⟨d,hd,he⟩ := mem_numeral (by decide) hmem
    exact (digitChar_ne d (Nat.lt_trans hd (by decide))).1 he.symm
  intro v w h
  unfold intDecimalLoose at h
  split at h <;> split at h
  · have := decimal_injective (List.cons.inj h).2
    omega
  · exact absurd h hminus
  · exact absurd h.symm hminus
  · have := decimal_injective h
    omega

/-! ## Texts that end where they say -/

def isDelim (c : UInt8) : Prop := c = ','.toUInt8 ∨ c = '['.toUInt8 ∨ c = ']'.toUInt8
instance (c : UInt8) : Decidable (isDelim c) := inferInstanceAs (Decidable (_ ∨ _ ∨ _))

theorem isNumberChar.not_isDelim (h : isNumberChar c) : ¬ isDelim c := by
  rcases h with rfl | ⟨d,hd,rfl⟩
  · decide
  · have := digitChar_ne d hd
    simp [isDelim,this]
theorem isNumberChar.ne_bar (h : isNumberChar c) : c ≠ '|'.toUInt8 := by
  rcases h with rfl | ⟨d,hd,rfl⟩
  · decide
  · exact (digitChar_ne d hd).2.2.2.2.2

/-- Keys that can stand in a generic alias: without its separators, delimited by lengths, or
generic aliases again. -/
inductive TightKey : Bytes → Prop
  | plain (c : UInt8) (k : Bytes)
      (hc : c ∉ ['t'.toUInt8, 'F'.toUInt8, 'S'.toUInt8, 'G'.toUInt8])
      (hk : ∀ a ∈ c :: k, ¬ isDelim a) : TightKey (c :: k)
  | lengths (c : UInt8) (hc : c ∈ ['t'.toUInt8, 'F'.toUInt8, 'S'.toUInt8]) (ks : List Bytes) :
      TightKey (c :: delimited ks)
  | generic (k : Bytes) (ks : List Bytes) (hk : TightKey k) (hks : ∀ k' ∈ ks, TightKey k') :
      TightKey ('G'.toUInt8 :: k ++ '['.toUInt8 :: joined ','.toUInt8 ks ++ [']'.toUInt8])

def Ends (r : Bytes) : Prop := ∀ c ∈ r.head?, isDelim c
theorem ends_cons (h : isDelim c) (r : Bytes) : Ends (c :: r) := by
  intro a ha
  obtain rfl := Option.some.inj ha
  exact h

theorem Ends.ne_length {r : Bytes} (h : Ends r) (n : Nat) (t : Bytes) :
    r ≠ decimal n ++ ':'.toUInt8 :: t := by
  rintro rfl
  cases hn : decimal n with
  | nil =>
    rw [hn] at h
    exact absurd (h _ rfl) (by decide)
  | cons c l =>
    have hc : isNumberChar c := isNumberChar_decimal (hn ▸ List.mem_cons_self)
    rw [hn] at h
    exact hc.not_isDelim (h c rfl)

theorem colon_not_mem_decimal (n : Nat) : ':'.toUInt8 ∉ decimal n := by
  intro h
  obtain ⟨d,hd,he⟩ := mem_numeral (by decide) h
  exact (digitChar_ne d (Nat.lt_trans hd (by decide))).2.1 he.symm
theorem delimited_append {ks ks' : List Bytes} {r r' : Bytes} (hr : Ends r) (hr' : Ends r')
    (h : delimited ks ++ r = delimited ks' ++ r') : ks = ks' ∧ r = r' :=
  withLengths_append decimal_injective colon_not_mem_decimal hr.ne_length hr'.ne_length h
theorem delimited_injective : Function.Injective delimited := by
  intro ks ks' h
  have hnil : Ends [] := by simp [Ends]
  exact (delimited_append hnil hnil (congrArg (· ++ []) h)).1

theorem TightKey.closes : Closes TightKey Ends ','.toUInt8 [']'.toUInt8] where
  ne _ _ heq := absurd (List.cons.inj heq).1 (by decide)
  ends := ends_cons (by decide)
  start k h l l' heq := by
    cases h with
    | plain c k hc hk => exact hk c List.mem_cons_self ((List.cons.inj heq).1 ▸ by decide)
    | lengths c hc ks => exact absurd ((List.cons.inj heq).1 ▸ hc) (by decide)
    | generic k ks hk hks => exact absurd (List.cons.inj heq).1 (by decide)

theorem TightKey.readable {k : Bytes} (h : TightKey k) : Readable TightKey Ends k := by
  induction h with
  | plain c k hc hk =>
    intro k' hk' r r' hr hr' heq
    cases hk' with
    | plain c' k' hc' hk' => exact split_before hk hk' hr hr' heq
    | lengths c' hc' ks =>
      obtain ⟨rfl,-⟩ := List.cons.inj heq
      exact absurd hc' fun hmem => hc (by simp at hmem ⊢; tauto)
    | generic k' ks hk' hks =>
      obtain ⟨rfl,-⟩ := List.cons.inj heq
      exact absurd (by simp) hc
  | lengths c hc ks =>
    intro k' hk' r r' hr hr' heq
    cases hk' with
    | plain c' k' hc' hk' =>
      obtain ⟨rfl,-⟩ := List.cons.inj heq
      exact absurd hc fun hmem => hc' (by simp at hmem ⊢; tauto)
    | lengths c' hc' ks' =>
      obtain ⟨rfl,hbody⟩ := List.cons.inj heq
      obtain ⟨rfl,rfl⟩ := delimited_append hr hr' hbody
      exact ⟨rfl,rfl⟩
    | generic k' ks hk' hks =>
      obtain ⟨rfl,-⟩ := List.cons.inj heq
      exact absurd hc (by decide)
  | generic k ks hk hks ihk ihks =>
    intro k' hk' r r' hr hr' heq
    cases hk' with
    | plain c' k' hc' hk' =>
      obtain ⟨rfl,-⟩ := List.cons.inj heq
      exact absurd (by simp) hc'
    | lengths c' hc' ks' =>
      obtain ⟨rfl,-⟩ := List.cons.inj heq
      exact absurd hc' (by decide)
    | generic k' ks' hk' hks' =>
      simp only [List.cons_append,List.append_assoc,List.nil_append] at heq
      have hbody := (List.cons.inj heq).2
      obtain ⟨rfl,hargs⟩ := ihk k' hk' _ _ (ends_cons (by decide) _) (ends_cons (by decide) _) hbody
      have hlist := (List.cons.inj hargs).2
      obtain ⟨rfl,hend⟩ := joined_append (ends_cons (by decide)) TightKey.closes TightKey.closes
        (fun t ht => ⟨hks t ht,ihks t ht⟩) hks' hlist
      exact ⟨rfl,(List.cons.inj hend).2⟩

/-! ## Codes -/

inductive KeyCode
  | none
  | num (n : Int)
  | frac (v : Float64)
  | nan (a : Addr)
  | str (v : Bytes)
  | bytes (v : Bytes)
  | tuple (ks : List Bytes)
  | frozen (ks : List Bytes)
  | slice (ks : List Bytes)
  | union (ks : List Bytes)
  | generic (k : Bytes) (ks : List Bytes)
  | pointer (a : Addr)

namespace KeyCode

def tag : KeyCode → UInt8
  | none => 'N'.toUInt8
  | num _ => 'i'.toUInt8
  | frac _ => 'f'.toUInt8
  | nan _ => 'n'.toUInt8
  | str _ => 's'.toUInt8
  | bytes _ => 'b'.toUInt8
  | tuple _ => 't'.toUInt8
  | frozen _ => 'F'.toUInt8
  | slice _ => 'S'.toUInt8
  | union _ => 'U'.toUInt8
  | generic _ _ => 'G'.toUInt8
  | pointer _ => 'p'.toUInt8

def body : KeyCode → Bytes
  | none => []
  | num n => intDecimalLoose n
  | frac v => hex v.toNat
  | nan a => hex a
  | str v | bytes v => v
  | tuple ks | frozen ks | slice ks => delimited ks
  | union ks => joined '|'.toUInt8 ks
  | generic k ks => k ++ '['.toUInt8 :: joined ','.toUInt8 ks ++ [']'.toUInt8]
  | pointer a => ascii "0x" ++ hex a

def text (c : KeyCode) : Bytes := c.tag :: c.body

/-- The parts do not blur the separators. -/
def Clear : KeyCode → Prop
  | union ks => ∀ k ∈ ks, ∃ a, k = pointerKey a
  | generic k ks => TightKey k ∧ ∀ k' ∈ ks, TightKey k'
  | _ => True

theorem pointerKey_injective : Function.Injective pointerKey := by
  intro a a' h
  exact hex_injective (List.append_cancel_left h)
theorem bar_not_mem_pointerKey {a : Addr} (h : c ∈ pointerKey a) : c ≠ '|'.toUInt8 := by
  rcases List.mem_append.mp h with h | h
  · have hprefix : ∀ c ∈ ascii "p0x", c ≠ '|'.toUInt8 := by decide +kernel
    exact hprefix c h
  · exact (isNumberChar_hex h).ne_bar

theorem joined_pointers {ks ks' : List Bytes} (hks : ∀ k ∈ ks, ∃ a, k = pointerKey a)
    (hks' : ∀ k ∈ ks', ∃ a, k = pointerKey a)
    (h : joined '|'.toUInt8 ks = joined '|'.toUInt8 ks') : ks = ks' := by
  -- close both texts with a mark that no pointer has
  have hread : ∀ k, (∃ a, k = pointerKey a) → Readable (fun k => ∃ a, k = pointerKey a)
      (fun r => ∀ c ∈ r.head?, c = '|'.toUInt8 ∨ c = ']'.toUInt8) k := by
    rintro _ ⟨a,rfl⟩ _ ⟨a',rfl⟩ r r' hr hr' heq
    have hclean : ∀ a, ∀ c ∈ pointerKey a, ¬ (c = '|'.toUInt8 ∨ c = ']'.toUInt8) := by
      intro a c hc hor
      rcases hor with rfl | rfl
      · exact bar_not_mem_pointerKey hc rfl
      · rcases List.mem_append.mp hc with hc | hc
        · exact absurd hc (by decide)
        · exact (isNumberChar_hex hc).not_isDelim (by decide)
    exact split_before (hclean a) (hclean a') hr hr' heq
  have hclose : Closes (fun k => ∃ a, k = pointerKey a)
      (fun r => ∀ c ∈ r.head?, c = '|'.toUInt8 ∨ c = ']'.toUInt8) '|'.toUInt8 [']'.toUInt8] := by
    refine ⟨fun _ _ heq => absurd (List.cons.inj heq).1 (by decide),by simp,?_⟩
    rintro _ ⟨a,rfl⟩ l l' heq
    exact absurd (List.cons.inj heq).1 (by decide)
  exact (joined_append (by simp) hclose hclose (fun k hk => ⟨hks k hk,hread k (hks k hk)⟩) hks'
    (congrArg (· ++ [']'.toUInt8]) h)).1

theorem text_injective {c c' : KeyCode} (hc : c.Clear) (hc' : c'.Clear) (h : c.text = c'.text) :
    c = c' := by
  obtain ⟨htag,hbody⟩ := List.cons.inj h
  cases c <;> cases c' <;> first | exact absurd htag (by rw [tag,tag]; decide) | skip
  case none => rfl
  case num n n' => rw [intDecimalLoose_injective hbody]
  case frac v v' => rw [BitVec.eq_of_toNat_eq (hex_injective hbody)]
  case nan a a' => rw [hex_injective hbody]
  case str v v' => exact congrArg _ hbody
  case bytes v v' => exact congrArg _ hbody
  case tuple ks ks' => rw [delimited_injective hbody]
  case frozen ks ks' => rw [delimited_injective hbody]
  case slice ks ks' => rw [delimited_injective hbody]
  case union ks ks' => rw [joined_pointers hc hc' hbody]
  case generic k ks k' ks' =>
    obtain ⟨hk,hks⟩ := hc
    obtain ⟨hk',hks'⟩ := hc'
    have hnil : Ends [] := by simp [Ends]
    have heq := ((TightKey.generic k ks hk hks).readable _ (.generic k' ks' hk' hks') [] [] hnil hnil
      (congrArg ('G'.toUInt8 :: · ++ []) hbody)).1
    simp only [List.cons_append,List.append_assoc] at heq
    obtain ⟨rfl,hargs⟩ := hk.readable k' hk' _ _ (ends_cons (by decide) _)
      (ends_cons (by decide) _) (List.cons.inj heq).2
    have hlist := (List.cons.inj hargs).2
    obtain ⟨rfl,-⟩ := joined_append (ends_cons (by decide)) TightKey.closes TightKey.closes
      (fun t ht => ⟨hks t ht,(hks t ht).readable⟩) hks' hlist
    rfl
  case pointer a a' => rw [hex_injective (List.append_cancel_left hbody)]

end KeyCode
end Unagi.Objects
