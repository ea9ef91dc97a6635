import Unagi.Runtime.JsonDecode

/-! # Reading back strings and numbers

The scanner reads a quoted string as what Go's `range` saw of it, whatever the escapes, and the decimal
text of an int as the int. -/

namespace Unagi.Runtime.JsonScanner

variable {doc begin out rest : List Rune}

/-! ## Strings -/

theorem scanChars_skip (taken : List Rune) :
    scanChars doc begin out taken.length (taken ++ rest) = scanChars doc begin out 0 rest := by
  induction taken with
  | nil => rfl
  | cons r taken ih => rw [List.length_cons,List.cons_append,scanChars,ih]
theorem hexValue_hexDigit {d : Nat} (h : d < 16) : hexValue (hexDigit d) = some d := by
  revert d
  decide

variable {v r : Nat} {ensureASCII : Bool}

theorem hex4_jsonHex4 (h : v < 65536) : hex4 (jsonHex4 v ++ rest) = some v := by
  have hvalue : ((v / 4096 % 16 * 16 + v / 256 % 16) * 16 + v / 16 % 16) * 16 + v % 16 = v := by
    omega
  simp only [jsonHex4,List.cons_append,hex4,hexValue_hexDigit (Nat.mod_lt _ (by decide : 0 < 16)),
    Option.bind_eq_bind,Option.bind_some,Option.pure_def,hvalue]
theorem length_jsonHex4 (v : Nat) : (jsonHex4 v).length = 4 := rfl

theorem unicodeEscape_single (h : v < 65536) (hsingle : ¬ (0xD800 ≤ v ∧ v ≤ 0xDBFF)) :
    unicodeEscape (jsonHex4 v ++ rest) = some (v, 4) := by
  have hlow : ∀ r : List Rune, lowHalf v r = none := by
    intro r
    unfold lowHalf
    split
    · exact if_neg hsingle
    · rfl
  rw [unicodeEscape,hex4_jsonHex4 h,Option.map_some,hlow]

theorem unicodeEscape_pair (h : v < 0x100000) :
    unicodeEscape (jsonHex4 (0xD800 + v / 1024) ++
      (asciiRunes "\\u" ++ jsonHex4 (0xDC00 + v % 1024) ++ rest)) = some (0x10000 + v, 10) := by
  have hlow : lowHalf (0xD800 + v / 1024) (asciiRunes "\\u" ++ jsonHex4 (0xDC00 + v % 1024) ++ rest) =
      some (0xDC00 + v % 1024) := by
    change (if 0xD800 ≤ 0xD800 + v / 1024 ∧ 0xD800 + v / 1024 ≤ 0xDBFF then
      (hex4 (jsonHex4 (0xDC00 + v % 1024) ++ rest)).filter
        fun lo => decide (0xDC00 ≤ lo ∧ lo ≤ 0xDFFF) else none) = _
    rw [if_pos (by omega),hex4_jsonHex4 (by omega),Option.filter_some,if_pos]
    exact decide_eq_true (by omega)
  have hvalue : 0x10000 + (0xD800 + v / 1024 - 0xD800) * 1024 + (0xDC00 + v % 1024 - 0xDC00) =
      0x10000 + v := by omega
  rw [unicodeEscape,hex4_jsonHex4 (by omega),Option.map_some,
    List.drop_left' (length_jsonHex4 _),hlow]
  exact congrArg (fun r => some (r, 10)) hvalue

theorem scanChars_escape (taken : List Rune)
    (h : escape doc begin (taken ++ rest) = .ok (r, taken.length)) :
    scanChars doc begin out 0 (0x5C :: taken ++ rest) = scanChars doc begin (out ++ [r]) 0 rest := by
  rw [List.cons_append,scanChars,if_neg (by decide),if_pos rfl,h]
  exact scanChars_skip taken
theorem scanChars_unicode (taken : List Rune)
    (h : unicodeEscape (taken ++ rest) = some (r, taken.length)) :
    scanChars doc begin out 0 (asciiRunes "\\u" ++ taken ++ rest) =
      scanChars doc begin (out ++ [r]) 0 rest := by
  apply scanChars_escape (0x75 :: taken)
  rw [List.cons_append,escape,if_pos rfl,h,List.length_cons]
theorem scanChars_plain (hcontrol : ¬ r < 0x20) (hquote : r ≠ 0x22) (hslash : r ≠ 0x5C) :
    scanChars doc begin out 0 (r :: rest) = scanChars doc begin (out ++ [r]) 0 rest := by
  rw [scanChars,if_neg hquote,if_neg hslash,if_neg hcontrol]

theorem scanChars_jsonQuoteRune (h : isScalar r = true) :
    scanChars doc begin out 0 (jsonQuoteRune ensureASCII r ++ rest) =
      scanChars doc begin (out ++ [r]) 0 rest := by
  have hr : r < 0xD800 ∨ 0xDFFF < r ∧ r ≤ 0x10FFFF := isScalar_iff.mp h
  unfold jsonQuoteRune
  split
  iterate 7 rfl
  rename_i hquote hslash _ _ _ _ _
  split_ifs with hcontrol hkeep hbmp
  · exact scanChars_unicode (jsonHex4 r) (unicodeEscape_single (by omega) (by omega))
  · exact scanChars_plain hcontrol hquote hslash
  · exact scanChars_unicode (jsonHex4 r) (unicodeEscape_single (by omega) (by omega))
  · have hv : 0x10000 + (r - 0x10000) = r := by omega
    have hpair : unicodeEscape (jsonHex4 (0xD800 + (r - 0x10000) / 1024) ++
        (asciiRunes "\\u" ++ jsonHex4 (0xDC00 + (r - 0x10000) % 1024)) ++ rest) = some (r, 10) := by
      rw [List.append_assoc,unicodeEscape_pair (by omega),hv]
    rw [List.append_assoc (asciiRunes "\\u")]
    exact scanChars_unicode _ hpair

theorem scanChars_flatMap {rs : List Rune} (h : ∀ r ∈ rs, isScalar r = true) :
    scanChars doc begin out 0 (rs.flatMap (jsonQuoteRune ensureASCII) ++ 0x22 :: rest) =
      .ok (goString (out ++ rs), rest) := by
  induction rs generalizing out with
  | nil =>
    rw [List.append_nil]
    rfl
  | cons r rs ih =>
    rw [List.flatMap_cons,List.append_assoc,scanChars_jsonQuoteRune (h r List.mem_cons_self),
      ih fun r' hr' => h r' (List.mem_cons_of_mem r hr'),List.append_assoc,List.singleton_append]

theorem scanString_jsonQuote {s : List Rune} (h : ∀ r ∈ s, r ≤ 0x10FFFF) :
    scanString doc (jsonQuote s ensureASCII ++ rest) = .ok (goRunes s, rest) := by
  have hscalar : ∀ r ∈ goRunes s, isScalar r = true := fun r hr => isScalar_goRunes h hr
  rw [jsonQuote,List.append_assoc,List.singleton_append,scanString,List.cons_append,List.tail_cons,
    scanChars_flatMap hscalar,List.nil_append,goString_eq hscalar]

/-! ## Numbers -/

/-- What may stand behind a value: nothing, white space or a delimiter. -/
def Delimited (rest : List Rune) : Prop :=
  ∀ c ∈ rest.head?, isSpace c = true ∨ c = 0x2C ∨ c = 0x5D ∨ c = 0x7D

theorem Delimited.not_isDigit (h : Delimited rest) : ∀ c ∈ rest.head?, isDigit c = false := by
  intro c hc
  have hspace : ∀ c : Nat, isSpace c = true → c = 0x20 ∨ c = 0x09 ∨ c = 0x0A ∨ c = 0x0D := by
    intro c hc
    simpa only [isSpace,Bool.or_eq_true,decide_eq_true_eq,or_assoc] using hc
  rcases h c hc with hs | rfl | rfl | rfl
  · rcases hspace c hs with rfl | rfl | rfl | rfl <;> rfl
  all_goals rfl

theorem Delimited.fraction (h : Delimited rest) : fraction rest = ([], rest) := by
  unfold JsonScanner.fraction
  split
  · exact absurd (h 0x2E rfl) (by decide)
  · rfl

theorem Delimited.exponent (h : Delimited rest) : exponent rest = ([], rest) := by
  cases rest with
  | nil => rfl
  | cons c rest =>
    have hc : ¬ (decide (c = 0x65) || decide (c = 0x45)) = true := by
      intro he
      rw [Bool.or_eq_true,decide_eq_true_eq,decide_eq_true_eq] at he
      rcases he with rfl | rfl
      · exact absurd (h _ rfl) (by decide)
      · exact absurd (h _ rfl) (by decide)
    rw [JsonScanner.exponent,if_neg hc]

theorem span_digits {digits : List Rune} (hdigits : ∀ d ∈ digits, isDigit d = true)
    (h : ∀ c ∈ rest.head?, isDigit c = false) :
    (digits ++ rest).takeWhile isDigit = digits ∧ (digits ++ rest).dropWhile isDigit = rest := by
  have hstop : rest.takeWhile isDigit = [] ∧ rest.dropWhile isDigit = rest := by
    cases rest with
    | nil => exact ⟨rfl,rfl⟩
    | cons c rest =>
      rw [List.takeWhile_cons,List.dropWhile_cons,h c rfl]
      exact ⟨rfl,rfl⟩
  rw [List.takeWhile_append_of_pos hdigits,List.dropWhile_append_of_pos hdigits,hstop.1,hstop.2,
    List.append_nil]
  exact ⟨rfl,rfl⟩

theorem isDigit_add {d : Nat} (h : d < 10) : isDigit (0x30 + d) = true := by
  rw [isDigit,Bool.and_eq_true,decide_eq_true_eq,decide_eq_true_eq]
  omega
theorem isDigit_decimal {n : Nat} {r : Rune} (h : r ∈ decimal n) : isDigit r = true := by
  obtain ⟨d,hd,rfl⟩ := Lib.mem_numeral (by decide) h
  exact isDigit_add hd

theorem integerPart_decimal (h : Delimited rest) (n : Nat) :
    integerPart (decimal n ++ rest) = some (decimal n, rest) := by
  by_cases hn : n = 0
  · subst hn
    rfl
  · obtain ⟨d,ds,hpos,hd,hcons⟩ : ∃ d ds, 0 < d ∧ d < 10 ∧ decimal n = (0x30 + d) :: ds :=
      Lib.numeral_cons (by decide) hn
    have hds : ∀ r ∈ ds, isDigit r = true := fun r hr =>
      isDigit_decimal (n := n) (hcons ▸ List.mem_cons_of_mem _ hr)
    have hspan := span_digits hds h.not_isDigit
    have hzero : ¬ 0x30 + d = 0x30 := by omega
    rw [hcons,List.cons_append,integerPart,if_neg hzero,if_pos (isDigit_add hd),hspan.1,hspan.2]

theorem ofDecimal_decimal (n : Nat) : ofDecimal (decimal n) = n := by
  apply Lib.ofDigits_numeral (by decide)
  intro d _
  exact Nat.add_sub_cancel_left 0x30 d

theorem decimal_cons (n : Nat) : ∃ c cs, decimal n = c :: cs ∧ isDigit c = true := by
  cases hcons : decimal n with
  | nil =>
    have hinteger := @integerPart_decimal [] (fun c hc => nomatch hc) n
    rw [hcons] at hinteger
    exact nomatch hinteger
  | cons c cs => exact ⟨c,cs,rfl,isDigit_decimal (n := n) (hcons ▸ List.mem_cons_self)⟩

theorem minus_reprInt (n : Int) :
    minus (reprInt n ++ rest) = (decide (n < 0), decimal n.natAbs ++ rest) := by
  unfold reprInt
  split
  · rename_i hneg
    rw [decide_eq_true hneg]
    rfl
  · rename_i hneg
    obtain ⟨c,cs,hcons,hc⟩ := decimal_cons n.natAbs
    rw [decide_eq_false hneg,List.nil_append,hcons,List.cons_append]
    unfold minus
    split
    · rename_i heq
      rw [(List.cons.inj heq).1] at hc
      exact absurd hc (by decide)
    · rfl

theorem number_reprInt (ft : FloatText) (h : Delimited rest) (n : Int) :
    number ft doc (reprInt n ++ rest) = .ok (.int n, rest) := by
  have hsign : (if decide (n < 0) = true then -(n.natAbs : Int) else n.natAbs) = n := by
    simp only [decide_eq_true_eq]
    split <;> omega
  unfold number
  rw [minus_reprInt]
  dsimp only
  rw [integerPart_decimal h]
  dsimp only
  rw [h.fraction]
  dsimp only
  rw [h.exponent,if_pos ⟨rfl,rfl⟩,ofDecimal_decimal,hsign]

end Unagi.Runtime.JsonScanner
