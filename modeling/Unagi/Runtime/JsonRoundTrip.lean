import Unagi.Runtime.JsonSound

/-! # `loads` of `dumps`

Each part of a text that `dumps` wrote is read, with whatever stands behind it, as the part of the tree
that it was written for. -/

namespace Unagi.Runtime

open JsonScanner

def Blank (ws : List Rune) : Prop := ∀ r ∈ ws, isSpace r = true

/-- A text for a tree: it begins with no white space, and the scanner reads it as the tree. -/
structure TextOf (ft : FloatText) (v : JsonValue) (text : List Rune) : Prop where
  head : ∃ c rest, text = c :: rest ∧ isSpace c = false ∧ c ≠ 0x5D
  scalar : ∀ r ∈ text, isScalar r = true
  reads : ∀ doc fuel rest, Delimited rest → 2 * (text ++ rest).length + 1 ≤ fuel →
    value ft doc fuel (text ++ rest) = .ok (v.readBack, rest)

variable {ft : FloatText} {doc ws rest text tail item : List Rune} {c : Rune} {v : JsonValue}
  {word : String} {ensureASCII : Bool} {texts : List (List Rune)} {e : List Rune × JsonValue}
  {es : List (List Rune × JsonValue)} {fuel : Nat}

theorem skipWS_blank (hws : Blank ws) (hc : isSpace c = false) :
    skipWS (ws ++ c :: rest) = c :: rest := by
  rw [skipWS,List.dropWhile_append_of_pos hws,List.dropWhile_cons,hc]
  rfl
theorem TextOf.skipWS (h : TextOf ft v text) (hws : Blank ws) :
    skipWS (ws ++ (text ++ rest)) = text ++ rest := by
  obtain ⟨c,tail,rfl,hc,-⟩ := h.head
  exact skipWS_blank hws hc
theorem TextOf.skipWS_self (h : TextOf ft v text) :
    JsonScanner.skipWS (text ++ rest) = text ++ rest := by
  obtain ⟨c,tail,rfl,hc,-⟩ := h.head
  exact @skipWS_blank [] (tail ++ rest) c (fun r hr => nomatch hr) hc

/-! ## Words, numbers and strings -/

theorem isScalar_asciiRunes {s : String} (h : s.toList.all (·.toNat < 0x80) = true) :
    ∀ r ∈ asciiRunes s, isScalar r = true := by
  intro r hr
  obtain ⟨c,hc,rfl⟩ := List.mem_map.mp hr
  have hlt := of_decide_eq_true (List.all_eq_true.mp h c hc)
  exact isScalar_iff.mpr (.inl (by omega))

theorem textOf_word {c : Nat} (hword : asciiRunes word = c :: tail)
    (hascii : word.toList.all (·.toNat < 0x80) = true)
    (hc : isSpace c = false ∧ c ≠ 0x5D ∧ c ≠ 0x22 ∧ c ≠ 0x7B ∧ c ≠ 0x5B)
    (hfind : ∀ rest, (words.findSome? fun w => (lit w.1 (c :: tail ++ rest)).map fun behind =>
      (w.2, behind)) = some (v.readBack, rest)) : TextOf ft v (asciiRunes word) where
  head := ⟨c,tail,hword,hc.1,hc.2.1⟩
  scalar := isScalar_asciiRunes hascii
  reads := by
    intro doc fuel rest _ hfuel
    obtain ⟨fuel,rfl⟩ : ∃ n, fuel = n + 1 := ⟨fuel - 1,by omega⟩
    rw [hword,List.cons_append,value,if_neg hc.2.2.1,if_neg hc.2.2.2.1,if_neg hc.2.2.2.2,scalar,
      ← List.cons_append,hfind]

theorem textOf_none : TextOf ft .none (asciiRunes "null") :=
  textOf_word (c := 0x6E) rfl (by decide) (by decide) fun _ => rfl
theorem textOf_bool (b : Bool) : TextOf ft (.bool b) (asciiRunes (if b then "true" else "false")) := by
  cases b with
  | true => exact textOf_word (c := 0x74) rfl (by decide) (by decide) fun _ => rfl
  | false => exact textOf_word (c := 0x66) rfl (by decide) (by decide) fun _ => rfl
theorem lit_cons {a : Rune} {as : List Rune} (hword : asciiRunes word = a :: as) :
    lit word (c :: rest) = if a = c ∧ as.isPrefixOf rest = true then some ((c :: rest).drop word.length)
      else none := by
  rw [lit,hword,List.isPrefixOf_cons_cons]
  simp only [Bool.and_eq_true,beq_iff_eq]
theorem lit_of_ne {a c : Nat} {as : List Rune} (hword : asciiRunes word = a :: as) (h : a ≠ c) :
    lit word (c :: rest) = none :=
  (lit_cons hword).trans (if_neg fun hc => h hc.1)

theorem findSome_words {c : Nat}
    (h : isDigit c = true ∨ c = 0x2D ∧ ∀ d ∈ rest.head?, isDigit d = true) :
    (words.findSome? fun w => (lit w.1 (c :: rest)).map fun behind => (w.2, behind)) = none := by
  have hfirst : c = 0x2D ∨ 0x30 ≤ c ∧ c ≤ 0x39 := by
    rcases h with h | h
    · rw [isDigit,Bool.and_eq_true,decide_eq_true_eq,decide_eq_true_eq] at h
      exact .inr h
    · exact .inl h.1
  have hminus : ¬ (0x2D = c ∧ (asciiRunes "Infinity").isPrefixOf rest = true) := by
    rintro ⟨rfl,hinf⟩
    rcases h with h | ⟨-,h⟩
    · exact absurd h (by decide)
    · cases rest with
      | nil => cases hinf
      | cons d rest =>
        have hd : d = 0x49 := by
          have hcons : (0x49 :: (asciiRunes "nfinity")).isPrefixOf (d :: rest) = true := hinf
          rw [List.isPrefixOf_cons_cons,Bool.and_eq_true,beq_iff_eq] at hcons
          exact hcons.1.symm
        have hdigit := h d rfl
        rw [hd] at hdigit
        exact absurd hdigit (by decide)
  rw [List.findSome?_eq_none_iff]
  intro w hw
  rw [Option.map_eq_none_iff]
  have hwords : w.1 ∈ ["true","false","null","NaN","Infinity","-Infinity"] := by
    rw [show ["true","false","null","NaN","Infinity","-Infinity"] = words.map Prod.fst from rfl]
    exact List.mem_map_of_mem hw
  simp only [List.mem_cons,List.not_mem_nil,or_false] at hwords
  rcases hwords with hw | hw | hw | hw | hw | hw <;> rw [hw]
  · exact lit_of_ne (a := 0x74) rfl (by omega)
  · exact lit_of_ne (a := 0x66) rfl (by omega)
  · exact lit_of_ne (a := 0x6E) rfl (by omega)
  · exact lit_of_ne (a := 0x4E) rfl (by omega)
  · exact lit_of_ne (a := 0x49) rfl (by omega)
  · exact (lit_cons (a := 0x2D) rfl).trans (if_neg hminus)

theorem reprInt_cons (n : Int) : ∃ c tail, reprInt n = c :: tail ∧
    (isDigit c = true ∨ c = 0x2D ∧ ∃ d ds, tail = d :: ds ∧ isDigit d = true) := by
  obtain ⟨d,ds,hcons,hd⟩ := decimal_cons n.natAbs
  unfold reprInt
  rw [hcons]
  split
  · exact ⟨0x2D,d :: ds,rfl,.inr ⟨rfl,d,ds,rfl,hd⟩⟩
  · exact ⟨d,ds,rfl,.inl hd⟩

theorem isScalar_reprInt (n : Int) : ∀ r ∈ reprInt n, isScalar r = true := by
  have hlow : ∀ r : Nat, isDigit r = true → isScalar r = true := by
    intro r hr
    rw [isDigit,Bool.and_eq_true,decide_eq_true_eq,decide_eq_true_eq] at hr
    exact isScalar_iff.mpr (.inl (by omega))
  intro r hr
  rcases List.mem_append.mp hr with hr | hr
  · split at hr
    · rw [List.mem_singleton.mp hr]
      decide
    · cases hr
  · exact hlow r (isDigit_decimal hr)

theorem textOf_int (n : Int) : TextOf ft (.int n) (reprInt n) := by
  obtain ⟨c,tail,hcons,hc⟩ := reprInt_cons n
  have hfirst : decide (c = 0x2D) = true ∨ isDigit c = true := by
    rcases hc with hc | hc
    · exact .inr hc
    · exact .inl (decide_eq_true hc.1)
  have hnat : ∀ c : Nat, decide (c = 0x2D) = true ∨ isDigit c = true →
      isSpace c = false ∧ c ≠ 0x5D ∧ c ≠ 0x22 ∧ c ≠ 0x7B ∧ c ≠ 0x5B := by
    intro c hc
    simp only [isDigit,isSpace,Bool.and_eq_true,decide_eq_true_eq,Bool.or_eq_false_iff,
      decide_eq_false_iff_not] at hc ⊢
    omega
  obtain ⟨hspace,hbracket,hquote,hbrace,hopen⟩ := hnat c hfirst
  refine ⟨⟨c,tail,hcons,hspace,hbracket⟩,isScalar_reprInt n,?_⟩
  intro doc fuel rest hrest hfuel
  obtain ⟨fuel,rfl⟩ : ∃ n, fuel = n + 1 := ⟨fuel - 1,by omega⟩
  have hwords := @findSome_words (tail ++ rest) c (by
    rcases hc with hc | ⟨hc,d,ds,rfl,hd⟩
    · exact .inl hc
    · refine .inr ⟨hc,?_⟩
      rintro d' ⟨⟩
      exact hd)
  have hnumber := @number_reprInt doc rest ft hrest n
  rw [hcons,List.cons_append] at hnumber ⊢
  rw [value,if_neg hquote,if_neg hbrace,if_neg hopen,scalar,hwords]
  dsimp only
  rw [if_pos (Bool.or_eq_true _ _ |>.mpr hfirst),hnumber]
  rfl

theorem isScalar_jsonHex4 (v : Nat) : ∀ r ∈ jsonHex4 v, isScalar r = true := by
  have hdigit : ∀ d < 16, isScalar (hexDigit d) = true := by decide
  simp only [jsonHex4,List.forall_mem_cons]
  exact ⟨hdigit _ (by omega),hdigit _ (by omega),hdigit _ (by omega),hdigit _ (by omega),
    fun r hr => by cases hr⟩

theorem isScalar_jsonQuoteRune {r : Nat} (h : isScalar r = true) :
    ∀ r' ∈ jsonQuoteRune ensureASCII r, isScalar r' = true := by
  have hu : ∀ r' ∈ asciiRunes "\\u", isScalar r' = true := isScalar_asciiRunes (by decide)
  unfold jsonQuoteRune
  split
  iterate 7 exact isScalar_asciiRunes (by decide)
  split_ifs
  · exact List.forall_mem_append.mpr ⟨hu,isScalar_jsonHex4 r⟩
  · intro r' hr'
    rwa [List.mem_singleton.mp hr']
  · exact List.forall_mem_append.mpr ⟨hu,isScalar_jsonHex4 r⟩
  · exact List.forall_mem_append.mpr ⟨List.forall_mem_append.mpr ⟨hu,isScalar_jsonHex4 _⟩,
      List.forall_mem_append.mpr ⟨hu,isScalar_jsonHex4 _⟩⟩

theorem isScalar_jsonQuote {s : List Rune} (h : ∀ r ∈ s, r ≤ 0x10FFFF) :
    ∀ r ∈ jsonQuote s ensureASCII, isScalar r = true := by
  intro r hr
  rw [jsonQuote,List.mem_append,List.mem_cons,List.mem_flatMap,List.mem_singleton] at hr
  rcases hr with (rfl | ⟨r',hr',hr⟩) | rfl
  · decide
  · exact isScalar_jsonQuoteRune (isScalar_goRunes h hr') r hr
  · decide

theorem textOf_str {s : List Rune} (h : ∀ r ∈ s, r ≤ 0x10FFFF) :
    TextOf ft (.str s) (jsonQuote s ensureASCII) where
  head := ⟨0x22,_,rfl,rfl,by decide⟩
  scalar := isScalar_jsonQuote h
  reads := by
    intro doc fuel rest _ hfuel
    obtain ⟨fuel,rfl⟩ : ∃ n, fuel = n + 1 := ⟨fuel - 1,by omega⟩
    have hscan := @scanString_jsonQuote doc rest ensureASCII s h
    rw [jsonQuote,List.cons_append,List.cons_append] at hscan ⊢
    rw [value,if_pos rfl,hscan,JsonValue.readBack]
    rfl

/-! ## Items between brackets -/

theorem Blank.delimited {close : List Rune} (h : Blank close)
    (hc : c = 0x2C ∨ c = 0x5D ∨ c = 0x7D) : Delimited (close ++ c :: rest) := by
  intro c' hc'
  cases close with
  | nil =>
    cases hc'
    exact .inr hc
  | cons r close =>
    cases hc'
    exact .inl (h _ List.mem_cons_self)

theorem intercalate_cons_append (sep text : List Rune) (texts : List (List Rune)) :
    ∃ tail, sep.intercalate (text :: texts) = text ++ tail := by
  cases texts with
  | nil => exact ⟨[],by rw [List.intercalate_singleton,List.append_nil]⟩
  | cons text' texts => exact ⟨sep ++ _,by rw [List.intercalate_cons_cons,List.append_assoc]⟩
theorem isScalar_blank (h : Blank ws) : ∀ r ∈ ws, isScalar r = true := by
  have hspace : ∀ r : Nat, isSpace r = true → isScalar r = true := by
    intro r hr
    simp only [isSpace,Bool.or_eq_true,decide_eq_true_eq] at hr
    exact isScalar_iff.mpr (.inl (by omega))
  exact fun r hr => hspace r (h r hr)

theorem forall_mem_intercalate {p : Rune → Prop} {sep : List Rune} (hsep : ∀ r ∈ sep, p r)
    (htexts : ∀ text ∈ texts, ∀ r ∈ text, p r) : ∀ r ∈ sep.intercalate texts, p r := by
  induction texts with
  | nil => exact fun r hr => nomatch hr
  | cons text texts ih =>
    have htext := htexts text List.mem_cons_self
    have ih := ih fun t ht => htexts t (List.mem_cons_of_mem text ht)
    cases texts with
    | nil =>
      rw [List.intercalate_singleton]
      exact htext
    | cons text' texts =>
      rw [List.intercalate_cons_cons]
      exact List.forall_mem_append.mpr ⟨List.forall_mem_append.mpr ⟨htext,hsep⟩,ih⟩

theorem scalar_of_forall₂ {α : Type} {R : α → List Rune → Prop} {vs : List α}
    (h : List.Forall₂ R vs texts) (hR : ∀ v text, R v text → ∀ r ∈ text, isScalar r = true) :
    ∀ text ∈ texts, ∀ r ∈ text, isScalar r = true := by
  induction h with
  | nil => exact fun text htext => nomatch htext
  | cons hv _ ih => exact List.forall_mem_cons.mpr ⟨hR _ _ hv,ih⟩

/-- Settings that put nothing but white space around the delimiters and keep the order of keys. -/
structure JsonOpts.Plain (opt : JsonOpts) : Prop where
  indent : ∀ pad ∈ opt.indent, Blank pad
  itemSep : ∃ ws, Blank ws ∧ opt.itemSep = 0x2C :: ws
  keySep : ∃ ws, Blank ws ∧ opt.keySep = 0x3A :: ws
  sortKeys : opt.sortKeys = false

variable {opt : JsonOpts}

theorem JsonOpts.Plain.newline (h : opt.Plain) (level : Nat) : Blank (jsonNewline opt level) := by
  unfold jsonNewline
  split
  · exact fun r hr => nomatch hr
  · rename_i pad hpad
    intro r hr
    rcases List.mem_cons.mp hr with rfl | hr
    · rfl
    · obtain ⟨pad',hpad',hr⟩ := List.mem_flatten.mp hr
      rw [(List.mem_replicate.mp hpad').2] at hr
      exact h.indent pad hpad r hr

theorem Blank.append {ws' : List Rune} (h : Blank ws) (h' : Blank ws') : Blank (ws ++ ws') :=
  List.forall_mem_append.mpr ⟨h,h'⟩

/-- A loop that scans items up to a bracket. `R` relates what an item was written for to its text, and
`back` gives what is read. -/
structure ItemLoop {A E : Type} (loop : Nat → List A → List Rune → Except JsonFailure (JsonValue × List Rune))
    (finish : List A → JsonValue) (close : Rune) (R : E → List Rune → Prop) (back : E → A) : Prop where
  closes : close = 0x5D ∨ close = 0x7D
  head : ∀ {e item}, R e item → ∃ c tail, item = c :: tail ∧ isSpace c = false ∧ c ≠ close
  scalar : ∀ {e item}, R e item → ∀ r ∈ item, isScalar r = true
  last : ∀ {fuel acc e item rest tail}, R e item → Delimited rest →
    2 * (item ++ rest).length + 1 ≤ fuel → skipWS rest = close :: tail →
    loop (fuel + 1) acc (item ++ rest) = .ok (finish (acc ++ [back e]), tail)
  next : ∀ {fuel acc e item rest tail c tail'}, R e item → Delimited rest →
    2 * (item ++ rest).length + 1 ≤ fuel → skipWS rest = 0x2C :: tail → skipWS tail = c :: tail' →
    c ≠ close → loop (fuel + 1) acc (item ++ rest) = loop fuel (acc ++ [back e]) (skipWS tail)

namespace ItemLoop
variable {A E : Type} {loop : Nat → List A → List Rune → Except JsonFailure (JsonValue × List Rune)}
  {finish : List A → JsonValue} {close : Rune} {R : E → List Rune → Prop} {back : E → A}
  {e : E} {es : List E} {item : List Rune} {items : List (List Rune)}

/-- White space before the items is skipped, up to the first character of the first one. -/
theorem skipWS (h : ItemLoop loop finish close R back) (he : R e item) {ws : List Rune}
    (hws : Blank ws) (sep : List Rune) (items : List (List Rune)) (rest : List Rune) :
    ∃ c tail, sep.intercalate (item :: items) ++ rest = c :: tail ∧ c ≠ close ∧
      skipWS (ws ++ (sep.intercalate (item :: items) ++ rest)) =
        sep.intercalate (item :: items) ++ rest := by
  obtain ⟨c,tail,rfl,hspace,hc⟩ := h.head he
  obtain ⟨tail',htail⟩ := intercalate_cons_append sep (c :: tail) items
  rw [htail]
  exact ⟨c,_,rfl,hc,skipWS_blank hws hspace⟩

theorem reads (h : ItemLoop loop finish close R back) (hR : List.Forall₂ R es items)
    (hne : items ≠ []) {ws blank : List Rune} (hws : Blank ws) (hblank : Blank blank)
    (rest : List Rune) (acc : List A) (fuel : Nat)
    (hfuel : 2 * ((0x2C :: ws).intercalate items ++ (blank ++ close :: rest)).length + 2 ≤ fuel) :
    loop fuel acc ((0x2C :: ws).intercalate items ++ (blank ++ close :: rest)) =
      .ok (finish (acc ++ es.map back), rest) := by
  have hspace : isSpace close = false := by rcases h.closes with h | h <;> rw [h] <;> rfl
  induction hR generalizing acc fuel with
  | nil => exact absurd rfl hne
  | @cons e item es items he hitems ih =>
    obtain ⟨fuel,rfl⟩ : ∃ n, fuel = n + 1 := ⟨fuel - 1,by omega⟩
    cases hitems with
    | nil =>
      rw [List.intercalate_singleton] at hfuel ⊢
      exact h.last he (hblank.delimited (.inr h.closes)) (by omega) (skipWS_blank hblank hspace)
    | @cons e' item' es items he' hitems =>
      obtain ⟨c,tail,hhead,hc,hskip⟩ := h.skipWS he' hws (0x2C :: ws) items
        (blank ++ close :: rest)
      set others := (0x2C :: ws).intercalate (item' :: items) ++ (blank ++ close :: rest) with hothers
      have hcons : (0x2C :: ws).intercalate (item :: item' :: items) ++ (blank ++ close :: rest) =
          item ++ 0x2C :: (ws ++ others) := by
        rw [List.intercalate_cons_cons,hothers]
        simp only [List.append_assoc,List.cons_append]
      rw [hcons] at hfuel ⊢
      have hlength : (item ++ 0x2C :: (ws ++ others)).length =
          item.length + (ws.length + others.length + 1) := by
        rw [List.length_append,List.length_cons,List.length_append]
      rw [h.next he (fun c hc => by cases hc; decide) (by omega) rfl (hskip.trans hhead) hc,hskip,
        ih (by simp) _ _ (by omega),List.append_assoc]
      rfl

end ItemLoop

/-- What is written between brackets is read as what the items were written for. -/
theorem textOf_items {A E : Type}
    {loop : List Rune → Nat → List A → List Rune → Except JsonFailure (JsonValue × List Rune)}
    {finish : List A → JsonValue} {bracket close : Rune} {R : E → List Rune → Prop} {back : E → A}
    (h : ∀ doc, ItemLoop (loop doc) finish close R back)
    (hvalue : ∀ {doc fuel rest c tail}, skipWS rest = c :: tail → c ≠ close →
      value ft doc (fuel + 1) (bracket :: rest) = loop doc fuel [] (skipWS rest))
    (hbracket : bracket = 0x5B ∨ bracket = 0x7B) (hopt : opt.Plain) (level : Nat) {e : E} {es : List E}
    {items : List (List Rune)} (he : R e item) (hes : List.Forall₂ R es items)
    (hv : v.readBack = finish ((e :: es).map back)) :
    TextOf ft v (bracket :: jsonNewline opt (level + 1) ++
      (opt.itemSep ++ jsonNewline opt (level + 1)).intercalate (item :: items) ++
        jsonNewline opt level ++ [close]) := by
  obtain ⟨ws,hws,hsep⟩ := hopt.itemSep
  have hnl := hopt.newline (level + 1)
  have hclose := hopt.newline level
  have hscalars := scalar_of_forall₂ (.cons he hes) fun _ _ he => (h []).scalar he
  rw [hsep]
  simp only [List.cons_append,List.append_assoc]
  refine ⟨⟨bracket,_,rfl,?_,?_⟩,?_,?_⟩
  · rcases hbracket with rfl | rfl <;> rfl
  · rcases hbracket with rfl | rfl <;> decide
  · have hsep : ∀ r ∈ 0x2C :: (ws ++ jsonNewline opt (level + 1)), isScalar r = true :=
      List.forall_mem_cons.mpr ⟨by decide,isScalar_blank (hws.append hnl)⟩
    simp only [List.forall_mem_cons,List.forall_mem_append]
    refine ⟨?_,isScalar_blank hnl,forall_mem_intercalate hsep hscalars,isScalar_blank hclose,?_,
      fun r hr => nomatch hr⟩
    · rcases hbracket with rfl | rfl <;> decide
    · rcases (h []).closes with rfl | rfl <;> decide
  · intro doc fuel rest _ hfuel
    obtain ⟨fuel,rfl⟩ : ∃ n, fuel = n + 1 := ⟨fuel - 1,by omega⟩
    obtain ⟨c,tail,hhead,hc,hskip⟩ := (h doc).skipWS he hnl
      (0x2C :: (ws ++ jsonNewline opt (level + 1))) items (jsonNewline opt level ++ close :: rest)
    have hread := (h doc).reads (.cons he hes) (List.cons_ne_nil item items) (hws.append hnl) hclose
      rest [] fuel
    simp only [List.cons_append,List.append_assoc,List.nil_append,List.length_cons,
      List.length_append] at hfuel hread ⊢
    rw [hvalue (hskip.trans hhead) hc,hskip,hread (by omega),hv]

/-! ## Arrays -/

theorem itemLoop_array (doc : List Rune) :
    ItemLoop (array ft doc) .list 0x5D (TextOf ft) JsonValue.readBack where
  closes := .inl rfl
  head := TextOf.head
  scalar := TextOf.scalar
  last := by
    intro fuel acc v text rest tail hv hrest hfuel hend
    rw [array,hv.skipWS_self,hv.reads doc fuel rest hrest hfuel]
    dsimp only [bind,Except.bind]
    rw [hend]
    rfl
  next := by
    intro fuel acc v text rest tail c tail' hv hrest hfuel hcomma htail hc
    rw [array,hv.skipWS_self,hv.reads doc fuel rest hrest hfuel]
    dsimp only [bind,Except.bind]
    rw [hcomma]
    dsimp only
    rw [if_neg (by decide),if_pos rfl,htail]
    split
    · rename_i heq
      exact absurd (List.cons.inj heq).1 hc
    · rfl

theorem value_array (h : skipWS rest = c :: tail) (hc : c ≠ 0x5D) :
    value ft doc (fuel + 1) (0x5B :: rest) = array ft doc fuel [] (skipWS rest) := by
  rw [value,if_neg (by decide),if_neg (by decide),if_pos rfl,h]
  split
  · rename_i heq
    exact absurd (List.cons.inj heq).1 hc
  · rfl

theorem textOf_list (hopt : opt.Plain) (level : Nat) {vs : List JsonValue}
    (h : List.Forall₂ (TextOf ft) vs texts) : TextOf ft (.list vs) (jsonArrayText opt level texts) := by
  cases h with
  | nil =>
    refine ⟨⟨0x5B,[0x5D],rfl,rfl,by decide⟩,isScalar_asciiRunes (s := "[]") (by decide),?_⟩
    intro doc fuel rest _ hfuel
    obtain ⟨fuel,rfl⟩ : ∃ n, fuel = n + 1 := ⟨fuel - 1,by omega⟩
    rfl
  | cons hv hvs =>
    rw [jsonArrayText,if_neg (List.cons_ne_nil _ _)]
    apply textOf_items itemLoop_array value_array (.inl rfl) hopt level hv hvs
    rw [JsonValue.readBack,readBackItems_eq]

/-! ## Objects -/

/-- A text for an entry: its quoted key, a colon and a text for its value. -/
structure EntryOf (ft : FloatText) (e : List Rune × JsonValue) (item : List Rune) : Prop where
  key : ∀ r ∈ e.1, r ≤ 0x10FFFF
  split : ∃ ensureASCII ws text, Blank ws ∧ TextOf ft e.2 text ∧
    item = jsonQuote e.1 ensureASCII ++ 0x3A :: (ws ++ text)

def readBackPair (e : List Rune × JsonValue) : List Rune × JsonValue := (goRunes e.1, e.2.readBack)
theorem EntryOf.head (h : EntryOf ft e item) : ∃ tail, item = 0x22 :: tail := by
  obtain ⟨-,-,-,-,-,rfl⟩ := h.split
  exact ⟨_,rfl⟩
theorem EntryOf.scalar (h : EntryOf ft e item) : ∀ r ∈ item, isScalar r = true := by
  obtain ⟨ensureASCII,ws,text,hws,htext,rfl⟩ := h.split
  simp only [List.forall_mem_append,List.forall_mem_cons]
  exact ⟨isScalar_jsonQuote h.key,by decide,isScalar_blank hws,htext.scalar⟩

theorem EntryOf.reads (h : EntryOf ft e item) (hrest : Delimited rest)
    (hfuel : 2 * (item ++ rest).length ≤ fuel) :
    ∃ behind behind', scanString doc (item ++ rest) = .ok (goRunes e.1, behind) ∧
      skipWS behind = 0x3A :: behind' ∧
      value ft doc fuel (skipWS behind') = .ok (e.2.readBack, rest) := by
  obtain ⟨ensureASCII,ws,text,hws,htext,rfl⟩ := h.split
  have hread := htext.reads doc fuel rest hrest (by
    simp only [List.length_append,List.length_cons] at hfuel ⊢
    omega)
  refine ⟨0x3A :: (ws ++ (text ++ rest)),ws ++ (text ++ rest),?_,rfl,?_⟩
  · rw [List.append_assoc,List.cons_append,List.append_assoc,scanString_jsonQuote h.key]
  · rw [htext.skipWS hws,hread]

theorem itemLoop_object (doc : List Rune) :
    ItemLoop (object ft doc) newDict 0x7D (EntryOf ft) readBackPair where
  closes := .inr rfl
  head he := by
    obtain ⟨tail,rfl⟩ := he.head
    exact ⟨0x22,tail,rfl,rfl,by decide⟩
  scalar := EntryOf.scalar
  last := by
    intro fuel acc e item rest tail he hrest hfuel hend
    obtain ⟨behind,behind',hkey,hcolon,hvalue⟩ := @EntryOf.reads ft doc rest _ e fuel he
      hrest (by omega)
    obtain ⟨itemTail,rfl⟩ := he.head
    rw [object,if_neg (by simp),hkey]
    simp only [bind,Except.bind,hcolon,hvalue,hend]
    rfl
  next := by
    intro fuel acc e item rest tail c tail' he hrest hfuel hcomma htail hc
    obtain ⟨behind,behind',hkey,hcolon,hvalue⟩ := @EntryOf.reads ft doc rest _ e fuel he
      hrest (by omega)
    obtain ⟨itemTail,rfl⟩ := he.head
    rw [object,if_neg (by simp),hkey]
    simp only [bind,Except.bind,hcolon,hvalue,hcomma]
    rw [if_neg (by decide),if_pos trivial,htail]
    split
    · rename_i heq
      exact absurd (List.cons.inj heq).1 hc
    · rfl

theorem value_object (h : skipWS rest = c :: tail) (hc : c ≠ 0x7D) :
    value ft doc (fuel + 1) (0x7B :: rest) = object ft doc fuel [] (skipWS rest) := by
  rw [value,if_neg (by decide),if_pos rfl,h]
  split
  · rename_i heq
    exact absurd (List.cons.inj heq).1 hc
  · rfl

def strDict (es : List (List Rune × JsonValue)) : JsonValue := .dict (es.map fun e => (.str e.1, e.2))

theorem exists_strDict {entries : List (JsonKey × JsonValue)} (h : ∀ e ∈ entries, ∃ s, e.1 = .str s) :
    ∃ es : List (List Rune × JsonValue), entries = es.map fun e => (.str e.1, e.2) := by
  induction entries with
  | nil => exact ⟨[],rfl⟩
  | cons e entries ih =>
    obtain ⟨s,hs⟩ := h e List.mem_cons_self
    obtain ⟨es,rfl⟩ := ih fun e' he' => h e' (List.mem_cons_of_mem e he')
    exact ⟨(s, e.2) :: es,by rw [List.map_cons,← hs]⟩

theorem readBack_strDict (es : List (List Rune × JsonValue)) :
    (strDict es).readBack = newDict (es.map readBackPair) := by
  rw [strDict,JsonValue.readBack,readBackEntries_eq,List.map_map]
  rfl

theorem intercalate_map_append (sep nl item : List Rune) (items : List (List Rune)) :
    sep.intercalate ((item :: items).map (nl ++ ·)) = nl ++ (sep ++ nl).intercalate (item :: items) := by
  induction items generalizing item with
  | nil => rw [List.map_singleton,List.intercalate_singleton,List.intercalate_singleton]
  | cons item' items ih =>
    rw [List.map_cons,List.map_cons,List.intercalate_cons_cons,← List.map_cons,ih,
      List.intercalate_cons_cons]
    simp only [List.append_assoc]

theorem textOf_dict (hopt : opt.Plain) (level : Nat) {items : List (List Rune)}
    (he : EntryOf ft e item) (hes : List.Forall₂ (EntryOf ft) es items) :
    TextOf ft (strDict (e :: es)) (0x7B :: opt.itemSep.intercalate
      ((item :: items).map (jsonNewline opt (level + 1) ++ ·)) ++ jsonNewline opt level ++ [0x7D]) := by
  rw [intercalate_map_append,← List.cons_append]
  exact textOf_items itemLoop_object value_object (.inr rfl) hopt level he hes (readBack_strDict _)

/-! ## Trees -/

/-- A value is written, at whatever depth, as a text that is read as the value. -/
def Written (ft : FloatText) (opt : JsonOpts) (v : JsonValue) : Prop :=
  ∀ level, ∃ text, jsonEncode ft opt level v = .ok text ∧ TextOf ft v text

theorem jsonEncodeItems_written {vs : List JsonValue} (h : ∀ v ∈ vs, Written ft opt v) (level : Nat) :
    ∃ texts, jsonEncodeItems ft opt level vs = .ok texts ∧ List.Forall₂ (TextOf ft) vs texts := by
  induction vs with
  | nil => exact ⟨[],rfl,.nil⟩
  | cons v vs ih =>
    obtain ⟨text,htext,hv⟩ := h v List.mem_cons_self level
    obtain ⟨texts,htexts,hvs⟩ := ih fun v' hv' => h v' (List.mem_cons_of_mem v hv')
    refine ⟨text :: texts,?_,.cons hv hvs⟩
    rw [jsonEncodeItems,htext,htexts]
    rfl

theorem jsonPairs_strDict (level : Nat) (es : List (List Rune × JsonValue)) :
    jsonPairs ft opt (jsonEncodeEntries ft opt level (es.map fun e => (.str e.1, e.2))) =
      .ok (es.map fun e => (e.1, jsonEncode ft opt level e.2)) := by
  induction es with
  | nil => rfl
  | cons e es ih =>
    rw [List.map_cons,jsonEncodeEntries,jsonPairs,ih]
    rfl

theorem mapM_entries_written (hopt : opt.Plain) (hkeys : ∀ e ∈ es, ∀ r ∈ e.1, r ≤ 0x10FFFF)
    (h : ∀ e ∈ es, Written ft opt e.2) (level : Nat) (nl : List Rune) :
    ∃ items, ((es.map fun e => (e.1, jsonEncode ft opt level e.2)).mapM fun p => do
        let text ← p.2
        pure (nl ++ jsonQuote p.1 opt.ensureASCII ++ opt.keySep ++ text)) =
          Except.ok (items.map (nl ++ ·)) ∧ List.Forall₂ (EntryOf ft) es items := by
  induction es with
  | nil => exact ⟨[],rfl,.nil⟩
  | cons e es ih =>
    obtain ⟨ws,hws,hsep⟩ := hopt.keySep
    obtain ⟨text,htext,hv⟩ := h e List.mem_cons_self level
    obtain ⟨items,hitems,hes⟩ := ih (fun e' he' => hkeys e' (List.mem_cons_of_mem e he'))
      fun e' he' => h e' (List.mem_cons_of_mem e he')
    refine ⟨(jsonQuote e.1 opt.ensureASCII ++ 0x3A :: (ws ++ text)) :: items,?_,
      .cons ⟨hkeys e List.mem_cons_self,_,ws,text,hws,hv,rfl⟩ hes⟩
    rw [List.map_cons,List.mapM_cons,hitems]
    dsimp only
    rw [htext,hsep,List.map_cons]
    simp only [bind,Except.bind,pure,Except.pure,List.append_assoc,List.cons_append]

theorem written_strDict (hopt : opt.Plain) (hkeys : ∀ e ∈ es, ∀ r ∈ e.1, r ≤ 0x10FFFF)
    (h : ∀ e ∈ es, Written ft opt e.2) : Written ft opt (strDict es) := by
  intro level
  rw [strDict,jsonEncode,jsonPairs_strDict]
  dsimp only [bind,Except.bind]
  rw [jsonObjectText,hopt.sortKeys,if_neg Bool.false_ne_true]
  cases es with
  | nil =>
    refine ⟨asciiRunes "\x7b\x7d",rfl,⟨0x7B,[0x7D],rfl,rfl,by decide⟩,
      isScalar_asciiRunes (by decide),?_⟩
    intro doc fuel rest _ hfuel
    obtain ⟨fuel,rfl⟩ : ∃ n, fuel = n + 1 := ⟨fuel - 1,by omega⟩
    rfl
  | cons e es =>
    obtain ⟨items,hitems,hes⟩ := mapM_entries_written hopt hkeys h (level + 1)
      (jsonNewline opt (level + 1))
    cases hes with
    | cons he hes =>
      refine ⟨_,?_,textOf_dict hopt level he hes⟩
      dsimp only
      rw [hitems]
      rfl

theorem written_of_plain (hopt : opt.Plain) (hplain : v.Plain) (h : v.Over (· ≤ 0x10FFFF)) :
    Written ft opt v := by
  induction hplain with
  | none => exact fun level => ⟨_,rfl,textOf_none⟩
  | bool b =>
    intro level
    refine ⟨_,?_,textOf_bool b⟩
    cases b <;> rfl
  | int n => exact fun level => ⟨_,rfl,textOf_int n⟩
  | str s => exact fun level => ⟨_,rfl,textOf_str (h s (List.mem_singleton_self s))⟩
  | list vs items ih =>
    intro level
    obtain ⟨texts,htexts,hvs⟩ := jsonEncodeItems_written (fun v hv => ih v hv (h.item hv)) (level + 1)
    refine ⟨_,?_,textOf_list hopt level hvs⟩
    rw [jsonEncode,htexts]
    rfl
  | dict entries keys distinct values ih =>
    obtain ⟨es,rfl⟩ := exists_strDict keys
    have hmem : ∀ e ∈ es, (JsonKey.str e.1, e.2) ∈ es.map fun e => (JsonKey.str e.1, e.2) :=
      fun e he => List.mem_map_of_mem he
    apply written_strDict hopt
    · exact fun e he => h.key (hmem e he)
    · exact fun e he => ih _ (hmem e he) (h.value (hmem e he))

theorem jsonLoads_textOf (h : TextOf ft v text) : jsonLoads ft text = .ok v.readBack := by
  have hread := h.reads text (2 * text.length + 1) [] (fun c hc => nomatch hc)
    (by rw [List.append_nil])
  have hskip := @TextOf.skipWS_self ft [] text v h
  rw [List.append_nil] at hread hskip
  rw [jsonLoads,goRunes_of_scalar h.scalar]
  dsimp only
  rw [hskip,hread]
  rfl

/-- A caller's indent that is no indent, a number or a text of white space. -/
def JsonIndent.Blank : JsonIndent → Prop
  | .none | .int _ => True
  | .str s => Runtime.Blank s
  | .other => False

theorem plain_jsonOptsFrom (skipkeys ensureASCII allowNan : Bool) {indent : JsonIndent}
    (h : indent.Blank) : ∃ opt, jsonOptsFrom skipkeys ensureASCII allowNan indent none false = .ok opt ∧
      opt.Plain := by
  have hcolon : ∃ ws, Blank ws ∧ asciiRunes ": " = 0x3A :: ws := ⟨[0x20],by unfold Blank; decide,rfl⟩
  have hcomma : ∃ ws, Blank ws ∧ asciiRunes "," = 0x2C :: ws := ⟨[],by unfold Blank; decide,rfl⟩
  cases indent with
  | none =>
    refine ⟨_,rfl,?_,⟨[0x20],by unfold Blank; decide,rfl⟩,hcolon,rfl⟩
    exact fun pad hpad => nomatch hpad
  | int n =>
    refine ⟨_,rfl,?_,hcomma,hcolon,rfl⟩
    rintro pad ⟨⟩ r hr
    rw [(List.mem_replicate.mp hr).2]
    rfl
  | str s =>
    refine ⟨_,rfl,?_,hcomma,hcolon,rfl⟩
    rintro pad ⟨⟩
    exact h
  | other => exact h.elim

/-- `dumps` writes every tree of None, bools, ints, strings, lists and dicts with string keys, and
`loads` gives the tree back if and only if no string in it has a surrogate. -/
theorem json_loads_dumps (ft : FloatText) (skipkeys ensureASCII allowNan : Bool) (indent : JsonIndent)
    (hindent : indent.Blank) (v : JsonValue) (hplain : v.Plain) (h : v.Over (· ≤ 0x10FFFF)) :
    ∃ opt text, jsonOptsFrom skipkeys ensureASCII allowNan indent none false = .ok opt ∧
      jsonDumps ft opt v = .ok text ∧
      (jsonLoads ft text = .ok v ↔ v.Over (isScalar · = true)) := by
  obtain ⟨opt,hopt,hblank⟩ := plain_jsonOptsFrom skipkeys ensureASCII allowNan hindent
  obtain ⟨text,htext,hread⟩ := written_of_plain hblank hplain h 0
  refine ⟨opt,text,hopt,htext,?_⟩
  rw [jsonLoads_textOf hread]
  constructor
  · intro hback
    rw [← Except.ok.inj hback]
    exact over_readBack hplain h
  · intro hscalar
    rw [readBack_eq hplain hscalar]

/-- A dict with a list, on indented lines. -/
theorem nested_tree_reads_back : ∃ opt text,
    jsonOptsFrom false true true (.int 2) none false = .ok opt ∧
      jsonDumps ⟨fun _ => [], fun _ => "", fun _ => 0⟩ opt
        (.dict [(.str [0x1F600], .list [.none, .int (-12), .str [0x22, 0x0A]])]) = .ok text ∧
      jsonLoads ⟨fun _ => [], fun _ => "", fun _ => 0⟩ text =
        .ok (.dict [(.str [0x1F600], .list [.none, .int (-12), .str [0x22, 0x0A]])]) := by
  have hitems : ∀ v ∈ [JsonValue.none,.int (-12),.str [0x22,0x0A]], v.Plain := by
    simp only [List.forall_mem_cons]
    exact ⟨.none,.int _,.str _,fun v hv => nomatch hv⟩
  have hplain : (JsonValue.dict
      [(.str [0x1F600], .list [.none,.int (-12),.str [0x22,0x0A]])]).Plain := by
    refine .dict _ ?_ (List.nodup_singleton _) ?_
    · simp only [List.forall_mem_cons]
      exact ⟨⟨_,rfl⟩,fun e he => nomatch he⟩
    · simp only [List.forall_mem_cons]
      exact ⟨.list _ hitems,fun e he => nomatch he⟩
  obtain ⟨opt,text,hopt,htext,hiff⟩ := json_loads_dumps ⟨fun _ => [],fun _ => "",fun _ => 0⟩ false
    true true (.int 2) trivial _ hplain (by unfold JsonValue.Over; decide)
  exact ⟨opt,text,hopt,htext,hiff.mpr (by unfold JsonValue.Over; decide)⟩

/-- A lone surrogate is written as three replacement characters, which are read back. -/
theorem surrogate_comes_back_replaced : ∃ opt text,
    jsonOptsFrom false true true .none none false = .ok opt ∧
      jsonDumps ⟨fun _ => [], fun _ => "", fun _ => 0⟩ opt (.str [0xD800]) = .ok text ∧
      text = asciiRunes "\"\\ufffd\\ufffd\\ufffd\"" ∧
      jsonLoads ⟨fun _ => [], fun _ => "", fun _ => 0⟩ text = .ok (.str [0xFFFD, 0xFFFD, 0xFFFD]) :=
  ⟨_,_,rfl,rfl,by decide +kernel,by rfl⟩

end Unagi.Runtime
