import Mathlib.Data.Nat.Digits.Lemmas

/-! # Numerals and delimited lists

Texts over an alphabet from which the parts can be read back: numbers written in a base, and lists of
texts each preceded by its length. -/

namespace Unagi.Lib

variable {α : Type*}

theorem split_before {sep : α → Prop} {l l' r r' : List α} (hl : ∀ a ∈ l, ¬ sep a)
    (hl' : ∀ a ∈ l', ¬ sep a) (hr : ∀ a ∈ r.head?, sep a) (hr' : ∀ a ∈ r'.head?, sep a)
    (h : l ++ r = l' ++ r') : l = l' ∧ r = r' := by
  induction l generalizing l' with
  | nil =>
    cases l' with
    | nil => exact ⟨rfl,h⟩
    | cons a l' =>
      rw [List.nil_append] at h
      exact absurd (hr a (by rw [h]; rfl)) (hl' a List.mem_cons_self)
  | cons a l ih =>
    cases l' with
    | nil =>
      rw [List.nil_append] at h
      exact absurd (hr' a (by rw [← h]; rfl)) (hl a List.mem_cons_self)
    | cons a' l' =>
      obtain ⟨rfl,htail⟩ := List.cons.inj h
      obtain ⟨rfl,rfl⟩ := ih (fun b hb => hl b (List.mem_cons_of_mem a hb))
        (fun b hb => hl' b (List.mem_cons_of_mem a hb)) htail
      exact ⟨rfl,rfl⟩

theorem split_at_separator {s : α} {l l' r r' : List α} (hl : s ∉ l) (hl' : s ∉ l')
    (h : l ++ s :: r = l' ++ s :: r') : l = l' ∧ r = r' := by
  obtain ⟨hleft,hright⟩ := split_before (fun a ha (he : a = s) => hl (he ▸ ha))
    (fun a ha he => hl' (he ▸ ha)) (by simp) (by simp) h
  exact ⟨hleft,(List.cons.inj hright).2⟩

theorem split_at_last {s : α} {l l' r r' : List α} (hr : s ∉ r) (hr' : s ∉ r')
    (h : l ++ s :: r = l' ++ s :: r') : l = l' ∧ r = r' := by
  have hrev : r.reverse ++ s :: l.reverse = r'.reverse ++ s :: l'.reverse := by
    simpa using congrArg List.reverse h
  obtain ⟨hright,hleft⟩ := split_at_separator (List.mem_reverse.not.mpr hr)
    (List.mem_reverse.not.mpr hr') hrev
  exact ⟨List.reverse_injective hleft,List.reverse_injective hright⟩

/-- Items written one behind the other can be read back, up to an image, if each of them can and no
rest begins like an item. -/
theorem flatMap_append {β γ : Type*} {f : β → List α} {g : β → γ} {bs bs' : List β} {r r' : List α}
    (hitem : ∀ b ∈ bs, ∀ b' ∈ bs', ∀ us us' : List β,
      f b ++ (us.flatMap f ++ r) = f b' ++ (us'.flatMap f ++ r') →
        g b = g b' ∧ us.flatMap f ++ r = us'.flatMap f ++ r')
    (hr : ∀ b ∈ bs', ∀ x, r ≠ f b ++ x) (hr' : ∀ b ∈ bs, ∀ x, r' ≠ f b ++ x)
    (h : bs.flatMap f ++ r = bs'.flatMap f ++ r') : bs.map g = bs'.map g ∧ r = r' := by
  induction bs generalizing bs' with
  | nil =>
    cases bs' with
    | nil => exact ⟨rfl,h⟩
    | cons b' bs' =>
      rw [List.flatMap_cons,List.append_assoc] at h
      exact absurd h (hr b' List.mem_cons_self _)
  | cons b bs ih =>
    rw [List.flatMap_cons,List.append_assoc] at h
    rw [List.forall_mem_cons] at hitem hr'
    cases bs' with
    | nil => exact absurd h.symm (hr'.1 _)
    | cons b' bs' =>
      rw [List.flatMap_cons,List.append_assoc] at h
      rw [List.forall_mem_cons] at hr
      obtain ⟨hhead,htail⟩ := hitem.1 b' List.mem_cons_self bs bs' h
      obtain ⟨hmap,hend⟩ := ih (fun c hc c' hc' => hitem.2 c hc c' (List.mem_cons_of_mem b' hc')) hr.2
        hr'.2 htail
      exact ⟨by rw [List.map_cons,List.map_cons,hhead,hmap],hend⟩

theorem terminated_append {s e : α} {ts ts' : List (List α)} {r r' : List α}
    (hts : ∀ t ∈ ts, s ∉ t ∧ e ∉ (t ++ [s]).head?) (hts' : ∀ t ∈ ts', s ∉ t ∧ e ∉ (t ++ [s]).head?)
    (h : ts.flatMap (· ++ [s]) ++ e :: r = ts'.flatMap (· ++ [s]) ++ e :: r') :
    ts = ts' ∧ r = r' := by
  have hhead : ∀ t x l, e ∉ (t ++ [s]).head? → e :: l ≠ t ++ [s] ++ x := by
    rintro (_ | ⟨a,t⟩) x l hne heq
    · exact hne ((List.cons.inj heq).1 ▸ rfl)
    · exact hne ((List.cons.inj heq).1 ▸ rfl)
  obtain ⟨hmap,hend⟩ := flatMap_append (g := id)
    (fun t ht t' ht' us us' h => split_at_separator (hts t ht).1 (hts' t' ht').1 (by simpa using h))
    (fun t ht x => hhead t x r (hts' t ht).2) (fun t ht x => hhead t x r' (hts t ht).2) h
  exact ⟨by simpa using hmap,(List.cons.inj hend).2⟩

section
variable (digit : Nat → α) (b : Nat)

def numeral (n : Nat) : List α :=
  if n = 0 then [digit 0] else ((b.digits n).map digit).reverse

variable {digit b}

theorem mem_numeral (hb : 1 < b) {n : Nat} {a : α} (h : a ∈ numeral digit b n) :
    ∃ d < b, a = digit d := by
  unfold numeral at h
  split at h
  · exact ⟨0,by omega,List.mem_singleton.mp h⟩
  · rw [List.mem_reverse,List.mem_map] at h
    obtain ⟨d,hd,rfl⟩ := h
    exact ⟨d,Nat.digits_lt_base hb hd,rfl⟩

theorem numeral_cons (hb : 1 < b) {n : Nat} (hn : n ≠ 0) :
    ∃ d ds, 0 < d ∧ d < b ∧ numeral digit b n = digit d :: ds := by
  have hne : b.digits n ≠ [] := Nat.digits_ne_nil_iff_ne_zero.mpr hn
  refine ⟨(b.digits n).getLast hne,(((b.digits n).dropLast).map digit).reverse,?_,?_,?_⟩
  · exact Nat.pos_of_ne_zero (Nat.getLast_digit_ne_zero b hn)
  · exact Nat.digits_lt_base hb (List.getLast_mem hne)
  · rw [numeral,if_neg hn,← List.map_reverse,← List.map_reverse,← List.map_cons,
      ← List.reverse_concat',List.dropLast_append_getLast hne]

theorem ofDigits_numeral (hb : 1 < b) {value : α → Nat} (hvalue : ∀ d < b, value (digit d) = d)
    (n : Nat) : Nat.ofDigits b ((numeral digit b n).reverse.map value) = n := by
  unfold numeral
  split
  · rename_i hn
    subst hn
    simp [hvalue 0 (by omega)]
  · rw [List.reverse_reverse,List.map_map]
    have hid : (b.digits n).map (value ∘ digit) = (b.digits n).map id :=
      List.map_congr_left fun d hd => hvalue d (Nat.digits_lt_base hb hd)
    rw [hid,List.map_id,Nat.ofDigits_digits]

theorem numeral_injective (hb : 1 < b) {value : α → Nat} (hvalue : ∀ d < b, value (digit d) = d) :
    Function.Injective (numeral digit b) := by
  intro n n' h
  rw [← ofDigits_numeral hb hvalue n,h,ofDigits_numeral hb hvalue n']

end

section
variable (number : Nat → List α) (s : α)

def withLengths (texts : List (List α)) : List α :=
  texts.flatMap fun t => number t.length ++ s :: t

variable {number s}

theorem withLengths_append (hnumber : Function.Injective number) (hs : ∀ n, s ∉ number n)
    {ts ts' : List (List α)} {r r' : List α} (hr : ∀ n t, r ≠ number n ++ s :: t)
    (hr' : ∀ n t, r' ≠ number n ++ s :: t)
    (h : withLengths number s ts ++ r = withLengths number s ts' ++ r') : ts = ts' ∧ r = r' := by
  have hfront : ∀ {r : List α}, (∀ n t, r ≠ number n ++ s :: t) → ∀ (t x : List α),
      r ≠ number t.length ++ s :: t ++ x := fun hr t x heq => hr _ (t ++ x) (by simpa using heq)
  have hitem : ∀ t t' x x' : List α, number t.length ++ s :: t ++ x = number t'.length ++ s :: t' ++ x' →
      t = t' ∧ x = x' := by
    intro t t' x x' h
    rw [List.append_assoc,List.append_assoc] at h
    obtain ⟨hlen,hrest⟩ := split_at_separator (hs _) (hs _) h
    exact List.append_inj hrest (hnumber hlen)
  obtain ⟨hmap,hend⟩ := flatMap_append (g := id) (fun t _ t' _ _ _ => hitem t t' _ _)
    (fun t _ => hfront hr t) (fun t _ => hfront hr' t) h
  exact ⟨by simpa using hmap,hend⟩

end

section
variable (s : α)

def separated (ts : List (List α)) : List α := ts.flatMap (s :: ·)
def joined : List (List α) → List α
  | [] => []
  | t :: ts => t ++ separated s ts

variable {s} {e e' : List α} {isText ends : List α → Prop} {ts ts' : List (List α)} {r r' : List α}

/-- A text that `t` is the only one to begin, up to an end. -/
def Readable (isText ends : List α → Prop) (t : List α) : Prop :=
  ∀ t', isText t' → ∀ r r', ends r → ends r' → t ++ r = t' ++ r' → t = t' ∧ r = r'

/-- A closing text behind a joined list: it ends a text, separates none and begins none. -/
structure Closes (isText ends : List α → Prop) (s : α) (e : List α) : Prop where
  ne : ∀ l l', s :: l ≠ e ++ l'
  ends : ∀ r, ends (e ++ r)
  start : ∀ t, isText t → ∀ l l', e ++ l ≠ t ++ l'

theorem separated_ends (hs : ∀ r, ends (s :: r)) (he : Closes isText ends s e) :
    ends (separated s ts ++ (e ++ r)) := by
  cases ts with
  | nil => exact he.ends r
  | cons t ts => exact hs _

theorem separated_append (hs : ∀ r, ends (s :: r)) (he : Closes isText ends s e)
    (he' : Closes isText ends s e') (hts : ∀ t ∈ ts, Readable isText ends t)
    (hts' : ∀ t ∈ ts', isText t)
    (h : separated s ts ++ (e ++ r) = separated s ts' ++ (e' ++ r')) :
    ts = ts' ∧ e ++ r = e' ++ r' := by
  obtain ⟨hmap,hend⟩ := flatMap_append (g := id) (fun t ht t' ht' us us' h =>
    hts t ht t' (hts' t' ht') _ _ (separated_ends hs he) (separated_ends hs he') (List.cons.inj h).2)
    (fun t _ x heq => he.ne _ _ heq.symm) (fun t _ x heq => he'.ne _ _ heq.symm) h
  exact ⟨by simpa using hmap,hend⟩

theorem joined_append (hs : ∀ r, ends (s :: r)) (he : Closes isText ends s e)
    (he' : Closes isText ends s e') (hts : ∀ t ∈ ts, isText t ∧ Readable isText ends t)
    (hts' : ∀ t ∈ ts', isText t) (h : joined s ts ++ (e ++ r) = joined s ts' ++ (e' ++ r')) :
    ts = ts' ∧ e ++ r = e' ++ r' := by
  cases ts with
  | nil =>
    cases ts' with
    | nil => exact ⟨rfl,h⟩
    | cons t' ts' =>
      rw [joined,joined,List.append_assoc] at h
      exact absurd h (he.start t' (hts' t' List.mem_cons_self) _ _)
  | cons t ts =>
    obtain ⟨⟨ht,hread⟩,hts⟩ := List.forall_mem_cons.mp hts
    cases ts' with
    | nil =>
      rw [joined,joined,List.append_assoc] at h
      exact absurd h.symm (he'.start t ht _ _)
    | cons t' ts' =>
      obtain ⟨ht',htail'⟩ := List.forall_mem_cons.mp hts'
      rw [joined,joined,List.append_assoc,List.append_assoc] at h
      obtain ⟨rfl,hrest⟩ := hread t' ht' _ _ (separated_ends hs he) (separated_ends hs he') h
      obtain ⟨rfl,hend⟩ := separated_append hs he he' (fun t ht => (hts t ht).2) htail' hrest
      exact ⟨rfl,hend⟩

end

end Unagi.Lib
