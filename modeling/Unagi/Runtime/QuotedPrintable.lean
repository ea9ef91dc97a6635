import Mathlib.Data.List.Induction
import Unagi.Objects.Object

/-! # Quoted-printable text

The encoder keeps a column for its soft line breaks. A blank that it has written before a line end is
escaped when the line ends, behind the column's back. -/

namespace Unagi.Runtime.Binascii

open Objects (Bytes)

abbrev lf : UInt8 := '\n'.toUInt8
abbrev cr : UInt8 := '\r'.toUInt8
abbrev ht : UInt8 := '\t'.toUInt8
abbrev sp : UInt8 := ' '.toUInt8
abbrev eqSign : UInt8 := '='.toUInt8

/-- A digit of the alphabet that has this letter for ten. -/
def hexDigit (ten : Char) (d : UInt8) : UInt8 :=
  if d < 10 then '0'.toUInt8 + d else ten.toUInt8 + (d - 10)

structure QpFlags where
  quotetabs : Bool
  istext : Bool
  header : Bool

def qpMaxLineSize : Nat := 76
def qpToHex (c : UInt8) : UInt8 × UInt8 := (hexDigit 'A' (c >>> 4), hexDigit 'A' (c &&& 0x0f))
def qpIsHexDigit (c : UInt8) : Bool :=
  '0'.toUInt8 ≤ c && c ≤ '9'.toUInt8 || 'A'.toUInt8 ≤ c && c ≤ 'F'.toUInt8 ||
    'a'.toUInt8 ≤ c && c ≤ 'f'.toUInt8

def qpHexValue (c : UInt8) : UInt8 :=
  if '0'.toUInt8 ≤ c && c ≤ '9'.toUInt8 then c - '0'.toUInt8
  else if 'a'.toUInt8 ≤ c && c ≤ 'f'.toUInt8 then c - 'a'.toUInt8 + 10
  else c - 'A'.toUInt8 + 10
def qpEscape (c : UInt8) : Bytes := [eqSign, (qpToHex c).1, (qpToHex c).2]
def qpNeedsQuote (f : QpFlags) (c : UInt8) (rest : Bytes) (linelen : Nat) : Bool :=
  c > 126 || c == eqSign || f.header && c == '_'.toUInt8 ||
  c == '.'.toUInt8 && linelen == 0 && (rest.head?.all fun d => d == lf || d == cr || d == 0) ||
  !f.istext && (c == cr || c == lf) ||
  (c == ht || c == sp) && rest.isEmpty ||
  c < 33 && c != cr && c != lf && (f.quotetabs || c != ht && c != sp)

def binasciiA2bQp (header : Bool) : Bytes → Bytes
  | [] => []
  | c :: rest =>
    if c = eqSign then
      match rest with
      | [] => []
      | x :: more =>
        if x = lf ∨ x = cr then
          binasciiA2bQp header (((x :: more).dropWhile (· ≠ lf)).drop 1)
        else if x = eqSign then eqSign :: binasciiA2bQp header more
        else
          match more with
          | [] => eqSign :: binasciiA2bQp header [x]
          | y :: more =>
            if qpIsHexDigit x && qpIsHexDigit y then
              (qpHexValue x <<< 4 ||| qpHexValue y) :: binasciiA2bQp header more
            else eqSign :: binasciiA2bQp header (x :: y :: more)
    else if header && c == '_'.toUInt8 then sp :: binasciiA2bQp header rest
    else c :: binasciiA2bQp header rest
termination_by data => data.length
decreasing_by
  · have := (List.dropWhile_sublist (· ≠ lf) (l := x :: more)).length_le
    simp only [List.length_drop,List.length_cons] at this ⊢
    omega
  all_goals (simp only [List.length_cons,List.length_nil]; omega)

def lineEnd (crlf : Bool) : Bytes := if crlf then [cr, lf] else [lf]
def softBreak (crlf : Bool) : Bytes := eqSign :: lineEnd crlf
def isBlank (c : UInt8) : Bool := c == sp || c == ht

/-- A blank at the end of what has been written becomes an escape. -/
def quoteTrailing (out : Bytes) : Bytes :=
  match out.getLast? with
  | some c => if isBlank c then out.dropLast ++ qpEscape c else out
  | none => out

/-- A line of the data ends here, with a line feed or with a carriage return before one. -/
def atLineEnd (f : QpFlags) (c : UInt8) (rest : Bytes) : Bool :=
  f.istext && (c == lf || c == cr && rest.head? == some lf)

def afterLineEnd (c : UInt8) (rest : Bytes) : Bytes := if c = cr then rest.tail else rest
def qpRaw (f : QpFlags) (c : UInt8) : UInt8 := if f.header && c == sp then '_'.toUInt8 else c

private theorem length_afterLineEnd (c : UInt8) (rest : Bytes) :
    (afterLineEnd c rest).length ≤ rest.length := by
  unfold afterLineEnd
  split <;> simp

def qpLoop (f : QpFlags) (crlf : Bool) : Bytes → Bytes → Nat → Bytes
  | [], out, _ => out
  | c :: rest, out, linelen =>
    if qpNeedsQuote f c rest linelen then
      if linelen + 3 ≥ qpMaxLineSize then qpLoop f crlf rest (out ++ softBreak crlf ++ qpEscape c) 3
      else qpLoop f crlf rest (out ++ qpEscape c) (linelen + 3)
    else if atLineEnd f c rest then
      qpLoop f crlf (afterLineEnd c rest) (quoteTrailing out ++ lineEnd crlf) 0
    else if !rest.isEmpty && rest.head? != some lf && linelen + 1 ≥ qpMaxLineSize then
      qpLoop f crlf rest (out ++ softBreak crlf ++ [qpRaw f c]) 1
    else qpLoop f crlf rest (out ++ [qpRaw f c]) (linelen + 1)
termination_by data => data.length
decreasing_by
  all_goals have := length_afterLineEnd c rest
  all_goals (simp only [List.length_cons]; omega)

/-- The first line of the data ends in a carriage return and a line feed. -/
def crlfOf (data : Bytes) : Bool :=
  let i := data.idxOf lf
  i < data.length && 0 < i && data[i - 1]? == some cr

def binasciiB2aQp (f : QpFlags) (data : Bytes) : Bytes := qpLoop f (crlfOf data) data [] 0
private theorem qpToHex_spec (c : UInt8) : qpIsHexDigit (qpToHex c).1 ∧ qpIsHexDigit (qpToHex c).2 ∧
    qpHexValue (qpToHex c).1 <<< 4 ||| qpHexValue (qpToHex c).2 = c := by
  obtain ⟨⟨c⟩⟩ := c
  revert c
  decide +kernel
private theorem plain_of_qpIsHexDigit {c : UInt8} (h : qpIsHexDigit c) : ¬ isBlank c ∧
    c ≠ eqSign ∧ c ≠ lf ∧ c ≠ cr := by
  obtain ⟨⟨c⟩⟩ := c
  revert c
  decide +kernel

section Decoding

variable {header : Bool} {out out' done done' : Bytes} {c : UInt8}

/-- The text is read as the bytes, whatever comes after it. -/
def Reads (header : Bool) (out done : Bytes) : Prop :=
  ∀ s, binasciiA2bQp header (out ++ s) = done ++ binasciiA2bQp header s

private theorem Reads.append (h : Reads header out done) (h' : Reads header out' done') :
    Reads header (out ++ out') (done ++ done') := by
  intro s
  rw [List.append_assoc,h,h',List.append_assoc]

private theorem reads_qpEscape (c : UInt8) : Reads header (qpEscape c) [c] := by
  intro s
  obtain ⟨hfirst,hsecond,hvalue⟩ := qpToHex_spec c
  obtain ⟨-,heq,hlf,hcr⟩ := plain_of_qpIsHexDigit hfirst
  simp only [qpEscape,List.cons_append,List.nil_append]
  rw [binasciiA2bQp,if_pos rfl,if_neg (by simp [hlf,hcr]),if_neg heq,hfirst,hsecond,hvalue]
  rfl

private theorem reads_softBreak (crlf : Bool) : Reads header (softBreak crlf) [] := by
  intro s
  cases crlf <;> (rw [binasciiA2bQp.eq_def]; rfl)
private theorem reads_raw (hc : c ≠ eqSign) (hline : ¬ (header ∧ c = '_'.toUInt8)) :
    Reads header [c] [c] := by
  intro s
  rw [binasciiA2bQp.eq_def]
  simp only [List.singleton_append,if_neg hc]
  rw [if_neg (by simpa using hline)]

/-- What the loop has written is read as what it has encoded, also without a blank at its end. -/
structure Written (header : Bool) (out done : Bytes) : Prop where
  reads : Reads header out done
  blank : ∀ c, isBlank c → out.getLast? = some c →
    ∃ rest, done = rest ++ [c] ∧ Reads header out.dropLast rest

theorem Reads.written (h : Reads header out done) (hlast : ∀ c ∈ out.getLast?, ¬ isBlank c) :
    Written header out done :=
  ⟨h,fun c hblank hc => absurd hblank (hlast c hc)⟩
private theorem getLast_qpEscape (c : UInt8) : ∀ d ∈ (out ++ qpEscape c).getLast?, ¬ isBlank d := by
  simpa [qpEscape] using (plain_of_qpIsHexDigit (qpToHex_spec c).2.1).1

private theorem Written.quoteTrailing (h : Written header out done) :
    Reads header (quoteTrailing out) done := by
  unfold Binascii.quoteTrailing
  split
  · rename_i c hc
    split
    · obtain ⟨rest,rfl,hrest⟩ := h.blank c ‹_› hc
      exact hrest.append (reads_qpEscape c)
    · exact h.reads
  · exact h.reads

private theorem reads_lineEnd : Reads header (lineEnd false) [lf] :=
  reads_raw (by decide) fun h => absurd h.2 (by decide)
private theorem raw_of_not_qpNeedsQuote {f : QpFlags} {rest : Bytes} {linelen : Nat}
    (h : ¬ qpNeedsQuote f c rest linelen) : c ≠ eqSign ∧ ¬ (f.header ∧ c = '_'.toUInt8) := by
  simp only [qpNeedsQuote,Bool.or_eq_true,Bool.and_eq_true,beq_iff_eq,not_or] at h
  tauto

theorem Written.raw {f : QpFlags} {rest : Bytes} {linelen : Nat} (h : Reads f.header out done)
    (hraw : ¬ qpNeedsQuote f c rest linelen) :
    Written f.header (out ++ [qpRaw f c]) (done ++ [c]) := by
  obtain ⟨heq,hline⟩ := raw_of_not_qpNeedsQuote hraw
  unfold qpRaw
  split
  · rename_i hspace
    simp only [Bool.and_eq_true,beq_iff_eq] at hspace
    rw [hspace.2]
    apply Reads.written (h.append _) (by simp; decide)
    intro s
    rw [binasciiA2bQp.eq_def,hspace.1]
    rfl
  · refine ⟨h.append (reads_raw heq hline),fun d _ hd => ⟨done,?_,?_⟩⟩
    · simpa using hd
    · simpa using h

private theorem binasciiA2bQp_qpLoop {f : QpFlags} {crlf : Bool} {data : Bytes} {linelen : Nat}
    (h : Written f.header out done) (hcrlf : f.istext → crlf = false)
    (hcr : f.istext → cr ∉ data) :
    binasciiA2bQp f.header (qpLoop f crlf data out linelen) = done ++ data := by
  fun_induction qpLoop f crlf data out linelen generalizing done with
  | case1 out => simpa [binasciiA2bQp] using h.reads []
  | case2 c rest out linelen _ _ ih =>
    have hw := ((h.reads.append (reads_softBreak crlf)).append (reads_qpEscape c)).written
      (getLast_qpEscape c)
    rw [ih hw fun ht hmem => hcr ht (List.mem_cons_of_mem c hmem)]
    simp
  | case3 c rest out linelen _ _ ih =>
    have hw := (h.reads.append (reads_qpEscape c)).written (getLast_qpEscape c)
    rw [ih hw fun ht hmem => hcr ht (List.mem_cons_of_mem c hmem)]
    simp
  | case4 c rest out linelen _ hnewline ih =>
    rw [atLineEnd,Bool.and_eq_true] at hnewline
    have hcr := hcr hnewline.1
    obtain rfl : c = lf := by
      have hnot : c ≠ cr := fun hc => hcr (hc ▸ List.mem_cons_self)
      simpa [hnot] using hnewline.2
    have hw := (h.quoteTrailing.append reads_lineEnd).written (by simp [lineEnd]; decide)
    have hafter : afterLineEnd lf rest = rest := if_neg (by decide)
    rw [hafter,hcrlf hnewline.1] at ih ⊢
    rw [ih hw fun _ hmem => hcr (List.mem_cons_of_mem _ hmem)]
    simp
  | case5 c rest out linelen hquote _ _ ih =>
    have hreads := h.reads.append (reads_softBreak crlf)
    rw [ih (.raw hreads hquote) fun ht hmem => hcr ht (List.mem_cons_of_mem c hmem)]
    simp
  | case6 c rest out linelen hquote _ _ ih =>
    rw [ih (.raw h.reads hquote) fun ht hmem => hcr ht (List.mem_cons_of_mem c hmem)]
    simp

private theorem crlfOf_eq_false {data : Bytes} (h : cr ∉ data) : crlfOf data = false := by
  simp only [crlfOf,Bool.and_eq_false_iff,beq_eq_false_iff_ne]
  exact .inr fun hi => h (List.mem_of_getElem? hi)

/-- The decoder inverts the encoder, on a text without carriage returns. -/
theorem quoted_printable_inverse (f : QpFlags) (data : Bytes) (h : f.istext → cr ∉ data) :
    binasciiA2bQp f.header (binasciiB2aQp f data) = data := by
  have hstart : Written f.header [] [] := ⟨fun s => rfl,fun c _ hc => by simp at hc⟩
  exact binasciiA2bQp_qpLoop hstart (fun ht => crlfOf_eq_false (h ht)) h

theorem quoted_printable_inverse_of_blank_line : binasciiA2bQp true
    (binasciiB2aQp ⟨false, true, true⟩ [sp, ht, lf, eqSign]) = [sp, ht, lf, eqSign] :=
  quoted_printable_inverse ⟨false,true,true⟩ _ fun _ => by decide

end Decoding

/-! ## The lines of the output -/

/-- A line without the carriage return of its end. -/
def lineBody (line : Bytes) : Bytes :=
  if line.getLast? = some cr then line.dropLast else line

/-- No line is too long, and none ends in a blank before its end. -/
def WithinLimit (out : Bytes) : Prop :=
  (∀ line ∈ out.splitOn lf, (lineBody line).length ≤ qpMaxLineSize) ∧
    ∀ line ∈ (out.splitOn lf).dropLast, ∀ c ∈ (lineBody line).getLast?, ¬ isBlank c

/-- How a line of the output ends so far: in a blank, in a blank and a carriage return, or otherwise. -/
inductive LineTail
  | plain | blank | blankCr
  deriving DecidableEq

def LineTail.push (t : LineTail) (c : UInt8) : LineTail :=
  if isBlank c then .blank else if c = cr ∧ t = .blank then .blankCr else .plain

/-- With the bytes laid out in columns, no line end of a text comes after a blank in the last two
columns, or after a blank and a carriage return where lines end in line feeds alone, and no byte is
escaped after one in the last column. -/
def fits (f : QpFlags) (crlf : Bool) : Bytes → Nat → LineTail → Bool
  | [], _, _ => true
  | c :: rest, col, tail =>
    if qpNeedsQuote f c rest col then
      if col + 3 ≥ qpMaxLineSize then col < qpMaxLineSize && fits f crlf rest 3 .plain
      else fits f crlf rest (col + 3) .plain
    else if atLineEnd f c rest then
      (tail != .blank || col + 2 ≤ qpMaxLineSize) && (tail != .blankCr || crlf) &&
        fits f crlf (afterLineEnd c rest) 0 .plain
    else if !rest.isEmpty && rest.head? != some lf && col + 1 ≥ qpMaxLineSize then
      fits f crlf rest 1 (LineTail.plain.push (qpRaw f c))
    else fits f crlf rest (col + 1) (tail.push (qpRaw f c))
termination_by data => data.length
decreasing_by
  all_goals have := length_afterLineEnd c rest
  all_goals (simp only [List.length_cons]; omega)

section Lines

variable {f : QpFlags} {crlf : Bool} {data rest pre cur out : Bytes} {c : UInt8} {linelen col : Nat}
  {tail : LineTail}

def tailOf (cur : Bytes) : LineTail := cur.foldl .push .plain
theorem tailOf_concat (cur : Bytes) (c : UInt8) : tailOf (cur ++ [c]) = (tailOf cur).push c :=
  List.foldl_concat ..
private theorem push_eq_blank {t : LineTail} : t.push c = .blank ↔ isBlank c := by
  unfold LineTail.push
  split_ifs <;> simp_all
private theorem quoteTrailing_concat (cur : Bytes) (c : UInt8) :
    quoteTrailing (cur ++ [c]) = if isBlank c then cur ++ qpEscape c else cur ++ [c] := by
  simp [quoteTrailing]

private theorem quoteTrailing_append (hpre : ∀ c ∈ pre.getLast?, ¬ isBlank c) (out : Bytes) :
    quoteTrailing (pre ++ out) = pre ++ quoteTrailing out := by
  induction out using List.reverseRecOn with
  | nil =>
    induction pre using List.reverseRecOn with
    | nil => rfl
    | append_singleton pre c _ => simp_all [quoteTrailing]
  | append_singleton out c _ =>
    rw [← List.append_assoc,quoteTrailing_concat,quoteTrailing_concat]
    split <;> simp

private theorem qpLoop_append (hpre : ∀ c ∈ pre.getLast?, ¬ isBlank c) :
    qpLoop f crlf data (pre ++ out) linelen = pre ++ qpLoop f crlf data out linelen := by
  fun_induction qpLoop f crlf data out linelen with
  | case1 out => rw [qpLoop]
  | case2 c rest out linelen hquote hfull ih =>
    rw [qpLoop,if_pos hquote,if_pos hfull]
    simpa using ih
  | case3 c rest out linelen hquote hfull ih =>
    rw [qpLoop,if_pos hquote,if_neg hfull]
    simpa using ih
  | case4 c rest out linelen hquote hend ih =>
    rw [qpLoop,if_neg hquote,if_pos hend,quoteTrailing_append hpre]
    simpa using ih
  | case5 c rest out linelen hquote hend hfull ih =>
    rw [qpLoop,if_neg hquote,if_neg hend,if_pos hfull]
    simpa using ih
  | case6 c rest out linelen hquote hend hfull ih =>
    rw [qpLoop,if_neg hquote,if_neg hend,if_neg hfull]
    simpa using ih

private theorem getLast_lineEnd (cur : Bytes) (crlf : Bool) :
    ∀ c ∈ (cur ++ lineEnd crlf).getLast?, ¬ isBlank c := by
  cases crlf <;> simp [lineEnd] <;> decide
private theorem lineBody_concat (cur : Bytes) (c : UInt8) :
    lineBody (cur ++ [c]) = if c = cr then cur else cur ++ [c] := by
  simp [lineBody]

/-- The line before an end of this form. -/
def Good (crlf : Bool) (line : Bytes) : Prop :=
  let body := if crlf then line else lineBody line
  body.length ≤ qpMaxLineSize ∧ ∀ c ∈ body.getLast?, ¬ isBlank c

private theorem withinLimit_append (h : lf ∉ cur) :
    WithinLimit (cur ++ lineEnd crlf ++ out) ↔ Good crlf cur ∧ WithinLimit out := by
  have hsplit : ∀ line : Bytes, lf ∉ line →
      (WithinLimit (line ++ lf :: out) ↔
        ((lineBody line).length ≤ qpMaxLineSize ∧ ∀ c ∈ (lineBody line).getLast?, ¬ isBlank c) ∧
          WithinLimit out) := by
    intro line hline
    rw [WithinLimit,List.splitOn_append_cons_self_of_not_mem hline,
      List.dropLast_cons_of_ne_nil (List.splitOn_ne_nil _ _),List.forall_mem_cons,List.forall_mem_cons,
      WithinLimit]
    tauto
  cases crlf with
  | false => simpa [lineEnd,Good] using hsplit cur h
  | true =>
    have hcr := hsplit (cur ++ [cr]) (by simp [h]; decide)
    rw [lineBody_concat,if_pos rfl] at hcr
    simpa [lineEnd,Good] using hcr

private theorem good_softBreak : Good crlf (cur ++ [eqSign]) ↔ cur.length < qpMaxLineSize := by
  have hbody : lineBody (cur ++ [eqSign]) = cur ++ [eqSign] :=
    (lineBody_concat ..).trans (if_neg (by decide))
  have hblank : ¬ isBlank eqSign := by decide
  have hlast : ∀ c ∈ (cur ++ [eqSign]).getLast?, ¬ isBlank c := by
    intro c hc
    rw [List.getLast?_concat,Option.mem_some_iff] at hc
    rwa [← hc]
  rw [Good,hbody,ite_self,and_iff_left hlast,List.length_append]
  rfl

private theorem tailOf_eq_blank : tailOf cur = .blank ↔ ∃ c ∈ cur.getLast?, isBlank c := by
  induction cur using List.reverseRecOn with
  | nil => simp [tailOf]
  | append_singleton cur c _ => rw [tailOf_concat,push_eq_blank]; simp
private theorem lf_notMem_qpEscape (c : UInt8) : lf ∉ qpEscape c := by
  obtain ⟨hfirst,hsecond,-⟩ := qpToHex_spec c
  have hfirst := (plain_of_qpIsHexDigit hfirst).2.2.1
  have hsecond := (plain_of_qpIsHexDigit hsecond).2.2.1
  simp [qpEscape,hfirst.symm,hsecond.symm]
  decide
theorem tailOf_qpEscape (cur : Bytes) (c : UInt8) : tailOf (cur ++ qpEscape c) = .plain := by
  obtain ⟨hblank,-,-,hcr⟩ := plain_of_qpIsHexDigit (qpToHex_spec c).2.1
  have hsnoc : cur ++ qpEscape c = cur ++ [eqSign,(qpToHex c).1] ++ [(qpToHex c).2] := by
    simp [qpEscape]
  rw [hsnoc,tailOf_concat,LineTail.push,if_neg hblank,if_neg fun h => hcr h.1]
private theorem lineBody_qpEscape (cur : Bytes) (c : UInt8) :
    lineBody (cur ++ qpEscape c) = cur ++ qpEscape c := by
  have hcr := (plain_of_qpIsHexDigit (qpToHex_spec c).2.1).2.2.2
  simp [lineBody,qpEscape,hcr]

theorem good_quoteTrailing (hlen : cur.length ≤ qpMaxLineSize) : Good crlf (quoteTrailing cur) ↔
    (tailOf cur = .blank → cur.length + 2 ≤ qpMaxLineSize) ∧ (tailOf cur = .blankCr → crlf) := by
  induction cur using List.reverseRecOn with
  | nil => simp [Good,quoteTrailing,lineBody,tailOf]
  | append_singleton cur c _ =>
    rw [quoteTrailing_concat,tailOf_concat]
    by_cases hblank : isBlank c
    · have htail : (tailOf cur).push c = .blank := push_eq_blank.mpr hblank
      have hlast : ∀ d ∈ (cur ++ qpEscape c).getLast?, ¬ isBlank d := getLast_qpEscape c
      simp only [Good,if_pos hblank,lineBody_qpEscape,ite_self,htail]
      simp [hlast,qpEscape]
    · simp only [push_eq_blank,hblank]
      cases crlf with
      | true => simpa [Good,hblank] using hlen
      | false =>
        by_cases hcr : c = cr
        · subst hcr
          have htail : (tailOf cur).push cr = .blankCr ↔ tailOf cur = .blank := by
            simp [LineTail.push,hblank]
          have hcur : cur.length ≤ qpMaxLineSize := by simp at hlen; omega
          simp [Good,lineBody_concat,htail,tailOf_eq_blank,hcur]
        · simpa [Good,lineBody_concat,hcr,hblank,LineTail.push] using hlen

private theorem lf_notMem_quoteTrailing (h : lf ∉ cur) : lf ∉ quoteTrailing cur := by
  unfold quoteTrailing
  split
  · split
    · simp only [List.mem_append,not_or]
      exact ⟨fun hmem => h (List.dropLast_subset cur hmem),lf_notMem_qpEscape _⟩
    · exact h
  · exact h

private theorem withinLimit_line (h : lf ∉ cur) (hlen : cur.length ≤ qpMaxLineSize) :
    WithinLimit cur := by
  have hbody : (lineBody cur).length ≤ cur.length := by unfold lineBody; split <;> simp
  simpa [WithinLimit,List.splitOn_eq_singleton h] using hbody.trans hlen

/-- A soft break ends the line, and the loop goes on with what it has written on the next one. -/
theorem withinLimit_softBreak (h : lf ∉ cur) :
    WithinLimit (qpLoop f crlf data (cur ++ softBreak crlf ++ out) linelen) ↔
      cur.length < qpMaxLineSize ∧ WithinLimit (qpLoop f crlf data out linelen) := by
  have hassoc : cur ++ softBreak crlf = cur ++ [eqSign] ++ lineEnd crlf := by simp [softBreak]
  rw [hassoc,qpLoop_append (getLast_lineEnd _ _),withinLimit_append (by simp [h]; decide),
    good_softBreak]

/-- The line that the loop is writing, its length and its end, with the bytes that come next. -/
structure Line (data cur : Bytes) (col : Nat) (tail : LineTail) : Prop where
  noLf : lf ∉ cur
  length : cur.length = col
  tail : tailOf cur = tail
  le : col ≤ qpMaxLineSize
  full : col = qpMaxLineSize → ∀ c ∈ data.head?, c = lf

private theorem Line.nil (data : Bytes) : Line data [] 0 .plain :=
  ⟨List.not_mem_nil,rfl,rfl,Nat.zero_le _,fun h => by cases h⟩

private theorem Line.qpEscape (h : Line data cur col tail) (rest : Bytes) (c : UInt8)
    (hlt : col + 3 < qpMaxLineSize) : Line rest (cur ++ qpEscape c) (col + 3) .plain where
  noLf := by simpa [h.noLf] using lf_notMem_qpEscape c
  length := by simp [Binascii.qpEscape,h.length]
  tail := tailOf_qpEscape cur c
  le := hlt.le
  full heq := absurd heq hlt.ne

private theorem Line.raw (h : Line data cur col tail) (hc : c ≠ lf)
    (hlt : col < qpMaxLineSize)
    (hrest : ¬ (!rest.isEmpty && rest.head? != some lf && decide (col + 1 ≥ qpMaxLineSize))) :
    Line rest (cur ++ [qpRaw f c]) (col + 1) (tail.push (qpRaw f c)) where
  noLf := by
    have hraw : lf ≠ qpRaw f c := by
      unfold qpRaw
      split
      · decide
      · exact hc.symm
    simp [h.noLf,hraw]
  length := by simp [h.length]
  tail := by rw [tailOf_concat,h.tail]
  le := hlt
  full heq d hd := by
    by_contra hne
    have hd : rest.head? = some d := hd
    simp [heq,hd,hne] at hrest
    simp [hrest] at hd

private theorem ne_lf_of_raw (hquote : ¬ qpNeedsQuote f c rest col) (hend : ¬ atLineEnd f c rest) :
    c ≠ lf := by
  rintro rfl
  cases hf : f.istext with
  | true => simp [atLineEnd,hf] at hend
  | false => simp [qpNeedsQuote,hf] at hquote

private theorem withinLimit_qpLoop (h : Line data cur col tail) :
    WithinLimit (qpLoop f crlf data cur col) ↔ fits f crlf data col tail := by
  fun_induction fits f crlf data col tail generalizing cur with
  | case1 col tail =>
    rw [qpLoop]
    simpa using withinLimit_line h.noLf (h.length.trans_le h.le)
  | case2 c rest col tail hquote hfull ih =>
    rw [qpLoop,if_pos hquote,if_pos hfull,withinLimit_softBreak h.noLf,h.length,Bool.and_eq_true,
      decide_eq_true_eq]
    exact and_congr_right' (ih ((Line.nil rest).qpEscape rest c (by decide)))
  | case3 c rest col tail hquote hfull ih =>
    rw [qpLoop,if_pos hquote,if_neg hfull]
    exact ih (h.qpEscape rest c (Nat.lt_of_not_ge hfull))
  | case4 c rest col tail hquote hend ih =>
    rw [qpLoop,if_neg hquote,if_pos hend,← List.append_nil (quoteTrailing cur ++ lineEnd crlf),
      qpLoop_append (getLast_lineEnd _ _),withinLimit_append (lf_notMem_quoteTrailing h.noLf),
      good_quoteTrailing (h.length.trans_le h.le),ih (.nil _),h.length,h.tail]
    simp [imp_iff_not_or]
  | case5 c rest col tail hquote hend hfull ih =>
    have hc := ne_lf_of_raw hquote hend
    have hlt : col < qpMaxLineSize := h.le.lt_of_ne fun heq => hc (h.full heq c rfl)
    rw [qpLoop,if_neg hquote,if_neg hend,if_pos hfull,withinLimit_softBreak h.noLf,h.length,
      and_iff_right hlt]
    exact ih ((Line.nil rest).raw hc (by decide) (by simp [qpMaxLineSize]))
  | case6 c rest col tail hquote hend hfull ih =>
    have hc := ne_lf_of_raw hquote hend
    have hlt : col < qpMaxLineSize := h.le.lt_of_ne fun heq => hc (h.full heq c rfl)
    rw [qpLoop,if_neg hquote,if_neg hend,if_neg hfull]
    exact ih (h.raw hc hlt hfull)

/-- The lines of the output are within the limit, without blanks at their ends, exactly if the data
fit. -/
theorem qp_lines_within_limit_iff (f : QpFlags) (data : Bytes) :
    WithinLimit (binasciiB2aQp f data) ↔ fits f (crlfOf data) data 0 .plain :=
  withinLimit_qpLoop (.nil data)

/-- A blank in the last column before a line feed becomes an escape. -/
theorem trailing_blank_overruns : ∃ data out, data = List.replicate 75 'x'.toUInt8 ++ [sp, lf] ∧
    binasciiB2aQp ⟨false, true, false⟩ data = out ∧
    out = List.replicate 75 'x'.toUInt8 ++ qpEscape sp ++ [lf] ∧ ¬ WithinLimit out := by
  refine ⟨_,_,rfl,rfl,by decide +kernel,fun h => ?_⟩
  have hline := h.1 (List.replicate 75 'x'.toUInt8 ++ qpEscape sp) (by decide +kernel)
  exact absurd hline (by decide +kernel)

end Lines
end Unagi.Runtime.Binascii
