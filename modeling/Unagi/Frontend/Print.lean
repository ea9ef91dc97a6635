import Mathlib.Tactic.IntervalCases
import Unagi.Frontend.Parser
import Unagi.Lib.Except

/-! # Printing expressions and parsing them back

An expression is printed with parentheses only where the level of the grammar that its place
asks for is above its own. The parser reads the printed tokens back: each level of the ladder
stops at a token that continues a looser level only. -/

namespace Unagi.Frontend

def binLevelOf : BinKind → Nat
  | .bitOr => 5
  | .bitXor => 6
  | .bitAnd => 7
  | .lShift | .rShift => 8
  | .add | .sub => 9
  | .mul | .div | .floorDiv | .mod | .matMul => 10
  | .pow => 12

/-- The rule of the grammar that produces an expression, counted from the loosest. -/
def level : Expr → Nat
  | .ifExp _ _ _ | .lambda _ _ => 0
  | .boolOp .or _ => 1
  | .boolOp .and _ => 2
  | .unaryOp .not _ => 3
  | .compare _ _ _ => 4
  | .binOp _ op _ => binLevelOf op
  | .unaryOp _ _ => 11
  | .await _ => 13
  | .attribute _ _ | .subscript _ _ | .call _ _ => 14
  | _ => 15

def binTok : BinKind → OpTok
  | .add => .plus
  | .sub => .minus
  | .mul => .star
  | .div => .slash
  | .floorDiv => .slash2
  | .mod => .percent
  | .pow => .starstar
  | .bitOr => .bar
  | .bitXor => .caret
  | .bitAnd => .amp
  | .lShift => .shl
  | .rShift => .shr
  | .matMul => .at

def unaryTok : UnaryKind → Tok
  | .neg => .op .minus
  | .pos => .op .plus
  | .invert => .op .tilde
  | .not => .kw .kNot

def cmpToks : CmpKind → List Tok
  | .eq => [.op .eq]
  | .ne => [.op .ne]
  | .lt => [.op .lt]
  | .le => [.op .le]
  | .gt => [.op .gt]
  | .ge => [.op .ge]
  | .isIn => [.kw .kIn]
  | .notIn => [.kw .kNot, .kw .kIn]
  | .is => [.kw .kIs]
  | .isNot => [.kw .kIs, .kw .kNot]

/-- The tokens of an expression in a place of the given level, from its own tokens. -/
def atLevel (lvl own : Nat) (toks : List Tok) : List Tok :=
  if own < lvl then .op .lpar :: (toks ++ [.op .rpar]) else toks

def leftLevel : BinKind → Nat
  | .pow => 13
  | op => binLevelOf op
def rightLevel : BinKind → Nat
  | .pow => 11
  | op => binLevelOf op + 1

def printParams : List Param → List Tok
  | [] => []
  | [p] => [.name p.name]
  | p :: ps => .name p.name :: .op .comma :: printParams ps

mutual
def printExpr : Expr → List Tok
  | .name x => [.name x]
  | .intLit v => [.int v]
  | .binOp l op r =>
    atLevel (leftLevel op) (level l) (printExpr l) ++
      .op (binTok op) :: atLevel (rightLevel op) (level r) (printExpr r)
  | .unaryOp .not x => .kw .kNot :: atLevel 3 (level x) (printExpr x)
  | .unaryOp op x => unaryTok op :: atLevel 11 (level x) (printExpr x)
  | .boolOp kind vs =>
    match kind with
    | .and => printJoined .kAnd 3 vs
    | .or => printJoined .kOr 2 vs
  | .compare l ops rs => atLevel 5 (level l) (printExpr l) ++ printRights ops rs
  | .ifExp c t e =>
    atLevel 1 (level t) (printExpr t) ++ .kw .kIf :: (atLevel 1 (level c) (printExpr c) ++
      .kw .kElse :: printExpr e)
  | .lambda ps body => .kw .kLambda :: (printParams ps ++ .op .colon :: printExpr body)
  | .await x => .kw .kAwait :: atLevel 14 (level x) (printExpr x)
  | .attribute x name => atLevel 14 (level x) (printExpr x) ++ [.op .dot, .name name]
  | .subscript x i =>
    atLevel 14 (level x) (printExpr x) ++ .op .lbracket :: (printExpr i ++ [.op .rbracket])
  | .call f args =>
    atLevel 14 (level f) (printExpr f) ++ .op .lpar :: (printArgs args ++ [.op .rpar])
  | _ => []

def printJoined (k : Kw) (lvl : Nat) : List Expr → List Tok
  | [] => []
  | [v] => atLevel lvl (level v) (printExpr v)
  | v :: vs => atLevel lvl (level v) (printExpr v) ++ .kw k :: printJoined k lvl vs
def printRights : List CmpKind → List Expr → List Tok
  | op :: ops, r :: rs => cmpToks op ++ atLevel 5 (level r) (printExpr r) ++ printRights ops rs
  | _, _ => []

def printArgs : List Arg → List Tok
  | [] => []
  | [.mk _ _ v] => printExpr v
  | .mk _ _ v :: as => printExpr v ++ .op .comma :: printArgs as
end

/-- Plain parameters under distinct names. -/
def PlainParams (ps : List Param) : Prop :=
  (∀ p ∈ ps, p = .mk p.name .plain none none) ∧ (ps.map Param.name).Nodup

mutual
/-- Names, integers, operators, conditionals, lambdas with plain parameters, await, attributes,
subscripts and positional calls. -/
def Printable : Expr → Prop
  | .name _ | .intLit _ => True
  | .binOp l _ r => Printable l ∧ Printable r
  | .unaryOp _ x | .await x | .attribute x _ => Printable x
  | .boolOp _ vs => 2 ≤ vs.length ∧ PrintableAll vs
  | .compare l ops rs => Printable l ∧ ops.length = rs.length ∧ rs ≠ [] ∧ PrintableAll rs
  | .ifExp c t e => Printable c ∧ Printable t ∧ Printable e
  | .lambda ps body => PlainParams ps ∧ Printable body
  | .subscript x i => Printable x ∧ Printable i
  | .call f args => Printable f ∧ PrintableArgs args
  | _ => False

def PrintableAll : List Expr → Prop
  | [] => True
  | v :: vs => Printable v ∧ PrintableAll vs

def PrintableArgs : List Arg → Prop
  | [] => True
  | .mk name star v :: as => name = "" ∧ star = 0 ∧ Printable v ∧ PrintableArgs as
end

/-- The level at which a token continues an expression. -/
def contLevel : Tok → Option Nat
  | .op .lpar | .op .dot | .op .lbracket => some 14
  | .op .starstar => some 12
  | .op .star | .op .slash | .op .slash2 | .op .percent | .op .at => some 10
  | .op .plus | .op .minus => some 9
  | .op .shl | .op .shr => some 8
  | .op .amp => some 7
  | .op .caret => some 6
  | .op .bar => some 5
  | .op .eq | .op .ne | .op .lt | .op .le | .op .gt | .op .ge => some 4
  | .kw .kIn | .kw .kNot | .kw .kIs => some 4
  | .kw .kAnd => some 2
  | .kw .kOr => some 1
  | .kw .kIf => some 0
  | _ => none

/-- The level of the expressions that start with a token. -/
def startLevel : Tok → Option Nat
  | .kw .kLambda => some 0
  | .kw .kNot => some 3
  | .op .plus | .op .minus | .op .tilde => some 11
  | .kw .kAwait => some 13
  | .name _ | .int _ | .op .lpar => some 15
  | _ => none

/-- No parser of level `lvl` or above goes on with these tokens. -/
def Stops (lvl : Nat) (rest : List Tok) : Prop :=
  ∀ t, rest.head? = some t → ∀ k, contLevel t = some k → k < lvl

/-- The tokens start an expression of level `lvl` or above. -/
def Starts (lvl : Nat) (toks : List Tok) : Prop :=
  ∃ t ts k, toks = t :: ts ∧ startLevel t = some k ∧ lvl ≤ k

variable {l l' k : Nat} {rest toks : List Tok} {t : Tok} {o : OpTok}

private theorem Stops.mono (h : Stops l rest) (hle : l ≤ l') :
    Stops l' rest := fun t ht k hk => Nat.lt_of_lt_of_le (h t ht k hk) hle
private theorem Stops.cons (h : ∀ k, contLevel t = some k → k < l) :
    Stops l (t :: rest) := by
  intro t' ht k hk
  rw [List.head?_cons,Option.some.injEq] at ht
  subst ht
  exact h k hk
private theorem Stops.not_head (h : Stops l rest)
    (hk : contLevel t = some k) (hle : l ≤ k) : rest.head? ≠ some t := by
  intro ht
  exact absurd (h t ht k hk) (Nat.not_lt.mpr hle)

private theorem Stops.isOp (h : Stops l rest)
    (hk : contLevel (.op o) = some k) (hle : l ≤ k) : isOp o rest = false := by
  simp [Frontend.isOp,h.not_head hk hle]
private theorem Stops.isKw {w : Kw} (h : Stops l rest)
    (hk : contLevel (.kw w) = some k) (hle : l ≤ k) : isKw w rest = false := by
  simp [Frontend.isKw,h.not_head hk hle]

private theorem Starts.append (h : Starts l toks) (rest : List Tok) :
    Starts l (toks ++ rest) := by
  obtain ⟨t,ts,k,rfl,hk,hle⟩ := h
  exact ⟨t,ts ++ rest,k,rfl,hk,hle⟩
private theorem Starts.mono (h : Starts l toks) (hle : l' ≤ l) :
    Starts l' toks := by
  obtain ⟨t,ts,k,rfl,hk,hk'⟩ := h
  exact ⟨t,ts,k,rfl,hk,Nat.le_trans hle hk'⟩
private theorem Starts.not_head (h : Starts l toks)
    (ht : ∀ k, startLevel t = some k → k < l) : toks.head? ≠ some t := by
  obtain ⟨t',ts,k,rfl,hk,hle⟩ := h
  rw [List.head?_cons,ne_eq,Option.some.injEq]
  rintro rfl
  exact absurd (ht k hk) (Nat.not_lt.mpr hle)

private theorem Starts.isOp (h : Starts l toks)
    (ho : ∀ k, startLevel (.op o) = some k → k < l) : isOp o toks = false := by
  simp [Frontend.isOp,h.not_head ho]
private theorem Starts.isKw {w : Kw} (h : Starts l toks)
    (hw : ∀ k, startLevel (.kw w) = some k → k < l) : isKw w toks = false := by
  simp [Frontend.isKw,h.not_head hw]

/-- The parser gives the result whenever it may nest deep enough. -/
def Runs {α : Type} (p : Nat → P α) (toks : List Tok) (r : α × List Tok) : Prop :=
  ∃ k, ∀ n, k ≤ n → p n toks = .ok r

/-- The loop gives the result whenever its operands and itself may nest deep enough. -/
def LoopRuns {α : Type} (p : Nat → Nat → P α) (toks : List Tok) (r : α × List Tok) : Prop :=
  ∃ k, ∀ n m, k ≤ n → k ≤ m → p n m toks = .ok r

section
variable {α β γ : Type} {f : Nat → β} {b : β} {g : Nat → γ} {c : γ}

/-! What holds of the parts from some depth on holds of the whole, one level deeper. -/

private theorem Runs.both (hf : ∃ k, ∀ n, k ≤ n → f n = b) (hg : ∃ k, ∀ n, k ≤ n → g n = c) :
    ∃ k, ∀ n, k ≤ n → (f n, g n) = (b, c) := by
  obtain ⟨k₁,hf⟩ := hf
  obtain ⟨k₂,hg⟩ := hg
  refine ⟨k₁ + k₂,fun n hn => ?_⟩
  rw [hf n (by omega),hg n (by omega)]

variable {h : Nat → α} {p : Nat → Nat → P α}

private theorem Runs.step {a : α} (hf : ∃ k, ∀ n, k ≤ n → f n = b)
    (hstep : ∀ n, f n = b → h (n + 1) = a) : ∃ k, ∀ n, k ≤ n → h n = a := by
  obtain ⟨k,hf⟩ := hf
  refine ⟨k + 1,fun n hn => ?_⟩
  obtain ⟨m,rfl⟩ : ∃ m, n = m + 1 := ⟨n - 1,by omega⟩
  exact hstep m (hf m (by omega))
private theorem Runs.step₂ {a : α} (hf : ∃ k, ∀ n, k ≤ n → f n = b)
    (hg : ∃ k, ∀ n, k ≤ n → g n = c) (hstep : ∀ n, f n = b → g n = c → h (n + 1) = a) :
    ∃ k, ∀ n, k ≤ n → h n = a :=
  Runs.step (Runs.both hf hg) fun n hn => hstep n (congrArg Prod.fst hn) (congrArg Prod.snd hn)
private theorem Runs.succ {a : α} (hstep : ∀ n, h (n + 1) = a) :
    ∃ k, ∀ n, k ≤ n → h n = a :=
  Runs.step ⟨0,fun _ _ => rfl⟩ fun n (_ : () = ()) => hstep n

private theorem LoopRuns.step {p p' : Nat → Nat → P α} {toks' : List Tok} {r r' : α × List Tok}
    (hf : ∃ k, ∀ n, k ≤ n → f n = b) (hloop : LoopRuns p' toks' r')
    (hstep : ∀ n m, f n = b → p' n m toks' = .ok r' → p n (m + 1) toks = .ok r) :
    LoopRuns p toks r := by
  obtain ⟨k₁,hf⟩ := hf
  obtain ⟨k₂,hloop⟩ := hloop
  refine ⟨k₁ + k₂ + 1,fun n m hn hm => ?_⟩
  obtain ⟨m,rfl⟩ : ∃ m', m = m' + 1 := ⟨m - 1,by omega⟩
  exact hstep n m (hf n (by omega)) (hloop n m (by omega) (by omega))

private theorem LoopRuns.succ {r : α × List Tok}
    (hstep : ∀ n m, p n (m + 1) toks = .ok r) : LoopRuns p toks r := by
  refine ⟨1,fun n m _ hm => ?_⟩
  obtain ⟨m,rfl⟩ : ∃ m', m = m' + 1 := ⟨m - 1,by omega⟩
  exact hstep n m
private theorem LoopRuns.diag {r : α × List Tok} (h : LoopRuns p toks r) :
    ∃ k, ∀ n, k ≤ n → p n n toks = .ok r := by
  obtain ⟨k,h⟩ := h
  exact ⟨k,fun n hn => h n n hn hn⟩

end

section Ladder
variable {G : OtherForms}

def parserAt (G : OtherForms) : Nat → Nat → P Expr
  | 0 => parseTest G
  | 1 => parseOr G
  | 2 => parseAnd G
  | 3 => parseNot G
  | 4 => parseComparison G
  | 5 => parseBitOr G
  | 6 => parseBitXor G
  | 7 => parseBitAnd G
  | 8 => parseShift G
  | 9 => parseArith G
  | 10 => parseTerm G
  | 11 => parseFactor G
  | 12 => parsePower G
  | 13 => parseAwaitPrimary G
  | _ => parsePostfix G

def opsAt : Nat → OpTok → Option BinKind
  | 5 => bitOrOps
  | 6 => bitXorOps
  | 7 => bitAndOps
  | 8 => shiftOps
  | 9 => arithOps
  | _ => termOps

def loopAt (G : OtherForms) (l : Nat) (e : Expr) (n m : Nat) : P Expr :=
  leftAssoc (opsAt l) (parserAt G (l + 1) n) m e
private theorem parserAt_binLevel (h₁ : 5 ≤ l) (h₂ : l ≤ 10) (n : Nat) (toks : List Tok) :
    parserAt G l (n + 1) toks = binLevel (opsAt l) (parserAt G (l + 1) n) n toks := by
  interval_cases l <;> rfl

variable {e v x : Expr} {r : Expr × List Tok} {op : BinKind} {args : List Arg} {vs : List Expr}

theorem chain_start (h₁ : 5 ≤ l) (h₂ : l ≤ 10) (he : Runs (parserAt G (l + 1)) toks (e, rest))
    (hloop : LoopRuns (loopAt G l e) rest r) : Runs (parserAt G l) toks r := by
  refine Runs.step₂ he hloop.diag fun n hread hrest => ?_
  rw [parserAt_binLevel h₁ h₂,binLevel,hread]
  exact hrest

private theorem chain_step (ho : opsAt l o = some op)
    {rest' : List Tok} {e' : Expr}
    (he : Runs (parserAt G (l + 1)) rest (e', rest'))
    (hloop : LoopRuns (loopAt G l (.binOp e op e')) rest' r) :
    LoopRuns (loopAt G l e) (.op o :: rest) r := by
  refine LoopRuns.step he hloop fun n m hread hrest => ?_
  simp only [loopAt,leftAssoc,ho,hread]
  exact hrest

private theorem opsAt_contLevel (h₁ : 5 ≤ l) (h₂ : l ≤ 10)
    (h : opsAt l o = some op) : contLevel (.op o) = some l := by
  interval_cases l <;> cases o <;> simp_all [opsAt,bitOrOps,bitXorOps,bitAndOps,shiftOps,
    arithOps,termOps,contLevel]

private theorem chain_end (h₁ : 5 ≤ l) (h₂ : l ≤ 10)
    (h : Stops l rest) : LoopRuns (loopAt G l e) rest (e, rest) := by
  refine LoopRuns.succ fun n m => ?_
  rw [loopAt]
  cases rest with
  | nil => rfl
  | cons t rest =>
    cases t with
    | op o =>
      cases ho : opsAt l o with
      | none => simp [leftAssoc,ho]
      | some op => exact absurd (h _ rfl _ (opsAt_contLevel h₁ h₂ ho)) (Nat.lt_irrefl l)
    | _ => rfl

private theorem cmpOpAt_stops (h : Stops 4 rest) : cmpOpAt rest = .ok (none, rest) := by
  cases rest with
  | nil => rfl
  | cons t rest =>
    cases t with
    | op o =>
      cases ho : cmpOps o with
      | none => simp [cmpOpAt,ho]
      | some c =>
        have hk : contLevel (.op o) = some 4 := by
          cases o <;> simp [cmpOps] at ho <;> rfl
        exact absurd (h _ rfl _ hk) (Nat.lt_irrefl 4)
    | kw w =>
      cases w with
      | kIn | kNot | kIs => exact absurd (h _ rfl 4 rfl) (Nat.lt_irrefl 4)
      | _ => rfl
    | _ => rfl

private theorem factor_skip (h : Starts 12 toks) (n : Nat) :
    parseFactor G (n + 1) toks = parsePower G n toks := by
  obtain ⟨t,ts,k,rfl,hk,hle⟩ := h
  cases t with
  | op o => cases o <;> simp [startLevel] at hk <;> first | rfl | omega
  | _ => rfl
private theorem cmpLoop_end {p : Nat → P Expr} (h : Stops 4 rest) :
    LoopRuns (fun n m => cmpLoop (p n) m) rest (([], []), rest) :=
  LoopRuns.succ fun n m => by simp [cmpLoop,cmpOpAt_stops h]

private theorem ascend (hl : l ≤ 13) (hs : Starts (l + 1) toks)
    (he : Runs (parserAt G (l + 1)) toks (e, rest)) (hstop : Stops l rest) :
    Runs (parserAt G l) toks (e, rest) := by
  by_cases hchain : 5 ≤ l ∧ l ≤ 10
  · exact chain_start hchain.1 hchain.2 he (chain_end hchain.1 hchain.2 hstop)
  by_cases hcmp : l = 4
  · subst hcmp
    refine Runs.step₂ he (cmpLoop_end (p := parserAt G 5) hstop).diag fun n hread hloop => ?_
    simp only [parserAt] at hread hloop ⊢
    simp [parseComparison,hread,hloop]
  refine Runs.step he fun n hread => ?_
  obtain rfl | rfl | rfl | rfl | rfl | rfl | rfl :
    l = 0 ∨ l = 1 ∨ l = 2 ∨ l = 3 ∨ l = 11 ∨ l = 12 ∨ l = 13 := by omega
  all_goals simp only [parserAt] at hread ⊢
  · have hlam := hs.isKw (w := .kLambda) (by simp [startLevel])
    have hif := hstop.isKw (w := .kIf) rfl (Nat.le_refl 0)
    simp [parseTest,hlam,hread,hif]
  · have hor := hstop.isKw (w := .kOr) rfl (Nat.le_refl 1)
    simp [parseOr,boolLevel,hread,hor]
  · have hand := hstop.isKw (w := .kAnd) rfl (Nat.le_refl 2)
    simp [parseAnd,boolLevel,hread,hand]
  · have hnot := hs.isKw (w := .kNot) (by simp [startLevel])
    simp [parseNot,hnot,hread]
  · rw [factor_skip hs,hread]
  · have hpow := hstop.isOp (o := .starstar) rfl (Nat.le_refl 12)
    simp [parsePower,hread,hpow]
  · have hawait := hs.isKw (w := .kAwait) (by simp [startLevel])
    simp [parseAwaitPrimary,hawait,hread]

private theorem descend_to (hle : l ≤ l') (hl' : l' ≤ 14)
    (hs : Starts l' toks) (he : Runs (parserAt G l') toks (e, rest)) (hstop : Stops l rest) :
    Runs (parserAt G l) toks (e, rest) := by
  induction l', hle using Nat.le_induction with
  | base => exact he
  | succ m hm ih =>
    apply ih (by omega) (hs.mono (by omega))
    exact ascend (by omega) hs he (hstop.mono hm)

private theorem post_start (he : Runs (parseAtom G) toks (e, rest))
    (hloop : Runs (fun n => postfixLoop G n e) rest r) : Runs (parsePostfix G) toks r := by
  refine Runs.step₂ he hloop fun n hread hrest => ?_
  simp only [parsePostfix,hread]
  exact hrest

theorem post_end (h : Stops 14 rest) : Runs (fun n => postfixLoop G n e) rest (e, rest) := by
  refine Runs.succ fun n => ?_
  cases rest with
  | nil => simp [postfixLoop]
  | cons t rest =>
    cases t with
    | op o =>
      cases o with
      | lpar | dot | lbracket => exact absurd (h _ rfl 14 rfl) (Nat.lt_irrefl 14)
      | _ => simp [postfixLoop]
    | _ => simp [postfixLoop]

theorem post_attribute {x : String} (h : Runs (fun n => postfixLoop G n (.attribute e x)) rest r) :
    Runs (fun n => postfixLoop G n e) (.op .dot :: .name x :: rest) r :=
  Runs.step h fun n hloop => by simpa [postfixLoop] using hloop

private theorem post_subscript {i : Expr} (hs : Starts 0 toks)
    (hi : Runs (parseTest G) toks (i, .op .rbracket :: rest))
    (h : Runs (fun n => postfixLoop G n (.subscript e i)) rest r) :
    Runs (fun n => postfixLoop G n e) (.op .lbracket :: toks) r := by
  have hclose := hs.isOp (o := .rbracket) (by simp [startLevel])
  have hcolon := hs.isOp (o := .colon) (by simp [startLevel])
  have hindex : Runs (parseIndex G) toks (i, .op .rbracket :: rest) :=
    Runs.step hi fun n hread => by simp [parseIndex,hclose,hcolon,hread]
  refine Runs.step₂ hindex h fun n hread hloop => ?_
  simpa [postfixLoop,hread,wantOp] using hloop

private theorem post_call (hargs : Runs (parseCall G) toks (args, rest))
    (h : Runs (fun n => postfixLoop G n (.call e args)) rest r) :
    Runs (fun n => postfixLoop G n e) (.op .lpar :: toks) r := by
  refine Runs.step₂ hargs h fun n hread hloop => ?_
  simpa [postfixLoop,hread] using hloop
private theorem namedTest_runs (he : Runs (parseTest G) toks (e, rest))
    (hrest : isOp .walrus rest = false) : Runs (parseNamedTest G) toks (e, rest) :=
  Runs.step he fun n hread => by simp [parseNamedTest,hread,hrest]

theorem paren_runs (hs : Starts 0 toks) (he : Runs (parseTest G) toks (e, .op .rpar :: rest))
    (hstar : ∀ x, e ≠ .starred x) : Runs (parseAtom G) (.op .lpar :: toks) (e, rest) := by
  have hclose := hs.isOp (o := .rpar) (by simp [startLevel])
  have hyield := hs.isKw (w := .kYield) (by simp [startLevel])
  have hst := hs.isOp (o := .star) (by simp [startLevel])
  have helem : Runs (parseStarElement G) toks (e, .op .rpar :: rest) :=
    Runs.step (namedTest_runs he rfl) fun n hread => by simp [parseStarElement,hst,hread]
  have hparen : Runs (parseParen G) toks (e, rest) := by
    refine Runs.step helem fun n hread => ?_
    simp only [parseParen,hclose,hyield,hread]
    cases e with
    | starred x => exact absurd rfl (hstar x)
    | _ => simp [isAsyncFor]
  exact Runs.step hparen fun n hread => by simpa [parseAtom] using hread

private theorem starts_atLevel (hl : l ≤ 15) (h : Starts (level e) (printExpr e)) :
    Starts l (atLevel l (level e) (printExpr e)) := by
  rw [atLevel]
  split_ifs with hlt
  · exact ⟨_,_,15,rfl,rfl,hl⟩
  · exact h.mono (Nat.le_of_not_lt hlt)
theorem level_le_leftLevel (op : BinKind) : binLevelOf op ≤ leftLevel op ∧ leftLevel op ≤ 15 := by
  cases op <;> decide

private theorem starts_printExpr : ∀ e : Expr, Printable e → Starts (level e) (printExpr e)
  | .name x, _ => ⟨.name x,[],15,by rw [printExpr],rfl,Nat.le_refl 15⟩
  | .intLit v, _ => ⟨.int v,[],15,by rw [printExpr],rfl,Nat.le_refl 15⟩
  | .binOp l op r, h => by
    have hl := starts_atLevel (level_le_leftLevel op).2 (starts_printExpr l h.1)
    rw [printExpr]
    exact (hl.mono (level_le_leftLevel op).1).append _
  | .unaryOp op x, h => by
    cases op with
    | not => exact ⟨_,_,3,by rw [printExpr],rfl,Nat.le_refl 3⟩
    | neg | pos | invert =>
      exact ⟨_,_,11,by rw [printExpr]; simp,rfl,Nat.le_refl 11⟩
  | .boolOp kind [], h => by simp [Printable] at h
  | .boolOp kind (v :: vs), h => by
    have hv := starts_printExpr v h.2.1
    cases kind <;> cases vs <;> simp only [printExpr,printJoined,level]
    · exact (starts_atLevel (by decide) hv).mono (by decide)
    · exact ((starts_atLevel (by decide) hv).mono (by decide)).append _
    · exact (starts_atLevel (by decide) hv).mono (by decide)
    · exact ((starts_atLevel (by decide) hv).mono (by decide)).append _
  | .compare l ops rs, h => by
    rw [printExpr]
    exact ((starts_atLevel (by decide) (starts_printExpr l h.1)).mono (by simp [level])).append _
  | .ifExp c t e, h => by
    rw [printExpr]
    exact ((starts_atLevel (by decide) (starts_printExpr t h.2.1)).mono (by simp [level])).append _
  | .lambda ps body, _ => ⟨.kw .kLambda,_,0,by rw [printExpr],rfl,Nat.le_refl 0⟩
  | .await x, _ => ⟨.kw .kAwait,_,13,by rw [printExpr],rfl,Nat.le_refl 13⟩
  | .attribute x name, h => by
    rw [printExpr]
    exact (starts_atLevel (l := 14) (by decide) (starts_printExpr x h)).append _
  | .subscript x i, h => by
    rw [printExpr]
    exact (starts_atLevel (l := 14) (by decide) (starts_printExpr x h.1)).append _
  | .call f args, h => by
    rw [printExpr]
    exact (starts_atLevel (l := 14) (by decide) (starts_printExpr f h.1)).append _

/-- The printed expression is read back in every place: by the parser of the level, as the
first operand of a left-associative level, and under trailers. -/
structure Parsed (G : OtherForms) (e : Expr) : Prop where
  reads : ∀ l, l ≤ 14 → ∀ rest, Stops l rest →
    Runs (parserAt G l) (atLevel l (level e) (printExpr e) ++ rest) (e, rest)
  chains : ∀ l, 5 ≤ l → l ≤ 10 → ∀ rest r, Stops (l + 1) rest → LoopRuns (loopAt G l e) rest r →
    Runs (parserAt G l) (atLevel l (level e) (printExpr e) ++ rest) r
  posts : ∀ rest r, Runs (fun n => postfixLoop G n e) rest r →
    Runs (parsePostfix G) (atLevel 14 (level e) (printExpr e) ++ rest) r

def ownLevel (e : Expr) : Nat := min (level e) 14
private theorem Printable.not_starred (h : Printable e) (x : Expr) : e ≠ .starred x := by
  rintro rfl
  exact h

private theorem Parsed.of_own (h : Printable e)
    (hreads : ∀ rest, Stops (ownLevel e) rest →
      Runs (parserAt G (ownLevel e)) (printExpr e ++ rest) (e, rest))
    (hchain : 5 ≤ level e → level e ≤ 10 → ∀ rest r, Stops (level e + 1) rest →
      LoopRuns (loopAt G (level e) e) rest r →
      Runs (parserAt G (level e)) (printExpr e ++ rest) r)
    (hpost : 14 ≤ level e → ∀ rest r, Runs (fun n => postfixLoop G n e) rest r →
      Runs (parsePostfix G) (printExpr e ++ rest) r) : Parsed G e := by
  have hs := starts_printExpr e h
  have hown : ownLevel e ≤ level e := Nat.min_le_left _ _
  have hparen : ∀ rest, Runs (parseAtom G) (.op .lpar :: (printExpr e ++ [.op .rpar]) ++ rest)
      (e, rest) := by
    intro rest
    have htest : Runs (parserAt G 0) (printExpr e ++ .op .rpar :: rest) (e, .op .rpar :: rest) := by
      have hstop : Stops 0 (.op .rpar :: rest) := Stops.cons (by simp [contLevel])
      apply descend_to (Nat.zero_le _) (Nat.min_le_right _ _)
        ((hs.mono hown).append _) (hreads _ (hstop.mono (Nat.zero_le _))) hstop
    rw [List.cons_append,List.append_assoc]
    exact paren_runs ((hs.mono (Nat.zero_le _)).append _) htest h.not_starred
  have hstart : ∀ toks, Starts 15 (.op .lpar :: toks) := fun toks =>
    ⟨_,_,15,rfl,rfl,Nat.le_refl 15⟩
  have hall : ∀ l, l ≤ 14 → ∀ rest, Stops l rest →
      Runs (parserAt G l) (atLevel l (level e) (printExpr e) ++ rest) (e, rest) := by
    intro l hl rest hstop
    rw [atLevel]
    split_ifs with hlt
    · have hatom : Runs (parserAt G 14) (.op .lpar :: (printExpr e ++ [.op .rpar]) ++ rest)
          (e, rest) := post_start (hparen rest) (post_end (hstop.mono hl))
      exact descend_to hl (Nat.le_refl 14) (((hstart _).mono (by omega)).append rest) hatom hstop
    · have hle : l ≤ ownLevel e := by
        simp only [ownLevel]
        omega
      exact descend_to hle (Nat.min_le_right _ _) ((hs.mono hown).append rest)
        (hreads rest (hstop.mono hle)) hstop
  refine ⟨hall,?_,?_⟩
  · intro l h₁ h₂ rest r hstop hloop
    by_cases heq : level e = l
    · subst heq
      rw [atLevel,if_neg (Nat.lt_irrefl _)]
      exact hchain h₁ h₂ rest r hstop hloop
    · have hsame : atLevel l (level e) (printExpr e) = atLevel (l + 1) (level e) (printExpr e) := by
        have hiff : level e < l ↔ level e < l + 1 := by omega
        simp only [atLevel,hiff]
      rw [hsame]
      exact chain_start h₁ h₂ (hall (l + 1) (by omega) rest hstop) hloop
  · intro rest r hloop
    rw [atLevel]
    split_ifs with hlt
    · exact post_start (hparen rest) hloop
    · exact hpost (by omega) rest r hloop

private theorem PrintableAll.mem (h : PrintableAll vs) : ∀ v ∈ vs, Printable v := by
  induction vs with
  | nil => simp
  | cons v vs ih =>
    intro u hu
    rcases List.mem_cons.mp hu with rfl | hu
    · exact h.1
    · exact ih h.2 u hu

/-! ## Connectives and comparisons -/

/-- The further operands of a connective, each after its keyword. -/
def printTail (k : Kw) (lvl : Nat) (vs : List Expr) : List Tok :=
  vs.flatMap fun v => .kw k :: atLevel lvl (level v) (printExpr v)

private theorem printJoined_cons (k : Kw) (lvl : Nat) (v : Expr) (vs : List Expr) :
    printJoined k lvl (v :: vs) = atLevel lvl (level v) (printExpr v) ++ printTail k lvl vs := by
  induction vs generalizing v with
  | nil => simp [printJoined,printTail]
  | cons w vs ih =>
    rw [printJoined,ih w]
    · simp [printTail]
    · simp

private theorem stops_printTail {k : Kw} (hk : contLevel (.kw k) = some l) (lvl : Nat)
    (vs : List Expr) (h : Stops l rest) : Stops (l + 1) (printTail k lvl vs ++ rest) := by
  cases vs with
  | nil => exact h.mono (Nat.le_succ l)
  | cons v vs =>
    apply Stops.cons
    intro k' hk'
    rw [hk] at hk'
    cases hk'
    exact Nat.lt_succ_self l

theorem boolLoop_runs {k : Kw} (hl : l + 1 ≤ 14) (hk : contLevel (.kw k) = some l) (hvs : ∀ v ∈ vs, Parsed G v) (h : Stops l rest) :
    LoopRuns (fun n m => boolLoop k (parserAt G (l + 1) n) m) (printTail k (l + 1) vs ++ rest)
      (vs, rest) := by
  induction vs with
  | nil =>
    have hno := h.isKw hk (Nat.le_refl l)
    exact LoopRuns.succ fun n m => by simp [boolLoop,printTail,hno]
  | cons v vs ih =>
    have hv := (hvs v List.mem_cons_self).reads (l + 1) hl _ (stops_printTail hk (l + 1) vs h)
    have hrest := ih fun w hw => hvs w (List.mem_cons_of_mem _ hw)
    refine LoopRuns.step hv hrest fun n m hread hloop => ?_
    have htoks : printTail k (l + 1) (v :: vs) ++ rest =
        .kw k :: (atLevel (l + 1) (level v) (printExpr v) ++ (printTail k (l + 1) vs ++ rest)) := by
      simp [printTail]
    rw [htoks]
    simp [boolLoop,hread,hloop]

private theorem boolLevel_runs {kind : BoolKind} {k : Kw} (hl : l + 1 ≤ 14)
    (hk : contLevel (.kw k) = some l)
    (hp : ∀ n toks, parserAt G l (n + 1) toks = boolLevel kind k (parserAt G (l + 1) n) n toks)
    {w : Expr} (hvs : ∀ u ∈ v :: w :: vs, Parsed G u)
    (h : Stops l rest) :
    Runs (parserAt G l) (printJoined k (l + 1) (v :: w :: vs) ++ rest)
      (.boolOp kind (v :: w :: vs), rest) := by
  have hv := (hvs v List.mem_cons_self).reads (l + 1) hl _ (stops_printTail hk (l + 1) (w :: vs) h)
  have hrest := boolLoop_runs hl hk
    (fun u hu => hvs u (List.mem_cons_of_mem _ hu) : ∀ u ∈ w :: vs, Parsed G u) h
  refine Runs.step₂ hv hrest.diag fun n hread hloop => ?_
  have hhead : isKw k (printTail k (l + 1) (w :: vs) ++ rest) = true := by simp [printTail]
  rw [hp,printJoined_cons,List.append_assoc]
  simp [boolLevel,hread,hhead,hloop]

private theorem cmpOpAt_cmpToks (op : CmpKind) (h : Starts 5 toks) :
    cmpOpAt (cmpToks op ++ toks) = .ok (some op, toks) := by
  have hnot := h.isKw (w := .kNot) (by simp [startLevel])
  cases op <;> simp [cmpToks,cmpOpAt,cmpOps,hnot]

private theorem stops_printRights (ops : List CmpKind) (rs : List Expr)
    (h : Stops 4 rest) : Stops 5 (printRights ops rs ++ rest) := by
  cases ops with
  | nil => simpa [printRights] using h.mono (by decide)
  | cons op ops =>
    cases rs with
    | nil => simpa [printRights] using h.mono (by decide)
    | cons r rs =>
      rw [printRights]
      cases op <;> exact Stops.cons (by simp [contLevel])

private theorem cmpLoop_runs {ops : List CmpKind} {rs : List Expr} (hlen : ops.length = rs.length)
    (hprint : ∀ r ∈ rs, Printable r) (hrs : ∀ r ∈ rs, Parsed G r) (h : Stops 4 rest) :
    LoopRuns (fun n m => cmpLoop (parserAt G 5 n) m) (printRights ops rs ++ rest)
      ((ops, rs), rest) := by
  induction ops generalizing rs with
  | nil =>
    obtain rfl : rs = [] := List.length_eq_zero_iff.mp hlen.symm
    simpa only [printRights,List.nil_append] using cmpLoop_end h
  | cons op ops ih =>
    cases rs with
    | nil => simp at hlen
    | cons r rs =>
      have hr := (hrs r List.mem_cons_self).reads 5 (by decide) _ (stops_printRights ops rs h)
      have hrest := ih (by simpa using hlen) (List.forall_mem_cons.mp hprint).2
        (List.forall_mem_cons.mp hrs).2
      have hop : cmpOpAt (printRights (op :: ops) (r :: rs) ++ rest) =
          .ok (some op, atLevel 5 (level r) (printExpr r) ++ (printRights ops rs ++ rest)) := by
        rw [printRights,List.append_assoc,List.append_assoc]
        exact cmpOpAt_cmpToks op
          ((starts_atLevel (by decide) (starts_printExpr r (hprint r List.mem_cons_self))).append _)
      refine LoopRuns.step hr hrest fun n m hread hloop => ?_
      simp [cmpLoop,hop,hread,hloop]

private theorem Parsed.test (h : Parsed G e) (hstop : Stops 0 rest) :
    Runs (parseTest G) (printExpr e ++ rest) (e, rest) := by
  have hread := h.reads 0 (by decide) rest hstop
  rwa [atLevel,if_neg (Nat.not_lt_zero _)] at hread

theorem arg_runs {st : CallState} (hkw : st.sawKeyword = false) (hun : st.sawKwUnpack = false) (hv : Parsed G v) (hs : Starts 0 (printExpr v))
    (ho : o = .comma ∨ o = .rpar) (rest : List Tok) :
    ∃ k, ∀ n, k ≤ n → parseArg G n st (printExpr v ++ .op o :: rest) =
      .ok ({ st with args := st.args ++ [.mk "" 0 v] }, false, .op o :: rest) := by
  have hstop : Stops 0 (.op o :: rest) := by
    apply Stops.cons
    rcases ho with rfl | rfl <;> simp [contLevel]
  have hw : isOp .walrus (.op o :: rest) = false := by rcases ho with rfl | rfl <;> simp
  have ha : isOp .assign (.op o :: rest) = false := by rcases ho with rfl | rfl <;> simp
  have hstart := hs.append (.op o :: rest)
  have h₁ := hstart.isOp (o := .star) (by simp [startLevel])
  have h₂ := hstart.isOp (o := .starstar) (by simp [startLevel])
  refine Runs.step (namedTest_runs (hv.test hstop) hw) fun n hread => ?_
  simp [parseArg,h₁,h₂,hread,ha,isAsyncFor,hun,hkw]

def ArgsParsed (G : OtherForms) (args : List Arg) : Prop :=
  ∀ a ∈ args, a = .mk "" 0 a.value ∧ Parsed G a.value ∧ Starts 0 (printExpr a.value)

theorem starts_printArgs {a : Arg} {as : List Arg} (h : ArgsParsed G (a :: as)) (rest : List Tok) :
    isOp .rpar (printArgs (a :: as) ++ .op .rpar :: rest) = false := by
  obtain ⟨-,-,hs⟩ := h a List.mem_cons_self
  have hstart : Starts 0 (printArgs (a :: as)) := by
    cases as with
    | nil => cases a; exact hs
    | cons b as => cases a; exact hs.append _
  exact (hstart.append _).isOp (by simp [startLevel])

theorem callLoop_runs {a : Arg} {as : List Arg} (h : ArgsParsed G (a :: as)) (rest : List Tok)
    {st : CallState} (hkw : st.sawKeyword = false) (hun : st.sawKwUnpack = false) :
    Runs (fun n => callLoop G n st) (printArgs (a :: as) ++ .op .rpar :: rest)
      ({ st with args := st.args ++ a :: as }, .op .rpar :: rest) := by
  induction as generalizing a st with
  | nil =>
    obtain ⟨ha,hv,hs⟩ := h a List.mem_cons_self
    refine Runs.step (arg_runs hkw hun hv hs (Or.inr rfl) rest) fun n hread => ?_
    rw [ha]
    simp [printArgs,callLoop,hread]
  | cons b as ih =>
    obtain ⟨ha,hv,hs⟩ := h a List.mem_cons_self
    have hnext := starts_printArgs (fun c hc => h c (List.mem_cons_of_mem _ hc)) rest
    have hrest : Runs (fun n => callLoop G n { st with args := st.args ++ [.mk "" 0 a.value] })
        (printArgs (b :: as) ++ .op .rpar :: rest)
        ({ st with args := st.args ++ [.mk "" 0 a.value] ++ b :: as }, .op .rpar :: rest) :=
      ih (fun c hc => h c (List.mem_cons_of_mem _ hc)) hkw hun
    refine Runs.step₂ (arg_runs hkw hun hv hs (Or.inl rfl)
      (printArgs (b :: as) ++ .op .rpar :: rest)) hrest fun n hread hloop => ?_
    have htoks : printArgs (a :: b :: as) ++ .op .rpar :: rest =
        printExpr a.value ++ .op .comma :: (printArgs (b :: as) ++ .op .rpar :: rest) := by
      rw [ha]
      simp [printArgs,Arg.value]
    simp only at hloop
    simp only [htoks,callLoop,hread,Except.ok_bind]
    simp only [Bool.false_eq_true,if_false,isOp_op,decide_true,if_true,List.tail_cons,hnext]
    rw [hloop,List.append_assoc,List.singleton_append,← ha]

private theorem parseCall_runs (h : ArgsParsed G args) (rest : List Tok) :
    Runs (parseCall G) (printArgs args ++ .op .rpar :: rest) (args, rest) := by
  cases args with
  | nil => exact Runs.succ fun n => by simp [printArgs,parseCall]
  | cons a as =>
    have hargs : Runs (fun n => callLoop G n {}) (printArgs (a :: as) ++ .op .rpar :: rest)
        ({ args := a :: as }, .op .rpar :: rest) := callLoop_runs h rest rfl rfl
    have hopen := starts_printArgs h rest
    refine Runs.step hargs fun n hloop => ?_
    simp [parseCall,hopen,hloop,wantOp]

theorem param_runs {st : ParamState} (hkind : st.kind = .plain) (hdef : st.seenDefault = false)
    (hss : st.starstarSeen = false) {x : String} (hx : ∀ p ∈ st.params, p.name ≠ x)
    (ho : o = .comma ∨ o = .colon) (rest : List Tok) :
    ∃ k, ∀ n, k ≤ n → parseParam G .colon n st (.name x :: .op o :: rest) =
      .ok ({ st with params := st.params ++ [.mk x .plain none none] }, .op o :: rest) := by
  have ha : isOp .assign (.op o :: rest) = false := by rcases ho with rfl | rfl <;> simp
  have hann : Runs (fun n => parseAnnotation G .colon n) (.op o :: rest) (none, .op o :: rest) := by
    refine Runs.succ fun n => ?_
    dsimp only
    unfold parseAnnotation
    simp
  have hadd : st.named x none none =
      .ok { st with params := st.params ++ [.mk x .plain none none] } := by
    have hany : (st.params.any fun p => p.name = x) = false := by
      rw [List.any_eq_false]
      intro p hp
      simpa using hx p hp
    simp [ParamState.named,ParamState.add,hkind,hdef,hany]
  refine Runs.step hann fun n hread => ?_
  simp [parseParam,hss,hread,ha,hadd]

theorem parseParams_runs {ps : List Param} (hplain : ∀ p ∈ ps, p = .mk p.name .plain none none)
    (rest : List Tok) {st : ParamState} (hkind : st.kind = .plain) (hdef : st.seenDefault = false)
    (hss : st.starstarSeen = false) (hbare : st.bareStar = false)
    (hnodup : ((st.params ++ ps).map Param.name).Nodup) :
    Runs (fun n => parseParams G .colon n st) (printParams ps ++ .op .colon :: rest)
      (st.params ++ ps, .op .colon :: rest) := by
  induction ps generalizing st with
  | nil => exact Runs.succ fun n => by simp [printParams,parseParams,hbare]
  | cons p ps ih =>
    have hp := hplain p List.mem_cons_self
    have hfresh : ∀ q ∈ st.params, q.name ≠ p.name := by
      intro q hq heq
      rw [List.map_append,List.nodup_append] at hnodup
      exact hnodup.2.2 q.name (List.mem_map_of_mem hq) p.name (by simp) heq
    cases ps with
    | nil =>
      refine Runs.step (param_runs (G := G) hkind hdef hss hfresh (Or.inr rfl) rest)
        fun n hread => ?_
      simp [printParams,parseParams,hread,hbare,← hp]
    | cons q ps =>
      have hrest : Runs (fun n => parseParams G .colon n
          { st with params := st.params ++ [.mk p.name .plain none none] })
          (printParams (q :: ps) ++ .op .colon :: rest)
          (st.params ++ [.mk p.name .plain none none] ++ q :: ps, .op .colon :: rest) := by
        refine ih (fun r hr => hplain r (List.mem_cons_of_mem _ hr)) hkind hdef hss hbare ?_
        rw [← hp,List.append_assoc]
        exact hnodup
      refine Runs.step₂ (param_runs (G := G) hkind hdef hss hfresh (Or.inl rfl)
        (printParams (q :: ps) ++ .op .colon :: rest)) hrest fun n hread hloop => ?_
      simp only [← hp,List.append_assoc,List.singleton_append] at hloop
      have htoks : printParams (p :: q :: ps) ++ .op .colon :: rest =
          .name p.name :: .op .comma :: (printParams (q :: ps) ++ .op .colon :: rest) := by
        simp [printParams]
      simp only [htoks,parseParams]
      simp [hread,← hp,hloop]

private theorem Parsed.of_reads (h : Printable e) (hlevel : level e = l)
    (hl : l < 5 ∨ 10 < l ∧ l < 14) (hreads : ∀ rest, Stops l rest →
      Runs (parserAt G l) (printExpr e ++ rest) (e, rest)) : Parsed G e := by
  have hown : ownLevel e = l := by
    rw [ownLevel,hlevel]
    omega
  apply Parsed.of_own h (hown ▸ hreads)
  · intro h₁ h₂
    omega
  · intro h
    omega

private theorem Parsed.of_posts (h : Printable e) (hlevel : 14 ≤ level e)
    (hpost : ∀ rest r, Runs (fun n => postfixLoop G n e) rest r →
      Runs (parsePostfix G) (printExpr e ++ rest) r) : Parsed G e := by
  have hown : ownLevel e = 14 := Nat.min_eq_right hlevel
  apply Parsed.of_own h
  · intro rest hstop
    rw [hown] at hstop ⊢
    exact hpost rest _ (post_end hstop)
  · intro _ h₂
    omega
  · intro _
    exact hpost

private theorem Parsed.of_atom (h : Printable e) (hlevel : 14 ≤ level e)
    (hatom : ∀ n rest, parseAtom G (n + 1) (printExpr e ++ rest) = .ok (e, rest)) :
    Parsed G e := by
  apply Parsed.of_posts h hlevel
  intro rest r hloop
  exact post_start (Runs.succ fun n => hatom n rest) hloop

/-- A left-associative operator: the left operand is read by the same level, the right one by
the next. -/
theorem Parsed.binOp {l r : Expr} (h : Printable (.binOp l op r)) (hop : op ≠ .pow)
    (hl : Parsed G l) (hr : Parsed G r) : Parsed G (.binOp l op r) := by
  have h₁ : 5 ≤ binLevelOf op := by cases op <;> simp [binLevelOf] at hop ⊢
  have h₂ : binLevelOf op ≤ 10 := by cases op <;> simp [binLevelOf] at hop ⊢
  have hleft : leftLevel op = binLevelOf op := by cases op <;> simp [leftLevel] at hop ⊢
  have hright : rightLevel op = binLevelOf op + 1 := by cases op <;> simp [rightLevel] at hop ⊢
  have hcont : contLevel (.op (binTok op)) = some (binLevelOf op) := by
    cases op <;> simp [binTok,contLevel,binLevelOf] at hop ⊢
  have hops : opsAt (binLevelOf op) (binTok op) = some op := by
    cases op <;> first | rfl | exact absurd rfl hop
  have hown : ownLevel (.binOp l op r) = binLevelOf op := Nat.min_eq_left (by simp [level]; omega)
  -- the operator ends the operand of the next level, not the chain
  have hchain : ∀ rest res, Stops (binLevelOf op + 1) rest →
      LoopRuns (loopAt G (binLevelOf op) (.binOp l op r)) rest res →
      Runs (parserAt G (binLevelOf op)) (printExpr (.binOp l op r) ++ rest) res := by
    intro rest res hstop hloop
    have hread := hr.reads (binLevelOf op + 1) (by omega) rest hstop
    have hstep := chain_step hops hread hloop
    have hstop' : Stops (binLevelOf op + 1)
        (.op (binTok op) :: (atLevel (binLevelOf op + 1) (level r) (printExpr r) ++ rest)) := by
      apply Stops.cons
      intro k hk
      rw [hcont] at hk
      cases hk
      exact Nat.lt_succ_self _
    have hall := hl.chains (binLevelOf op) h₁ h₂ _ res hstop' hstep
    rw [printExpr,hleft,hright,List.append_assoc]
    exact hall
  apply Parsed.of_own h
  · intro rest hstop
    rw [hown] at hstop ⊢
    exact hchain rest _ (hstop.mono (Nat.le_succ _)) (chain_end h₁ h₂ hstop)
  · intro _ _
    exact hchain
  · intro h
    simp only [level] at h
    omega

private theorem Parsed.pow {l r : Expr} (h : Printable (.binOp l .pow r)) (hl : Parsed G l)
    (hr : Parsed G r) : Parsed G (.binOp l .pow r) := by
  apply Parsed.of_reads (l := 12) h rfl (by decide)
  intro rest hstop
  -- no token continues a unary factor itself
  have hstop' : Stops 11 rest := by
    intro t ht k hk
    have hlt := hstop t ht k hk
    have hne : k ≠ 11 := by
      rintro rfl
      cases t with
      | op o => cases o <;> simp [contLevel] at hk
      | kw w => cases w <;> simp [contLevel] at hk
      | _ => simp [contLevel] at hk
    omega
  have hl := hl.reads 13 (by decide) (.op .starstar :: (atLevel 11 (level r) (printExpr r) ++ rest))
    (Stops.cons (by simp [contLevel]))
  refine Runs.step₂ hl (hr.reads 11 (by decide) rest hstop') fun n hleft hright => ?_
  simp only [parserAt] at hleft hright ⊢
  rw [printExpr,List.append_assoc]
  simp only [leftLevel,rightLevel,binTok,List.cons_append]
  simp [parsePower,hleft,hright]

private theorem Parsed.not (h : Printable x) (hx : Parsed G x) : Parsed G (.unaryOp .not x) := by
  apply Parsed.of_reads (e := .unaryOp .not x) (l := 3) h rfl (by decide)
  intro rest hstop
  refine Runs.step (hx.reads 3 (by decide) rest hstop) fun n hread => ?_
  rw [printExpr,List.cons_append]
  simp only [parserAt] at hread ⊢
  simp [parseNot,hread]

private theorem Parsed.unary {op : UnaryKind} (hlevel : level (.unaryOp op x) = 11)
    (ho : factorOps o = some op)
    (hprint : printExpr (.unaryOp op x) = .op o :: atLevel 11 (level x) (printExpr x))
    (h : Printable x) (hx : Parsed G x) : Parsed G (.unaryOp op x) := by
  apply Parsed.of_reads (e := .unaryOp op x) h hlevel (by decide)
  intro rest hstop
  refine Runs.step (hx.reads 11 (by decide) rest hstop) fun n hread => ?_
  rw [hprint,List.cons_append]
  simp only [parserAt] at hread ⊢
  simp [parseFactor,ho,hread]

theorem Parsed.boolOp {kind : BoolKind} {w : Expr} (h : Printable (.boolOp kind (v :: w :: vs)))
    (hvs : ∀ u ∈ v :: w :: vs, Parsed G u) : Parsed G (.boolOp kind (v :: w :: vs)) := by
  cases kind with
  | and =>
    apply Parsed.of_reads (l := 2) h rfl (by decide)
    intro rest hstop
    rw [printExpr]
    exact boolLevel_runs (l := 2) (by decide) rfl (fun n toks => rfl) hvs hstop
  | or =>
    apply Parsed.of_reads (l := 1) h rfl (by decide)
    intro rest hstop
    rw [printExpr]
    exact boolLevel_runs (l := 1) (by decide) rfl (fun n toks => rfl) hvs hstop

private theorem Parsed.compare {l : Expr} {ops : List CmpKind} {rs : List Expr}
    (h : Printable (.compare l ops rs)) (hl : Parsed G l) (hrs : ∀ r ∈ rs, Parsed G r) :
    Parsed G (.compare l ops rs) := by
  apply Parsed.of_reads (l := 4) h rfl (by decide)
  obtain ⟨-,hlen,hne,hall⟩ := h
  intro rest hstop
  refine Runs.step₂ (hl.reads 5 (by decide) _ (stops_printRights ops rs hstop))
    (cmpLoop_runs hlen hall.mem hrs hstop).diag fun n hleft hloop => ?_
  have hops : ops ≠ [] := by
    rintro rfl
    exact hne (List.length_eq_zero_iff.mp hlen.symm)
  rw [printExpr,List.append_assoc]
  simp only [parserAt] at hleft hloop ⊢
  simp [parseComparison,hleft,hloop,hops]

theorem Parsed.ifExp {c t : Expr} (h : Printable (.ifExp c t e)) (hc : Parsed G c) (ht : Parsed G t) (he : Parsed G e) :
    Parsed G (.ifExp c t e) := by
  apply Parsed.of_reads (l := 0) h rfl (by decide)
  intro rest hstop
  have hstop₁ : Stops 1 (.kw .kIf :: (atLevel 1 (level c) (printExpr c) ++
      .kw .kElse :: (printExpr e ++ rest))) := Stops.cons (by simp [contLevel])
  have hstop₂ : Stops 1 (.kw .kElse :: (printExpr e ++ rest)) :=
    Stops.cons (by simp [contLevel])
  refine Runs.step₂ (Runs.both (ht.reads 1 (by decide) _ hstop₁) (hc.reads 1 (by decide) _ hstop₂))
    (he.test hstop) fun n hboth helse => ?_
  obtain ⟨hthen,hcond⟩ := Prod.mk.inj hboth
  have hlam := ((starts_atLevel (l := 1) (by decide) (starts_printExpr t h.2.1)).append (.kw .kIf ::
    (atLevel 1 (level c) (printExpr c) ++ .kw .kElse :: (printExpr e ++ rest)))).isKw
    (w := .kLambda) (by simp [startLevel])
  have htoks : printExpr (.ifExp c t e) ++ rest = atLevel 1 (level t) (printExpr t) ++
      .kw .kIf :: (atLevel 1 (level c) (printExpr c) ++ .kw .kElse :: (printExpr e ++ rest)) := by
    simp [printExpr]
  rw [htoks]
  simp only [parserAt] at hthen hcond ⊢
  simp [parseTest,hlam,hthen,hcond,helse]

private theorem Parsed.lambda {ps : List Param} {body : Expr} (h : Printable (.lambda ps body))
    (hbody : Parsed G body) : Parsed G (.lambda ps body) := by
  apply Parsed.of_reads (l := 0) h rfl (by decide)
  intro rest hstop
  have hparams : Runs (fun n => parseParams G .colon n {})
      (printParams ps ++ .op .colon :: (printExpr body ++ rest))
      (ps, .op .colon :: (printExpr body ++ rest)) :=
    parseParams_runs h.1.1 _ rfl rfl rfl rfl h.1.2
  have hlambda : Runs (parseLambda G) (printParams ps ++ .op .colon :: (printExpr body ++ rest))
      (.lambda ps body, rest) :=
    Runs.step₂ hparams (hbody.test hstop) fun n hread htest => by
      simp [parseLambda,hread,wantOp,htest]
  refine Runs.step hlambda fun n hread => ?_
  have htoks : printExpr (.lambda ps body) ++ rest =
      .kw .kLambda :: (printParams ps ++ .op .colon :: (printExpr body ++ rest)) := by
    simp [printExpr]
  rw [htoks]
  simp only [parserAt]
  simp [parseTest,hread]

private theorem Parsed.await (h : Printable x) (hx : Parsed G x) : Parsed G (.await x) := by
  apply Parsed.of_reads (e := .await x) (l := 13) h rfl (by decide)
  intro rest hstop
  refine Runs.step (hx.reads 14 (by decide) rest (hstop.mono (by decide))) fun n hread => ?_
  rw [printExpr,List.cons_append]
  simp only [parserAt] at hread ⊢
  simp [parseAwaitPrimary,hread]

private theorem Parsed.attribute {name : String} (h : Printable x) (hx : Parsed G x) :
    Parsed G (.attribute x name) := by
  apply Parsed.of_posts (e := .attribute x name) h (by simp [level])
  intro rest r hloop
  rw [printExpr,List.append_assoc]
  exact hx.posts _ r (post_attribute hloop)

private theorem Parsed.subscript {i : Expr} (h : Printable (.subscript x i)) (hx : Parsed G x)
    (hi : Parsed G i) : Parsed G (.subscript x i) := by
  apply Parsed.of_posts h (by simp [level])
  intro rest r hloop
  have hindex : Runs (parseTest G) (printExpr i ++ .op .rbracket :: rest)
      (i, .op .rbracket :: rest) := hi.test (Stops.cons (by simp [contLevel]))
  have htoks : printExpr (.subscript x i) ++ rest = atLevel 14 (level x) (printExpr x) ++
      .op .lbracket :: (printExpr i ++ .op .rbracket :: rest) := by
    simp [printExpr]
  rw [htoks]
  exact hx.posts _ r (post_subscript (((starts_printExpr i h.2).mono (Nat.zero_le _)).append _)
    hindex hloop)

private theorem Parsed.call {f : Expr} (h : Printable (.call f args)) (hf : Parsed G f)
    (hargs : ArgsParsed G args) : Parsed G (.call f args) := by
  apply Parsed.of_posts h (by simp [level])
  intro rest r hloop
  have htoks : printExpr (.call f args) ++ rest = atLevel 14 (level f) (printExpr f) ++
      .op .lpar :: (printArgs args ++ .op .rpar :: rest) := by
    simp [printExpr]
  rw [htoks]
  exact hf.posts _ r (post_call (parseCall_runs hargs rest) hloop)

/-! ## The round trip -/

mutual
private theorem parsed_printable : ∀ e : Expr, Printable e → Parsed G e
  | .name x, h => Parsed.of_atom h (by simp [level]) fun n rest => by simp [printExpr,parseAtom]
  | .intLit v, h => Parsed.of_atom h (by simp [level]) fun n rest => by simp [printExpr,parseAtom]
  | .binOp l op r, h => by
    have hl := parsed_printable l h.1
    have hr := parsed_printable r h.2
    by_cases hop : op = .pow
    · subst hop
      exact Parsed.pow h hl hr
    · exact Parsed.binOp h hop hl hr
  | .unaryOp .not x, h => Parsed.not h (parsed_printable x h)
  | .unaryOp .neg x, h =>
    Parsed.unary (o := .minus) rfl rfl (by simp [printExpr,unaryTok]) h (parsed_printable x h)
  | .unaryOp .pos x, h =>
    Parsed.unary (o := .plus) rfl rfl (by simp [printExpr,unaryTok]) h (parsed_printable x h)
  | .unaryOp .invert x, h =>
    Parsed.unary (o := .tilde) rfl rfl (by simp [printExpr,unaryTok]) h (parsed_printable x h)
  | .boolOp _ [], h => by simp [Printable] at h
  | .boolOp _ [_], h => by simp [Printable] at h
  | .boolOp kind (v :: w :: vs), h => Parsed.boolOp h (parsed_all (v :: w :: vs) h.2)
  | .compare l ops rs, h =>
    Parsed.compare h (parsed_printable l h.1) (parsed_all rs h.2.2.2)
  | .ifExp c t e, h =>
    Parsed.ifExp h (parsed_printable c h.1) (parsed_printable t h.2.1) (parsed_printable e h.2.2)
  | .lambda _ body, h => Parsed.lambda h (parsed_printable body h.2)
  | .await x, h => Parsed.await h (parsed_printable x h)
  | .attribute x _, h => Parsed.attribute h (parsed_printable x h)
  | .subscript x i, h => Parsed.subscript h (parsed_printable x h.1) (parsed_printable i h.2)
  | .call f args, h => Parsed.call h (parsed_printable f h.1) (parsed_args args h.2)

theorem parsed_all : ∀ vs : List Expr, PrintableAll vs → ∀ v ∈ vs, Parsed G v
  | [], _ => by simp
  | v :: vs, h => by
    have hv := parsed_printable v h.1
    have hvs := parsed_all vs h.2
    simpa using ⟨hv,hvs⟩

theorem parsed_args : ∀ args : List Arg, PrintableArgs args → ArgsParsed G args
  | [], _ => by simp [ArgsParsed]
  | .mk name star v :: args, h => by
    obtain ⟨rfl,rfl,hprint,hrest⟩ := h
    have hv := parsed_printable v hprint
    have hargs := parsed_args args hrest
    intro a ha
    rcases List.mem_cons.mp ha with rfl | ha
    · exact ⟨rfl,hv,(starts_printExpr v hprint).mono (Nat.zero_le _)⟩
    · exact hargs a ha
end

end Ladder

/-- The expression parser inverts printing: on the printed tokens of an expression `parseTest`
succeeds, consumes all of them and returns the expression. -/
theorem parseTest_printExpr (G : OtherForms) (e : Expr) (h : Printable e) :
    ∃ k, ∀ n, k ≤ n → parseTest G n (printExpr e ++ [.eof]) = .ok (e, [.eof]) :=
  (parsed_printable e h).test (Stops.cons (by simp [contLevel]))

def ladderOnly : OtherForms where
  atom _ := errf "invalid syntax"
  compClauses _ := errf "invalid syntax"
  validateComp _ := .ok ()
  parseYield _ := errf "invalid syntax"

/-- `(-x) ** -2 if not (a or b) < c <= 1 else lambda p, q: (await f)(p, q)[0].y` -/
def mixedExpr : Expr :=
  .ifExp
    (.unaryOp .not (.compare (.boolOp .or [.name "a", .name "b"]) [.lt, .le]
      [.name "c", .intLit 1]))
    (.binOp (.unaryOp .neg (.name "x")) .pow (.unaryOp .neg (.intLit 2)))
    (.lambda [.mk "p" .plain none none, .mk "q" .plain none none]
      (.attribute (.subscript (.call (.await (.name "f"))
        [.mk "" 0 (.name "p"), .mk "" 0 (.name "q")]) (.intLit 0)) "y"))

theorem mixedExpr_parsed : Printable mixedExpr ∧
    ∃ k, ∀ n, k ≤ n → parseTest ladderOnly n (printExpr mixedExpr ++ [.eof]) =
      .ok (mixedExpr, [.eof]) := by
  have h : Printable mixedExpr := by
    simp [mixedExpr,Printable,PrintableAll,PrintableArgs,PlainParams,Param.name]
  exact ⟨h,parseTest_printExpr ladderOnly mixedExpr h⟩

example : printExpr mixedExpr =
    [.op .lpar, .op .minus, .name "x", .op .rpar, .op .starstar, .op .minus, .int 2, .kw .kIf,
      .kw .kNot, .op .lpar, .name "a", .kw .kOr, .name "b", .op .rpar, .op .lt, .name "c",
      .op .le, .int 1, .kw .kElse, .kw .kLambda, .name "p", .op .comma, .name "q", .op .colon,
      .op .lpar, .kw .kAwait, .name "f", .op .rpar, .op .lpar, .name "p", .op .comma, .name "q",
      .op .rpar, .op .lbracket, .int 0, .op .rbracket, .op .dot, .name "y"] := by
  simp [mixedExpr,printExpr,printJoined,printRights,printArgs,printParams,atLevel,level,
    leftLevel,rightLevel,binLevelOf,binTok,unaryTok,cmpToks,Param.name]

end Unagi.Frontend
