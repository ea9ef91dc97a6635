import Unagi.Frontend.Ast

/-! # The expression parser

The recursive-descent ladder of `pkg/frontend/parser.go` from `parseTest` down to the atoms,
over the tokens that are left. A parser is bounded by the number of calls it may nest; source
positions are left out. What the ladder does not go through itself, the other atoms and the
comprehension clauses, is a parameter. -/

namespace Unagi.Frontend

inductive Kw
  | kLambda | kIf | kElse | kOr | kAnd | kNot | kIs | kIn | kAwait | kFor | kAsync | kYield
  | kTrue | kFalse | kNone
  | kOther (text : String)
  deriving DecidableEq, Repr

inductive OpTok
  | lpar | rpar | lbracket | rbracket | lbrace | rbrace | comma | colon | dot | assign | walrus
  | plus | minus | star | slash | slash2 | percent | at | starstar | bar | caret | amp | shl | shr
  | tilde | eq | ne | lt | le | gt | ge | ellipsis
  | other (text : String)
  deriving DecidableEq, Repr

inductive Tok
  | name (text : String)
  | int (value : Nat)
  | kw (k : Kw)
  | op (o : OpTok)
  | eof
  | other (kind : Nat) (text : String)
  deriving DecidableEq, Repr

inductive ParseError
  | syntaxError (msg : String)
  | outOfFuel
  deriving DecidableEq, Repr

abbrev P (α : Type) := List Tok → Except ParseError (α × List Tok)
def errf {α : Type} (msg : String) : Except ParseError α := .error (.syntaxError msg)

def opText : OpTok → String
  | .lpar => "(" | .rpar => ")" | .lbracket => "[" | .rbracket => "]" | .lbrace => "\x7b"
  | .rbrace => "\x7d" | .comma => "," | .colon => ":" | .dot => "." | .assign => "="
  | .walrus => ":=" | .plus => "+" | .minus => "-" | .star => "*" | .slash => "/"
  | .slash2 => "//" | .percent => "%" | .at => "@" | .starstar => "**" | .bar => "|"
  | .caret => "^" | .amp => "&" | .shl => "<<" | .shr => ">>" | .tilde => "~" | .eq => "=="
  | .ne => "!=" | .lt => "<" | .le => "<=" | .gt => ">" | .ge => ">=" | .ellipsis => "..."
  | .other text => text

def isOp (o : OpTok) (toks : List Tok) : Bool := toks.head? = some (.op o)
def isKw (k : Kw) (toks : List Tok) : Bool := toks.head? = some (.kw k)

section Heads
variable {o : OpTok} {w : Kw} {rest : List Tok}

@[simp] theorem isOp_op (o' : OpTok) : isOp o (.op o' :: rest) = decide (o' = o) := by simp [isOp]
@[simp] theorem isOp_kw (w : Kw) : isOp o (.kw w :: rest) = false := by simp [isOp]
@[simp] theorem isOp_name (x : String) : isOp o (.name x :: rest) = false := by simp [isOp]
@[simp] theorem isKw_kw (w' : Kw) : isKw w (.kw w' :: rest) = decide (w' = w) := by simp [isKw]
@[simp] theorem isKw_op (o : OpTok) : isKw w (.op o :: rest) = false := by simp [isKw]

end Heads

def isAsyncFor (toks : List Tok) : Bool := isKw .kAsync toks && isKw .kFor toks.tail
def wantOp (o : OpTok) (toks : List Tok) : Except ParseError (List Tok) :=
  if isOp o toks then .ok toks.tail else errf ("expected '" ++ opText o ++ "'")

def leftAssoc (opOf : OpTok → Option BinKind) (operand : P Expr) : Nat → Expr → P Expr
  | 0, _, _ => .error .outOfFuel
  | n + 1, e, toks =>
    match toks with
    | .op o :: rest =>
      match opOf o with
      | none => .ok (e, toks)
      | some k => do
        let (r, rest) ← operand rest
        leftAssoc opOf operand n (.binOp e k r) rest
    | _ => .ok (e, toks)

/-- A left-associative level over the next one. -/
def binLevel (opOf : OpTok → Option BinKind) (operand : P Expr) (n : Nat) : P Expr := fun toks => do
  let (e, rest) ← operand toks
  leftAssoc opOf operand n e rest

def boolLoop (k : Kw) (operand : P Expr) : Nat → P (List Expr)
  | 0, _ => .error .outOfFuel
  | n + 1, toks =>
    if isKw k toks then do
      let (v, rest) ← operand toks.tail
      let (vs, rest) ← boolLoop k operand n rest
      .ok (v :: vs, rest)
    else .ok ([], toks)

def boolLevel (kind : BoolKind) (k : Kw) (operand : P Expr) (n : Nat) : P Expr := fun toks => do
  let (e, rest) ← operand toks
  if isKw k rest then do
    let (vs, rest) ← boolLoop k operand n rest
    .ok (.boolOp kind (e :: vs), rest)
  else .ok (e, rest)

def cmpOps : OpTok → Option CmpKind
  | .eq => some .eq
  | .ne => some .ne
  | .lt => some .lt
  | .le => some .le
  | .gt => some .gt
  | .ge => some .ge
  | _ => none

def cmpOpAt (toks : List Tok) : Except ParseError (Option CmpKind × List Tok) :=
  match toks with
  | .op o :: rest =>
    match cmpOps o with
    | some k => .ok (some k, rest)
    | none => .ok (none, toks)
  | .kw .kIn :: rest => .ok (some .isIn, rest)
  | .kw .kNot :: rest => if isKw .kIn rest then .ok (some .notIn, rest.tail) else errf "invalid syntax"
  | .kw .kIs :: rest => if isKw .kNot rest then .ok (some .isNot, rest.tail) else .ok (some .is, rest)
  | _ => .ok (none, toks)

def cmpLoop (operand : P Expr) : Nat → P (List CmpKind × List Expr)
  | 0, _ => .error .outOfFuel
  | n + 1, toks => do
    let (op, rest) ← cmpOpAt toks
    match op with
    | none => .ok (([], []), rest)
    | some k =>
      let (r, rest) ← operand rest
      let ((ops, rs), rest) ← cmpLoop operand n rest
      .ok ((k :: ops, r :: rs), rest)

def bitOrOps : OpTok → Option BinKind
  | .bar => some .bitOr
  | _ => none
def bitXorOps : OpTok → Option BinKind
  | .caret => some .bitXor
  | _ => none
def bitAndOps : OpTok → Option BinKind
  | .amp => some .bitAnd
  | _ => none

def shiftOps : OpTok → Option BinKind
  | .shl => some .lShift
  | .shr => some .rShift
  | _ => none
def arithOps : OpTok → Option BinKind
  | .plus => some .add
  | .minus => some .sub
  | _ => none

def termOps : OpTok → Option BinKind
  | .star => some .mul
  | .slash => some .div
  | .slash2 => some .floorDiv
  | .percent => some .mod
  | .at => some .matMul
  | _ => none

def factorOps : OpTok → Option UnaryKind
  | .plus => some .pos
  | .minus => some .neg
  | .tilde => some .invert
  | _ => none

structure ParamState where
  params : List Param := []
  seenDefault : Bool := false
  slashSeen : Bool := false
  starSeen : Bool := false
  starstarSeen : Bool := false
  bareStar : Bool := false
  kind : ParamKind := .plain

def ParamState.add (st : ParamState) (x : String) (kind : ParamKind) (ann dflt : Option Expr) :
    Except ParseError ParamState :=
  if st.params.any fun p => p.name = x then
    errf ("duplicate argument '" ++ x ++ "' in function definition")
  else .ok { st with params := st.params ++ [.mk x kind ann dflt] }

def ParamState.slash (st : ParamState) (atEnd : Bool) : Except ParseError ParamState :=
  if st.slashSeen then errf "/ may appear only once"
  else if st.starSeen then errf "/ must be ahead of *"
  else if st.params.isEmpty then
    if atEnd then errf "invalid syntax" else errf "at least one argument must precede /"
  else
    .ok { st with
      slashSeen := true
      params := st.params.map fun p => .mk p.name .posOnly p.ann p.dflt }

def ParamState.named (st : ParamState) (x : String) (ann dflt : Option Expr) :
    Except ParseError ParamState :=
  if st.kind = .kwOnly then { st with bareStar := false }.add x st.kind ann dflt
  else if dflt.isSome then { st with seenDefault := true }.add x st.kind ann dflt
  else if st.seenDefault then
    errf "parameter without a default follows parameter with a default"
  else st.add x st.kind ann dflt

def walrusMessage : Expr → String
  | .name _ => "cannot use assignment expressions with name"
  | .attribute _ _ => "cannot use assignment expressions with attribute"
  | .subscript _ _ => "cannot use assignment expressions with subscript"
  | .call _ _ => "cannot use assignment expressions with function call"
  | .tupleLit _ => "cannot use assignment expressions with tuple"
  | .listLit _ => "cannot use assignment expressions with list"
  | .dictLit _ _ => "cannot use assignment expressions with dict literal"
  | .setLit _ => "cannot use assignment expressions with set display"
  | .fStr _ | .tStr _ => "cannot use assignment expressions with f-string expression"
  | .intLit _ | .floatLit _ | .imagLit _ | .strLit _ =>
    "cannot use assignment expressions with literal"
  | .boolLit true => "cannot use assignment expressions with True"
  | .boolLit false => "cannot use assignment expressions with False"
  | .noneLit => "cannot use assignment expressions with None"
  | _ => "cannot use assignment expressions with expression"

/-! ## The ladder -/

/-- The parsers the ladder calls and that are not part of it: the atoms that start with another
token, the clauses of a comprehension and their check, and a parenthesised yield. -/
structure OtherForms where
  atom : P Expr
  compClauses : P (List CompClause)
  validateComp : Expr → Except ParseError Unit
  parseYield : P Expr

structure CallState where
  args : List Arg := []
  sawKeyword : Bool := false
  sawKwUnpack : Bool := false
  kwSeen : List String := []

mutual
def parseTest (G : OtherForms) : Nat → P Expr
  | 0, _ => .error .outOfFuel
  | n + 1, toks =>
    if isKw .kLambda toks then parseLambda G n toks.tail
    else do
      let (e, rest) ← parseOr G n toks
      if isKw .kIf rest then do
        let (cond, rest) ← parseOr G n rest.tail
        if isKw .kElse rest then do
          let (els, rest) ← parseTest G n rest.tail
          .ok (.ifExp cond e els, rest)
        else errf "expected 'else' after 'if' expression"
      else .ok (e, rest)

def parseLambda (G : OtherForms) : Nat → P Expr
  | 0, _ => .error .outOfFuel
  | n + 1, toks => do
    let (params, rest) ← parseParams G .colon n {} toks
    let rest ← wantOp .colon rest
    let (body, rest) ← parseTest G n rest
    .ok (.lambda params body, rest)

def parseAnnotation (G : OtherForms) (close : OpTok) : Nat → P (Option Expr)
  | 0, _ => .error .outOfFuel
  | n + 1, toks =>
    if close ≠ .colon ∧ isOp .colon toks then do
      let (ann, rest) ← parseTest G n toks.tail
      .ok (some ann, rest)
    else .ok (none, toks)

def parseParams (G : OtherForms) (close : OpTok) : Nat → ParamState → P (List Param)
  | 0, _, _ => .error .outOfFuel
  | n + 1, st, toks =>
    if isOp close toks then
      if st.bareStar then errf "named arguments must follow bare *" else .ok (st.params, toks)
    else do
      let (st, rest) ← parseParam G close n st toks
      if isOp .comma rest then parseParams G close n st rest.tail
      else if st.bareStar then errf "named arguments must follow bare *"
      else .ok (st.params, rest)

def parseParam (G : OtherForms) (close : OpTok) : Nat → ParamState → P ParamState
  | 0, _, _ => .error .outOfFuel
  | n + 1, st, toks =>
    if st.starstarSeen then errf "arguments cannot follow var-keyword argument"
    else
      match toks with
      | .op .slash :: rest => do
        let st ← st.slash (isOp close rest)
        .ok (st, rest)
      | .op .star :: rest =>
        if st.starSeen then errf "* argument may appear only once"
        else
          match rest with
          | .name x :: rest => do
            let (ann, rest) ← parseAnnotation G close n rest
            if isOp .assign rest then errf "var-positional argument cannot have default value"
            else do
              let st ← { st with starSeen := true, kind := .kwOnly }.add x .star ann none
              .ok (st, rest)
          | _ => .ok ({ st with starSeen := true, kind := .kwOnly, bareStar := true }, rest)
      | .op .starstar :: rest =>
        if st.bareStar then errf "named arguments must follow bare *"
        else
          match rest with
          | .name x :: rest => do
            let (ann, rest) ← parseAnnotation G close n rest
            if isOp .assign rest then errf "var-keyword argument cannot have default value"
            else do
              let st ← st.add x .starStar ann none
              .ok ({ st with starstarSeen := true }, rest)
          | _ => errf "expected parameter name"
      | .name x :: rest => do
        let (ann, rest) ← parseAnnotation G close n rest
        if isOp .assign rest then do
          let (dflt, rest) ← parseTest G n rest.tail
          let st ← st.named x ann (some dflt)
          .ok (st, rest)
        else do
          let st ← st.named x ann none
          .ok (st, rest)
      | _ => errf "expected parameter name"

def parseNamedTest (G : OtherForms) : Nat → P Expr
  | 0, _ => .error .outOfFuel
  | n + 1, toks => do
    let (e, rest) ← parseTest G n toks
    if isOp .walrus rest then
      match e with
      | .name x =>
        -- the target is bare when it took a single token
        if rest.length + 1 = toks.length then do
          let (v, rest) ← parseTest G n rest.tail
          if isOp .walrus rest then errf "invalid syntax" else .ok (.namedExpr x v, rest)
        else errf (walrusMessage e)
      | _ => errf (walrusMessage e)
    else .ok (e, rest)

def parseOr (G : OtherForms) : Nat → P Expr
  | 0, _ => .error .outOfFuel
  | n + 1, toks => boolLevel .or .kOr (parseAnd G n) n toks
def parseAnd (G : OtherForms) : Nat → P Expr
  | 0, _ => .error .outOfFuel
  | n + 1, toks => boolLevel .and .kAnd (parseNot G n) n toks

def parseNot (G : OtherForms) : Nat → P Expr
  | 0, _ => .error .outOfFuel
  | n + 1, toks =>
    if isKw .kNot toks then do
      let (x, rest) ← parseNot G n toks.tail
      .ok (.unaryOp .not x, rest)
    else parseComparison G n toks

def parseComparison (G : OtherForms) : Nat → P Expr
  | 0, _ => .error .outOfFuel
  | n + 1, toks => do
    let (left, rest) ← parseBitOr G n toks
    let ((ops, rights), rest) ← cmpLoop (parseBitOr G n) n rest
    if ops.isEmpty then .ok (left, rest) else .ok (.compare left ops rights, rest)

def parseBitOr (G : OtherForms) : Nat → P Expr
  | 0, _ => .error .outOfFuel
  | n + 1, toks => binLevel bitOrOps (parseBitXor G n) n toks
def parseBitXor (G : OtherForms) : Nat → P Expr
  | 0, _ => .error .outOfFuel
  | n + 1, toks => binLevel bitXorOps (parseBitAnd G n) n toks
def parseBitAnd (G : OtherForms) : Nat → P Expr
  | 0, _ => .error .outOfFuel
  | n + 1, toks => binLevel bitAndOps (parseShift G n) n toks
def parseShift (G : OtherForms) : Nat → P Expr
  | 0, _ => .error .outOfFuel
  | n + 1, toks => binLevel shiftOps (parseArith G n) n toks
def parseArith (G : OtherForms) : Nat → P Expr
  | 0, _ => .error .outOfFuel
  | n + 1, toks => binLevel arithOps (parseTerm G n) n toks
def parseTerm (G : OtherForms) : Nat → P Expr
  | 0, _ => .error .outOfFuel
  | n + 1, toks => binLevel termOps (parseFactor G n) n toks

def parseFactor (G : OtherForms) : Nat → P Expr
  | 0, _ => .error .outOfFuel
  | n + 1, toks =>
    match toks with
    | .op o :: rest =>
      match factorOps o with
      | some k => do
        let (x, rest) ← parseFactor G n rest
        .ok (.unaryOp k x, rest)
      | none => parsePower G n toks
    | _ => parsePower G n toks

def parsePower (G : OtherForms) : Nat → P Expr
  | 0, _ => .error .outOfFuel
  | n + 1, toks => do
    let (e, rest) ← parseAwaitPrimary G n toks
    if isOp .starstar rest then do
      let (r, rest) ← parseFactor G n rest.tail
      .ok (.binOp e .pow r, rest)
    else .ok (e, rest)

def parseAwaitPrimary (G : OtherForms) : Nat → P Expr
  | 0, _ => .error .outOfFuel
  | n + 1, toks =>
    if isKw .kAwait toks then do
      let (x, rest) ← parsePostfix G n toks.tail
      .ok (.await x, rest)
    else parsePostfix G n toks

def parsePostfix (G : OtherForms) : Nat → P Expr
  | 0, _ => .error .outOfFuel
  | n + 1, toks => do
    let (e, rest) ← parseAtom G n toks
    postfixLoop G n e rest

def postfixLoop (G : OtherForms) : Nat → Expr → P Expr
  | 0, _, _ => .error .outOfFuel
  | n + 1, e, toks =>
    match toks with
    | .op .lpar :: rest => do
      let (args, rest) ← parseCall G n rest
      postfixLoop G n (.call e args) rest
    | .op .dot :: rest =>
      match rest with
      | .name x :: rest => postfixLoop G n (.attribute e x) rest
      | _ => errf "expected attribute name after '.'"
    | .op .lbracket :: rest => do
      let (index, rest) ← parseIndex G n rest
      let rest ← wantOp .rbracket rest
      postfixLoop G n (.subscript e index) rest
    | _ => .ok (e, toks)

def parseIndex (G : OtherForms) : Nat → P Expr
  | 0, _ => .error .outOfFuel
  | n + 1, toks =>
    if isOp .rbracket toks then errf "invalid syntax"
    else if isOp .colon toks then parseSlice G n none toks
    else do
      let (first, rest) ← parseTest G n toks
      if isOp .colon rest then parseSlice G n (some first) rest
      else if isOp .comma rest then do
        let (elts, rest) ← parseIndexTuple G n rest
        .ok (.tupleLit (first :: elts), rest)
      else .ok (first, rest)

def parseIndexTuple (G : OtherForms) : Nat → P (List Expr)
  | 0, _ => .error .outOfFuel
  | n + 1, toks =>
    if isOp .comma toks then
      if isOp .rbracket toks.tail then .ok ([], toks.tail)
      else do
        let (e, rest) ← parseTest G n toks.tail
        if isOp .colon rest then errf "tuples of slices are not supported yet"
        else do
          let (es, rest) ← parseIndexTuple G n rest
          .ok (e :: es, rest)
    else .ok ([], toks)

def parseSlice (G : OtherForms) : Nat → Option Expr → P Expr
  | 0, _, _ => .error .outOfFuel
  | n + 1, lo, toks => do
    let rest ← wantOp .colon toks
    let (hi, rest) ←
      if isOp .colon rest || isOp .rbracket rest || isOp .comma rest then .ok (none, rest)
      else do
        let (e, rest) ← parseTest G n rest
        .ok (some e, rest)
    let (step, rest) ←
      if isOp .colon rest then
        if isOp .rbracket rest.tail || isOp .comma rest.tail then .ok (none, rest.tail)
        else do
          let (e, rest) ← parseTest G n rest.tail
          .ok (some e, rest)
      else .ok (none, rest)
    if isOp .comma rest then errf "tuples of slices are not supported yet"
    else .ok (.sliceExpr lo hi step, rest)

def parseCall (G : OtherForms) : Nat → P (List Arg)
  | 0, _ => .error .outOfFuel
  | n + 1, toks =>
    if isOp .rpar toks then .ok ([], toks.tail)
    else do
      let (st, rest) ← callLoop G n {} toks
      let rest ← wantOp .rpar rest
      .ok (st.args, rest)

def callLoop (G : OtherForms) : Nat → CallState → P CallState
  | 0, _, _ => .error .outOfFuel
  | n + 1, st, toks => do
    let (st, isLast, rest) ← parseArg G n st toks
    if isLast then .ok (st, rest)
    else if isOp .comma rest then
      if isOp .rpar rest.tail then .ok (st, rest.tail) else callLoop G n st rest.tail
    else .ok (st, rest)

def parseArg (G : OtherForms) : Nat → CallState → List Tok →
    Except ParseError (CallState × Bool × List Tok)
  | 0, _, _ => .error .outOfFuel
  | n + 1, st, toks =>
    if isOp .star toks then
      if st.sawKwUnpack then
        errf "iterable argument unpacking follows keyword argument unpacking"
      else if isOp .rpar toks.tail || isOp .comma toks.tail || isOp .star toks.tail ||
          isOp .starstar toks.tail then errf "Invalid star expression"
      else do
        let (v, rest) ← parseTest G n toks.tail
        .ok ({ st with args := st.args ++ [.mk "" 1 v] }, false, rest)
    else if isOp .starstar toks then do
      let (v, rest) ← parseTest G n toks.tail
      .ok ({ st with args := st.args ++ [.mk "" 2 v], sawKwUnpack := true }, false, rest)
    else do
      let (arg, rest) ← parseNamedTest G n toks
      if isOp .assign rest then
        match arg with
        | .name x =>
          if rest.length + 1 = toks.length then
            if st.kwSeen.contains x then errf ("keyword argument repeated: " ++ x)
            else do
              let (v, rest) ← parseTest G n rest.tail
              .ok ({ st with args := st.args ++ [.mk x 0 v], sawKeyword := true,
                             kwSeen := x :: st.kwSeen }, false, rest)
          else errf "expression cannot contain assignment, perhaps you meant \"==\"?"
        | _ => errf "expression cannot contain assignment, perhaps you meant \"==\"?"
      else if isKw .kFor rest || isAsyncFor rest then
        if !st.args.isEmpty || st.sawKeyword || st.sawKwUnpack then
          errf "Generator expression must be parenthesized"
        else do
          let (clauses, rest) ← G.compClauses rest
          let comp := Expr.comp .gen arg none clauses
          G.validateComp comp
          if isOp .rpar rest then .ok ({ st with args := st.args ++ [.mk "" 0 comp] }, true, rest)
          else errf "Generator expression must be parenthesized"
      else if st.sawKwUnpack then
        errf "positional argument follows keyword argument unpacking"
      else if st.sawKeyword then errf "positional argument follows keyword argument"
      else .ok ({ st with args := st.args ++ [.mk "" 0 arg] }, false, rest)

def parseAtom (G : OtherForms) : Nat → P Expr
  | 0, _ => .error .outOfFuel
  | n + 1, toks =>
    match toks with
    | .name x :: rest => .ok (.name x, rest)
    | .int v :: rest => .ok (.intLit v, rest)
    | .kw .kTrue :: rest => .ok (.boolLit true, rest)
    | .kw .kFalse :: rest => .ok (.boolLit false, rest)
    | .kw .kNone :: rest => .ok (.noneLit, rest)
    | .op .lpar :: rest => parseParen G n rest
    | .op .ellipsis :: rest => .ok (.ellipsisLit, rest)
    | .op .star :: _ => errf "starred expressions are not supported yet"
    | .op .lbracket :: _ | .op .lbrace :: _ | .other _ _ :: _ => G.atom toks
    | _ => errf "invalid syntax"

def parseParen (G : OtherForms) : Nat → P Expr
  | 0, _ => .error .outOfFuel
  | n + 1, toks =>
    if isOp .rpar toks then .ok (.tupleLit [], toks.tail)
    else if isKw .kYield toks then do
      let (y, rest) ← G.parseYield toks
      let rest ← wantOp .rpar rest
      .ok (y, rest)
    else do
      let (first, rest) ← parseStarElement G n toks
      if isKw .kFor rest || isAsyncFor rest then
        match first with
        | .starred _ => errf "iterable unpacking cannot be used in comprehension"
        | _ => do
          let (clauses, rest) ← G.compClauses rest
          let rest ← wantOp .rpar rest
          G.validateComp (.comp .gen first none clauses)
          .ok (.comp .gen first none clauses, rest)
      else if isOp .rpar rest then
        match first with
        | .starred _ => errf "cannot use starred expression here"
        | _ => .ok (first, rest.tail)
      else do
        let (elts, rest) ← parseElements G n rest
        let rest ← wantOp .rpar rest
        .ok (.tupleLit (first :: elts), rest)

def parseElements (G : OtherForms) : Nat → P (List Expr)
  | 0, _ => .error .outOfFuel
  | n + 1, toks =>
    if isOp .comma toks then
      if isOp .rpar toks.tail then .ok ([], toks.tail)
      else do
        let (e, rest) ← parseStarElement G n toks.tail
        let (es, rest) ← parseElements G n rest
        .ok (e :: es, rest)
    else .ok ([], toks)

def parseStarElement (G : OtherForms) : Nat → P Expr
  | 0, _ => .error .outOfFuel
  | n + 1, toks =>
    if isOp .star toks then do
      let (x, rest) ← parseOr G n toks.tail
      .ok (.starred x, rest)
    else parseNamedTest G n toks
end

end Unagi.Frontend
