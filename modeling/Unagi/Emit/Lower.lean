import Unagi.Emit.Ast

/-! # Lowering the scalar model to Go

The `Builder` of `pkg/emit`: expressions in `expr.go`, `cmp.go` and `call.go`,
statements in `stmt.go`, whole functions in `func.go`. Guards collect in `pre`
and are flushed ahead of the statement that produced them. -/

namespace Unagi.Emit
open Go (Ident Tok RtFn LHS)

structure ResumeFrame where
  handler : String
  args : List Go.Expr

structure Builder where
  fn : String
  params : List Ident
  ret : Repr
  deopt : String
  deoptUsed : Bool := false
  nTmp : Nat := 0
  nFlag : Nat := 0
  nErr : Nat := 0
  nDeopt : Nat := 0
  genDeopt : Bool := false
  pre : List Go.Stmt := []
  resume : List ResumeFrame := []

def Repr.zero (r : Repr) : Go.Expr :=
  match r.scalar with
  | .sFloat => .floatLit 0
  | .sInt => .intLit 0
  | .sBool => .boolLit false
  | .sStr => .strLit ""
  | .notScalar => match r.shape with
    | some s => .structLit s.name
    | none => .nil

namespace Builder

def temp (b : Builder) : Ident × Builder := (.temp b.nTmp, { b with nTmp := b.nTmp + 1 })
def flag (b : Builder) : Ident × Builder := (.flag b.nFlag, { b with nFlag := b.nFlag + 1 })
def errName (b : Builder) : Ident × Builder := (.errName b.nErr, { b with nErr := b.nErr + 1 })

def append (b : Builder) (ss : List Go.Stmt) : Builder := { b with pre := b.pre ++ ss }
def flush (b : Builder) : List Go.Stmt × Builder := (b.pre, { b with pre := [] })

def deoptEdge (b : Builder) : Go.Stmt × Builder :=
  if b.genDeopt then
    (.ret [b.ret.zero, .boolLit false, .deoptSignal], { b with deoptUsed := true })
  else match b.resume.getLast? with
    | some f => (.ret [.call (.handoff f.handler) f.args], { b with deoptUsed := true })
    | none =>
      if b.deopt ≠ "" then
        (.ret [.call (.handoff b.deopt)
            ((List.range b.params.length).map fun i => .ident (.deoptParam i))],
          { b with deoptUsed := true })
      else
        (.ret [.call (.handoff (b.fn ++ "_deopt" ++ toString b.nDeopt)) (b.params.map .ident)],
          { b with nDeopt := b.nDeopt + 1 })

def raiseIf (b : Builder) (cond : Go.Expr) (raise : RtFn) (msg : String) : Builder :=
  b.append [Go.ifStmt cond [.ret [b.ret.zero, .call (.rt raise) [.strLit msg]]]]
def guardZeroDiv (b : Builder) (divisor : Go.Expr) : Builder :=
  b.raiseIf (.binary .eql divisor (.floatLit 0)) .zeroDivisionError "division by zero"
def guardZeroDivInt (b : Builder) (divisor : Go.Expr) : Builder :=
  b.raiseIf (.binary .eql divisor (.intLit 0)) .zeroDivisionError "division by zero"
def guardNegShift (b : Builder) (count : Go.Expr) : Builder :=
  b.raiseIf (.binary .lss count (.intLit 0)) .valueError "negative shift count"

/-- The overflow-guarded form: bind value and flag through a runtime helper, and route the
raised flag to the deopt edge. -/
def checkedInt (b : Builder) (helper : RtFn) (lx rx : Go.Expr) : Go.Expr × Repr × Builder :=
  let (val, b) := b.temp
  let (ovf, b) := b.flag
  let (edge, b) := b.deoptEdge
  (.ident val, intRepr,
    b.append [.define [.var val, .var ovf] [.call (.rt helper) [lx, rx]],
      Go.ifStmt (.ident ovf) [edge]])

end Builder

def toInt (x : Go.Expr) (r : Repr) : Go.Expr :=
  if r.scalar = .sBool then .call (.rt .boolToInt) [x] else x
def toFloat (x : Go.Expr) (r : Repr) : Go.Expr :=
  match r.scalar with
  | .sInt => .call .float64 [x]
  | .sBool => .call .float64 [toInt x r]
  | _ => x

def lowerBinOp (b : Builder) (op : Op) (lx : Go.Expr) (lr : Repr) (rx : Go.Expr) (rr : Repr) :
    Except String (Go.Expr × Repr × Builder) :=
  let float := lr.scalar = .sFloat ∨ rr.scalar = .sFloat
  let refuse := Except.error s!"emit: {op.string} on a float operand is not a static operation"
  if lr.scalar = .sStr ∨ rr.scalar = .sStr then
    if op ≠ .add ∨ lr.scalar ≠ .sStr ∨ rr.scalar ≠ .sStr then
      .error s!"emit: {op.string} on strings is not a static operation"
    else .ok (.binary .add lx rx, strRepr, b)
  else if !numeric lr || !numeric rr then
    .error s!"emit: {op.string} needs numeric operands, got {lr.scalar.string} and {rr.scalar.string}"
  else match op with
  | .div =>
    let b := b.guardZeroDiv (toFloat rx rr)
    .ok (.binary .quo (toFloat lx lr) (toFloat rx rr), floatRepr, b)
  | .floorDiv =>
    if float then refuse
    else .ok ((b.guardZeroDivInt (toInt rx rr)).checkedInt .floorDivInt64 (toInt lx lr) (toInt rx rr))
  | .mod =>
    if float then refuse
    else .ok (.call (.rt .floorModInt64) [toInt lx lr, toInt rx rr], intRepr,
      b.guardZeroDivInt (toInt rx rr))
  | .pow =>
    if float then refuse else .ok (b.checkedInt .powInt64 (toInt lx lr) (toInt rx rr))
  | .bitAnd => if float then refuse else .ok (.binary .and (toInt lx lr) (toInt rx rr), intRepr, b)
  | .bitOr => if float then refuse else .ok (.binary .or (toInt lx lr) (toInt rx rr), intRepr, b)
  | .bitXor => if float then refuse else .ok (.binary .xor (toInt lx lr) (toInt rx rr), intRepr, b)
  | .lShift =>
    if float then refuse
    else .ok ((b.guardNegShift (toInt rx rr)).checkedInt .lShiftInt64 (toInt lx lr) (toInt rx rr))
  | .rShift =>
    if float then refuse
    else .ok (.call (.rt .rShiftInt64) [toInt lx lr, toInt rx rr], intRepr,
      b.guardNegShift (toInt rx rr))
  | .add =>
    if float then .ok (.binary .add (toFloat lx lr) (toFloat rx rr), floatRepr, b)
    else .ok (b.checkedInt .addInt64 (toInt lx lr) (toInt rx rr))
  | .sub =>
    if float then .ok (.binary .sub (toFloat lx lr) (toFloat rx rr), floatRepr, b)
    else .ok (b.checkedInt .subInt64 (toInt lx lr) (toInt rx rr))
  | .mul =>
    if float then .ok (.binary .mul (toFloat lx lr) (toFloat rx rr), floatRepr, b)
    else .ok (b.checkedInt .mulInt64 (toInt lx lr) (toInt rx rr))

def lowerCmpOp (op : CmpOp) (lx : Go.Expr) (lr : Repr) (rx : Go.Expr) (rr : Repr) :
    Except String Go.Expr :=
  if arith lr && arith rr then
    if lr.scalar = .sFloat ∨ rr.scalar = .sFloat then
      .ok (.binary op.tok (toFloat lx lr) (toFloat rx rr))
    else .ok (.binary op.tok lx rx)
  else if lr.scalar = .sStr ∧ rr.scalar = .sStr then .ok (.binary op.tok lx rx)
  else if lr.scalar = .sBool ∧ rr.scalar = .sBool ∧ !op.ordered then .ok (.binary op.tok lx rx)
  else .error s!"emit: {op.string} does not compare {lr.scalar.string} and {rr.scalar.string}"

def valueConnHelper (op : Tok) (s : Scalar) : Option RtFn :=
  match s with
  | .sInt => some (if op = .lor then .orInt64 else .andInt64)
  | .sFloat => some (if op = .lor then .orFloat64 else .andFloat64)
  | .sStr => some (if op = .lor then .orStr else .andStr)
  | _ => none
def connName (op : Tok) : String := if op = .lor then "or" else "and"
def parenConn (x : Go.Expr) : Go.Expr :=
  match x with
  | .binary .land _ _ | .binary .lor _ _ => .paren x
  | _ => x

/-- `lowerBoolBin` once both operands are lowered; `r` is the right operand's node. -/
def lowerConn (op : Tok) (lx : Go.Expr) (lr : Repr) (r : Expr) (rx : Go.Expr) (rr : Repr) :
    Except String (Go.Expr × Repr) :=
  if hasRaisingGuard r then
    .error s!"emit: an {connName op} operand that can raise cannot short-circuit safely in the static tier"
  else if lr.scalar = .sBool ∧ rr.scalar = .sBool then
    .ok (.binary op (parenConn lx) (parenConn rx), boolRepr)
  else
    let refuse :=
      Except.error s!"emit: a connective on {lr.scalar.string} and {rr.scalar.string} has no static value form"
    if lr.scalar = rr.scalar then
      match valueConnHelper op lr.scalar with
      | some f => .ok (.call (.rt f) [lx, rx], lr)
      | none => refuse
    else refuse

def lowerNotOp (x : Go.Expr) (xr : Repr) : Except String Go.Expr :=
  if xr.scalar ≠ .sBool then .error s!"emit: not needs a bool operand, got {xr.scalar.string}"
  else match x with
    | .binary _ _ _ => .ok (.not (.paren x))
    | _ => .ok (.not x)
def listItem (elem : Scalar) (i : Nat) (ix : Go.Expr) (ir : Repr) : Except String Go.Expr :=
  if ir.scalar = elem then .ok ix
  else if elem = .sFloat ∧ numeric ir then .ok (toFloat ix ir)
  else .error s!"emit: list item {i} has representation \"{ir.go}\", not the element type \"{elem.goText}\""

mutual
def lowerExpr (b : Builder) : Expr → Except String (Go.Expr × Repr × Builder)
  | .var name repr => .ok (.ident name, repr, b)
  | .recv name repr => .ok (.recv name, repr, b)
  | .int v => .ok (.intLit v, intRepr, b)
  | .float bits => .ok (.floatLit bits, floatRepr, b)
  | .bool v => .ok (.boolLit v, boolRepr, b)
  | .str v => .ok (.strLit v, strRepr, b)
  | .bin op l r => do
    let (lx, lr, b) ← lowerExpr b l
    let (rx, rr, b) ← lowerExpr b r
    lowerBinOp b op lx lr rx rr
  | .index base idx => do
    let (bx, br, b) ← lowerExpr b base
    match br.elem with
    | none => .error s!"emit: index base has representation \"{br.go}\", not a list"
    | some elem =>
      let (ix, ir, b) ← lowerExpr b idx
      if ir.scalar ≠ .sInt then .error s!"emit: list index has representation \"{ir.go}\", not an int"
      else
        let (base, b) := b.temp
        let (idx, b) := b.temp
        let (edge, b) := b.deoptEdge
        let oob := Go.Expr.binary .lor (.binary .lss (.ident idx) (.intLit 0))
          (.binary .geq (.ident idx) (.call .int64 [.call .len [.ident base]]))
        .ok (.index (.ident base) (.ident idx), scalarRepr elem,
          b.append [Go.define base bx, Go.define idx ix, Go.ifStmt oob [edge]])
  | .attr base name => do
    let (bx, br, b) ← lowerExpr b base
    match br.shape with
    | none => .error s!"emit: attribute base has representation \"{br.go}\", not a fixed-shape instance"
    | some shape => match shape.field name with
      | none => .error s!"emit: shape \"{shape.name}\" has no field \"{name}\""
      | some fr => .ok (.selector bx name, fr, b)
  | .listLit elem items => do
    let (elts, b) ← lowerItems b elem 0 items
    .ok (.sliceLit elem elts, listRepr elem, b)
  | .genNew type fields values => do
    let (vs, b) ← lowerArgs b values
    .ok (.newStruct type fields vs, { go := "*" ++ type, scalar := .notScalar }, b)
  | .cmp op l r => do
    let (lx, lr, b) ← lowerExpr b l
    let (rx, rr, b) ← lowerExpr b r
    let x ← lowerCmpOp op lx lr rx rr
    .ok (x, boolRepr, b)
  | .and l r => do
    let (lx, lr, b) ← lowerExpr b l
    let (rx, rr, b) ← lowerExpr b r
    let (x, xr) ← lowerConn .land lx lr r rx rr
    .ok (x, xr, b)
  | .or l r => do
    let (lx, lr, b) ← lowerExpr b l
    let (rx, rr, b) ← lowerExpr b r
    let (x, xr) ← lowerConn .lor lx lr r rx rr
    .ok (x, xr, b)
  | .not x => do
    let (x, xr, b) ← lowerExpr b x
    let x ← lowerNotOp x xr
    .ok (x, boolRepr, b)
  | .call name args ret => do
    let (args, b) ← lowerArgs b args
    let (val, b) := b.temp
    let (exc, b) := b.errName
    .ok (.ident val, ret,
      b.append [.define [.var val, .var exc] [.call (.static name) args],
        Go.ifStmt (.binary .neq (.ident exc) .nil) [.ret [b.ret.zero, .ident exc]]])

def lowerArgs (b : Builder) : List Expr → Except String (List Go.Expr × Builder)
  | [] => .ok ([], b)
  | e :: es => do
    let (x, _, b) ← lowerExpr b e
    let (xs, b) ← lowerArgs b es
    .ok (x :: xs, b)

def lowerItems (b : Builder) (elem : Scalar) (i : Nat) :
    List Expr → Except String (List Go.Expr × Builder)
  | [] => .ok ([], b)
  | e :: es => do
    let (x, r, b) ← lowerExpr b e
    let x ← listItem elem i x r
    let (xs, b) ← lowerItems b elem (i + 1) es
    .ok (x :: xs, b)
end

def castIntLit (x : Go.Expr) (r : Repr) : Go.Expr :=
  match x with
  | .intLit v => if r.scalar = .sInt then .call .int64 [.intLit v] else .intLit v
  | x => x

def truthyExpr (x : Go.Expr) (r : Repr) : Except String Go.Expr :=
  match r.scalar with
  | .sBool => .ok x
  | .sInt => .ok (.binary .neq x (.intLit 0))
  | .sFloat => .ok (.binary .neq x (.floatLit 0))
  | .sStr => .ok (.binary .neq x (.strLit ""))
  | .notScalar => match r.elem with
    | some _ => .ok (.binary .neq (.call .len [x]) (.intLit 0))
    | none => .error s!"emit: no truthiness lowering for {r.scalar.string}"

/-- The values of a parallel binding; a defining one casts its int literals. -/
def lowerBindValues (b : Builder) (cast : Bool) :
    List Expr → Except String (List Go.Expr × Builder)
  | [] => .ok ([], b)
  | e :: es => do
    let (x, r, b) ← lowerExpr b e
    let (xs, b) ← lowerBindValues b cast es
    .ok ((if cast then castIntLit x r else x) :: xs, b)

def augTok : Op → Tok
  | .sub => .sub
  | .mul => .mul
  | _ => .add
def errCheck (b : Builder) (exc : Ident) : Go.Stmt :=
  Go.ifStmt (.binary .neq (.ident exc) .nil) [.ret [b.ret.zero, .ident exc]]

mutual
/-- Lower one statement, its own guards flushed ahead of it. -/
def lowerStmt (b : Builder) : Stmt → Except String (List Go.Stmt × Builder)
  | .define name value => do
    let (x, r, b) ← lowerExpr b value
    let (pre, b) := b.flush
    .ok (pre ++ [Go.define name (castIntLit x r)], b)
  | .assign name value => do
    let (x, _, b) ← lowerExpr b value
    let (pre, b) := b.flush
    .ok (pre ++ [Go.setStmt (.var name) x], b)
  | .varDecl name repr =>
    let (pre, b) := b.flush
    .ok (pre ++ [.varDecl name repr], b)
  | .bind names values define => do
    if names.length ≠ values.length then
      .error s!"emit: a parallel binding has {names.length} names for {values.length} values"
    else
      let (rhs, b) ← lowerBindValues b define values
      let lhs := names.map LHS.var
      let (pre, b) := b.flush
      .ok (pre ++ [if define then .define lhs rhs else .assign lhs rhs], b)
  | .augAssign name op repr value =>
    if repr.scalar = .sFloat then do
      let (x, r, b) ← lowerExpr b value
      let (pre, b) := b.flush
      .ok (pre ++ [.opAssign name (augTok op) (toFloat x r)], b)
    else do
      let (rx, rr, b) ← lowerExpr b value
      let (x, _, b) ← lowerBinOp b op (.ident name) repr rx rr
      let (pre, b) := b.flush
      .ok (pre ++ [Go.setStmt (.var name) x], b)
  | .discard (.call name args _) => do
    let (args, b) ← lowerArgs b args
    let (exc, b) := b.errName
    let (pre, b) := b.flush
    .ok (pre ++ [.define [.blank, .var exc] [.call (.static name) args], errCheck b exc], b)
  | .discard value => do
    let (x, _, b) ← lowerExpr b value
    let (pre, b) := b.flush
    .ok (pre ++ [Go.setStmt .blank x], b)
  | .ret value => do
    let (x, _, b) ← lowerExpr b value
    let (pre, b) := b.flush
    .ok (pre ++ [.ret [x, .nil]], b)
  | .forRange bind index overList body => do
    let (x, r, b) ← lowerExpr b overList
    match r.elem with
    | none => .error s!"emit: range needs a list operand, got {r.go}"
    | some _ =>
      let (body, b) ← lowerBlock b body
      let (key, body) := match index with
        | none => (LHS.blank, body)
        | some idx => (.var .enumRawIndex,
            Go.define idx (.call .int64 [.ident .enumRawIndex]) :: body)
      let (pre, b) := b.flush
      .ok (pre ++ [.rangeStmt key bind x body], b)
  | .forGen bind _ gen body deopt => do
    let (gen, _, b) ← lowerExpr b gen
    let (pre, b) := b.flush
    let (body, b) ← lowerBlock b body
    let next := Go.Stmt.define [.var bind, .var .genDone, .var .genErr] [.call .next [gen]]
    let (check, b) :=
      if deopt then
        let (edge, b) := b.deoptEdge
        (Go.ifStmt (.binary .neq (.ident .genErr) .nil)
          [.ifStmt [.define [.blank, .var .genOk] [.assertDeopt (.ident .genErr)]]
            (.ident .genOk) [edge] [],
           .ret [b.ret.zero, .ident .genErr]], b)
      else (errCheck b .genErr, b)
    let doneCheck := Go.ifStmt (.ident .genDone) [.branchBreak]
    .ok (pre ++ [.forStmt [] none [] (next :: check :: doneCheck :: body)], b)
  | .forCount var start stop down body resume => do
    let (start, sr, b) ← lowerExpr b start
    let (stop, _, b) ← lowerExpr b stop
    let (pre, b) := b.flush
    let frames := b.resume
    let b := match resume with
      | none => b
      | some info => { b with resume := b.resume ++ [{
          handler := info.handler
          args := .ident var :: info.carried.map .ident ++
            (List.range b.params.length).map fun i => .ident (.deoptParam i) }] }
    let (body, b) ← lowerBlock b body
    let b := { b with resume := frames }
    let cmp := if down then Tok.gtr else Tok.lss
    .ok (pre ++ [.forStmt [Go.define var (castIntLit start sr)]
      (some (.binary cmp (.ident var) stop)) [.incDec (.var var) (!down)] body], b)
  | .whileLoop cond body => do
    let (cond, cr, b) ← lowerExpr b cond
    let test ← truthyExpr cond cr
    let (guards, b) := b.flush
    let (body, b) ← lowerBlock b body
    .ok (guards ++ [.forStmt [] (some test) [] body], b)
  | .breakStmt =>
    let (pre, b) := b.flush
    .ok (pre ++ [.branchBreak], b)
  | .continueStmt =>
    let (pre, b) := b.flush
    .ok (pre ++ [.branchContinue], b)
  | .ifElse cond thn els => do
    let (cond, cr, b) ← lowerExpr b cond
    let test ← truthyExpr cond cr
    let (guards, b) := b.flush
    let (thn, b) ← lowerBlock b thn
    let (els, b) ← lowerBlock b els
    .ok (guards ++ [.ifStmt [] test thn els], b)

def lowerBlock (b : Builder) : List Stmt → Except String (List Go.Stmt × Builder)
  | [] => .ok ([], b)
  | s :: ss => do
    let (out, b) ← lowerStmt b s
    let (rest, b) ← lowerBlock b ss
    .ok (out ++ rest, b)
end

def lowerGuards (b : Builder) : List BindingGuard → List Go.Stmt × Builder
  | [] => ([], b)
  | g :: gs =>
    let (edge, b) := b.deoptEdge
    let (rest, b) := lowerGuards b gs
    (Go.ifStmt (.binary .neq (.ident (.global g.verVar)) (.intLit g.version)) [edge] :: rest, b)

def emitFunc (f : Func) : Except String Go.FuncDecl := do
  let names := f.params.map (·.name)
  let b : Builder := { fn := f.name, params := names, ret := f.ret, deopt := f.deoptHandler }
  let (body, b) ← lowerBlock b f.body
  let (guards, b) := lowerGuards b f.bindingGuards
  let snapshot :=
    if b.deoptUsed ∧ f.params ≠ [] then
      [Go.Stmt.define ((List.range names.length).map fun i => .var (.deoptParam i)) (names.map .ident)]
    else []
  .ok { name := f.name, params := f.params.map fun p => (p.name, p.repr), ret := f.ret,
        body := snapshot ++ guards ++ body }

section
-- The equations of the mutual definitions are derived here, once.
attribute [local simp] lowerExpr lowerArgs lowerItems lowerStmt lowerBlock
end

end Unagi.Emit
