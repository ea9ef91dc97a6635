import Unagi.Lib.SortBy
import Unagi.Objects.HashKey
import Unagi.Types.Lattice

/-! # Decisions and their hash

The partitioner decides every unit of a program. The decision hash is a digest of a text with one
record for each decision, in the order of the units. -/

namespace Unagi.Partition

open Objects (Bytes ascii intDecimalLoose)

structure Span where
  file : Bytes
  line : Int
  col : Int
deriving DecidableEq

namespace Span

def isZero (s : Span) : Bool := s.file = [] && s.line = 0 && s.col = 0
def text (s : Span) : Bytes :=
  if s.isZero then ascii "<none>"
  else s.file ++ ':'.toUInt8 :: (intDecimalLoose s.line ++ ':'.toUInt8 :: intDecimalLoose s.col)

end Span

inductive State
  | staticProven | staticWithExcursions | boxedByCensus | boxedByCost
deriving DecidableEq

def State.text : State → Bytes
  | .staticProven => ascii "StaticProven"
  | .staticWithExcursions => ascii "StaticWithExcursions"
  | .boxedByCensus => ascii "BoxedByCensus"
  | .boxedByCost => ascii "BoxedByCost"

inductive Scope
  | unit | region | classWide | binding | module | program
deriving DecidableEq

structure Reason where
  rule : Bytes
  span : Span
  scope : Scope
  prose : Bytes
deriving DecidableEq

@[ext]
structure Score where
  static : Int
  boxed : Int
deriving DecidableEq

inductive GuardKind
  | entry | binding | classVersion | overflow | representation
deriving DecidableEq

def GuardKind.text : GuardKind → Bytes
  | .entry => ascii "entry"
  | .binding => ascii "binding"
  | .classVersion => ascii "class-version"
  | .overflow => ascii "overflow"
  | .representation => ascii "representation"

inductive FailureEdge
  | routeBoxed | deopt
deriving DecidableEq

def FailureEdge.text : FailureEdge → Bytes
  | .routeBoxed => ascii "route-boxed"
  | .deopt => ascii "deopt"

/-- A check of one assumption at one site. The fields after the edge say where it is placed: in how
many loops, whether it varies in them, under which dominator it is complete, where it resumes, and
whether it was moved out of the loops. -/
structure Guard where
  kind : GuardKind
  site : Span
  assumption : Bytes
  edge : FailureEdge
  loopDepth : Int
  loopInvariant : Bool
  dom : Int
  resume : Int
  hoisted : Bool
deriving DecidableEq

inductive ResumeKind
  | statement | loopBackEdge | midExpression
deriving DecidableEq

structure ResumePoint where
  id : Int
  site : Span
  kind : ResumeKind
deriving DecidableEq

inductive MaterializeKind
  | rebox | pointerCopy | cell
deriving DecidableEq

/-- One live native variable on its way into a slot of the boxed frame. -/
structure TransferEntry where
  slot : Int
  native : Bytes
  kind : MaterializeKind
  type : Types.Ty
  escaped : Bool
deriving DecidableEq

/-- Where the static form of a unit may give up, and the variables that live there. -/
structure DeoptSite where
  guard : Guard
  resume : ResumePoint
  transfers : List TransferEntry
  liveVars : List Bytes
  effectBefore : Bool
deriving DecidableEq

def DeoptSite.liveCount (s : DeoptSite) : Nat := s.liveVars.length

structure Unit where
  module : Bytes
  name : Bytes
  span : Span
  offset : Int
deriving DecidableEq

def Unit.key (u : Unit) : Bytes := u.module ++ 0 :: (u.name ++ 0 :: intDecimalLoose u.offset)

structure Decision where
  unit : Unit
  state : State
  reasons : List Reason
  score : Score
  excursions : Int
  proofs : Int
  guards : List Guard
  deopts : List DeoptSite
deriving DecidableEq

namespace Decision

def key (d : Decision) : Bytes := d.unit.key
def reasonText (r : Reason) : Bytes := r.rule ++ '@'.toUInt8 :: r.span.text
def guardText (g : Guard) : Bytes :=
  g.kind.text ++ '@'.toUInt8 :: (g.site.text ++ '>'.toUInt8 :: g.edge.text)
def deoptText (s : DeoptSite) : Bytes :=
  'r'.toUInt8 :: (intDecimalLoose s.resume.id ++ '@'.toUInt8 ::
    (s.resume.site.text ++ '#'.toUInt8 :: intDecimalLoose s.liveCount))
def items (ts : List Bytes) : Bytes := ts.flatMap (· ++ [';'.toUInt8])

def record (d : Decision) : Bytes :=
  d.key ++ '|'.toUInt8 :: (d.state.text ++ '|'.toUInt8 ::
    (intDecimalLoose d.score.static ++ ','.toUInt8 :: (intDecimalLoose d.score.boxed ++ '|'.toUInt8 ::
      (items (d.reasons.map reasonText) ++ '|'.toUInt8 :: (items (d.guards.map guardText) ++
        '|'.toUInt8 :: (items (d.deopts.map deoptText) ++ ['\n'.toUInt8]))))))

end Decision

/-- The hash of a list of decisions. The digest and the order in which the sort leaves units of one
key are not fixed. -/
def decisionHash {δ : Type} (sha256 : Bytes → δ) (sort : Lib.SortBy Decision.key)
    (ds : List Decision) : δ :=
  sha256 ((sort.sort ds).flatMap Decision.record)

end Unagi.Partition
