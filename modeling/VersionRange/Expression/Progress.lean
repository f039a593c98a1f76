import VersionRange.Shorthand
import VersionRange.Token.Tokenization

/-!
# Progress through an expression

How far an expression has been read, token by token. Disjunctions of conjunctions of operands
nest in groups; an operand is a group or a range form, behind any number of negations. Operands
that follow each other are joined as by a conjunction sign. A literal ends at the first token that
white space separates from it or that cannot continue it, and its labels are read at that point.

The depth of a place is the number of groups and negations that are open there; a negation is
open until its operand has ended.
-/

namespace VersionRange

namespace TokenKind

/-- The kinds with which an operand begins, in the order of their names. Source: `_UNARY_START`. -/
def operandStart : List TokenKind :=
  [caret, comparator, opening, not, number, tilde, wildcard]

/-- The kinds of the parts of a literal, in the order of their names. Source: `_PART`. -/
def literalPart : List TokenKind := [number, wildcard]

/-- The kinds that may follow a literal directly, in the order of their names.
Source: `_LITERAL_END`. -/
def literalEnd : List TokenKind := [and, finish, hyphen, or, closing]

/-- The kinds that may follow an operand outside all groups, in the order of their names.
Source: `_TERM_END`. -/
def operandEnd : List TokenKind := [and, finish, or]

/-- Decide whether a kind continues a literal when no white space stands before it.
Source: `_LITERAL_CONTINUATION`. -/
def continuesLiteral (kind : TokenKind) : Bool :=
  [dot, label, number, wildcard].contains kind

end TokenKind

/-- What a literal is read for. Part of `_ParserState._primary`. -/
inductive Role
  /-- A range of its own, or the lower end of a hyphen range. -/
  | plain
  /-- The upper end of a hyphen range. -/
  | upperEnd (lower : Literal)
  | comparison (relation : Relation)
  | caret
  | tilde

/-- The expression that a literal makes in its role. Part of `_ParserState._primary`. -/
def Role.expression (l : Literal) : Role → Expression
  | plain => l.wildcard
  | upperEnd lower => lower.hyphen l
  | comparison relation => l.comparison relation
  | caret => l.caret
  | tilde => l.tilde

/-- What has been read of a literal: its numbers, the count of wildcards behind them, and the tokens
of its labels. Part of `_ParserState._literal`. -/
structure Spelling where
  numbers : List Nat := []
  wildcards : Nat := 0
  prerelease : Option Token := none
  build : Option Token := none

namespace Spelling

/-- The count of numbers and wildcards. -/
def parts (s : Spelling) : Nat := s.numbers.length + s.wildcards

/-- Decide whether a label has been read. -/
def isLabeled (s : Spelling) : Bool := s.prerelease.isSome || s.build.isSome

/-- Add the number or wildcard of a token. Source: `_ParserState._component`. -/
def addPart (source : String) (s : Spelling) (token : Token) : Except Failure Spelling :=
  if token.kind = .wildcard then .ok { s with wildcards := s.wildcards + 1 }
  else if Text.hasLeadingZero token.text then
    .error (.malformedVersion source (some token.position) (.rangeLeadingZero token.text))
  else do
    let number ← readNumber token.text
    .ok { s with numbers := s.numbers ++ [number] }

/-- Add a label, which begins with a hyphen or a plus sign. Labels stand behind three numbers, the
pre-release label before the build metadata. Part of `_ParserState._literal`. -/
def addLabel (s : Spelling) (token : Token) : Except Failure Spelling :=
  let isPrerelease := token.text.head? == some '-'
  if s.numbers.length != 3 || s.build.isSome || (isPrerelease && s.prerelease.isSome) then
    .error (.unexpectedToken TokenKind.literalEnd token)
  else if isPrerelease then .ok { s with prerelease := some token }
  else .ok { s with build := some token }

/-- Read a label behind its mark. Part of `_ParserState._literal`. -/
def readLabel (source : String) (read : Nat → List Char → Except Fault (List Word)) :
    Option Token → Except Failure (List Word)
  | none => .ok []
  | some token =>
    (read (token.position + 1) (token.text.drop 1)).mapError fun fault ↦
      .malformedVersion source (some fault.position) fault.reason

/-- The literal that has been read. Part of `_ParserState._literal`. -/
def literal (source : String) (s : Spelling) : Except Failure Literal :=
  match s.numbers with
  | [] => .ok .any
  | [major] => .ok (.upToMajor major)
  | [major, minor] => .ok (.upToMinor major minor)
  | major :: minor :: patch :: _ => do
    let words ← readLabel source readPrerelease s.prerelease
    let build ← readLabel source readBuild s.build
    let prerelease ← readIdentifiers words
    .ok (.full { major, minor, patch, prerelease, build })

end Spelling

/-- What stands before an operand in its group: the alternatives that have ended, the operands of
the conjunction so far, and the negations of the operand. Part of `_ParserState._or_term` and
`_ParserState._and_term`. -/
structure Level where
  alternatives : Option Expression := none
  conjunction : Option Expression := none
  negations : Nat := 0

/-- An expression behind a number of negations. Part of `_ParserState._unary`. -/
def negate : Nat → Expression → Expression
  | 0, e => e
  | count + 1, e => .not (negate count e)

/-- An expression joined to the one before it, if there is one. Part of `_ParserState._or_term` and
`_ParserState._and_term`. -/
def joinTo (join : Expression → Expression → Expression) (before : Option Expression)
    (e : Expression) : Expression :=
  match before with
  | some left => join left e
  | none => e

/-- The place of an operand: what stands before it in its group, and in the groups around that one,
the innermost first. Source: `_ParserState`. -/
structure Place where
  level : Level := {}
  outer : List Level := []

/-- An operand has ended: the alternatives before it in its group, the conjunction that it ends,
and the groups around. -/
structure Chain where
  alternatives : Option Expression
  conjunction : Expression
  outer : List Level

/-- The expression that the alternatives and the last conjunction of a group make.
Part of `_ParserState._or_term`. -/
def Chain.expression (c : Chain) : Expression := joinTo .or c.alternatives c.conjunction

namespace Place

/-- The count of groups and negations that are open. Part of `_ParserState._enter`. -/
def depth (p : Place) : Nat :=
  p.outer.foldr (fun level depth ↦ level.negations + 1 + depth) p.level.negations

/-- The operand of a place has ended, and with it its negations. Part of `_ParserState._unary` and
`_ParserState._and_term`. -/
def ended (p : Place) (e : Expression) : Chain where
  alternatives := p.level.alternatives
  conjunction := joinTo .and p.level.conjunction (negate p.level.negations e)
  outer := p.outer

end Place

/-- How far an expression has been read. Source: `_ParserState`. -/
inductive Progress
  /-- An operand has to follow. -/
  | operand (place : Place)
  /-- A literal has to follow. -/
  | literal (role : Role) (place : Place)
  /-- A part of a literal has to follow its dot. -/
  | part (role : Role) (spelling : Spelling) (place : Place)
  /-- A literal has been read and may go on. -/
  | spelling (role : Role) (spelling : Spelling) (place : Place)
  /-- An operand has ended. -/
  | operator (chain : Chain)

namespace Progress

/-- Nothing has been read. -/
def start : Progress := operand {}

/-- Open a group or a negation, unless it lies too deep. Source: `_ParserState._enter`. -/
def enter (maxDepth : Int) (token : Token) (place : Place) : Except Failure Progress :=
  if maxDepth < place.depth then .error (.nestingTooDeep maxDepth token.position)
  else .ok (operand place)

/-- Read the first token of an operand. Part of `_ParserState._unary` and
`_ParserState._primary`. -/
def stepOperand (source : String) (maxDepth : Int) (place : Place) (token : Token) :
    Except Failure Progress :=
  match token.kind with
  | .not =>
    let level := { place.level with negations := place.level.negations + 1 }
    enter maxDepth token { place with level }
  | .opening => enter maxDepth token ⟨{}, place.level :: place.outer⟩
  | .comparator =>
    match Relation.ofSymbol? (.ofList token.text) with
    | some relation => .ok (literal (.comparison relation) place)
    | none => .error (.unknownOperator (.ofList token.text))
  | .caret => .ok (literal .caret place)
  | .tilde => .ok (literal .tilde place)
  | .number | .wildcard => do
    let s ← Spelling.addPart source {} token
    .ok (spelling .plain s place)
  | _ => .error (.unexpectedToken TokenKind.operandStart token)

/-- Read the token behind an operand. Part of `_ParserState._and_term`, `_ParserState._or_term` and
`_ParserState._expect`. -/
def stepOperator (source : String) (maxDepth : Int) (chain : Chain) (token : Token) :
    Except Failure Progress :=
  match token.kind with
  | .or => .ok (operand ⟨{ alternatives := some chain.expression }, chain.outer⟩)
  | .closing =>
    match chain.outer with
    | [] => .error (.unexpectedToken TokenKind.operandEnd token)
    | level :: outer => .ok (operator (Place.ended ⟨level, outer⟩ chain.expression))
  | kind =>
    let next : Place :=
      ⟨{ alternatives := chain.alternatives, conjunction := some chain.conjunction }, chain.outer⟩
    if kind = .and then .ok (operand next)
    else if TokenKind.operandStart.contains kind then stepOperand source maxDepth next token
    else if chain.outer.isEmpty then .error (.unexpectedToken TokenKind.operandEnd token)
    else .error (.unexpectedToken [.closing] token)

/-- Read the token behind a literal that it does not continue. Part of `_ParserState._primary`. -/
def stepBehind (source : String) (maxDepth : Int) (role : Role) (l : Literal) (place : Place)
    (token : Token) : Except Failure Progress :=
  match role, token.kind with
  | .plain, .hyphen => .ok (literal (.upperEnd l) place)
  | _, _ => stepOperator source maxDepth (place.ended (role.expression l)) token

/-- Read a token that continues a literal, or cannot stand directly behind it.
Part of `_ParserState._literal` and `_ParserState._attached`. -/
def stepWithin (role : Role) (s : Spelling) (place : Place) (token : Token) :
    Except Failure Progress :=
  match token.kind with
  | .dot =>
    if s.isLabeled || s.parts == 3 then .error (.unexpectedToken TokenKind.literalEnd token)
    else .ok (part role s place)
  | .label => do
    let s ← s.addLabel token
    .ok (spelling role s place)
  | _ => .error (.unexpectedToken TokenKind.literalEnd token)

/-- Read one token. Part of `_ParserState._literal` and `_ParserState._primary`. -/
def step (source : String) (maxDepth : Int) : Progress → Token → Except Failure Progress
  | operand place, token => stepOperand source maxDepth place token
  | literal role place, token =>
    if TokenKind.literalPart.contains token.kind then do
      let s ← Spelling.addPart source {} token
      .ok (spelling role s place)
    else .error (.unexpectedToken TokenKind.literalPart token)
  | part role s place, token =>
    if token.spaced || !TokenKind.literalPart.contains token.kind then
      .error (.unexpectedToken TokenKind.literalPart token)
    else if 0 < s.wildcards && token.kind = .number then
      .error (.unexpectedToken [.wildcard] token)
    else do
      let s ← s.addPart source token
      .ok (spelling role s place)
  | spelling role s place, token =>
    if token.spaced || !token.kind.continuesLiteral then do
      let l ← s.literal source
      stepBehind source maxDepth role l place token
    else stepWithin role s place token
  | operator chain, token => stepOperator source maxDepth chain token

/-- The expression read when the text ends at `position` behind an operand.
Part of `_ParserState.parse` and `_ParserState._expect`. -/
def finishOperator (position : Nat) (chain : Chain) : Except Failure Expression :=
  match chain.outer with
  | [] => .ok chain.expression
  | _ :: _ => .error (.unexpectedEnd [.closing] position)

/-- The expression read when the text ends at `position`. Part of `_ParserState.parse` and
`_ParserState._unexpected`. -/
def finish (source : String) (position : Nat) : Progress → Except Failure Expression
  | operand _ => .error (.unexpectedEnd TokenKind.operandStart position)
  | literal _ _ | part _ _ _ => .error (.unexpectedEnd TokenKind.literalPart position)
  | spelling role s place => do
    let l ← s.literal source
    finishOperator position (place.ended (role.expression l))
  | operator chain => finishOperator position chain

end Progress

end VersionRange
