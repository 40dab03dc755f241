import LoxCompiler.Diagnostic
import LoxCompiler.Token.Scan

/-! # Token readers

A reader shows two tokens of a source: the last one taken and the next one. It collects the
diagnostics. After a report it keeps silent until it has found the next place where a
statement may start, so that one mistake is reported once.
-/

namespace LoxCompiler

/-- A place between two tokens of a source. -/
structure Reader where
  /-- What follows the next token. -/
  upcoming : List (Scanned Symbol)
  /-- The last token taken. -/
  previous : Token Symbol
  /-- The next token. -/
  current : Token Symbol
  /-- Whether anything was ever reported. -/
  hadError : Bool
  /-- Whether reports are suppressed. -/
  panicMode : Bool
  /-- The reports, newest first. -/
  diagnostics : List Diagnostic

namespace Reader

/-- Report a diagnostic, unless reports are suppressed, and suppress those that follow. -/
def report (r : Reader) (d : Diagnostic) : Reader :=
  if r.panicMode then r
  else { r with panicMode := true, hadError := true, diagnostics := d :: r.diagnostics }

/-- Make the first token of some items the next one, and report the lexical errors before it.
If there is none, the input ends at the next token. -/
def advanceOver (r : Reader) : List (Scanned Symbol) → Reader
  | [] => { r with upcoming := [], current := { r.current with kind := .endOfInput } }
  | .ok token :: upcoming => { r with upcoming := upcoming, current := token }
  | .error e :: upcoming =>
      (r.report ⟨.lexical e.cause, e.position.line, .noToken⟩).advanceOver upcoming

/-- Take the next token. -/
def advance (r : Reader) : Reader :=
  { r with previous := r.current }.advanceOver r.upcoming

/-- The reader of some items. Before them stands an end of input at the first place of the
source. -/
def start (items : List (Scanned Symbol)) : Reader :=
  let origin : Token Symbol := .endAt .start 0
  { upcoming := items, previous := origin, current := origin
    hadError := false, panicMode := false, diagnostics := [] : Reader }.advance

/-- Whether the next token is of some kind. -/
def check (r : Reader) (kind : TokenKind Symbol) : Bool := r.current.kind = kind

/-- Take the next token if it is of some kind, and say whether it was. -/
def accept (r : Reader) (kind : TokenKind Symbol) : Bool × Reader :=
  if r.check kind then (true, r.advance) else (false, r)

/-- Report a problem at a token. -/
def reportAt (r : Reader) (token : Token Symbol) (problem : Diagnostic.Problem) : Reader :=
  let place := if token.kind = .endOfInput then .atEnd else .lexeme token.lexeme
  r.report ⟨problem, token.position.line, place⟩

/-- Report a problem at the last token taken. -/
def reportPrevious (r : Reader) (problem : Diagnostic.Problem) : Reader :=
  r.reportAt r.previous problem

/-- Report a problem at the next token. -/
def reportCurrent (r : Reader) (problem : Diagnostic.Problem) : Reader :=
  r.reportAt r.current problem

/-- Take a token of some kind, or report the message. -/
def consume (r : Reader) (kind : TokenKind Symbol) (message : String) : Reader :=
  if r.check kind then r.advance else r.reportCurrent (.expected message)

/-- Take an identifier and give its name, or report the message and give the anonymous
name. -/
def consumeIdentifier (r : Reader) (message : String) : Symbol × Reader :=
  match r.current.kind with
  | .identifier name => (name, r.advance)
  | _ => (.anonymous, r.reportCurrent (.expected message))

/-- How much there is left to read. Taking a token makes it less, except at the end. -/
def remaining (r : Reader) : Nat :=
  r.upcoming.length + if r.current.kind = .endOfInput then 0 else 1

/-- Whether a statement may start here: after a semicolon, before a keyword that starts a
statement, or at the end. -/
def atBoundary (r : Reader) : Bool :=
  r.current.kind = .endOfInput || r.previous.kind = .semicolon ||
    r.current.kind.startsStatement

/-- Take tokens up to a boundary, and count them. Of the items that were upcoming at the start
every step takes one, so they serve as a clock. -/
def skipToBoundary : List (Scanned Symbol) → Nat → Reader → Nat × Reader
  | [], skipped, r => if r.atBoundary then (skipped, r) else (skipped + 1, r.advance)
  | _ :: clock, skipped, r =>
      if r.atBoundary then (skipped, r) else skipToBoundary clock (skipped + 1) r.advance

/-- Allow reports again from the next boundary on, and count the tokens taken on the way.
Lexical errors on the way are reported like others. -/
def synchronize (r : Reader) : Nat × Reader :=
  skipToBoundary r.upcoming 0 { r with panicMode := false }

end Reader

end LoxCompiler
