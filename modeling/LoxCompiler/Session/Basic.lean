import LoxCompiler.Event
import LoxCompiler.Frame.Stack
import LoxCompiler.Reader

/-! # Compile sessions

The state of a compilation, and the steps on it that only read tokens or report problems.
A step may fail with a fault, which stops the compilation; problems of the program are
reported and never stop it.
-/

namespace LoxCompiler

/-- The names that the language itself refers to. -/
structure ImplicitNames where
  /-- The receiver of methods. -/
  this : Symbol
  /-- The superclass, in the scope of a class body. -/
  super : Symbol
  /-- The name of initializers. -/
  init : Symbol
deriving DecidableEq, Repr

/-- A class under construction. -/
structure ClassContext where
  hasSuperclass : Bool
deriving DecidableEq, Repr

/-- The state of a compilation. -/
structure Session (β : Type) where
  names : ImplicitNames
  reader : Reader
  frames : Frames β
  /-- The classes under construction, innermost first. -/
  classes : List ClassContext
  /-- What was noted, newest first. -/
  events : List Event

/-- What a compilation is checked for while it runs. -/
structure Audit (β : Type) where
  /-- Whether the state may change like this, from what it was to what it is. -/
  change : Session β → Session β → Bool
  /-- Whether an expression may start in this state. -/
  expression : Session β → Bool

/-- How to compile: the width of operands, the audit of the run, if there is one, and the
numbers that the run may come to. An audit never changes what a compilation does; it stops it
with a fault at the first state that it does not allow. So an audited run without that fault
says something about every state of the run. In the same way, a run stops at the first number
that it may not come to. -/
structure Settings (β : Type) extends Width β where
  audit : Option (Audit β)
  passes : Quantity → Bool

namespace Settings

/-- Code of bytes, without an audit. -/
def byte : Settings UInt8 := ⟨.byte, none, fun _ => true⟩

/-- Code with operands of any size, without an audit. -/
def unbounded : Settings Nat := ⟨.unbounded, none, fun _ => true⟩

end Settings

/-- A step of a compilation. -/
def Compile {β : Type} (_ : Settings β) (α : Type) : Type := StateT (Session β) (Except Fault) α

namespace Compile

variable {β : Type} {c : Settings β} {α : Type}

instance : Monad (Compile c) := inferInstanceAs (Monad (StateT (Session β) (Except Fault)))

instance : LawfulMonad (Compile c) :=
  inferInstanceAs (LawfulMonad (StateT (Session β) (Except Fault)))

instance : MonadExceptOf Fault (Compile c) :=
  inferInstanceAs (MonadExceptOf Fault (StateT (Session β) (Except Fault)))

instance : MonadReaderOf (Session β) (Compile c) := ⟨fun s => .ok (s, s)⟩

/-- Run a step from a state. -/
def run (step : Compile c α) (s : Session β) : Except Fault (α × Session β) := step s

/-- Change the state, under the audit. All changes of the state are made by this function. -/
@[inline] def change (f : Session β → Except Fault (α × Session β)) : Compile c α := fun s =>
  match c.audit with
  | none => f s
  | some audit =>
      match f s with
      | .ok (a, t) => if audit.change s t then .ok (a, t) else .error .auditFailed
      | .error fault => .error fault

/-- Change the state in a way that cannot fail. -/
@[inline] def modify (f : Session β → Session β) : Compile c Unit := change fun s => .ok ((), f s)

/-- Note that an expression starts here. -/
def startExpression : Compile c Unit := fun s =>
  match c.audit with
  | none => .ok ((), s)
  | some audit => if audit.expression s then .ok ((), s) else .error .auditFailed

/-- Note a number that code has to hold. -/
def measure (quantity : Quantity) : Compile c Unit := fun s =>
  if c.passes quantity then .ok ((), s) else .error (.refused quantity)

/-- The last token taken. -/
def previous : Compile c (Token Symbol) := return (← read).reader.previous

/-- The next token. -/
def current : Compile c (Token Symbol) := return (← read).reader.current

/-- Change the reader, and answer. -/
@[inline] def changeReader (f : Reader → α × Reader) : Compile c α :=
  change fun s =>
    let (a, reader) := f s.reader
    .ok (a, { s with reader })

/-- Change the reader. -/
@[inline] def modifyReader (f : Reader → Reader) : Compile c Unit :=
  changeReader fun r => ((), f r)

/-- Take the next token. -/
def advance : Compile c Unit := modifyReader (·.advance)

/-- Whether the next token is of some kind. -/
def check (kind : TokenKind Symbol) : Compile c Bool := return (← read).reader.check kind

/-- Take the next token if it is of some kind, and say whether it was. -/
def accept (kind : TokenKind Symbol) : Compile c Bool := changeReader (·.accept kind)

/-- Take a token of some kind, or report the message. -/
def consume (kind : TokenKind Symbol) (message : String) : Compile c Unit :=
  modifyReader (·.consume kind message)

/-- Take an identifier and give its name, or report the message and give the anonymous
name. -/
def consumeIdentifier (message : String) : Compile c Symbol :=
  changeReader (·.consumeIdentifier message)

/-- Report a problem at the last token taken. -/
def report (problem : Diagnostic.Problem) : Compile c Unit :=
  modifyReader (·.reportPrevious problem)

/-- Report a problem at the next token. -/
def reportCurrent (problem : Diagnostic.Problem) : Compile c Unit :=
  modifyReader (·.reportCurrent problem)

/-- Note an event. -/
def note (event : Event) : Compile c Unit :=
  modify fun s => { s with events := event :: s.events }

/-- After a report, allow reports again from the next boundary on. -/
def recover : Compile c Unit := do
  if (← read).reader.panicMode then
    let skipped ← changeReader (·.synchronize)
    note (.synchronized (← current).position.line skipped)

/-- Repeat a step as long as a condition holds, but at most some number of times. -/
def repeatWhile (condition : Compile c Bool) (step : Compile c Unit) : Nat → Compile c Unit
  | 0 => throw .outOfBudget
  | budget + 1 => do
      if ← condition then
        step
        repeatWhile condition step budget

/-- Run a step for each item of a list of items with commas between, with the number of items
before it, and count the items. -/
def separated (item : Nat → Compile c Unit) : Nat → Nat → Compile c Nat
  | 0, _ => throw .outOfBudget
  | budget + 1, count => do
      item count
      if ← accept .comma then separated item budget (count + 1)
      else return count + 1

end Compile

end LoxCompiler
