import LoxCompiler.Token.Scan

/-! # The scanning automaton

The scanner as a machine that looks at one byte at a time, and at one more for a point in a
number. It remembers where a lexeme started and cuts the lexeme out of the source when it ends.
Cutting outside of the source is a fault, and so is a symbol that no symbol starts with.
-/

namespace LoxCompiler.Automaton

/-- A broken precondition inside the scanner. -/
inductive Fault where
  /-- A part of the source ends before it starts, or after the end of the source. -/
  | outsideSource
  /-- The state for symbols was entered with a byte that starts none. -/
  | noSymbol
  /-- There are more steps than the source allows. -/
  | outOfBudget
deriving DecidableEq, Repr

/-- What the automaton is in the middle of, with the place where that started. -/
inductive State where
  | root
  | comment
  | number (start : Nat) (position : Position) (fractional : Bool)
  | string (start : Nat) (position : Position)
  | word (start : Nat) (position : Position)
  | symbol (first : UInt8) (start : Nat) (position : Position)
deriving DecidableEq, Repr

/-- What is done about a byte: the next state, whether the byte is consumed, and what is
produced, if anything. -/
structure Transition where
  state : State
  consume : Bool
  output : Option (Scanned Bytes)

namespace Transition

/-- Consume the byte. -/
def step (state : State) : Transition := ⟨state, true, none⟩

/-- Leave the byte to another state. -/
def resume (state : State) : Transition := ⟨state, false, none⟩

/-- Consume the byte and end the lexeme. -/
def produce (output : Scanned Bytes) : Transition := ⟨.root, true, some output⟩

/-- End the lexeme before the byte. -/
def produceBefore (output : Scanned Bytes) : Transition := ⟨.root, false, some output⟩

end Transition

/-- A part of the source. -/
def cut (source : Bytes) (start stop : Nat) : Except Fault Bytes :=
  if start ≤ stop ∧ stop ≤ source.length then .ok ((source.drop start).take (stop - start))
  else .error .outsideSource

/-- The number that some digits with at most one point spell. -/
def parseNumber (text : Bytes) : Option Binary64 :=
  match text.dropWhile isDigit with
  | [] => if text.isEmpty then none else some (.ofDigits text [])
  | point :: fractional =>
      if point = byteOf '.' && fractional.all isDigit && !(text.takeWhile isDigit).isEmpty then
        some (.ofDigits (text.takeWhile isDigit) fractional)
      else none

section Visit

variable (source : Bytes) (c : Cursor)

/-- A token between two offsets. -/
def token (kind : TokenKind Bytes) (position : Position) (start stop : Nat) : Scanned Bytes :=
  .ok ⟨kind, position, ⟨start, stop⟩, (source.drop start).take (stop - start)⟩

/-- Between two lexemes. -/
def visitRoot : Transition :=
  match c.peek with
  | none => ⟨.root, true, some (token source .endOfInput c.position c.offset c.offset)⟩
  | some b =>
      if Lexeme.isSpace b then .step .root
      else if b = byteOf '"' then .step (.string c.offset c.position)
      else if isDigit b then .step (.number c.offset c.position false)
      else if Lexeme.startsWord b then .resume (.word c.offset c.position)
      else
        match Lexeme.single.lookup b with
        | some kind => .produce (token source kind c.position c.offset (c.offset + 1))
        | none =>
            if b = byteOf '/' || (Lexeme.extensible.lookup b).isSome then
              .step (.symbol b c.offset c.position)
            else .produce (.error ⟨.unexpected b, c.position⟩)

/-- In a comment, which ends before the end of its line. -/
def visitComment : Transition :=
  match c.peek with
  | none => .resume .root
  | some b => if b = byteOf '\n' then .resume .root else .step .comment

/-- A number has ended. -/
def endNumber (start : Nat) (position : Position) : Except Fault Transition := do
  let text ← cut source start c.offset
  match parseNumber text with
  | some value =>
      return .produceBefore (token source (.literal (.number value)) position start c.offset)
  | none => return .produceBefore (.error ⟨.invalidNumber text, position⟩)

/-- In a number. A point belongs to it if it is the first one and a digit follows. -/
def visitNumber (start : Nat) (position : Position) (fractional : Bool) :
    Except Fault Transition :=
  match c.peek with
  | none => endNumber source c start position
  | some b =>
      if isDigit b then .ok (.step (.number start position fractional))
      else if b = byteOf '.' && !fractional && c.peekSecond.any isDigit then
        .ok (.step (.number start position true))
      else endNumber source c start position

/-- In a string, after its opening quote. -/
def visitString (start : Nat) (position : Position) : Except Fault Transition :=
  match c.peek with
  | none => .ok (.produceBefore (.error ⟨.unterminatedString, position⟩))
  | some b =>
      if b = byteOf '"' then do
        let contents ← cut source (start + 1) c.offset
        return .produce
          (token source (.literal (.string contents)) position start (c.offset + 1))
      else .ok (.step (.string start position))

/-- A word has ended. -/
def endWord (start : Nat) (position : Position) : Except Fault Transition := do
  let word ← cut source start c.offset
  return .produceBefore
    (token source ((Lexeme.reserved.lookup word).getD (.identifier word)) position start c.offset)

/-- In a word. -/
def visitWord (start : Nat) (position : Position) : Except Fault Transition :=
  match c.peek with
  | none => endWord source c start position
  | some b =>
      if Lexeme.inWord b then .ok (.step (.word start position))
      else endWord source c start position

/-- After the first byte of a symbol that may have two. -/
def visitSymbol (first : UInt8) (start : Nat) (position : Position) : Except Fault Transition :=
  let short := fun op => token source (.operator op) position start c.offset
  let long := fun op => token source (.operator op) position start (c.offset + 1)
  if first = byteOf '/' then
    if c.peek = some (byteOf '/') then .ok (.step .comment)
    else .ok (.produceBefore (short .divide))
  else
    match Lexeme.extensible.lookup first with
    | some (op, extended) =>
        if c.peek = some (byteOf '=') then .ok (.produce (long extended))
        else .ok (.produceBefore (short op))
    | none => .error .noSymbol

/-- What is done about the next byte. -/
def visit : State → Except Fault Transition
  | .root => .ok (visitRoot source c)
  | .comment => .ok (visitComment c)
  | .number start position fractional => visitNumber source c start position fractional
  | .string start position => visitString source c start position
  | .word start position => visitWord source c start position
  | .symbol first start position => visitSymbol source c first start position

end Visit

/-- A state of the automaton, and how far it has come. -/
structure Configuration where
  state : State
  cursor : Cursor

/-- Before the first byte. -/
def start (source : Bytes) : Configuration := ⟨.root, .start source⟩

/-- Go on until something is produced, but with at most some number of steps. -/
def run (source : Bytes) : Nat → Configuration → Except Fault (Scanned Bytes × Configuration)
  | 0, _ => .error .outOfBudget
  | fuel + 1, q => do
      let t ← visit source q.cursor q.state
      let next : Configuration := ⟨t.state, if t.consume then q.cursor.step else q.cursor⟩
      match t.output with
      | some output => return (output, next)
      | none => run source fuel next

/-- The next item of a source. A lexeme takes two steps more than it has bytes, and each byte is
looked at for one lexeme only. -/
def scan (source : Bytes) (q : Configuration) : Except Fault (Scanned Bytes × Configuration) :=
  run source (3 * q.cursor.rest.length + 1) q

/-- Some number of items, one after the other. -/
def scanMany (source : Bytes) :
    Nat → Configuration → Except Fault (List (Scanned Bytes) × Configuration)
  | 0, q => .ok ([], q)
  | count + 1, q => do
      let (item, q) ← scan source q
      let (items, q) ← scanMany source count q
      return (item :: items, q)

end LoxCompiler.Automaton
