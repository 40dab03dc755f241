import LoxCompiler.Number.Rounding
import LoxCompiler.Token.Basic
import LoxCompiler.Token.Error

/-! # Lexemes

Every source is a sequence of lexemes: tokens, blanks and comments, and malformed parts. The
functions here read the lexeme at the start of some bytes, given the first byte and the rest,
and say how many bytes of the rest belong to it. Each takes the longest lexeme of its class.
-/

namespace LoxCompiler

/-- What a lexeme is. -/
inductive Lexeme where
  /-- White space or a comment. -/
  | blank
  | token (kind : TokenKind Bytes)
  | malformed (cause : LexicalError.Cause)

namespace Lexeme

/-- Space, tab, newline, form feed and carriage return. -/
def isSpace (b : UInt8) : Bool := b == 0x20 || b == 0x09 || b == 0x0A || b == 0x0C || b == 0x0D

/-- A byte that may start a word. -/
def startsWord (b : UInt8) : Bool := isLetter b || b == byteOf '_'

/-- A byte that may stand in a word after its start. -/
def inWord (b : UInt8) : Bool := startsWord b || isDigit b

/-- The words that are not identifiers. -/
def reserved : List (Bytes × TokenKind Bytes) :=
  [(ascii ['c', 'l', 'a', 's', 's'], .keyword .classWord),
    (ascii ['e', 'l', 's', 'e'], .keyword .elseWord),
    (ascii ['f', 'o', 'r'], .keyword .forWord),
    (ascii ['f', 'u', 'n'], .keyword .funWord),
    (ascii ['i', 'f'], .keyword .ifWord),
    (ascii ['p', 'r', 'i', 'n', 't'], .keyword .printWord),
    (ascii ['r', 'e', 't', 'u', 'r', 'n'], .keyword .returnWord),
    (ascii ['s', 'u', 'p', 'e', 'r'], .keyword .superWord),
    (ascii ['t', 'h', 'i', 's'], .keyword .thisWord),
    (ascii ['v', 'a', 'r'], .keyword .varWord),
    (ascii ['w', 'h', 'i', 'l', 'e'], .keyword .whileWord),
    (ascii ['n', 'i', 'l'], .literal .nil),
    (ascii ['t', 'r', 'u', 'e'], .literal (.boolean true)),
    (ascii ['f', 'a', 'l', 's', 'e'], .literal (.boolean false)),
    (ascii ['a', 'n', 'd'], .operator .and),
    (ascii ['o', 'r'], .operator .or)]

/-- The tokens of one byte that start no longer one. -/
def single : List (UInt8 × TokenKind Bytes) :=
  [(byteOf '-', .operator .minus), (byteOf '+', .operator .plus), (byteOf '*', .operator .times),
    (byteOf '.', .dot), (byteOf ',', .comma), (byteOf ';', .semicolon),
    (byteOf '(', .openParen), (byteOf ')', .closeParen),
    (byteOf '{', .openBrace), (byteOf '}', .closeBrace)]

/-- The operators that an equals sign makes another one: the byte, the operator without the
sign and the one with it. -/
def extensible : List (UInt8 × Operator × Operator) :=
  [(byteOf '!', .not, .notEqual), (byteOf '=', .assign, .equal),
    (byteOf '>', .greater, .greaterEqual), (byteOf '<', .less, .lessEqual)]

/-- A whole word is reserved or an identifier. -/
def ofWord (word : Bytes) : Lexeme :=
  .token ((reserved.lookup word).getD (.identifier word))

/-- A word: all the word bytes that follow. -/
def readWord (first : UInt8) (rest : Bytes) : Lexeme × Nat :=
  let more := rest.takeWhile inWord
  (ofWord (first :: more), more.length)

/-- A number: digits, and a point with digits after it. A point before anything else is no
part of the number. -/
def readNumber (first : UInt8) (rest : Bytes) : Lexeme × Nat :=
  let more := rest.takeWhile isDigit
  let number := fun fractional => Lexeme.token (.literal (.number
    (.ofDigits (first :: more) fractional)))
  match rest.dropWhile isDigit with
  | point :: after =>
      let fractional := after.takeWhile isDigit
      if point = byteOf '.' && !fractional.isEmpty then
        (number fractional, more.length + 1 + fractional.length)
      else (number [], more.length)
  | [] => (number [], more.length)

/-- A string, after its opening quote: everything up to the next quote. -/
def readString (rest : Bytes) : Lexeme × Nat :=
  let contents := rest.takeWhile (· != byteOf '"')
  match rest.dropWhile (· != byteOf '"') with
  | [] => (.malformed .unterminatedString, contents.length)
  | _ :: _ => (.token (.literal (.string contents)), contents.length + 1)

/-- A slash, or a comment up to the end of its line if a second slash follows. -/
def readSlash (rest : Bytes) : Lexeme × Nat :=
  match rest with
  | second :: comment =>
      if second = byteOf '/' then (.blank, 1 + (comment.takeWhile (· != byteOf '\n')).length)
      else (.token (.operator .divide), 0)
  | [] => (.token (.operator .divide), 0)

/-- A symbol of one or two bytes, if the byte starts any. -/
def readSymbol (first : UInt8) (rest : Bytes) : Lexeme × Nat :=
  match single.lookup first with
  | some kind => (.token kind, 0)
  | none =>
      match extensible.lookup first with
      | some (short, long) =>
          if rest.head? = some (byteOf '=') then (.token (.operator long), 1)
          else (.token (.operator short), 0)
      | none => (.malformed (.unexpected first), 0)

/-- The lexeme that starts with a byte, and how many of the bytes after it belong to it. -/
def read (first : UInt8) (rest : Bytes) : Lexeme × Nat :=
  if isSpace first then (.blank, 0)
  else if first = byteOf '"' then readString rest
  else if isDigit first then readNumber first rest
  else if startsWord first then readWord first rest
  else if first = byteOf '/' then readSlash rest
  else readSymbol first rest

end Lexeme

end LoxCompiler
