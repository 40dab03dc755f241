import LoxCompiler.Source.Position
import LoxCompiler.Text.Utf8

/-! # Lexical errors -/

namespace LoxCompiler

namespace LexicalError

/-- What is wrong with a part of the source that is no token. -/
inductive Cause where
  /-- A byte that starts no token. -/
  | unexpected (b : UInt8)
  /-- A string without its closing quote. -/
  | unterminatedString
  /-- A number that cannot be read. -/
  | invalidNumber (digits : Bytes)
deriving DecidableEq, Repr

/-- The message of a cause. Only printable characters are named. -/
def Cause.message : Cause → String
  | .unexpected b =>
      if isGraphic b then "Unexpected character '" ++ Utf8.decode [b] ++ "'."
      else "Unexpected character."
  | .unterminatedString => "Unterminated string."
  | .invalidNumber digits => "Invalid number '" ++ Utf8.decode digits ++ "'."

end LexicalError

/-- A part of the source that is no token, and the place where it starts. -/
structure LexicalError where
  cause : LexicalError.Cause
  position : Position
deriving DecidableEq, Repr

/-- The message of an error with its place. -/
def LexicalError.message (e : LexicalError) : String :=
  e.position.text ++ " - " ++ e.cause.message

end LoxCompiler
