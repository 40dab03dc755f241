import LoxCompiler.Text.Utf8
import LoxCompiler.Token.Error

/-! # Diagnostics

What the compiler has to say about a program that it does not accept, and where.
-/

namespace LoxCompiler

namespace Diagnostic

/-- What is wrong with a program. -/
inductive Problem where
  /-- A part of the source is no token. -/
  | lexical (cause : LexicalError.Cause)
  /-- A certain token has to stand here. The message says which. -/
  | expected (message : String)
  /-- A token that starts no expression stands where one has to start. -/
  | expectedExpression
  /-- Something is assigned to that is neither a variable nor a property. -/
  | invalidAssignmentTarget
  /-- A scope declares two variables of one name. -/
  | duplicateVariable
  /-- A local variable is read in its own initializer. -/
  | selfReferentialInitializer
  | tooManyLocals
  | tooManyUpvalues
  | tooManyParameters
  | tooManyArguments
  | tooManyConstants
  /-- A forward jump does not fit into its operand. -/
  | jumpTooLarge
  /-- A backward jump does not fit into its operand. -/
  | loopTooLarge
  | thisOutsideClass
  | superOutsideClass
  | superWithoutSuperclass
  | returnFromScript
  | returnValueFromInitializer
  | inheritFromSelf
deriving DecidableEq, Repr

/-- The message of a problem. -/
def Problem.message : Problem → String
  | .lexical cause => cause.message
  | .expected message => message
  | .expectedExpression => "Expect expression."
  | .invalidAssignmentTarget => "Invalid assignment target."
  | .duplicateVariable => "Already a variable with this name in this scope."
  | .selfReferentialInitializer => "Cannot read local variable in its own initializer."
  | .tooManyLocals => "Too many local variables in function."
  | .tooManyUpvalues => "Too many closure variables in function."
  | .tooManyParameters => "Cannot have more than 255 parameters."
  | .tooManyArguments => "Cannot have more than 255 arguments."
  | .tooManyConstants => "Too many constants in one chunk."
  | .jumpTooLarge => "Too much code to jump over."
  | .loopTooLarge => "Loop body too large."
  | .thisOutsideClass => "Cannot use 'this' outside of a class."
  | .superOutsideClass => "Cannot use 'super' outside of a class."
  | .superWithoutSuperclass => "Cannot use 'super' in a class with no superclass."
  | .returnFromScript => "Cannot return from top-level code."
  | .returnValueFromInitializer => "Cannot return a value from an initializer."
  | .inheritFromSelf => "A class cannot inherit from itself."

/-- Where in the source a problem shows. -/
inductive Place where
  /-- At the end of the input. -/
  | atEnd
  /-- On its line, and at no token. -/
  | noToken
  /-- At a token. -/
  | lexeme (text : Bytes)
deriving DecidableEq, Repr

/-- The part of a message that names the place. -/
def Place.text : Place → String
  | .atEnd => " at end"
  | .noToken => ""
  | .lexeme text => " at '" ++ Utf8.decode text ++ "'"

end Diagnostic

/-- A problem with its place. -/
structure Diagnostic where
  problem : Diagnostic.Problem
  line : Nat
  place : Diagnostic.Place
deriving DecidableEq, Repr

/-- The text of a diagnostic. -/
def Diagnostic.text (d : Diagnostic) : String :=
  "[line " ++ toString d.line ++ "] Error" ++ d.place.text ++ ": " ++ d.problem.message

end LoxCompiler
