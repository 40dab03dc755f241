import LoxCompiler.Expression.Precedence
import LoxCompiler.Token.Basic

/-! # Expression rules

What a token does in an expression: whether it starts one, whether it continues one that ends
before it, and how strongly it binds then.
-/

namespace LoxCompiler

/-- What a token does that starts an expression. -/
inductive Leading where
  | grouping
  | unary
  | number
  | string
  | literal
  | name
  | receiver
  | superclass
deriving DecidableEq, Repr

/-- What a token does that continues an expression. -/
inductive Continuing where
  | binary
  | and
  | or
  | call
  | property
deriving DecidableEq, Repr

/-- How a token takes part in expressions. -/
structure Rule where
  leading : Option Leading
  continuing : Option Continuing
  precedence : Precedence
deriving DecidableEq, Repr

namespace Rule

/-- A token that starts an expression and continues none. -/
def start (leading : Leading) : Rule := ⟨some leading, none, .none⟩

/-- A binary operator. -/
def operator (precedence : Precedence) : Rule := ⟨none, some .binary, precedence⟩

/-- A token that takes no part in expressions. -/
def absent : Rule := ⟨none, none, .none⟩

/-- The rule of an operator. Assignment is no operator here: what may be assigned to looks
for it. -/
def ofOperator : Operator → Rule
  | .minus => ⟨some .unary, some .binary, .term⟩
  | .plus => operator .term
  | .times | .divide => operator .factor
  | .not => start .unary
  | .equal | .notEqual => operator .equality
  | .greater | .greaterEqual | .less | .lessEqual => operator .comparison
  | .and => ⟨none, some .and, .and⟩
  | .or => ⟨none, some .or, .or⟩
  | .assign => absent

/-- The rule of a kind of token. -/
def ofKind {ν : Type} : TokenKind ν → Rule
  | .openParen => ⟨some .grouping, some .call, .call⟩
  | .dot => ⟨none, some .property, .call⟩
  | .operator op => ofOperator op
  | .identifier _ => start .name
  | .literal (.number _) => start .number
  | .literal (.string _) => start .string
  | .literal .nil | .literal (.boolean _) => start .literal
  | .keyword .thisWord => start .receiver
  | .keyword .superWord => start .superclass
  | _ => absent

end Rule

end LoxCompiler
