/-! # Precedence -/

namespace LoxCompiler

/-- How strongly an operator binds its operands, from weakest to strongest. -/
inductive Precedence where
  | none
  | assignment
  | or
  | and
  | equality
  | comparison
  | term
  | factor
  | unary
  | call
  | primary
deriving DecidableEq, Repr

namespace Precedence

/-- The place of a level in the order. -/
def rank : Precedence → Nat
  | .none => 0
  | .assignment => 1
  | .or => 2
  | .and => 3
  | .equality => 4
  | .comparison => 5
  | .term => 6
  | .factor => 7
  | .unary => 8
  | .call => 9
  | .primary => 10

instance : LE Precedence := ⟨fun a b => a.rank ≤ b.rank⟩

instance (a b : Precedence) : Decidable (a ≤ b) := inferInstanceAs (Decidable (a.rank ≤ b.rank))

/-- The next stronger level; the strongest one is its own. An operator that associates to the
left takes its right operand at the level after its own. -/
def next : Precedence → Precedence
  | .none => .assignment
  | .assignment => .or
  | .or => .and
  | .and => .equality
  | .equality => .comparison
  | .comparison => .term
  | .term => .factor
  | .factor => .unary
  | .unary => .call
  | .call => .primary
  | .primary => .primary

end Precedence

end LoxCompiler
