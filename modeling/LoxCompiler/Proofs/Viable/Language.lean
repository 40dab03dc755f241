import LoxCompiler.Proofs.Viable.Goal

/-! # What goals stand for

The tokens that fulfil a goal, said by the grammar alone. What a goal is refined to is fulfilled
only by tokens that fulfil the goal, and there are such tokens for every goal. So whatever was read,
some program continues it.
-/

namespace LoxCompiler

/-! ## Trees put together -/

namespace Goal

/-- The tokens that fulfil a goal. What may come after a part of something is what makes it whole,
whatever the part is. -/
def Spells : Goal → List Kind → Prop
  | token k, ts => ts = [k]
  | name, ts => ∃ x, ts = [.identifier x]
  | expression level, ts => level ≤ .unary → ∃ e, Expression.Spelled level e ts
  | afterName level, ts => level ≤ .unary → ∀ x,
      ∃ e, Expression.Spelled level e (.identifier x :: ts)
  | afterProperty level, ts => level ≤ .unary → ∀ o us p, Expression.Spelled .call o us →
      ∃ e, Expression.Spelled level e (us ++ .dot :: .identifier p :: ts)
  | afterSuper, ts => ts = [] ∨ ∃ es us, Expression.SpelledEach es us ∧
      ts = .openParen :: us ++ [.closeParen]
  | operators level own, ts => level ≤ .unary → level ≤ own → ∀ o us, Expression.Spelled own o us →
      ∃ e, Expression.Spelled level e (us ++ ts)
  | arguments, ts => ∃ es us, Expression.SpelledEach es us ∧ ts = us ++ [.closeParen]
  | moreArguments, ts => ∀ e us, Expression.Spelled .assignment e us →
      ∃ e' es vs, Expression.SpelledEach (e' :: es) vs ∧ us ++ ts = vs ++ [.closeParen]
  | optional closing, ts => ∃ e us, Expression.SpelledOption e us ∧ ts = us ++ [closing]
  | statement, ts => ∃ b, Statement.Spelled b ts
  | otherwise, ts => ts = [] ∨ ∃ b us, Statement.Spelled b us ∧ ts = .keyword .elseWord :: us
  | first, ts => ∃ i, Initializer.Spelled i ts
  | initial, ts => ∀ x, ∃ e, Declaration.VariableSpelled x e (.identifier x :: ts)
  | parameters, ts => ∃ ps, ts = FunctionTree.parameterTokens ps ++ [.closeParen]
  | moreParameters, ts => ∀ p, ∃ ps,
      .identifier p :: ts = FunctionTree.parameterTokens (p :: ps) ++ [.closeParen]
  | superclass, ts => ∃ y, ts = Declaration.superclassTokens y
  | declaration, ts => ∃ d, Declaration.Spelled d ts
  | methods, ts => ∃ fs us, FunctionTree.SpelledEach fs us ∧ ts = us ++ [.closeBrace]
  | block, ts => ∃ ds us, Declaration.SpelledEach ds us ∧ ts = us ++ [.closeBrace]
  | script, ts => ∃ ds us, Declaration.SpelledEach ds us ∧ ts = us ++ [.endOfInput]

variable {gs gs' : List Goal} {g : Goal} {k : Kind} {ts us : List Kind}

section Expressions

variable {level own : Precedence} {o : Expression}

end Expressions

end Goal

end LoxCompiler
