import LoxCompiler.Proofs.Parsing.Step

/-! # Goals

A parser that knows nothing but what has to come next: a stack of goals, which the next token
refines or fulfils. A token that does neither is one that no program continues with.
-/

namespace LoxCompiler

/-- A part of a program that has to come next. -/
inductive Goal where
  | token (k : Kind)
  | name
  | expression (level : Precedence)
  /-- What may come after an identifier that starts an expression of some level. -/
  | afterName (level : Precedence)
  /-- What may come after the name of a property, in an expression of some level. -/
  | afterProperty (level : Precedence)
  /-- What may come after the name of a method of the superclass. -/
  | afterSuper
  /-- What may come, in an expression of some level, after a part of it with its own level. -/
  | operators (level own : Precedence)
  /-- Arguments after their opening parenthesis. -/
  | arguments
  /-- What may come after an argument. -/
  | moreArguments
  /-- An expression that may be absent, and a token after it. -/
  | optional (closing : Kind)
  | statement
  /-- What may come after the first branch of a choice. -/
  | otherwise
  /-- The first clause of a counting loop. -/
  | first
  /-- What comes after the name of a variable. -/
  | initial
  /-- Parameters after their opening parenthesis. -/
  | parameters
  /-- What may come after a parameter. -/
  | moreParameters
  /-- What may come after the name of a class. -/
  | superclass
  | declaration
  /-- The methods of a class and its closing brace. -/
  | methods
  /-- The declarations of a block and its closing brace. -/
  | block
  /-- Declarations up to the end of the input. -/
  | script

namespace Goal

/-- What comes after a token that starts an expression of some level. -/
def lead (level : Precedence) : Leading → List Goal
  | .grouping => [expression .assignment, token .closeParen, operators level .primary]
  | .unary => [expression .unary, operators level .unary]
  | .number | .string | .literal | .receiver => [operators level .primary]
  | .name => [afterName level]
  | .superclass => [token .dot, name, afterSuper, operators level .call]

/-- What comes after an operator of a level of its own, in an expression of some level. -/
def extend (level own : Precedence) : Continuing → List Goal
  | .binary | .and | .or => [expression own.edge, operators level own]
  | .call => [arguments, operators level .call]
  | .property => [name, afterProperty level]

/-- The goals of a function from its name on. -/
def function : List Goal :=
  [name, token .openParen, parameters, token .openBrace, block]

/-- The goals of a statement that starts with a token. -/
def startStatement : Kind → List Goal
  | .keyword .printWord =>
      [token (.keyword .printWord), expression .assignment, token .semicolon]
  | .keyword .forWord =>
      [token (.keyword .forWord), token .openParen, first, optional .semicolon,
        optional .closeParen, statement]
  | .keyword .ifWord =>
      [token (.keyword .ifWord), token .openParen, expression .assignment, token .closeParen,
        statement, otherwise]
  | .keyword .returnWord => [token (.keyword .returnWord), optional .semicolon]
  | .keyword .whileWord =>
      [token (.keyword .whileWord), token .openParen, expression .assignment, token .closeParen,
        statement]
  | .openBrace => [token .openBrace, block]
  | _ => [expression .assignment, token .semicolon]

/-- The goals of a declaration that starts with a token. -/
def startDeclaration : Kind → List Goal
  | .keyword .classWord =>
      [token (.keyword .classWord), name, superclass, token .openBrace, methods]
  | .keyword .funWord => token (.keyword .funWord) :: function
  | .keyword .varWord => [token (.keyword .varWord), name, initial]
  | _ => [statement]

/-- What a goal comes to before a token, if the token may come next. -/
def refine : Goal → Kind → Option (List Goal)
  | token _, _ => none
  | name, .identifier x => some [token (.identifier x)]
  | name, _ => none
  | expression level, k => (Rule.ofKind k).leading.map fun leading => token k :: lead level leading
  | afterName level, k =>
      if k = .operator .assign ∧ level ≤ .assignment then
        some [token (.operator .assign), expression .assignment]
      else some [operators level .primary]
  | afterProperty level, k =>
      if k = .operator .assign ∧ level ≤ .assignment then
        some [token (.operator .assign), expression .assignment]
      else if k = .openParen then some [token .openParen, arguments, operators level .call]
      else some [operators level .call]
  | afterSuper, k => some (if k = .openParen then [token .openParen, arguments] else [])
  | operators level own, k =>
      if level ≤ (Rule.ofKind k).precedence then
        if own.edge ≤ (Rule.ofKind k).precedence then none
        else (Rule.ofKind k).continuing.map fun continuing =>
          token k :: extend level (Rule.ofKind k).precedence continuing
      else if k = .operator .assign ∧ level ≤ .assignment then none
      else some []
  | arguments, k =>
      some (if k = .closeParen then [token .closeParen]
        else [expression .assignment, moreArguments])
  | moreArguments, k =>
      some (if k = .comma then [token .comma, expression .assignment, moreArguments]
        else [token .closeParen])
  | optional closing, k =>
      some (if k = closing then [token closing] else [expression .assignment, token closing])
  | statement, k => some (startStatement k)
  | otherwise, k =>
      some (if k = .keyword .elseWord then [token (.keyword .elseWord), statement] else [])
  | first, k =>
      some (if k = .semicolon then [token .semicolon]
        else if k = .keyword .varWord then [token (.keyword .varWord), name, initial]
        else [expression .assignment, token .semicolon])
  | initial, k =>
      some (if k = .operator .assign then
        [token (.operator .assign), expression .assignment, token .semicolon]
        else [token .semicolon])
  | parameters, k =>
      some (if k = .closeParen then [token .closeParen] else [name, moreParameters])
  | moreParameters, k =>
      some (if k = .comma then [token .comma, name, moreParameters] else [token .closeParen])
  | superclass, k =>
      some (if k = .operator .less then [token (.operator .less), name] else [])
  | declaration, k => some (startDeclaration k)
  | methods, k =>
      some (if k = .closeBrace ∨ k = .endOfInput then [token .closeBrace]
        else function ++ [methods])
  | block, k =>
      some (if k = .closeBrace ∨ k = .endOfInput then [token .closeBrace] else [declaration, block])
  | script, k =>
      some (if k = .endOfInput then [token .endOfInput] else [declaration, script])

end Goal

/-- While some tokens are read, some goals become other ones, and tokens are left. -/
inductive Leads : List Goal → List Kind → List Goal → List Kind → Prop where
  | refl {gs ts} : Leads gs ts gs ts
  /-- The next token fulfils the first goal. -/
  | take {k gs ts gs' ts'} : Leads gs ts gs' ts' → Leads (.token k :: gs) (k :: ts) gs' ts'
  /-- The next token refines the first goal. -/
  | refine {g new k gs ts gs' ts'} : g.refine k = some new → Leads (new ++ gs) (k :: ts) gs' ts' →
      Leads (g :: gs) (k :: ts) gs' ts'

/-- The next token neither fulfils nor refines the first goal. -/
def Stuck (gs : List Goal) (k : Kind) : Prop :=
  ∀ g ∈ gs.head?, g ≠ .token k ∧ g.refine k = none

namespace Leads

variable {gs gs' gs'' : List Goal} {ts ts' ts'' : List Kind} {k : Kind}

theorem trans (h : Leads gs ts gs' ts') (h' : Leads gs' ts' gs'' ts'') : Leads gs ts gs'' ts'' := by
  induction h with
  | refl => exact h'
  | take _ ih => exact .take (ih h')
  | refine hnew _ ih => exact .refine hnew (ih h')

/-- Where a token is stuck, the goals are never all fulfilled. -/
theorem not_fulfilled (h : Leads gs ts gs' (k :: ts')) (hstuck : Stuck gs' k) :
    ¬ Leads gs ts [] [] := by
  generalize hrest : k :: ts' = rest at h
  induction h with
  | refl =>
      subst hrest
      intro hall
      cases hall with
      | take _ => exact (hstuck _ rfl).1 rfl
      | refine hnew _ => exact Option.some_ne_none _ (hnew.symm.trans (hstuck _ rfl).2)
  | take _ ih =>
      intro hall
      cases hall with
      | take hall => exact ih hstuck hrest hall
      | refine hnew _ => cases hnew
  | refine hnew _ ih =>
      intro hall
      cases hall with
      | take _ => cases hnew
      | refine hnew' hall =>
          obtain rfl := Option.some.inj (hnew.symm.trans hnew')
          exact ih hstuck hrest hall

end Leads

end LoxCompiler
