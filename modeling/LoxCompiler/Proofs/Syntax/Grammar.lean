import LoxCompiler.Expression.Rule
import LoxCompiler.Proofs.Syntax.Tree

/-! # The grammar

Which tokens spell which tree. Expressions are stratified by precedence, from assignments down
to the primary expressions; each level holds what the next stronger one does, and one form of
its own. An `else` belongs to the nearest `if`, and arguments after the name of a property make
a method call.
-/

namespace LoxCompiler

/-- The kinds of token that the compiler works with. -/
abbrev Kind := TokenKind Symbol

mutual

/-- The tokens that spell an expression at a level of precedence. -/
inductive Expression.Spelled : Precedence → Expression → List Kind → Prop where
  /-- What a stronger level spells, a weaker one does too. -/
  | weaken {level e ts} : Expression.Spelled level.next e ts → Expression.Spelled level e ts
  | assign {x e ts} : Expression.Spelled .assignment e ts →
      Expression.Spelled .assignment (.assign x e) (.identifier x :: .operator .assign :: ts)
  | set {o p e ts us} : Expression.Spelled .call o ts → Expression.Spelled .assignment e us →
      Expression.Spelled .assignment (.set o p e)
        (ts ++ .dot :: .identifier p :: .operator .assign :: us)
  | or {l r ts us} : Expression.Spelled .and l ts → Expression.Spelled .or r us →
      Expression.Spelled .or (.or l r) (ts ++ .operator .or :: us)
  | and {l r ts us} : Expression.Spelled .equality l ts → Expression.Spelled .and r us →
      Expression.Spelled .and (.and l r) (ts ++ .operator .and :: us)
  /-- Equality, comparison, terms and factors associate to the left. -/
  | binary {op l r ts us} (isBinary : (Rule.ofOperator op).continuing = some .binary) :
      Expression.Spelled (Rule.ofOperator op).precedence l ts →
      Expression.Spelled (Rule.ofOperator op).precedence.next r us →
      Expression.Spelled (Rule.ofOperator op).precedence (.binary op l r)
        (ts ++ .operator op :: us)
  | unary {op e ts} (isUnary : (Rule.ofOperator op).leading = some .unary) :
      Expression.Spelled .unary e ts →
      Expression.Spelled .unary (.unary op e) (.operator op :: ts)
  | call {f es ts us} (noMethod : f.endsInName = false) : Expression.Spelled .call f ts →
      Expression.SpelledEach es us →
      Expression.Spelled .call (.call f es) (ts ++ .openParen :: us ++ [.closeParen])
  | get {o p ts} : Expression.Spelled .call o ts →
      Expression.Spelled .call (.get o p) (ts ++ [.dot, .identifier p])
  | invoke {o m es ts us} : Expression.Spelled .call o ts → Expression.SpelledEach es us →
      Expression.Spelled .call (.invoke o m es)
        (ts ++ .dot :: .identifier m :: .openParen :: us ++ [.closeParen])
  | superCall {m es us} : Expression.SpelledEach es us →
      Expression.Spelled .call (.superCall m es)
        (.keyword .superWord :: .dot :: .identifier m :: .openParen :: us ++ [.closeParen])
  | superGet {m} : Expression.Spelled .primary (.superGet m)
      [.keyword .superWord, .dot, .identifier m]
  | receiver : Expression.Spelled .primary .receiver [.keyword .thisWord]
  | variable {x} : Expression.Spelled .primary (.variable x) [.identifier x]
  | literal {l} : Expression.Spelled .primary (.literal l) [.literal l]
  | group {e ts} : Expression.Spelled .assignment e ts →
      Expression.Spelled .primary (.group e) (.openParen :: ts ++ [.closeParen])

/-- The tokens that spell some expressions with commas between. -/
inductive Expression.SpelledEach : List Expression → List Kind → Prop where
  | none : Expression.SpelledEach [] []
  | last {e ts} : Expression.Spelled .assignment e ts → Expression.SpelledEach [e] ts
  | more {e e' es ts us} : Expression.Spelled .assignment e ts →
      Expression.SpelledEach (e' :: es) us →
      Expression.SpelledEach (e :: e' :: es) (ts ++ .comma :: us)

end

/-- The tokens that spell an expression that may be absent. -/
inductive Expression.SpelledOption : Option Expression → List Kind → Prop where
  | none : Expression.SpelledOption .none []
  | some {e ts} : Expression.Spelled .assignment e ts → Expression.SpelledOption (.some e) ts

/-- The tokens that spell the name of a variable with its initial value and a semicolon. -/
inductive Declaration.VariableSpelled : Symbol → Option Expression → List Kind → Prop where
  | bare {x} : Declaration.VariableSpelled x none [.identifier x, .semicolon]
  | initial {x e ts} : Expression.Spelled .assignment e ts →
      Declaration.VariableSpelled x (some e)
        (.identifier x :: .operator .assign :: ts ++ [.semicolon])

/-- The tokens that spell the first clause of a counting loop. -/
inductive Initializer.Spelled : Initializer → List Kind → Prop where
  | absent : Initializer.Spelled .absent [.semicolon]
  | variable {x e ts} : Declaration.VariableSpelled x e ts →
      Initializer.Spelled (.variable x e) (.keyword .varWord :: ts)
  | expression {e ts} : Expression.Spelled .assignment e ts →
      Initializer.Spelled (.expression e) (ts ++ [.semicolon])

/-- The tokens that spell some names with commas between. -/
def FunctionTree.parameterTokens : List Symbol → List Kind
  | [] => []
  | [x] => [.identifier x]
  | x :: y :: rest => .identifier x :: .comma :: parameterTokens (y :: rest)

/-- The tokens that spell the superclass of a class. -/
def Declaration.superclassTokens : Option Symbol → List Kind
  | none => []
  | some x => [.operator .less, .identifier x]

mutual

/-- The tokens that spell a statement. -/
inductive Statement.Spelled : Statement → List Kind → Prop where
  | expression {e ts} : Expression.Spelled .assignment e ts →
      Statement.Spelled (.expression e) (ts ++ [.semicolon])
  | print {e ts} : Expression.Spelled .assignment e ts →
      Statement.Spelled (.print e) (.keyword .printWord :: ts ++ [.semicolon])
  | ifThen {e b ts us} : Expression.Spelled .assignment e ts → Statement.Spelled b us →
      Statement.Spelled (.ifThen e b)
        (.keyword .ifWord :: .openParen :: ts ++ .closeParen :: us)
  /-- The first branch must not be waiting for an `else` itself. -/
  | ifElse {e b o ts us vs} (closed : b.endsOpen = false) :
      Expression.Spelled .assignment e ts → Statement.Spelled b us → Statement.Spelled o vs →
      Statement.Spelled (.ifElse e b o)
        (.keyword .ifWord :: .openParen :: ts ++ .closeParen :: us ++ .keyword .elseWord :: vs)
  | whileLoop {e b ts us} : Expression.Spelled .assignment e ts → Statement.Spelled b us →
      Statement.Spelled (.whileLoop e b)
        (.keyword .whileWord :: .openParen :: ts ++ .closeParen :: us)
  | forLoop {i e n b ts us vs ws} : Initializer.Spelled i ts →
      Expression.SpelledOption e us → Expression.SpelledOption n vs → Statement.Spelled b ws →
      Statement.Spelled (.forLoop i e n b)
        (.keyword .forWord :: .openParen :: ts ++ us ++ .semicolon :: vs ++ .closeParen :: ws)
  | ret {e ts} : Expression.SpelledOption e ts →
      Statement.Spelled (.ret e) (.keyword .returnWord :: ts ++ [.semicolon])
  | block {ds ts} : Declaration.SpelledEach ds ts →
      Statement.Spelled (.block ds) (.openBrace :: ts ++ [.closeBrace])

/-- The tokens that spell a declaration. -/
inductive Declaration.Spelled : Declaration → List Kind → Prop where
  | classDeclaration {x y ms ts} : FunctionTree.SpelledEach ms ts →
      Declaration.Spelled (.classDeclaration x y ms)
        (.keyword .classWord :: .identifier x :: Declaration.superclassTokens y ++
          .openBrace :: ts ++ [.closeBrace])
  | funDeclaration {f ts} : FunctionTree.Spelled f ts →
      Declaration.Spelled (.funDeclaration f) (.keyword .funWord :: ts)
  | varDeclaration {x e ts} : Declaration.VariableSpelled x e ts →
      Declaration.Spelled (.varDeclaration x e) (.keyword .varWord :: ts)
  | statement {s ts} : Statement.Spelled s ts → Declaration.Spelled (.statement s) ts

/-- The tokens that spell some declarations in a row. -/
inductive Declaration.SpelledEach : List Declaration → List Kind → Prop where
  | nil : Declaration.SpelledEach [] []
  | cons {d ds ts us} : Declaration.Spelled d ts → Declaration.SpelledEach ds us →
      Declaration.SpelledEach (d :: ds) (ts ++ us)

/-- The tokens that spell a function from its name on. -/
inductive FunctionTree.Spelled : FunctionTree → List Kind → Prop where
  | mk {x ps ds ts} : Declaration.SpelledEach ds ts →
      FunctionTree.Spelled (.mk x ps ds)
        (.identifier x :: .openParen :: FunctionTree.parameterTokens ps ++
          .closeParen :: .openBrace :: ts ++ [.closeBrace])

/-- The tokens that spell some methods in a row. -/
inductive FunctionTree.SpelledEach : List FunctionTree → List Kind → Prop where
  | nil : FunctionTree.SpelledEach [] []
  | cons {f fs ts us} : FunctionTree.Spelled f ts → FunctionTree.SpelledEach fs us →
      FunctionTree.SpelledEach (f :: fs) (ts ++ us)

end

end LoxCompiler
