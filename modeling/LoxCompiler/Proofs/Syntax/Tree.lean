import LoxCompiler.Token.Basic

/-! # Syntax trees

A program as a tree. The compiler builds none of them: they say which program a sequence of
tokens is, so that what is compiled can be compared with what was written.
-/

namespace LoxCompiler

/-- An expression. A method call is an expression of its own, since the access to the method
and the call are one instruction. -/
inductive Expression where
  | literal (value : Literal Symbol)
  | variable (name : Symbol)
  | assign (name : Symbol) (value : Expression)
  /-- The receiver of the method around it. -/
  | receiver
  | superGet (method : Symbol)
  | superCall (method : Symbol) (arguments : List Expression)
  /-- An expression in parentheses. -/
  | group (inner : Expression)
  | unary (op : Operator) (operand : Expression)
  | binary (op : Operator) (left right : Expression)
  | and (left right : Expression)
  | or (left right : Expression)
  | call (callee : Expression) (arguments : List Expression)
  | get (object : Expression) (property : Symbol)
  | set (object : Expression) (property : Symbol) (value : Expression)
  | invoke (object : Expression) (method : Symbol) (arguments : List Expression)

/-- Whether an expression ends in the name of a property, so that arguments after it make it a
method call. -/
def Expression.endsInName : Expression → Bool
  | .get _ _ | .superGet _ => true
  | _ => false

/-- The first clause of a counting loop. -/
inductive Initializer where
  | absent
  | variable (name : Symbol) (value : Option Expression)
  | expression (value : Expression)

mutual

/-- A statement. -/
inductive Statement where
  | expression (value : Expression)
  | print (value : Expression)
  | ifThen (condition : Expression) (body : Statement)
  | ifElse (condition : Expression) (body otherwise : Statement)
  | whileLoop (condition : Expression) (body : Statement)
  | forLoop (first : Initializer) (condition increment : Option Expression) (body : Statement)
  | ret (value : Option Expression)
  | block (inner : List Declaration)

/-- A declaration, or a statement where a declaration may stand. -/
inductive Declaration where
  | classDeclaration (name : Symbol) (superclass : Option Symbol) (methods : List FunctionTree)
  | funDeclaration (f : FunctionTree)
  | varDeclaration (name : Symbol) (value : Option Expression)
  | statement (s : Statement)

/-- A function or method: its name, its parameters and its body. -/
inductive FunctionTree where
  | mk (name : Symbol) (parameters : List Symbol) (body : List Declaration)

end

/-- The name of a function. -/
def FunctionTree.name : FunctionTree → Symbol
  | .mk name _ _ => name

/-- Whether an `else` after a statement would belong to an `if` inside it. -/
def Statement.endsOpen : Statement → Bool
  | .ifThen _ _ => true
  | .ifElse _ _ otherwise => otherwise.endsOpen
  | .whileLoop _ body | .forLoop _ _ _ body => body.endsOpen
  | .expression _ | .print _ | .ret _ | .block _ => false

end LoxCompiler
