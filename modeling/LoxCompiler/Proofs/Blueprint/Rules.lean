import LoxCompiler.Proofs.Blueprint.Program

/-! # Static rules

What a program must not do although its grammar allows it. The rules ask for the environment
only, and never for the code.
-/

namespace LoxCompiler

namespace Environment

variable (env : Environment)

/-- The innermost class around is one with a superclass. -/
def InSubclass : Prop := ∃ outer, env.classes = ⟨true⟩ :: outer

/-- The variable that cannot be read yet in the initial value of a variable. A global of that
name may be there from before. -/
def fresh (name : Symbol) : Option Symbol :=
  match env.scopes with
  | [] => none
  | _ :: _ => some name

/-- Whether some names may be declared one after the other. -/
def FreeEach (env : Environment) : List Symbol → Prop
  | [] => True
  | name :: names => env.Free name ∧ FreeEach (env.declare name) names

end Environment

mutual

/-- The static rules of expressions, where one local may be declared but not be readable yet. -/
def Expression.Allowed (env : Environment) (fresh : Option Symbol) : Expression → Prop
  | .literal _ => True
  | .variable name => fresh ≠ some name
  | .assign name value => fresh ≠ some name ∧ value.Allowed env fresh
  | .receiver => env.classes ≠ []
  | .superGet _ => env.InSubclass
  | .superCall _ arguments => env.InSubclass ∧ Expression.AllowedEach env fresh arguments
  | .group inner => inner.Allowed env fresh
  | .unary _ operand => operand.Allowed env fresh
  | .binary _ left right | .and left right | .or left right =>
      left.Allowed env fresh ∧ right.Allowed env fresh
  | .call callee arguments =>
      callee.Allowed env fresh ∧ Expression.AllowedEach env fresh arguments
  | .get object _ => object.Allowed env fresh
  | .set object _ value => object.Allowed env fresh ∧ value.Allowed env fresh
  | .invoke object _ arguments =>
      object.Allowed env fresh ∧ Expression.AllowedEach env fresh arguments

/-- The static rules of some expressions. -/
def Expression.AllowedEach (env : Environment) (fresh : Option Symbol) : List Expression → Prop
  | [] => True
  | e :: es => e.Allowed env fresh ∧ Expression.AllowedEach env fresh es

end

/-- The static rules of an expression that may be absent. -/
def Expression.AllowedOption (env : Environment) (fresh : Option Symbol) :
    Option Expression → Prop
  | none => True
  | some value => value.Allowed env fresh

/-- The static rules of a variable with its initial value. -/
def Declaration.VariableAllowed (env : Environment) (name : Symbol) (value : Option Expression) :
    Prop :=
  env.Free name ∧ Expression.AllowedOption env (env.fresh name) value

/-- The static rules of the first clause of a loop. -/
def Initializer.Allowed (env : Environment) : Initializer → Prop
  | .absent => True
  | .variable name value => Declaration.VariableAllowed env name value
  | .expression value => value.Allowed env none

/-- The place where the methods of a class stand, after its name was declared. -/
def Environment.classBody (env : Environment) : Option Symbol → Environment
  | none => env.inClass ⟨false⟩
  | some _ => (env.enter.declare env.names.super).inClass ⟨true⟩

mutual

/-- The static rules of statements. -/
def Statement.Allowed (env : Environment) : Statement → Prop
  | .expression value | .print value => value.Allowed env none
  | .ifThen condition body | .whileLoop condition body =>
      condition.Allowed env none ∧ body.Allowed env
  | .ifElse condition body otherwise =>
      condition.Allowed env none ∧ body.Allowed env ∧ otherwise.Allowed env
  | .forLoop first condition increment body =>
      let inside := first.after env.enter
      first.Allowed env.enter ∧ Expression.AllowedOption inside none condition ∧
        Expression.AllowedOption inside none increment ∧ body.Allowed inside
  | .ret none => env.kind ≠ .script
  | .ret (some value) =>
      env.kind ≠ .script ∧ env.kind ≠ .initializer ∧ value.Allowed env none
  | .block inner => Declaration.AllowedEach env.enter inner

/-- The static rules of declarations. -/
def Declaration.Allowed (env : Environment) : Declaration → Prop
  | .classDeclaration name superclass methods =>
      env.Free name ∧ superclass ≠ some name ∧
        FunctionTree.AllowedEach ((env.declare name).classBody superclass) methods
  | .funDeclaration f => env.Free f.name ∧ FunctionTree.Allowed .function (env.declare f.name) f
  | .varDeclaration name value => Declaration.VariableAllowed env name value
  | .statement s => s.Allowed env

/-- The static rules of some declarations in a row. -/
def Declaration.AllowedEach (env : Environment) : List Declaration → Prop
  | [] => True
  | d :: ds => d.Allowed env ∧ Declaration.AllowedEach (d.after env) ds

/-- The static rules of a function. Its parameters are in the scope of its body. -/
def FunctionTree.Allowed (kind : FunctionKind) (env : Environment) : FunctionTree → Prop
  | .mk _ parameters body =>
      (env.function kind).FreeEach parameters ∧
        Declaration.AllowedEach ((env.function kind).declareEach parameters) body

/-- The static rules of some methods. -/
def FunctionTree.AllowedEach (env : Environment) : List FunctionTree → Prop
  | [] => True
  | f :: fs =>
      FunctionTree.Allowed (env.names.methodKind f.name) env f ∧ FunctionTree.AllowedEach env fs

end

end LoxCompiler
