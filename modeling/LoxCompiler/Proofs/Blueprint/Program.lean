import LoxCompiler.Grammar.Expression
import LoxCompiler.Proofs.Blueprint.Environment
import LoxCompiler.Proofs.Syntax.Tree

/-! # The plan of a program

What a program compiles to, tree by tree. Each tree has the fragment that its environment asks
for, and declarations change the environment of what follows them.
-/

namespace LoxCompiler

open Compile (unaryCode binaryCode)
open Fragment (simple step steps withItem jumpOver)

/-- The code that pushes a literal. -/
def Literal.fragment : Literal Symbol → Fragment
  | .nil => simple .pushNil
  | .boolean true => simple .pushTrue
  | .boolean false => simple .pushFalse
  | .number value => withItem (.number value) fun index => step (.constant .constant index)
  | .string value => withItem (.string value) fun index => step (.constant .constant index)

mutual

/-- The code of an expression, which leaves its value on the stack. -/
def Expression.fragment (env : Environment) : Expression → Fragment
  | .literal value => value.fragment
  | .variable name => env.load name
  | .assign name value => env.reach name fun place => value.fragment env ++ step place.set
  | .receiver => env.load env.names.this
  | .superGet method => withItem (.string method) fun index =>
      env.load env.names.this ++ env.load env.names.super ++ step (.constant .getSuper index)
  | .superCall method arguments => withItem (.string method) fun index =>
      env.load env.names.this ++ Expression.fragmentEach env arguments ++
        env.load env.names.super ++ step (.invoke .superInvoke index arguments.length)
  | .group inner => inner.fragment env
  | .unary op operand =>
      operand.fragment env ++ steps ((unaryCode (.operator op)).map .simple)
  | .binary op left right =>
      left.fragment env ++ right.fragment env ++ steps ((binaryCode (.operator op)).map .simple)
  | .and left right =>
      left.fragment env ++ jumpOver .jumpIfFalse 0 (simple .pop ++ right.fragment env)
  | .or left right =>
      left.fragment env ++ step (.jump .jumpIfFalse 3) ++
        jumpOver .jump 0 (simple .pop ++ right.fragment env)
  | .call callee arguments =>
      callee.fragment env ++ Expression.fragmentEach env arguments ++
        step (.byte .call arguments.length)
  | .get object property =>
      object.fragment env ++ withItem (.string property) fun index =>
        step (.constant .getProperty index)
  | .set object property value =>
      object.fragment env ++ withItem (.string property) fun index =>
        value.fragment env ++ step (.constant .setProperty index)
  | .invoke object method arguments =>
      object.fragment env ++ withItem (.string method) fun index =>
        Expression.fragmentEach env arguments ++ step (.invoke .invoke index arguments.length)

/-- The code of some expressions, one after the other. -/
def Expression.fragmentEach (env : Environment) : List Expression → Fragment
  | [] => ∅
  | e :: es => e.fragment env ++ Expression.fragmentEach env es

end

/-- The code of an initial value, which is nil if there is none. -/
def Expression.initial (env : Environment) : Option Expression → Fragment
  | none => simple .pushNil
  | some value => value.fragment env

/-- The place after the first clause of a loop. -/
def Initializer.after (env : Environment) : Initializer → Environment
  | .variable name _ => env.declare name
  | .absent | .expression _ => env

/-- The code of the first clause of a loop. -/
def Initializer.fragment (env : Environment) : Initializer → Fragment
  | .absent => ∅
  | .variable name value => env.declaration name (Expression.initial env value)
  | .expression value => value.fragment env ++ simple .pop

/-- The place after a declaration. -/
def Declaration.after (env : Environment) : Declaration → Environment
  | .classDeclaration name _ _ | .varDeclaration name _ => env.declare name
  | .funDeclaration f => env.declare f.name
  | .statement _ => env

/-- The place after some declarations. -/
def Declaration.afterEach (env : Environment) (ds : List Declaration) : Environment :=
  ds.foldl Declaration.after env

/-- The code that returns from a function without a value: initializers return the receiver. -/
def FunctionKind.returnSteps : FunctionKind → List Step
  | .initializer => [.byte .getLocal 0, .simple .ret]
  | .function | .method | .script => [.simple .pushNil, .simple .ret]

/-- The kind of a method, which depends on its name. -/
def ImplicitNames.methodKind (names : ImplicitNames) (name : Symbol) : FunctionKind :=
  if name = names.init then .initializer else .method

/-- The code of a class after its name was declared. The methods are given with their classes
around and the place they are at. -/
def Environment.classFragment (env : Environment) (name : Symbol) (superclass : Option Symbol)
    (methods : Environment → Fragment) : Fragment :=
  match superclass with
  | none => env.load name ++ methods (env.inClass ⟨false⟩) ++ simple .pop
  | some superclass =>
      let inside := env.enter.declare env.names.super
      env.load superclass ++ env.leave inside
        (env.enter.reserve ++ inside.load name ++ simple .inherit ++ inside.load name ++
          methods (inside.inClass ⟨true⟩) ++ simple .pop)

mutual

/-- The code of a statement, which leaves the stack as it is. -/
def Statement.fragment (env : Environment) : Statement → Fragment
  | .expression value => value.fragment env ++ simple .pop
  | .print value => value.fragment env ++ simple .print
  | .ifThen condition body =>
      condition.fragment env ++ jumpOver .jumpIfFalse 3 (simple .pop ++ body.fragment env) ++
        jumpOver .jump 0 (simple .pop)
  | .ifElse condition body otherwise =>
      condition.fragment env ++ jumpOver .jumpIfFalse 3 (simple .pop ++ body.fragment env) ++
        jumpOver .jump 0 (simple .pop ++ otherwise.fragment env)
  | .whileLoop condition body =>
      .loop 0 (condition.fragment env ++
        jumpOver .jumpIfFalse 3 (simple .pop ++ body.fragment env)) ++ simple .pop
  | .forLoop first condition increment body =>
      let inside := first.after env.enter
      env.leave inside (first.fragment env.enter ++
        .counting (condition.map (Expression.fragment inside))
          (increment.map (Expression.fragment inside)) (body.fragment inside))
  | .ret none => steps env.kind.returnSteps
  | .ret (some value) => value.fragment env ++ simple .ret
  | .block inner =>
      env.leave (Declaration.afterEach env.enter inner) (Declaration.fragmentEach env.enter inner)

/-- The code of a declaration. The value of a local stays on the stack, which makes it the slot
of the local. -/
def Declaration.fragment (env : Environment) : Declaration → Fragment
  | .classDeclaration name superclass methods => withItem (.string name) fun index =>
      env.reserve ++ step (.constant .makeClass index) ++ env.define index ++
        (env.declare name).classFragment name superclass fun inside =>
          FunctionTree.fragmentEach inside methods
  | .funDeclaration f =>
      env.declaration f.name (FunctionTree.fragment .function (env.declare f.name) f)
  | .varDeclaration name value => env.declaration name (Expression.initial env value)
  | .statement s => s.fragment env

/-- The code of some declarations in a row. -/
def Declaration.fragmentEach (env : Environment) : List Declaration → Fragment
  | [] => ∅
  | d :: ds => d.fragment env ++ Declaration.fragmentEach (d.after env) ds

/-- The code that makes a closure of a function. -/
def FunctionTree.fragment (kind : FunctionKind) (env : Environment) : FunctionTree → Fragment
  | .mk name parameters body =>
      let inside := (env.function kind).declareEach parameters
      .closure env.level (some name) parameters.length
        ((env.function kind).reserveEach parameters ++ Declaration.fragmentEach inside body ++
          steps kind.returnSteps)

/-- The code that binds some methods to the class below them. -/
def FunctionTree.fragmentEach (env : Environment) : List FunctionTree → Fragment
  | [] => ∅
  | f :: fs =>
      withItem (.string f.name) (fun index =>
        FunctionTree.fragment (env.names.methodKind f.name) env f ++
          step (.constant .method index)) ++
        FunctionTree.fragmentEach env fs

end

/-- The place before a program. -/
def Environment.script (names : ImplicitNames) : Environment :=
  ⟨names, .script, [], .anonymous, [], []⟩

/-- The plan of a program. -/
def Declaration.plan (names : ImplicitNames) (ds : List Declaration) : Plan :=
  let body := Declaration.fragmentEach (.script names) ds ++ steps FunctionKind.script.returnSteps
  (body 0).plan 0 none 0

end LoxCompiler
