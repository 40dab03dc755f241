import LoxCompiler.Proofs.Syntax.Grammar

/-! # The roles of names

Every name of a program has a role: it declares a local variable, it uses a variable, or it is the
name of something else. Lexical scoping says which local variables can be seen where a variable is
used, and the use is bound to the newest one of its name. Nothing here refers to the code.

To tell the occurrences of a name apart, the names of a tree are numbers of tokens, and what they
are called is a function of these numbers.
-/

namespace LoxCompiler

/-- What can be seen at some place: whether there is a scope around, and the local variables that can
be named, newest first. -/
structure Sight where
  inside : Bool
  visible : List Symbol

/-- The role of a name. -/
inductive Role where
  /-- A local variable is declared with `var` or as a parameter. -/
  | localVariable (name : Symbol)
  /-- A function or a class is declared inside a scope. -/
  | localValue (name : Symbol)
  /-- Anything is declared outside all scopes. -/
  | global (name : Symbol)
  /-- A variable is read or written, or it is a superclass, where some locals can be seen. -/
  | use (name : Symbol) (visible : List Symbol)
  /-- The name of a property or a method. -/
  | member (name : Symbol)
  /-- The contents of a string. -/
  | text (value : Symbol)

namespace Role

/-- The name that has a role. -/
def name : Role → Symbol
  | .localVariable name | .localValue name | .global name | .use name _ | .member name
  | .text name => name

/-- The kind of the token of a name. -/
def kind : Role → Kind
  | .localVariable name | .localValue name | .global name | .use name _ | .member name =>
      .identifier name
  | .text value => .literal (.string value)

variable {ν : Type} [DecidableEq ν]

/-- A name declares a variable or is bound to it, if names are called what the function says. -/
def Of (called : Symbol → ν) (declared : Symbol) : Role → Prop
  | .localVariable name => name = declared
  | .use name visible => visible.find? (fun v => called v = called name) = some declared
  | .localValue _ | .global _ | .member _ | .text _ => False

instance (called : Symbol → ν) (declared : Symbol) : DecidablePred (Of called declared)
  | .localVariable _ => inferInstanceAs (Decidable (_ = _))
  | .use _ _ => inferInstanceAs (Decidable (_ = _))
  | .localValue _ | .global _ | .member _ | .text _ => instDecidableFalse

end Role

namespace Sight

/-- The beginning of a scope. -/
def enter (s : Sight) : Sight := { s with inside := true }

/-- The place after a declaration, which makes a local if there is a scope around. -/
def declare (s : Sight) (name : Symbol) : Sight :=
  if s.inside then { s with visible := name :: s.visible } else s

/-- The role of the name of a variable in its declaration. -/
def «variable» (s : Sight) (name : Symbol) : Role :=
  if s.inside then .localVariable name else .global name

/-- The role of the name of a function or a class in its declaration. -/
def value (s : Sight) (name : Symbol) : Role :=
  if s.inside then .localValue name else .global name

end Sight

/-! ## The roles in trees -/

/-- The role of a string. -/
def Literal.roles : Literal Symbol → List Role
  | .string value => [.text value]
  | .number _ | .boolean _ | .nil => []

mutual

/-- The roles of the names in an expression, in the order of its tokens. -/
def Expression.roles (visible : List Symbol) : Expression → List Role
  | .literal value => value.roles
  | .variable name => [.use name visible]
  | .assign name value => .use name visible :: value.roles visible
  | .receiver => []
  | .superGet method => [.member method]
  | .superCall method arguments => .member method :: Expression.rolesEach visible arguments
  | .group inner => inner.roles visible
  | .unary _ operand => operand.roles visible
  | .binary _ left right | .and left right | .or left right =>
      left.roles visible ++ right.roles visible
  | .call callee arguments => callee.roles visible ++ Expression.rolesEach visible arguments
  | .get object property => object.roles visible ++ [.member property]
  | .set object property value => object.roles visible ++ .member property :: value.roles visible
  | .invoke object method arguments =>
      object.roles visible ++ .member method :: Expression.rolesEach visible arguments

/-- The roles in some expressions. -/
def Expression.rolesEach (visible : List Symbol) : List Expression → List Role
  | [] => []
  | e :: es => e.roles visible ++ Expression.rolesEach visible es

end

/-- The roles in an expression that may be absent. -/
def Expression.rolesOption (visible : List Symbol) : Option Expression → List Role
  | none => []
  | some e => e.roles visible

/-- The place after the first clause of a loop. -/
def Initializer.seen (s : Sight) : Initializer → Sight
  | .variable name _ => s.declare name
  | .absent | .expression _ => s

/-- The roles in the first clause of a loop. A variable cannot be seen in its initial value. -/
def Initializer.roles (s : Sight) : Initializer → List Role
  | .absent => []
  | .variable name value => s.variable name :: Expression.rolesOption s.visible value
  | .expression value => value.roles s.visible

/-- The place after a declaration. -/
def Declaration.seen (s : Sight) : Declaration → Sight
  | .classDeclaration name _ _ | .varDeclaration name _ => s.declare name
  | .funDeclaration f => s.declare f.name
  | .statement _ => s

/-- The role of the name of a superclass. -/
def Declaration.superclassRoles (visible : List Symbol) : Option Symbol → List Role
  | none => []
  | some superclass => [.use superclass visible]

mutual

/-- The roles in a statement. -/
def Statement.roles (s : Sight) : Statement → List Role
  | .expression value | .print value => value.roles s.visible
  | .ifThen condition body | .whileLoop condition body =>
      condition.roles s.visible ++ body.roles s
  | .ifElse condition body otherwise =>
      condition.roles s.visible ++ (body.roles s ++ otherwise.roles s)
  | .forLoop first condition increment body =>
      let inside := first.seen s.enter
      first.roles s.enter ++ (Expression.rolesOption inside.visible condition ++
        (Expression.rolesOption inside.visible increment ++ body.roles inside))
  | .ret value => Expression.rolesOption s.visible value
  | .block inner => Declaration.rolesEach s.enter inner

/-- The roles in a declaration. A function or a class can be seen inside itself. -/
def Declaration.roles (s : Sight) : Declaration → List Role
  | .classDeclaration name superclass methods =>
      s.value name :: (Declaration.superclassRoles (s.declare name).visible superclass ++
        FunctionTree.rolesEach (s.declare name).visible methods)
  | .funDeclaration f => s.value f.name :: f.roles (s.declare f.name).visible
  | .varDeclaration name value => s.variable name :: Expression.rolesOption s.visible value
  | .statement body => body.roles s

/-- The roles in some declarations in a row. -/
def Declaration.rolesEach (s : Sight) : List Declaration → List Role
  | [] => []
  | d :: ds => d.roles s ++ Declaration.rolesEach (d.seen s) ds

/-- The roles in a function after its name. Its parameters can be seen in its body. -/
def FunctionTree.roles (visible : List Symbol) : FunctionTree → List Role
  | .mk _ parameters body =>
      parameters.map .localVariable ++
        Declaration.rolesEach ⟨true, parameters.reverse ++ visible⟩ body

/-- The roles in some methods. -/
def FunctionTree.rolesEach (visible : List Symbol) : List FunctionTree → List Role
  | [] => []
  | f :: fs => .member f.name :: (f.roles visible ++ FunctionTree.rolesEach visible fs)

end

/-- The roles in a program. -/
def Declaration.programRoles (ds : List Declaration) : List Role :=
  Declaration.rolesEach ⟨false, []⟩ ds

/-! ## The tokens of names -/

/-- The name of a token, if it has one. The contents of a string are a name. -/
def TokenKind.name? {ν : Type} : TokenKind ν → Option ν
  | .identifier name | .literal (.string name) => some name
  | _ => none

/-- The tokens that have a name. -/
def named (ts : List Kind) : List Kind := ts.filter fun kind => kind.name?.isSome

@[simp] theorem named_nil : named [] = [] := rfl

@[simp] theorem named_append (ts us : List Kind) : named (ts ++ us) = named ts ++ named us :=
  List.filter_append ..

theorem named_cons (kind : Kind) (ts : List Kind) :
    named (kind :: ts) = if kind.name?.isSome then kind :: named ts else named ts :=
  List.filter_cons

theorem Role.name?_kind (r : Role) : r.kind.name? = some r.name := by
  cases r <;> rfl

@[simp] theorem Role.kind_use (x : Symbol) (visible : List Symbol) :
    (use x visible).kind = .identifier x := rfl

@[simp] theorem Role.kind_member (x : Symbol) : (member x).kind = .identifier x := rfl

@[simp] theorem Role.kind_text (x : Symbol) : (text x).kind = .literal (.string x) := rfl

@[simp] theorem Role.kind_localVariable (x : Symbol) : (localVariable x).kind = .identifier x := rfl

@[simp] theorem Sight.kind_variable (s : Sight) (name : Symbol) :
    (s.variable name).kind = .identifier name := by
  unfold Sight.variable
  split <;> rfl

@[simp] theorem Sight.kind_value (s : Sight) (name : Symbol) :
    (s.value name).kind = .identifier name := by
  unfold Sight.value
  split <;> rfl

section Tokens

attribute [local simp] named_cons TokenKind.name?

variable {visible : List Symbol}

mutual

/-- The names of an expression are those of its tokens, in order. -/
theorem Expression.Spelled.kinds : ∀ {level : Precedence} {e : Expression} {ts : List Kind},
    e.Spelled level ts → (e.roles visible).map Role.kind = named ts
  | _, _, _, .weaken he => he.kinds
  | _, _, _, .assign he => by simp [Expression.roles, he.kinds]
  | _, _, _, .set ho he => by simp [Expression.roles, ho.kinds, he.kinds]
  | _, _, _, .or hl hr | _, _, _, .and hl hr | _, _, _, .binary _ hl hr => by
      simp [Expression.roles, hl.kinds, hr.kinds]
  | _, _, _, .unary _ he | _, _, _, .get he | _, _, _, .group he => by
      simp [Expression.roles, he.kinds]
  | _, _, _, .call _ hf hes => by simp [Expression.roles, hf.kinds, hes.kinds]
  | _, _, _, .invoke ho hes => by simp [Expression.roles, ho.kinds, hes.kinds]
  | _, _, _, .superCall hes => by simp [Expression.roles, hes.kinds]
  | _, _, _, .superGet | _, _, _, .receiver | _, _, _, .variable => by simp [Expression.roles]
  | _, .literal value, _, .literal => by
      cases value <;> simp [Expression.roles, Literal.roles]

theorem Expression.SpelledEach.kinds : ∀ {es : List Expression} {ts : List Kind},
    Expression.SpelledEach es ts →
      (Expression.rolesEach visible es).map Role.kind = named ts
  | _, _, .none => by simp [Expression.rolesEach]
  | _, _, .last he => by simp [Expression.rolesEach, he.kinds]
  | _, _, .more he hes => by
      have hrest := hes.kinds
      rw [Expression.rolesEach] at hrest ⊢
      simp [Expression.rolesEach, he.kinds, ← hrest]

end

theorem Expression.SpelledOption.kinds {value : Option Expression} {ts : List Kind}
    (h : Expression.SpelledOption value ts) :
    (Expression.rolesOption visible value).map Role.kind = named ts := by
  cases h with
  | none => rfl
  | some he => exact he.kinds

theorem Declaration.VariableSpelled.kinds {name : Symbol} {value : Option Expression}
    {ts : List Kind} (h : Declaration.VariableSpelled name value ts) :
    .identifier name :: (Expression.rolesOption visible value).map Role.kind = named ts := by
  cases h with
  | bare => rfl
  | initial he => simp [Expression.rolesOption, he.kinds]

theorem Initializer.Spelled.kinds {first : Initializer} {ts : List Kind} (h : first.Spelled ts)
    (s : Sight) : (first.roles s).map Role.kind = named ts := by
  cases h with
  | absent => rfl
  | «variable» h => simp [Initializer.roles, h.kinds]
  | expression he => simp [Initializer.roles, he.kinds]

theorem FunctionTree.kinds_parameterTokens (names : List Symbol) :
    named (FunctionTree.parameterTokens names) = names.map .identifier := by
  fun_induction FunctionTree.parameterTokens names with
  | case1 | case2 => rfl
  | case3 x y rest ih => simp [ih]

theorem Declaration.kinds_superclassTokens (superclass : Option Symbol) :
    (Declaration.superclassRoles visible superclass).map Role.kind =
      named (Declaration.superclassTokens superclass) := by
  cases superclass <;> rfl

mutual

theorem Statement.Spelled.kinds : ∀ {body : Statement} {ts : List Kind}, body.Spelled ts →
    ∀ s : Sight, (body.roles s).map Role.kind = named ts
  | _, _, .expression he, _ | _, _, .print he, _ => by simp [Statement.roles, he.kinds]
  | _, _, .ifThen he hb, _ | _, _, .whileLoop he hb, _ => by
      simp [Statement.roles, he.kinds, hb.kinds]
  | _, _, .ifElse _ he hb ho, _ => by simp [Statement.roles, he.kinds, hb.kinds, ho.kinds]
  | _, _, .forLoop hi he hn hb, _ => by
      simp [Statement.roles, hi.kinds, he.kinds, hn.kinds, hb.kinds]
  | _, _, .ret he, _ => by simp [Statement.roles, he.kinds]
  | _, _, .block hds, _ => by simp [Statement.roles, hds.kinds]

theorem Declaration.Spelled.kinds : ∀ {d : Declaration} {ts : List Kind}, d.Spelled ts →
    ∀ s : Sight, (d.roles s).map Role.kind = named ts
  | _, _, .classDeclaration hms, _ => by
      simp [Declaration.roles, Declaration.kinds_superclassTokens, hms.kinds]
  | _, _, .funDeclaration hf, s => by simp [Declaration.roles, hf.kinds]
  | _, _, .varDeclaration h, s => by simp [Declaration.roles, h.kinds]
  | _, _, .statement hs, s => by simp [Declaration.roles, hs.kinds]

theorem Declaration.SpelledEach.kinds : ∀ {ds : List Declaration} {ts : List Kind},
    Declaration.SpelledEach ds ts → ∀ s : Sight,
      (Declaration.rolesEach s ds).map Role.kind = named ts
  | _, _, .nil, _ => by simp [Declaration.rolesEach]
  | _, _, .cons hd hds, _ => by simp [Declaration.rolesEach, hd.kinds, hds.kinds]

theorem FunctionTree.Spelled.kinds : ∀ {f : FunctionTree} {ts : List Kind}, f.Spelled ts →
    ∀ visible : List Symbol, .identifier f.name :: (f.roles visible).map Role.kind = named ts
  | _, _, .mk hds, _ => by
      simp [FunctionTree.roles, FunctionTree.name, FunctionTree.kinds_parameterTokens, hds.kinds,
        Function.comp_def]

theorem FunctionTree.SpelledEach.kinds : ∀ {fs : List FunctionTree} {ts : List Kind},
    FunctionTree.SpelledEach fs ts → ∀ visible : List Symbol,
      (FunctionTree.rolesEach visible fs).map Role.kind = named ts
  | _, _, .nil, _ => by simp [FunctionTree.rolesEach]
  | _, _, .cons hf hfs, visible => by
      simp [FunctionTree.rolesEach, ← hf.kinds visible, hfs.kinds visible]

end

end Tokens

end LoxCompiler
