import LoxCompiler.Proofs.Scanning.Names
import LoxCompiler.Proofs.Syntax.Grammar

/-! # Other names

Programs with other symbols for their names. What is spelled by some tokens is spelled with other
names by the tokens with these names.
-/

namespace LoxCompiler

section Trees

variable (ρ : Symbol → Symbol)

/-- A literal with other names. -/
def Literal.rename : Literal Symbol → Literal Symbol
  | .string value => .string (ρ value)
  | .number value => .number value
  | .boolean value => .boolean value
  | .nil => .nil

theorem TokenKind.mapName_literal (value : Literal Symbol) :
    (TokenKind.literal value).mapName ρ = .literal (value.rename ρ) := by
  cases value <;> rfl

mutual

/-- An expression with other names. -/
def Expression.rename : Expression → Expression
  | .literal value => .literal (value.rename ρ)
  | .variable name => .variable (ρ name)
  | .assign name value => .assign (ρ name) value.rename
  | .receiver => .receiver
  | .superGet method => .superGet (ρ method)
  | .superCall method arguments => .superCall (ρ method) (Expression.renameEach arguments)
  | .group inner => .group inner.rename
  | .unary op operand => .unary op operand.rename
  | .binary op left right => .binary op left.rename right.rename
  | .and left right => .and left.rename right.rename
  | .or left right => .or left.rename right.rename
  | .call callee arguments => .call callee.rename (Expression.renameEach arguments)
  | .get object property => .get object.rename (ρ property)
  | .set object property value => .set object.rename (ρ property) value.rename
  | .invoke object method arguments =>
      .invoke object.rename (ρ method) (Expression.renameEach arguments)

/-- Some expressions with other names. -/
def Expression.renameEach : List Expression → List Expression
  | [] => []
  | e :: es => e.rename :: Expression.renameEach es

end

/-- The first clause of a loop with other names. -/
def Initializer.rename : Initializer → Initializer
  | .absent => .absent
  | .variable name value => .variable (ρ name) (value.map (Expression.rename ρ))
  | .expression value => .expression (value.rename ρ)

mutual

/-- A statement with other names. -/
def Statement.rename : Statement → Statement
  | .expression value => .expression (value.rename ρ)
  | .print value => .print (value.rename ρ)
  | .ifThen condition body => .ifThen (condition.rename ρ) body.rename
  | .ifElse condition body otherwise =>
      .ifElse (condition.rename ρ) body.rename otherwise.rename
  | .whileLoop condition body => .whileLoop (condition.rename ρ) body.rename
  | .forLoop first condition increment body =>
      .forLoop (first.rename ρ) (condition.map (Expression.rename ρ))
        (increment.map (Expression.rename ρ)) body.rename
  | .ret value => .ret (value.map (Expression.rename ρ))
  | .block inner => .block (Declaration.renameEach inner)

/-- A declaration with other names. -/
def Declaration.rename : Declaration → Declaration
  | .classDeclaration name superclass methods =>
      .classDeclaration (ρ name) (superclass.map ρ) (FunctionTree.renameEach methods)
  | .funDeclaration f => .funDeclaration f.rename
  | .varDeclaration name value => .varDeclaration (ρ name) (value.map (Expression.rename ρ))
  | .statement s => .statement s.rename

/-- Some declarations with other names. -/
def Declaration.renameEach : List Declaration → List Declaration
  | [] => []
  | d :: ds => d.rename :: Declaration.renameEach ds

/-- A function with other names. -/
def FunctionTree.rename : FunctionTree → FunctionTree
  | .mk name parameters body =>
      .mk (ρ name) (parameters.map ρ) (Declaration.renameEach body)

/-- Some methods with other names. -/
def FunctionTree.renameEach : List FunctionTree → List FunctionTree
  | [] => []
  | f :: fs => f.rename :: FunctionTree.renameEach fs

end

theorem FunctionTree.name_rename (f : FunctionTree) : (f.rename ρ).name = ρ f.name := by
  cases f
  rw [FunctionTree.rename]
  rfl

theorem Expression.length_renameEach (es : List Expression) :
    (Expression.renameEach ρ es).length = es.length := by
  induction es with
  | nil => rw [Expression.renameEach]
  | cons e es ih => rw [Expression.renameEach, List.length_cons, ih, List.length_cons]

theorem Expression.endsInName_rename (e : Expression) :
    (e.rename ρ).endsInName = e.endsInName := by
  cases e <;> rw [Expression.rename] <;> rfl

theorem Statement.endsOpen_rename : ∀ s : Statement, (s.rename ρ).endsOpen = s.endsOpen
  | .expression _ | .print _ | .ret _ | .block _ | .ifThen _ _ => by
      rw [Statement.rename, Statement.endsOpen, Statement.endsOpen]
  | .ifElse _ _ otherwise => by
      rw [Statement.rename, Statement.endsOpen, Statement.endsOpen,
        Statement.endsOpen_rename otherwise]
  | .whileLoop _ body | .forLoop _ _ _ body => by
      rw [Statement.rename, Statement.endsOpen, Statement.endsOpen,
        Statement.endsOpen_rename body]

end Trees

/-! ## No other names -/

theorem Literal.rename_id (value : Literal Symbol) : value.rename id = value := by
  cases value <;> rfl

mutual

@[simp] theorem Expression.rename_id (e : Expression) : e.rename id = e := by
  match e with
  | .literal value => rw [rename, value.rename_id]
  | .variable _ | .superGet _ => rw [rename]; rfl
  | .receiver => rw [rename]
  | .assign _ value => rw [rename, value.rename_id]; rfl
  | .superCall _ arguments => rw [rename, Expression.renameEach_id arguments]; rfl
  | .group inner => rw [rename, inner.rename_id]
  | .unary _ operand => rw [rename, operand.rename_id]
  | .binary _ left right | .and left right | .or left right =>
      rw [rename, left.rename_id, right.rename_id]
  | .call callee arguments => rw [rename, callee.rename_id, Expression.renameEach_id arguments]
  | .get object _ => rw [rename, object.rename_id]; rfl
  | .set object _ value => rw [rename, object.rename_id, value.rename_id]; rfl
  | .invoke object _ arguments =>
      rw [rename, object.rename_id, Expression.renameEach_id arguments]; rfl

@[simp] theorem Expression.renameEach_id (es : List Expression) :
    Expression.renameEach id es = es := by
  match es with
  | [] => rw [renameEach]
  | e :: es => rw [renameEach, e.rename_id, Expression.renameEach_id es]

end

theorem Expression.map_rename_id (value : Option Expression) :
    value.map (Expression.rename id) = value := by
  cases value with
  | none => rfl
  | some value => exact congrArg some value.rename_id

theorem Initializer.rename_id (first : Initializer) : first.rename id = first := by
  cases first with
  | absent => rfl
  | «variable» name value => rw [rename, Expression.map_rename_id]; rfl
  | expression value => rw [rename, value.rename_id]

mutual

theorem Statement.rename_id (s : Statement) : s.rename id = s := by
  match s with
  | .expression value | .print value => rw [Statement.rename, value.rename_id]
  | .ifThen condition body | .whileLoop condition body =>
      rw [Statement.rename, condition.rename_id, body.rename_id]
  | .ifElse condition body otherwise =>
      rw [Statement.rename, condition.rename_id, body.rename_id, otherwise.rename_id]
  | .forLoop first condition increment body =>
      rw [Statement.rename, first.rename_id, Expression.map_rename_id, Expression.map_rename_id,
        body.rename_id]
  | .ret value => rw [Statement.rename, Expression.map_rename_id]
  | .block inner => rw [Statement.rename, Declaration.renameEach_id inner]

theorem Declaration.rename_id (d : Declaration) : d.rename id = d := by
  match d with
  | .classDeclaration _ superclass methods =>
      rw [Declaration.rename, Option.map_id, FunctionTree.renameEach_id methods]; rfl
  | .funDeclaration f => rw [Declaration.rename, f.rename_id]
  | .varDeclaration _ value => rw [Declaration.rename, Expression.map_rename_id]; rfl
  | .statement s => rw [Declaration.rename, s.rename_id]

theorem Declaration.renameEach_id (ds : List Declaration) : Declaration.renameEach id ds = ds := by
  match ds with
  | [] => rw [Declaration.renameEach]
  | d :: ds => rw [Declaration.renameEach, d.rename_id, Declaration.renameEach_id ds]

theorem FunctionTree.rename_id (f : FunctionTree) : f.rename id = f := by
  match f with
  | .mk _ parameters body => rw [FunctionTree.rename, List.map_id, Declaration.renameEach_id body]; rfl

theorem FunctionTree.renameEach_id (fs : List FunctionTree) : FunctionTree.renameEach id fs = fs := by
  match fs with
  | [] => rw [FunctionTree.renameEach]
  | f :: fs => rw [FunctionTree.renameEach, f.rename_id, FunctionTree.renameEach_id fs]

end

/-! ## Spelling -/

section Spelling

variable {ρ : Symbol → Symbol}

mutual

/-- With other names an expression is spelled by the tokens with these names. -/
theorem Expression.Spelled.rename : ∀ {level : Precedence} {e : Expression} {ts : List Kind},
    e.Spelled level ts → (e.rename ρ).Spelled level (ts.map (TokenKind.mapName ρ))
  | _, _, _, .weaken he => .weaken he.rename
  | _, _, _, .assign he => by
      simpa [Expression.rename, TokenKind.mapName] using Expression.Spelled.assign he.rename
  | _, _, _, .set ho he => by
      simpa [Expression.rename, TokenKind.mapName] using Expression.Spelled.set ho.rename he.rename
  | _, _, _, .or hl hr => by
      simpa [Expression.rename, TokenKind.mapName] using Expression.Spelled.or hl.rename hr.rename
  | _, _, _, .and hl hr => by
      simpa [Expression.rename, TokenKind.mapName] using Expression.Spelled.and hl.rename hr.rename
  | _, _, _, .binary hop hl hr => by
      simpa [Expression.rename, TokenKind.mapName] using
        Expression.Spelled.binary hop hl.rename hr.rename
  | _, _, _, .unary hop he => by
      simpa [Expression.rename, TokenKind.mapName] using Expression.Spelled.unary hop he.rename
  | _, _, _, .call hname hf hes => by
      simpa [Expression.rename, TokenKind.mapName] using
        Expression.Spelled.call ((Expression.endsInName_rename ρ _).trans hname) hf.rename
          hes.rename
  | _, _, _, .get ho => by
      simpa [Expression.rename, TokenKind.mapName] using Expression.Spelled.get ho.rename
  | _, _, _, .invoke ho hes => by
      simpa [Expression.rename, TokenKind.mapName] using
        Expression.Spelled.invoke ho.rename hes.rename
  | _, _, _, .superCall hes => by
      simpa [Expression.rename, TokenKind.mapName] using Expression.Spelled.superCall hes.rename
  | _, _, _, .superGet => by
      rw [Expression.rename]
      exact .superGet
  | _, _, _, .receiver => by
      rw [Expression.rename]
      exact .receiver
  | _, _, _, .variable => by
      rw [Expression.rename]
      exact .variable
  | _, _, _, .literal => by
      rw [Expression.rename, List.map_singleton, TokenKind.mapName_literal]
      exact .literal
  | _, _, _, .group he => by
      simpa [Expression.rename, TokenKind.mapName] using Expression.Spelled.group he.rename

theorem Expression.SpelledEach.rename : ∀ {es : List Expression} {ts : List Kind},
    Expression.SpelledEach es ts →
      Expression.SpelledEach (Expression.renameEach ρ es) (ts.map (TokenKind.mapName ρ))
  | _, _, .none => by
      rw [Expression.renameEach]
      exact .none
  | _, _, .last he => by
      rw [Expression.renameEach, Expression.renameEach]
      exact .last he.rename
  | _, _, .more he hes => by
      have hrest := hes.rename
      rw [Expression.renameEach] at hrest
      simpa [Expression.renameEach, TokenKind.mapName] using
        Expression.SpelledEach.more he.rename hrest

end

theorem Expression.SpelledOption.rename {value : Option Expression} {ts : List Kind}
    (h : Expression.SpelledOption value ts) : Expression.SpelledOption
      (value.map (Expression.rename ρ)) (ts.map (TokenKind.mapName ρ)) := by
  cases h with
  | none => exact .none
  | some he => exact .some he.rename

theorem Declaration.VariableSpelled.rename {name : Symbol} {value : Option Expression}
    {ts : List Kind} (h : Declaration.VariableSpelled name value ts) :
    Declaration.VariableSpelled (ρ name) (value.map (Expression.rename ρ))
      (ts.map (TokenKind.mapName ρ)) := by
  cases h with
  | bare => exact .bare
  | initial he =>
      simpa [TokenKind.mapName] using Declaration.VariableSpelled.initial he.rename

theorem Initializer.Spelled.rename {first : Initializer} {ts : List Kind} (h : first.Spelled ts) :
    (first.rename ρ).Spelled (ts.map (TokenKind.mapName ρ)) := by
  cases h with
  | absent => exact .absent
  | «variable» h => exact .variable h.rename
  | expression he =>
      simpa [Initializer.rename, TokenKind.mapName] using Initializer.Spelled.expression he.rename

theorem FunctionTree.parameterTokens_map (names : List Symbol) :
    FunctionTree.parameterTokens (names.map ρ) =
      (FunctionTree.parameterTokens names).map (TokenKind.mapName ρ) := by
  fun_induction FunctionTree.parameterTokens names with
  | case1 => rfl
  | case2 => rfl
  | case3 x y rest ih => exact congrArg (_ :: _ :: ·) ih

theorem Declaration.superclassTokens_map (superclass : Option Symbol) :
    Declaration.superclassTokens (superclass.map ρ) =
      (Declaration.superclassTokens superclass).map (TokenKind.mapName ρ) := by
  cases superclass <;> rfl

mutual

theorem Statement.Spelled.rename : ∀ {s : Statement} {ts : List Kind}, s.Spelled ts →
    (s.rename ρ).Spelled (ts.map (TokenKind.mapName ρ))
  | _, _, .expression he => by
      simpa [Statement.rename, TokenKind.mapName] using Statement.Spelled.expression he.rename
  | _, _, .print he => by
      simpa [Statement.rename, TokenKind.mapName] using Statement.Spelled.print he.rename
  | _, _, .ifThen he hb => by
      simpa [Statement.rename, TokenKind.mapName] using
        Statement.Spelled.ifThen he.rename hb.rename
  | _, _, .ifElse hclosed he hb ho => by
      simpa [Statement.rename, TokenKind.mapName] using
        Statement.Spelled.ifElse ((Statement.endsOpen_rename ρ _).trans hclosed) he.rename
          hb.rename ho.rename
  | _, _, .whileLoop he hb => by
      simpa [Statement.rename, TokenKind.mapName] using
        Statement.Spelled.whileLoop he.rename hb.rename
  | _, _, .forLoop hi he hn hb => by
      simpa [Statement.rename, TokenKind.mapName] using
        Statement.Spelled.forLoop hi.rename he.rename hn.rename hb.rename
  | _, _, .ret he => by
      simpa [Statement.rename, TokenKind.mapName] using Statement.Spelled.ret he.rename
  | _, _, .block hds => by
      simpa [Statement.rename, TokenKind.mapName] using Statement.Spelled.block hds.rename

theorem Declaration.Spelled.rename : ∀ {d : Declaration} {ts : List Kind}, d.Spelled ts →
    (d.rename ρ).Spelled (ts.map (TokenKind.mapName ρ))
  | _, _, .classDeclaration hms => by
      simpa [Declaration.rename, TokenKind.mapName, ← Declaration.superclassTokens_map] using
        Declaration.Spelled.classDeclaration hms.rename
  | _, _, .funDeclaration hf => by
      simpa [Declaration.rename, TokenKind.mapName] using
        Declaration.Spelled.funDeclaration hf.rename
  | _, _, .varDeclaration h => by
      simpa [Declaration.rename, TokenKind.mapName] using
        Declaration.Spelled.varDeclaration h.rename
  | _, _, .statement hs => by
      rw [Declaration.rename]
      exact .statement hs.rename

theorem Declaration.SpelledEach.rename : ∀ {ds : List Declaration} {ts : List Kind},
    Declaration.SpelledEach ds ts →
      Declaration.SpelledEach (Declaration.renameEach ρ ds) (ts.map (TokenKind.mapName ρ))
  | _, _, .nil => by
      rw [Declaration.renameEach]
      exact .nil
  | _, _, .cons hd hds => by
      rw [Declaration.renameEach, List.map_append]
      exact .cons hd.rename hds.rename

theorem FunctionTree.Spelled.rename : ∀ {f : FunctionTree} {ts : List Kind}, f.Spelled ts →
    (f.rename ρ).Spelled (ts.map (TokenKind.mapName ρ))
  | _, _, .mk hds => by
      simpa [FunctionTree.rename, TokenKind.mapName, ← FunctionTree.parameterTokens_map] using
        FunctionTree.Spelled.mk hds.rename

theorem FunctionTree.SpelledEach.rename : ∀ {fs : List FunctionTree} {ts : List Kind},
    FunctionTree.SpelledEach fs ts →
      FunctionTree.SpelledEach (FunctionTree.renameEach ρ fs) (ts.map (TokenKind.mapName ρ))
  | _, _, .nil => by
      rw [FunctionTree.renameEach]
      exact .nil
  | _, _, .cons hf hfs => by
      rw [FunctionTree.renameEach, List.map_append]
      exact .cons hf.rename hfs.rename

end

end Spelling

end LoxCompiler
