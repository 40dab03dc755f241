import LoxCompiler.Grammar.Expression
import LoxCompiler.Proofs.Blueprint.Plan
import LoxCompiler.Proofs.PostOrder.Rendering

/-! # Generating code from a tree

The code of an expression in post-order, generated from its tree. The generator works on what is
known of the functions under construction, except for their code: it looks up variables, which
may capture them, and it adds constants. What it gives is the code to append.
-/

namespace LoxCompiler

open Compile (unaryCode binaryCode)

variable {β : Type}

/-- A step of the generator. -/
abbrev Generate (β : Type) (α : Type) : Type := StateM (Frames β) α

/-- An instruction with one operand, which is the index of a constant for some opcodes. -/
def Step.operand (op : Opcode) (value : Nat) : Step :=
  if op.operands = .constant then .constant op value else .byte op value

theorem Step.cells_operand (level : Nat) (captures : List Variable) (op : Opcode) (value : Nat) :
    (Step.operand op value).cells level captures = [op.toByte.toNat, value] := by
  unfold Step.operand
  split <;> rfl

namespace Access

/-- The instruction that reads a variable. -/
def read (a : Access) : Step := .operand a.get a.operand

/-- The instruction that writes a variable. -/
def write (a : Access) : Step := .operand a.set a.operand

end Access

namespace Generate

theorem run_bind {α γ : Type} (x : Generate β α) (k : α → Generate β γ) (frames : Frames β) :
    (x >>= k) frames = k (x frames).1 (x frames).2 := rfl

theorem run_pure {α : Type} (a : α) (frames : Frames β) :
    (pure a : Generate β α) frames = (a, frames) := rfl

/-- Add a constant to the innermost function, and give its index. -/
def constant (value : Constant β) : Generate β Nat
  | [] => (0, [])
  | f :: outer => (f.constants.size, f.addConstant value :: outer)

/-- Access a variable that is a global one, whose name is a constant. -/
def global (name : Symbol) : Generate β Access := fun frames =>
  (⟨.getGlobal, .setGlobal, (constant (.string name) frames).1⟩, (constant (.string name) frames).2)

/-- Access a variable that is no local of the innermost function, given what the functions around
it say. -/
def outer (name : Symbol) :
    Frames β × Except Diagnostic.Problem (Option Nat) → Access × Frames β
  | (frames, .ok (some index)) => (⟨.getUpvalue, .setUpvalue, index⟩, frames)
  | (frames, .ok none) => global name frames
  | (frames, .error _) => (⟨.getUpvalue, .setUpvalue, 0⟩, frames)

/-- Access a variable: a local, a captured one, or else a global one. -/
def access (limits : Limits) (name : Symbol) : Generate β Access
  | [] => (⟨.getGlobal, .setGlobal, 0⟩, [])
  | f :: frames =>
      match f.resolveLocal name with
      | some (slot, _) => (⟨.getLocal, .setLocal, slot⟩, f :: frames)
      | none => outer name (Frames.resolveUpvalue limits name (f :: frames))

/-- The code that pushes a literal. -/
def push : Literal Symbol → Generate β (List Step)
  | .nil => return [.simple .pushNil]
  | .boolean true => return [.simple .pushTrue]
  | .boolean false => return [.simple .pushFalse]
  | .number value => return [.constant .constant (← constant (.number value))]
  | .string value => return [.constant .constant (← constant (.string value))]

end Generate

open Generate (constant access push)

section PostOrder

variable (limits : Limits) (names : ImplicitNames)

mutual

/-- The code of an expression in post-order: operands from left to right, and then the operator.
Conjunctions and disjunctions jump over their right operand. -/
def Expression.postOrder : Expression → Generate β (List Step)
  | .literal value => push value
  | .variable name => return [(← access limits name).read]
  | .assign name value => do
      let target ← access limits name
      let code ← value.postOrder
      return code ++ [target.write]
  | .receiver => return [(← access limits names.this).read]
  | .superGet method => do
      let index ← constant (.string method)
      let this ← access limits names.this
      let super ← access limits names.super
      return [this.read, super.read, .constant .getSuper index]
  | .superCall method arguments => do
      let index ← constant (.string method)
      let this ← access limits names.this
      let code ← Expression.postOrderEach arguments
      let super ← access limits names.super
      return [this.read] ++ code ++ [super.read, .invoke .superInvoke index arguments.length]
  | .group inner => inner.postOrder
  | .unary op operand => do
      let code ← operand.postOrder
      return code ++ (unaryCode (.operator op)).map .simple
  | .binary op left right => do
      let first ← left.postOrder
      let second ← right.postOrder
      return first ++ second ++ (binaryCode (.operator op)).map .simple
  | .and left right => do
      let first ← left.postOrder
      let second ← right.postOrder
      return first ++ [.jump .jumpIfFalse (1 + totalSize second), .simple .pop] ++ second
  | .or left right => do
      let first ← left.postOrder
      let second ← right.postOrder
      return first ++ [.jump .jumpIfFalse 3, .jump .jump (1 + totalSize second), .simple .pop] ++
        second
  | .call callee arguments => do
      let first ← callee.postOrder
      let code ← Expression.postOrderEach arguments
      return first ++ code ++ [.byte .call arguments.length]
  | .get object property => do
      let code ← object.postOrder
      let index ← constant (.string property)
      return code ++ [.constant .getProperty index]
  | .set object property value => do
      let first ← object.postOrder
      let index ← constant (.string property)
      let second ← value.postOrder
      return first ++ second ++ [.constant .setProperty index]
  | .invoke object method arguments => do
      let first ← object.postOrder
      let index ← constant (.string method)
      let code ← Expression.postOrderEach arguments
      return first ++ code ++ [.invoke .invoke index arguments.length]

/-- The code of some expressions, one after the other. -/
def Expression.postOrderEach : List Expression → Generate β (List Step)
  | [] => return []
  | e :: es => do
      let first ← e.postOrder
      let code ← Expression.postOrderEach es
      return first ++ code

end

mutual

/-- Parentheses leave no code. -/
theorem Expression.postOrder_ungroup (e : Expression) :
    (e.ungroup.postOrder limits names : Generate β (List Step)) = e.postOrder limits names := by
  cases e with
  | literal | «variable» | receiver | superGet => rfl
  | group inner =>
      rw [ungroup, postOrder]
      exact Expression.postOrder_ungroup inner
  | assign name value =>
      simp only [ungroup, postOrder, Expression.postOrder_ungroup value]
  | superCall method arguments =>
      simp only [ungroup, postOrder, Expression.postOrderEach_ungroupEach arguments,
        length_ungroupEach]
  | unary op operand => simp only [ungroup, postOrder, Expression.postOrder_ungroup operand]
  | binary op left right =>
      simp only [ungroup, postOrder, Expression.postOrder_ungroup left,
        Expression.postOrder_ungroup right]
  | and left right | or left right =>
      simp only [ungroup, postOrder, Expression.postOrder_ungroup left,
        Expression.postOrder_ungroup right]
  | call callee arguments =>
      simp only [ungroup, postOrder, Expression.postOrder_ungroup callee,
        Expression.postOrderEach_ungroupEach arguments, length_ungroupEach]
  | get object property => simp only [ungroup, postOrder, Expression.postOrder_ungroup object]
  | set object property value =>
      simp only [ungroup, postOrder, Expression.postOrder_ungroup object,
        Expression.postOrder_ungroup value]
  | invoke object method arguments =>
      simp only [ungroup, postOrder, Expression.postOrder_ungroup object,
        Expression.postOrderEach_ungroupEach arguments, length_ungroupEach]

theorem Expression.postOrderEach_ungroupEach (es : List Expression) :
    (Expression.postOrderEach limits names (Expression.ungroupEach es) :
      Generate β (List Step)) = Expression.postOrderEach limits names es := by
  cases es with
  | nil => rfl
  | cons e es =>
      simp only [ungroupEach, postOrderEach, Expression.postOrder_ungroup e,
        Expression.postOrderEach_ungroupEach es]

end

end PostOrder

end LoxCompiler
