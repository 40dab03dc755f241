import LoxCompiler.Proofs.Blueprint.Program
import LoxCompiler.Proofs.Control.Stack
import LoxCompiler.Proofs.Syntax.Grammar

/-! # The structure of compiled expressions

Conjunctions and disjunctions are structured code made of the code of their operands, and everything
else is code without control flow around the code of its parts. The code of every expression is
laid out like this, and pushes one value.
-/

namespace LoxCompiler

open Compile (unaryCode binaryCode)
open LoxCompiler.Flow (simple ofSteps)

mutual

/-- The structured code of an expression. -/
def Expression.flow (env : Environment) : Expression → Nat → Flow
  | .literal value, n => ofSteps (value.fragment n).code
  | .variable name, n => ofSteps (env.load name n).code
  | .assign name value, n =>
      (value.flow env (n + (env.locate name n).constants.length)).seq
        (ofSteps [(env.place name n).set])
  | .receiver, n => ofSteps (env.load env.names.this n).code
  | .superGet method, n => ofSteps ((Expression.superGet method).fragment env n).code
  | .superCall _ arguments, n =>
      let this := env.load env.names.this
      (((ofSteps (this (n + 1)).code).seq
        (Expression.flowEach env arguments (n + 1 + (this (n + 1)).constants.length))).seq
          (ofSteps (env.load env.names.super (n + 1 +
            ((this ++ Expression.fragmentEach env arguments) (n + 1)).constants.length)).code)).seq
            (ofSteps [.invoke .superInvoke n arguments.length])
  | .group inner, n => inner.flow env n
  | .unary op operand, n =>
      (operand.flow env n).seq (ofSteps ((unaryCode (.operator op)).map .simple))
  | .binary op left right, n =>
      ((left.flow env n).seq (right.flow env (n + (left.fragment env n).constants.length))).seq
        (ofSteps ((binaryCode (.operator op)).map .simple))
  /- The right operand is the result if the left one is true. -/
  | .and left right, n =>
      .when (left.flow env n)
        ((simple .pop).seq (right.flow env (n + (left.fragment env n).constants.length)))
  /- The right operand is the result if the left one is false. -/
  | .or left right, n =>
      .choose (left.flow env n) .skip
        ((simple .pop).seq (right.flow env (n + (left.fragment env n).constants.length)))
  | .call callee arguments, n =>
      ((callee.flow env n).seq
        (Expression.flowEach env arguments (n + (callee.fragment env n).constants.length))).seq
          (ofSteps [.byte .call arguments.length])
  | .get object _, n =>
      (object.flow env n).seq
        (ofSteps [.constant .getProperty (n + (object.fragment env n).constants.length)])
  | .set object _ value, n =>
      let index := n + (object.fragment env n).constants.length
      (object.flow env n).seq ((value.flow env (index + 1)).seq
        (ofSteps [.constant .setProperty index]))
  | .invoke object _ arguments, n =>
      let index := n + (object.fragment env n).constants.length
      (object.flow env n).seq ((Expression.flowEach env arguments (index + 1)).seq
        (ofSteps [.invoke .invoke index arguments.length]))

/-- The structured code of some expressions, one after the other. -/
def Expression.flowEach (env : Environment) : List Expression → Nat → Flow
  | [], _ => .skip
  | e :: es, n =>
      (e.flow env n).seq (Expression.flowEach env es (n + (e.fragment env n).constants.length))

end

/-! ## Accesses to variables -/

theorem Place.isPlain_get (place : Place) : place.get.isPlain = true := by cases place <;> rfl

theorem Place.isPlain_set (place : Place) : place.set.isPlain = true := by cases place <;> rfl

namespace Environment

variable (env : Environment) {h : Nat}

@[simp] theorem code_locate (name : Symbol) (n : Nat) : (env.locate name n).code = [] := by
  unfold locate
  cases env.place name 0 <;> rfl

@[simp] theorem code_load (name : Symbol) (n : Nat) :
    (env.load name n).code = [(env.place name n).get] := by
  show (env.locate name n).code ++ [(env.place name n).get] = _
  rw [code_locate, List.nil_append]

theorem moves_get (level : Nat) (hh : env.count ≤ h) (name : Symbol) (n : Nat) :
    (env.place name n).get.Moves level h (h + 1) := by
  have hpos := env.count_pos
  unfold place
  split
  · rename_i slot hslot
    have hlt : slot < env.count := slot?_lt hslot
    exact ⟨by simp only [Place.get, Place.step, Step.opcode, Opcode.takes]; omega, rfl,
      show slot < h by omega⟩
  · split <;> exact ⟨by simp only [Place.get, Place.step, Step.opcode, Opcode.takes]; omega, rfl,
      trivial⟩

theorem moves_set (level : Nat) (hh : env.count < h) (name : Symbol) (n : Nat) :
    (env.place name n).set.Moves level h h := by
  have hpos := env.count_pos
  unfold place
  split
  · rename_i slot hslot
    have hlt : slot < env.count := slot?_lt hslot
    exact ⟨by simp only [Place.set, Place.step, Step.opcode, Opcode.takes]; omega, rfl,
      show slot < h by omega⟩
  · split <;> exact ⟨by simp only [Place.set, Place.step, Step.opcode, Opcode.takes]; omega, rfl,
      trivial⟩

/-- The access to a variable is one instruction. -/
theorem straight_load (level : Nat) (hh : env.count ≤ h) (name : Symbol) (n : Nat) :
    Straight level (env.load name n).code h (h + 1) := by
  rw [env.code_load]
  exact .step (Place.isPlain_get _) (env.moves_get level hh name n)

end Environment

/-! ## Operators -/

theorem Straight.unaryCode {op : Operator} (hop : (Rule.ofOperator op).leading = some .unary)
    {level h : Nat} (hh : 0 < h) :
    Straight level ((Compile.unaryCode (.operator op)).map .simple) (h + 1) (h + 1) := by
  have hsimple {op : Opcode} (htakes : op.takes 0 = 1) (hgives : op.gives = 1) :
      (Step.simple op).Moves level (h + 1) (h + 1) :=
    ⟨show op.takes 0 < h + 1 by omega, show h + 1 + op.takes 0 = h + 1 + op.gives by omega, trivial⟩
  cases op <;> first | exact .step rfl (hsimple rfl rfl) | cases hop

theorem Straight.binaryCode {op : Operator} (hop : (Rule.ofOperator op).continuing = some .binary)
    {level h : Nat} (hh : 0 < h) :
    Straight level ((Compile.binaryCode (.operator op)).map .simple) (h + 2) (h + 1) := by
  have hsimple {op : Opcode} (htakes : op.takes 0 = 2) (hgives : op.gives = 1) :
      (Step.simple op).Moves level (h + 2) (h + 1) :=
    ⟨show op.takes 0 < h + 2 by omega, show h + 1 + op.takes 0 = h + 2 + op.gives by omega, trivial⟩
  have hnot : (Step.simple .not).Moves level (h + 1) (h + 1) := ⟨Nat.succ_lt_succ hh, rfl, trivial⟩
  cases op <;> first
    | exact .step rfl (hsimple rfl rfl)
    | exact .cons rfl (hsimple rfl rfl) (.step rfl hnot)
    | cases hop

/-! ## Expressions -/

/-- An expression is laid out with its parts in their places, and its code pushes one value. -/
def Expression.LaidOut (e : Expression) : Prop :=
  ∀ (env : Environment) (n h : Nat), env.count ≤ h →
    (e.flow env n).Codes (e.fragment env n).code env.level h (h + 1)

/-- Some expressions are laid out, and their code pushes as many values. -/
def Expression.LaidOutEach (es : List Expression) : Prop :=
  ∀ (env : Environment) (n h : Nat), env.count ≤ h →
    (Expression.flowEach env es n).Codes (Expression.fragmentEach env es n).code env.level h
      (h + es.length)

namespace Expression

variable {e l r o f v : Expression} {es : List Expression}

theorem laidOut_literal (value : Literal Symbol) : LaidOut (.literal value) := by
  intro env n h hh
  have hpos : 0 < h := Nat.lt_of_lt_of_le env.count_pos hh
  apply Straight.codes
  cases value with
  | nil | number value | string value => exact .step rfl ⟨hpos, rfl, trivial⟩
  | boolean value => cases value <;> exact .step rfl ⟨hpos, rfl, trivial⟩

theorem laidOut_variable (name : Symbol) : LaidOut (.variable name) :=
  fun env n _ hh => (env.straight_load env.level hh name n).codes

theorem laidOut_receiver : LaidOut .receiver :=
  fun env n _ hh => (env.straight_load env.level hh env.names.this n).codes

theorem laidOut_assign (name : Symbol) (hv : v.LaidOut) : LaidOut (.assign name v) := by
  intro env n h hh
  have hset := env.moves_set env.level (Nat.lt_succ_of_le hh) name n
  have hcode : (fragment env (.assign name v) n).code =
      (v.fragment env (n + (env.locate name n).constants.length)).code ++ [(env.place name n).set] := by
    show (env.locate name n).code ++ _ = _
    rw [env.code_locate, List.nil_append]
    rfl
  rw [hcode]
  exact (hv env _ h hh).seq (Straight.step (Place.isPlain_set _) hset).codes

theorem laidOut_superGet (method : Symbol) : LaidOut (.superGet method) := by
  intro env n h hh
  have hget {index : Nat} : (Step.constant .getSuper index).Moves env.level (h + 2) (h + 1) :=
    ⟨show 2 < h + 2 by have := env.count_pos; omega, rfl, trivial⟩
  exact (((env.straight_load _ hh _ _).append
    (env.straight_load _ (Nat.le_succ_of_le hh) _ _)).append (.step rfl hget)).codes

theorem laidOut_superCall (method : Symbol) (hes : LaidOutEach es) :
    LaidOut (.superCall method es) := by
  intro env n h hh
  have hpos := env.count_pos
  have hinvoke : (Step.invoke .superInvoke n es.length).Moves env.level
      (h + 1 + es.length + 1) (h + 1) :=
    ⟨by simp only [Step.opcode, Step.arguments, Opcode.takes]; omega,
      by simp only [Step.opcode, Step.arguments, Opcode.takes, Opcode.gives]; omega, trivial⟩
  exact (((env.straight_load _ hh _ _).codes.seq (hes env _ (h + 1) (by omega))).seq
    (env.straight_load _ (by omega) _ _).codes).seq (Straight.step rfl hinvoke).codes

theorem laidOut_group (h : e.LaidOut) : LaidOut (.group e) := h

theorem laidOut_unary {op : Operator} (hop : (Rule.ofOperator op).leading = some .unary)
    (ho : o.LaidOut) : LaidOut (.unary op o) := by
  intro env n h hh
  exact (ho env n h hh).seq (Straight.unaryCode hop (Nat.lt_of_lt_of_le env.count_pos hh)).codes

theorem laidOut_binary {op : Operator} (hop : (Rule.ofOperator op).continuing = some .binary)
    (hl : l.LaidOut) (hr : r.LaidOut) : LaidOut (.binary op l r) := by
  intro env n h hh
  exact ((hl env n h hh).seq (hr env _ (h + 1) (Nat.le_succ_of_le hh))).seq
    (Straight.binaryCode hop (Nat.lt_of_lt_of_le env.count_pos hh)).codes

theorem laidOut_and (hl : l.LaidOut) (hr : r.LaidOut) : LaidOut (.and l r) := by
  intro env n h hh
  have hpos : 0 < h := Nat.lt_of_lt_of_le env.count_pos hh
  exact (hl env n h hh).when (Nat.succ_lt_succ hpos) (.branch hpos (hr env _ h hh))

theorem laidOut_or (hl : l.LaidOut) (hr : r.LaidOut) : LaidOut (.or l r) := by
  intro env n h hh
  have hpos : 0 < h := Nat.lt_of_lt_of_le env.count_pos hh
  -- the jump between the operands brings no constant
  have hindex : ((l.fragment env ++ Fragment.step (.jump .jumpIfFalse 3)) n).constants.length =
      (l.fragment env n).constants.length := by
    rw [Fragment.append_apply, Piece.constants_append, Fragment.constants_step, List.append_nil]
  have hcodes := (hl env n h hh).choose (Nat.succ_lt_succ hpos) .skip (.branch hpos
    (hr env (n + (l.fragment env n).constants.length) h hh))
  rw [fragment, Fragment.code_append, hindex, Fragment.code_append]
  exact hcodes

theorem laidOut_call (hf : f.LaidOut) (hes : LaidOutEach es) : LaidOut (.call f es) := by
  intro env n h hh
  have hpos := env.count_pos
  have hcall : (Step.byte .call es.length).Moves env.level (h + 1 + es.length) (h + 1) :=
    ⟨by simp only [Step.opcode, Step.arguments, Opcode.takes]; omega,
      by simp only [Step.opcode, Step.arguments, Opcode.takes, Opcode.gives]; omega, trivial⟩
  exact ((hf env n h hh).seq (hes env _ (h + 1) (by omega))).seq (Straight.step rfl hcall).codes

theorem laidOut_get (property : Symbol) (ho : o.LaidOut) : LaidOut (.get o property) := by
  intro env n h hh
  have hget {index : Nat} : (Step.constant .getProperty index).Moves env.level (h + 1) (h + 1) :=
    ⟨Nat.succ_lt_succ (Nat.lt_of_lt_of_le env.count_pos hh), rfl, trivial⟩
  exact (ho env n h hh).seq (Straight.step rfl hget).codes

theorem laidOut_set (property : Symbol) (ho : o.LaidOut) (hv : v.LaidOut) :
    LaidOut (.set o property v) := by
  intro env n h hh
  have hset {index : Nat} : (Step.constant .setProperty index).Moves env.level (h + 2) (h + 1) :=
    ⟨show 2 < h + 2 by have := env.count_pos; omega, rfl, trivial⟩
  exact (ho env n h hh).seq ((hv env _ (h + 1) (Nat.le_succ_of_le hh)).seq
    (Straight.step rfl hset).codes)

theorem laidOut_invoke (property : Symbol) (ho : o.LaidOut) (hes : LaidOutEach es) :
    LaidOut (.invoke o property es) := by
  intro env n h hh
  have hpos := env.count_pos
  have hinvoke {index : Nat} : (Step.invoke .invoke index es.length).Moves env.level
      (h + 1 + es.length) (h + 1) :=
    ⟨by simp only [Step.opcode, Step.arguments, Opcode.takes]; omega,
      by simp only [Step.opcode, Step.arguments, Opcode.takes, Opcode.gives]; omega, trivial⟩
  exact (ho env n h hh).seq ((hes env _ (h + 1) (by omega)).seq (Straight.step rfl hinvoke).codes)

theorem laidOutEach_nil : LaidOutEach [] := fun _ _ _ _ => .skip

theorem laidOutEach_cons (he : e.LaidOut) (hes : LaidOutEach es) : LaidOutEach (e :: es) := by
  intro env n h hh
  have hcodes := (he env n h hh).seq
    (hes env (n + (e.fragment env n).constants.length) (h + 1) (Nat.le_succ_of_le hh))
  rwa [Nat.add_right_comm, Nat.add_assoc] at hcodes

mutual

/-- Every expression of the grammar is laid out. -/
theorem Spelled.laidOut : ∀ {level : Precedence} {e : Expression} {ts : List Kind},
    e.Spelled level ts → e.LaidOut
  | _, _, _, .weaken he => he.laidOut
  | _, _, _, .assign he => laidOut_assign _ he.laidOut
  | _, _, _, .set ho hv => laidOut_set _ ho.laidOut hv.laidOut
  | _, _, _, .or hl hr => laidOut_or hl.laidOut hr.laidOut
  | _, _, _, .and hl hr => laidOut_and hl.laidOut hr.laidOut
  | _, _, _, .binary hop hl hr => laidOut_binary hop hl.laidOut hr.laidOut
  | _, _, _, .unary hop ho => laidOut_unary hop ho.laidOut
  | _, _, _, .call _ hf hes => laidOut_call hf.laidOut hes.laidOut
  | _, _, _, .get ho => laidOut_get _ ho.laidOut
  | _, _, _, .invoke ho hes => laidOut_invoke _ ho.laidOut hes.laidOut
  | _, _, _, .superCall hes => laidOut_superCall _ hes.laidOut
  | _, _, _, .superGet => laidOut_superGet _
  | _, _, _, .receiver => laidOut_receiver
  | _, _, _, .variable => laidOut_variable _
  | _, _, _, .literal => laidOut_literal _
  | _, _, _, .group hi => laidOut_group hi.laidOut

theorem SpelledEach.laidOut : ∀ {es : List Expression} {ts : List Kind},
    SpelledEach es ts → LaidOutEach es
  | _, _, .none => laidOutEach_nil
  | _, _, .last he => laidOutEach_cons he.laidOut laidOutEach_nil
  | _, _, .more he hes => laidOutEach_cons he.laidOut hes.laidOut

end

end Expression

end LoxCompiler
