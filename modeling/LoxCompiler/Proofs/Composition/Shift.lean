import LoxCompiler.Proofs.Control.Scopes

/-! # Code after other constants

A fragment depends on how many constants there are before its own. With more of them it is the same,
except that its instructions refer to its constants by greater numbers. The functions nested in it
have constants of their own, and stay as they are.
-/

namespace LoxCompiler

/-- An instruction that refers to a constant as many places later. -/
def Step.shift (d : Nat) : Step → Step
  | .constant op index => .constant op (index + d)
  | .invoke op name arguments => .invoke op (name + d) arguments
  | .closure index captures => .closure (index + d) captures
  | .simple op => .simple op
  | .byte op operand => .byte op operand
  | .captured op v => .captured op v
  | .jump op distance => .jump op distance
  | .pending op => .pending op

namespace Step

variable (d : Nat)

@[simp] theorem size_shift (s : Step) : (s.shift d).size = s.size := by
  cases s <;> rfl

theorem fits_shift {limits : Limits} {s : Step} : (s.shift d).Fits limits ↔ s.Fits limits := by
  cases s <;> rfl

@[simp] theorem totalSize_map_shift (code : List Step) :
    totalSize (code.map (shift d)) = totalSize code := by
  induction code with
  | nil => rfl
  | cons s code ih => rw [List.map_cons, totalSize_cons, totalSize_cons, ih, size_shift]

end Step

/-- A variable whose name is a constant as many places later, if it is global. -/
def Place.shift (d : Nat) : Place → Place
  | .slot n => .slot n
  | .captured v => .captured v
  | .global index => .global (index + d)

theorem Place.step_shift (d : Nat) (ofSlot ofCaptured ofGlobal : Opcode) (place : Place) :
    (place.shift d).step ofSlot ofCaptured ofGlobal =
      (place.step ofSlot ofCaptured ofGlobal).shift d := by
  cases place <;> rfl

/-- A piece whose instructions refer to constants as many places later. -/
def Piece.shift (d : Nat) (p : Piece) : Piece := { p with code := p.code.map (Step.shift d) }

namespace Piece

variable (d : Nat) (p q : Piece)

@[simp] theorem code_shift : (p.shift d).code = p.code.map (Step.shift d) := rfl

@[simp] theorem constants_shift : (p.shift d).constants = p.constants := rfl

@[simp] theorem uses_shift : (p.shift d).uses = p.uses := rfl

@[simp] theorem slots_shift : (p.shift d).slots = p.slots := rfl

@[simp] theorem size_shift : (p.shift d).size = p.size := Step.totalSize_map_shift d p.code

theorem shift_append : (p ++ q).shift d = p.shift d ++ q.shift d := by
  ext1 <;> simp

theorem shift_jumpOver (op : Opcode) (extra : Nat) :
    (p.jumpOver op extra).shift d = (p.shift d).jumpOver op extra := by
  ext1
  · simp only [jumpOver, code_shift, size_shift, List.map_cons, Step.shift]
  · rfl
  · rfl
  · rfl

theorem map_shift_dropSteps (level base : Nat) (uses : List Variable) (count : Nat) :
    (dropSteps level base uses count).map (Step.shift d) = dropSteps level base uses count := by
  induction count with
  | zero => rfl
  | succ count ih => rw [dropSteps, List.map_cons, ih, dropStep, Step.shift]

theorem shift_drop (level base count : Nat) :
    (p.drop level base count).shift d = (p.shift d).drop level base count := by
  ext1
  · simp only [drop, code_shift, uses_shift, List.map_append, map_shift_dropSteps]
  · rfl
  · rfl
  · rfl

end Piece

/-! ## Fragments -/

namespace Fragment

/-- The second fragment is after some more constants what the first one is without them. -/
def Moves (d : Nat) (f g : Fragment) : Prop := ∀ n, g (n + d) = (f n).shift d

namespace Moves

variable {d : Nat} {f f' g g' : Fragment}

theorem empty : Moves d ∅ ∅ := fun _ => rfl

theorem append (hf : Moves d f f') (hg : Moves d g g') : Moves d (f ++ g) (f' ++ g') := by
  intro n
  rw [append_apply, append_apply, Piece.shift_append, hf n, Piece.constants_shift, ← hg,
    Nat.add_right_comm]

/-- Instructions that refer to no constants. -/
theorem steps {code : List Step} (h : ∀ s ∈ code, s.shift d = s) :
    Moves d (Fragment.steps code) (Fragment.steps code) := by
  intro n
  ext1
  · exact ((List.map_congr_left h).trans (List.map_id' _)).symm
  · rfl
  · rfl
  · rfl

theorem simpleEach (ops : List Opcode) :
    Moves d (Fragment.steps (ops.map .simple)) (Fragment.steps (ops.map .simple)) := by
  apply steps
  intro s hs
  obtain ⟨op, -, rfl⟩ := List.mem_map.mp hs
  rfl

theorem step {s s' : Step} (h : s' = s.shift d) : Moves d (.step s) (.step s') := by
  subst h
  exact fun _ => rfl

theorem use (vs : List Variable) : Moves d (.use vs) (.use vs) := fun _ => rfl

theorem reserve (slots : Nat) : Moves d (.reserve slots) (.reserve slots) := fun _ => rfl

theorem item (value : Item) : Moves d (.item value) (.item value) := fun _ => rfl

theorem withItem {value : Item} {f f' : Nat → Fragment} (h : ∀ n, Moves d (f n) (f' (n + d))) :
    Moves d (withItem value f) (withItem value f') :=
  fun n => ((item value).append (h n)) n

theorem sized {g g' : Nat → Fragment} (hf : Moves d f f') (hg : ∀ size, Moves d (g size) (g' size)) :
    Moves d (sized f g) (sized f' g') := by
  intro n
  show (f' ++ g' (f' (n + d)).size) (n + d) = _
  rw [hf n, Piece.size_shift]
  exact (hf.append (hg _)) n

theorem jumpOver (hf : Moves d f f') (op : Opcode) (extra : Nat) :
    Moves d (jumpOver op extra f) (jumpOver op extra f') := by
  intro n
  show (f' (n + d)).jumpOver op extra = ((f n).jumpOver op extra).shift d
  rw [hf n, Piece.shift_jumpOver]

theorem loop (hf : Moves d f f') (before : Nat) : Moves d (loop before f) (loop before f') :=
  hf.sized fun _ => step rfl

theorem drop (hf : Moves d f f') (level base count : Nat) :
    Moves d (drop level base count f) (drop level base count f') := by
  intro n
  show (f' (n + d)).drop level base count = ((f n).drop level base count).shift d
  rw [hf n, Piece.shift_drop]

theorem counting {condition increment : Option Fragment} (hcondition : ∀ c ∈ condition, Moves d c c)
    (hincrement : ∀ i ∈ increment, Moves d i i) (hf : Moves d f f) :
    Moves d (counting condition increment f) (counting condition increment f) := by
  have hpop : Moves d (Fragment.simple .pop) (Fragment.simple .pop) := step rfl
  have hrounds (size : Nat) :
      Moves d (counting.rounds increment f size) (counting.rounds increment f size) := by
    cases increment with
    | none => exact hf.loop size
    | some i =>
        exact (((((hincrement i rfl).append hpop).loop _).jumpOver _ _).append hf).sized
          fun _ => step rfl
  cases condition with
  | none => exact hrounds 0
  | some c =>
      exact (hcondition c rfl).sized fun size =>
        ((hpop.append (hrounds (size + 4))).jumpOver _ _).append hpop

/-- A function has constants of its own. -/
theorem closure (level : Nat) (name : Option Symbol) (arity : Nat) (body : Fragment) :
    Moves d (closure level name arity body) (closure level name arity body) :=
  (use _).append (withItem fun _ => step rfl)

end Moves

end Fragment

/-! ## Programs -/

open Fragment (Moves)

variable {d : Nat}

namespace Environment

variable (env : Environment)

theorem place_add (name : Symbol) (n : Nat) :
    env.place name (n + d) = (env.place name n).shift d := by
  unfold place
  cases slot? name env.locals with
  | some slot => rfl
  | none => cases Variable.find? name env.outer <;> rfl

theorem moves_locate (name : Symbol) : Moves d (env.locate name) (env.locate name) := by
  unfold locate
  cases env.place name 0 with
  | slot _ => exact .empty
  | captured v => exact .use [v]
  | global _ => exact .item _

theorem moves_reach (name : Symbol) {f : Place → Fragment}
    (h : ∀ place : Place, Moves d (f place) (f (place.shift d))) :
    Moves d (env.reach name f) (env.reach name f) := by
  intro n
  have hplace := h (env.place name n)
  rw [← place_add] at hplace
  exact ((env.moves_locate name).append hplace) n

theorem moves_load (name : Symbol) : Moves d (env.load name) (env.load name) :=
  env.moves_reach name fun place => .step (place.step_shift d _ _ _)

theorem moves_reserve : Moves d env.reserve env.reserve := by
  unfold reserve
  split
  · exact .empty
  · exact .reserve _

theorem moves_header (name : Symbol) : Moves d (env.header name) (env.header name) := by
  unfold header
  split
  · exact .item _
  · exact env.moves_reserve

theorem moves_define (n : Nat) : Moves d (env.define n) (env.define (n + d)) := by
  unfold define
  split
  · exact .step rfl
  · exact .empty

theorem moves_declaration (name : Symbol) {value : Fragment} (h : Moves d value value) :
    Moves d (env.declaration name value) (env.declaration name value) :=
  fun n => (((env.moves_header name).append h).append (env.moves_define n)) n

end Environment

theorem Literal.moves_fragment (value : Literal Symbol) : Moves d value.fragment value.fragment := by
  cases value with
  | nil => exact .step rfl
  | boolean value => cases value <;> exact .step rfl
  | number value | string value => exact .withItem fun _ => .step rfl

mutual

/-- The code of an expression after more constants. -/
theorem Expression.moves_fragment (env : Environment) (e : Expression) :
    Moves d (e.fragment env) (e.fragment env) := by
  cases e with
  | literal value => exact value.moves_fragment
  | «variable» name => exact env.moves_load name
  | assign name value =>
      exact env.moves_reach name fun place =>
        (Expression.moves_fragment env value).append (.step (place.step_shift d _ _ _))
  | receiver => exact env.moves_load _
  | superGet method =>
      exact .withItem fun _ => ((env.moves_load _).append (env.moves_load _)).append (.step rfl)
  | superCall method arguments =>
      exact .withItem fun _ => (((env.moves_load _).append
        (Expression.moves_fragmentEach env arguments)).append (env.moves_load _)).append (.step rfl)
  | group inner => exact Expression.moves_fragment env inner
  | unary op operand => exact (Expression.moves_fragment env operand).append (.simpleEach _)
  | binary op left right =>
      exact ((Expression.moves_fragment env left).append
        (Expression.moves_fragment env right)).append (.simpleEach _)
  | and left right =>
      exact (Expression.moves_fragment env left).append
        ((Moves.append (.step rfl) (Expression.moves_fragment env right)).jumpOver _ _)
  | or left right =>
      exact ((Expression.moves_fragment env left).append (.step rfl)).append
        ((Moves.append (.step rfl) (Expression.moves_fragment env right)).jumpOver _ _)
  | call callee arguments =>
      exact ((Expression.moves_fragment env callee).append
        (Expression.moves_fragmentEach env arguments)).append (.step rfl)
  | get object property =>
      exact (Expression.moves_fragment env object).append (.withItem fun _ => .step rfl)
  | set object property value =>
      exact (Expression.moves_fragment env object).append
        (.withItem fun _ => (Expression.moves_fragment env value).append (.step rfl))
  | invoke object method arguments =>
      exact (Expression.moves_fragment env object).append
        (.withItem fun _ => (Expression.moves_fragmentEach env arguments).append (.step rfl))

theorem Expression.moves_fragmentEach (env : Environment) (es : List Expression) :
    Moves d (Expression.fragmentEach env es) (Expression.fragmentEach env es) := by
  cases es with
  | nil => exact .empty
  | cons e es =>
      exact (Expression.moves_fragment env e).append (Expression.moves_fragmentEach env es)

end

theorem Expression.moves_initial (env : Environment) (value : Option Expression) :
    Moves d (Expression.initial env value) (Expression.initial env value) := by
  cases value with
  | none => exact .step rfl
  | some value => exact value.moves_fragment env

theorem Expression.moves_of_mem_map (env : Environment) (value : Option Expression) :
    ∀ f ∈ value.map (Expression.fragment env), Moves d f f := by
  intro f hf
  obtain ⟨e, -, rfl⟩ := Option.map_eq_some_iff.mp hf
  exact e.moves_fragment env

theorem Initializer.moves_fragment (env : Environment) (first : Initializer) :
    Moves d (first.fragment env) (first.fragment env) := by
  cases first with
  | absent => exact .empty
  | «variable» name value => exact env.moves_declaration name (Expression.moves_initial env value)
  | expression value => exact (value.moves_fragment env).append (.step rfl)

theorem FunctionKind.moves_returnSteps (kind : FunctionKind) :
    Moves d (.steps kind.returnSteps) (.steps kind.returnSteps) := by
  cases kind <;> exact .steps (by simp [FunctionKind.returnSteps, Step.shift])

theorem FunctionTree.moves_fragment (kind : FunctionKind) (env : Environment) (f : FunctionTree) :
    Moves d (f.fragment kind env) (f.fragment kind env) := by
  cases f with
  | mk name parameters body => exact .closure _ _ _ _

theorem FunctionTree.moves_fragmentEach (env : Environment) (fs : List FunctionTree) :
    Moves d (FunctionTree.fragmentEach env fs) (FunctionTree.fragmentEach env fs) := by
  induction fs with
  | nil => exact .empty
  | cons f fs ih =>
      exact (Moves.withItem fun _ => (f.moves_fragment _ env).append (.step rfl)).append ih

theorem Environment.moves_classFragment (env : Environment) (name : Symbol)
    (superclass : Option Symbol) {methods : Environment → Fragment}
    (h : ∀ env, Moves d (methods env) (methods env)) :
    Moves d (env.classFragment name superclass methods)
      (env.classFragment name superclass methods) := by
  cases superclass with
  | none => exact ((env.moves_load name).append (h _)).append (.step rfl)
  | some superclass =>
      let inside := env.enter.declare env.names.super
      exact (env.moves_load superclass).append (.drop
        (((((env.enter.moves_reserve.append (inside.moves_load name)).append (.step rfl)).append
          (inside.moves_load name)).append (h _)).append (.step rfl)) _ _ _)

mutual

/-- The code of a statement after more constants. -/
theorem Statement.moves_fragment (env : Environment) (s : Statement) :
    Moves d (s.fragment env) (s.fragment env) := by
  cases s with
  | expression value | print value => exact (value.moves_fragment env).append (.step rfl)
  | ifThen condition body =>
      exact ((condition.moves_fragment env).append
        ((Moves.append (.step rfl) (Statement.moves_fragment env body)).jumpOver _ _)).append
          ((Moves.step rfl).jumpOver _ _)
  | ifElse condition body otherwise =>
      exact ((condition.moves_fragment env).append
        ((Moves.append (.step rfl) (Statement.moves_fragment env body)).jumpOver _ _)).append
          ((Moves.append (.step rfl) (Statement.moves_fragment env otherwise)).jumpOver _ _)
  | whileLoop condition body =>
      exact (((condition.moves_fragment env).append
        ((Moves.append (.step rfl) (Statement.moves_fragment env body)).jumpOver _ _)).loop _).append
          (.step rfl)
  | forLoop first condition increment body =>
      exact ((first.moves_fragment env.enter).append
        (.counting (Expression.moves_of_mem_map _ condition) (Expression.moves_of_mem_map _ increment)
          (Statement.moves_fragment _ body))).drop _ _ _
  | ret value =>
      cases value with
      | none => exact env.kind.moves_returnSteps
      | some value => exact (value.moves_fragment env).append (.step rfl)
  | block inner => exact (Declaration.moves_fragmentEach env.enter inner).drop _ _ _

theorem Declaration.moves_fragment (env : Environment) (dec : Declaration) :
    Moves d (dec.fragment env) (dec.fragment env) := by
  cases dec with
  | classDeclaration name superclass methods =>
      exact .withItem fun n =>
        ((env.moves_reserve.append (.step rfl)).append (env.moves_define n)).append
          ((env.declare name).moves_classFragment name superclass fun inside =>
            FunctionTree.moves_fragmentEach inside methods)
  | funDeclaration f => exact env.moves_declaration f.name (f.moves_fragment _ _)
  | varDeclaration name value =>
      exact env.moves_declaration name (Expression.moves_initial env value)
  | statement s => exact Statement.moves_fragment env s

/-- The code of declarations after more constants. -/
theorem Declaration.moves_fragmentEach (env : Environment) (ds : List Declaration) :
    Moves d (Declaration.fragmentEach env ds) (Declaration.fragmentEach env ds) := by
  cases ds with
  | nil => exact .empty
  | cons dec ds =>
      exact (Declaration.moves_fragment env dec).append
        (Declaration.moves_fragmentEach (dec.after env) ds)

end

/-! ## Plans of scripts -/

section Script

variable {names : ImplicitNames}

theorem Declaration.after_script (d : Declaration) :
    d.after (.script names) = .script names := by
  cases d <;> rfl

theorem Declaration.afterEach_script (ds : List Declaration) :
    afterEach (.script names) ds = .script names := by
  induction ds with
  | nil => rfl
  | cons d ds ih =>
      show afterEach (d.after (.script names)) ds = _
      rw [d.after_script, ih]

theorem Declaration.captures_plan (ds : List Declaration) : (plan names ds).captures = [] := by
  show captureAll 0 _ = []
  simp [captureAll]

/-- The piece of two programs one after the other. -/
theorem Declaration.fragmentEach_script_append (ds ds' : List Declaration) :
    fragmentEach (.script names) (ds ++ ds') 0 = fragmentEach (.script names) ds 0 ++
      (fragmentEach (.script names) ds' 0).shift (plan names ds).constants.length := by
  have hconstants : (plan names ds).constants = (fragmentEach (.script names) ds 0).constants :=
    List.append_nil _
  rw [fragmentEach_append, afterEach_script, Fragment.append_apply, hconstants,
    Declaration.moves_fragmentEach]

/-- The code of two programs one after the other: that of the first one without the return, and that
of the second one after the constants of the first one. -/
theorem Declaration.code_plan_append (ds ds' : List Declaration) : ∃ code,
    (plan names ds).code = code ++ FunctionKind.script.returnSteps ∧
      (plan names (ds ++ ds')).code =
        code ++ (plan names ds').code.map (Step.shift (plan names ds).constants.length) := by
  refine ⟨_, rfl, ?_⟩
  show (fragmentEach (.script names) (ds ++ ds') 0).code ++ FunctionKind.script.returnSteps =
    _ ++ ((fragmentEach (.script names) ds' 0).code ++ FunctionKind.script.returnSteps).map _
  rw [fragmentEach_script_append, Piece.code_append, Piece.code_shift, List.append_assoc,
    List.map_append]
  rfl

theorem Declaration.constants_plan_append (ds ds' : List Declaration) :
    (plan names (ds ++ ds')).constants = (plan names ds).constants ++ (plan names ds').constants := by
  show (fragmentEach (.script names) (ds ++ ds') 0).constants ++ [] = (_ ++ []) ++ (_ ++ [])
  rw [fragmentEach_script_append]
  simp only [List.append_nil]
  rfl

theorem Declaration.slots_plan_append (ds ds' : List Declaration) :
    (plan names (ds ++ ds')).slots = max (plan names ds).slots (plan names ds').slots := by
  show max (fragmentEach (.script names) (ds ++ ds') 0).slots 0 = max (max _ 0) (max _ 0)
  rw [fragmentEach_script_append]
  simp only [Nat.max_zero]
  rfl

end Script

end LoxCompiler
