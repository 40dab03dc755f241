import LoxCompiler.Bytecode.Opcode
import LoxCompiler.Bytecode.Function
import LoxCompiler.Bytecode.Width
import Mathlib.Data.List.Basic
import Mathlib.Data.List.Induction

/-! # Plans

A plan is a function before it is assembled. Its steps name the captured variables they mean:
a variable is known by the function that declares it, counted from the script inwards, and by its
slot there. Only the assembled function refers to a captured variable by its place in a list.
-/

namespace LoxCompiler

/-- A local variable of a function, which is known by how many functions are around it. -/
structure Variable where
  level : Nat
  slot : Nat
deriving DecidableEq, Repr

/-- An instruction of a plan. -/
inductive Step where
  | simple (op : Opcode)
  /-- A slot or a number of arguments. -/
  | byte (op : Opcode) (operand : Nat)
  /-- An access to a captured variable. -/
  | captured (op : Opcode) (v : Variable)
  | constant (op : Opcode) (index : Nat)
  | invoke (op : Opcode) (name arguments : Nat)
  | jump (op : Opcode) (distance : Nat)
  /-- A forward jump that leads nowhere yet. -/
  | pending (op : Opcode)
  /-- A closure, with the variables that its function captures. -/
  | closure (index : Nat) (captures : List Variable)
deriving DecidableEq, Repr

mutual

/-- A constant of a plan. -/
inductive Item where
  | number (value : Binary64)
  | string (value : Symbol)
  | function (plan : Plan)

/-- A function before it is assembled. -/
structure Plan where
  name : Option Symbol
  arity : Nat
  /-- The variables of enclosing functions that it captures, in the order of their first use. -/
  captures : List Variable
  code : List Step
  constants : List Item
  /-- The greatest number of locals there ever are. -/
  slots : Nat

end

/-! ## Sizes and cells -/

namespace Step

/-- The number of cells of a step. -/
def size : Step → Nat
  | .simple _ => 1
  | .byte _ _ | .captured _ _ | .constant _ _ => 2
  | .invoke _ _ _ | .jump _ _ | .pending _ => 3
  | .closure _ captures => 2 + 2 * captures.length

theorem size_pos (step : Step) : 0 < step.size := by
  cases step <;> simp only [size] <;> omega

/-- Where a function finds a variable that a function directly inside it captures: in a slot of
its own, or among the variables that it captures itself. -/
def descriptor (level : Nat) (captures : List Variable) (v : Variable) : List Nat :=
  if v.level = level then [1, v.slot] else [0, captures.idxOf v]

/-- The values of the cells of a step, in a function at some level with some captured
variables. -/
def cells (level : Nat) (captures : List Variable) : Step → List Nat
  | .simple op => [op.toByte.toNat]
  | .byte op operand => [op.toByte.toNat, operand]
  | .captured op v => [op.toByte.toNat, captures.idxOf v]
  | .constant op index => [op.toByte.toNat, index]
  | .invoke op name arguments => [op.toByte.toNat, name, arguments]
  | .jump op distance => [op.toByte.toNat, distance / 256, distance % 256]
  | .pending op => [op.toByte.toNat, 0xff, 0xff]
  | .closure index vs =>
      Opcode.closure.toByte.toNat :: index :: vs.flatMap (descriptor level captures)

theorem length_descriptor (level : Nat) (captures : List Variable) (v : Variable) :
    (descriptor level captures v).length = 2 := by
  unfold descriptor
  split <;> rfl

theorem length_cells (level : Nat) (captures : List Variable) (step : Step) :
    (step.cells level captures).length = step.size := by
  cases step with
  | closure index vs =>
      simp only [cells, size, List.length_cons, List.length_flatMap, length_descriptor]
      rw [List.map_const', List.sum_replicate_nat]
      omega
  | _ => rfl

/-- The captured variables that a step refers to are among those of the function, or locals of
it where a closure takes them. -/
def Known (level : Nat) (captures : List Variable) : Step → Prop
  | .captured _ v => v ∈ captures
  | .closure _ vs => ∀ v ∈ vs, v.level = level ∨ v ∈ captures
  | _ => True

/-- Whether the operands of a step are within the limits. -/
def Fits (limits : Limits) : Step → Prop
  | .byte .call arguments => Limits.admits limits.arguments arguments = true
  | .invoke _ _ arguments => Limits.admits limits.arguments arguments = true
  | .jump _ distance => Limits.admits limits.distance distance = true
  | _ => True

end Step

/-- The number of cells of some steps. -/
def totalSize : List Step → Nat
  | [] => 0
  | step :: code => step.size + totalSize code

@[simp] theorem totalSize_nil : totalSize [] = 0 := rfl

@[simp] theorem totalSize_cons (step : Step) (code : List Step) :
    totalSize (step :: code) = step.size + totalSize code := rfl

@[simp] theorem totalSize_append (code more : List Step) :
    totalSize (code ++ more) = totalSize code + totalSize more := by
  induction code with
  | nil => simp
  | cons step code ih => simp [ih, Nat.add_assoc]

/-- The values of the cells of some steps. -/
def cellsOf (level : Nat) (captures : List Variable) (code : List Step) : List Nat :=
  code.flatMap (Step.cells level captures)

@[simp] theorem cellsOf_append (level : Nat) (captures : List Variable) (code more : List Step) :
    cellsOf level captures (code ++ more) =
      cellsOf level captures code ++ cellsOf level captures more := by
  simp [cellsOf]

theorem length_cellsOf (level : Nat) (captures : List Variable) (code : List Step) :
    (cellsOf level captures code).length = totalSize code := by
  induction code with
  | nil => rfl
  | cons step code ih =>
      rw [cellsOf, List.flatMap_cons, List.length_append, Step.length_cells, ← cellsOf, ih,
        totalSize_cons]

/-! ## Captured variables in the order of their first use -/

/-- Add a captured variable, unless it is there already. -/
def capture (captures : List Variable) (v : Variable) : List Variable :=
  if v ∈ captures then captures else captures ++ [v]

/-- The variables of enclosing functions among some uses, each where it is used first. -/
def captureAll (level : Nat) (uses : List Variable) : List Variable :=
  (uses.filter fun v => v.level < level).foldl capture []

/-- The uses that a function at some level leaves to the function around it. -/
def exported (level : Nat) (uses : List Variable) : List Variable :=
  uses.filter fun v => v.level < level

@[simp] theorem exported_append (level : Nat) (uses more : List Variable) :
    exported level (uses ++ more) = exported level uses ++ exported level more :=
  List.filter_append ..

@[simp] theorem exported_nil (level : Nat) : exported level [] = [] := rfl

theorem mem_exported {level : Nat} {uses : List Variable} {v : Variable} :
    v ∈ exported level uses ↔ v ∈ uses ∧ v.level < level := by
  simp [exported]

theorem captureAll_concat (level : Nat) (uses : List Variable) (v : Variable) :
    captureAll level (uses ++ [v]) =
      if v.level < level then capture (captureAll level uses) v else captureAll level uses := by
  unfold captureAll
  split <;> simp [*]

theorem prefix_capture (captures : List Variable) (v : Variable) :
    captures <+: capture captures v := by
  unfold capture
  split
  · exact List.prefix_refl _
  · exact List.prefix_append _ _

theorem prefix_captureAll (level : Nat) (uses more : List Variable) :
    captureAll level uses <+: captureAll level (uses ++ more) := by
  induction more using List.reverseRecOn with
  | nil => simp
  | append_singleton more v ih =>
      rw [← List.append_assoc, captureAll_concat]
      split
      · exact ih.trans (prefix_capture _ _)
      · exact ih

theorem mem_captureAll {level : Nat} {uses : List Variable} {v : Variable} :
    v ∈ captureAll level uses ↔ v ∈ uses ∧ v.level < level := by
  induction uses using List.reverseRecOn with
  | nil => simp [captureAll]
  | append_singleton uses u ih =>
      rw [captureAll_concat]
      split
      · unfold capture
        split <;> grind
      · grind

theorem nodup_captureAll (level : Nat) (uses : List Variable) :
    (captureAll level uses).Nodup := by
  induction uses using List.reverseRecOn with
  | nil => simp [captureAll]
  | append_singleton uses v ih =>
      rw [captureAll_concat]
      split
      · unfold capture
        split
        · exact ih
        · rw [List.nodup_append]
          grind
      · exact ih

/-- Where a captured variable is found does not change when more are captured. -/
theorem idxOf_eq_of_mem {captures more : List Variable} {v : Variable} (h : captures <+: more)
    (hv : v ∈ captures) : more.idxOf v = captures.idxOf v := by
  obtain ⟨rest, rfl⟩ := h
  exact List.idxOf_append_of_mem hv

theorem Step.Known.extend {level : Nat} {captures more : List Variable} {step : Step}
    (hknown : step.Known level captures) (h : captures <+: more) : step.Known level more := by
  cases step with
  | captured op v => exact h.subset hknown
  | closure index vs => exact fun v hv => (hknown v hv).imp id fun hv => h.subset hv
  | _ => trivial

theorem Step.cells_eq_of_known {level : Nat} {captures more : List Variable} {step : Step}
    (h : captures <+: more) (hknown : step.Known level captures) :
    step.cells level more = step.cells level captures := by
  cases step with
  | captured op v => simp only [cells, idxOf_eq_of_mem h hknown]
  | closure index vs =>
      simp only [cells, List.cons.injEq, true_and]
      apply List.flatMap_congr
      intro v hv
      unfold descriptor
      split
      · rfl
      · rename_i hlevel
        rw [idxOf_eq_of_mem h ((hknown v hv).resolve_left hlevel)]
  | _ => rfl

theorem cellsOf_eq_of_known {level : Nat} {captures more : List Variable} {code : List Step}
    (h : captures <+: more) (hknown : ∀ step ∈ code, step.Known level captures) :
    cellsOf level more code = cellsOf level captures code :=
  List.flatMap_congr fun step hstep => Step.cells_eq_of_known h (hknown step hstep)

/-! ## Assembling -/

section Assemble

variable {β : Type} (w : Width β)

mutual

/-- The function of a plan at some level, without source lines. -/
def Plan.assemble (level : Nat) : Plan → Function β
  | ⟨name, arity, captures, code, constants, _⟩ =>
      { name, arity, upvalueCount := captures.length
        code := (cellsOf level captures code).map w.cell
        lines := []
        constants := Item.assembleEach (level + 1) constants }

/-- The constants of a function from those of its plan. -/
def Item.assembleEach (level : Nat) : List Item → List (Constant β)
  | [] => []
  | item :: items => Item.assemble level item :: Item.assembleEach level items

/-- A constant of a function from one of its plan. -/
def Item.assemble (level : Nat) : Item → Constant β
  | .number value => .number value
  | .string value => .string value
  | .function plan => .function (plan.assemble level)

end

theorem Item.assembleEach_eq (level : Nat) (items : List Item) :
    Item.assembleEach w level items = items.map (Item.assemble w level) := by
  induction items with
  | nil => rw [Item.assembleEach, List.map_nil]
  | cons item items ih => rw [Item.assembleEach, ih, List.map_cons]

end Assemble

section EraseLines

variable {β : Type}

mutual

/-- A function without the source lines of its code. -/
def Function.eraseLines : Function β → Function β
  | ⟨name, arity, upvalueCount, code, _, constants⟩ =>
      ⟨name, arity, upvalueCount, code, [], Constant.eraseLinesEach constants⟩

/-- Some constants without source lines. -/
def Constant.eraseLinesEach : List (Constant β) → List (Constant β)
  | [] => []
  | value :: values => Constant.eraseLines value :: Constant.eraseLinesEach values

/-- A constant without source lines. -/
def Constant.eraseLines : Constant β → Constant β
  | .number value => .number value
  | .string value => .string value
  | .function f => .function (Function.eraseLines f)

end

theorem Constant.eraseLinesEach_eq (values : List (Constant β)) :
    Constant.eraseLinesEach values = values.map Constant.eraseLines := by
  induction values with
  | nil => rw [Constant.eraseLinesEach, List.map_nil]
  | cons value values ih => rw [Constant.eraseLinesEach, ih, List.map_cons]

end EraseLines

/-! ## Limits -/

mutual

/-- Whether a plan, with all plans nested in it, is within the limits. -/
def Plan.Fits (limits : Limits) : Plan → Prop
  | ⟨_, arity, captures, code, constants, slots⟩ =>
      Limits.admits limits.parameters arity = true ∧
        Limits.admits limits.upvalues captures.length = true ∧
        (∀ step ∈ code, step.Fits limits) ∧
        Limits.admits limits.constantIndex (constants.length - 1) = true ∧
        Limits.admits limits.locals slots = true ∧ Item.FitsEach limits constants

/-- Whether some constants are within the limits. -/
def Item.FitsEach (limits : Limits) : List Item → Prop
  | [] => True
  | item :: items => Item.Fits limits item ∧ Item.FitsEach limits items

/-- Whether a constant is within the limits. -/
def Item.Fits (limits : Limits) : Item → Prop
  | .function plan => plan.Fits limits
  | _ => True

end

theorem Item.fitsEach_iff (limits : Limits) (items : List Item) :
    Item.FitsEach limits items ↔ ∀ item ∈ items, item.Fits limits := by
  induction items with
  | nil => simp [Item.FitsEach]
  | cons item items ih => simp [Item.FitsEach, ih]

end LoxCompiler
