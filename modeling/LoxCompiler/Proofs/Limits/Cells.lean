import LoxCompiler.Compilation

/-! # Cells of another kind

Functions, finished or under construction, with other values in the cells of their code. Nothing
else in them depends on what a cell holds.
-/

namespace LoxCompiler

variable {β γ δ : Type}

mutual

/-- A function with other cells. -/
def Function.mapCells (g : β → γ) : Function β → Function γ
  | ⟨name, arity, upvalueCount, code, lines, constants⟩ =>
      ⟨name, arity, upvalueCount, code.map g, lines, Constant.mapCellsEach g constants⟩

/-- Some constants with other cells. -/
def Constant.mapCellsEach (g : β → γ) : List (Constant β) → List (Constant γ)
  | [] => []
  | value :: values => Constant.mapCells g value :: Constant.mapCellsEach g values

/-- A constant with other cells. -/
def Constant.mapCells (g : β → γ) : Constant β → Constant γ
  | .number value => .number value
  | .string value => .string value
  | .function f => .function (Function.mapCells g f)

end

theorem Constant.mapCellsEach_eq (g : β → γ) (values : List (Constant β)) :
    Constant.mapCellsEach g values = values.map (Constant.mapCells g) := by
  induction values with
  | nil => rw [Constant.mapCellsEach, List.map_nil]
  | cons value values ih => rw [Constant.mapCellsEach, ih, List.map_cons]

mutual

/-- Cells that stay as they are. -/
theorem Function.mapCells_eq_self {g : β → β} (f : Function β)
    (hf : ∀ k ∈ f.family, ∀ cell ∈ k.code, g cell = cell) : f.mapCells g = f := by
  obtain ⟨name, arity, upvalueCount, code, lines, constants⟩ := f
  rw [Function.family] at hf
  obtain ⟨hcode, hconstants⟩ := List.forall_mem_cons.mp hf
  rw [Function.mapCells, Constant.mapCellsEach_eq_self constants hconstants]
  congr 1
  exact (List.map_congr_left hcode).trans (List.map_id code)

theorem Constant.mapCellsEach_eq_self {g : β → β} (values : List (Constant β))
    (hvalues : ∀ k ∈ Constant.families values, ∀ cell ∈ k.code, g cell = cell) :
    Constant.mapCellsEach g values = values := by
  cases values with
  | nil => rw [Constant.mapCellsEach]
  | cons value values =>
      cases value with
      | number x | string x =>
          rw [Constant.families] at hvalues
          rw [Constant.mapCellsEach, Constant.mapCells,
            Constant.mapCellsEach_eq_self values hvalues]
      | function f =>
          rw [Constant.families] at hvalues
          obtain ⟨hfirst, hrest⟩ := List.forall_mem_append.mp hvalues
          rw [Constant.mapCellsEach, Constant.mapCells, Function.mapCells_eq_self f hfirst,
            Constant.mapCellsEach_eq_self values hrest]

end

mutual

theorem Function.mapCells_mapCells (g : β → γ) (h : γ → δ) (f : Function β) :
    (f.mapCells g).mapCells h = f.mapCells fun cell => h (g cell) := by
  obtain ⟨name, arity, upvalueCount, code, lines, constants⟩ := f
  rw [Function.mapCells, Function.mapCells, Function.mapCells, List.map_map,
    Constant.mapCellsEach_mapCellsEach]
  rfl

theorem Constant.mapCellsEach_mapCellsEach (g : β → γ) (h : γ → δ) (values : List (Constant β)) :
    Constant.mapCellsEach h (Constant.mapCellsEach g values) =
      Constant.mapCellsEach (fun cell => h (g cell)) values := by
  cases values with
  | nil => rw [Constant.mapCellsEach, Constant.mapCellsEach, Constant.mapCellsEach]
  | cons value values =>
      rw [Constant.mapCellsEach, Constant.mapCellsEach, Constant.mapCellsEach,
        Constant.mapCellsEach_mapCellsEach]
      cases value with
      | number x | string x => rw [Constant.mapCells, Constant.mapCells, Constant.mapCells]
      | function f =>
          rw [Constant.mapCells, Constant.mapCells, Constant.mapCells, Function.mapCells_mapCells]

end

theorem Constant.mapCells_number (g : β → γ) (value : Binary64) :
    (Constant.number value).mapCells g = .number value := by rw [mapCells]

theorem Constant.mapCells_string (g : β → γ) (value : Symbol) :
    (Constant.string value).mapCells g = .string value := by rw [mapCells]

theorem Constant.mapCells_function (g : β → γ) (f : Function β) :
    (Constant.function f).mapCells g = .function (f.mapCells g) := by rw [mapCells]

namespace Frame

/-- A function under construction with other cells. -/
abbrev mapCells (g : β → γ) (f : Frame β) : Frame γ :=
  { kind := f.kind, name := f.name, arity := f.arity, code := f.code.map g, lines := f.lines
    constants := f.constants.map (Constant.mapCells g), openJumps := f.openJumps
    locals := f.locals, upvalues := f.upvalues, scopeDepth := f.scopeDepth }

variable (g : β → γ) (f : Frame β)

theorem mapCells_new (kind : FunctionKind) (name : Option Symbol) (receiver : Symbol) :
    (new kind name receiver : Frame β).mapCells g = new kind name receiver := by
  simp [new, mapCells]

theorem mapCells_write (cell : β) (line : Nat) :
    (f.write cell line).mapCells g = (f.mapCells g).write (g cell) line := by
  simp [write, mapCells]

theorem mapCells_addConstant (value : Constant β) :
    (f.addConstant value).mapCells g = (f.mapCells g).addConstant (value.mapCells g) := by
  simp [addConstant, mapCells]

theorem mapCells_closeJump (operand : Nat) (high low : β) :
    (f.closeJump operand high low).mapCells g =
      (f.mapCells g).closeJump operand (g high) (g low) := by
  simp [closeJump, mapCells, Array.map_setIfInBounds]

theorem mapCells_markInitialized :
    f.markInitialized.mapCells g = (f.mapCells g).markInitialized := by
  obtain ⟨kind, name, arity, code, lines, constants, openJumps, locals, upvalues, scopeDepth⟩ := f
  unfold markInitialized
  split
  · rfl
  · rcases locals with _ | ⟨⟨name, _ | depth, captured⟩, older⟩ <;> rfl

theorem mapCells_finish : f.finish.mapCells g = (f.mapCells g).finish := by
  simp [finish, Function.mapCells, Constant.mapCellsEach_eq]

end Frame

/-- A state with other cells. -/
abbrev Session.mapCells (g : β → γ) (s : Session β) : Session γ :=
  { names := s.names, reader := s.reader, frames := s.frames.map (Frame.mapCells g)
    classes := s.classes, events := s.events }

end LoxCompiler
