import LoxCompiler.Proofs.Blueprint.Rules
import LoxCompiler.Proofs.Run.Clean

/-! # Drafts

The functions under construction as a plan in the making. What a function captures is not stored
there: it follows from the uses so far, those of the functions being compiled inside it among
them. A draft describes a frame if the frame is what the draft says, cell by cell.
-/

namespace LoxCompiler

/-! ## Captured variables of a function in the making -/

theorem captureAll_eq_of_exported {level : Nat} {uses uses' : List Variable}
    (h : exported level uses = exported level uses') :
    captureAll level uses = captureAll level uses' := by
  unfold exported at h
  unfold captureAll
  rw [h]

/-- Where a function finds a captured variable when a closure of it is made. -/
def upvalueOf (level : Nat) (around : List Variable) (v : Variable) : Upvalue :=
  if v.level + 1 = level then ⟨true, v.slot⟩ else ⟨false, around.idxOf v⟩

/-! ## Drafts and the frames they describe -/

/-- A function in the making. -/
structure Draft where
  kind : FunctionKind
  name : Option Symbol
  arity : Nat
  receiver : Symbol
  scopes : List (List Symbol)
  /-- A local that cannot be read yet. -/
  fresh : Option Symbol
  piece : Piece

/-- The locals of some scopes, each with its depth. -/
def depths : List (List Symbol) → List (Symbol × Nat)
  | [] => []
  | scope :: outer => (scope.map fun name => (name, outer.length + 1)) ++ depths outer

/-- Locals with their depths as a frame lists them. Those with uses are captured. -/
def Local.ofDepths (level : Nat) (uses : List Variable) : List (Symbol × Nat) → List Local
  | [] => []
  | (name, depth) :: older =>
      ⟨name, some depth, decide (⟨level, older.length⟩ ∈ uses)⟩ :: ofDepths level uses older

/-- The offsets of the operands of jumps that lead nowhere yet, in code at an offset. -/
def pendingOperands : Nat → List Step → List Nat
  | _, [] => []
  | offset, .pending op :: code =>
      (offset + 1) :: pendingOperands (offset + (Step.pending op).size) code
  | offset, step :: code => pendingOperands (offset + step.size) code

namespace Draft

/-- The locals that may be read, newest first. -/
def locals (d : Draft) : List Symbol := d.scopes.flatten ++ [d.receiver]

/-- The locals with their depths. -/
def depths (d : Draft) : List (Symbol × Nat) := LoxCompiler.depths d.scopes ++ [(d.receiver, 0)]

/-- The plan of a function if nothing were added to it, given all uses. -/
def plan (d : Draft) (level : Nat) (uses : List Variable) : Plan :=
  ⟨d.name, d.arity, captureAll level uses, d.piece.code, d.piece.constants, d.piece.slots⟩

/-- A draft describes a frame at some level, given all uses and what the function around
captures. -/
structure Describes {β : Type} (w : Width β) (level : Nat) (around uses : List Variable) (d : Draft)
    (f : Frame β) : Prop where
  kind : f.kind = d.kind
  name : f.name = d.name
  arity : f.arity = d.arity
  code : f.code.toList = (cellsOf level (captureAll level uses) d.piece.code).map w.cell
  constants : f.constants.toList.map Constant.eraseLines =
    Item.assembleEach w (level + 1) d.piece.constants
  jumps : ∀ operand ∈ pendingOperands 0 d.piece.code, operand ∈ f.openJumps
  locals : f.locals =
    (d.fresh.map fun name => ⟨name, none, false⟩).toList ++ Local.ofDepths level uses d.depths
  upvalues : f.upvalues = (captureAll level uses).map (upvalueOf level around)
  depth : f.scopeDepth = d.scopes.length

/-- All variables that a draft refers to are there: its captured locals are live, and what it
captures itself is among the uses. -/
structure Valid (level : Nat) (uses : List Variable) (d : Draft) : Prop where
  live : ∀ v ∈ uses, v.level = level → v.slot < d.locals.length
  known : ∀ step ∈ d.piece.code, step.Known level (captureAll level uses)

/-- A draft is within the limits. -/
def Fits (limits : Limits) (level : Nat) (uses : List Variable) (d : Draft) : Prop :=
  (d.plan level uses).Fits limits

/-- The uses of a draft, with those of what is being compiled inside it. -/
abbrev allUses (inner : List Variable) (d : Draft) : List Variable := d.piece.uses ++ inner

/-- What the function around captures, given what it has to provide. -/
def around (inner : List Variable) : List Draft → List Variable
  | [] => []
  | d :: outer => captureAll outer.length (d.allUses inner)

/-- A property holds of all drafts of a stack, each with its level and all its uses. -/
def Each (P : Nat → List Variable → Draft → Prop) : List Variable → List Draft → Prop
  | _, [] => True
  | inner, d :: outer =>
      P outer.length (d.allUses inner) d ∧ Each P (exported outer.length (d.allUses inner)) outer

/-- Drafts describe the frames of a stack. -/
def DescribesEach {β : Type} (w : Width β) : List Variable → List Draft → Frames β → Prop
  | _, [], [] => True
  | inner, d :: outer, f :: frames =>
      d.Describes w outer.length (around (exported outer.length (d.allUses inner)) outer)
          (d.allUses inner) f ∧
        DescribesEach w (exported outer.length (d.allUses inner)) outer frames
  | _, _, _ => False

end Draft

/-- The functions in the making, with the classes around. -/
structure Drafts where
  names : ImplicitNames
  classes : List ClassContext
  current : Draft
  /-- The functions around the innermost one, innermost first. -/
  outer : List Draft

namespace Drafts

variable (D : Drafts)

/-- All functions, innermost first. -/
def stack : List Draft := D.current :: D.outer

/-- The place in the program. -/
def env : Environment :=
  ⟨D.names, D.current.kind, D.classes, D.current.receiver, D.current.scopes,
    D.outer.map Draft.locals⟩

/-- Everything that is referred to is there, and only the innermost function may have a local
that cannot be read. -/
structure Valid : Prop where
  each : Draft.Each Draft.Valid [] D.stack
  ready : ∀ d ∈ D.outer, d.fresh = none

/-- All functions are within the limits. -/
def Fits (limits : Limits) : Prop := Draft.Each (Draft.Fits limits) [] D.stack

/-- The drafts describe a state of the compiler. -/
structure Describes {β : Type} (w : Width β) (D : Drafts) (s : Session β) : Prop where
  names : s.names = D.names
  classes : s.classes = D.classes
  frames : Draft.DescribesEach w [] D.stack s.frames

/-- The number of functions around the innermost one. -/
def level : Nat := D.outer.length

/-- The uses of captured variables in the innermost function. -/
def uses : List Variable := D.current.piece.uses

/-- The variables that the innermost function captures. -/
def captures : List Variable := captureAll D.level D.uses

/-- What the innermost function leaves to those around it. -/
def exports : List Variable := exported D.level D.uses

/-- The variables that the function around the innermost one captures. -/
def around : List Variable := Draft.around D.exports D.outer

/-- The number of constants of the innermost function. -/
def constantCount : Nat := D.current.piece.constants.length

/-- The number of cells of the innermost function. -/
def size : Nat := D.current.piece.size

theorem valid_iff : D.Valid ↔ D.current.Valid D.level D.uses ∧
    Draft.Each Draft.Valid D.exports D.outer ∧ ∀ d ∈ D.outer, d.fresh = none := by
  have h : Draft.Each Draft.Valid [] D.stack ↔
      D.current.Valid D.level D.uses ∧ Draft.Each Draft.Valid D.exports D.outer := by
    simp only [stack, Draft.Each, Draft.allUses, List.append_nil]
    rfl
  rw [← and_assoc, ← h]
  exact ⟨fun hv => ⟨hv.each, hv.ready⟩, fun ⟨heach, hready⟩ => ⟨heach, hready⟩⟩

theorem fits_iff {limits : Limits} : D.Fits limits ↔
    D.current.Fits limits D.level D.uses ∧ Draft.Each (Draft.Fits limits) D.exports D.outer := by
  simp only [Fits, stack, Draft.Each, Draft.allUses, List.append_nil]
  rfl

theorem describes_iff {β : Type} {w : Width β} {s : Session β} : D.Describes w s ↔
    s.names = D.names ∧ s.classes = D.classes ∧ ∃ f frames, s.frames = f :: frames ∧
      D.current.Describes w D.level D.around D.uses f ∧
        Draft.DescribesEach w D.exports D.outer frames := by
  have h : Draft.DescribesEach w [] D.stack s.frames ↔ ∃ f frames, s.frames = f :: frames ∧
      D.current.Describes w D.level D.around D.uses f ∧
        Draft.DescribesEach w D.exports D.outer frames := by
    cases s.frames with
    | nil => simp [stack, Draft.DescribesEach]
    | cons f frames =>
        simp only [stack, Draft.DescribesEach, Draft.allUses, List.append_nil, List.cons.injEq]
        constructor
        · exact fun hf => ⟨f, frames, ⟨rfl, rfl⟩, hf⟩
        · rintro ⟨_, _, ⟨rfl, rfl⟩, hf⟩
          exact hf
  rw [← h]
  exact ⟨fun hs => ⟨hs.names, hs.classes, hs.frames⟩, fun ⟨hnames, hclasses, hframes⟩ =>
    ⟨hnames, hclasses, hframes⟩⟩

/-- Change the innermost function. -/
def change (g : Draft → Draft) : Drafts := { D with current := g D.current }

/-- Append a fragment to the innermost function. -/
def emit (f : Fragment) : Drafts :=
  D.change fun d => { d with piece := d.piece ++ f d.piece.constants.length }

theorem emit_append (f g : Fragment) : D.emit (f ++ g) = (D.emit f).emit g := by
  unfold emit change
  simp only [Fragment.append_apply, Piece.append_assoc, Piece.constants_append, List.length_append]

@[simp] theorem emit_empty : D.emit ∅ = D := by
  show D.change (fun d => { d with piece := d.piece ++ ∅ }) = D
  simp only [Piece.append_empty]
  rfl

theorem emit_withItem (value : Item) (f : Nat → Fragment) :
    D.emit (.withItem value f) = (D.emit (.item value)).emit (f D.constantCount) :=
  D.emit_append (.item value) (f D.constantCount)

theorem emit_sized (f : Fragment) (g : Nat → Fragment) :
    D.emit (f.sized g) = (D.emit f).emit (g (f D.constantCount).size) :=
  D.emit_append f (g (f D.constantCount).size)

@[simp] theorem env_emit (f : Fragment) : (D.emit f).env = D.env := rfl

@[simp] theorem outer_emit (f : Fragment) : (D.emit f).outer = D.outer := rfl

@[simp] theorem level_emit (f : Fragment) : (D.emit f).level = D.level := rfl

@[simp] theorem uses_emit (f : Fragment) :
    (D.emit f).uses = D.uses ++ (f D.constantCount).uses := rfl

@[simp] theorem fresh_emit (f : Fragment) : (D.emit f).current.fresh = D.current.fresh := rfl

@[simp] theorem constantCount_emit (f : Fragment) :
    (D.emit f).constantCount = D.constantCount + (f D.constantCount).constants.length :=
  List.length_append

@[simp] theorem size_emit (f : Fragment) :
    (D.emit f).size = D.size + (f D.constantCount).size :=
  Piece.size_append _ _

end Drafts

end LoxCompiler
