import LoxCompiler.Proofs.Blueprint.Plan

/-! # Fragments

The plan of a function is put together from the fragments of its constructs, one after the
other. A fragment is independent of the code around it, except for one number: how many
constants there are before its own.
-/

namespace LoxCompiler

/-- Some code with what it needs: constants, captured variables in the order of their uses, and
a number of slots. -/
structure Piece where
  code : List Step
  constants : List Item
  uses : List Variable
  slots : Nat

namespace Piece

instance : EmptyCollection Piece := ⟨⟨[], [], [], 0⟩⟩

instance : Append Piece :=
  ⟨fun p q => ⟨p.code ++ q.code, p.constants ++ q.constants, p.uses ++ q.uses,
    max p.slots q.slots⟩⟩

section Lemmas

variable (p q r : Piece)

@[simp] theorem code_append : (p ++ q).code = p.code ++ q.code := rfl

@[simp] theorem constants_append : (p ++ q).constants = p.constants ++ q.constants := rfl

@[simp] theorem uses_append : (p ++ q).uses = p.uses ++ q.uses := rfl

@[simp] theorem slots_append : (p ++ q).slots = max p.slots q.slots := rfl

@[simp] theorem code_empty : (∅ : Piece).code = [] := rfl

@[simp] theorem constants_empty : (∅ : Piece).constants = [] := rfl

@[simp] theorem uses_empty : (∅ : Piece).uses = [] := rfl

@[simp] theorem slots_empty : (∅ : Piece).slots = 0 := rfl

@[ext] theorem ext {p q : Piece} (hcode : p.code = q.code) (hconstants : p.constants = q.constants)
    (huses : p.uses = q.uses) (hslots : p.slots = q.slots) : p = q := by
  cases p
  cases q
  congr

theorem append_assoc : p ++ q ++ r = p ++ (q ++ r) := by
  ext1 <;> simp [Nat.max_assoc]

@[simp] theorem append_empty : p ++ ∅ = p := by
  ext1 <;> simp

@[simp] theorem empty_append : ∅ ++ p = p := by
  ext1 <;> simp

end Lemmas

/-- The number of cells of the code. -/
def size (p : Piece) : Nat := totalSize p.code

@[simp] theorem size_append (p q : Piece) : (p ++ q).size = p.size + q.size :=
  totalSize_append _ _

/-- Put a jump before the code that leads to some number of cells after it. -/
def jumpOver (op : Opcode) (extra : Nat) (p : Piece) : Piece :=
  { p with code := .jump op (p.size + extra) :: p.code }

/-- The instruction that drops a local, which depends on whether it was captured. -/
def dropStep (uses : List Variable) (v : Variable) : Step :=
  .simple (if v ∈ uses then .closeUpvalue else .pop)

/-- The instructions that drop the newest locals of a function at some level, newest first. Of
its locals, those before the given slot stay. -/
def dropSteps (level base : Nat) (uses : List Variable) : Nat → List Step
  | 0 => []
  | count + 1 => dropStep uses ⟨level, base + count⟩ :: dropSteps level base uses count

theorem simple_of_mem_dropSteps {level base count : Nat} {uses : List Variable} {step : Step}
    (h : step ∈ dropSteps level base uses count) :
    ∃ op : Opcode, step = .simple op ∧ op.operands = .none := by
  induction count with
  | zero => cases h
  | succ count ih =>
      rcases List.mem_cons.mp h with rfl | h
      · refine ⟨_, rfl, ?_⟩
        split <;> rfl
      · exact ih h

/-- Drop the newest locals at the end of the code. -/
def drop (level base count : Nat) (p : Piece) : Piece :=
  { p with
    code := p.code ++ dropSteps level base p.uses count
    uses := p.uses.filter fun v => ¬ (v.level = level ∧ base ≤ v.slot) }

theorem dropSteps_congr {level base : Nat} {uses uses' : List Variable}
    (h : ∀ slot, base ≤ slot → ((⟨level, slot⟩ : Variable) ∈ uses ↔ ⟨level, slot⟩ ∈ uses'))
    (count : Nat) : dropSteps level base uses count = dropSteps level base uses' count := by
  induction count with
  | zero => rfl
  | succ count ih =>
      have hslot := h (base + count) (Nat.le_add_right _ _)
      simp only [dropSteps, dropStep, hslot, ih]

/-- Dropping the newest locals after code that uses older ones only. -/
theorem append_drop (level base : Nat) {p : Piece}
    (h : ∀ v ∈ p.uses, v.level = level → v.slot < base) (q : Piece) (count : Nat) :
    (p ++ q).drop level base count = p ++ q.drop level base count := by
  have hkeep : (p.uses.filter fun v => ¬ (v.level = level ∧ base ≤ v.slot)) = p.uses := by
    rw [List.filter_eq_self]
    intro v hv
    have := h v hv
    simp only [decide_eq_true_eq]
    omega
  have hsteps : dropSteps level base (p.uses ++ q.uses) count =
      dropSteps level base q.uses count := by
    apply dropSteps_congr
    intro slot hslot
    have hold : (⟨level, slot⟩ : Variable) ∉ p.uses := by
      intro hmem
      have := h _ hmem rfl
      dsimp only at this
      omega
    simp [hold]
  ext1
  · simp only [drop, code_append, uses_append, hsteps, List.append_assoc]
  · rfl
  · simp only [drop, uses_append, List.filter_append, hkeep]
  · rfl

end Piece

/-- A piece that depends on the number of constants before its own. -/
def Fragment : Type := Nat → Piece

namespace Fragment

instance : EmptyCollection Fragment := ⟨fun _ => ∅⟩

instance : Append Fragment := ⟨fun f g n => f n ++ g (n + (f n).constants.length)⟩

theorem append_apply (f g : Fragment) (n : Nat) :
    (f ++ g) n = f n ++ g (n + (f n).constants.length) := rfl

theorem append_assoc (f g h : Fragment) : f ++ g ++ h = f ++ (g ++ h) := by
  funext n
  simp only [append_apply, Piece.append_assoc, Piece.constants_append, List.length_append,
    Nat.add_assoc]

/-- Some instructions. -/
def steps (code : List Step) : Fragment := fun _ => ⟨code, [], [], 0⟩

/-- One instruction. -/
def step (s : Step) : Fragment := steps [s]

/-- An instruction without operands. -/
def simple (op : Opcode) : Fragment := step (.simple op)

/-- The use of some captured variables. -/
def use (vs : List Variable) : Fragment := fun _ => ⟨[], [], vs, 0⟩

/-- The use of some number of slots. -/
def reserve (slots : Nat) : Fragment := fun _ => ⟨[], [], [], slots⟩

/-- A constant. -/
def item (value : Item) : Fragment := fun _ => ⟨[], [value], [], 0⟩

/-- A constant, and a fragment after it that knows its index. -/
def withItem (value : Item) (f : Nat → Fragment) : Fragment := fun n => (item value ++ f n) n

/-- A fragment, and another one after it that knows its size. -/
def sized (f : Fragment) (g : Nat → Fragment) : Fragment := fun n => (f ++ g (f n).size) n

/-- A jump over a fragment and some cells after it. -/
def jumpOver (op : Opcode) (extra : Nat) (f : Fragment) : Fragment :=
  fun n => (f n).jumpOver op extra

/-- A fragment with a jump after it, back to the start of what has some size before it. -/
def loop (before : Nat) (f : Fragment) : Fragment :=
  f.sized fun size => step (.jump .loop (before + size + 3))

theorem code_append (f g : Fragment) (n : Nat) :
    ((f ++ g) n).code = (f n).code ++ (g (n + (f n).constants.length)).code := rfl

theorem code_empty (n : Nat) : ((∅ : Fragment) n).code = [] := rfl

theorem code_steps (code : List Step) (n : Nat) : (steps code n).code = code := rfl

@[simp] theorem size_step (s : Step) (n : Nat) : (step s n).size = s.size := by
  simp [step, steps, Piece.size]

@[simp] theorem size_simple (op : Opcode) (n : Nat) : (simple op n).size = 1 := rfl

@[simp] theorem constants_step (s : Step) (n : Nat) : (step s n).constants = [] := rfl

@[simp] theorem size_jumpOver (op : Opcode) (extra : Nat) (f : Fragment) (n : Nat) :
    (jumpOver op extra f n).size = 3 + (f n).size := by
  simp [jumpOver, Piece.jumpOver, Piece.size, Step.size]

/-- A jump over some code and an instruction after it. -/
theorem jumpOver_append_step (op : Opcode) (f : Fragment) (s : Step) :
    jumpOver op 0 (f ++ step s) = jumpOver op s.size f ++ step s := by
  funext n
  ext1 <;> simp [jumpOver, Piece.jumpOver, append_apply]

/-- A loop with a condition and an increment, each of which may be absent. The increment stands
before the body, which is why there are jumps around it. -/
def counting (condition increment : Option Fragment) (body : Fragment) : Fragment :=
  match condition with
  | none => rounds 0
  | some condition => condition.sized fun size =>
      jumpOver .jumpIfFalse 0 (simple .pop ++ rounds (size + 4)) ++ simple .pop
where
  /-- What follows a condition of some size. -/
  rounds (before : Nat) : Fragment :=
    match increment with
    | none => loop before body
    | some increment =>
        (jumpOver .jump 0 (loop (before + 3) (increment ++ simple .pop)) ++ body).sized fun size =>
          step (.jump .loop size)

/-- A fragment that drops its locals at its end. -/
def drop (level base count : Nat) (f : Fragment) : Fragment := fun n => (f n).drop level base count

end Fragment

/-- The plan of a function from its whole piece. -/
def Piece.plan (p : Piece) (level : Nat) (name : Option Symbol) (arity : Nat) : Plan :=
  ⟨name, arity, captureAll level p.uses, p.code, p.constants, p.slots⟩

namespace Fragment

/-- A closure of a function inside a function at some level, which has to provide what the
inner one captures. -/
def closure (level : Nat) (name : Option Symbol) (arity : Nat) (body : Fragment) : Fragment :=
  let plan := (body 0).plan (level + 1) name arity
  use (exported (level + 1) (body 0).uses) ++
    withItem (.function plan) fun index => step (.closure index plan.captures)

end Fragment

end LoxCompiler
