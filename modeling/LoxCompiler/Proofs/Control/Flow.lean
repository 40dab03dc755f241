import LoxCompiler.Proofs.Blueprint.Plan
import LoxCompiler.Proofs.Control.Behaviour

/-! # Structured code

Code that is put together from instructions and a few constructs: sequences, alternatives and
loops. Laid out one after the other, with jumps in between, it does what its structure says.
-/

namespace LoxCompiler

namespace Step

/-- Whether a step is no jump. -/
def isPlain : Step → Bool
  | .jump _ _ | .pending _ => false
  | _ => true

/-- Whether a step leaves the function. -/
def isReturn (step : Step) : Bool := step = .simple .ret

end Step

/-- Structured code. Conditions leave their value on the stack, where the code after them finds
it. -/
inductive Flow where
  | skip
  | step (s : Step) (plain : s.isPlain = true)
  | seq (first second : Flow)
  /-- Something to do only if a condition is true. -/
  | when (condition yes : Flow)
  | choose (condition yes no : Flow)
  /-- Something to do while a condition is true, and something else at the end. -/
  | whileTrue (condition yes no : Flow)
  /-- A loop with a condition and an increment: while the condition is true, there is something
  to do first, then the body, and then the increment. -/
  | counting (condition yes body increment no : Flow)
  | forever (body : Flow)
  /-- A loop without a condition, but with an increment. -/
  | stepping (body increment : Flow)

namespace Flow

/-- One instruction that is no jump. -/
def simple (op : Opcode) : Flow := .step (.simple op) rfl

/-- Structured code with jumps for its structure. The increment of a loop stands before the
body. -/
def flat : Flow → List Step
  | skip => []
  | step s _ => [s]
  | seq first second => first.flat ++ second.flat
  | when condition yes =>
      condition.flat ++ .jump .jumpIfFalse (totalSize yes.flat) :: yes.flat
  | choose condition yes no =>
      condition.flat ++ .jump .jumpIfFalse (totalSize yes.flat + 3) ::
        (yes.flat ++ .jump .jump (totalSize no.flat) :: no.flat)
  | whileTrue condition yes no =>
      condition.flat ++ .jump .jumpIfFalse (totalSize yes.flat + 3) ::
        (yes.flat ++ .jump .loop (totalSize condition.flat + 3 + totalSize yes.flat + 3) :: no.flat)
  | counting condition yes body increment no =>
      condition.flat ++
        .jump .jumpIfFalse
          (totalSize yes.flat + 3 + totalSize increment.flat + 3 + totalSize body.flat + 3) ::
        (yes.flat ++ .jump .jump (totalSize increment.flat + 3) ::
          (increment.flat ++
            .jump .loop (totalSize condition.flat + 3 + totalSize yes.flat + 3 +
              totalSize increment.flat + 3) ::
            (body.flat ++
              .jump .loop (totalSize increment.flat + 3 + totalSize body.flat + 3) :: no.flat)))
  | forever body => body.flat ++ [.jump .loop (totalSize body.flat + 3)]
  | stepping body increment =>
      .jump .jump (totalSize increment.flat + 3) ::
        (increment.flat ++ .jump .loop (3 + totalSize increment.flat + 3) ::
          (body.flat ++ [.jump .loop (totalSize increment.flat + 3 + totalSize body.flat + 3)]))

/-- The number of cells of structured code. -/
def size (f : Flow) : Nat := totalSize f.flat

/-- Structured code with all of its parts, and the offsets where they are if it starts at some
offset. -/
def parts : Flow → Nat → List (Nat × Flow)
  | skip, o => [(o, skip)]
  | step s plain, o => [(o, step s plain)]
  | seq first second, o =>
      (o, seq first second) :: (first.parts o ++ second.parts (o + first.size))
  | when condition yes, o =>
      (o, when condition yes) :: (condition.parts o ++ yes.parts (o + condition.size + 3))
  | choose condition yes no, o =>
      (o, choose condition yes no) :: (condition.parts o ++ (yes.parts (o + condition.size + 3) ++
        no.parts (o + condition.size + 3 + yes.size + 3)))
  | whileTrue condition yes no, o =>
      (o, whileTrue condition yes no) :: (condition.parts o ++
        (yes.parts (o + condition.size + 3) ++ no.parts (o + condition.size + 3 + yes.size + 3)))
  | counting condition yes body increment no, o =>
      let next := o + condition.size + 3 + yes.size + 3
      (o, counting condition yes body increment no) :: (condition.parts o ++
        (yes.parts (o + condition.size + 3) ++ (increment.parts next ++
          (body.parts (next + increment.size + 3) ++
            no.parts (next + increment.size + 3 + body.size + 3)))))
  | forever body, o => (o, forever body) :: body.parts o
  | stepping body increment, o =>
      (o, stepping body increment) ::
        (increment.parts (o + 3) ++ body.parts (o + 3 + increment.size + 3))

end Flow

/-! ## Where the instructions are -/

/-- The descriptor of a variable that a function directly inside another one captures. -/
def Step.upvalue (level : Nat) (captures : List Variable) (v : Variable) : Bool × UInt8 :=
  if v.level = level then (true, UInt8.ofNat v.slot) else (false, UInt8.ofNat (captures.idxOf v))

/-- The instruction of a step at an offset, in a function at some level with some captured
variables. -/
def Step.instruction (level : Nat) (captures : List Variable) (offset : Nat) : Step → Instruction
  | .simple op => .simple op
  | .byte op operand => .byte op (UInt8.ofNat operand)
  | .captured op v => .byte op (UInt8.ofNat (captures.idxOf v))
  | .constant op index => .constant op (UInt8.ofNat index)
  | .invoke op name arguments => .invoke op (UInt8.ofNat name) (UInt8.ofNat arguments)
  | .jump op distance => .jump op distance (Instruction.jumpTarget op offset distance)
  | .pending op => .jump op 0xffff (Instruction.jumpTarget op offset 0xffff)
  | .closure index vs =>
      .closure (UInt8.ofNat index) (vs.map (upvalue level captures))

/-- Some steps stand among decoded instructions from an offset on. -/
def StandsAt (level : Nat) (captures : List Variable) (P : List (Nat × Instruction)) :
    Nat → List Step → Prop
  | _, [] => True
  | o, s :: code =>
      P.lookup o = some (s.instruction level captures o) ∧
        StandsAt level captures P (o + s.size) code

section StandsAt

variable {level : Nat} {captures : List Variable} {P : List (Nat × Instruction)}

theorem Step.size_instruction (s : Step) (o : Nat) :
    (s.instruction level captures o).size = s.size := by
  cases s <;> simp [instruction, Instruction.size, size]

/-- A jump ahead, over some number of cells. -/
theorem StandsAt.ahead {o distance target : Nat} {op : Opcode} {code : List Step}
    (h : StandsAt level captures P o (.jump op distance :: code)) (hop : op ≠ .loop)
    (htarget : o + 3 + distance = target) : P.lookup o = some (.jump op distance target) := by
  rw [h.1, Step.instruction, Instruction.jumpTarget, if_neg hop, htarget]

/-- A jump back, over some number of cells with its own. -/
theorem StandsAt.back {o distance target : Nat} {code : List Step}
    (h : StandsAt level captures P o (.jump .loop distance :: code))
    (htarget : o + 3 = target + distance) : P.lookup o = some (.jump .loop distance target) := by
  rw [h.1, Step.instruction, Instruction.jumpTarget, if_pos rfl, htarget, Nat.add_sub_cancel]

end StandsAt

end LoxCompiler
