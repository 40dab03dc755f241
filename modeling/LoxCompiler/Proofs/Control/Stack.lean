import LoxCompiler.Proofs.Control.Flow

/-! # The height of the stack

How many values each instruction takes from the stack and gives back, and what this means for
structured code. The locals of a function are the bottom of its stack, so an instruction that
names a slot asks for a stack that is high enough.
-/

namespace LoxCompiler

namespace Opcode

/-- How many values an instruction uses from the top of the stack, if it names some number of
arguments. -/
def takes (arguments : Nat) : Opcode → Nat
  | .call | .invoke => arguments + 1
  | .superInvoke => arguments + 2
  | .setProperty | .getSuper | .equal | .greater | .less | .add | .subtract | .multiply | .divide
  | .inherit | .method => 2
  | .pop | .setLocal | .defineGlobal | .setGlobal | .setUpvalue | .getProperty | .not | .negate
  | .print | .jumpIfFalse | .closeUpvalue | .ret => 1
  | .constant | .pushNil | .pushTrue | .pushFalse | .getLocal | .getGlobal | .getUpvalue | .jump
  | .loop | .closure | .makeClass => 0

/-- How many values an instruction leaves in place of those that it uses. -/
def gives : Opcode → Nat
  | .pop | .defineGlobal | .print | .jump | .loop | .closeUpvalue | .ret => 0
  | _ => 1

end Opcode

namespace Step

/-- The operation of a step. -/
def opcode : Step → Opcode
  | .simple op | .byte op _ | .captured op _ | .constant op _ | .invoke op _ _ | .jump op _
  | .pending op => op
  | .closure _ _ => .closure

/-- How many arguments a step names. -/
def arguments : Step → Nat
  | .byte .call arguments | .invoke _ _ arguments => arguments
  | _ => 0

/-- The slots that a step names are there, if the stack has some height before it. A closure may
capture the slot that it takes itself. -/
def Within (level height : Nat) : Step → Prop
  | .byte .getLocal slot | .byte .setLocal slot => slot < height
  | .closure _ vs => ∀ v ∈ vs, v.level = level → v.slot < height + 1
  | _ => True

/-- A step changes the height of the stack, and never uses the receiver at its bottom. -/
structure Moves (level : Nat) (s : Step) (height height' : Nat) : Prop where
  enough : s.opcode.takes s.arguments < height
  balance : height' + s.opcode.takes s.arguments = height + s.opcode.gives
  within : s.Within level height

end Step

namespace Flow

/-- Structured code changes the height of the stack, on all its paths alike. -/
def Typed (level : Nat) : Flow → Nat → Nat → Prop
  | skip, h, h' => h' = h
  | step s _, h, h' => s.Moves level h h'
  | seq first second, h, h' => ∃ m, first.Typed level h m ∧ second.Typed level m h'
  | when condition yes, h, h' =>
      condition.Typed level h h' ∧ 1 < h' ∧ yes.Typed level h' h'
  | choose condition yes no, h, h' =>
      ∃ m, condition.Typed level h m ∧ 1 < m ∧ yes.Typed level m h' ∧ no.Typed level m h'
  | whileTrue condition yes no, h, h' =>
      ∃ m, condition.Typed level h m ∧ 1 < m ∧ yes.Typed level m h ∧ no.Typed level m h'
  | counting condition yes body increment no, h, h' =>
      ∃ m k l, condition.Typed level h m ∧ 1 < m ∧ yes.Typed level m k ∧ body.Typed level k l ∧
        increment.Typed level l h ∧ no.Typed level m h'
  | forever body, h, h' => body.Typed level h h ∧ h' = h
  | stepping body increment, h, h' =>
      ∃ k, body.Typed level h k ∧ increment.Typed level k h ∧ h' = h

/-- Some instructions one after the other, without the jumps among them. -/
def ofSteps : List Step → Flow
  | [] => skip
  | s :: code => if plain : s.isPlain = true then (step s plain).seq (ofSteps code) else ofSteps code

end Flow

/-- Instructions that are no jumps take the stack from one height to another, one after the
other. -/
def Straight (level : Nat) : List Step → Nat → Nat → Prop
  | [], h, h' => h' = h
  | s :: code, h, h' => s.isPlain = true ∧ ∃ m, s.Moves level h m ∧ Straight level code m h'

/-- Structured code is laid out as some code, and takes the stack from one height to another. -/
structure Flow.Codes (F : Flow) (code : List Step) (level h h' : Nat) : Prop where
  flat : F.flat = code
  typed : F.Typed level h h'

section

variable {F G C Y N : Flow} {s : Step} {code code' ccode ycode ncode : List Step}
  {level h m h' : Nat}

namespace Straight

theorem nil : Straight level [] h h := rfl

theorem cons (plain : s.isPlain = true) (hs : s.Moves level h m)
    (hcode : Straight level code m h') : Straight level (s :: code) h h' := ⟨plain, m, hs, hcode⟩

theorem step (plain : s.isPlain = true) (hs : s.Moves level h h') : Straight level [s] h h' :=
  cons plain hs nil

theorem append (hcode : Straight level code h m) (hcode' : Straight level code' m h') :
    Straight level (code ++ code') h h' := by
  induction code generalizing h with
  | nil =>
      obtain rfl : m = h := hcode
      exact hcode'
  | cons s code ih =>
      obtain ⟨plain, k, hs, hrest⟩ := hcode
      exact cons plain hs (ih hrest)

/-- Instructions that are no jumps are laid out as they are. -/
theorem codes (hcode : Straight level code h h') : (Flow.ofSteps code).Codes code level h h' := by
  induction code generalizing h with
  | nil => exact ⟨rfl, hcode⟩
  | cons s code ih =>
      obtain ⟨plain, m, hs, hrest⟩ := hcode
      obtain ⟨hflat, htyped⟩ := ih hrest
      rw [Flow.ofSteps, dif_pos plain]
      exact ⟨by rw [Flow.flat, Flow.flat, hflat, List.singleton_append], m, hs, htyped⟩

end Straight

namespace Flow.Codes

theorem skip : Flow.skip.Codes [] level h h := ⟨rfl, rfl⟩

theorem step (plain : s.isPlain = true) (hs : s.Moves level h h') :
    (Flow.step s plain).Codes [s] level h h' := ⟨rfl, hs⟩

theorem seq (hF : F.Codes code level h m) (hG : G.Codes code' level m h') :
    (F.seq G).Codes (code ++ code') level h h' :=
  ⟨by rw [Flow.flat, hF.flat, hG.flat], m, hF.typed, hG.typed⟩

theorem when (hm : 1 < h') (hC : C.Codes ccode level h h') (hY : Y.Codes ycode level h' h') :
    (C.when Y).Codes (ccode ++ .jump .jumpIfFalse (totalSize ycode) :: ycode) level h h' where
  flat := by rw [Flow.flat, hC.flat, hY.flat]
  typed := ⟨hC.typed, hm, hY.typed⟩

theorem choose (hm : 1 < m) (hC : C.Codes ccode level h m) (hY : Y.Codes ycode level m h')
    (hN : N.Codes ncode level m h') :
    (C.choose Y N).Codes (ccode ++ .jump .jumpIfFalse (totalSize ycode + 3) :: ycode ++
      .jump .jump (totalSize ncode) :: ncode) level h h' where
  flat := by
    rw [Flow.flat, hC.flat, hY.flat, hN.flat, List.append_assoc]
    rfl
  typed := ⟨m, hC.typed, hm, hY.typed, hN.typed⟩

theorem whileTrue (hm : 1 < m) (hC : C.Codes ccode level h m) (hY : Y.Codes ycode level m h)
    (hN : N.Codes ncode level m h') :
    (C.whileTrue Y N).Codes (ccode ++ .jump .jumpIfFalse (totalSize ycode + 3) :: ycode ++
      [.jump .loop (0 + totalSize (ccode ++ .jump .jumpIfFalse (totalSize ycode + 3) :: ycode) + 3)]
        ++ ncode) level h h' where
  flat := by
    rw [Flow.flat, hC.flat, hY.flat, hN.flat, totalSize_append, totalSize_cons, Nat.zero_add,
      ← Nat.add_assoc, List.append_assoc, List.append_assoc]
    rfl
  typed := ⟨m, hC.typed, hm, hY.typed, hN.typed⟩

/-- The value on top of the stack is dropped. -/
theorem pop (hh : 0 < h) : (simple .pop).Codes [.simple .pop] level (h + 1) h :=
  .step rfl ⟨Nat.succ_lt_succ hh, rfl, trivial⟩

/-- A branch, after the value of its condition is dropped. -/
theorem branch (hh : 0 < h) (hF : F.Codes code level h h') :
    ((simple .pop).seq F).Codes (.simple .pop :: code) level (h + 1) h' := (Codes.pop hh).seq hF

end Flow.Codes

end

end LoxCompiler
