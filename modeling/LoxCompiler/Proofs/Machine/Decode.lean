import LoxCompiler.Proofs.Control.Stack

/-! # Decoding what was assembled

The bytes of assembled steps are read back as the instructions of these steps, one after the other
and up to the end.
-/

namespace LoxCompiler

namespace Step

/-- The instructions of some steps, from an offset on. -/
def decoded (level : Nat) (captures : List Variable) : Nat → List Step → List (Nat × Instruction)
  | _, [] => []
  | o, s :: code =>
      (o, s.instruction level captures o) :: decoded level captures (o + s.size) code

/-- The opcode of a step asks for its operands, and they can be read back. -/
def Readable (constants : List (Constant UInt8)) : Step → Prop
  | .simple op => op.operands = .none
  | .byte op _ | .captured op _ => op.operands = .byte
  | .constant op _ => op.operands = .constant
  | .invoke op _ _ => op.operands = .invoke
  | .jump op distance => op.operands = .jump ∧ distance < 256 * 256
  | .pending _ => False
  | .closure index vs => Instruction.upvalueCount constants (UInt8.ofNat index) = vs.length

variable {level : Nat} {captures : List Variable} {constants : List (Constant UInt8)}

theorem decoded_append (o : Nat) (code more : List Step) :
    decoded level captures o (code ++ more) =
      decoded level captures o code ++ decoded level captures (o + totalSize code) more := by
  induction code generalizing o with
  | nil => rfl
  | cons s code ih =>
      simp only [List.cons_append, decoded, ih, totalSize_cons, Nat.add_assoc]

/-- Every step has its instruction at its own offset. -/
theorem mem_decoded {o : Nat} {code : List Step} {entry : Nat × Instruction} :
    entry ∈ decoded level captures o code ↔ ∃ before s after, code = before ++ s :: after ∧
      entry = (o + totalSize before, s.instruction level captures (o + totalSize before)) := by
  constructor
  · intro h
    induction code generalizing o with
    | nil => cases h
    | cons s code ih =>
        rcases List.mem_cons.mp h with rfl | h
        · exact ⟨[], s, code, rfl, rfl⟩
        · obtain ⟨before, s', after, rfl, rfl⟩ := ih h
          refine ⟨s :: before, s', after, rfl, ?_⟩
          rw [totalSize_cons, Nat.add_assoc]
  · rintro ⟨before, s, after, rfl, rfl⟩
    rw [decoded_append]
    exact List.mem_append_right _ List.mem_cons_self

/-- Descriptors are read back as they were assembled. -/
theorem readUpvalues_descriptors (vs : List Variable) (rest : Bytes) :
    Instruction.readUpvalues vs.length
      ((vs.flatMap (descriptor level captures)).map UInt8.ofNat ++ rest) =
      some (vs.map (upvalue level captures), rest) := by
  induction vs with
  | nil => rfl
  | cons v vs ih =>
      have hread (isLocal index : UInt8) : Instruction.readUpvalues (vs.length + 1) (isLocal :: index ::
          ((vs.flatMap (descriptor level captures)).map UInt8.ofNat ++ rest)) =
          some ((isLocal != 0, index) :: vs.map (upvalue level captures), rest) := by
        rw [Instruction.readUpvalues, ih]
      rw [List.flatMap_cons, List.map_append, List.append_assoc, List.map_cons]
      by_cases hlevel : v.level = level
      · rw [descriptor, if_pos hlevel, upvalue, if_pos hlevel]
        exact hread _ _
      · rw [descriptor, if_neg hlevel, upvalue, if_neg hlevel]
        exact hread _ _

/-- The operands of a step are read back. -/
theorem readOperands_cells {s : Step} (h : s.Readable constants) (o : Nat) (rest : Bytes) :
    Instruction.readOperands constants o s.opcode
      ((s.cells level captures).tail.map UInt8.ofNat ++ rest) =
      some (s.instruction level captures o, rest) := by
  cases s with
  | simple op | byte op operand | captured op v | constant op index =>
      simp only [Readable] at h
      simp only [Instruction.readOperands, opcode, h, cells, instruction, List.tail_cons, List.map_cons,
        List.map_nil, List.cons_append, List.nil_append]
  | invoke op index arguments =>
      simp only [Readable] at h
      simp only [Instruction.readOperands, opcode, h, cells, instruction, List.tail_cons, List.map_cons,
        List.map_nil, List.cons_append, List.nil_append]
  | jump op distance =>
      obtain ⟨hop, hdistance⟩ := h
      have hvalue : (UInt8.ofNat (distance / 256)).toNat * 256 + (UInt8.ofNat (distance % 256)).toNat =
          distance := by
        simp only [UInt8.toNat_ofNat']
        omega
      simp only [Instruction.readOperands, opcode, hop, cells, instruction, List.tail_cons,
        List.map_cons, List.map_nil, List.cons_append, List.nil_append, hvalue]
  | pending op => exact h.elim
  | closure index vs =>
      simp only [Readable] at h
      simp only [Instruction.readOperands, opcode, Opcode.operands, h, cells, instruction,
        List.tail_cons, List.map_cons, List.cons_append, readUpvalues_descriptors]

theorem cells_eq_cons (s : Step) :
    s.cells level captures = s.opcode.toByte.toNat :: (s.cells level captures).tail := by
  cases s <;> rfl

/-- Steps are read back one after the other, up to the end. -/
theorem readOnto_cells {code : List Step} (hcode : ∀ s ∈ code, s.Readable constants)
    {fuel : Nat} (hfuel : totalSize code ≤ fuel) (read : List (Nat × Instruction)) (o : Nat) :
    Instruction.readOnto constants fuel read o ((cellsOf level captures code).map UInt8.ofNat) =
      (decoded level captures o code).reverse ++ read := by
  induction code generalizing fuel read o with
  | nil => cases fuel <;> rfl
  | cons s code ih =>
      obtain ⟨hs, hcode⟩ := List.forall_mem_cons.mp hcode
      rw [totalSize_cons] at hfuel
      have hpos := s.size_pos
      obtain ⟨fuel, rfl⟩ := Nat.exists_eq_succ_of_ne_zero (show fuel ≠ 0 by omega)
      rw [cellsOf, List.flatMap_cons, s.cells_eq_cons, ← cellsOf, List.cons_append, List.map_cons,
        List.map_append, Instruction.readOnto, UInt8.ofNat_toNat, Opcode.ofByte?_toByte]
      dsimp only
      rw [readOperands_cells hs]
      dsimp only
      rw [ih hcode (by omega), size_instruction, decoded, List.reverse_cons, List.append_assoc]
      rfl

end Step

end LoxCompiler
