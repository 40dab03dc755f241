import LoxCompiler.Bytecode.Instruction
import Mathlib.Data.List.Basic

/-! # Encoded instructions

The bytes of an instruction, the number of bytes that an opcode asks for, and the instructions that
a constant pool allows. What is read of an opcode and its operands is such an instruction, and it is
written with the same bytes again, except that a descriptor's first byte is written as zero or one.
-/

namespace LoxCompiler

namespace Opcode

theorem nodup_all : all.Nodup := by decide

theorem toByte_of_ofByte? {b : UInt8} {op : Opcode} (h : ofByte? b = some op) : op.toByte = b := by
  obtain ⟨hlt, hget⟩ := List.getElem?_eq_some_iff.mp h
  have hindex : all.idxOf op = b.toNat := by rw [← hget, nodup_all.idxOf_getElem]
  rw [toByte, hindex, UInt8.ofNat_toNat]

end Opcode

namespace Instruction

/-- The bytes of the descriptor of a captured variable. -/
def encodeUpvalue (upvalue : Bool × UInt8) : Bytes := [if upvalue.1 then 1 else 0, upvalue.2]

/-- The bytes of an instruction. Of a truncated one only the opcode is known. -/
def encode : Instruction → Bytes
  | .simple op | .truncated op => [op.toByte]
  | .byte op operand | .constant op operand => [op.toByte, operand]
  | .jump op distance _ => [op.toByte, .ofNat (distance / 256), .ofNat (distance % 256)]
  | .invoke op name arguments => [op.toByte, name, arguments]
  | .closure function upvalues =>
      Opcode.closure.toByte :: function :: upvalues.flatMap encodeUpvalue
  | .unknown b => [b]

/-- The number of bytes of an instruction with its operands, given the constants that a closure
looks up. -/
def length (constants : List (Constant UInt8)) : Instruction → Nat
  | .simple _ | .unknown _ | .truncated _ => 1
  | .byte _ _ | .constant _ _ => 2
  | .jump _ _ _ | .invoke _ _ _ => 3
  | .closure function _ => 2 + 2 * upvalueCount constants function

/-- The number of bytes that an opcode asks for, given what follows it. -/
def operandLength (constants : List (Constant UInt8)) (op : Opcode) (rest : Bytes) : Nat :=
  match op.operands with
  | .none => 0
  | .byte | .constant => 1
  | .jump | .invoke => 2
  | .closure =>
      match rest with
      | [] => 1
      | function :: _ => 1 + 2 * upvalueCount constants function

/-- An instruction at an offset fits to the constants: its opcode has operands of its kind, a
closure has as many descriptors as its function captures variables, and a jump leads as far as its
distance says. A byte is only an instruction of its own if it is no opcode. -/
def Consistent (constants : List (Constant UInt8)) (offset : Nat) : Instruction → Prop
  | .simple op => op.operands = .none
  | .byte op _ => op.operands = .byte
  | .constant op _ => op.operands = .constant
  | .jump op distance target =>
      op.operands = .jump ∧ distance < 65536 ∧ target = jumpTarget op offset distance
  | .invoke op _ _ => op.operands = .invoke
  | .closure function upvalues => upvalues.length = upvalueCount constants function
  | .unknown b => Opcode.ofByte? b = none
  | .truncated _ => False

/-- The number of descriptors of an instruction. -/
def descriptorCount : Instruction → Nat
  | .closure _ upvalues => upvalues.length
  | _ => 0

variable {constants : List (Constant UInt8)} {offset : Nat} {i : Instruction}

theorem length_flatMap_encodeUpvalue (upvalues : List (Bool × UInt8)) :
    (upvalues.flatMap encodeUpvalue).length = 2 * upvalues.length := by
  induction upvalues with
  | nil => rfl
  | cons upvalue upvalues ih =>
      rw [List.flatMap_cons, List.length_append, ih, List.length_cons]
      simp only [encodeUpvalue, List.length_cons, List.length_nil]
      omega

theorem Consistent.length_encode (h : i.Consistent constants offset) :
    i.encode.length = i.length constants := by
  cases i with
  | closure function upvalues =>
      simp only [Consistent] at h
      simp only [encode, length, List.length_cons, length_flatMap_encodeUpvalue, h]
      omega
  | truncated op => exact h.elim
  | simple op | byte op operand | constant op index | jump op distance target
  | invoke op name arguments | unknown b => rfl

theorem Consistent.size_eq (h : i.Consistent constants offset) : i.size = i.length constants := by
  cases i with
  | closure function upvalues =>
      simp only [Consistent] at h
      rw [size, length, h]
  | truncated op => exact h.elim
  | simple op | byte op operand | constant op index | jump op distance target
  | invoke op name arguments | unknown b => rfl

theorem length_pos : 0 < i.length constants := by
  cases i <;> simp only [length] <;> omega

/-! ## Descriptors as they stand in the code -/

/-- The bytes of some descriptors, whose first bytes may be any. -/
def rawUpvalues (pairs : List (UInt8 × UInt8)) : Bytes := pairs.flatMap fun p => [p.1, p.2]

/-- The descriptors that some bytes stand for. -/
def upvaluesOf (pairs : List (UInt8 × UInt8)) : List (Bool × UInt8) :=
  pairs.map fun p => (p.1 != 0, p.2)

theorem length_rawUpvalues (pairs : List (UInt8 × UInt8)) :
    (rawUpvalues pairs).length = 2 * pairs.length := by
  induction pairs with
  | nil => rfl
  | cons pair pairs ih =>
      rw [rawUpvalues, List.flatMap_cons, List.length_append, ← rawUpvalues, ih, List.length_cons]
      simp only [List.length_cons, List.length_nil]
      omega

theorem length_upvaluesOf (pairs : List (UInt8 × UInt8)) :
    (upvaluesOf pairs).length = pairs.length := List.length_map ..

/-- What is read of some descriptors. -/
theorem readUpvalues_eq_some {n : Nat} {rest rest' : Bytes} {upvalues : List (Bool × UInt8)}
    (h : readUpvalues n rest = some (upvalues, rest')) : ∃ pairs : List (UInt8 × UInt8),
      pairs.length = n ∧ rest = rawUpvalues pairs ++ rest' ∧ upvalues = upvaluesOf pairs := by
  fun_induction readUpvalues n rest generalizing upvalues rest' with
  | case1 rest =>
      cases h
      exact ⟨[], rfl, rfl, rfl⟩
  | case2 n isLocal index rest upvalues₁ rest₁ hread ih =>
      cases h
      obtain ⟨pairs, hlength, rfl, rfl⟩ := ih hread
      exact ⟨(isLocal, index) :: pairs, congrArg (· + 1) hlength, rfl, rfl⟩
  | case3 => cases h
  | case4 => cases h

/-- Descriptors are read as long as there are enough bytes. -/
theorem readUpvalues_eq_none_iff {n : Nat} {rest : Bytes} :
    readUpvalues n rest = none ↔ rest.length < 2 * n := by
  fun_induction readUpvalues n rest with
  | case1 rest => simp
  | case2 n isLocal index rest upvalues rest' hread ih =>
      rw [hread] at ih
      simp only [reduceCtorEq, false_iff, Nat.not_lt, List.length_cons] at ih ⊢
      omega
  | case3 n isLocal index rest hread ih =>
      have := ih.mp hread
      simp only [List.length_cons, true_iff]
      omega
  | case4 n rest hshort =>
      simp only [true_iff]
      match rest, hshort with
      | [], _ => rw [List.length_nil]; omega
      | [b], _ => rw [List.length_singleton]; omega
      | isLocal :: index :: rest, hshort => exact (hshort isLocal index rest rfl).elim

theorem readUpvalues_encode (upvalues : List (Bool × UInt8)) (rest : Bytes) :
    readUpvalues upvalues.length (upvalues.flatMap encodeUpvalue ++ rest) =
      some (upvalues, rest) := by
  induction upvalues with
  | nil => rfl
  | cons upvalue upvalues ih =>
      obtain ⟨isLocal, index⟩ := upvalue
      have hflag : ((if isLocal then 1 else 0 : UInt8) != 0) = isLocal := by cases isLocal <;> rfl
      show readUpvalues (upvalues.length + 1) ((if isLocal then 1 else 0) :: index ::
        (upvalues.flatMap encodeUpvalue ++ rest)) = _
      rw [readUpvalues, ih]
      dsimp only
      rw [hflag]

/-! ## Operands as they stand in the code -/

/-- The bytes that an instruction at an offset is read from. -/
inductive Written (constants : List (Constant UInt8)) (offset : Nat) :
    Instruction → Bytes → Prop where
  | plain {i : Instruction} : i.Consistent constants offset → i.descriptorCount = 0 →
      Written constants offset i i.encode
  | closure {function : UInt8} {pairs : List (UInt8 × UInt8)} :
      pairs.length = upvalueCount constants function →
      Written constants offset (.closure function (upvaluesOf pairs))
        (Opcode.closure.toByte :: function :: rawUpvalues pairs)

namespace Written

variable {bytes : Bytes}

theorem consistent (h : Written constants offset i bytes) : i.Consistent constants offset := by
  cases h with
  | plain h _ => exact h
  | closure h => exact (length_upvaluesOf _).trans h

theorem length_eq (h : Written constants offset i bytes) :
    bytes.length = i.length constants := by
  cases h with
  | plain h _ => exact h.length_encode
  | closure h =>
      simp only [List.length_cons, length_rawUpvalues, h, length]
      omega

end Written

/-- Operands are read as long as there are enough bytes. -/
theorem readOperands_eq_none_iff {op : Opcode} {rest : Bytes} :
    readOperands constants offset op rest = none ↔
      rest.length < operandLength constants op rest := by
  unfold readOperands operandLength
  rcases op.operands with _ | _ | _ | _ | _ | _
  · simp
  · cases rest <;> simp
  · cases rest <;> simp
  · rcases rest with _ | ⟨high, _ | ⟨low, rest⟩⟩ <;> simp
  · rcases rest with _ | ⟨name, _ | ⟨arguments, rest⟩⟩ <;> simp
  · rcases rest with _ | ⟨function, rest⟩
    · simp
    · have hread : readUpvalues (upvalueCount constants function) rest = none ↔
          rest.length < 2 * upvalueCount constants function := readUpvalues_eq_none_iff
      dsimp only
      rw [List.length_cons, Nat.add_comm 1, Nat.add_lt_add_iff_right, ← hread]
      cases readUpvalues (upvalueCount constants function) rest <;> simp

/-- What is read of an opcode with its operands. -/
theorem readOperands_eq_some {op : Opcode} {rest rest' : Bytes}
    (h : readOperands constants offset op rest = some (i, rest')) : ∃ operands,
      rest = operands ++ rest' ∧ Written constants offset i (op.toByte :: operands) := by
  have hplain {j : Instruction} (hj : j.Consistent constants offset)
      (hcount : j.descriptorCount = 0) : Written constants offset j j.encode := .plain hj hcount
  unfold readOperands at h
  split at h
  · next hop =>
    cases h
    exact ⟨[], rfl, hplain (j := .simple op) hop rfl⟩
  · next operand rest hop =>
    cases h
    exact ⟨[operand], rfl, hplain (j := .byte op operand) hop rfl⟩
  · next index rest hop =>
    cases h
    exact ⟨[index], rfl, hplain (j := .constant op index) hop rfl⟩
  · next high low rest hop =>
    cases h
    have hlow := low.toNat_lt
    have hhigh := high.toNat_lt
    have hdiv : (high.toNat * 256 + low.toNat) / 256 = high.toNat := by omega
    have hmod : (high.toNat * 256 + low.toNat) % 256 = low.toNat := by omega
    have hwritten := hplain (j := .jump op (high.toNat * 256 + low.toNat)
      (jumpTarget op offset (high.toNat * 256 + low.toNat))) ⟨hop, by omega, rfl⟩ rfl
    rw [encode, hdiv, hmod, UInt8.ofNat_toNat, UInt8.ofNat_toNat] at hwritten
    exact ⟨[high, low], rfl, hwritten⟩
  · next name arguments rest hop =>
    cases h
    exact ⟨[name, arguments], rfl, hplain (j := .invoke op name arguments) hop rfl⟩
  · next function rest hop =>
    have hclosure : op = .closure := by cases op <;> first | rfl | cases hop
    split at h
    · next upvalues rest₁ hread =>
      cases h
      obtain ⟨pairs, hlength, rfl, rfl⟩ := readUpvalues_eq_some hread
      rw [hclosure]
      exact ⟨function :: rawUpvalues pairs, rfl, .closure hlength⟩
    · cases h
  · cases h

/-- The operands of an instruction that fits to the constants are read back. -/
theorem readOperands_encode (h : i.Consistent constants offset) {op : Opcode} {operands : Bytes}
    (hencode : i.encode = op.toByte :: operands) (hknown : ∀ b, i ≠ .unknown b) (rest : Bytes) :
    readOperands constants offset op (operands ++ rest) = some (i, rest) := by
  have hcode {op' : Opcode} {operands' : Bytes}
      (heq : op'.toByte :: operands' = op.toByte :: operands) : op' = op ∧ operands' = operands := by
    obtain ⟨hbyte, hrest⟩ := List.cons.inj heq
    have hopcode := congrArg Opcode.ofByte? hbyte
    rw [Opcode.ofByte?_toByte, Opcode.ofByte?_toByte] at hopcode
    exact ⟨Option.some.inj hopcode, hrest⟩
  unfold readOperands
  cases i with
  | simple op' | byte op' operand | constant op' index | invoke op' name arguments =>
      obtain ⟨rfl, rfl⟩ := hcode hencode
      simp only [Consistent] at h
      simp only [h, List.nil_append, List.cons_append]
  | jump op' distance target =>
      obtain ⟨rfl, rfl⟩ := hcode hencode
      obtain ⟨hop, hdistance, rfl⟩ := h
      have hvalue : (UInt8.ofNat (distance / 256)).toNat * 256 +
          (UInt8.ofNat (distance % 256)).toNat = distance := by
        simp only [UInt8.toNat_ofNat']
        omega
      simp only [hop, List.cons_append, List.nil_append, hvalue]
  | closure function upvalues =>
      obtain ⟨rfl, rfl⟩ := hcode hencode
      simp only [Consistent] at h
      simp only [Opcode.operands, List.cons_append, ← h, readUpvalues_encode]
  | unknown b => exact (hknown b rfl).elim
  | truncated op' => exact h.elim

end Instruction

end LoxCompiler
