import LoxCompiler.Proofs.Composition.Shift
import LoxCompiler.Proofs.Machine.Verifier

/-! # Relocated code

The code of a function as it is if its constants come after others: the operands that refer to
constants are greater, and all other bytes stay as they are. This is the code of the steps that
refer to constants as many places later.
-/

namespace LoxCompiler

/-- Bytes with those at some offsets greater by a number. -/
def Bytes.increase (operand : Nat → Prop) [DecidablePred operand] (n : Nat) (bytes : Bytes) : Bytes :=
  bytes.mapIdx fun offset b => if operand offset then .ofNat (b.toNat + n) else b

namespace Instruction

/-- At an offset there is the operand of an instruction that refers to a constant. -/
def IsReference (items : List (Nat × Instruction)) (offset : Nat) : Prop :=
  ∃ item ∈ items, item.2.reference?.isSome = true ∧ offset = item.1 + 1

instance (items : List (Nat × Instruction)) : DecidablePred (IsReference items) := fun _ =>
  inferInstanceAs (Decidable (∃ item ∈ items, _))

end Instruction

/-- The code of a function whose constants come after some others. -/
def Function.relocated (f : Function UInt8) (n : Nat) : Bytes :=
  Bytes.increase (Instruction.IsReference f.instructions) n f.code

open Instruction (IsReference)

namespace Bytes

variable {operand operand' : Nat → Prop} [DecidablePred operand] [DecidablePred operand'] {n : Nat}

theorem increase_append (bytes rest : Bytes) : increase operand n (bytes ++ rest) =
    increase operand n bytes ++ increase (fun p => operand (bytes.length + p)) n rest := by
  simp only [increase, List.mapIdx_append, Nat.add_comm]

theorem increase_congr {bytes : Bytes} (h : ∀ p < bytes.length, operand p ↔ operand' p) :
    increase operand n bytes = increase operand' n bytes := by
  unfold increase
  rw [List.mapIdx_eq_mapIdx_iff]
  intro p hp
  simp only [h p hp]

theorem increase_eq_self {bytes : Bytes} (h : ∀ p < bytes.length, ¬ operand p) :
    increase operand n bytes = bytes := by
  have hfalse : increase operand n bytes = increase (fun _ => False) n bytes :=
    increase_congr fun p hp => iff_of_false (h p hp) id
  rw [hfalse]
  exact List.ext_getElem? fun p => by simp [increase]

theorem increase_second (h : ∀ p, operand p ↔ p = 1) (a b : UInt8) (rest : Bytes) :
    increase operand n (a :: b :: rest) = a :: .ofNat (b.toNat + n) :: rest := by
  have hrest : increase (fun p => operand (2 + p)) n rest = rest :=
    increase_eq_self fun p _ hp => by
      rw [h] at hp
      omega
  have hfirst : increase operand n [a, b] = [a, .ofNat (b.toNat + n)] := by
    simp [increase, h]
  show increase operand n ([a, b] ++ rest) = [a, .ofNat (b.toNat + n)] ++ rest
  rw [increase_append, hfirst]
  exact congrArg _ hrest

end Bytes

namespace Step

variable {level : Nat} {captures : List Variable} {n : Nat}

/-- The operand of a step that refers to a constant is its second byte. -/
theorem increase_cells (s : Step) (n : Nat) :
    Bytes.increase (fun p => s.reference?.isSome = true ∧ p = 1) n
      ((s.cells level captures).map UInt8.ofNat) =
        ((s.shift n).cells level captures).map UInt8.ofNat := by
  have hindex (index : Nat) : UInt8.ofNat ((UInt8.ofNat index).toNat + n) = .ofNat (index + n) := by
    apply UInt8.toNat_inj.mp
    simp only [UInt8.toNat_ofNat']
    omega
  have hsecond (hs : s.reference?.isSome = true) (op : UInt8) (index : Nat) (rest : Bytes) :
      Bytes.increase (fun p => s.reference?.isSome = true ∧ p = 1) n (op :: .ofNat index :: rest) =
        op :: .ofNat (index + n) :: rest := by
    rw [Bytes.increase_second (fun p => and_iff_right hs), hindex]
  cases s with
  | constant op index | invoke op index arguments | closure index vs => exact hsecond rfl _ _ _
  | simple op | byte op operand | captured op v | jump op distance | pending op =>
      exact Bytes.increase_eq_self fun _ _ h => Bool.false_ne_true h.1

theorem two_le_size {s : Step} (h : s.reference?.isSome = true) : 2 ≤ s.size := by
  cases s <;> first | exact absurd h Bool.false_ne_true | (simp only [size]; omega)

theorem le_of_mem_decoded {o : Nat} {code : List Step} {item : Nat × Instruction}
    (h : item ∈ decoded level captures o code) : o ≤ item.1 := by
  obtain ⟨before, s, after, -, rfl⟩ := mem_decoded.mp h
  exact Nat.le_add_right _ _

theorem isReference_cons {s : Step} {o p : Nat} {items : List (Nat × Instruction)} :
    IsReference ((o, s.instruction level captures o) :: items) (o + p) ↔
      (s.reference?.isSome = true ∧ p = 1) ∨ IsReference items (o + p) := by
  unfold IsReference
  simp only [List.mem_cons, or_and_right, exists_or, exists_eq_left, reference?_instruction,
    Option.isSome_map, Nat.add_left_cancel_iff]

/-- The code of some steps whose constants come after others. -/
theorem increase_cellsOf (o : Nat) (code : List Step) (n : Nat) :
    Bytes.increase (fun p => IsReference (decoded level captures o code) (o + p)) n
      ((cellsOf level captures code).map UInt8.ofNat) =
        (cellsOf level captures (code.map (shift n))).map UInt8.ofNat := by
  induction code generalizing o with
  | nil => rfl
  | cons s code ih =>
      have hs : ((s.cells level captures).map UInt8.ofNat).length = s.size := by
        rw [List.length_map, length_cells]
      have hcells (code : List Step) (s : Step) : (cellsOf level captures (s :: code)).map UInt8.ofNat =
          (s.cells level captures).map UInt8.ofNat ++ (cellsOf level captures code).map UInt8.ofNat :=
        List.map_append
      rw [hcells, List.map_cons, hcells, Bytes.increase_append, ← increase_cells, ← ih (o + s.size), hs]
      -- a reference is either that of the first step, or behind it
      refine congrArg₂ (· ++ ·) (Bytes.increase_congr fun p hp => ?_)
        (Bytes.increase_congr fun p _ => ?_)
      · rw [hs] at hp
        rw [decoded, isReference_cons]
        refine or_iff_left ?_
        rintro ⟨item, hitem, -, heq⟩
        have := le_of_mem_decoded hitem
        omega
      · rw [decoded, isReference_cons, ← Nat.add_assoc]
        refine or_iff_right ?_
        rintro ⟨hreference, heq⟩
        have := two_le_size hreference
        omega

end Step

namespace FunctionBody.CompiledTo

variable {b : FunctionBody} {g : Function UInt8}

theorem relocated_eq (h : b.CompiledTo g) (n : Nat) : g.relocated n =
    (cellsOf b.env.level b.plan.captures (b.plan.code.map (Step.shift n))).map UInt8.ofNat := by
  unfold Function.relocated
  rw [h.instructions_eq, h.code_eq, ← Step.increase_cellsOf 0]
  exact Bytes.increase_congr fun p _ => by rw [Nat.zero_add]

/-- An instruction refers to a constant that is there. -/
theorem reference_lt (h : b.CompiledTo g) {item : Nat × Instruction} (hitem : item ∈ g.instructions)
    {index : Nat} (href : item.2.reference? = some index) : index < g.constants.length := by
  obtain ⟨o, i⟩ := item
  have hlt {c : Constant UInt8} (hc : g.constants[index]? = some c) : index < g.constants.length :=
    (List.getElem?_eq_some_iff.mp hc).1
  cases i with
  | constant op operand =>
      cases href
      obtain ⟨c, hc, -⟩ := h.verified.constants _ _ _ hitem
      exact hlt hc
  | invoke op name arguments =>
      cases href
      obtain ⟨c, hc, -⟩ := h.verified.methods _ _ _ _ hitem
      exact hlt hc
  | closure function descriptors =>
      cases href
      obtain ⟨c, hc, -⟩ := h.verified.closures _ _ _ hitem
      exact hlt hc
  | simple op | byte op operand | jump op distance target | unknown byte | truncated op => cases href

end FunctionBody.CompiledTo

end LoxCompiler
