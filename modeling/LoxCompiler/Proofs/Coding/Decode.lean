import LoxCompiler.Proofs.Coding.Encode
import Mathlib.Data.List.Chain

/-! # Decoded code

The instructions of any code, however malformed, follow one another without a gap from its first to
its last byte, and they are written with the same bytes again. Instructions that fit to the constants
are decoded from the bytes they are written with. A truncated instruction stands for all bytes from
its opcode on.
-/

namespace LoxCompiler

namespace Instruction

/-- The instructions at some offsets are those of some code. -/
structure Decoded (constants : List (Constant UInt8)) (code : Bytes)
    (items : List (Nat × Instruction)) : Prop where
  empty : items = [] ↔ code = []
  first : ∀ item ∈ items.head?, item.1 = 0
  next : items.IsChain fun item after => after.1 = item.1 + item.2.length constants
  last : ∀ item ∈ items.getLast?, (∃ op, item.2 = .truncated op) ∨
    item.1 + item.2.length constants = code.length
  /-- An instruction fits to the constants, or it is truncated and the last one. -/
  fits : ∀ before item after, items = before ++ item :: after →
    item.2.Consistent constants item.1 ∨ (∃ op, item.2 = .truncated op) ∧ after = []
  /-- Whether an instruction is unknown or truncated is decided by the bytes at its offset. -/
  reads : ∀ item ∈ items, ∃ b rest, code.drop item.1 = b :: rest ∧
    (∀ b', item.2 = .unknown b' ↔ b' = b ∧ Opcode.ofByte? b = none) ∧
    ∀ op, item.2 = .truncated op ↔
      Opcode.ofByte? b = some op ∧ rest.length < operandLength constants op rest

/-- The bytes that an instruction at an offset of some code stands for. -/
def written (code : Bytes) (item : Nat × Instruction) : Bytes :=
  match item.2 with
  | .truncated _ => code.drop item.1
  | i => i.encode

/-- At an offset there is the first byte of a descriptor, which says whether a captured variable is
a local. -/
def IsFlag (items : List (Nat × Instruction)) (offset : Nat) : Prop :=
  ∃ item ∈ items, ∃ k < item.2.descriptorCount, offset = item.1 + 2 + 2 * k

instance (items : List (Nat × Instruction)) (offset : Nat) : Decidable (IsFlag items offset) :=
  inferInstanceAs (Decidable (∃ item ∈ items, ∃ k < item.2.descriptorCount, _))

/-- Code with one for each byte at some offsets that is not zero. -/
def clear (flag : Nat → Prop) [DecidablePred flag] (code : Bytes) : Bytes :=
  code.mapIdx fun offset b => if flag offset ∧ b ≠ 0 then 1 else b

/-- Instructions one after the other, each at its offset. -/
def located : Nat → List Instruction → List (Nat × Instruction)
  | _, [] => []
  | offset, i :: rest => (offset, i) :: located (offset + i.encode.length) rest

/-- Instructions one after the other fit to the constants. -/
def ConsistentEach (constants : List (Constant UInt8)) : Nat → List Instruction → Prop
  | _, [] => True
  | offset, i :: rest =>
      i.Consistent constants offset ∧ ConsistentEach constants (offset + i.encode.length) rest

/-- The bytes of some instructions. -/
def encodeEach (instructions : List Instruction) : Bytes := instructions.flatMap encode

/-! ## Instructions without a gap -/

/-- Some instructions follow one another from an offset to the end of the code. -/
inductive Covers (constants : List (Constant UInt8)) : Nat → Bytes → List (Nat × Instruction) → Prop
  | nil {offset} : Covers constants offset [] []
  | cons {offset i bytes rest items} : Written constants offset i bytes →
      Covers constants (offset + bytes.length) rest items →
      Covers constants offset (bytes ++ rest) ((offset, i) :: items)
  | cut {offset op rest} : rest.length < operandLength constants op rest →
      Covers constants offset (op.toByte :: rest) [(offset, .truncated op)]

variable {constants : List (Constant UInt8)} {offset : Nat} {code rest : Bytes}
  {items : List (Nat × Instruction)} {i : Instruction}

/-- Reading code gives instructions without a gap, whatever the bytes are. -/
theorem covers_readOnto (constants : List (Constant UInt8)) (offset : Nat) (rest : Bytes) {fuel : Nat}
    (hfuel : rest.length ≤ fuel) (read : List (Nat × Instruction)) :
    ∃ items, readOnto constants fuel read offset rest = items.reverse ++ read ∧
      Covers constants offset rest items := by
  induction fuel generalizing offset rest read with
  | zero =>
      obtain rfl := List.eq_nil_of_length_eq_zero (Nat.le_zero.mp hfuel)
      exact ⟨[], rfl, .nil⟩
  | succ fuel ih =>
      cases rest with
      | nil => exact ⟨[], rfl, .nil⟩
      | cons b rest =>
          rw [List.length_cons] at hfuel
          rw [readOnto]
          cases hop : Opcode.ofByte? b with
          | none =>
              have hunknown : Written constants offset (.unknown b) [b] :=
                .plain (i := .unknown b) hop rfl
              obtain ⟨items, hread, hcovers⟩ :=
                ih (offset + 1) rest (Nat.le_of_succ_le_succ hfuel) ((offset, .unknown b) :: read)
              refine ⟨(offset, .unknown b) :: items, ?_, .cons hunknown hcovers⟩
              dsimp only
              rw [hread, List.reverse_cons, List.append_assoc]
              rfl
          | some op =>
              obtain rfl := Opcode.toByte_of_ofByte? hop
              dsimp only
              cases hoperands : readOperands constants offset op rest with
              | none => exact ⟨_, rfl, .cut (readOperands_eq_none_iff.mp hoperands)⟩
              | some answer =>
                  obtain ⟨i, rest'⟩ := answer
                  obtain ⟨operands, rfl, hi⟩ := readOperands_eq_some hoperands
                  rw [List.length_append] at hfuel
                  have hsize : i.size = (op.toByte :: operands).length := by
                    rw [hi.consistent.size_eq, hi.length_eq]
                  obtain ⟨items, hread, hcovers⟩ :=
                    ih (offset + i.size) rest' (by omega) ((offset, i) :: read)
                  rw [hsize] at hcovers
                  refine ⟨(offset, i) :: items, ?_, .cons hi hcovers⟩
                  dsimp only
                  rw [hread, List.reverse_cons, List.append_assoc]
                  rfl

theorem covers_instructions (f : Function UInt8) :
    Covers f.constants 0 f.code f.instructions := by
  obtain ⟨items, hread, hcovers⟩ := covers_readOnto f.constants 0 f.code (Nat.le_refl _) []
  rw [Function.instructions, hread, List.append_nil, List.reverse_reverse]
  exact hcovers

namespace Covers

theorem head (h : Covers constants offset rest items) : ∀ item ∈ items.head?, item.1 = offset := by
  cases h with
  | nil => simp
  | cons hi h => simp
  | cut hshort => simp

theorem next (h : Covers constants offset rest items) :
    items.IsChain fun item after => after.1 = item.1 + item.2.length constants := by
  induction h with
  | nil => exact .nil
  | cons hi h ih =>
      refine List.isChain_cons.mpr ⟨fun item hitem => ?_, ih⟩
      rw [h.head item hitem, hi.length_eq]
  | cut hshort => exact .singleton _

theorem eq_nil_iff (h : Covers constants offset rest items) : items = [] ↔ rest = [] := by
  cases h with
  | nil => simp
  | cons hi h =>
      have hpos : 0 < _ := hi.length_eq ▸ length_pos
      simp [List.ne_nil_of_length_pos hpos]
  | cut hshort => simp

theorem last (h : Covers constants offset rest items) : ∀ item ∈ items.getLast?,
    (∃ op, item.2 = .truncated op) ∨
      item.1 + item.2.length constants = offset + rest.length := by
  induction h with
  | nil => simp
  | @cons offset i bytes rest items hi h ih =>
      rcases items with _ | ⟨item, items⟩
      · obtain rfl := h.eq_nil_iff.mp rfl
        have hlength := hi.length_eq
        simp [hlength]
      · rw [List.getLast?_cons_cons]
        intro item hitem
        rcases ih item hitem with htruncated | hend
        · exact .inl htruncated
        · rw [List.length_append]
          exact .inr (by omega)
  | cut hshort => exact fun item hitem => .inl ⟨_, congrArg Prod.snd (by simpa using hitem.symm)⟩

theorem fits (h : Covers constants offset rest items) : ∀ before item after,
    items = before ++ item :: after →
      item.2.Consistent constants item.1 ∨ (∃ op, item.2 = .truncated op) ∧ after = [] := by
  induction h with
  | nil => simp
  | cons hi h ih =>
      intro before item after heq
      rcases List.cons_eq_append_iff.mp heq with ⟨rfl, hcons⟩ | ⟨before, rfl, hitems⟩
      · cases hcons
        exact .inl hi.consistent
      · exact ih before item after hitems
  | cut hshort =>
      intro before item after heq
      rcases List.cons_eq_append_iff.mp heq with ⟨rfl, hcons⟩ | ⟨before, rfl, hitems⟩
      · cases hcons
        exact .inr ⟨⟨_, rfl⟩, rfl⟩
      · simp at hitems

/-- No instruction stands before the first one. -/
theorem le_offset (h : Covers constants offset rest items) : ∀ item ∈ items, offset ≤ item.1 := by
  induction h with
  | nil => simp
  | cons hi h ih =>
      intro item hitem
      rcases List.mem_cons.mp hitem with rfl | hitem
      · exact Nat.le_refl _
      · exact Nat.le_of_add_right_le (ih item hitem)
  | cut hshort => simp

end Covers

/-! ## The bytes of an instruction -/

/-- The first byte of a whole instruction says whether it is an opcode, and then the operands are
there. -/
theorem Written.reads {bytes : Bytes} (h : Written constants offset i bytes) (rest : Bytes) :
    ∃ b operands, bytes = b :: operands ∧
      (∀ b', i = .unknown b' ↔ b' = b ∧ Opcode.ofByte? b = none) ∧
      ∀ op, ¬ (Opcode.ofByte? b = some op ∧
        (operands ++ rest).length < operandLength constants op (operands ++ rest)) := by
  have hknown {op : Opcode} (hi : ∀ b, i ≠ .unknown b) (b' : UInt8) :
      i = .unknown b' ↔ b' = op.toByte ∧ Opcode.ofByte? op.toByte = none := by
    simp [hi b']
  cases h with
  | plain h hcount =>
      cases i with
      | unknown b => exact ⟨b, [], rfl, by simp_all [Consistent, eq_comm], by simp_all [Consistent]⟩
      | truncated op => exact h.elim
      | closure function upvalues =>
          simp only [Consistent] at h
          simp only [descriptorCount] at hcount
          refine ⟨_, _, rfl, hknown (by simp), ?_⟩
          rintro op ⟨hop, hshort⟩
          rw [Opcode.ofByte?_toByte] at hop
          cases hop
          simp only [operandLength, Opcode.operands, List.cons_append, List.length_cons, ← h,
            hcount] at hshort
          omega
      | simple op | byte op operand | constant op operand | invoke op name arguments =>
          simp only [Consistent] at h
          refine ⟨_, _, rfl, hknown (by simp), ?_⟩
          rintro op' ⟨hop, hshort⟩
          rw [Opcode.ofByte?_toByte] at hop
          cases hop
          simp only [operandLength, h, List.length_append, List.length_cons, List.length_nil] at hshort
          omega
      | jump op distance target =>
          refine ⟨_, _, rfl, hknown (by simp), ?_⟩
          rintro op' ⟨hop, hshort⟩
          rw [Opcode.ofByte?_toByte] at hop
          cases hop
          simp only [operandLength, h.1, List.length_append, List.length_cons, List.length_nil] at hshort
          omega
  | closure hcount =>
      refine ⟨_, _, rfl, hknown (by simp), ?_⟩
      rintro op ⟨hop, hshort⟩
      rw [Opcode.ofByte?_toByte] at hop
      cases hop
      simp only [operandLength, Opcode.operands, List.cons_append, List.length_cons,
        List.length_append, length_rawUpvalues, hcount] at hshort
      omega

/-- Whether an instruction is unknown or truncated is decided by the bytes where it stands. -/
theorem Covers.reads (h : Covers constants offset rest items) (before : Bytes)
    (hbefore : before.length = offset) : ∀ item ∈ items, ∃ b after,
      (before ++ rest).drop item.1 = b :: after ∧
        (∀ b', item.2 = .unknown b' ↔ b' = b ∧ Opcode.ofByte? b = none) ∧
        ∀ op, item.2 = .truncated op ↔
          Opcode.ofByte? b = some op ∧ after.length < operandLength constants op after := by
  induction h generalizing before with
  | nil => simp
  | @cons offset i bytes rest items hi h ih =>
      intro item hitem
      rcases List.mem_cons.mp hitem with rfl | hitem
      · obtain ⟨b, operands, rfl, hunknown, hwhole⟩ := hi.reads rest
        refine ⟨b, operands ++ rest, ?_, hunknown, fun op => iff_of_false ?_ (hwhole op)⟩
        · rw [← hbefore, List.drop_left]
          rfl
        · rintro rfl
          exact hi.consistent
      · have hlength : (before ++ bytes).length = offset + bytes.length := by
          rw [List.length_append, hbefore]
        have hitem := ih _ hlength item hitem
        rwa [List.append_assoc] at hitem
  | @cut offset op rest hshort =>
      intro item hitem
      obtain rfl := List.mem_singleton.mp hitem
      refine ⟨op.toByte, rest, by rw [← hbefore, List.drop_left], by simp, fun op' => ?_⟩
      rw [Opcode.ofByte?_toByte]
      simp only [truncated.injEq, Option.some.injEq]
      constructor
      · rintro rfl
        exact ⟨rfl, hshort⟩
      · exact And.left

theorem Covers.decoded (h : Covers constants 0 code items) : Decoded constants code items where
  empty := h.eq_nil_iff
  first := h.head
  next := h.next
  last := by
    have hlast := h.last
    rwa [Nat.zero_add] at hlast
  fits := h.fits
  reads := h.reads [] rfl

/-! ## Writing what was read -/

theorem clear_append (flag : Nat → Prop) [DecidablePred flag] (bytes rest : Bytes) :
    clear flag (bytes ++ rest) = clear flag bytes ++ clear (fun p => flag (bytes.length + p)) rest := by
  simp only [clear, List.mapIdx_append, Nat.add_comm]

theorem clear_congr {flag flag' : Nat → Prop} [DecidablePred flag] [DecidablePred flag'] {bytes : Bytes}
    (h : ∀ p < bytes.length, flag p ↔ flag' p) : clear flag bytes = clear flag' bytes := by
  unfold clear
  rw [List.mapIdx_eq_mapIdx_iff]
  intro p hp
  simp only [h p hp]

theorem clear_eq_self {flag : Nat → Prop} [DecidablePred flag] {bytes : Bytes}
    (h : ∀ p < bytes.length, ¬ flag p) : clear flag bytes = bytes := by
  have hfalse : clear flag bytes = clear (fun _ => False) bytes :=
    clear_congr fun p hp => iff_of_false (h p hp) id
  rw [hfalse]
  exact List.ext_getElem? fun p => by simp [clear]

theorem clear_rawUpvalues (pairs : List (UInt8 × UInt8)) :
    clear (fun p => ∃ k < pairs.length, p = 2 * k) (rawUpvalues pairs) =
      (upvaluesOf pairs).flatMap encodeUpvalue := by
  induction pairs with
  | nil => rfl
  | cons pair pairs ih =>
      obtain ⟨isLocal, index⟩ := pair
      have hflag : (if isLocal ≠ 0 then (1 : UInt8) else isLocal) = if isLocal != 0 then 1 else 0 := by
        by_cases h : isLocal = 0 <;> simp [h]
      have hrest : clear (fun p => ∃ k < pairs.length + 1, 2 + p = 2 * k) (rawUpvalues pairs) =
          clear (fun p => ∃ k < pairs.length, p = 2 * k) (rawUpvalues pairs) := by
        refine clear_congr fun p _ => ⟨?_, ?_⟩
        · rintro ⟨k, hk, hp⟩
          exact ⟨k - 1, by omega, by omega⟩
        · rintro ⟨k, hk, rfl⟩
          exact ⟨k + 1, by omega, by omega⟩
      have hfirst : clear (fun p => ∃ k < pairs.length + 1, p = 2 * k) [isLocal, index] =
          encodeUpvalue (isLocal != 0, index) := by
        have hzero : ∃ k < pairs.length + 1, 0 = 2 * k := ⟨0, by omega, rfl⟩
        have hone : ¬ ∃ k < pairs.length + 1, 1 = 2 * k := by
          rintro ⟨k, _, h⟩
          omega
        simp only [clear, List.mapIdx_cons, List.mapIdx_nil, hzero, hone, true_and, false_and,
          if_false, Nat.zero_add, encodeUpvalue, hflag]
      show clear (fun p => ∃ k < pairs.length + 1, p = 2 * k)
        ([isLocal, index] ++ rawUpvalues pairs) = _
      rw [clear_append, hfirst]
      exact congrArg _ (hrest.trans ih)

/-- A whole instruction is written with the bytes it was read from, up to the flags. -/
theorem Written.clear_eq {bytes : Bytes} (h : Written constants offset i bytes) :
    clear (fun p => ∃ k < i.descriptorCount, p = 2 + 2 * k) bytes = i.encode := by
  cases h with
  | plain h hcount =>
      refine clear_eq_self fun p _ => ?_
      rw [hcount]
      rintro ⟨k, hk, _⟩
      exact Nat.not_lt_zero k hk
  | @closure function pairs hcount =>
      show clear _ ([Opcode.closure.toByte, function] ++ rawUpvalues pairs) =
        [Opcode.closure.toByte, function] ++ (upvaluesOf pairs).flatMap encodeUpvalue
      rw [clear_append, ← clear_rawUpvalues]
      congr 1
      · refine clear_eq_self fun p hp => ?_
        rintro ⟨k, _, rfl⟩
        simp only [List.length_cons, List.length_nil] at hp
        omega
      · refine clear_congr fun p _ => ?_
        simp only [descriptorCount, length_upvaluesOf, List.length_cons, List.length_nil]
        refine exists_congr fun k => and_congr_right fun _ => ?_
        omega

/-- The flags of an instruction are before the next instruction. -/
theorem Written.flag_lt {bytes : Bytes} (h : Written constants offset i bytes) {k : Nat}
    (hk : k < i.descriptorCount) : 2 + 2 * k < bytes.length := by
  rw [h.length_eq]
  have hconsistent := h.consistent
  cases i with
  | closure function upvalues =>
      simp only [Consistent] at hconsistent
      simp only [descriptorCount] at hk
      simp only [length]
      omega
  | simple op | byte op operand | constant op index | jump op distance target
  | invoke op name arguments | unknown b | truncated op => exact (Nat.not_lt_zero k hk).elim

/-- Instructions without a gap are written with the bytes they were read from, up to the flags. -/
theorem Covers.flatMap_written (h : Covers constants offset rest items) (before : Bytes)
    (hbefore : before.length = offset) : items.flatMap (written (before ++ rest)) =
      clear (fun p => IsFlag items (offset + p)) rest := by
  induction h generalizing before with
  | nil => rfl
  | @cons offset i bytes rest items hi h ih =>
      have hlength : (before ++ bytes).length = offset + bytes.length := by
        rw [List.length_append, hbefore]
      have hrest := ih _ hlength
      rw [List.append_assoc] at hrest
      have hhead : written (before ++ (bytes ++ rest)) (offset, i) = i.encode := by
        have := hi.consistent
        cases i with
        | truncated op => exact this.elim
        | simple op | byte op operand | constant op index | jump op distance target
        | invoke op name arguments | unknown b | closure function upvalues => rfl
      rw [List.flatMap_cons, hhead, hrest, clear_append, ← hi.clear_eq]
      congr 1
      · refine clear_congr fun p hp => ?_
        constructor
        · rintro ⟨k, hk, rfl⟩
          exact ⟨_, List.mem_cons_self, k, hk, by omega⟩
        · rintro ⟨item, hitem, k, hk, heq⟩
          rcases List.mem_cons.mp hitem with rfl | hitem
          · exact ⟨k, hk, by omega⟩
          · have := h.le_offset item hitem
            omega
      · refine clear_congr fun p _ => ?_
        constructor
        · rintro ⟨item, hitem, k, hk, heq⟩
          exact ⟨item, List.mem_cons_of_mem _ hitem, k, hk, by omega⟩
        · rintro ⟨item, hitem, k, hk, heq⟩
          rcases List.mem_cons.mp hitem with rfl | hitem
          · have := hi.flag_lt hk
            dsimp only at heq
            omega
          · exact ⟨item, hitem, k, hk, by omega⟩
  | @cut offset op rest hshort =>
      have hnone : clear (fun p => IsFlag [(offset, .truncated op)] (offset + p)) (op.toByte :: rest) =
          op.toByte :: rest := by
        refine clear_eq_self fun p _ => ?_
        rintro ⟨item, hitem, k, hk, _⟩
        obtain rfl := List.mem_singleton.mp hitem
        exact Nat.not_lt_zero k hk
      rw [hnone, List.flatMap_singleton, written, ← hbefore, List.drop_left]

/-! ## Reading what was written -/

theorem Consistent.readOnto_encode (h : i.Consistent constants offset) {fuel : Nat}
    (read : List (Nat × Instruction)) (rest : Bytes) :
    readOnto constants (fuel + 1) read offset (i.encode ++ rest) =
      readOnto constants fuel ((offset, i) :: read) (offset + i.encode.length) rest := by
  have hopcode {op : Opcode} {operands : Bytes} (hencode : i.encode = op.toByte :: operands)
      (hknown : ∀ b, i ≠ .unknown b) : readOnto constants (fuel + 1) read offset (i.encode ++ rest) =
        readOnto constants fuel ((offset, i) :: read) (offset + i.encode.length) rest := by
    rw [h.length_encode, ← h.size_eq, hencode, List.cons_append, readOnto, Opcode.ofByte?_toByte]
    dsimp only
    rw [readOperands_encode h hencode hknown]
  cases i with
  | unknown b =>
      simp only [Consistent] at h
      simp only [encode, List.cons_append, List.nil_append, readOnto, h, List.length_singleton]
  | truncated op => exact h.elim
  | simple op | byte op operand | constant op index | jump op distance target
  | invoke op name arguments | closure function upvalues => exact hopcode rfl (by simp)

/-- Instructions that fit to the constants are read back, and then what comes after them. -/
theorem readOnto_encodeEach {instructions : List Instruction}
    (h : ConsistentEach constants offset instructions) (rest : Bytes) {fuel : Nat}
    (hfuel : (encodeEach instructions ++ rest).length ≤ fuel) (read : List (Nat × Instruction)) :
    ∃ fuel', rest.length ≤ fuel' ∧
      readOnto constants fuel read offset (encodeEach instructions ++ rest) =
        readOnto constants fuel' ((located offset instructions).reverse ++ read)
          (offset + (encodeEach instructions).length) rest := by
  induction instructions generalizing offset fuel read with
  | nil => exact ⟨fuel, hfuel, rfl⟩
  | cons i instructions ih =>
      have hpos : 0 < i.encode.length := h.1.length_encode ▸ length_pos
      rw [encodeEach, List.flatMap_cons, ← encodeEach] at hfuel ⊢
      simp only [List.length_append] at hfuel
      obtain ⟨fuel, rfl⟩ := Nat.exists_eq_succ_of_ne_zero (show fuel ≠ 0 by omega)
      have hrest : (encodeEach instructions ++ rest).length ≤ fuel := by
        rw [List.length_append]
        omega
      obtain ⟨fuel', hfuel', hread⟩ := ih h.2 hrest ((offset, i) :: read)
      refine ⟨fuel', hfuel', ?_⟩
      rw [List.append_assoc, h.1.readOnto_encode, hread, located, List.reverse_cons,
        List.append_assoc, List.length_append, Nat.add_assoc]
      rfl

/-- An opcode without enough bytes after it is the last instruction. -/
theorem readOnto_cut {op : Opcode} (h : rest.length < operandLength constants op rest) {fuel : Nat}
    (hfuel : (op.toByte :: rest).length ≤ fuel) (read : List (Nat × Instruction)) :
    readOnto constants fuel read offset (op.toByte :: rest) = (offset, .truncated op) :: read := by
  obtain ⟨fuel, rfl⟩ := Nat.exists_eq_succ_of_ne_zero
    (show fuel ≠ 0 by rw [List.length_cons] at hfuel; omega)
  rw [readOnto, Opcode.ofByte?_toByte]
  dsimp only
  rw [readOperands_eq_none_iff.mpr h]

/-- Decoding ends for all code, and gives its instructions without a gap; written again, they are
the code, where only the flags of descriptors are made zero or one. Instructions that fit to the
constants are decoded from what they are written with, and so is an opcode after them that does not
have enough bytes. -/
theorem decode_encode :
    (∀ f : Function UInt8, Decoded f.constants f.code f.instructions ∧
      f.instructions.flatMap (written f.code) = clear (IsFlag f.instructions) f.code) ∧
    ∀ (f : Function UInt8) (instructions : List Instruction),
      ConsistentEach f.constants 0 instructions →
      (f.code = encodeEach instructions → f.instructions = located 0 instructions) ∧
      ∀ op rest, rest.length < operandLength f.constants op rest →
        f.code = encodeEach instructions ++ op.toByte :: rest →
        f.instructions =
          located 0 instructions ++ [((encodeEach instructions).length, .truncated op)] := by
  refine ⟨fun f => ?_, fun f instructions h => ⟨fun hcode => ?_, fun op rest hshort hcode => ?_⟩⟩
  · have hcovers := covers_instructions f
    have hwritten := hcovers.flatMap_written [] rfl
    simp only [List.nil_append, Nat.zero_add] at hwritten
    exact ⟨hcovers.decoded, hwritten⟩
  · rw [← List.append_nil (encodeEach instructions)] at hcode
    obtain ⟨fuel, -, hread⟩ := readOnto_encodeEach h [] (Nat.le_refl _) []
    rw [Function.instructions, hcode, hread]
    cases fuel <;> simp [readOnto]
  · obtain ⟨fuel, hfuel, hread⟩ :=
      readOnto_encodeEach h (op.toByte :: rest) (Nat.le_refl _) []
    rw [Function.instructions, hcode, hread, readOnto_cut hshort hfuel]
    simp

/-- A closure with a descriptor, a byte that is no opcode, and an opcode without its operand. -/
theorem decode_encode_of_cut_constant :
    let f : Function UInt8 :=
      ⟨none, 0, 0, [31, 0, 1, 3, 254, 0], [], [.function ⟨none, 0, 1, [], [], []⟩]⟩
    let instructions : List Instruction := [.closure 0 [(true, 3)], .unknown 254]
    ConsistentEach f.constants 0 instructions ∧
      ([] : Bytes).length < operandLength f.constants .constant [] ∧
      f.code = encodeEach instructions ++ [Opcode.constant.toByte] ∧
      f.instructions =
        [(0, .closure 0 [(true, 3)]), (4, .unknown 254), (5, .truncated .constant)] := by
  intro f instructions
  have hconsistent : ConsistentEach f.constants 0 instructions := ⟨rfl, rfl, trivial⟩
  have hshort : ([] : Bytes).length < operandLength f.constants .constant [] := by decide
  have hcode : f.code = encodeEach instructions ++ [Opcode.constant.toByte] := by decide
  exact ⟨hconsistent, hshort, hcode,
    (decode_encode.2 f instructions hconsistent).2 .constant [] hshort hcode⟩

end Instruction

end LoxCompiler
