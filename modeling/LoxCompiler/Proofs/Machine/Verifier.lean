import LoxCompiler.Proofs.Machine.Compiled
import LoxCompiler.Proofs.Machine.Jumps

/-! # Verified code

What a verifier checks of a function before its code is run: the code decodes to whole instructions
and ends with a return, operands refer to constants and captured variables that are there, and
jumps lead to instructions. Every function that a source compiles to passes, since the instructions
are those of a well-formed plan.
-/

namespace LoxCompiler

namespace Instruction

/-- Instructions stand one after the other, from an offset to another one. -/
def Tiles : Nat → List (Nat × Instruction) → Nat → Prop
  | o, [], stop => o = stop
  | o, (start, i) :: rest, stop => start = o ∧ Tiles (o + i.size) rest stop

/-- The constant that an instruction refers to. -/
def reference? : Instruction → Option Nat
  | .constant _ index => some index.toNat
  | .invoke _ name _ => some name.toNat
  | .closure function _ => some function.toNat
  | _ => none

/-- The constant of the function that an instruction makes a closure of. -/
def closure? : Instruction → Option Nat
  | .closure function _ => some function.toNat
  | _ => none

end Instruction

/-- What a verifier checks of the code of a function. -/
structure Function.Verified (f : Function UInt8) : Prop where
  /-- There is nothing in the code but whole instructions. -/
  whole : ∀ o i, (o, i) ∈ f.instructions → (∀ b, i ≠ .unknown b) ∧ ∀ op, i ≠ .truncated op
  covers : Instruction.Tiles 0 f.instructions f.code.length
  returns : ∃ o, f.instructions.getLast? = some (o, .simple .ret)
  /-- The constants that are pushed are values, and all other ones are names. -/
  constants : ∀ o op index, (o, .constant op index) ∈ f.instructions →
    ∃ c, f.constants[index.toNat]? = some c ∧
      if op = .constant then c.IsValue else c.IsString
  methods : ∀ o op name arguments, (o, .invoke op name arguments) ∈ f.instructions →
    ∃ c, f.constants[name.toNat]? = some c ∧ c.IsString
  /-- A closure has a descriptor for each variable that its function captures. -/
  closures : ∀ o index descriptors, (o, .closure index descriptors) ∈ f.instructions →
    ∃ g, f.constants[index.toNat]? = some (.function g) ∧ descriptors.length = g.upvalueCount
  /-- Every constant is there for some instruction. -/
  referenced : ∀ k < f.constants.length, ∃ e ∈ f.instructions, e.2.reference? = some k
  /-- Every function is there for one closure. -/
  once : ∀ k g, f.constants[k]? = some (.function g) →
    (f.instructions.filterMap fun e => e.2.closure?).count k = 1
  /-- Captured variables are among those of the function. -/
  upvalues : ∀ o op index, (o, .byte op index) ∈ f.instructions →
    op = .getUpvalue ∨ op = .setUpvalue → index.toNat < f.upvalueCount
  captured : ∀ o index descriptors, (o, .closure index descriptors) ∈ f.instructions →
    ∀ k, (false, k) ∈ descriptors → k.toNat < f.upvalueCount
  /-- Jumps ahead lead to an instruction after them. -/
  ahead : ∀ o op distance target, (o, .jump op distance target) ∈ f.instructions → op ≠ .loop →
    o < target ∧ ∃ i, (target, i) ∈ f.instructions
  /-- Jumps back lead to an instruction before them, or to themselves. -/
  back : ∀ o distance target, (o, .jump .loop distance target) ∈ f.instructions →
    target ≤ o ∧ ∃ i, (target, i) ∈ f.instructions

/-! ## Decoded steps -/

namespace Step

variable {level : Nat} {captures : List Variable}

theorem tiles_decoded (o : Nat) (code : List Step) :
    Instruction.Tiles o (decoded level captures o code) (o + totalSize code) := by
  induction code generalizing o with
  | nil => rfl
  | cons s code ih =>
      refine ⟨rfl, ?_⟩
      rw [size_instruction, totalSize_cons, ← Nat.add_assoc]
      exact ih (o + s.size)

/-- The step of a decoded instruction. -/
theorem exists_of_mem_decoded {o o' : Nat} {code : List Step} {i : Instruction}
    (h : (o', i) ∈ decoded level captures o code) :
    ∃ s ∈ code, i = s.instruction level captures o' := by
  obtain ⟨before, s, after, rfl, heq⟩ := mem_decoded.mp h
  cases heq
  exact ⟨s, List.mem_append_right _ List.mem_cons_self, rfl⟩

/-- The instruction of a step. -/
theorem exists_mem_decoded {o : Nat} {code : List Step} {s : Step} (h : s ∈ code) :
    ∃ o', (o', s.instruction level captures o') ∈ decoded level captures o code := by
  obtain ⟨before, after, rfl⟩ := List.append_of_mem h
  exact ⟨_, mem_decoded.mpr ⟨before, s, after, rfl, rfl⟩⟩

/-- Where decoded instructions start, if more follow. -/
theorem boundaries_decoded (o : Nat) (code : List Step) {more : List Step} (hmore : more ≠ []) :
    Boundaries (fun target => ∃ i, (target, i) ∈ decoded level captures o (code ++ more)) o code := by
  induction code generalizing o with
  | nil =>
      obtain ⟨s, rest, rfl⟩ := List.exists_cons_of_ne_nil hmore
      exact ⟨_, List.mem_cons_self⟩
  | cons s code ih =>
      refine ⟨⟨_, List.mem_cons_self⟩, (ih (o + s.size)).mono ?_⟩
      rintro target ⟨i, hi⟩
      exact ⟨i, List.mem_cons_of_mem _ hi⟩

theorem reference?_instruction (s : Step) (o : Nat) :
    (s.instruction level captures o).reference? =
      s.reference?.map fun i => (UInt8.ofNat i).toNat := by
  cases s <;> rfl

theorem closure?_instruction (s : Step) (o : Nat) :
    (s.instruction level captures o).closure? = s.closure?.map fun i => (UInt8.ofNat i).toNat := by
  cases s <;> rfl

theorem filterMap_closure?_decoded (o : Nat) (code : List Step) :
    (decoded level captures o code).filterMap (fun e => e.2.closure?) =
      (code.filterMap closure?).map fun i => (UInt8.ofNat i).toNat := by
  induction code generalizing o with
  | nil => rfl
  | cons s code ih =>
      rw [decoded, List.filterMap_cons, List.filterMap_cons, closure?_instruction, ih]
      cases s.closure? <;> rfl

theorem toNat_idxOf_lt {v : Variable} (h : v ∈ captures) :
    (UInt8.ofNat (captures.idxOf v)).toNat < captures.length := by
  rw [UInt8.toNat_ofNat']
  exact Nat.lt_of_le_of_lt (Nat.mod_le _ _) (List.idxOf_lt_length_of_mem h)

end Step

theorem JumpsLand.of_mem {P : Nat → Prop} {o : Nat} {before after : List Step} {s : Step}
    (h : JumpsLand P o (before ++ s :: after)) : s.Lands P (o + totalSize before) :=
  (jumpsLand_append.mp h).2.1

/-! ## Compiled functions -/

namespace FunctionBody.CompiledTo

variable {b : FunctionBody} {g : Function UInt8}

/-- The instructions of a function are those of the steps of its plan. -/
theorem exists_step (h : b.CompiledTo g) {o : Nat} {i : Instruction} (hi : (o, i) ∈ g.instructions) :
    ∃ s ∈ b.plan.code, i = s.instruction b.env.level b.plan.captures o := by
  rw [h.instructions_eq] at hi
  exact Step.exists_of_mem_decoded hi

theorem jumpsLand (h : b.CompiledTo g) :
    JumpsLand (fun target => ∃ i, (target, i) ∈ g.instructions) 0 b.plan.code := by
  obtain ⟨-, hcode⟩ := h.proper.laidOut
  have hreturn : b.env.kind.returnSteps ≠ [] := by
    cases b.env.kind <;> exact List.cons_ne_nil _ _
  have hbody : Boundaries (fun target => ∃ i, (target, i) ∈ Step.decoded b.env.level
      b.plan.captures 0 (b.flow.flat ++ b.env.kind.returnSteps)) 0 b.flow.flat :=
    Step.boundaries_decoded 0 b.flow.flat hreturn
  rw [← hcode, ← h.instructions_eq] at hbody
  rw [hcode]
  refine jumpsLand_append.mpr ⟨Flow.jumpsLand hbody, ?_⟩
  cases b.env.kind <;> exact ⟨trivial, trivial, trivial⟩

/-- The jumps of a function lead to offsets of which something holds if those of its plan do. -/
theorem exists_lands (h : b.CompiledTo g) {P : Nat → Prop} (hjumps : JumpsLand P 0 b.plan.code)
    {o : Nat} {i : Instruction} (hi : (o, i) ∈ g.instructions) :
    ∃ s ∈ b.plan.code, i = s.instruction b.env.level b.plan.captures o ∧ s.Lands P o := by
  rw [h.instructions_eq] at hi
  obtain ⟨before, s, after, hcode, heq⟩ := Step.mem_decoded.mp hi
  cases heq
  rw [hcode] at hjumps
  exact ⟨s, hcode ▸ List.mem_append_right _ List.mem_cons_self, rfl, hjumps.of_mem⟩

/-- What a function of a program is compiled to passes the verifier. -/
theorem verified (h : b.CompiledTo g) : g.Verified where
  whole o i hi := by
    obtain ⟨s, hs, rfl⟩ := h.exists_step hi
    have hrefers := h.refers hs
    cases s <;> exact ⟨nofun, nofun⟩
  covers := by
    rw [h.instructions_eq, h.code_eq, List.length_map, length_cellsOf, ← Nat.zero_add (totalSize _)]
    exact Step.tiles_decoded 0 b.plan.code
  returns := by
    obtain ⟨-, hcode⟩ := h.proper.laidOut
    rw [h.instructions_eq, hcode, Step.decoded_append, List.getLast?_append]
    cases b.env.kind <;> exact ⟨_, rfl⟩
  constants o op index hi := by
    obtain ⟨s, hs, heq⟩ := h.exists_step hi
    have hrefers := h.refers hs
    cases s <;> cases heq
    obtain ⟨-, item, hitem, hkind⟩ := hrefers
    rw [h.toNat_index hitem]
    by_cases hop : op = .constant
    · simp only [if_pos hop] at hkind ⊢
      exact h.isValue_of_item hitem hkind
    · simp only [if_neg hop] at hkind ⊢
      exact h.isString_of_item hitem hkind
  methods o op name arguments hi := by
    obtain ⟨s, hs, heq⟩ := h.exists_step hi
    have hrefers := h.refers hs
    cases s <;> cases heq
    obtain ⟨-, item, hitem, hname⟩ := hrefers
    rw [h.toNat_index hitem]
    exact h.isString_of_item hitem hname
  closures o index descriptors hi := by
    obtain ⟨s, hs, heq⟩ := h.exists_step hi
    have hrefers := h.refers hs
    have hreadable := h.readable hs
    cases s <;> cases heq
    obtain ⟨p, hp, -⟩ := hrefers
    obtain ⟨f, hf, -⟩ := h.function_of_item hp
    rw [h.toNat_index hp]
    refine ⟨f, hf, ?_⟩
    rw [Step.Readable, Instruction.upvalueCount, h.toNat_index hp, hf] at hreadable
    rw [List.length_map]
    exact hreadable.symm
  referenced k hk := by
    rw [h.length_constants] at hk
    have hused := b.wellFormed.used k (Nat.zero_le _) (by rwa [List.length_nil, Nat.zero_add])
    obtain ⟨s, hs, href⟩ := List.mem_filterMap.mp hused
    obtain ⟨o, ho⟩ : ∃ o, (o, s.instruction b.env.level b.plan.captures o) ∈
      Step.decoded b.env.level b.plan.captures 0 b.plan.code := Step.exists_mem_decoded hs
    refine ⟨_, h.instructions_eq ▸ ho, ?_⟩
    rw [Step.reference?_instruction, href, Option.map_some,
      h.toNat_index (List.getElem?_eq_getElem hk)]
  once k f hf := by
    obtain ⟨p, hp, -⟩ := h.item_of_function hf
    have hclosures : b.plan.code.filterMap Step.closure? =
      Item.functionIndices 0 b.plan.constants := b.wellFormed.closures
    -- all indices fit into an operand, so decoding does not confuse two of them
    have hsame : (Item.functionIndices 0 b.plan.constants).map (fun i => (UInt8.ofNat i).toNat) =
        Item.functionIndices 0 b.plan.constants := by
      apply (List.map_congr_left (g := id) fun i hi => ?_).trans (List.map_id _)
      obtain ⟨j, q, hq, rfl⟩ := Item.mem_functionIndices.mp hi
      rw [Nat.zero_add]
      exact h.toNat_index hq
    rw [h.instructions_eq, Step.filterMap_closure?_decoded, hclosures, hsame]
    apply List.count_eq_one_of_mem (Item.nodup_functionIndices _ _)
    exact Item.mem_functionIndices.mpr ⟨k, p, hp, (Nat.zero_add k).symm⟩
  upvalues o op index hi hop := by
    obtain ⟨s, hs, heq⟩ := h.exists_step hi
    have hrefers := h.refers hs
    have hknown := h.known hs
    rw [h.upvalueCount_eq]
    cases s <;> cases heq
    · rcases hop with rfl | rfl
      · exact (hrefers.2.1 rfl).elim
      · exact (hrefers.2.2 rfl).elim
    · exact Step.toNat_idxOf_lt hknown
  captured o index descriptors hi k hk := by
    obtain ⟨s, hs, heq⟩ := h.exists_step hi
    have hknown := h.known hs
    rw [h.upvalueCount_eq]
    cases s <;> cases heq
    obtain ⟨v, hv, heq⟩ := List.mem_map.mp hk
    unfold Step.upvalue at heq
    split at heq
    · cases heq
    · cases heq
      exact Step.toNat_idxOf_lt ((hknown v hv).resolve_left ‹_›)
  ahead o op distance target hi hop := by
    obtain ⟨s, hs, heq, hlands⟩ := h.exists_lands h.jumpsLand hi
    have hrefers := h.refers hs
    cases s <;> cases heq
    · rw [Step.Lands, if_neg hop] at hlands
      rw [Instruction.jumpTarget, if_neg hop]
      exact ⟨by omega, hlands⟩
    · exact hrefers.elim
  back o distance target hi := by
    obtain ⟨s, hs, heq, hlands⟩ := h.exists_lands h.jumpsLand hi
    have hrefers := h.refers hs
    cases s <;> cases heq
    · rw [Step.Lands, if_pos rfl] at hlands
      obtain ⟨target, heq, hle, htarget⟩ := hlands
      rw [Instruction.jumpTarget, if_pos rfl, ← heq, Nat.add_sub_cancel]
      exact ⟨hle, htarget⟩
    · exact hrefers.elim

end FunctionBody.CompiledTo

namespace Compilation

/-- Every function of a source that compiles passes the verifier. The script captures nothing. -/
theorem verified_family {source : Bytes} {table : SymbolTable} {c : Compilation UInt8} {f : Function UInt8}
    (hc : ofSource source table = .ok c) (hf : c.result = .ok f) :
    (∀ g ∈ f.family, g.Verified) ∧ f.upvalueCount = 0 := by
  obtain ⟨ds, -, hcompiled⟩ := Accepts.compiled ⟨c, hc, hf⟩
  constructor
  · intro g hg
    obtain ⟨b, -, hb⟩ := exists_compiledTo hcompiled hg
    exact hb.verified
  · have hscript := script_compiledTo hcompiled
    rw [hscript.upvalueCount_eq, List.length_eq_zero_iff, List.eq_nil_iff_forall_not_mem]
    exact fun v hv => Nat.not_lt_zero _ (mem_captureAll.mp hv).2

/-- A function that captures a parameter passes with the function around it and the script. -/
theorem verified_of_captured_parameter : ∃ c f, ofSource capturing .empty = .ok c ∧
    c.result = .ok f ∧ (∀ g ∈ f.family, g.Verified) ∧ f.upvalueCount = 0 := by
  obtain ⟨c, f, hc, hf⟩ := compiles_capturing
  exact ⟨c, f, hc, hf, verified_family hc hf⟩

end Compilation

end LoxCompiler
