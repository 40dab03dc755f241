import LoxCompiler.Proofs.Blueprint.Occurrences
import LoxCompiler.Proofs.Machine.Closures

/-! # Resolution of variables

A name means the newest variable of that name whose scope it is in: a local of its function if there
is one, otherwise a local of the nearest function around that has one, and otherwise a global
variable. The instruction of every occurrence of a variable accesses just this variable: a local by
its slot, which is the number of locals before it, a local of a function around by an index that
leads to its slot through the closures, and a global variable by its name.
-/

namespace LoxCompiler

/-- Whether an instruction accesses a variable. -/
def Instruction.isAccess : Instruction → Bool
  | .byte op _ | .constant op _ => op.isAccess
  | .simple _ | .invoke _ _ _ | .jump _ _ _ | .closure _ _ | .unknown _ | .truncated _ => false

/-- An instruction of a function inside other ones accesses what a name means at some place, with
opcodes for locals, captured variables and global variables. -/
inductive Environment.Resolves (env : Environment) (name : Symbol) (f : Function UInt8)
    (chain : List Link) (ofSlot ofCaptured ofGlobal : Opcode) : Instruction → Prop
  /-- The newest local of that name, in the slot after the locals before it. -/
  | slot {newer older k} : env.locals = newer ++ name :: older → name ∉ newer →
      k.toNat = older.length → Resolves env name f chain ofSlot ofCaptured ofGlobal (.byte ofSlot k)
  /-- The newest local of that name in the nearest function around that has one. -/
  | captured {inner newer older outer k} : name ∉ env.locals →
      env.outer = inner ++ (newer ++ name :: older) :: outer → (∀ locals ∈ inner, name ∉ locals) →
      name ∉ newer → Link.captured? chain k.toNat = some ⟨outer.length, older.length⟩ →
      Resolves env name f chain ofSlot ofCaptured ofGlobal (.byte ofCaptured k)
  | global {k} : name ∉ env.locals → (∀ locals ∈ env.outer, name ∉ locals) →
      f.constants[k.toNat]? = some (.string name) →
      Resolves env name f chain ofSlot ofCaptured ofGlobal (.constant ofGlobal k)

/-- An instruction of a function inside other ones makes an access. The receiver of a function is
in its first slot. -/
def Occurrence.ResolvedBy (f : Function UInt8) (chain : List Link) :
    Occurrence → Instruction → Prop
  | .read env name => env.Resolves name f chain .getLocal .getUpvalue .getGlobal
  | .write env name => env.Resolves name f chain .setLocal .setUpvalue .setGlobal
  | .result => (· = .byte .getLocal 0)

/-- The instructions of a function inside other ones that access variables are those of the
occurrences of variables in it, one each and in the same order. -/
def FunctionBody.ResolvedIn (b : FunctionBody) (chain : List Link) : Prop :=
  ∃ f descriptors around, chain = ⟨f, descriptors⟩ :: around ∧ around.length = b.env.level ∧
    List.Forall₂ (Occurrence.ResolvedBy f chain) b.occurrences
      ((f.instructions.map Prod.snd).filter Instruction.isAccess)

/-! ## What names mean -/

theorem slot?_eq_none {name : Symbol} {locals : List Symbol} (h : slot? name locals = none) :
    name ∉ locals := by
  induction locals with
  | nil => exact List.not_mem_nil
  | cons x older ih =>
      unfold slot? at h
      split at h
      · cases h
      · rename_i hx
        exact List.not_mem_cons_of_ne_of_not_mem (Ne.symm hx) (ih h)

/-- The slot of a name is that of the newest local that has it. -/
theorem slot?_eq_some {name : Symbol} {locals : List Symbol} {slot : Nat}
    (h : slot? name locals = some slot) :
    ∃ newer older, locals = newer ++ name :: older ∧ name ∉ newer ∧ older.length = slot := by
  induction locals with
  | nil => cases h
  | cons x older ih =>
      unfold slot? at h
      split at h
      · rename_i hx
        exact ⟨[], older, by rw [hx, List.nil_append], List.not_mem_nil, Option.some.inj h⟩
      · rename_i hx
        obtain ⟨newer, older, rfl, hnewer, hslot⟩ := ih h
        exact ⟨x :: newer, older, rfl, List.not_mem_cons_of_ne_of_not_mem (Ne.symm hx) hnewer, hslot⟩

namespace Variable

theorem find?_eq_none {name : Symbol} {functions : List (List Symbol)}
    (h : find? name functions = none) : ∀ locals ∈ functions, name ∉ locals := by
  induction functions with
  | nil => exact fun _ h => (List.not_mem_nil h).elim
  | cons locals outer ih =>
      unfold find? at h
      split at h
      · cases h
      · rename_i hlocals
        exact List.forall_mem_cons.mpr ⟨slot?_eq_none hlocals, ih h⟩

/-- A captured variable is the newest local of its name in the nearest function that has one. -/
theorem find?_eq_some {name : Symbol} {functions : List (List Symbol)} {v : Variable}
    (h : find? name functions = some v) :
    ∃ inner newer older outer, functions = inner ++ (newer ++ name :: older) :: outer ∧
      (∀ locals ∈ inner, name ∉ locals) ∧ name ∉ newer ∧ v = ⟨outer.length, older.length⟩ := by
  induction functions with
  | nil => cases h
  | cons locals outer ih =>
      unfold find? at h
      split at h
      · rename_i slot hslot
        obtain ⟨newer, older, rfl, hnewer, rfl⟩ := slot?_eq_some hslot
        exact ⟨[], newer, older, outer, rfl, fun _ h => (List.not_mem_nil h).elim, hnewer,
          (Option.some.inj h).symm⟩
      · rename_i hlocals
        obtain ⟨inner, newer, older, outer, rfl, hinner, hnewer, hv⟩ := ih h
        exact ⟨locals :: inner, newer, older, outer, rfl,
          List.forall_mem_cons.mpr ⟨slot?_eq_none hlocals, hinner⟩, hnewer, hv⟩

end Variable

/-! ## Decoded accesses -/

namespace Step

variable {level : Nat} {captures : List Variable}

theorem isAccess_instruction (s : Step) (o : Nat) :
    (s.instruction level captures o).isAccess = s.isAccess := by
  cases s <;> rfl

/-- An access is the same instruction wherever it is. -/
theorem instruction_of_isAccess {s : Step} (h : s.isAccess = true) (o : Nat) :
    s.instruction level captures o = s.instruction level captures 0 := by
  cases s with
  | jump op distance | pending op => cases h
  | _ => rfl

theorem filter_decoded (o : Nat) (code : List Step) :
    ((decoded level captures o code).map Prod.snd).filter Instruction.isAccess =
      (code.filter isAccess).map fun s => s.instruction level captures 0 := by
  induction code generalizing o with
  | nil => rfl
  | cons s code ih =>
      rw [decoded, List.map_cons, List.filter_cons, isAccess_instruction, List.filter_cons, ih]
      split
      · rename_i hs
        rw [List.map_cons, instruction_of_isAccess hs]
      · rfl

end Step

/-! ## Compiled functions -/

namespace FunctionBody.CompiledTo

variable {b : FunctionBody} {f : Function UInt8} {chain : List Link}

/-- The step that accesses a place accesses what the name of the place means. -/
theorem resolves (h : b.CompiledTo f) (hfinds : Link.Finds chain b.plan.captures)
    {env : Environment} {name : Symbol} {n : Nat} {ofSlot ofCaptured ofGlobal : Opcode}
    (hslot : ∀ slot, Step.byte ofSlot slot ∈ b.plan.code → slot < 256)
    (hcode : (env.place name n).step ofSlot ofCaptured ofGlobal ∈ b.plan.code)
    (hnamed : (env.place name n).Named b.plan.constants name) :
    env.Resolves name f chain ofSlot ofCaptured ofGlobal
      (((env.place name n).step ofSlot ofCaptured ofGlobal).instruction b.env.level b.plan.captures
        0) := by
  -- the cases are those of the lookup: locals of the function itself, of those around, and globals
  unfold Environment.place at hcode hnamed ⊢
  cases hlocal : slot? name env.locals with
  | some slot =>
      rw [hlocal] at hcode
      obtain ⟨newer, older, hlocals, hnewer, rfl⟩ := slot?_eq_some hlocal
      refine .slot hlocals hnewer ?_
      rw [UInt8.toNat_ofNat', Nat.mod_eq_of_lt (hslot _ hcode)]
  | none =>
      rw [hlocal] at hcode hnamed
      have hlocals := slot?_eq_none hlocal
      cases houter : Variable.find? name env.outer with
      | some v =>
          rw [houter] at hcode
          obtain ⟨inner, newer, older, outer, hfunctions, hinner, hnewer, rfl⟩ :=
            Variable.find?_eq_some houter
          refine .captured hlocals hfunctions hinner hnewer ?_
          have hknown := h.known hcode
          rw [h.toNat_idxOf hknown]
          exact hfinds _ _ (List.getElem?_idxOf hknown)
      | none =>
          rw [houter] at hnamed
          refine .global hlocals (Variable.find?_eq_none houter) ?_
          rw [h.toNat_index hnamed]
          exact h.string_of_item hnamed

/-- The slot of a local fits into its operand. -/
theorem slot_lt (h : b.CompiledTo f) {op : Opcode} (hop : op = .getLocal ∨ op = .setLocal) (slot : Nat)
    (hs : Step.byte op slot ∈ b.plan.code) : slot < 256 := by
  have hnames : slot < max b.last.count (b.fragment 0).slots := by
    rcases hop with rfl | rfl <;> exact b.wellFormed.names _ hs
  exact Nat.lt_of_lt_of_le hnames h.room_le

/-- Every access to a variable is made by an instruction that accesses what its name means. -/
theorem resolvedBy (h : b.CompiledTo f) (hfinds : Link.Finds chain b.plan.captures) :
    List.Forall₂ (Occurrence.ResolvedBy f chain) b.occurrences
      ((f.instructions.map Prod.snd).filter Instruction.isAccess) := by
  have hmade := (List.forall₂_and_left _ _).mpr
    ⟨fun s hs => List.mem_of_mem_filter hs, List.Forall₂.flip (R := flip _) b.made_occurrences⟩
  rw [h.instructions_eq, Step.filter_decoded, List.forall₂_map_right_iff]
  refine (List.Forall₂.flip hmade).imp fun o s hos => ?_
  obtain ⟨hs, hmade⟩ := hos
  cases o with
  | read env name =>
      obtain ⟨n, rfl, hnamed⟩ := hmade
      exact h.resolves hfinds (h.slot_lt (.inl rfl)) hs hnamed
  | write env name =>
      obtain ⟨n, rfl, hnamed⟩ := hmade
      exact h.resolves hfinds (h.slot_lt (.inr rfl)) hs hnamed
  | result =>
      obtain rfl : s = .byte .getLocal 0 := hmade
      rfl

end FunctionBody.CompiledTo

namespace Compilation

/-- In every function of a source that compiles, each occurrence of a variable is an instruction
that accesses the variable that is meant there. -/
theorem resolved_family {source : Bytes} {table : SymbolTable} {c : Compilation UInt8}
    {f : Function UInt8} (hc : ofSource source table = .ok c) (hf : c.result = .ok f) :
    ∃ ds, Spells source table ds ∧
      List.Forall₂ FunctionBody.ResolvedIn (Declaration.bodies (implicitNames table).1 ds)
        (f.chains [] []) := by
  obtain ⟨ds, hspells, hlinked⟩ := Accepts.linked ⟨c, hc, hf⟩
  refine ⟨ds, hspells, hlinked.imp fun b chain h => ?_⟩
  obtain ⟨⟨g, descriptors⟩, around, rfl, hlevel, hcompiled, hfinds⟩ := h
  exact ⟨g, descriptors, around, rfl, hlevel, hcompiled.resolvedBy hfinds⟩

/-- The parameter of a function that another one inside it captures. -/
theorem resolved_of_captured_parameter : ∃ c f ds, ofSource capturing .empty = .ok c ∧
    c.result = .ok f ∧ Spells capturing .empty ds ∧
      List.Forall₂ FunctionBody.ResolvedIn (Declaration.bodies (implicitNames .empty).1 ds)
        (f.chains [] []) := by
  obtain ⟨c, f, hc, hf⟩ := compiles_capturing
  obtain ⟨ds, hspells, hresolved⟩ := resolved_family hc hf
  exact ⟨c, f, ds, hc, hf, hspells, hresolved⟩

end Compilation

end LoxCompiler
