import LoxCompiler.Proofs.Acceptance
import LoxCompiler.Proofs.Control.Program
import LoxCompiler.Proofs.Machine.Decode

/-! # The functions of an accepted source

A source that is accepted compiles to a function for each function of its program, in the same
order. What the instructions of such a function are is said by its plan.
-/

namespace LoxCompiler

section EraseLines

variable {β : Type}

mutual

/-- Source lines play no part in which functions there are. -/
theorem Function.family_eraseLines (f : Function β) :
    f.eraseLines.family = f.family.map Function.eraseLines := by
  obtain ⟨name, arity, upvalueCount, code, lines, constants⟩ := f
  rw [Function.eraseLines, Function.family, Function.family, List.map_cons,
    Constant.families_eraseLinesEach, Function.eraseLines]

theorem Constant.families_eraseLinesEach (values : List (Constant β)) :
    Constant.families (Constant.eraseLinesEach values) =
      (Constant.families values).map Function.eraseLines := by
  match values with
  | [] => rfl
  | .number _ :: values | .string _ :: values =>
      rw [Constant.eraseLinesEach, Constant.eraseLines, Constant.families, Constant.families,
        Constant.families_eraseLinesEach]
  | .function f :: values =>
      rw [Constant.eraseLinesEach, Constant.eraseLines, Constant.families, Constant.families,
        List.map_append, Function.family_eraseLines, Constant.families_eraseLinesEach]

end

end EraseLines

/-- A constant is a string. -/
def Constant.IsString {β : Type} (c : Constant β) : Prop := ∃ name, c = .string name

/-- A constant is a value that an instruction pushes. -/
def Constant.IsValue {β : Type} (c : Constant β) : Prop := c.IsString ∨ ∃ value, c = .number value

/-- A function of a program, and what it is compiled to. -/
structure FunctionBody.CompiledTo (b : FunctionBody) (g : Function UInt8) : Prop where
  proper : b.Proper
  fits : b.plan.Fits .byte
  erased : g.eraseLines = b.plan.assemble .byte b.env.level

namespace FunctionBody.CompiledTo

variable {b : FunctionBody} {g : Function UInt8}

theorem arity_eq (h : b.CompiledTo g) : g.arity = b.parameters.length := by
  have h := congrArg Function.arity h.erased
  cases g
  exact h

theorem upvalueCount_eq (h : b.CompiledTo g) : g.upvalueCount = b.plan.captures.length := by
  have h := congrArg Function.upvalueCount h.erased
  cases g
  exact h

theorem code_eq (h : b.CompiledTo g) :
    g.code = (cellsOf b.env.level b.plan.captures b.plan.code).map UInt8.ofNat := by
  have h := congrArg Function.code h.erased
  cases g
  exact h

theorem constants_eq (h : b.CompiledTo g) : g.constants.map Constant.eraseLines =
    b.plan.constants.map (Item.assemble .byte (b.env.level + 1)) := by
  have h := congrArg Function.constants h.erased
  cases g
  rw [← Constant.eraseLinesEach_eq, ← Item.assembleEach_eq]
  exact h

/-- The constants of a function are those of its plan. -/
theorem getElem?_constants (h : b.CompiledTo g) (i : Nat) :
    g.constants[i]?.map Constant.eraseLines =
      b.plan.constants[i]?.map (Item.assemble .byte (b.env.level + 1)) := by
  rw [← List.getElem?_map, h.constants_eq, List.getElem?_map]

theorem length_constants (h : b.CompiledTo g) : g.constants.length = b.plan.constants.length := by
  have h := congrArg List.length h.constants_eq
  rwa [List.length_map, List.length_map] at h

theorem string_of_item (h : b.CompiledTo g) {i : Nat} {name : Symbol}
    (hitem : b.plan.constants[i]? = some (.string name)) :
    g.constants[i]? = some (.string name) := by
  have hi := h.getElem?_constants i
  rw [hitem] at hi
  obtain ⟨c, hc, heq⟩ := Option.map_eq_some_iff.mp hi
  cases c <;> simp_all [Item.assemble, Constant.eraseLines]

theorem number_of_item (h : b.CompiledTo g) {i : Nat} {value : Binary64}
    (hitem : b.plan.constants[i]? = some (.number value)) :
    g.constants[i]? = some (.number value) := by
  have hi := h.getElem?_constants i
  rw [hitem] at hi
  obtain ⟨c, hc, heq⟩ := Option.map_eq_some_iff.mp hi
  cases c <;> simp_all [Item.assemble, Constant.eraseLines]

/-- What is pushed is a number or a string, and what is a name is a string. -/
theorem isString_of_item (h : b.CompiledTo g) {i : Nat} {item : Item}
    (hitem : b.plan.constants[i]? = some item) (hname : item.isName = true) :
    ∃ c, g.constants[i]? = some c ∧ c.IsString := by
  cases item with
  | string name => exact ⟨_, h.string_of_item hitem, name, rfl⟩
  | number value | function p => cases hname

theorem isValue_of_item (h : b.CompiledTo g) {i : Nat} {item : Item}
    (hitem : b.plan.constants[i]? = some item) (hvalue : item.isValue = true) :
    ∃ c, g.constants[i]? = some c ∧ c.IsValue := by
  cases item with
  | string name => exact ⟨_, h.string_of_item hitem, .inl ⟨name, rfl⟩⟩
  | number value => exact ⟨_, h.number_of_item hitem, .inr ⟨value, rfl⟩⟩
  | function p => cases hvalue

/-- A function constant is what a plan among the constants of the plan is assembled to. -/
theorem function_of_item (h : b.CompiledTo g) {i : Nat} {p : Plan}
    (hitem : b.plan.constants[i]? = some (.function p)) :
    ∃ f, g.constants[i]? = some (.function f) ∧
      f.eraseLines = p.assemble .byte (b.env.level + 1) := by
  have hi := h.getElem?_constants i
  rw [hitem] at hi
  obtain ⟨c, hc, heq⟩ := Option.map_eq_some_iff.mp hi
  cases c with
  | function f =>
      rw [Constant.eraseLines, Item.assemble, Constant.function.injEq] at heq
      exact ⟨f, hc, heq⟩
  | number value | string value =>
      rw [Constant.eraseLines, Item.assemble] at heq
      cases heq

theorem item_of_function (h : b.CompiledTo g) {i : Nat} {f : Function UInt8}
    (hf : g.constants[i]? = some (.function f)) :
    ∃ p : Plan, b.plan.constants[i]? = some (.function p) ∧
      f.eraseLines = p.assemble .byte (b.env.level + 1) := by
  have hi := h.getElem?_constants i
  rw [hf] at hi
  obtain ⟨item, hitem, heq⟩ := Option.map_eq_some_iff.mp hi.symm
  cases item with
  | function p =>
      rw [Constant.eraseLines, Item.assemble, Constant.function.injEq] at heq
      exact ⟨p, hitem, heq.symm⟩
  | number value | string value =>
      rw [Constant.eraseLines, Item.assemble] at heq
      cases heq

/-! ### The steps of the plan -/

theorem length_le (h : b.CompiledTo g) : b.plan.constants.length ≤ 256 := by
  have hlength := (Plan.fits_iff.mp h.fits).2.2.2.1
  simp only [Limits.byte, Limits.admits, decide_eq_true_eq] at hlength
  omega

/-- The index of a constant fits into its operand. -/
theorem toNat_index (h : b.CompiledTo g) {i : Nat} {item : Item}
    (hitem : b.plan.constants[i]? = some item) : (UInt8.ofNat i).toNat = i := by
  have hi := (List.getElem?_eq_some_iff.mp hitem).1
  have hlength := h.length_le
  rw [UInt8.toNat_ofNat']
  omega

theorem refers (_ : b.CompiledTo g) {s : Step} (hs : s ∈ b.plan.code) :
    s.Refers b.plan.constants := b.wellFormed.refers s hs

/-- The captured variables of a step are among those of the function. -/
theorem known (_ : b.CompiledTo g) {s : Step} (hs : s ∈ b.plan.code) :
    s.Known b.env.level b.plan.captures := by
  apply (b.wellFormed.known s hs).of_subset
  intro v hv
  exact mem_captureAll.mpr (mem_exported.mp hv)

theorem readable (h : b.CompiledTo g) {s : Step} (hs : s ∈ b.plan.code) :
    s.Readable g.constants := by
  have hrefers := h.refers hs
  have hfits := (Plan.fits_iff.mp h.fits).2.2.1 s hs
  cases s with
  | simple op => exact hrefers
  | byte op operand => exact hrefers.1
  | captured op v => rcases hrefers with rfl | rfl <;> rfl
  | constant op index | invoke op index arguments => exact hrefers.1
  | jump op distance =>
      simp only [Step.Fits, Limits.byte, Limits.admits, decide_eq_true_eq] at hfits
      exact ⟨hrefers, by omega⟩
  | pending op => exact hrefers
  | closure index vs =>
      obtain ⟨p, hp, rfl⟩ := hrefers
      obtain ⟨f, hf, heq⟩ := h.function_of_item hp
      rw [Step.Readable, Instruction.upvalueCount, h.toNat_index hp, hf]
      have hcount := congrArg Function.upvalueCount heq
      cases f
      cases p
      exact hcount

/-- A function decodes to the instructions of its plan. -/
theorem instructions_eq (h : b.CompiledTo g) :
    g.instructions = Step.decoded b.env.level b.plan.captures 0 b.plan.code := by
  have hlength : totalSize b.plan.code ≤ g.code.length := by
    rw [h.code_eq, List.length_map, length_cellsOf]
  have hread : Instruction.readOnto g.constants g.code.length [] 0
      ((cellsOf b.env.level b.plan.captures b.plan.code).map UInt8.ofNat) = _ :=
    Step.readOnto_cells (fun s hs => h.readable hs) hlength [] 0
  rw [← h.code_eq, List.append_nil] at hread
  rw [Function.instructions, hread, List.reverse_reverse]

end FunctionBody.CompiledTo

namespace Compilation

/-- An accepted source has a function for each function of its program, which is what the plan of
it assembles to. -/
theorem Accepts.assembled {β : Type} {w : Width β} {source : Bytes} {table : SymbolTable}
    {f : Function β} (h : Accepts w source table f) : ∃ ds, Spells source table ds ∧
      List.Forall₂ (fun (b : FunctionBody) (g : Function β) => b.Proper ∧ b.plan.Fits w.limits ∧
        g.eraseLines = b.plan.assemble w b.env.level)
          (Declaration.bodies (implicitNames table).1 ds) f.family := by
  obtain ⟨ds, hspells, hfits, herased⟩ := h.program
  refine ⟨ds, hspells, ?_⟩
  obtain ⟨ts, -, hspelled⟩ := hspells.spelled
  have hfamily := congrArg Function.family herased
  rw [Function.family_eraseLines, Plan.family_assemble, Declaration.family_plan, List.map_map] at hfamily
  have hall : List.Forall₂ (fun (b : FunctionBody) (g : Function β) =>
      g.eraseLines = b.plan.assemble w b.env.level)
        (Declaration.bodies (implicitNames table).1 ds) f.family := by
    have heq := List.forall₂_eq_eq_eq ▸ hfamily.symm
    rw [List.forall₂_map_left_iff, List.forall₂_map_right_iff] at heq
    exact heq.imp fun _ _ h => h.symm
  have heach : ∀ b ∈ Declaration.bodies (implicitNames table).1 ds,
      b.Proper ∧ b.plan.Fits w.limits := by
    intro b hb
    have hmem : (b.env.level, b.plan) ∈ (Declaration.plan (implicitNames table).1 ds).family 0 := by
      rw [Declaration.family_plan]
      exact List.mem_map_of_mem hb
    exact ⟨hspelled.proper_bodies _ b hb, Plan.fits_family hfits _ hmem⟩
  exact ((List.forall₂_and_left _ _).mpr ⟨heach, hall⟩).imp fun _ _ h => ⟨h.1.1, h.1.2, h.2⟩

/-- What an accepted source is compiled to: a function for each function of its program. -/
theorem Accepts.compiled {source : Bytes} {table : SymbolTable} {f : Function UInt8}
    (h : Accepts .byte source table f) : ∃ ds, Spells source table ds ∧
      List.Forall₂ FunctionBody.CompiledTo (Declaration.bodies (implicitNames table).1 ds) f.family := by
  obtain ⟨ds, hspells, hall⟩ := h.assembled
  exact ⟨ds, hspells, hall.imp fun _ _ h => ⟨h.1, h.2.1, h.2.2⟩⟩

theorem exists_compiledTo {β : Type} {CompiledTo : FunctionBody → Function β → Prop}
    {bs : List FunctionBody} {gs : List (Function β)} (h : List.Forall₂ CompiledTo bs gs)
    {g : Function β} (hg : g ∈ gs) : ∃ b ∈ bs, CompiledTo b g := by
  induction h with
  | nil => cases hg
  | @cons b g' bs gs hb hrest ih =>
      rcases List.mem_cons.mp hg with rfl | hg
      · exact ⟨b, List.mem_cons_self, hb⟩
      · obtain ⟨b', hb', hcompiled⟩ := ih hg
        exact ⟨b', List.mem_cons_of_mem _ hb', hcompiled⟩

/-- The script is what the code outside of all functions is compiled to. -/
theorem script_compiledTo {names : ImplicitNames} {ds : List Declaration} {f : Function UInt8}
    (h : List.Forall₂ FunctionBody.CompiledTo (Declaration.bodies names ds) f.family) :
    (Declaration.scriptBody names ds).CompiledTo f := by
  cases f
  rw [Function.family] at h
  exact (List.forall₂_cons.mp h).1

/-- The script that a source compiles to, if it has no problem. -/
def compiled? (source : Bytes) : Option (Function UInt8) :=
  (ofSource source .empty).toOption.bind fun c => c.result.toOption

theorem exists_of_compiled? {source : Bytes} (h : (compiled? source).isSome = true) :
    ∃ c f, ofSource source .empty = .ok c ∧ c.result = .ok f := by
  unfold compiled? at h
  cases hc : ofSource source .empty with
  | error fault =>
      rw [hc] at h
      cases h
  | ok c =>
      cases hf : c.result with
      | error diagnostics =>
          rw [hc] at h
          simp [Except.toOption, hf] at h
      | ok f => exact ⟨c, f, rfl, hf⟩

/-- The source `fun f(a) { fun g() { a or f; } }`, where the inner function captures a parameter. -/
def capturing : Bytes :=
  ascii ['f', 'u', 'n', ' ', 'f', '(', 'a', ')', '\x7b', 'f', 'u', 'n', ' ', 'g', '(', ')', '\x7b',
    'a', ' ', 'o', 'r', ' ', 'f', ';', '\x7d', '\x7d']

theorem compiles_capturing : ∃ c f, ofSource capturing .empty = .ok c ∧ c.result = .ok f :=
  exists_of_compiled? (by decide +kernel)

end Compilation

end LoxCompiler
