import LoxCompiler.Proofs.Machine.Verifier

/-! # Closures inside closures

A function runs inside the functions that it is nested in, each made a closure by an instruction
of the one around it. What such a function captures is found by its descriptors, which are followed
outwards until one of them names a local. So the functions of an accepted source find the variables
that their plans say.
-/

namespace LoxCompiler

/-- A function with the descriptors of its closure. -/
structure Link where
  function : Function UInt8
  descriptors : List (Bool × UInt8)

/-- The variable behind an index of a captured variable, in a function inside other ones, which are
listed innermost first. The level of a local is the number of functions around its own. -/
def Link.captured? : List Link → Nat → Option Variable
  | [], _ => none
  | link :: around, i =>
      match link.descriptors[i]? with
      | some (true, slot) => some ⟨around.length - 1, slot.toNat⟩
      | some (false, index) => Link.captured? around index.toNat
      | none => none

/-- The descriptors of a closure of a constant, if an instruction makes one. -/
def Instruction.descriptors? (k : Nat) : Instruction → Option (List (Bool × UInt8))
  | .closure function descriptors => if function.toNat = k then some descriptors else none
  | _ => none

/-- The descriptors of the closure that some instructions make of a constant. -/
def Instruction.descriptorsOf (is : List (Nat × Instruction)) (k : Nat) : List (Bool × UInt8) :=
  (is.findSome? fun e => e.2.descriptors? k).getD []

mutual

/-- A function and all functions nested in it, each inside of those around it, in the order of
the family. -/
def Function.chains (descriptors : List (Bool × UInt8)) (around : List Link) :
    Function UInt8 → List (List Link)
  | ⟨name, arity, upvalueCount, code, lines, constants⟩ =>
      let f : Function UInt8 := ⟨name, arity, upvalueCount, code, lines, constants⟩
      (⟨f, descriptors⟩ :: around) ::
        Constant.chains f.instructions (⟨f, descriptors⟩ :: around) 0 constants

/-- The functions among some constants from an index on, with all functions nested in them. -/
def Constant.chains (is : List (Nat × Instruction)) (around : List Link) :
    Nat → List (Constant UInt8) → List (List Link)
  | _, [] => []
  | k, .function f :: constants =>
      Function.chains (Instruction.descriptorsOf is k) around f ++
        Constant.chains is around (k + 1) constants
  | k, .number _ :: constants | k, .string _ :: constants =>
      Constant.chains is around (k + 1) constants

end

mutual

/-- The functions of the chains are those of the family. -/
theorem Function.map_chains (descriptors : List (Bool × UInt8)) (around : List Link)
    (f : Function UInt8) : (f.chains descriptors around).map (·.head?.map Link.function) =
      f.family.map some := by
  obtain ⟨name, arity, upvalueCount, code, lines, constants⟩ := f
  rw [Function.chains, Function.family, List.map_cons, List.map_cons, Constant.map_chains]
  rfl

theorem Constant.map_chains (is : List (Nat × Instruction)) (around : List Link) (k : Nat)
    (constants : List (Constant UInt8)) :
    (Constant.chains is around k constants).map (·.head?.map Link.function) =
      (Constant.families constants).map some := by
  match constants with
  | [] => rfl
  | .number _ :: constants | .string _ :: constants =>
      rw [Constant.chains, Constant.families, Constant.map_chains]
  | .function f :: constants =>
      rw [Constant.chains, Constant.families, List.map_append, List.map_append, Function.map_chains,
        Constant.map_chains]

end

theorem Function.chains_eq (descriptors : List (Bool × UInt8)) (around : List Link)
    (f : Function UInt8) : f.chains descriptors around = (⟨f, descriptors⟩ :: around) ::
      Constant.chains f.instructions (⟨f, descriptors⟩ :: around) 0 f.constants := by
  cases f
  rw [Function.chains]

/-- The captured variables of a function, each found behind its index. -/
def Link.Finds (chain : List Link) (captures : List Variable) : Prop :=
  ∀ i v, captures[i]? = some v → Link.captured? chain i = some v

/-! ## The closures of a compiled function -/

namespace FunctionBody.CompiledTo

variable {b : FunctionBody} {g : Function UInt8}

/-- The slots that instructions name fit into their operands. -/
theorem room_le (h : b.CompiledTo g) : max b.last.count (b.fragment 0).slots ≤ 256 := by
  obtain ⟨harity, -, -, -, hslots, -⟩ := Plan.fits_iff.mp h.fits
  simp only [Limits.byte, Limits.admits, decide_eq_true_eq] at harity hslots
  have hslots : (b.fragment 0).slots ≤ 256 := hslots
  have harity : b.parameters.length ≤ 255 := harity
  have hcovers := b.covers 0
  have hinside : b.env.count ≤ b.inside.count := b.env.count_declareEach b.parameters
  have hstarts := h.proper.starts
  omega

theorem captures_le (h : b.CompiledTo g) : b.plan.captures.length ≤ 256 := by
  have hcaptures := (Plan.fits_iff.mp h.fits).2.1
  simpa only [Limits.byte, Limits.admits, decide_eq_true_eq] using hcaptures

/-- The index of a captured variable fits into its operand. -/
theorem toNat_idxOf (h : b.CompiledTo g) {v : Variable} (hv : v ∈ b.plan.captures) :
    (UInt8.ofNat (b.plan.captures.idxOf v)).toNat = b.plan.captures.idxOf v := by
  have := h.captures_le
  have := List.idxOf_lt_length_of_mem hv
  rw [UInt8.toNat_ofNat']
  omega

/-- The descriptors of a closure say where the captured variables of its function are. -/
theorem descriptorsOf_eq (h : b.CompiledTo g) {k : Nat} {p : Plan}
    (hp : b.plan.constants[k]? = some (.function p)) :
    (∃ s ∈ b.plan.code, s = .closure k p.captures) ∧
      Instruction.descriptorsOf g.instructions k =
        p.captures.map (Step.upvalue b.env.level b.plan.captures) := by
  have hclosure {k' : Nat} {vs : List Variable} (hs : Step.closure k' vs ∈ b.plan.code)
      (hk : (UInt8.ofNat k').toNat = k) : k' = k ∧ vs = p.captures := by
    obtain ⟨q, hq, rfl⟩ := h.refers hs
    rw [h.toNat_index hq] at hk
    subst hk
    rw [hq] at hp
    cases hp
    exact ⟨rfl, rfl⟩
  have hmade : ∃ s ∈ b.plan.code, s = .closure k p.captures := by
    have hclosures : b.plan.code.filterMap Step.closure? =
      Item.functionIndices 0 b.plan.constants := b.wellFormed.closures
    have hk : k ∈ b.plan.code.filterMap Step.closure? := by
      rw [hclosures]
      exact Item.mem_functionIndices.mpr ⟨k, p, hp, (Nat.zero_add k).symm⟩
    obtain ⟨s, hs, hsk⟩ := List.mem_filterMap.mp hk
    cases s <;> cases hsk
    obtain ⟨-, rfl⟩ := hclosure hs (h.toNat_index hp)
    exact ⟨_, hs, rfl⟩
  refine ⟨hmade, ?_⟩
  obtain ⟨s, hs, rfl⟩ := hmade
  unfold Instruction.descriptorsOf
  cases hfound : g.instructions.findSome? fun e => e.2.descriptors? k with
  | none =>
      obtain ⟨o, ho⟩ : ∃ o, (o, (Step.closure k p.captures).instruction b.env.level b.plan.captures o) ∈
        Step.decoded b.env.level b.plan.captures 0 b.plan.code := Step.exists_mem_decoded hs
      rw [← h.instructions_eq] at ho
      have hnone := List.findSome?_eq_none_iff.mp hfound _ ho
      rw [Step.instruction, Instruction.descriptors?, if_pos (h.toNat_index hp)] at hnone
      cases hnone
  | some descriptors =>
      obtain ⟨⟨o, i⟩, hi, hdescriptors⟩ := List.exists_of_findSome?_eq_some hfound
      obtain ⟨s', hs', rfl⟩ := h.exists_step hi
      cases s' with
      | closure k' vs =>
          obtain ⟨hk, heq⟩ := Option.ite_none_right_eq_some.mp hdescriptors
          rw [(hclosure hs' hk).2] at heq
          exact (Option.some.inj heq).symm
      | simple op | byte op operand | captured op v | constant op index | invoke op index arguments
      | jump op distance | pending op => cases hdescriptors

/-- What a function captures is found behind its indices if this is so for the function around. -/
theorem finds (h : b.CompiledTo g) {around : List Link} (hlevel : around.length = b.env.level + 1)
    (hfinds : Link.Finds around b.plan.captures) {k : Nat} {p : Plan}
    (hp : b.plan.constants[k]? = some (.function p)) (f : Function UInt8) :
    Link.Finds (⟨f, Instruction.descriptorsOf g.instructions k⟩ :: around) p.captures := by
  obtain ⟨⟨_, hs, rfl⟩, hdescriptors⟩ := h.descriptorsOf_eq hp
  intro i v hv
  have hmem := List.mem_of_getElem? hv
  rw [Link.captured?, hdescriptors, List.getElem?_map, hv, Option.map_some, Step.upvalue]
  -- a local of the function around is named by its slot, and what is further out by its index there
  by_cases hvlevel : v.level = b.env.level
  · have hslot : v.slot < max b.last.count (b.fragment 0).slots :=
      b.wellFormed.names _ hs v hmem hvlevel
    have hroom := h.room_le
    rw [if_pos hvlevel]
    show some (⟨_, (UInt8.ofNat v.slot).toNat⟩ : Variable) = some v
    rw [hlevel, Nat.add_sub_cancel, ← hvlevel, UInt8.toNat_ofNat', Nat.mod_eq_of_lt (by omega)]
  · have hknown := (h.known hs v hmem).resolve_left hvlevel
    rw [if_neg hvlevel]
    show Link.captured? around (UInt8.ofNat _).toNat = some v
    rw [h.toNat_idxOf hknown]
    exact hfinds _ v (List.getElem?_idxOf hknown)

end FunctionBody.CompiledTo

/-! ## The closures of a program -/

/-- A plan with its level is that of a function of a program, within the limits. -/
def Plan.OfBody (p : Nat × Plan) : Prop :=
  ∃ b : FunctionBody, (b.env.level, b.plan) = p ∧ b.Proper ∧ b.plan.Fits .byte

/-- A function inside other ones is what a plan is assembled to, and finds what the plan captures. -/
def Plan.RunsIn (p : Nat × Plan) (chain : List Link) : Prop :=
  ∃ f descriptors around, chain = ⟨f, descriptors⟩ :: around ∧ around.length = p.1 ∧
    f.eraseLines = p.2.assemble .byte p.1 ∧ Link.Finds chain p.2.captures

mutual

/-- The functions nested in a function find what their plans capture. -/
theorem Function.runsIn_chains (f : Function UInt8) {level : Nat} {p : Plan}
    {descriptors : List (Bool × UInt8)} {around : List Link}
    (hbodies : ∀ q ∈ p.family level, Plan.OfBody q) (hf : f.eraseLines = p.assemble .byte level)
    (hlevel : around.length = level) (hfinds : Link.Finds (⟨f, descriptors⟩ :: around) p.captures) :
    List.Forall₂ Plan.RunsIn (p.family level) (f.chains descriptors around) := by
  rw [Plan.family_eq] at hbodies ⊢
  rw [Function.chains_eq]
  obtain ⟨⟨b, hb, hproper, hfits⟩, hbodies⟩ := List.forall_mem_cons.mp hbodies
  cases hb
  have hcompiled : b.CompiledTo f := ⟨hproper, hfits, hf⟩
  refine .cons ⟨f, descriptors, around, rfl, hlevel, hf, hfinds⟩ ?_
  -- closures are made by the instructions of `f`, so what its functions find is known from `f`
  obtain ⟨name, arity, upvalueCount, code, lines, constants⟩ := f
  apply Constant.runsIn_chains constants hbodies hcompiled.constants_eq
    (by rw [List.length_cons, hlevel])
  intro i q hq f
  rw [Nat.zero_add]
  exact hcompiled.finds (by rw [List.length_cons, hlevel]) hfinds hq f

theorem Constant.runsIn_chains (constants : List (Constant UInt8)) {level k : Nat}
    {items : List Item} {is : List (Nat × Instruction)} {around : List Link}
    (hbodies : ∀ q ∈ Item.families level items, Plan.OfBody q)
    (hconstants : constants.map Constant.eraseLines = items.map (Item.assemble .byte level))
    (hlevel : around.length = level)
    (hfinds : ∀ i q, items[i]? = some (.function q) → ∀ f,
      Link.Finds (⟨f, Instruction.descriptorsOf is (k + i)⟩ :: around) q.captures) :
    List.Forall₂ Plan.RunsIn (Item.families level items) (Constant.chains is around k constants) := by
  cases constants with
  | nil =>
      obtain rfl := List.map_eq_nil_iff.mp hconstants.symm
      exact .nil
  | cons c constants =>
      obtain ⟨item, items, rfl, hc, hrest⟩ := List.map_eq_cons_iff.mp hconstants.symm
      have hlater : ∀ i q, items[i]? = some (.function q) → ∀ f,
          Link.Finds (⟨f, Instruction.descriptorsOf is (k + 1 + i)⟩ :: around) q.captures := by
        intro i q hq f
        rw [Nat.add_assoc, Nat.add_comm 1]
        exact hfinds (i + 1) q hq f
      cases item with
      | number value | string value =>
          cases c <;> cases hc
          rw [Item.families] at hbodies ⊢
          exact Constant.runsIn_chains constants hbodies hrest.symm hlevel hlater
      | function p =>
          cases c with
          | number value | string value => cases hc
          | function f =>
              rw [Item.families] at hbodies ⊢
              rw [Constant.chains]
              obtain ⟨hfirst, hbodies⟩ := List.forall_mem_append.mp hbodies
              exact List.rel_append
                (Function.runsIn_chains f hfirst (Constant.function.inj hc).symm hlevel
                  (hfinds 0 p rfl f))
                (Constant.runsIn_chains constants hbodies hrest.symm hlevel hlater)

end

/-! ## Accepted sources -/

/-- A function of a program is compiled to the innermost one of some functions inside each other,
which finds what the plan captures. -/
def FunctionBody.LinkedIn (b : FunctionBody) (chain : List Link) : Prop :=
  ∃ link around, chain = link :: around ∧ around.length = b.env.level ∧
    b.CompiledTo link.function ∧ Link.Finds chain b.plan.captures

namespace Compilation

/-- The functions of an accepted source are inside of those that they are nested in. -/
theorem Accepts.linked {source : Bytes} {table : SymbolTable} {f : Function UInt8}
    (h : Accepts .byte source table f) : ∃ ds, Spells source table ds ∧
      List.Forall₂ FunctionBody.LinkedIn (Declaration.bodies (implicitNames table).1 ds)
        (f.chains [] []) := by
  obtain ⟨ds, hspells, hcompiled⟩ := h.compiled
  refine ⟨ds, hspells, ?_⟩
  let names := (implicitNames table).1
  have hbodies : ∀ b ∈ Declaration.bodies names ds, b.Proper ∧ b.plan.Fits .byte :=
    ((List.forall₂_and_left _ _).mp
      (hcompiled.imp fun _ _ h => ⟨⟨h.proper, h.fits⟩, trivial⟩ :
        List.Forall₂ (fun b _ => (b.Proper ∧ b.plan.Fits .byte) ∧ True) _ f.family)).1
  have hscript := script_compiledTo hcompiled
  have hchains : List.Forall₂ Plan.RunsIn ((Declaration.plan names ds).family 0)
      (f.chains [] []) := by
    refine Function.runsIn_chains f ?_ ?_ rfl ?_
    · rw [Declaration.family_plan, List.forall_mem_map]
      exact fun b hb => ⟨b, rfl, hbodies b hb⟩
    · rw [Declaration.plan_eq]
      exact hscript.erased
    · -- there is nothing around the script that it could capture
      rw [Declaration.plan_eq]
      intro i v hv
      exact (Nat.not_lt_zero _ (mem_captureAll.mp (List.mem_of_getElem? hv)).2).elim
  rw [Declaration.family_plan, List.forall₂_map_left_iff] at hchains
  refine ((List.forall₂_and_left _ _).mpr ⟨hbodies, hchains⟩).imp fun b chain h => ?_
  obtain ⟨⟨hproper, hfits⟩, g, descriptors, around, rfl, hlevel, herased, hfinds⟩ := h
  exact ⟨⟨g, descriptors⟩, around, rfl, hlevel, ⟨hproper, hfits, herased⟩, hfinds⟩

end Compilation

end LoxCompiler
