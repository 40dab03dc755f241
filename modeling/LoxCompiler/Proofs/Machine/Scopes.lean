import LoxCompiler.Proofs.Control.Scopes
import LoxCompiler.Proofs.Invariant.Source
import LoxCompiler.Proofs.Machine.Captures

/-! # The ends of scopes

Where a scope ends, the code drops its locals, newest first. A local whose slot some closure captures
from its declaration on is closed, and each other one is popped. What a closure captures is mentioned
in its function, or in a function in it, however far in. While a source is compiled, the end of a
scope removes just the locals of this scope from the function under construction.
-/

namespace LoxCompiler

namespace Step

variable {level : Nat} {captures : List Variable}

theorem decoded_eq_map (o : Nat) (code : List Step) : decoded level captures o code =
    (labelled o code).map fun e => (e.1, e.2.instruction level captures e.1) := by
  induction code generalizing o with
  | nil => rfl
  | cons s code ih => rw [decoded, labelled, List.map_cons, ih]

end Step

/-- Between two offsets, an instruction of a function makes a closure with a descriptor for one of
its slots. -/
def Function.ClosesOver (g : Function UInt8) (slot start stop : Nat) : Prop :=
  ∃ o k descriptors n, (o, .closure k descriptors) ∈ g.instructions ∧ start ≤ o ∧ o < stop ∧
    (true, n) ∈ descriptors ∧ n.toNat = slot

/-- A function leaves a scope by one instruction for each local of the scope, newest first. -/
structure Scope.LeftBy (g : Function UInt8) (sc : Scope) : Prop where
  /-- A local is closed if its slot was captured since it was declared. -/
  closed : ∀ i name start, sc.locals[i]? = some (name, start) →
    g.ClosesOver (sc.base + i) start sc.stop →
      (sc.stop + (sc.locals.length - 1 - i), .simple .closeUpvalue) ∈ g.instructions
  popped : ∀ i name start, sc.locals[i]? = some (name, start) →
    ¬ g.ClosesOver (sc.base + i) start sc.stop →
      (sc.stop + (sc.locals.length - 1 - i), .simple .pop) ∈ g.instructions

namespace FunctionBody.CompiledTo

variable {b : FunctionBody} {g : Function UInt8}

theorem mem_instructions_iff (h : b.CompiledTo g) {o : Nat} {i : Instruction} :
    (o, i) ∈ g.instructions ↔ ∃ s, (o, s) ∈ Step.labelled 0 b.plan.code ∧
      i = s.instruction b.env.level b.plan.captures o := by
  rw [h.instructions_eq, Step.decoded_eq_map, List.mem_map]
  constructor
  · rintro ⟨⟨o, s⟩, hs, heq⟩
    cases heq
    exact ⟨s, hs, rfl⟩
  · rintro ⟨s, hs, rfl⟩
    exact ⟨(o, s), hs, rfl⟩

/-- The closures of a function name the slots that the closures of its plan capture. -/
theorem closesOver_iff (h : b.CompiledTo g) {slot start stop : Nat} :
    g.ClosesOver slot start stop ↔
      Step.ClosesBetween b.plan.code ⟨b.env.level, slot⟩ start stop := by
  constructor
  · rintro ⟨o, k, descriptors, n, hmem, hstart, hstop, hn, rfl⟩
    obtain ⟨s, hs, heq⟩ := h.mem_instructions_iff.mp hmem
    refine ⟨o, s, hs, hstart, hstop, ?_⟩
    have hnames := b.wellFormed.names s (Step.mem_of_mem_labelled hs)
    cases s with
    | closure index vs =>
        cases heq
        obtain ⟨v, hv, hdescriptor⟩ := List.mem_map.mp hn
        unfold Step.upvalue at hdescriptor
        split at hdescriptor
        · rename_i hlevel
          cases hdescriptor
          -- the slot fits into its cell, so the cell tells it
          have hslot : v.slot < 256 := Nat.lt_of_lt_of_le (hnames v hv hlevel) h.room_le
          rw [UInt8.toNat_ofNat', Nat.mod_eq_of_lt hslot, ← hlevel]
          exact hv
        · cases hdescriptor
    | simple op | byte op operand | captured op v | constant op index | invoke op index arguments
    | jump op distance | pending op => cases heq
  · rintro ⟨o, s, hs, hstart, hstop, hcloses⟩
    have hnames := b.wellFormed.names s (Step.mem_of_mem_labelled hs)
    cases s with
    | closure index vs =>
        refine ⟨o, _, _, .ofNat slot, h.mem_instructions_iff.mpr ⟨_, hs, rfl⟩, hstart, hstop,
          List.mem_map.mpr ⟨_, hcloses, if_pos rfl⟩, ?_⟩
        have hslot : slot < 256 := Nat.lt_of_lt_of_le (hnames _ hcloses rfl) h.room_le
        rw [UInt8.toNat_ofNat', Nat.mod_eq_of_lt hslot]
    | simple op | byte op operand | captured op v | constant op index | invoke op index arguments
    | jump op distance | pending op => exact hcloses.elim

/-- Every scope in a function is left as it should be. -/
theorem leftBy (h : b.CompiledTo g) : ∀ sc ∈ b.scopes, sc.LeftBy g := by
  intro sc hsc
  have hleft := b.leftIn_scopes sc hsc
  constructor
  · intro i name start hlocal hcloses
    exact h.mem_instructions_iff.mpr
      ⟨_, (hleft i name start hlocal).1 (h.closesOver_iff.mp hcloses), rfl⟩
  · intro i name start hlocal hcloses
    exact h.mem_instructions_iff.mpr
      ⟨_, (hleft i name start hlocal).2 fun hmem => hcloses (h.closesOver_iff.mpr hmem), rfl⟩

end FunctionBody.CompiledTo

/-! ## The locals of a function under construction -/

/-- A change ends the innermost scope of the innermost function: it removes the locals that belong
to this scope, and all that are left belong to the scopes around. -/
def Outline.Ends (o o' : Outline) : Prop :=
  o.scopeDepth = o'.scopeDepth + 1 ∧ ∃ dropped, o.locals = dropped ++ o'.locals ∧
    (∀ l ∈ dropped, l.2 = some o.scopeDepth) ∧ ∀ l ∈ o'.locals, ∃ d ≤ o'.scopeDepth, l.2 = some d

/-- What ends a scope removes the locals of this scope. -/
theorem Outline.Moves.leaves_scope {limits : Limits} {names : ImplicitNames} {o o' : Outline}
    {os : List Outline} (h : Moves limits names (o :: os) (o' :: os))
    (hsound : o.Sound limits names) (hlt : o'.scopeDepth < o.scopeDepth) : o.Ends o' := by
  generalize hbefore : o :: os = before at h
  generalize hafter : o' :: os = after at h
  cases h with
  | stay =>
      subst hbefore
      cases hafter
      exact (Nat.lt_irrefl _ hlt).elim
  | enter _ =>
      cases hbefore
      cases hafter
      exact (Nat.not_lt.mpr (Nat.le_succ _) hlt).elim
  | @leave _ _ depth hsettled hdepth =>
      cases hbefore
      cases hafter
      have hset := hsound.depth_ne_none hsettled
      refine ⟨hdepth, o.locals.takeWhile (within (depth + 1)), List.takeWhile_append_dropWhile.symm,
        fun l hl => ?_, fun l hl => ?_⟩
      · obtain ⟨d, hd⟩ := Option.ne_none_iff_exists'.mp
          (hset l (List.takeWhile_sublist _ |>.subset hl))
        have hinside := List.all_eq_true.mp List.all_takeWhile l hl
        simp only [within, hd, decide_eq_true_eq] at hinside
        have hle := hsound.bounded l (List.takeWhile_sublist _ |>.subset hl) d hd
        rw [hd, Nat.le_antisymm hle (hdepth ▸ hinside)]
      · obtain ⟨d, hd⟩ := Option.ne_none_iff_exists'.mp
          (hset l (List.dropWhile_sublist _ |>.subset hl))
        exact ⟨d, le_of_mem_dropWhile hsound.sorted l hl d hd, hd⟩
  | declare _ _ _ =>
      cases hbefore
      cases hafter
      exact (Nat.lt_irrefl _ hlt).elim
  | settle _ =>
      cases hbefore
      cases hafter
      exact (Nat.lt_irrefl _ hlt).elim
  | begin _ _ _ =>
      have hlength := congrArg List.length hafter
      rw [← hbefore] at hlength
      simp at hlength
  | finish =>
      have hlength := congrArg List.length hbefore
      rw [← hafter] at hlength
      simp at hlength

namespace Compilation

/-- While a source is compiled, what ends a scope of the innermost function removes the locals of
this scope. -/
theorem Changes.leaves_scope {source : Bytes} {table : SymbolTable} {s t : Session UInt8}
    (h : Changes .byte source table s t) {o o' : Outline} {os : List Outline}
    (hs : s.outlines = o :: os) (ht : t.outlines = o' :: os) (hlt : o'.scopeDepth < o.scopeDepth) :
    o.Ends o' := by
  rcases h.proper rfl with ⟨-, hempty⟩ | ⟨-, hsound, -, hmoves⟩
  · rw [Session.outlines, hempty] at ht
    cases ht
  · have hsound := hsound.outlines
    rw [show s.frames.map Frame.outline = o :: os from hs] at hmoves hsound
    rw [show t.frames.map Frame.outline = o' :: os from ht] at hmoves
    exact hmoves.leaves_scope hsound.head hlt

/-- In every function of a source that compiles, each scope ends with one instruction for each of
its locals, newest first, which closes what was captured since its declaration and pops the rest. A
closure captures what is mentioned inside of it. While the source is compiled, the end of a scope
removes just the locals of this scope. -/
theorem left_family {source : Bytes} {table : SymbolTable} {c : Compilation UInt8}
    {f : Function UInt8} (hc : ofSource source table = .ok c) (hf : c.result = .ok f) :
    (∃ ds, Spells source table ds ∧
      List.Forall₂ (fun b chain => b.CapturesIn chain ∧
          ∀ link ∈ chain.head?, ∀ sc ∈ b.scopes, sc.LeftBy link.function)
        (Declaration.bodies (implicitNames table).1 ds) (f.chains [] [])) ∧
    ∀ s t o o' os, Changes .byte source table s t → s.outlines = o :: os → t.outlines = o' :: os →
      o'.scopeDepth < o.scopeDepth → o.Ends o' := by
  obtain ⟨ds, hspells, hall⟩ := Accepts.captures ⟨c, hc, hf⟩
  refine ⟨⟨ds, hspells, hall.imp fun b chain h => ⟨h.2, ?_⟩⟩,
    fun s t o o' os h hs ht hlt => h.leaves_scope hs ht hlt⟩
  obtain ⟨⟨link, around, rfl, -, hcompiled, -⟩, -⟩ := h
  intro link' hlink
  cases hlink
  exact hcompiled.leftBy

/-- The source `{var a;{fun f(){fun g(){a=a;}}}var b;}`, where a function two levels further in
captures the first local of a scope, and another scope inside this one uses the next slot before the
second local does. -/
def closing : Bytes :=
  ascii ['\x7b', 'v', 'a', 'r', ' ', 'a', ';', '\x7b', 'f', 'u', 'n', ' ', 'f', '(', ')', '\x7b',
    'f', 'u', 'n', ' ', 'g', '(', ')', '\x7b', 'a', '=', 'a', ';', '\x7d', '\x7d', '\x7d', 'v', 'a',
    'r', ' ', 'b', ';', '\x7d']

/-- The two scopes of a block and of a block in it. -/
theorem left_of_nested_blocks : ∃ c f, ofSource closing .empty = .ok c ∧ c.result = .ok f ∧
    (∃ ds, Spells closing .empty ds ∧
      List.Forall₂ (fun b chain => b.CapturesIn chain ∧
          ∀ link ∈ chain.head?, ∀ sc ∈ b.scopes, sc.LeftBy link.function)
        (Declaration.bodies (implicitNames .empty).1 ds) (f.chains [] [])) ∧
    ∀ s t o o' os, Changes .byte closing .empty s t → s.outlines = o :: os →
      t.outlines = o' :: os → o'.scopeDepth < o.scopeDepth → o.Ends o' := by
  have hcompiled : (compiled? closing).isSome = true := by decide +kernel
  obtain ⟨c, f, hc, hf⟩ := exists_of_compiled? hcompiled
  exact ⟨c, f, hc, hf, left_family hc hf⟩

end Compilation

end LoxCompiler
