import LoxCompiler.Proofs.Control.Receivers
import LoxCompiler.Proofs.Machine.Classes
import LoxCompiler.Proofs.Machine.Returns

/-! # The receiver in the first slot

The first slot of a method holds its receiver, and nothing changes it: neither the function itself
nor a closure that captures it. An initializer returns what is in this slot. The first slot of other
functions and of the script is never read, and no closure captures it.
-/

namespace LoxCompiler

/-- The innermost of some functions inside each other leaves the receiver of its method as it is. -/
structure Member.KeepsReceiver (names : ImplicitNames) (m : Member) (link : Link)
    (around : List Link) : Prop where
  /-- A method with the name for initializers returns its receiver. -/
  returns : m.owner.isSome = true → link.function.name = some names.init →
    link.function.ReturnsReceiver
  /-- Its own first slot is not written. -/
  kept : ∀ o k, (o, .byte .setLocal k) ∈ link.function.instructions → k ≠ 0
  /-- No first slot of a function around is written. -/
  keptOutside : ∀ o k, (o, .byte .setUpvalue k) ∈ link.function.instructions →
    ∃ v, Link.captured? (link :: around) k.toNat = some v ∧ v.slot ≠ 0
  /-- A function that is no method does not read its first slot. -/
  unread : m.owner = none → ∀ o, (o, .byte .getLocal 0) ∉ link.function.instructions
  uncaptured : m.owner = none → ∀ o k descriptors,
    (o, .closure k descriptors) ∈ link.function.instructions → (true, 0) ∉ descriptors

/-! ## Accesses to the first slot -/

theorem Occurrence.exists_resolvedBy {os : List Occurrence} {is : List Instruction}
    {f : Function UInt8} {chain : List Link} (h : List.Forall₂ (ResolvedBy f chain) os is)
    {i : Instruction} (hi : i ∈ is) : ∃ o ∈ os, o.ResolvedBy f chain i := by
  induction h with
  | nil => cases hi
  | @cons o _ os _ ho _ ih =>
      rcases List.mem_cons.mp hi with rfl | hi
      · exact ⟨o, List.mem_cons_self, ho⟩
      · obtain ⟨o', hmem, ho'⟩ := ih hi
        exact ⟨o', List.mem_cons_of_mem _ hmem, ho'⟩

namespace Environment.Headed

variable {names : ImplicitNames} {env : Environment} {x : Symbol} {f : Function UInt8}
  {chain : List Link} {ofSlot ofCaptured ofGlobal : Opcode} {i : Instruction}

/-- Only the name of the receiver means the first slot. -/
theorem eq_of_first (h : env.Headed names) (hi : env.Resolves x f chain ofSlot ofCaptured ofGlobal i)
    (hops : ofSlot ≠ ofCaptured) (heq : i = .byte ofSlot 0) : x = env.receiverOf env.kind := by
  cases hi with
  | @slot newer older k hlocals hnewer hk =>
      cases heq
      obtain rfl : older = [] := List.length_eq_zero_iff.mp hk.symm
      exact h.eq_receiver hlocals
  | captured _ _ _ _ _ => cases heq; exact (hops rfl).elim
  | global _ _ _ => cases heq

/-- A name that is no receiver's means no first slot of a function around. -/
theorem slot_ne_zero (h : env.Headed names) (hx : x ≠ names.this ∧ x ≠ .anonymous)
    (hi : env.Resolves x f chain ofSlot ofCaptured ofGlobal i) (hops : ofSlot ≠ ofCaptured)
    {k : UInt8} (heq : i = .byte ofCaptured k) :
    ∃ v, Link.captured? chain k.toNat = some v ∧ v.slot ≠ 0 := by
  cases hi with
  | slot _ _ _ => cases heq; exact (hops rfl).elim
  | @captured inner newer older outer k' hlocals houter hinner hnewer hk =>
      cases heq
      refine ⟨_, hk, fun hzero => ?_⟩
      obtain rfl : older = [] := List.length_eq_zero_iff.mp hzero
      have hmem : newer ++ [x] ∈ env.outer := houter ▸ List.mem_append_right _ List.mem_cons_self
      exact (h.eq_receiver_outer hmem rfl).elim hx.1 hx.2
  | global _ _ _ => cases heq

end Environment.Headed

namespace FunctionBody.LinkedIn

variable {names : ImplicitNames} {b : FunctionBody} {link : Link} {around : List Link}

theorem compiledTo (h : b.LinkedIn (link :: around)) : b.CompiledTo link.function := by
  obtain ⟨_, _, heq, -, hcompiled, -⟩ := h
  cases heq
  exact hcompiled

/-- Every access is one that the function makes. -/
theorem exists_occurrence (h : b.LinkedIn (link :: around)) (hb : b.Standing names)
    (hd : names.Distinct) {o : Nat} {i : Instruction} (hi : (o, i) ∈ link.function.instructions)
    (haccess : i.isAccess = true) :
    ∃ a : Occurrence, a.Nameable names b.env.kind ∧
      a.ResolvedBy link.function (link :: around) i := by
  obtain ⟨_, _, heq, -, hcompiled, hfinds⟩ := h
  cases heq
  obtain ⟨a, ha, hresolved⟩ := Occurrence.exists_resolvedBy (hcompiled.resolvedBy hfinds)
    (List.mem_filter.mpr ⟨List.mem_map_of_mem (f := Prod.snd) hi, haccess⟩)
  exact ⟨a, (hb.named hd).occurrences a ha, hresolved⟩

theorem kept (h : b.LinkedIn (link :: around)) (hb : b.Standing names) (hd : names.Distinct) {o : Nat}
    {k : UInt8} (hi : (o, .byte .setLocal k) ∈ link.function.instructions) : k ≠ 0 := by
  rintro rfl
  obtain ⟨a, hname, hresolved⟩ := h.exists_occurrence hb hd hi rfl
  cases a with
  | read env x => cases hresolved
  | write env x =>
      have hx := hname.1.eq_of_first hresolved (by decide) rfl
      rcases hname.1.receiverOf_eq env.kind with hthis | hanonymous
      · exact hname.2.1 (hx.trans hthis)
      · exact hname.2.2 (hx.trans hanonymous)
  | result => cases hresolved

theorem keptOutside (h : b.LinkedIn (link :: around)) (hb : b.Standing names) (hd : names.Distinct)
    {o : Nat} {k : UInt8} (hi : (o, .byte .setUpvalue k) ∈ link.function.instructions) :
    ∃ v, Link.captured? (link :: around) k.toNat = some v ∧ v.slot ≠ 0 := by
  obtain ⟨a, hname, hresolved⟩ := h.exists_occurrence hb hd hi rfl
  cases a with
  | read env x => cases hresolved
  | write env x => exact hname.1.slot_ne_zero hname.2 hresolved (by decide) rfl
  | result => cases hresolved

theorem unread (h : b.LinkedIn (link :: around)) (hb : b.Standing names) (hd : names.Distinct)
    (hkind : b.env.kind = .function ∨ b.env.kind = .script) {o : Nat} :
    (o, .byte .getLocal 0) ∉ link.function.instructions := by
  intro hi
  obtain ⟨a, hname, hresolved⟩ := h.exists_occurrence hb hd hi rfl
  cases a with
  | read env x =>
      obtain ⟨hheaded, hsame, hx⟩ := hname
      have heq := hheaded.eq_of_first hresolved (by decide) rfl
      rw [hsame] at heq
      rcases hkind with hkind | hkind <;> rw [hkind] at heq <;> exact hx heq
  | write env x => cases hresolved
  | result =>
      rcases hkind with hkind | hkind <;> rw [hkind] at hname <;> cases hname

theorem uncaptured (h : b.LinkedIn (link :: around)) (hb : b.Standing names) (hd : names.Distinct)
    (hkind : b.env.kind = .function ∨ b.env.kind = .script) {o : Nat} {k : UInt8}
    {descriptors : List (Bool × UInt8)}
    (hi : (o, .closure k descriptors) ∈ link.function.instructions) : (true, 0) ∉ descriptors := by
  have hcompiled := h.compiledTo
  have hreceiver : b.env.receiverOf b.env.kind = .anonymous := by
    rcases hkind with hkind | hkind <;> rw [hkind] <;> rfl
  intro hmem
  have hcloses : link.function.ClosesOver 0 0 (o + 1) :=
    ⟨o, k, descriptors, 0, hi, Nat.zero_le o, Nat.lt_succ_self o, hmem, rfl⟩
  obtain ⟨o', s, hs, -, -, hcloses⟩ := hcompiled.closesOver_iff.mp hcloses
  cases s with
  | closure index vs => exact hb.not_captured hd hreceiver (Step.mem_of_mem_labelled hs) hcloses
  | simple op | byte op operand | captured op v | constant op index | invoke op index arguments
  | jump op distance | pending op => exact hcloses.elim

end FunctionBody.LinkedIn

namespace FunctionBody.CompiledTo

variable {b : FunctionBody} {g : Function UInt8}

theorem name_eq (h : b.CompiledTo g) : g.name = b.name := by
  have h := congrArg Function.name h.erased
  cases g
  exact h

end FunctionBody.CompiledTo

/-- A function of a program leaves the receiver of its method as it is. -/
theorem Member.keepsReceiver {names : ImplicitNames} {m : Member} {link : Link} {around : List Link}
    (h : m.body.LinkedIn (link :: around)) (hb : m.body.Standing names) (hd : names.Distinct)
    (hkinded : m.Kinded) : m.KeepsReceiver names link around where
  returns howner hname := by
    obtain ⟨c, howner⟩ := Option.isSome_iff_exists.mp howner
    unfold Kinded at hkinded
    rw [howner] at hkinded
    obtain ⟨x, hx, hkind⟩ := hkinded
    rw [h.compiledTo.name_eq, hx] at hname
    obtain rfl := Option.some.inj hname
    rw [hb.headed.names_eq, ImplicitNames.methodKind, if_pos rfl] at hkind
    exact h.compiledTo.returnsReceiver hkind hb.allowed
  kept _ _ := h.kept hb hd
  keptOutside _ _ := h.keptOutside hb hd
  unread howner _ := by
    unfold Kinded at hkinded
    rw [howner] at hkinded
    exact h.unread hb hd hkinded
  uncaptured howner _ _ _ := by
    unfold Kinded at hkinded
    rw [howner] at hkinded
    exact h.uncaptured hb hd hkinded

namespace Compilation

/-- In every function of a source that compiles, the receiver of a method stays in its first slot.
An initializer returns nothing else: each of its returns comes right after a read of this slot, and
no jump leads to it. Functions that are no methods, and the script, do not use their first slot. -/
theorem kept_family {source : Bytes} {table : SymbolTable} {c : Compilation UInt8}
    {f : Function UInt8} (hc : ofSource source table = .ok c) (hf : c.result = .ok f) :
    c.symbols.resolve? (implicitNames table).1.init = some (ascii ['i', 'n', 'i', 't']) ∧
    (f.chains [] []).map (·.head?.map Link.function) = f.family.map some ∧
    ∃ ds, Spells source table ds ∧
      (Declaration.allLineages (implicitNames table).1 ds).map (·.head?.map Member.body) =
        (Declaration.bodies (implicitNames table).1 ds).map some ∧
      List.Forall₂ (fun ms chain => ∃ m host link around, ms = m :: host ∧ chain = link :: around ∧
          Member.RunsIn ms chain ∧ m.KeepsReceiver (implicitNames table).1 link around)
        (Declaration.allLineages (implicitNames table).1 ds) (f.chains [] []) := by
  let names := (implicitNames table).1
  have hd : names.Distinct := distinct_implicitNames table
  refine ⟨?_, f.map_chains [] [], ?_⟩
  · have hextends := Scanned.extends_internAll (Scanned.ofSource source) (implicitNames table).2
    rw [symbols_ofSourceWith hc]
    exact hextends.resolve? (resolve?_implicitNames table).2.2
  obtain ⟨ds, hspells, hbound⟩ := Accepts.bound ⟨c, hc, hf⟩
  refine ⟨ds, hspells, Declaration.map_allLineages _ ds, ?_⟩
  obtain ⟨⟨ts, hscans, hds⟩, hallowed⟩ := hspells
  have hts : names.Nameable ts := fun x hx =>
    ⟨fun heq => (hscans.mem hx).1 (congrArg _ heq), fun heq => (hscans.mem hx).2.2 (congrArg _ heq)⟩
  have hstanding := Declaration.standing_bodies hd hds hts hallowed
  have hkinded := Declaration.kinded_allLineages names ds
  have hbodies : ∀ ms ∈ Declaration.allLineages names ds, ∀ m ∈ ms.head?, m.body.Standing names := by
    intro ms hms m hm
    have hmem := List.mem_map_of_mem (f := fun l : List Member => l.head?.map Member.body) hms
    rw [Declaration.map_allLineages, show ms.head? = some m from hm] at hmem
    obtain ⟨b, hb, heq⟩ := List.mem_map.mp hmem
    cases heq
    exact hstanding _ hb
  have hall := (List.forall₂_and_left _ _).mpr
    ⟨fun ms hms => And.intro (hbodies ms hms) (hkinded ms hms), hbound⟩
  refine hall.imp fun ms chain h => ?_
  obtain ⟨⟨hstanding, hkinded⟩, hruns, m, host, link, around, rfl, rfl, -⟩ := h
  exact ⟨m, host, link, around, rfl, rfl, hruns,
    Member.keepsReceiver hruns.head (hstanding m rfl) hd (hkinded m rfl)⟩

/-- The source `class A{init(){fun f(){this;}if(f)return;}}fun g(a){fun h(){a=a;}}`, where an
initializer returns from a statement and its receiver is captured. -/
def initializing : Bytes :=
  ascii ['c', 'l', 'a', 's', 's', ' ', 'A', '\x7b', 'i', 'n', 'i', 't', '(', ')', '\x7b', 'f', 'u',
    'n', ' ', 'f', '(', ')', '\x7b', 't', 'h', 'i', 's', ';', '\x7d', 'i', 'f', '(', 'f', ')', 'r',
    'e', 't', 'u', 'r', 'n', ';', '\x7d', '\x7d', 'f', 'u', 'n', ' ', 'g', '(', 'a', ')', '\x7b',
    'f', 'u', 'n', ' ', 'h', '(', ')', '\x7b', 'a', '=', 'a', ';', '\x7d', '\x7d']

/-- An initializer with two returns, and a closure that assigns a parameter. -/
theorem kept_of_captured_receiver : ∃ c f, ofSource initializing .empty = .ok c ∧
    c.result = .ok f ∧
    c.symbols.resolve? (implicitNames .empty).1.init = some (ascii ['i', 'n', 'i', 't']) ∧
    (f.chains [] []).map (·.head?.map Link.function) = f.family.map some ∧
    ∃ ds, Spells initializing .empty ds ∧
      (Declaration.allLineages (implicitNames .empty).1 ds).map (·.head?.map Member.body) =
        (Declaration.bodies (implicitNames .empty).1 ds).map some ∧
      List.Forall₂ (fun ms chain => ∃ m host link around, ms = m :: host ∧ chain = link :: around ∧
          Member.RunsIn ms chain ∧ m.KeepsReceiver (implicitNames .empty).1 link around)
        (Declaration.allLineages (implicitNames .empty).1 ds) (f.chains [] []) := by
  have hcompiled : (compiled? initializing).isSome = true := by decide +kernel
  obtain ⟨c, f, hc, hf⟩ := exists_of_compiled? hcompiled
  exact ⟨c, f, hc, hf, kept_family hc hf⟩

end Compilation

end LoxCompiler
