import LoxCompiler.Proofs.Control.Classes
import LoxCompiler.Proofs.Invariant.Receiver
import LoxCompiler.Proofs.Machine.Resolution
import LoxCompiler.Proofs.Machine.Scopes
import LoxCompiler.Proofs.Scanning.Names

/-! # The receiver and the superclass in code

Every function runs inside the ones that its tree is in. In a method and in functions inside it, the
receiver is read from the first slot of the method, and the superclass from the local that the class
of the method declared for it, which holds what was read as its superclass.
-/

namespace LoxCompiler

/-! ## Functions inside each other -/

mutual

/-- The chains of a function stand in the order of a tree. -/
theorem Function.unfolds_chains (descriptors : List (Bool × UInt8)) (around : List Link)
    (f : Function UInt8) : Unfolds around (f.chains descriptors around) := by
  obtain ⟨name, arity, upvalueCount, code, lines, constants⟩ := f
  rw [Function.chains]
  exact (Constant.unfolds_chains _ _ _ constants).cons

theorem Constant.unfolds_chains (is : List (Nat × Instruction)) (around : List Link) (k : Nat)
    (constants : List (Constant UInt8)) : Unfolds around (Constant.chains is around k constants) := by
  match constants with
  | [] => exact .nil
  | .number _ :: constants | .string _ :: constants =>
      rw [Constant.chains]
      exact Constant.unfolds_chains is around (k + 1) constants
  | .function f :: constants =>
      rw [Constant.chains]
      exact (Function.unfolds_chains _ around f).append
        (Constant.unfolds_chains is around (k + 1) constants)

end

namespace Member

/-- Functions inside each other are compiled to those of a chain. -/
def RunsIn : List Member → List Link → Prop
  | [], [] => True
  | m :: ms, link :: links => m.body.LinkedIn (link :: links) ∧ RunsIn ms links
  | _, _ => False

variable {ms ms' : List Member} {chain chain' : List Link}

theorem RunsIn.length_eq (h : RunsIn ms chain) : ms.length = chain.length := by
  induction ms generalizing chain with
  | nil =>
      cases chain with
      | nil => rfl
      | cons link links => exact h.elim
  | cons m ms ih =>
      cases chain with
      | nil => exact h.elim
      | cons link links => exact congrArg (· + 1) (ih h.2)

theorem RunsIn.head {m : Member} (h : RunsIn (m :: ms) chain) : m.body.LinkedIn chain := by
  cases chain with
  | nil => exact h.elim
  | cons link links => exact h.1

theorem RunsIn.drop (h : RunsIn ms chain) (n : Nat) : RunsIn (ms.drop n) (chain.drop n) := by
  induction n generalizing ms chain with
  | zero => exact h
  | succ n ih =>
      cases ms with
      | nil =>
          cases chain with
          | nil => trivial
          | cons link links => exact h.elim
      | cons m ms =>
          cases chain with
          | nil => exact h.elim
          | cons link links => exact ih h.2

/-- The functions around a function are compiled to those around it in the chain. -/
theorem RunsIn.of_suffix (h : RunsIn ms chain) (hms : ms' <:+ ms) (hchain : chain' <:+ chain)
    (hlength : ms'.length = chain'.length) : RunsIn ms' chain' := by
  have hdrop := h.drop (ms.length - ms'.length)
  rwa [← List.suffix_iff_eq_drop.mp hms, h.length_eq, hlength,
    ← List.suffix_iff_eq_drop.mp hchain] at hdrop

/-- Two lists in the order of a tree that agree in the first function of each item and in the length
of each item agree in all functions of each item. -/
theorem runsIn_of_isChain {ls : List (List Member)} {chains : List (List Link)}
    (h : RunsIn ms chain) (hls : List.IsChain (fun x y => y.tail <:+ x) (ms :: ls))
    (hchains : List.IsChain (fun x y => y.tail <:+ x) (chain :: chains))
    (heach : List.Forall₂ (fun l chain => l.length = chain.length ∧
      ∃ m around, l = m :: around ∧ m.body.LinkedIn chain) ls chains) :
    List.Forall₂ (fun l chain => ∃ m around, l = m :: around ∧ RunsIn l chain) ls chains := by
  induction heach generalizing ms chain with
  | nil => exact .nil
  | cons hfirst _ ih =>
      obtain ⟨hlength, m, around, rfl, hlinked⟩ := hfirst
      obtain ⟨hms, hls⟩ := List.isChain_cons_cons.mp hls
      obtain ⟨hchain, hchains⟩ := List.isChain_cons_cons.mp hchains
      obtain ⟨link, links, rfl, -⟩ := id hlinked
      have hboth : RunsIn (m :: around) (link :: links) :=
        ⟨hlinked, h.of_suffix hms hchain (Nat.succ.inj hlength)⟩
      exact .cons ⟨m, around, rfl, hboth⟩ (ih hboth hls hchains)

end Member

/-! ## What instructions read -/

/-- An instruction accesses what a name means. -/
theorem Environment.Resolves.of_find? {env : Environment} {name : Symbol} {f : Function UInt8}
    {chain : List Link} {ofSlot ofCaptured ofGlobal : Opcode} {i : Instruction} {v : Variable}
    (h : env.Resolves name f chain ofSlot ofCaptured ofGlobal i)
    (hfind : Variable.find? name (env.locals :: env.outer) = some v) :
    (v.level = env.level ∧ ∃ k : UInt8, i = .byte ofSlot k ∧ k.toNat = v.slot) ∨
      (v.level < env.level ∧ ∃ k : UInt8, i = .byte ofCaptured k ∧
        Link.captured? chain k.toNat = some v) := by
  cases h with
  | @slot newer older k hlocals hnewer hk =>
      rw [hlocals, Variable.find?_append hnewer] at hfind
      cases hfind
      exact .inl ⟨rfl, k, rfl, hk⟩
  | @captured inner newer older outer k hlocals houter hinner hnewer hk =>
      rw [Variable.find?_of_notMem hlocals] at hfind
      have hlevel := (Variable.of_find? hfind).level_lt
      rw [houter, Variable.find?_append_of_notMem hinner, Variable.find?_append hnewer] at hfind
      cases hfind
      exact .inr ⟨hlevel, k, rfl, hk⟩
  | global hlocals houter hk =>
      have hnone : Variable.find? name env.outer = none := by
        rw [← List.append_nil env.outer, Variable.find?_append_of_notMem houter]
        rfl
      rw [Variable.find?_of_notMem hlocals, hnone] at hfind
      cases hfind

/-- The superclass of a class is read by the function directly around its methods, just before the
scope of the class, in which it is the only local. -/
def ClassBody.HeldBy (names : ImplicitNames) (c : ClassBody) (superclass : Symbol) (host : Member)
    (chain : List Link) : Prop :=
  ∃ link o i stop, chain.head? = some link ∧ (o, i) ∈ link.function.instructions ∧
    c.env.Resolves superclass link.function chain .getLocal .getUpvalue .getGlobal i ∧
      ⟨c.env.count, [(names.super, o + i.size)], stop⟩ ∈ host.body.scopes

/-- An instruction of the first of some functions inside each other reads the receiver of the
innermost method: from its first slot if this function is the method, and otherwise as a captured
variable that leads to this slot. -/
inductive Member.ReadsReceiver (ms : List Member) (chain : List Link) : Instruction → Prop
  | slot {m c around} : ms = m :: around → m.owner = some c →
      ReadsReceiver ms chain (.byte .getLocal 0)
  | captured {inner m c around k} : inner ≠ [] → ms = inner ++ m :: around →
      (∀ m' ∈ inner, m'.owner = none) → m.owner = some c →
      Link.captured? chain k.toNat = some ⟨around.length, 0⟩ →
      ReadsReceiver ms chain (.byte .getUpvalue k)

/-- An instruction of the first of some functions inside each other reads the superclass of the class
of the innermost method: as a captured variable that leads to the local in which the class holds it. -/
inductive Member.ReadsSuperclass (names : ImplicitNames) (ms : List Member) (chain : List Link) :
    Instruction → Prop
  | captured {inner m c superclass host around k} : ms = inner ++ m :: host :: around →
      (∀ m' ∈ inner, m'.owner = none) → m.owner = some c → c.superclass = some superclass →
      Link.captured? chain k.toNat = some ⟨around.length, c.env.count⟩ →
      c.HeldBy names superclass host (chain.drop (inner.length + 1)) →
      ReadsSuperclass names ms chain (.byte .getUpvalue k)

/-- An instruction that makes an access reads the receiver or the superclass of the innermost method
if the access names it, and writes neither of them. -/
def Occurrence.BoundBy (names : ImplicitNames) (ms : List Member) (chain : List Link) :
    Occurrence → Instruction → Prop
  | .read _ name, i => (name = names.this → Member.ReadsReceiver ms chain i) ∧
      (name = names.super → Member.ReadsSuperclass names ms chain i)
  | .write _ name, _ => name ≠ names.this ∧ name ≠ names.super
  | .result, i => i = .byte .getLocal 0

/-- The first of some functions inside each other accesses the receiver and the superclass of the
innermost method only. -/
def Member.BoundIn (names : ImplicitNames) (ms : List Member) (chain : List Link) : Prop :=
  RunsIn ms chain ∧ ∃ m around link links, ms = m :: around ∧ chain = link :: links ∧
    List.Forall₂ (Occurrence.BoundBy names ms chain) m.body.occurrences
      ((link.function.instructions.map Prod.snd).filter Instruction.isAccess)

/-! ## The code of accesses -/

/-- The access to a variable at its place is one step there. -/
theorem Fragment.Placed.load {whole : Piece} {site : Site} {env : Environment} {name : Symbol}
    (h : Placed whole site (env.load name)) :
    (site.offset, (env.place name site.constants).get) ∈ Step.labelled 0 whole.code ∧
      (env.place name site.constants).Named whole.constants name ∧
      (site.after (env.load name)).offset =
        site.offset + (env.place name site.constants).get.size := by
  have hcode := env.code_load name site.constants
  refine ⟨?_, ?_, ?_⟩
  · obtain ⟨before, after, hwhole, hsize⟩ := h.code
    rw [hcode] at hwhole
    rw [hwhole, Step.labelled_append, Step.labelled_append, Nat.zero_add, hsize]
    exact List.mem_append_left _ (List.mem_append_right _ List.mem_cons_self)
  · obtain ⟨before, after, hwhole, hlength⟩ := h.constants
    have hconstants : (env.load name site.constants).constants =
        (env.locate name site.constants).constants := List.append_nil _
    rw [hwhole, hconstants, ← hlength]
    exact (env.named_locate name before).extend after
  · show site.offset + totalSize (env.load name site.constants).code = _
    rw [hcode]
    rfl

theorem ClassBody.DeclaredIn.heldBy {names : ImplicitNames} {c : ClassBody} {superclass : Symbol}
    {host : Member} {chain : List Link} (h : c.DeclaredIn names host) (hhost : host.body.LinkedIn chain)
    (hsuperclass : c.superclass = some superclass) : c.HeldBy names superclass host chain := by
  obtain ⟨link, around, rfl, -, hcompiled, hfinds⟩ := hhost
  obtain ⟨hplaced, stop, hscope⟩ := h superclass hsuperclass
  obtain ⟨hload, hnamed, hoffset⟩ := hplaced.load
  rw [hoffset] at hscope
  have hmem := Step.mem_of_mem_labelled hload
  have haccess : (c.env.place superclass c.site.constants).get.isAccess = true := by
    cases c.env.place superclass c.site.constants <;> rfl
  refine ⟨link, c.site.offset, _, stop, rfl, hcompiled.mem_instructions_iff.mpr ⟨_, hload, rfl⟩, ?_, ?_⟩
  · rw [Step.instruction_of_isAccess haccess]
    exact hcompiled.resolves hfinds (hcompiled.slot_lt (.inl rfl)) hmem hnamed
  · rwa [Step.size_instruction]

namespace Member

variable {names : ImplicitNames} {ms : List Member} {chain : List Link} {env : Environment}
  {f : Function UInt8} {i : Instruction}

theorem readsReceiver (h : env.StandsIn names ms) (hclasses : env.classes ≠ [])
    (hi : env.Resolves names.this f chain .getLocal .getUpvalue .getGlobal i) :
    ReadsReceiver ms chain i := by
  obtain ⟨c, around, hinnermost, hfind⟩ := h.exists_receiver hclasses
  obtain ⟨inner, m, rfl, hinner, hm⟩ := exists_of_innermost? hinnermost
  have hlevel : (inner ++ m :: around).length = env.level + 1 := h.around.length_eq
  rw [List.length_append, List.length_cons] at hlevel
  rcases hi.of_find? hfind with ⟨hsame, k, rfl, hk⟩ | ⟨hlt, k, rfl, hk⟩
  · obtain rfl : inner = [] := List.length_eq_zero_iff.mp (by dsimp only at hsame; omega)
    obtain rfl : k = 0 := UInt8.toNat_inj.mp hk
    exact .slot rfl hm
  · refine .captured ?_ rfl hinner hm hk
    rintro rfl
    dsimp only [List.length_nil] at hlevel hlt
    omega

theorem readsSuperclass (h : env.StandsIn names ms) (hsubclass : env.InSubclass)
    (hall : AllSound names ms) (hruns : RunsIn ms chain)
    (hi : env.Resolves names.super f chain .getLocal .getUpvalue .getGlobal i) :
    ReadsSuperclass names ms chain i := by
  obtain ⟨c, around, hinnermost, hc, houter, hfind⟩ := h.exists_superclass hsubclass
  obtain ⟨inner, m, rfl, hinner, hm⟩ := exists_of_innermost? hinnermost
  obtain ⟨superclass, hsuperclass⟩ := Option.isSome_iff_exists.mp hc
  have hlevel : (inner ++ m :: around).length = env.level + 1 := h.around.length_eq
  rw [List.length_append, List.length_cons] at hlevel
  obtain ⟨host, hhost, hdeclared⟩ := (hall.of_suffix (List.suffix_append _ _)).1.declared c hm
  cases around with
  | nil => cases hhost
  | cons host' around =>
      cases hhost
      rw [List.length_cons] at houter hlevel
      rcases hi.of_find? hfind with ⟨hsame, -⟩ | ⟨hlt, k, rfl, hk⟩
      · dsimp only at hsame
        omega
      · have hhost : RunsIn (host :: around) (chain.drop (inner.length + 1)) := by
          have hdrop := hruns.drop (inner.length + 1)
          rwa [List.drop_length_add_append] at hdrop
        rw [← Nat.succ.inj houter] at hk
        exact .captured rfl hinner hm hsuperclass hk (hdeclared.heldBy hhost.head hsuperclass)

/-- An access that is fair reads the receiver and the superclass of the innermost method. -/
theorem boundBy_of_resolvedBy {o : Occurrence} (hfair : o.Fair names ms) (hall : AllSound names ms)
    (hruns : RunsIn ms chain) (ho : o.ResolvedBy f chain i) : o.BoundBy names ms chain i := by
  cases o with
  | read env name =>
      constructor
      · rintro rfl
        obtain ⟨hstands, hclasses⟩ := hfair.1 rfl
        exact readsReceiver hstands hclasses ho
      · rintro rfl
        obtain ⟨hstands, hsubclass⟩ := hfair.2 rfl
        exact readsSuperclass hstands hsubclass hall hruns ho
  | write env name => exact hfair
  | result => exact ho

/-- Functions that run inside each other are bound in this way. -/
theorem RunsIn.boundIn {m : Member} {around : List Member} (hruns : RunsIn (m :: around) chain)
    (hall : AllSound names (m :: around)) : BoundIn names (m :: around) chain := by
  obtain ⟨link, links, rfl, -, hcompiled, hfinds⟩ := hruns.head
  have hboth := (List.forall₂_and_left _ _).mpr ⟨hall.1.fair, hcompiled.resolvedBy hfinds⟩
  exact ⟨hruns, m, around, link, links, rfl, rfl,
    hboth.imp fun _ _ h => boundBy_of_resolvedBy h.1 hall hruns h.2⟩

end Member

namespace Compilation

/-- The names of the language differ from each other, and from what cannot be named. -/
theorem distinct_implicitNames (table : SymbolTable) : (implicitNames table).1.Distinct := by
  obtain ⟨hthis, hsuper, -⟩ := resolve?_implicitNames table
  have hanonymous : (implicitNames table).2.resolve? .anonymous = some Symbol.anonymousName :=
    (implicitNames table).2.anonymous_first
  refine ⟨fun heq => ?_, fun heq => ?_, fun heq => ?_⟩
  · rw [heq, hsuper] at hthis
    revert hthis
    decide
  · rw [heq, hanonymous] at hthis
    revert hthis
    decide
  · rw [heq, hanonymous] at hsuper
    revert hsuper
    decide

/-- All functions of an accepted source read the receiver and the superclass of the innermost
method. -/
theorem Accepts.bound {source : Bytes} {table : SymbolTable} {f : Function UInt8}
    (h : Accepts .byte source table f) : ∃ ds, Spells source table ds ∧
      List.Forall₂ (Member.BoundIn (implicitNames table).1)
        (Declaration.allLineages (implicitNames table).1 ds) (f.chains [] []) := by
  obtain ⟨ds, hspells, hlinked⟩ := h.linked
  refine ⟨ds, hspells, ?_⟩
  let names := (implicitNames table).1
  obtain ⟨⟨ts, hscans, hds⟩, hallowed⟩ := hspells
  have hall : ∀ l ∈ Declaration.allLineages names ds, Member.AllSound names l :=
    Declaration.sound_allLineages (distinct_implicitNames table) hds hscans.spared hallowed
  have hheads : List.Forall₂ (fun (l : List Member) (chain : List Link) =>
      ∃ m around, l = m :: around ∧ m.body.LinkedIn chain)
        (Declaration.allLineages names ds) (f.chains [] []) := by
    have hbodies : List.Forall₂ (fun (b : Option FunctionBody) (chain : List Link) =>
        ∃ b' : FunctionBody, b = some b' ∧ b'.LinkedIn chain)
          ((Declaration.bodies names ds).map some) (f.chains [] []) :=
      List.forall₂_map_left_iff.mpr (hlinked.imp fun b _ hb => ⟨b, rfl, hb⟩)
    rw [← Declaration.map_allLineages, List.forall₂_map_left_iff] at hbodies
    refine hbodies.imp fun l chain h => ?_
    obtain ⟨b, hb, hlinked⟩ := h
    cases l with
    | nil => cases hb
    | cons m around =>
        cases hb
        exact ⟨m, around, rfl, hlinked⟩
  have hboth := (List.forall₂_and_left _ _).mpr ⟨hall, hheads⟩
  have hruns : List.Forall₂ (fun l chain => ∃ m around, l = m :: around ∧ Member.RunsIn l chain)
      (Declaration.allLineages names ds) (f.chains [] []) := by
    have hnone : Member.RunsIn [] [] := trivial
    refine Member.runsIn_of_isChain hnone
      (Declaration.unfolds_allLineages names ds).grows_cons (f.unfolds_chains [] []).grows_cons
        (hboth.imp fun l chain h => ⟨?_, h.2⟩)
    obtain ⟨hsound, m, around, rfl, link, links, rfl, hlevel, -⟩ := h
    rw [hsound.1.stands.around.length_eq, List.length_cons, hlevel]
    rfl
  refine ((List.forall₂_and_left _ _).mpr ⟨hall, hruns⟩).imp fun l chain h => ?_
  obtain ⟨hsound, m, around, rfl, hl⟩ := h
  exact hl.boundIn hsound

/-- In every function of a source that compiles, the receiver is read from the first slot of the
innermost method, and the superclass from the local that the class of this method declares for it.
While any source is compiled, each expression starts with as many classes as methods open, so a
receiver that may be referred to is found in some function: no audit that allows such states stops
the compilation. -/
theorem bound_family (source : Bytes) (table : SymbolTable) :
    (∀ c f, ofSource source table = .ok c → c.result = .ok f → ∃ ds, Spells source table ds ∧
      (Declaration.allLineages (implicitNames table).1 ds).map (·.head?.map Member.body) =
        (Declaration.bodies (implicitNames table).1 ds).map some ∧
      List.Forall₂ (Member.BoundIn (implicitNames table).1)
        (Declaration.allLineages (implicitNames table).1 ds) (f.chains [] [])) ∧
    (∀ s, Enters .byte source table s → s.Housed .byte) ∧
    ∀ audit : Audit UInt8, (∀ s t, audit.change s t = true) →
      (∀ s, s.Housed .byte → audit.expression s = true) →
        ofSourceWith (Width.byte.audited audit) source table = ofSource source table := by
  have hroom : Limits.admits Width.byte.limits.locals 1 = true := rfl
  refine ⟨fun c f hc hf => ?_, fun s hs => hs.housed hroom, fun audit hchange hexpression =>
    ofSourceWith_housed hroom audit source table hchange hexpression⟩
  obtain ⟨ds, hspells, hbound⟩ := Accepts.bound ⟨c, hc, hf⟩
  exact ⟨ds, hspells, Declaration.map_allLineages _ ds, hbound⟩

/-- The source `class A{}class B<A{f(){class C<A{g(){fun h(){super.g;}}}this;}}`, where a method of a
class has a class with the same superclass in it. -/
def nested : Bytes :=
  ascii ['c', 'l', 'a', 's', 's', ' ', 'A', '\x7b', '\x7d', 'c', 'l', 'a', 's', 's', ' ', 'B', '<',
    'A', '\x7b', 'f', '(', ')', '\x7b', 'c', 'l', 'a', 's', 's', ' ', 'C', '<', 'A', '\x7b', 'g',
    '(', ')', '\x7b', 'f', 'u', 'n', ' ', 'h', '(', ')', '\x7b', 's', 'u', 'p', 'e', 'r', '.', 'g',
    ';', '\x7d', '\x7d', '\x7d', 't', 'h', 'i', 's', ';', '\x7d', '\x7d']

/-- The superclass is read in a function of a method, where another class is open, too. -/
theorem bound_of_nested_classes :
    (∃ c f ds, ofSource nested .empty = .ok c ∧ c.result = .ok f ∧ Spells nested .empty ds ∧
      List.Forall₂ (Member.BoundIn (implicitNames .empty).1)
        (Declaration.allLineages (implicitNames .empty).1 ds) (f.chains [] [])) ∧
    (ofSourceWith (Width.byte.audited ⟨fun _ _ => true, fun s => s.classes.length < 2⟩) nested
      .empty).isOk = false := by
  have hcompiled : (compiled? nested).isSome = true := by decide +kernel
  obtain ⟨c, f, hc, hf⟩ := exists_of_compiled? hcompiled
  obtain ⟨ds, hspells, -, hbound⟩ := (bound_family nested .empty).1 c f hc hf
  exact ⟨⟨c, f, ds, hc, hf, hspells, hbound⟩, by decide +kernel⟩

end Compilation

end LoxCompiler
