import LoxCompiler.Proofs.Blueprint.Mentions
import LoxCompiler.Proofs.Machine.Closures

/-! # Captured variables

The closure of a function has one descriptor for each variable that is mentioned in the function, or
in a function in it, and declared around it. The descriptors stand in the order in which these
variables are mentioned first, and each leads to the slot of its variable.
-/

namespace LoxCompiler

/-! ## First mentions -/

/-- The number of mentions before the first one of a variable. -/
def Mention.first (ms : List Mention) (v : Variable) : Nat :=
  (ms.map Mention.meant?).idxOf (some v)

namespace Mention

variable {ms : List Mention} {v : Variable}

theorem first_append_of_mem (h : v ∈ ms.filterMap meant?) (more : List Mention) :
    first (ms ++ more) v = first ms v := by
  obtain ⟨m, hm, hv⟩ := List.mem_filterMap.mp h
  unfold first
  rw [List.map_append, List.idxOf_append_of_mem]
  exact List.mem_map.mpr ⟨m, hm, hv⟩

theorem first_lt_of_mem (h : v ∈ ms.filterMap meant?) : first ms v < ms.length := by
  obtain ⟨m, hm, hv⟩ := List.mem_filterMap.mp h
  have hlt := List.idxOf_lt_length_of_mem (List.mem_map.mpr ⟨m, hm, hv⟩)
  rwa [List.length_map] at hlt

theorem le_first_append (h : v ∉ ms.filterMap meant?) (more : List Mention) :
    ms.length ≤ first (ms ++ more) v := by
  have hmap : some v ∉ ms.map meant? := fun hmem => by
    obtain ⟨m, hm, hv⟩ := List.mem_map.mp hmem
    exact h (List.mem_filterMap.mpr ⟨m, hm, hv⟩)
  unfold first
  rw [List.map_append, List.idxOf_append_of_notMem hmap, List.length_map]
  exact Nat.le_add_right _ _

/-- Captured variables stand in the order of their first mentions. -/
theorem pairwise_captureAll (level : Nat) (ms : List Mention) :
    (captureAll level (ms.filterMap meant?)).Pairwise fun u v => first ms u < first ms v := by
  induction ms using List.reverseRecOn with
  | nil => exact List.Pairwise.nil
  | append_singleton ms m ih =>
      -- the first mentions of what is captured already are not changed by one more mention
      have hkeep : (captureAll level (ms.filterMap meant?)).Pairwise fun u v =>
          first (ms ++ [m]) u < first (ms ++ [m]) v := by
        refine ih.imp_of_mem fun hu hv hlt => ?_
        rwa [first_append_of_mem (mem_captureAll.mp hu).1, first_append_of_mem (mem_captureAll.mp hv).1]
      rw [List.filterMap_append]
      cases hm : m.meant? with
      | none => simpa [hm] using hkeep
      | some v =>
          rw [List.filterMap_cons_some hm, List.filterMap_nil, captureAll_concat]
          split
          · rename_i hlevel
            unfold capture
            split
            · exact hkeep
            · rename_i hnew
              have hfresh : v ∉ ms.filterMap meant? := fun hmem =>
                hnew (mem_captureAll.mpr ⟨hmem, hlevel⟩)
              refine List.pairwise_append.mpr ⟨hkeep, List.pairwise_singleton _ _, ?_⟩
              rintro u hu _ (_ | ⟨_, ⟨⟩⟩)
              have hold := (mem_captureAll.mp hu).1
              rw [first_append_of_mem hold]
              exact Nat.lt_of_lt_of_le (first_lt_of_mem hold) (le_first_append hfresh _)
          · exact hkeep

end Mention

/-- A variable is one of the outermost functions if its level is. -/
theorem Variable.Of.of_suffix {outer scopes : List (List Symbol)} {v : Variable} (h : v.Of scopes)
    (hsuffix : outer <:+ scopes) (hlevel : v.level < outer.length) : v.Of outer := by
  obtain ⟨inner, rfl⟩ := hsuffix
  induction inner with
  | nil => exact h
  | cons locals inner ih =>
      rcases h with ⟨heq, -⟩ | h
      · have hlength : (inner ++ outer).length = v.level := heq.symm
        rw [List.length_append] at hlength
        omega
      · exact ih h

/-! ## The descriptors of closures -/

/-- A function inside other ones is a constant of the one directly around it, which has just one
instruction that makes a closure of it, with some descriptors. The script has none. -/
def Link.Made (link : Link) : List Link → Prop
  | [] => link.descriptors = []
  | host :: _ => ∃ k : UInt8, host.function.constants[k.toNat]? = some (.function link.function) ∧
      ∃ offset, host.function.instructions.filter (fun e => e.2.closure? == some k.toNat) =
        [(offset, .closure k link.descriptors)]

/-- A function inside other ones captures the variables that some mentions mean, as far as they are
locals of the functions around it. -/
structure Link.Captures (link : Link) (around : List Link) (outer : List (List Symbol))
    (ms : List Mention) (vs : List Variable) : Prop where
  /-- The locals of the functions around are the same at each mention. -/
  inside : Mention.AllInside outer ms
  nodup : vs.Nodup
  mem_iff : ∀ v, v ∈ vs ↔ v.Of outer ∧ ∃ m ∈ ms, m.meant? = some v
  ordered : vs.Pairwise fun u v => Mention.first ms u < Mention.first ms v
  made : link.Made around
  length_eq : link.descriptors.length = vs.length
  count_eq : link.function.upvalueCount = vs.length
  leads : ∀ i v, vs[i]? = some v → Link.captured? (link :: around) i = some v

/-- A function of a program inside other ones captures what is mentioned in it. -/
def FunctionBody.CapturesIn (b : FunctionBody) (chain : List Link) : Prop :=
  ∃ link around vs, chain = link :: around ∧ around.length = b.env.level ∧
    link.Captures around b.env.outer b.mentions vs

/-- A function inside other ones is a constant of the one directly around it. -/
def Link.Nested (chains : List (List Link)) (chain : List Link) : Prop :=
  ∃ host around k g, chain =
    ⟨g, Instruction.descriptorsOf host.function.instructions k⟩ :: host :: around ∧
      host :: around ∈ chains ∧ host.function.constants[k]? = some (.function g)

mutual

/-- Every function of the chains except for the first one is nested in another one of them. -/
theorem Function.nested_chains {descriptors : List (Bool × UInt8)} {around : List Link}
    {chains : List (List Link)} (f : Function UInt8)
    (h : f.chains descriptors around ⊆ chains) : ∀ chain ∈ f.chains descriptors around,
      chain = ⟨f, descriptors⟩ :: around ∨ Link.Nested chains chain := by
  intro chain hchain
  rw [Function.chains_eq] at h hchain
  obtain ⟨hfirst, h⟩ := List.cons_subset.mp h
  rcases List.mem_cons.mp hchain with rfl | hchain
  · exact .inl rfl
  · obtain ⟨name, arity, upvalueCount, code, lines, constants⟩ := f
    refine .inr (Constant.nested_chains constants hfirst (fun i c hc => ?_) h chain hchain)
    rwa [Nat.zero_add]

theorem Constant.nested_chains {host : Link} {around : List Link} {k : Nat}
    {chains : List (List Link)} (constants : List (Constant UInt8)) (hhost : host :: around ∈ chains)
    (hconstants : ∀ i c, constants[i]? = some c → host.function.constants[k + i]? = some c)
    (h : Constant.chains host.function.instructions (host :: around) k constants ⊆ chains) :
    ∀ chain ∈ Constant.chains host.function.instructions (host :: around) k constants,
      Link.Nested chains chain := by
  intro chain hchain
  cases constants with
  | nil => cases hchain
  | cons c constants =>
      have hlater : ∀ i c, constants[i]? = some c →
          host.function.constants[k + 1 + i]? = some c := by
        intro i c hc
        rw [Nat.add_assoc, Nat.add_comm 1]
        exact hconstants (i + 1) c hc
      cases c with
      | number value | string value =>
          exact Constant.nested_chains constants hhost hlater h chain hchain
      | function g =>
          obtain ⟨hg, h⟩ := List.append_subset.mp h
          rcases List.mem_append.mp hchain with hchain | hchain
          · rcases Function.nested_chains g hg chain hchain with rfl | hnested
            · exact ⟨host, around, k, g, rfl, hhost, hconstants 0 _ rfl⟩
            · exact hnested
          · exact Constant.nested_chains constants hhost hlater h chain hchain

end

namespace FunctionBody.CompiledTo

variable {b : FunctionBody} {host : Function UInt8}

/-- The closure of a function among the constants is made once. -/
theorem made (h : b.CompiledTo host) {k : Nat} {g : Function UInt8}
    (hg : host.constants[k]? = some (.function g)) :
    ∃ index : UInt8, index.toNat = k ∧
      ∃ offset, host.instructions.filter (fun e => e.2.closure? == some k) =
        [(offset, .closure index (Instruction.descriptorsOf host.instructions k))] := by
  obtain ⟨p, hp, -⟩ := h.item_of_function hg
  obtain ⟨⟨_, hs, rfl⟩, hdescriptors⟩ := h.descriptorsOf_eq hp
  obtain ⟨offset, hmem⟩ : ∃ o, (o, (Step.closure k p.captures).instruction b.env.level
      b.plan.captures o) ∈ Step.decoded b.env.level b.plan.captures 0 b.plan.code :=
    Step.exists_mem_decoded hs
  rw [← h.instructions_eq, Step.instruction, ← hdescriptors] at hmem
  refine ⟨.ofNat k, h.toNat_index hp, offset, ?_⟩
  have honce := h.verified.once k g hg
  rw [List.count_filterMap, List.countP_eq_length_filter, List.length_eq_one_iff] at honce
  obtain ⟨e, he⟩ := honce
  have hin := (List.mem_filter (p := fun e => e.2.closure? == some k)).mpr
    ⟨hmem, beq_iff_eq.mpr (congrArg some (h.toNat_index hp))⟩
  rw [he] at hin ⊢
  rw [List.mem_singleton.mp hin]

/-- A function among the constants has as many captured variables as its closure has descriptors. -/
theorem length_descriptorsOf (h : b.CompiledTo host) {k : Nat} {g : Function UInt8}
    (hg : host.constants[k]? = some (.function g)) :
    (Instruction.descriptorsOf host.instructions k).length = g.upvalueCount := by
  obtain ⟨index, rfl, offset, hfilter⟩ := h.made hg
  have hmem := (List.mem_filter.mp (hfilter ▸ List.mem_singleton_self _)).1
  obtain ⟨g', hg', hlength⟩ := h.verified.closures _ _ _ hmem
  rw [hg] at hg'
  cases hg'
  exact hlength

end FunctionBody.CompiledTo

/-! ## The functions of a source inside each other -/

/-- Every function inside other ones is what some function of the program is compiled to. -/
theorem FunctionBody.exists_linkedIn {bs : List FunctionBody} {chains : List (List Link)}
    (h : List.Forall₂ FunctionBody.LinkedIn bs chains) :
    ∀ chain ∈ chains, ∃ b : FunctionBody, b.LinkedIn chain := by
  have hall : List.Forall₂ (fun chain (_ : FunctionBody) =>
      (∃ b : FunctionBody, b.LinkedIn chain) ∧ True) chains bs :=
    (List.Forall₂.flip (R := flip FunctionBody.LinkedIn) h).imp fun _ b h => ⟨⟨b, h⟩, trivial⟩
  exact ((List.forall₂_and_left _ _).mp hall).1

/-- A function that is nested in a compiled one was made a closure there. -/
theorem Link.Nested.made {bs : List FunctionBody} {chains : List (List Link)} {link : Link}
    {around : List Link} (hlinked : List.Forall₂ FunctionBody.LinkedIn bs chains)
    (h : Link.Nested chains (link :: around)) :
    link.Made around ∧ link.descriptors.length = link.function.upvalueCount := by
  obtain ⟨host, rest, k, g, heq, hhost, hg⟩ := h
  obtain ⟨rfl, rfl⟩ := List.cons.inj heq
  obtain ⟨b, _, _, heq, -, hcompiled, -⟩ := FunctionBody.exists_linkedIn hlinked _ hhost
  cases heq
  obtain ⟨index, rfl, offset, hfilter⟩ := hcompiled.made hg
  exact ⟨⟨index, hg, offset, hfilter⟩, hcompiled.length_descriptorsOf hg⟩

namespace FunctionBody.LinkedIn

variable {b : FunctionBody} {link : Link} {around : List Link}

theorem level_eq (h : b.LinkedIn (link :: around)) : around.length = b.env.level := by
  obtain ⟨_, _, heq, hlevel, -⟩ := h
  cases heq
  exact hlevel

theorem upvalueCount_eq (h : b.LinkedIn (link :: around)) :
    link.function.upvalueCount = b.plan.captures.length := by
  obtain ⟨_, _, heq, -, hcompiled, -⟩ := h
  cases heq
  exact hcompiled.upvalueCount_eq

/-- There is nothing around the script that it could capture. -/
theorem upvalueCount_script (h : b.LinkedIn [link]) : link.function.upvalueCount = 0 := by
  rw [h.upvalueCount_eq, List.length_eq_zero_iff, List.eq_nil_iff_forall_not_mem]
  intro v hv
  have hlevel : v.level < b.env.level := (mem_captureAll.mp hv).2
  rw [← h.level_eq] at hlevel
  exact Nat.not_lt_zero _ hlevel

/-- A function of a program captures what its plan says. -/
theorem captures (h : b.LinkedIn (link :: around)) (hrooted : b.env.Rooted)
    (hmade : link.Made around) (hlength : link.descriptors.length = link.function.upvalueCount) :
    link.Captures around b.env.outer b.mentions b.plan.captures := by
  have hcount := h.upvalueCount_eq
  obtain ⟨_, _, heq, -, -, hfinds⟩ := h
  cases heq
  have hcaptures := b.captures_eq hrooted
  refine ⟨b.allInside, nodup_captureAll _ _, fun v => ?_, ?_, hmade, hlength.trans hcount, hcount,
    hfinds⟩
  · rw [hcaptures, mem_captureAll, List.mem_filterMap]
    constructor
    · rintro ⟨⟨m, hm, hv⟩, hlevel⟩
      have hof : v.Of (m.env.locals :: m.env.outer) := Variable.of_find? hv
      exact ⟨hof.of_suffix ((b.allInside m hm).trans (List.suffix_cons _ _)) hlevel, m, hm, hv⟩
    · exact fun ⟨hof, hm⟩ => ⟨hm, hof.level_lt⟩
  · rw [hcaptures]
    exact Mention.pairwise_captureAll _ _

end FunctionBody.LinkedIn

namespace Compilation

/-- The functions of an accepted source capture what is mentioned in them. -/
theorem Accepts.captures {source : Bytes} {table : SymbolTable} {f : Function UInt8}
    (h : Accepts .byte source table f) : ∃ ds, Spells source table ds ∧
      List.Forall₂ (fun b chain => b.LinkedIn chain ∧ b.CapturesIn chain)
        (Declaration.bodies (implicitNames table).1 ds) (f.chains [] []) := by
  obtain ⟨ds, hspells, hlinked⟩ := h.linked
  refine ⟨ds, hspells, ?_⟩
  have hrooted := Declaration.rooted_bodies (implicitNames table).1 ds
  have hnested : ∀ chain ∈ f.chains [] [], chain = [⟨f, []⟩] ∨ Link.Nested (f.chains [] []) chain :=
    f.nested_chains (List.Subset.refl _)
  have hchains := (List.forall₂_and_left _ _).mpr
    ⟨hnested, List.Forall₂.flip (R := flip FunctionBody.LinkedIn) hlinked⟩
  refine ((List.forall₂_and_left _ _).mpr ⟨hrooted, hchains.flip⟩).imp fun b chain h => ?_
  obtain ⟨hrooted, hmade, hb⟩ := h
  refine ⟨hb, ?_⟩
  obtain ⟨link, around, rfl, hlevel, -⟩ := id hb
  refine ⟨link, around, b.plan.captures, rfl, hlevel, ?_⟩
  rcases hmade with heq | hnested
  · cases heq
    exact hb.captures hrooted rfl hb.upvalueCount_script.symm
  · obtain ⟨hmade, hlength⟩ := hnested.made hlinked
    exact hb.captures hrooted hmade hlength

/-- In every function of a source that compiles, the closure has one descriptor for each variable of
the functions around that is mentioned inside, in the order of the first mentions. -/
theorem captures_family {source : Bytes} {table : SymbolTable} {c : Compilation UInt8}
    {f : Function UInt8} (hc : ofSource source table = .ok c) (hf : c.result = .ok f) :
    ∃ ds, Spells source table ds ∧
      List.Forall₂ FunctionBody.CapturesIn (Declaration.bodies (implicitNames table).1 ds)
        (f.chains [] []) := by
  obtain ⟨ds, hspells, hall⟩ := Accepts.captures ⟨c, hc, hf⟩
  exact ⟨ds, hspells, hall.imp fun _ _ h => h.2⟩

/-- The parameter of a function that another one inside it captures. -/
theorem captures_of_captured_parameter : ∃ c f ds, ofSource capturing .empty = .ok c ∧
    c.result = .ok f ∧ Spells capturing .empty ds ∧
      List.Forall₂ FunctionBody.CapturesIn (Declaration.bodies (implicitNames .empty).1 ds)
        (f.chains [] []) := by
  obtain ⟨c, f, hc, hf⟩ := compiles_capturing
  obtain ⟨ds, hspells, hcaptures⟩ := captures_family hc hf
  exact ⟨c, f, ds, hc, hf, hspells, hcaptures⟩

end Compilation

end LoxCompiler
