import LoxCompiler.Proofs.Composition.Relocate
import LoxCompiler.Proofs.Composition.Run

/-! # Sources one after the other

Two sources that compile, one after the other with a line break between, compile to what they
compile to on their own: the code of the first script without its return and the code of the second
one, which refers to its constants behind those of the first one.
-/

namespace LoxCompiler

open Compile

/-- A script is composed of two other ones, the lines of the second one being some number of lines
later. What it means for symbols to match is a parameter for each of the two. -/
structure Function.Composed (f f₁ f₂ : Function UInt8) (name₁ name₂ : Symbol → Symbol → Prop)
    (k : Nat) : Prop where
  name : f.name = none
  arity : f.arity = 0
  upvalueCount : f.upvalueCount = 0
  /-- The return of the first script is left out. -/
  code : ∃ code, f₁.code = code ++ [Opcode.pushNil.toByte, Opcode.ret.toByte] ∧
    f.code = code ++ f₂.relocated f₁.constants.length
  /-- No operand overflows when it gets greater. -/
  operands : ∀ item ∈ f₂.instructions, ∀ index, item.2.reference? = some index →
    index + f₁.constants.length < 256
  lines : ∃ lines l, f₁.lines = lines ++ [l, l] ∧ f.lines = lines ++ f₂.lines.map (· + k)
  constants : ∃ cs₁ cs₂, f.constants = cs₁ ++ cs₂ ∧
    List.Forall₂ (Constant.Alike name₁ Eq) f₁.constants cs₁ ∧
    List.Forall₂ (Constant.Alike name₂ fun l l' => l' = l + k) f₂.constants cs₂

/-! ## Alike scripts -/

namespace Instruction

variable {constants constants' : List (Constant UInt8)}

theorem readOnto_congr (h : ∀ function, upvalueCount constants function =
      upvalueCount constants' function) (fuel : Nat) (read : List (Nat × Instruction)) (offset : Nat)
    (bytes : Bytes) : readOnto constants fuel read offset bytes =
      readOnto constants' fuel read offset bytes := by
  have hoperands (op : Opcode) (offset : Nat) (rest : Bytes) :
      readOperands constants offset op rest = readOperands constants' offset op rest := by
    unfold readOperands
    simp only [h]
  induction fuel generalizing read offset bytes with
  | zero => rfl
  | succ fuel ih =>
      cases bytes with
      | nil => rfl
      | cons b rest => simp only [readOnto, hoperands, ih]

theorem upvalueCount_congr {name : Symbol → Symbol → Prop} {line : Nat → Nat → Prop}
    (h : List.Forall₂ (Constant.Alike name line) constants constants') (function : UInt8) :
    upvalueCount constants function = upvalueCount constants' function := by
  unfold upvalueCount
  generalize function.toNat = i
  induction h generalizing i with
  | nil => rfl
  | @cons c c' _ _ hc _ ih =>
      cases i with
      | succ i => exact ih i
      | zero =>
          match c, c', hc with
          | .number _, .number _, _ | .string _, .string _, _ => rfl
          | .function f, .function f', hf =>
              rw [Constant.Alike] at hf
              exact (Function.alike_iff.mp hf).2.2.1

end Instruction

namespace Function

variable {name₁ name₂ name₁' name₂' : Symbol → Symbol → Prop} {f₁ f₂ g₁ g₂ f : Function UInt8}

theorem Alike.instructions_eq {line : Nat → Nat → Prop} (h : f₁.Alike name₁ line g₁) :
    f₁.instructions = g₁.instructions := by
  obtain ⟨-, -, -, hcode, -, hconstants⟩ := alike_iff.mp h
  unfold Function.instructions
  rw [hcode, Instruction.readOnto_congr (Instruction.upvalueCount_congr hconstants)]

/-- A script that is composed of two others is composed of any that are alike. -/
theorem Composed.of_alike {k : Nat} (h : f.Composed g₁ g₂ Eq Eq k) (h₁ : f₁.Alike name₁ Eq g₁)
    (h₂ : f₂.Alike name₂ Eq g₂) (hname₁ : ∀ x y, name₁ x y → name₁' x y)
    (hname₂ : ∀ x y, name₂ x y → name₂' x y) : f.Composed f₁ f₂ name₁' name₂' k := by
  obtain ⟨-, -, -, hcode₁, hlines₁, hconstants₁⟩ := alike_iff.mp h₁
  obtain ⟨-, -, -, hcode₂, hlines₂, hconstants₂⟩ := alike_iff.mp h₂
  rw [List.forall₂_eq_eq_eq] at hlines₁ hlines₂
  have hlength : f₁.constants.length = g₁.constants.length := hconstants₁.length_eq
  have hinstructions := h₂.instructions_eq
  exact
    { name := h.name
      arity := h.arity
      upvalueCount := h.upvalueCount
      code := by
        unfold Function.relocated
        rw [hcode₁, hcode₂, hlength, hinstructions]
        exact h.code
      operands := by
        rw [hlength, hinstructions]
        exact h.operands
      lines := by
        rw [hlines₁, hlines₂]
        exact h.lines
      constants := by
        obtain ⟨cs₁, cs₂, heq, hcs₁, hcs₂⟩ := h.constants
        refine ⟨cs₁, cs₂, heq, forall₂_comp (fun _ _ _ hc hd => ?_) hconstants₁ hcs₁,
          forall₂_comp (fun _ _ _ hc hd => ?_) hconstants₂ hcs₂⟩
        · exact hc.comp (fun x y z hxy (hyz : y = z) => hyz ▸ hname₁ x y hxy)
            (fun l m n (hlm : l = m) (hmn : m = n) => hlm.trans hmn) hd
        · exact hc.comp (fun x y z hxy (hyz : y = z) => hyz ▸ hname₂ x y hxy)
            (fun l m n (hlm : l = m) (hmn : n = m + k) => hlm ▸ hmn) hd }

end Function

/-! ## Woven lines of two scripts -/

section Woven

variable {β : Type} {line line₁ line₂ : Nat → Nat → Prop}

theorem Woven.length_eq {fs fs' : List (Function β)} {ls ls' : List Nat}
    (h : Woven line fs ls fs' ls') : fs.length = fs'.length := by
  induction h with
  | nil => rfl
  | cell _ _ ih => exact ih
  | closure _ _ _ ih _ => rw [List.length_append, List.length_append, ih]; rfl

theorem Constant.length_functions {cs cs' : List (Constant β)}
    (h : cs.map eraseLines = cs'.map eraseLines) : (functions cs).length = (functions cs').length := by
  have hlength := congrArg List.length (Constant.eraseLines_functions h)
  rwa [List.length_map, List.length_map] at hlength

/-- Constants whose functions are woven of those of two scripts match the constants of these. -/
theorem Constant.alike_of_woven {cs cs₁ cs₂ : List (Constant β)} {fs₁ fs₂ : List (Function β)}
    {ls₁ ls₂ ls₁' ls₂' : List Nat}
    (herased : cs.map eraseLines = cs₁.map eraseLines ++ cs₂.map eraseLines)
    (hfunctions : functions cs = fs₁ ++ fs₂)
    (h₁ : Woven line₁ (functions cs₁) ls₁ fs₁ ls₁') (h₂ : Woven line₂ (functions cs₂) ls₂ fs₂ ls₂') :
    List.Forall₂ line₁ ls₁ ls₁' ∧ List.Forall₂ line₂ ls₂ ls₂' ∧ ∃ cs₁' cs₂', cs = cs₁' ++ cs₂' ∧
      List.Forall₂ (Constant.Alike Eq line₁) cs₁ cs₁' ∧
      List.Forall₂ (Constant.Alike Eq line₂) cs₂ cs₂' := by
  obtain ⟨cs₁', cs₂', rfl, herased₁, herased₂⟩ := List.map_eq_append_iff.mp herased
  rw [functions_append] at hfunctions
  have hlength := (length_functions herased₁).trans h₁.length_eq
  obtain ⟨rfl, rfl⟩ := List.append_inj hfunctions hlength
  obtain ⟨hlines₁, halike₁⟩ := h₁.alike (eraseLines_functions herased₁.symm)
  obtain ⟨hlines₂, halike₂⟩ := h₂.alike (eraseLines_functions herased₂.symm)
  exact ⟨hlines₁, hlines₂, _, _, rfl, alike_of_functions herased₁.symm halike₁,
    alike_of_functions herased₂.symm halike₂⟩

end Woven

/-- What a plan is assembled to. -/
theorem Plan.assembled {β : Type} {w : Width β} {p : Plan} {level : Nat} {f : Function β}
    (h : f.eraseLines = p.assemble w level) : f.name = p.name ∧ f.arity = p.arity ∧
      f.upvalueCount = p.captures.length ∧
      f.code = (cellsOf level p.captures p.code).map w.cell ∧
      f.constants.map Constant.eraseLines = p.constants.map (Item.assemble w (level + 1)) := by
  cases f
  cases p
  simp only [Function.eraseLines, Plan.assemble, Constant.eraseLinesEach_eq, Item.assembleEach_eq,
    Function.mk.injEq, true_and] at h
  exact h

/-! ## Accepted sources -/

namespace Declaration

variable {names : ImplicitNames} {ds ds' : List Declaration}

theorem allowedEach_append (env : Environment) : AllowedEach env (ds ++ ds') ↔
    AllowedEach env ds ∧ AllowedEach (afterEach env ds) ds' := by
  induction ds generalizing env with
  | nil => simp [AllowedEach, afterEach]
  | cons d ds ih =>
      rw [List.cons_append, AllowedEach, AllowedEach, ih, and_assoc]
      rfl

theorem SpelledEach.append {ts us : List Kind} (h : SpelledEach ds ts) (h' : SpelledEach ds' us) :
    SpelledEach (ds ++ ds') (ts ++ us) := by
  induction ds generalizing ts with
  | nil =>
      cases h
      exact h'
  | cons d ds ih =>
      cases h with
      | cons hd hds =>
          rw [List.append_assoc]
          exact .cons hd (ih hds)

/-- Two programs that are within the limits are so one after the other, if their constants are. -/
theorem fits_plan_append {limits : Limits} (h : (plan names ds).Fits limits)
    (h' : (plan names ds').Fits limits) (hcount : Limits.admits limits.constantIndex
      ((plan names ds).constants.length + (plan names ds').constants.length - 1) = true) :
    (plan names (ds ++ ds')).Fits limits := by
  obtain ⟨harity, hcaptures, hcode, -, hslots, hitems⟩ := Plan.fits_iff.mp h
  obtain ⟨-, -, hcode', -, hslots', hitems'⟩ := Plan.fits_iff.mp h'
  obtain ⟨code, hfirst, hboth⟩ := @code_plan_append names ds ds'
  refine Plan.fits_iff.mpr ⟨harity, ?_, ?_, ?_, ?_, ?_⟩
  · rwa [captures_plan] at hcaptures ⊢
  · intro s hs
    rw [hboth, List.mem_append] at hs
    rcases hs with hs | hs
    · exact hcode s (hfirst ▸ List.mem_append_left _ hs)
    · obtain ⟨s', hs', rfl⟩ := List.mem_map.mp hs
      exact (Step.fits_shift _).mpr (hcode' s' hs')
  · rwa [constants_plan_append, List.length_append]
  · rw [slots_plan_append]
    rcases Nat.le_total (plan names ds).slots (plan names ds').slots with hle | hle
    · rwa [Nat.max_eq_right hle]
    · rwa [Nat.max_eq_left hle]
  · intro item hitem
    rw [constants_plan_append, List.mem_append] at hitem
    exact hitem.elim (hitems item) (hitems' item)

end Declaration

namespace Compilation

variable {source more : Bytes} {table : SymbolTable}

/-- What an accepted source is, with the clean run of its program. -/
theorem Accepts.run {β : Type} {w : Width β} {f : Function β} (h : Accepts w source table f) :
    ∃ ds ts t, Declaration.SpelledEach ds ts ∧ Scans source table ts ∧
      Cleanly (Declaration.compileProgram ds : Compile w.settings (Function β))
        (first source table) f t ∧
      Declaration.AllowedEach (.script (implicitNames table).1) ds ∧
      (Declaration.plan (implicitNames table).1 ds).Fits w.limits ∧
      f.eraseLines = (Declaration.plan (implicitNames table).1 ds).assemble w 0 := by
  obtain ⟨t, hscript⟩ := accepts_iff_cleanly.mp h
  obtain ⟨ds, ts, hds, hprogram⟩ := script_reads hscript
  have hscans : Scans source table ts :=
    (scans_iff hds.no_end).mpr ⟨_, (Declaration.reads_compileProgram hds) hprogram⟩
  exact ⟨ds, ts, t, hds, hscans, hprogram,
    Declaration.program_sound hds hscans.spared (Drafts.describes_script _) hprogram⟩

/-- Two sources that are accepted, the second one with the names of the first one stored before, are
accepted one after the other, and compile to a script that is composed of theirs. -/
theorem Accepts.append_line {f₁ f₂ : Function UInt8} (h₁ : Accepts .byte source table f₁)
    (h₂ : Accepts .byte more (symbolsOf source table) f₂)
    (hcount : f₁.constants.length + f₂.constants.length ≤ 256) :
    ∃ f, Accepts .byte (source ++ byteOf '\n' :: more) table f ∧
      f.Composed f₁ f₂ Eq Eq (source.count (byteOf '\n') + 1) := by
  obtain ⟨ds, ts, t₁, hds, hscans, hprogram₁, hallowed, hfits, herased₁⟩ := h₁.run
  obtain ⟨ds', us, t₂, hds', hscans', hprogram₂, hallowed', hfits', herased₂⟩ := h₂.run
  have hnames := congrArg Prod.fst (implicitNames_symbolsOf source table)
  rw [hnames] at hallowed' hfits' herased₂
  have hspelled := hds.append hds'
  have hscanned := hscans.append_line hscans'
  obtain ⟨-, -, -, hcode₁, hconstants₁⟩ := Plan.assembled herased₁
  obtain ⟨-, -, -, -, hconstants₂⟩ := Plan.assembled herased₂
  have hlength₁ := congrArg List.length hconstants₁
  have hlength₂ := congrArg List.length hconstants₂
  simp only [List.length_map] at hlength₁ hlength₂
  -- both programs together are allowed and within the limits
  have hallowed_both := (Declaration.allowedEach_append _).mpr
    ⟨hallowed, (Declaration.afterEach_script ds).symm ▸ hallowed'⟩
  have hfits_both := Declaration.fits_plan_append hfits hfits' (by
    simp only [Width.byte, Limits.byte, Limits.admits, decide_eq_true_eq]
    omega)
  obtain ⟨r, htakes⟩ := (scans_iff (β := UInt8) hspelled.no_end).mp hscanned
  obtain ⟨f, t, hprogram⟩ := Declaration.program_complete (w := .byte) hspelled hscanned.spared
    (Drafts.describes_script _) htakes hallowed_both hfits_both
  have hf := script_accepts hspelled hprogram (Nat.lt_succ_self _)
  obtain ⟨-, -, herased⟩ := Declaration.program_sound hspelled hscanned.spared
    (Drafts.describes_script _) hprogram
  obtain ⟨hname, harity, hupvalues, hcode, hconstants⟩ := Plan.assembled herased
  rw [Declaration.constants_plan_append, List.map_append, ← hconstants₁, ← hconstants₂] at hconstants
  -- their lines are those of the two programs on their own
  obtain ⟨standing, last, later, hitems, hlast, hstanding, hwhole, hlater, -⟩ :=
    items_append_line hscans more
  unfold first at hprogram₁ hprogram₂
  rw [hitems] at hprogram₁
  rw [hnames] at hprogram₂
  rw [hwhole] at hprogram
  obtain ⟨ls₁, l, fs, ls, fs', ls', hlines₁, hfunctions, hlines, hwoven₁, hwoven₂⟩ :=
    hprogram₁.woven_append hds hds' hscans.spared (hnames ▸ hscans'.spared) hstanding hlast hscans'
      hlater hprogram₂ hprogram
  obtain ⟨hsame, hshifted, hboth⟩ := Constant.alike_of_woven hconstants hfunctions hwoven₁ hwoven₂
  obtain ⟨code, hfirst, hcombined⟩ :=
    @Declaration.code_plan_append (implicitNames table).1 ds ds'
  have hcompiled₂ : (Declaration.scriptBody (implicitNames table).1 ds').CompiledTo f₂ :=
    { proper := hds'.proper_bodies _ _ List.mem_cons_self
      fits := Declaration.plan_eq _ ds' ▸ hfits'
      erased := Declaration.plan_eq _ ds' ▸ herased₂ }
  refine ⟨f, accepts_iff_cleanly.mpr ⟨t, hf⟩, ?_⟩
  exact
    { name := hname
      arity := harity
      upvalueCount := by rw [hupvalues, Declaration.captures_plan]; rfl
      code := by
        refine ⟨(cellsOf 0 [] code).map UInt8.ofNat, ?_, ?_⟩
        · rw [hcode₁, Declaration.captures_plan, hfirst, cellsOf_append, List.map_append]
          rfl
        · rw [hcode, Declaration.captures_plan, hcombined, cellsOf_append, List.map_append,
            hcompiled₂.relocated_eq, ← Declaration.plan_eq, Declaration.captures_plan, hlength₁]
          rfl
      operands := fun item hitem index href => by
        have := hcompiled₂.reference_lt hitem href
        omega
      lines := by
        have hmoved : List.Forall₂ Eq (f₂.lines.map (· + (source.count (byteOf '\n') + 1))) ls' :=
          List.forall₂_map_left_iff.mpr (hshifted.imp fun _ _ h => h.symm)
        rw [List.forall₂_eq_eq_eq] at hsame hmoved
        exact ⟨ls₁, l, hlines₁, by rw [hlines, hsame, hmoved]⟩
      constants := hboth }

/-- The same source with another table before compiles to a script that is alike. -/
theorem Accepts.alike {f : Function UInt8} (h : Accepts .byte source table f)
    (table' : SymbolTable) :
    ∃ g, Accepts .byte source table' g ∧
      f.Alike ((symbolsOf source table).SameName (symbolsOf source table')) Eq g := by
  have hsame : List.Forall₂ (Scanned.SameKind Eq) (Scanned.ofSource source)
      (Scanned.ofSource source) := by
    refine List.forall₂_same.mpr fun item _ => ?_
    cases item with
    | error e => rfl
    | ok token => exact ⟨rfl, rfl⟩
  obtain ⟨d, hd, hf⟩ := h
  obtain ⟨c, c', hc, hc', hmatches⟩ := matches_of_sameKind (w := .byte) hsame rfl table table'
  cases hd.symm.trans hc
  have hsymbols : d.symbols = symbolsOf source table := symbols_ofSourceWith hd
  have hsymbols' : c'.symbols = symbolsOf source table' := symbols_ofSourceWith hc'
  rw [← hsymbols, ← hsymbols']
  rcases hmatches with ⟨f', g, hf', hg, halike⟩ | ⟨ds, -, hds, -⟩
  · cases hf.symm.trans hf'
    exact ⟨g, ⟨c', hc', hg⟩, halike⟩
  · cases hf.symm.trans hds

/-- Top-level compilation is compositional. If two sources compile, with whatever tables, and have no
more constants than a script can have, then they compile one after the other, with a line break
between. The script has the code, the lines and the constants of both. -/
theorem composed_of_line_break {c₁ c₂ : Compilation UInt8} {f₁ f₂ : Function UInt8}
    {table₁ table₂ : SymbolTable} (hc₁ : ofSource source table₁ = .ok c₁) (hf₁ : c₁.result = .ok f₁)
    (hc₂ : ofSource more table₂ = .ok c₂) (hf₂ : c₂.result = .ok f₂)
    (hcount : f₁.constants.length + f₂.constants.length ≤ 256) (table : SymbolTable) :
    ∃ c f, ofSource (source ++ byteOf '\n' :: more) table = .ok c ∧ c.result = .ok f ∧
      f.Composed f₁ f₂ (c₁.symbols.SameName c.symbols) (c₂.symbols.SameName c.symbols)
        (source.count (byteOf '\n') + 1) := by
  have hsymbols₁ := symbols_ofSourceWith hc₁
  have hsymbols₂ := symbols_ofSourceWith hc₂
  -- with the tables of the two sources one after the other, their symbols are those of the whole
  obtain ⟨g₁, hg₁, halike₁⟩ := Accepts.alike ⟨c₁, hc₁, hf₁⟩ table
  obtain ⟨g₂, hg₂, halike₂⟩ := Accepts.alike ⟨c₂, hc₂, hf₂⟩ (symbolsOf source table)
  have hlength₁ := (Function.alike_iff.mp halike₁).2.2.2.2.2.length_eq
  have hlength₂ := (Function.alike_iff.mp halike₂).2.2.2.2.2.length_eq
  obtain ⟨f, ⟨c, hc, hf⟩, hcomposed⟩ := hg₁.append_line hg₂ (by omega)
  obtain ⟨_, ts, _, -, hscans, -⟩ := hg₁.run
  obtain ⟨_, _, _, -, -, -, -, -, hwhole⟩ := items_append_line hscans more
  have hsymbols := (symbols_ofSourceWith hc).trans hwhole
  refine ⟨c, f, hc, hf, hcomposed.of_alike halike₁ halike₂ ?_ ?_⟩
  · rintro x y ⟨name, hx, hy⟩
    have hextends := extends_symbolsOf source more table
    exact ⟨name, hsymbols₁ ▸ hx, hsymbols ▸ hextends.resolve? hy⟩
  · rintro x y ⟨name, hx, hy⟩
    exact ⟨name, hsymbols₂ ▸ hx, hsymbols ▸ hy⟩

/-- A source that compiles, with the number of its constants. -/
theorem exists_of_constants {source : Bytes} {n : Nat}
    (h : (compiled? source).map (fun f => f.constants.length) = some n) :
    ∃ c f, ofSource source .empty = .ok c ∧ c.result = .ok f ∧ f.constants.length = n := by
  obtain ⟨_, hcompiled, -⟩ := Option.map_eq_some_iff.mp h
  obtain ⟨c, f, hc, hf⟩ := exists_of_compiled? (Option.isSome_of_eq_some hcompiled)
  refine ⟨c, f, hc, hf, ?_⟩
  unfold compiled? at h
  rw [hc] at h
  simpa [Except.toOption, hf] using h

/-- The source `fun f() { print f; }`. -/
def declaring : Bytes :=
  ascii ['f', 'u', 'n', ' ', 'f', '(', ')', '\x7b', 'p', 'r', 'i', 'n', 't', ' ', 'f', ';', '\x7d']

/-- The source `f();`. -/
def calling : Bytes := ascii ['f', '(', ')', ';']

/-- A function and a call of it, on two lines. -/
theorem composed_of_declaration_and_call : ∃ c₁ f₁ c₂ f₂, ofSource declaring .empty = .ok c₁ ∧
    c₁.result = .ok f₁ ∧ ofSource calling .empty = .ok c₂ ∧ c₂.result = .ok f₂ ∧
    f₁.constants.length + f₂.constants.length ≤ 256 ∧
    ∃ c f, ofSource (declaring ++ byteOf '\n' :: calling) .empty = .ok c ∧ c.result = .ok f ∧
      f.Composed f₁ f₂ (c₁.symbols.SameName c.symbols) (c₂.symbols.SameName c.symbols)
        (declaring.count (byteOf '\n') + 1) := by
  obtain ⟨c₁, f₁, hc₁, hf₁, hcount₁⟩ := @exists_of_constants declaring 2
    (by decide +kernel)
  obtain ⟨c₂, f₂, hc₂, hf₂, hcount₂⟩ := @exists_of_constants calling 1
    (by decide +kernel)
  have hcount : f₁.constants.length + f₂.constants.length ≤ 256 := by omega
  exact ⟨c₁, f₁, c₂, f₂, hc₁, hf₁, hc₂, hf₂, hcount,
    composed_of_line_break hc₁ hf₁ hc₂ hf₂ hcount .empty⟩

end Compilation

end LoxCompiler
