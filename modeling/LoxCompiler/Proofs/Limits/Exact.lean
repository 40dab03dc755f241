import LoxCompiler.Proofs.Limits.Constructs
import LoxCompiler.Proofs.Machine.Resolution
import LoxCompiler.Proofs.Safety.Source

/-! # Limits are exact

A source that compiles with operands of any size compiles to bytes exactly if all numbers that its
code has to hold fit, and then its code is the same: no number is ever cut off. If a number does not
fit, the first one that is met is what the first report is about.
-/

namespace LoxCompiler

open Compile

section EraseLines

variable {β : Type} (w : Width β)

mutual

/-- What is assembled has no source lines. -/
theorem Plan.eraseLines_assemble (level : Nat) (p : Plan) :
    (p.assemble w level).eraseLines = p.assemble w level := by
  obtain ⟨name, arity, captures, code, constants, slots⟩ := p
  rw [Plan.assemble, Function.eraseLines, Item.eraseLinesEach_assembleEach]

theorem Item.eraseLinesEach_assembleEach (level : Nat) (items : List Item) :
    Constant.eraseLinesEach (Item.assembleEach w level items) =
      Item.assembleEach w level items := by
  cases items with
  | nil => rw [Item.assembleEach, Constant.eraseLinesEach]
  | cons item items =>
      rw [Item.assembleEach, Constant.eraseLinesEach, Item.eraseLinesEach_assembleEach]
      cases item with
      | number value | string value => rw [Item.assemble, Constant.eraseLines]
      | function plan => rw [Item.assemble, Constant.eraseLines, Plan.eraseLines_assemble]

end

end EraseLines

/-! ## The cells of a function within the limits -/

namespace FunctionBody.CompiledTo

variable {b : FunctionBody} {g : Function UInt8}

theorem index_lt (h : b.CompiledTo g) {i : Nat} {item : Item}
    (hitem : b.plan.constants[i]? = some item) : i < 256 :=
  Nat.lt_of_lt_of_le (List.getElem?_eq_some_iff.mp hitem).1 h.length_le

theorem idxOf_lt (h : b.CompiledTo g) {v : Variable} (hv : v ∈ b.plan.captures) :
    b.plan.captures.idxOf v < 256 :=
  Nat.lt_of_lt_of_le (List.idxOf_lt_length_of_mem hv) h.captures_le

/-- Where the captured variables of a closure are found is said by bytes. -/
theorem descriptor_lt (h : b.CompiledTo g) {index : Nat} {vs : List Variable}
    (hs : .closure index vs ∈ b.plan.code) {v : Variable} (hv : v ∈ vs) :
    ∀ n ∈ Step.descriptor b.env.level b.plan.captures v, n < 256 := by
  intro n hn
  unfold Step.descriptor at hn
  by_cases hlevel : v.level = b.env.level
  · have hslot : v.slot < max b.last.count (b.fragment 0).slots :=
      b.wellFormed.names _ hs v hv hlevel
    have hroom := h.room_le
    rw [if_pos hlevel, List.mem_pair] at hn
    omega
  · have hindex := h.idxOf_lt ((h.known hs v hv).resolve_left hlevel)
    rw [if_neg hlevel, List.mem_pair] at hn
    omega

/-- All values of cells are bytes. -/
theorem cells_lt (h : b.CompiledTo g) {s : Step} (hs : s ∈ b.plan.code) :
    ∀ n ∈ s.cells b.env.level b.plan.captures, n < 256 := by
  have hrefers := h.refers hs
  have hknown := h.known hs
  have hfits := (Plan.fits_iff.mp h.fits).2.2.1 s hs
  have hop (op : Opcode) : op.toByte.toNat < 256 := op.toByte.toNat_lt
  cases s with
  | simple op =>
      exact List.forall_mem_singleton.mpr (hop op)
  | byte op operand =>
      have hoperand : operand < 256 := by
        obtain ⟨hbyte, hget, hset⟩ := hrefers
        cases op <;> cases hbyte
        · exact h.slot_lt (.inl rfl) operand hs
        · exact h.slot_lt (.inr rfl) operand hs
        · exact (hget rfl).elim
        · exact (hset rfl).elim
        · exact Nat.lt_succ_of_le (of_decide_eq_true hfits)
      simp [Step.cells, hop, hoperand]
  | captured op v => simp [Step.cells, hop, h.idxOf_lt hknown]
  | constant op index =>
      obtain ⟨-, item, hitem, -⟩ := hrefers
      simp [Step.cells, hop, h.index_lt hitem]
  | invoke op index arguments =>
      obtain ⟨-, item, hitem, -⟩ := hrefers
      have harguments : arguments < 256 := Nat.lt_succ_of_le (of_decide_eq_true hfits)
      simp [Step.cells, hop, h.index_lt hitem, harguments]
  | jump op distance =>
      have hdistance : distance ≤ 65535 := of_decide_eq_true hfits
      have hhigh : distance / 256 < 256 := by omega
      have hlow : distance % 256 < 256 := by omega
      simp [Step.cells, hop, hhigh, hlow]
  | pending op => simp [Step.cells, hop]
  | closure index vs =>
      obtain ⟨plan, hplan, -⟩ := hrefers
      rw [Step.cells, List.forall_mem_cons, List.forall_mem_cons, List.forall_mem_flatMap]
      exact ⟨hop _, h.index_lt hplan, fun v hv => h.descriptor_lt hs hv⟩

end FunctionBody.CompiledTo

namespace Compilation

variable {source : Bytes} {table : SymbolTable}

/-- Within the limits of bytes, all cells are bytes. -/
theorem Accepts.cells_lt {f : Function Nat} (h : Accepts (Width.bounded id) source table f) :
    ∀ g ∈ f.family, ∀ cell ∈ g.code, cell < 256 := by
  intro g hg cell hcell
  obtain ⟨ds, -, hassembled⟩ := h.assembled
  obtain ⟨b, -, hproper, hfits, herased⟩ := exists_compiledTo hassembled hg
  have hcompiled : b.CompiledTo (b.plan.assemble .byte b.env.level) :=
    ⟨hproper, hfits, Plan.eraseLines_assemble _ _ _⟩
  have hcode : g.code = cellsOf b.env.level b.plan.captures b.plan.code := by
    have hcode := congrArg Function.code herased
    cases g
    exact hcode.trans (List.map_id _)
  rw [hcode] at hcell
  obtain ⟨s, hs, hn⟩ := List.mem_flatMap.mp hcell
  exact hcompiled.cells_lt hs cell hn

/-- While a source is compiled with operands of any size, these numbers are met in this order: a run
stops at the first of them that it may not come to, and otherwise it ends. -/
def Numbers (source : Bytes) (table : SymbolTable) (qs : List Quantity) : Prop :=
  ∀ passes, ofSourceWith (Width.unbounded.within passes) source table =
    Quantity.stopping passes qs (ofSourceWith .unbounded source table)

/-- How many declarations there may be inside each other in a source. -/
def budget (source : Bytes) (table : SymbolTable) : Nat :=
  (first source table : Session Nat).reader.remaining + 1

theorem mapCells_first {β : Type} (cell : Nat → β) :
    (first source table : Session Nat).mapCells cell = first source table := by
  unfold first start
  rw [Session.mapCells, List.map_cons, Frame.mapCells_new, List.map_nil]

/-- With the limits of bytes, a source is compiled in the same way if all numbers fit, and if not,
the oldest report is of the first one that does not fit. -/
theorem exists_fitting {β : Type} (cell : Nat → β) {f : Function Nat} {t : Session Nat}
    {qs : List Quantity}
    (hclean : Cleanly
      (script (budget source table) : Compile Width.unbounded.settings (Function Nat))
      (first source table) f t)
    (hqs : Measures (fun _ => script (budget source table)) (first source table) f t qs) :
    ∃ g u, ofSourceWith (Width.bounded cell).settings source table =
        .ok (outcome source table (g, u)) ∧
      u.reader.Blank ∧ Fitting cell (fun b a => b = a.mapCells cell) qs f t g u := by
  obtain ⟨g, u, hrun⟩ := runs_ofItems (w := Width.bounded cell) (implicitNames table).1
    (items source table)
  have hblank : (Reader.start (items source table)).Blank :=
    Reader.stable_blank.advance _ fun _ => rfl
  have hfirst : (script (budget source table) : Limited cell _).run
      (first source table) = .ok (g, u) := hrun
  have hsame : (first source table : Session Nat).mapCells cell = first source table :=
    mapCells_first cell
  refine ⟨g, u, ?_, Orderly.keeps Reader.stable_blank hfirst hblank,
    (agrees_script _).fitting hclean hblank hqs (hsame ▸ hfirst)⟩
  rw [ofSourceWith_eq]
  exact congrArg (Except.bind · _) hfirst

/-- Without a report, the outcome is the function. -/
theorem result_outcome_of_quiet {β : Type} {f : Function β} {s : Session β} (h : s.reader.Quiet) :
    (outcome source table (f, s)).result = .ok f := by
  unfold outcome
  dsimp only
  rw [h.noError]
  rfl

/-- With a report, the outcome is what was reported. -/
theorem result_outcome_of_opens {β : Type} {f : Function β} {s : Session β}
    {problem : Diagnostic.Problem} (hblank : s.reader.Blank) (h : s.reader.Opens problem) :
    ∃ ds d, (outcome source table (f, s)).result = .error ds ∧ ds.head? = some d ∧
      d.problem = problem := by
  have herror : s.reader.hadError = true := by
    by_contra hnot
    rw [Reader.Opens, hblank (Bool.eq_false_iff.mpr hnot)] at h
    cases h
  obtain ⟨d, hd, hproblem⟩ := Option.map_eq_some_iff.mp h
  refine ⟨s.reader.diagnostics.reverse, d, ?_, ?_, hproblem⟩
  · unfold outcome
    dsimp only
    rw [if_pos herror]
  · rw [List.head?_reverse, hd]

/-- Limits are exact. Let a source compile with operands of any size, and let the numbers that are
met on the way be known in their order: the indices of constants and of captured variables, the
slots of locals, the counts of parameters and of arguments, and the distances of jumps. Then the
source compiles to bytes if and only if all of them fit, and each byte is the value of its cell. If
there is a number that does not fit, the first report is of the first such number. -/
theorem exact_family {cu : Compilation Nat} {fu : Function Nat}
    (hcu : ofSourceWith .unbounded source table = .ok cu) (hfu : cu.result = .ok fu) :
    ∃ qs c, Numbers source table qs ∧ ofSource source table = .ok c ∧
      ((∃ f, c.result = .ok f) ↔ ∀ q ∈ qs, q.fits = true) ∧
      (∀ f, c.result = .ok f → f.mapCells UInt8.toNat = fu) ∧
      ∀ ds, c.result = .error ds → ∃ q d, qs.find? (!·.fits) = some q ∧ ds.head? = some d ∧
        d.problem = q.problem := by
  obtain ⟨t, hclean⟩ := accepts_iff_cleanly.mp (⟨cu, hcu, hfu⟩ : Accepts .unbounded source table fu)
  have hagrees : Agrees (fun b a => b = a.mapCells id)
      (script (budget source table) : Limited id (Function Nat)) fun _ => script _ :=
    agrees_script _
  obtain ⟨qs, hqs⟩ := hagrees.measuring.exists_measures hclean.run
  obtain ⟨g, u, hc, hblank, hfitting⟩ := exists_fitting UInt8.ofNat hclean hqs
  obtain ⟨g', u', hc', -, hfitting'⟩ := exists_fitting id hclean hqs
  have hnumbers : Numbers source table qs := by
    have hend : ofSourceWith .unbounded source table = .ok (outcome source table (fu, t)) := by
      rw [ofSourceWith_eq]
      exact congrArg (Except.bind · _) hclean.run
    intro passes
    rw [hend, ofSourceWith_eq]
    exact (congrArg (Except.bind · _) (hqs passes)).trans (Quantity.stopping_bind ..)
  refine ⟨qs, _, hnumbers, hc, ?_⟩
  unfold Fitting at hfitting hfitting'
  cases hfind : qs.find? (!·.fits) with
  | none =>
      rw [hfind] at hfitting hfitting'
      obtain ⟨rfl, rfl⟩ := hfitting
      obtain ⟨rfl, rfl⟩ := hfitting'
      rw [Function.mapCells_eq_self (g := id) fu fun _ _ _ _ => rfl] at hc'
      have hcells := Accepts.cells_lt ⟨_, hc', result_outcome_of_quiet hclean.after⟩
      have hback : (fu.mapCells UInt8.ofNat).mapCells UInt8.toNat = fu := by
        rw [Function.mapCells_mapCells]
        refine Function.mapCells_eq_self fu fun k hk cell hcell => ?_
        rw [UInt8.toNat_ofNat', Nat.mod_eq_of_lt (hcells k hk cell hcell)]
      rw [result_outcome_of_quiet (s := t.mapCells UInt8.ofNat) hclean.after]
      refine ⟨⟨fun _ q hq => ?_, fun _ => ⟨_, rfl⟩⟩, fun f hf => ?_, nofun⟩
      · simpa using List.find?_eq_none.mp hfind q hq
      · cases hf
        exact hback
  | some q =>
      rw [hfind] at hfitting
      have hopens : u.reader.Opens q.problem := hfitting
      obtain ⟨ds, d, hresult, hd, hproblem⟩ := result_outcome_of_opens hblank hopens
      rw [hresult]
      refine ⟨⟨nofun, fun hall => ?_⟩, nofun, fun ds' hds => ?_⟩
      · have hnot := List.find?_some hfind
        rw [hall q (List.mem_of_find?_eq_some hfind)] at hnot
        cases hnot
      · cases hds
        exact ⟨q, d, rfl, hd, hproblem⟩

/-- The source with 257 statements `0;`, which has one constant too many. -/
def manyConstants : Bytes := ascii (List.replicate 257 ['0', ';']).flatten

/-- The first number of a source that does not fit, if there is one. -/
def refused? (source : Bytes) : Option Quantity :=
  match ofSourceWith (Width.unbounded.within Quantity.fits) source .empty with
  | .error (.refused q) => some q
  | _ => none

/-- With operands of any size there may be any number of constants. -/
theorem compiles_manyConstants :
    ∃ cu fu, ofSourceWith .unbounded manyConstants .empty = .ok cu ∧ cu.result = .ok fu := by
  have hok : (((ofSourceWith .unbounded manyConstants .empty).toOption.bind fun c =>
      c.result.toOption).isSome) = true := by decide +kernel
  cases hcu : ofSourceWith .unbounded manyConstants .empty with
  | error fault =>
      rw [hcu] at hok
      cases hok
  | ok cu =>
      cases hfu : cu.result with
      | error diagnostics =>
          rw [hcu] at hok
          simp [Except.toOption, hfu] at hok
      | ok fu => exact ⟨cu, fu, rfl, hfu⟩

/-- The constant with the index 256 is the first one that is too many. -/
theorem exact_of_many_constants : ∃ cu fu c ds d,
    ofSourceWith .unbounded manyConstants .empty = .ok cu ∧ cu.result = .ok fu ∧
      ofSource manyConstants .empty = .ok c ∧ c.result = .error ds ∧ ds.head? = some d ∧
      d.problem = .tooManyConstants := by
  have hrefused : refused? manyConstants = some (.constantIndex 256) := by decide +kernel
  obtain ⟨cu, fu, hcu, hfu⟩ := compiles_manyConstants
  obtain ⟨qs, c, hnumbers, hc, hiff, -, herror⟩ := exact_family hcu hfu
  have hfirst : qs.find? (!·.fits) = some (.constantIndex 256) := by
    rw [refused?, hnumbers Quantity.fits, hcu, Quantity.stopping] at hrefused
    cases hfind : qs.find? (!·.fits) with
    | none =>
        rw [hfind] at hrefused
        cases hrefused
    | some q =>
        rw [hfind] at hrefused
        exact hrefused
  cases hresult : c.result with
  | ok f =>
      have hfits := hiff.mp ⟨f, hresult⟩ _ (List.mem_of_find?_eq_some hfirst)
      cases hfits
  | error ds =>
      obtain ⟨q, d, hq, hd, hproblem⟩ := herror ds hresult
      rw [hfirst] at hq
      cases hq
      exact ⟨cu, fu, c, ds, d, hcu, hfu, hc, hresult, hd, hproblem⟩

end Compilation

end LoxCompiler
