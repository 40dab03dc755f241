import LoxCompiler.Proofs.Parsing.DeclarationComplete
import LoxCompiler.Proofs.Parsing.Tokens
import LoxCompiler.Proofs.Scanning.Source
import LoxCompiler.Proofs.Simulation.Declaration

/-! # Compiling scripts

A source is accepted exactly if its tokens spell a program that the static rules allow and whose
plan is within the limits, and then it compiles to what the plan assembles to.
-/

namespace LoxCompiler

open Compile

set_option synthInstance.maxSize 4096

variable {β : Type} {w : Width β}

/-- The functions in the making before a program: there is only an empty script. -/
def Drafts.script (names : ImplicitNames) : Drafts :=
  ⟨names, [], ⟨.script, none, 0, .anonymous, [], none, ∅⟩, []⟩

namespace Drafts

variable {names : ImplicitNames}

theorem valid_script : (script names).Valid where
  each := ⟨⟨fun _ hv => absurd hv List.not_mem_nil, fun _ hs => absurd hs List.not_mem_nil⟩, trivial⟩
  ready _ h := absurd h List.not_mem_nil

theorem describes_script (items : List (Scanned Symbol)) :
    (script names).Describes w (Compilation.start names items : Session β) where
  names := rfl
  classes := rfl
  frames := by
    refine ⟨?_, trivial⟩
    exact
      { kind := rfl
        name := rfl
        arity := rfl
        code := rfl
        constants := rfl
        jumps := fun _ hoperand => absurd hoperand (List.not_mem_nil)
        locals := rfl
        upvalues := rfl
        depth := rfl }

/-- The script before it is finished. -/
def afterProgram (names : ImplicitNames) (ds : List Declaration) : Drafts :=
  (((script names).emit (Declaration.fragmentEach (.script names) ds)).moveTo
    (Declaration.afterEach (.script names) ds)).emit (.steps FunctionKind.script.returnSteps)

theorem plan_afterProgram (ds : List Declaration) :
    (afterProgram names ds).current.piece.plan 0 none 0 = Declaration.plan names ds := by
  unfold Declaration.plan
  congr 1

theorem fits_script {limits : Limits} : (script names).Fits limits := by
  have hadmits : ∀ limit : Option Nat, Limits.admits limit 0 = true := by
    intro limit
    cases limit <;> rfl
  refine ⟨Plan.fits_iff.mpr ?_, trivial⟩
  exact ⟨hadmits _, hadmits _, fun _ h => absurd h List.not_mem_nil, hadmits _, hadmits _,
    fun _ h => absurd h List.not_mem_nil⟩

theorem fits_afterProgram {limits : Limits} {ds : List Declaration} :
    (afterProgram names ds).Fits limits ↔ (Declaration.plan names ds).Fits limits := by
  rw [← plan_afterProgram, fits_iff]
  exact and_iff_left trivial

end Drafts

namespace Declaration

variable {names : ImplicitNames} {ds : List Declaration} {ts : List Kind} {s t : Session β}
  (hds : SpelledEach ds ts) (hspared : names.Spared ts)

/-- A whole program, up to the return at its end. -/
def compileUpToReturn (ds : List Declaration) : Compile w.settings Unit := do
  compileEach ds
  expect .endOfInput
  emitReturn

theorem compileProgram_eq : (compileProgram ds : Compile w.settings (Function β)) =
    compileUpToReturn ds >>= fun _ => Prod.fst <$> takeFrame := by
  rw [compileProgram, compileUpToReturn, endFrame_eq]
  simp only [bind_assoc, map_eq_pure_bind]

include hds hspared in
theorem meets_program : Meets (.script names) (ts ++ [.endOfInput])
    (compileUpToReturn ds : Compile w.settings Unit) () (AllowedEach (.script names) ds)
    (.afterProgram names ds) :=
  (compilesEach hds (D := .script names) rfl hspared).last fun _ => .token .emitReturn

include hds in
theorem reads_compileProgram :
    Reads (ts ++ [.endOfInput]) (compileProgram ds : Compile w.settings (Function β)) := by
  unfold compileProgram
  exact hds.reads.bind fun _ => (Reads.expect _).before

theorem run_takeScript (ht : (Drafts.afterProgram names ds).Describes w t) :
    ∃ f u, (Prod.fst <$> takeFrame : Compile w.settings (Function β)).run t = .ok (f, u) ∧
      u.reader = t.reader ∧ f.eraseLines = (plan names ds).assemble w 0 := by
  obtain ⟨_, _, f, frames, hframes, hf, _⟩ := (Drafts.describes_iff _).mp ht
  obtain ⟨events, htake⟩ := run_takeFrame (w := w) hframes
  refine ⟨f.finish, { t with frames, events }, ?_, rfl, ?_⟩
  · rw [map_eq_pure_bind, run_bind_of_ok htake]
    rfl
  · rw [← Drafts.plan_afterProgram]
    exact hf.eraseLines_finish

instance : Orderly (compileUpToReturn ds : Compile w.settings Unit) := by
  unfold compileUpToReturn
  infer_instance

instance : Orderly (Prod.fst <$> takeFrame : Compile w.settings (Function β)) := by
  rw [map_eq_pure_bind]
  infer_instance

include hds hspared in
/-- A program that compiles is allowed, and compiles to what its plan assembles to. -/
theorem program_sound {f : Function β} (hs : (Drafts.script names).Describes w s)
    (h : Cleanly (compileProgram ds : Compile w.settings (Function β)) s f t) :
    AllowedEach (.script names) ds ∧ (plan names ds).Fits w.limits ∧
      f.eraseLines = (plan names ds).assemble w 0 := by
  rw [compileProgram_eq] at h
  obtain ⟨_, u, hprogram, htake⟩ := h.of_bind
  obtain ⟨_, hallowed, hfits, _, hu⟩ :=
    (meets_program hds hspared).sound Drafts.valid_script Drafts.fits_script hs hprogram
  obtain ⟨g, _, hrun, _, hg⟩ := run_takeScript hu
  cases htake.run.symm.trans hrun
  exact ⟨hallowed, Drafts.fits_afterProgram.mp hfits, hg⟩

include hds hspared in
/-- A program that is allowed compiles. -/
theorem program_complete {r : Reader} (hs : (Drafts.script names).Describes w s)
    (htakes : s.reader.Takes (ts ++ [.endOfInput]) r) (hallowed : AllowedEach (.script names) ds)
    (hfits : (plan names ds).Fits w.limits) :
    ∃ f t, Cleanly (compileProgram ds : Compile w.settings (Function β)) s f t := by
  have hfits' := Drafts.fits_afterProgram.mpr hfits
  obtain ⟨_, u, hprogram⟩ :=
    (meets_program hds hspared).complete Drafts.valid_script hs htakes hallowed hfits'
  obtain ⟨_, _, _, _, hu⟩ :=
    (meets_program hds hspared).sound Drafts.valid_script Drafts.fits_script hs hprogram
  obtain ⟨f, t, hrun, hreader, _⟩ := run_takeScript hu
  have htake : Cleanly (Prod.fst <$> takeFrame : Compile w.settings (Function β)) u f t :=
    ⟨hprogram.after, hrun, hreader ▸ hprogram.after⟩
  rw [compileProgram_eq]
  exact ⟨f, t, hprogram.bind htake⟩

end Declaration

end LoxCompiler
