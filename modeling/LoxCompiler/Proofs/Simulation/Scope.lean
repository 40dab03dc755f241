import LoxCompiler.Proofs.Simulation.Emission

/-! # Scopes and locals

Entering a scope, declaring a local, making it readable, and leaving the scope. What a whole
construct does to its environment comes from these four.
-/

namespace LoxCompiler

open Compile

variable {β : Type} {w : Width β}

namespace Drafts

variable (D : Drafts)

/-- The same functions with the scopes of an environment. -/
def moveTo (env : Environment) : Drafts := D.change fun d => { d with scopes := env.scopes }

@[simp] theorem emit_moveTo (env : Environment) (f : Fragment) :
    (D.moveTo env).emit f = (D.emit f).moveTo env := rfl

@[simp] theorem moveTo_moveTo (env env' : Environment) : (D.moveTo env).moveTo env' = D.moveTo env' :=
  rfl

@[simp] theorem fresh_moveTo (env : Environment) : (D.moveTo env).current.fresh = D.current.fresh :=
  rfl

@[simp] theorem env_moveTo_declare (name : Symbol) :
    (D.moveTo (D.env.declare name)).env = D.env.declare name :=
  (D.env.declare_eq name).symm

/-- Have a local that cannot be read yet. -/
def hold (fresh : Option Symbol) : Drafts := D.change fun d => { d with fresh }

@[simp] theorem env_hold (fresh : Option Symbol) : (D.hold fresh).env = D.env := rfl

@[simp] theorem emit_hold (fresh : Option Symbol) (f : Fragment) :
    (D.hold fresh).emit f = (D.emit f).hold fresh := rfl

@[simp] theorem hold_hold (fresh fresh' : Option Symbol) :
    (D.hold fresh).hold fresh' = D.hold fresh' := rfl

@[simp] theorem fresh_hold (fresh : Option Symbol) : (D.hold fresh).current.fresh = fresh := rfl

theorem hold_of_fresh {fresh : Option Symbol} (h : D.current.fresh = fresh) : D.hold fresh = D := by
  subst h
  rfl

end Drafts

/-- A function after its innermost scope. -/
def Draft.leave (level : Nat) (d : Draft) : Draft :=
  match d.scopes with
  | [] => d
  | scope :: outer =>
      { d with
        scopes := outer
        piece := d.piece.drop level (outer.flatten ++ [d.receiver]).length scope.length }

/-- Leave the innermost scope. -/
def Drafts.leave (D : Drafts) : Drafts := D.change (Draft.leave D.level)

namespace Compile.Meets

variable {D : Drafts}

theorem beginScope : Meets D [] (beginScope : Compile w.settings Unit) () True
    (D.moveTo D.env.enter) := by
  apply of_change True (g := fun d => { d with scopes := D.env.enter.scopes }) rfl
  · exact fun hv => ⟨hv.live, hv.known⟩
  · exact (and_iff_left trivial).symm
  · intro s f frames hframes _ hf
    refine .inl ⟨trivial, _, _, run_modifyFrame _ hframes, ?_⟩
    exact
      { kind := hf.kind
        name := hf.name
        arity := hf.arity
        code := hf.code
        constants := hf.constants
        jumps := hf.jumps
        locals := hf.locals
        upvalues := hf.upvalues
        depth := congrArg (· + 1) hf.depth }

end Compile.Meets

section Leave

variable {level : Nat} {around : List Variable} {d : Draft} {scope : List Symbol}
  {outer : List (List Symbol)} (hscopes : d.scopes = scope :: outer)
include hscopes

/-- The locals that stay when the innermost scope is left. -/
def Draft.kept (d : Draft) : Nat := (d.scopes.tail.flatten ++ [d.receiver]).length

theorem Draft.leave_eq (level : Nat) : d.leave level = { d with
    scopes := outer, piece := d.piece.drop level d.kept scope.length } := by
  unfold Draft.leave Draft.kept
  rw [hscopes]
  rfl

theorem exported_leave : exported level (d.leave level).piece.uses = exported level d.piece.uses := by
  rw [Draft.leave_eq hscopes]
  unfold exported Piece.drop
  rw [List.filter_filter]
  apply List.filter_congr
  intro v _
  by_cases hlevel : v.level = level <;> simp [hlevel]

theorem mem_uses_leave {v : Variable} : v ∈ (d.leave level).piece.uses ↔
    v ∈ d.piece.uses ∧ ¬ (v.level = level ∧ d.kept ≤ v.slot) := by
  rw [Draft.leave_eq hscopes]
  simp [Piece.drop, imp_iff_not_or]

theorem captureAll_leave :
    captureAll level (d.leave level).piece.uses = captureAll level d.piece.uses :=
  captureAll_eq_of_exported (exported_leave hscopes)

theorem code_leave : (d.leave level).piece.code =
    d.piece.code ++ Piece.dropSteps level d.kept d.piece.uses scope.length := by
  rw [Draft.leave_eq hscopes]
  rfl

/-- Leaving a scope drops its locals, and with them what was captured of them. -/
theorem Draft.Valid.leave (h : d.Valid level d.piece.uses) :
    (d.leave level).Valid level (d.leave level).piece.uses where
  live v hv hlevel := by
    rw [mem_uses_leave hscopes] at hv
    rw [leave_eq hscopes]
    have hkept : d.kept = (outer.flatten ++ [d.receiver]).length := by
      rw [kept, hscopes]
      rfl
    simp only [locals, ← hkept]
    omega
  known step hstep := by
    rw [captureAll_leave hscopes]
    rw [code_leave hscopes, List.mem_append] at hstep
    rcases hstep with hstep | hstep
    · exact h.known step hstep
    · obtain ⟨op, rfl, -⟩ := Piece.simple_of_mem_dropSteps hstep
      trivial

theorem Draft.fits_leave_iff {limits : Limits} :
    (d.leave level).Fits limits level (d.leave level).piece.uses ↔
      d.Fits limits level d.piece.uses := by
  have hplan : (d.leave level).plan level (d.leave level).piece.uses =
      { d.plan level d.piece.uses with
        code := d.piece.code ++ Piece.dropSteps level d.kept d.piece.uses scope.length } := by
    rw [plan, captureAll_leave hscopes, leave_eq hscopes]
    rfl
  rw [Fits, hplan]
  constructor
  · intro h
    exact Plan.Fits.of_le h (Nat.le_refl _) (Nat.le_refl _)
      (fun _ hstep => .inl (List.mem_append_left _ hstep)) (List.prefix_refl _) (Nat.le_refl _)
  · intro h
    refine Plan.Fits.of_le h (Nat.le_refl _) (Nat.le_refl _) (fun _ hstep => ?_)
      (List.prefix_refl _) (Nat.le_refl _)
    rcases List.mem_append.mp hstep with hstep | hstep
    · exact .inl hstep
    · obtain ⟨op, rfl, -⟩ := Piece.simple_of_mem_dropSteps hstep
      exact .inr trivial

/-- The locals of the innermost scope with their depths, and all older ones. -/
theorem depths_eq_append : d.depths = (scope.map fun name => (name, outer.length + 1)) ++
    (LoxCompiler.depths outer ++ [(d.receiver, 0)]) := by
  unfold Draft.depths
  rw [hscopes, depths, List.append_assoc]

theorem length_kept : (LoxCompiler.depths outer ++ [(d.receiver, 0)]).length = d.kept := by
  have h := congrArg List.length (map_fst_depths outer)
  rw [List.length_map] at h
  rw [Draft.kept, hscopes, List.length_append, List.length_append, h]
  rfl

omit hscopes in
theorem lt_of_mem_kept : ∀ p ∈ LoxCompiler.depths outer ++ [(d.receiver, 0)],
    p.2 < outer.length + 1 := by
  intro p hp
  rcases List.mem_append.mp hp with hp | hp
  · have := le_of_mem_depths hp
    omega
  · rw [List.mem_singleton.mp hp]
    exact Nat.succ_pos _

variable {f : Frame β} (hf : d.Describes w level around d.piece.uses f) (hfresh : d.fresh = none)
include hf hfresh

theorem locals_of_scopes : f.locals = Local.ofDepths level d.piece.uses
    ((scope.map fun name => (name, outer.length + 1)) ++
      (LoxCompiler.depths outer ++ [(d.receiver, 0)])) := by
  rw [hf.locals, hfresh, depths_eq_append hscopes]
  rfl

/-- The cells that drop the locals of the innermost scope. -/
theorem drops_of_scopes :
    (f.locals.takeWhile (Local.declaredWithin (outer.length + 1))).flatMap
        (fun l => [(dropInstruction l).toByte.toNat]) =
      cellsOf level (captureAll level d.piece.uses)
        (Piece.dropSteps level d.kept d.piece.uses scope.length) := by
  have hsteps := Local.drops_takeWhile_ofDepths (show ∀ p ∈ scope.map fun name =>
    (name, outer.length + 1), outer.length + 1 ≤ p.2 by simp) (lt_of_mem_kept (d := d))
    level d.piece.uses
  rw [length_kept hscopes, List.length_map] at hsteps
  rw [locals_of_scopes hscopes hf hfresh, ← hsteps]
  simp [cellsOf, List.flatMap_map, Step.cells]

/-- A described frame without the locals of its innermost scope. -/
theorem Draft.Describes.leave (lines : Array Nat) :
    (d.leave level).Describes w level around (d.leave level).piece.uses { f with
      code := f.code ++ ((cellsOf level (captureAll level d.piece.uses)
        (Piece.dropSteps level d.kept d.piece.uses scope.length)).map w.cell).toArray
      lines, scopeDepth := outer.length
      locals := f.locals.dropWhile (Local.declaredWithin (outer.length + 1)) } where
  kind := by
    rw [leave_eq hscopes]
    exact hf.kind
  name := by
    rw [leave_eq hscopes]
    exact hf.name
  arity := by
    rw [leave_eq hscopes]
    exact hf.arity
  code := by
    rw [captureAll_leave hscopes, code_leave hscopes]
    simp [hf.code]
  constants := by
    rw [leave_eq hscopes]
    exact hf.constants
  jumps := by
    intro operand hoperand
    have hdone : pendingOperands (0 + totalSize d.piece.code)
        (Piece.dropSteps level d.kept d.piece.uses scope.length) = [] := by
      apply pendingOperands_eq_nil
      intro step hstep op
      obtain ⟨op', rfl, -⟩ := Piece.simple_of_mem_dropSteps hstep
      simp
    rw [code_leave hscopes, pendingOperands_append, hdone, List.append_nil] at hoperand
    exact hf.jumps operand hoperand
  locals := by
    have hsame : Local.ofDepths level d.piece.uses (LoxCompiler.depths outer ++ [(d.receiver, 0)]) =
        Local.ofDepths level (d.leave level).piece.uses
          (LoxCompiler.depths outer ++ [(d.receiver, 0)]) := by
      apply Local.ofDepths_congr
      intro slot hslot
      rw [length_kept hscopes] at hslot
      rw [mem_uses_leave hscopes]
      simp
      omega
    rw [locals_of_scopes hscopes hf hfresh, Local.dropWhile_ofDepths (by simp) lt_of_mem_kept, hsame,
      leave_eq hscopes]
    simp [hfresh, Draft.depths]
  upvalues := by
    rw [captureAll_leave hscopes]
    exact hf.upvalues
  depth := by
    rw [leave_eq hscopes]

end Leave

/-- What a construct that enters and leaves a scope does to its function. -/
theorem Drafts.leave_emit {D : Drafts} (hv : D.Valid) (F : Fragment) {env : Environment}
    {scope : List Symbol} (hscopes : env.scopes = scope :: D.current.scopes) :
    (((D.emit F).moveTo env).leave) = D.emit (D.env.leave env F) := by
  have hcount : env.count - D.env.count = scope.length := by
    simp [Environment.count, Environment.locals, hscopes, Drafts.env]
  have hdrop := Piece.append_drop D.level D.env.count
    ((Drafts.valid_iff D).mp hv).1.live (F D.constantCount) scope.length
  have hkept : ((D.emit F).moveTo env).current.kept = D.env.count := by
    show (env.scopes.tail.flatten ++ [D.current.receiver]).length = _
    rw [hscopes]
    rfl
  have hlevel : D.env.level = D.level := List.length_map _
  have hleave := Draft.leave_eq (d := ((D.emit F).moveTo env).current) hscopes D.level
  rw [hkept, show ((D.emit F).moveTo env).current.piece = D.current.piece ++ F D.constantCount from
    rfl, hdrop] at hleave
  unfold Environment.leave
  rw [hcount, hlevel]
  exact congrArg (fun current => { D with current }) hleave

namespace Compile

/-- Leaving a scope drops its locals, and appends the instructions that do so when the code runs. -/
theorem run_endScope {s : Session β} {f : Frame β} {frames : Frames β} {depth : Nat}
    (hframes : s.frames = f :: frames) (hdepth : f.scopeDepth = depth + 1) :
    ∃ lines events, (endScope : Compile w.settings Unit).run s = .ok ((), { s with
      frames := { f with
        code := f.code ++ (((f.locals.takeWhile (Local.declaredWithin (depth + 1))).flatMap
          fun l => [(dropInstruction l).toByte.toNat]).map w.cell).toArray
        lines, scopeDepth := depth
        locals := f.locals.dropWhile (Local.declaredWithin (depth + 1)) } :: frames
      events }) := by
  obtain ⟨lines, hwrites⟩ := (writes_forM (w := w)
    (f.locals.takeWhile (Local.declaredWithin (depth + 1)))
    fun l => writes_emit (dropInstruction l)).run
    (s := { s with frames := { f with
      scopeDepth := depth
      locals := f.locals.dropWhile (Local.declaredWithin (depth + 1)) } :: frames }) rfl
  unfold endScope
  rw [run_frame_bind hframes]
  simp only [hdepth]
  rw [run_bind_of_ok (run_modifyFrame _ hframes), run_bind_of_ok hwrites]
  exact ⟨lines, _, rfl⟩

theorem Meets.endScope {D : Drafts} {scope : List Symbol} {outer : List (List Symbol)}
    (hscopes : D.current.scopes = scope :: outer) (hfresh : D.current.fresh = none) :
    Meets D [] (endScope : Compile w.settings Unit) () True D.leave := by
  apply of_change True (g := Draft.leave D.level) (exported_leave hscopes)
  · exact Draft.Valid.leave hscopes
  · exact (Draft.fits_leave_iff hscopes).trans (and_iff_left trivial).symm
  · intro s f frames hframes _ hf
    have hdepth : f.scopeDepth = outer.length + 1 := by
      rw [hf.depth, hscopes]
      rfl
    obtain ⟨lines, events, hrun⟩ := run_endScope (w := w) hframes hdepth
    rw [drops_of_scopes hscopes hf hfresh] at hrun
    exact .inl ⟨trivial, _, events, hrun, hf.leave hscopes hfresh lines⟩

end Compile

/-- A draft with room for some locals, and a local that cannot be read yet. -/
def Draft.reserve (d : Draft) (name : Symbol) (count : Nat) : Draft :=
  { d with piece := d.piece ++ (⟨[], [], [], count⟩ : Piece), fresh := some name }

/-- A draft with other scopes, and without a local that cannot be read. -/
def Draft.settle (d : Draft) (scopes : List (List Symbol)) : Draft :=
  { d with fresh := none, scopes }

section Declare

variable {level : Nat} {around uses : List Variable} {d : Draft} {f : Frame β}
  (hf : d.Describes w level around uses f) (hfresh : d.fresh = none)
include hf hfresh

theorem locals_eq_ofDepths : f.locals = Local.ofDepths level uses d.depths := by
  rw [hf.locals, hfresh]
  rfl

theorem length_frame_locals : f.locals.length = d.locals.length := by
  rw [locals_eq_ofDepths hf hfresh, Local.length_ofDepths, d.length_depths]

/-- The innermost scope of a described frame declares the names that the draft says. -/
theorem declaredInScope_iff {scope : List Symbol} {outer : List (List Symbol)} {name : Symbol}
    (hscopes : d.scopes = scope :: outer) : f.declaredInScope name = true ↔ name ∈ scope := by
  have hnames := Local.names_takeWhile_ofDepths (show ∀ p ∈ scope.map fun name =>
    (name, outer.length + 1), outer.length + 1 ≤ p.2 by simp) (lt_of_mem_kept (d := d)) level uses
  have hdepth : f.scopeDepth = outer.length + 1 := by
    rw [hf.depth, hscopes]
    rfl
  rw [← depths_eq_append hscopes, List.map_map] at hnames
  have hnames : ((Local.ofDepths level uses d.depths).takeWhile
      (Local.declaredWithin (outer.length + 1))).map Local.name = scope := by
    rw [hnames]
    simp [Function.comp_def]
  unfold Frame.declaredInScope
  rw [hdepth, locals_eq_ofDepths hf hfresh]
  conv_rhs => rw [← hnames]
  simp [List.any_eq_true]

omit hf hfresh in
/-- Room for locals is within the limits if the number of locals is. -/
theorem Draft.fits_reserve_iff {limits : Limits} {name : Symbol} {count : Nat} :
    (d.reserve name count).Fits limits level uses ↔
      d.Fits limits level uses ∧ Limits.admits limits.locals count = true := by
  have hplan : (d.reserve name count).plan level uses =
      { d.plan level uses with slots := max d.piece.slots count } := by
    simp [plan, reserve]
  rw [Fits, hplan]
  constructor
  · intro h
    exact ⟨Plan.Fits.of_le h (Nat.le_refl _) (Nat.le_refl _) (fun _ hstep => .inl hstep)
        (List.prefix_refl _) (Nat.le_max_left _ _),
      Limits.admits_of_le (Nat.le_max_right _ _) (Plan.fits_iff.mp h).2.2.2.2.1⟩
  · rintro ⟨h, hadmits⟩
    rw [Fits, Plan.fits_iff] at h
    rw [Plan.fits_iff]
    obtain ⟨harity, hcaptures, hsteps, hindex, hlocals, hitems⟩ := h
    refine ⟨harity, hcaptures, hsteps, hindex, ?_, hitems⟩
    rcases Nat.le_total d.piece.slots count with hle | hle
    · rw [Nat.max_eq_right hle]
      exact hadmits
    · rw [Nat.max_eq_left hle]
      exact hlocals

theorem Draft.Describes.reserve (name : Symbol) (count : Nat) :
    (d.reserve name count).Describes w level around uses
      { f with locals := ⟨name, none, false⟩ :: f.locals } where
  kind := hf.kind
  name := hf.name
  arity := hf.arity
  code := by simpa [Draft.reserve] using hf.code
  constants := by simpa [Draft.reserve] using hf.constants
  jumps := by simpa [Draft.reserve] using hf.jumps
  locals := congrArg (⟨name, none, false⟩ :: ·) (locals_eq_ofDepths hf hfresh)
  upvalues := hf.upvalues
  depth := hf.depth

end Declare

section Mark

variable {level : Nat} {around uses : List Variable} {d : Draft} {f : Frame β} {name : Symbol}
  {scope : List Symbol} {outer : List (List Symbol)}

/-- The local that cannot be read yet is made the newest one of its scope. -/
theorem Draft.Describes.settle (hf : d.Describes w level around uses f) (hv : d.Valid level uses)
    (hfresh : d.fresh = some name) (hscopes : d.scopes = scope :: outer) :
    (d.settle ((name :: scope) :: outer)).Describes w level around uses f.markInitialized := by
  have hdepth : f.scopeDepth = outer.length + 1 := by
    rw [hf.depth, hscopes]
    rfl
  have hold : f.locals = ⟨name, none, false⟩ :: Local.ofDepths level uses d.depths := by
    rw [hf.locals, hfresh]
    rfl
  have hunused : (⟨level, d.depths.length⟩ : Variable) ∉ uses := by
    intro hmem
    have := hv.live _ hmem rfl
    rw [d.length_depths] at this
    exact Nat.lt_irrefl _ this
  have hdepths : (d.settle ((name :: scope) :: outer)).depths =
      (name, outer.length + 1) :: d.depths := by
    simp [Draft.settle, Draft.depths, LoxCompiler.depths, hscopes]
  have hmark : f.markInitialized = { f with
      locals := Local.ofDepths level uses (d.settle ((name :: scope) :: outer)).depths } := by
    unfold Frame.markInitialized
    rw [if_neg (by omega), hold, hdepths]
    simp [Local.ofDepths, hdepth, hunused]
  rw [hmark]
  exact
    { kind := hf.kind
      name := hf.name
      arity := hf.arity
      code := hf.code
      constants := hf.constants
      jumps := hf.jumps
      locals := rfl
      upvalues := hf.upvalues
      depth := hdepth }

end Mark

namespace Compile.Meets

variable {D : Drafts}

theorem addLocal (name : Symbol) (hfresh : D.current.fresh = none) :
    Meets D [] (addLocal name : Compile w.settings Unit) () True
      ((D.emit (.reserve (D.env.count + 1))).hold (some name)) := by
  show Meets D [] _ () True (D.change (·.reserve name (D.env.count + 1)))
  have huses : (D.current.reserve name (D.env.count + 1)).piece.uses = D.uses :=
    List.append_nil _
  apply of_change (Limits.admits w.limits.locals (D.env.count + 1) = true)
  · exact congrArg (exported D.level) huses
  · intro hv
    refine ⟨huses ▸ hv.live, ?_⟩
    rw [huses]
    simpa [Draft.reserve] using hv.known
  · exact huses ▸ Draft.fits_reserve_iff
  · intro s f frames hframes _ hf
    have hlength : f.locals.length = D.env.count := length_frame_locals hf hfresh
    have hrun : (Compile.addLocal name : Compile w.settings Unit).run s =
        (storeFrame (f.addLocal w.limits name) : Compile w.settings Unit).run s := by
      rw [addLocal_eq, run_frame_bind hframes, measure_bind]
    cases hadmits : Limits.admits w.limits.locals (D.env.count + 1) with
    | true =>
        rw [Frame.addLocal, if_pos (hlength ▸ hadmits), storeFrame, run_modifyFrame _ hframes] at hrun
        exact .inl ⟨rfl, _, _, hrun, huses ▸ hf.reserve hfresh name _⟩
    | false =>
        refine .inr ⟨Bool.false_ne_true, not_cleanly_of_run hrun rfl ?_⟩
        rw [Frame.addLocal, if_neg (by rw [hlength, hadmits]; exact Bool.false_ne_true)]
        exact fun a t => not_cleanly_report

/-- Nothing happens if there is no local that cannot be read. -/
theorem markInitialized_of_fresh (hfresh : D.current.fresh = none) :
    Meets D [] (markInitialized : Compile w.settings Unit) () True D := by
  apply of_run
  · exact fun hv _ => hv
  · exact fun _ h => h
  · intro s _ hD hs
    obtain ⟨_, _, f, frames, hframes, hf, _⟩ := (Drafts.describes_iff D).mp hs
    have hsame : f.markInitialized = f := by
      unfold Frame.markInitialized
      rw [locals_eq_ofDepths hf hfresh]
      split
      · rfl
      · cases D.current.depths <;> rfl
    refine .inl ⟨trivial, hD, _, run_modifyFrame _ hframes, rfl, ?_⟩
    rw [hsame, ← hframes]
    exact hs

theorem markInitialized {name : Symbol} {scope : List Symbol} {outer : List (List Symbol)}
    (hfresh : D.current.fresh = some name) (hscopes : D.current.scopes = scope :: outer) :
    Meets D [] (markInitialized : Compile w.settings Unit) () True
      ((D.hold none).moveTo (D.env.declare name)) := by
  have hdeclare : (D.env.declare name).scopes = (name :: scope) :: outer := by
    unfold Environment.declare
    rw [show D.env.scopes = scope :: outer from hscopes]
  have hafter : (D.hold none).moveTo (D.env.declare name) =
      D.change (·.settle ((name :: scope) :: outer)) := by
    unfold Drafts.moveTo
    rw [hdeclare]
    rfl
  have hlocals : (D.current.settle ((name :: scope) :: outer)).locals =
      name :: D.current.locals := by
    simp [Draft.settle, Draft.locals, hscopes]
  rw [hafter]
  apply of_change True rfl
  · intro hv
    refine ⟨fun v hmem hlevel => ?_, hv.known⟩
    rw [hlocals, List.length_cons]
    exact Nat.lt_succ_of_lt (hv.live v hmem hlevel)
  · exact (and_iff_left trivial).symm
  · intro s f frames hframes hv hf
    exact .inl ⟨trivial, _, _, run_modifyFrame _ hframes, hf.settle hv hfresh hscopes⟩

/-- A name is declared. Outside all scopes nothing is done. -/
theorem declareVariable (name : Symbol) (hfresh : D.current.fresh = none) :
    Meets D [] (declareVariable name : Compile w.settings Unit) () (D.env.Free name)
      ((D.emit D.env.reserve).hold (D.env.fresh name)) := by
  unfold Compile.declareVariable
  cases hscopes : D.current.scopes with
  | nil =>
      have hscopes : D.env.scopes = [] := hscopes
      have hfree : D.env.Free name := by
        unfold Environment.Free
        rw [hscopes]
        trivial
      have hsame : (D.emit D.env.reserve).hold (D.env.fresh name) = D := by
        unfold Environment.reserve Environment.fresh
        rw [hscopes, Drafts.emit_empty, Drafts.hold_of_fresh D hfresh]
      rw [hsame]
      apply Meets.congr (P := True) _ (fun _ => by simp [hfree])
      apply frame_bind (l := pure ()) _ Meets.pure
      intro f hf
      have hdepth : f.scopeDepth = 0 := by
        rw [hf.depth, show D.current.scopes = [] from hscopes]
        rfl
      simp [hdepth]
  | cons scope outer =>
      have hscopes' : D.env.scopes = scope :: outer := hscopes
      have hfree : D.env.Free name ↔ ¬ name ∈ scope := by
        unfold Environment.Free
        rw [hscopes']
      have hafter : (D.emit D.env.reserve).hold (D.env.fresh name) =
          (D.emit (.reserve (D.env.count + 1))).hold (some name) := by
        unfold Environment.reserve Environment.fresh
        rw [hscopes']
      rw [hafter]
      apply Meets.congr (P := ¬ name ∈ scope ∧ True) _ (fun _ => by simp [hfree])
      refine frame_bind (l := if name ∈ scope then
        report .duplicateVariable >>= fun _ => Compile.addLocal name else Compile.addLocal name) ?_
        (Meets.guard not_cleanly_report fun _ => addLocal name hfresh)
      intro f hf
      have hdepth : f.scopeDepth ≠ 0 := by
        rw [hf.depth, hscopes]
        exact Nat.succ_ne_zero _
      simp only [ne_eq, hdepth, not_false_eq_true, if_true, declaredInScope_iff hf hfresh hscopes]

/-- A declared name is made available. -/
theorem defineVariable (name : Symbol) (index : Nat) (hfresh : D.current.fresh = none) :
    Meets (D.hold (D.env.fresh name)) [] (defineVariable index : Compile w.settings Unit) () True
      ((D.emit (D.env.define index)).moveTo (D.env.declare name)) := by
  unfold Compile.defineVariable
  cases hscopes : D.current.scopes with
  | nil =>
      have hscopes : D.env.scopes = [] := hscopes
      have hbefore : D.hold (D.env.fresh name) = D := by
        unfold Environment.fresh
        rw [hscopes, Drafts.hold_of_fresh D hfresh]
      have hafter : (D.emit (D.env.define index)).moveTo (D.env.declare name) =
          D.emit (.step (.constant .defineGlobal index)) := by
        unfold Environment.define Environment.declare
        rw [hscopes]
        rfl
      rw [hbefore, hafter]
      apply frame_bind _ (emitWith_constant .defineGlobal index)
      intro f hf
      have hdepth : f.scopeDepth = 0 := by
        rw [hf.depth, show D.current.scopes = [] from hscopes]
        rfl
      simp [hdepth]
  | cons scope outer =>
      have hscopes' : D.env.scopes = scope :: outer := hscopes
      have hbefore : D.env.fresh name = some name := by
        unfold Environment.fresh
        rw [hscopes']
      have hdefine : D.env.define index = ∅ := by
        unfold Environment.define
        rw [hscopes']
      have hafter : (D.emit (D.env.define index)).moveTo (D.env.declare name) =
          ((D.hold (some name)).hold none).moveTo ((D.hold (some name)).env.declare name) := by
        rw [hdefine, Drafts.emit_empty, Drafts.hold_hold, Drafts.hold_of_fresh D hfresh]
        rfl
      rw [hbefore, hafter]
      apply frame_bind _ (markInitialized (D := D.hold (some name)) rfl hscopes)
      intro f hf
      have hdepth : 0 < f.scopeDepth := by
        rw [hf.depth, show (D.hold (some name)).current.scopes = scope :: outer from hscopes]
        exact Nat.succ_pos _
      simp [hdepth]

end Compile.Meets

end LoxCompiler
