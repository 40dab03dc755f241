import LoxCompiler.Proofs.Simulation.Expression

/-! # Functions in the making

A function is started as an empty draft inside the current one. When it is finished, the function
around it gets a closure of its plan, and has captured what the plan needs from further out.
-/

namespace LoxCompiler

open Compile

set_option synthInstance.maxSize 4096

variable {β : Type} {w : Width β}

namespace Drafts

variable (D : Drafts)

/-- Another function in the making inside the current one. -/
def inside (d : Draft) : Drafts := { D with current := d, outer := D.current :: D.outer }

/-- The start of a function inside the current one, outside all scopes of its own. -/
def start (kind : FunctionKind) (name : Option Symbol) : Drafts :=
  D.inside ⟨kind, name, 0, D.env.receiverOf kind, [], none, ∅⟩

/-- The start of a function inside the current one, in the scope of its parameters. -/
def function (kind : FunctionKind) (name : Option Symbol) : Drafts :=
  (D.start kind name).moveTo (D.start kind name).env.enter

@[simp] theorem env_function (kind : FunctionKind) (name : Option Symbol) :
    (D.function kind name).env = D.env.function kind := rfl

/-- The index of the name of a global variable, as a declaration notes it. -/
def nameIndex : Nat :=
  match D.env.scopes with
  | [] => D.constantCount
  | _ :: _ => 0

theorem define_nameIndex : D.env.define D.nameIndex = D.env.define D.constantCount := by
  unfold Environment.define nameIndex
  cases D.env.scopes <;> rfl

theorem emit_declaration (name : Symbol) (F : Fragment) : D.emit (D.env.declaration name F) =
    ((D.emit (D.env.header name)).emit F).emit (D.env.define D.nameIndex) := by
  rw [define_nameIndex, ← emit_append, ← emit_append, ← Fragment.append_assoc]
  rfl

/-- The innermost function with another number of parameters. -/
def setArity (arity : Nat) : Drafts := D.change fun d => { d with arity }

variable {D} {d : Draft}

theorem valid_inside : (D.inside d).Valid ↔ d.Valid (D.level + 1) d.piece.uses ∧
    Draft.Each Draft.Valid (exported (D.level + 1) d.piece.uses) D.stack ∧
      D.current.fresh = none ∧ ∀ d ∈ D.outer, d.fresh = none := by
  rw [valid_iff]
  simp only [inside, List.forall_mem_cons]
  rfl

theorem fits_inside {limits : Limits} : (D.inside d).Fits limits ↔
    d.Fits limits (D.level + 1) d.piece.uses ∧
      Draft.Each (Draft.Fits limits) (exported (D.level + 1) d.piece.uses) D.stack := by
  rw [fits_iff]
  rfl

/-- What a function inside leaves to those around it may be used by the next one out. -/
theorem valid_use_of_inside (h : (D.inside d).Valid) :
    (D.emit (.use (exported (D.level + 1) d.piece.uses))).Valid := by
  obtain ⟨_, hstack, _, hready⟩ := valid_inside.mp h
  rw [emit_use, valid_iff]
  exact ⟨⟨hstack.1.live, hstack.1.known⟩, hstack.2, hready⟩

end Drafts

/-- A described function is finished as what its plan assembles to. -/
theorem Draft.Describes.eraseLines_finish {level : Nat} {around : List Variable} {d : Draft}
    {f : Frame β} (hf : d.Describes w level around d.piece.uses f) :
    f.finish.eraseLines = (d.piece.plan level d.name d.arity).assemble w level := by
  have hconstants := hf.constants
  rw [← Constant.eraseLinesEach_eq] at hconstants
  simp only [Function.eraseLines, Frame.finish, Plan.assemble, Piece.plan, hf.name, hf.arity,
    hf.upvalues, hf.code, hconstants, List.length_map]

namespace Compile.Meets

variable {D : Drafts}

/-- A function is started inside the current one. -/
theorem beginFrame (kind : FunctionKind) (name : Option Symbol) (hfresh : D.current.fresh = none) :
    Meets D [] (beginFrame kind name : Compile w.settings Unit) () True (D.start kind name) := by
  have hadmits : ∀ limit : Option Nat, Limits.admits limit 0 = true := by
    intro limit
    cases limit <;> rfl
  have hstack : ∀ P : Nat → List Variable → Draft → Prop,
      Draft.Each P (exported (D.level + 1) []) D.stack ↔ Draft.Each P [] D.stack :=
    fun _ => Iff.rfl
  apply of_run
  · intro hv _
    refine Drafts.valid_inside.mpr ⟨⟨?_, ?_⟩, (hstack _).mpr hv.each, hfresh, hv.ready⟩
    · exact fun v hv => absurd hv (List.not_mem_nil)
    · exact fun step hstep => absurd hstep (List.not_mem_nil)
  · exact fun _ h => (hstack _).mp (Drafts.fits_inside.mp h).2
  · intro s _ hD hs
    refine .inl ⟨trivial, ?_, { s with
      frames := Frame.new kind name (D.env.receiverOf kind) :: s.frames }, ?_, rfl, hs.names,
      hs.classes, ?_⟩
    · refine Drafts.fits_inside.mpr ⟨?_, (hstack _).mpr hD⟩
      rw [Draft.Fits, Plan.fits_iff]
      exact ⟨hadmits _, hadmits _, fun _ hstep => absurd hstep (List.not_mem_nil), hadmits _,
        hadmits _, fun _ hitem => absurd hitem (List.not_mem_nil)⟩
    · have hnames := hs.names
      cases kind <;> simp only [Environment.receiverOf, Drafts.env, ← hnames] <;> rfl
    · refine ⟨?_, hs.frames⟩
      exact
        { kind := rfl
          name := rfl
          arity := rfl
          code := rfl
          constants := rfl
          jumps := fun _ hoperand => absurd hoperand (List.not_mem_nil)
          locals := rfl
          upvalues := rfl
          depth := rfl }

/-- The number of parameters is noted, which may not be too great. -/
theorem setArity {arity : Nat} (hold : D.current.arity ≤ arity)
    (hadmits : Limits.admits w.limits.parameters arity = true) :
    Meets D [] (modifyFrame fun frame => { frame with arity } : Compile w.settings Unit) () True
      (D.setArity arity) := by
  apply of_change True (g := fun d => { d with arity }) rfl
  · exact fun hv => ⟨hv.live, hv.known⟩
  · refine Iff.trans ?_ (and_iff_left trivial).symm
    constructor
    · intro h
      exact Plan.Fits.of_le h hold (Nat.le_refl _) (fun _ hstep => .inl hstep)
        (List.prefix_refl _) (Nat.le_refl _)
    · intro h
      exact Plan.fits_iff.mpr ⟨hadmits, (Plan.fits_iff.mp h).2⟩
  · intro s f frames hframes _ hf
    refine .inl ⟨trivial, _, _, run_modifyFrame _ hframes, ?_⟩
    exact
      { kind := hf.kind
        name := hf.name
        arity := rfl
        code := hf.code
        constants := hf.constants
        jumps := hf.jumps
        locals := hf.locals
        upvalues := hf.upvalues
        depth := hf.depth }

/-- The return at the end of a function. -/
theorem emitReturn : Meets D [] (emitReturn : Compile w.settings Unit) () True
    (D.emit (.steps D.current.kind.returnSteps)) := by
  have hsteps : ∀ first : Step, D.emit (.steps [first, .simple .ret]) =
      (D.emit (.step first)).emit (.simple .ret) :=
    fun first => D.emit_append (.step first) (.simple .ret)
  unfold Compile.emitReturn
  refine frame_bind (l := if D.current.kind = .initializer then do
    emitWith .getLocal 0
    emit .ret else do
    emit .pushNil
    emit .ret) (fun f hf => by rw [hf.kind]) ?_
  cases hkind : D.current.kind with
  | initializer =>
      rw [if_pos rfl, FunctionKind.returnSteps, hsteps]
      exact (emitWith_byte .getLocal 0 trivial).silent (Meets.emit .ret)
  | _ =>
      rw [if_neg (by simp), FunctionKind.returnSteps, hsteps]
      exact (Meets.emit .pushNil).silent (Meets.emit .ret)

/-- A step that goes on like another one from where it leads, without taking a token. -/
theorem of_step {α : Type} (D₁ : Drafts) {D' : Drafts} {ts : List Kind} {m : Compile w.settings α} {v : α}
    {P : Prop} (valid : D.Valid → D₁.Valid) (valid' : D₁.Valid → D'.Valid)
    (fits : P → D'.Fits w.limits → D.Fits w.limits) (fits' : D.Fits w.limits → D₁.Fits w.limits)
    (hstep : ∀ {s}, D.Valid → D.Fits w.limits → D.Describes w s →
      ∃ (s' : Session β) (k : Compile w.settings α), m.run s = k.run s' ∧ s'.reader = s.reader ∧
        D₁.Describes w s' ∧ Meets D₁ ts k v P D') :
    Meets D ts m v P D' where
  valid hv _ _ := valid' (valid hv)
  fits := fits
  sound {s _ _} hv hfits hs hm := by
    obtain ⟨s', k, hrun, hreader, hs', hk⟩ := hstep hv hfits hs
    rw [← hreader]
    exact hk.sound (valid hv) (fits' hfits) hs' ⟨hreader ▸ hm.before, hrun ▸ hm.run, hm.after⟩
  complete {s _} hv hs htakes hP hfits := by
    obtain ⟨s', k, hrun, hreader, hs', hk⟩ := hstep hv (fits hP hfits) hs
    obtain ⟨a, t, hm⟩ := hk.complete (valid hv) hs' (hreader ▸ htakes) hP hfits
    exact ⟨a, t, hreader ▸ hm.before, hrun ▸ hm.run, hm.after⟩

/-- A closure of a function that was finished, with what it captures. -/
theorem emitClosure {d : Draft} {f : Frame β}
    (hf : d.Describes w (D.level + 1) D.captures d.piece.uses f)
    (hfits : d.Fits w.limits (D.level + 1) d.piece.uses)
    (hcaptures : ∀ v ∈ captureAll (D.level + 1) d.piece.uses, v.level = D.level ∨ v ∈ D.captures) :
    Meets D [] (emitClosure (f.finish, f.upvalues) : Compile w.settings Unit) () True
      (D.emit (.withItem (.function (d.piece.plan (D.level + 1) d.name d.arity)) fun index =>
        .step (.closure index (captureAll (D.level + 1) d.piece.uses)))) := by
  have hitem : (Constant.function f.finish).eraseLines = Item.assemble w (D.level + 1)
      (.function (d.piece.plan (D.level + 1) d.name d.arity)) := by
    rw [Constant.eraseLines, hf.eraseLines_finish, Item.assemble]
  have hwrites : ∀ index, Writes (do
      emitWith .closure index
      f.upvalues.forM fun upvalue => do
        emitCell (if upvalue.isLocal then 1 else 0)
        emitCell upvalue.index : Compile w.settings Unit)
      ((Step.closure index (captureAll (D.level + 1) d.piece.uses)).cells D.level D.captures) := by
    intro index
    have hcells : (Step.closure index (captureAll (D.level + 1) d.piece.uses)).cells D.level
        D.captures = [Opcode.closure.toByte.toNat, index] ++
          f.upvalues.flatMap fun upvalue => [if upvalue.isLocal then 1 else 0, upvalue.index] := by
      rw [hf.upvalues, List.flatMap_map]
      simp only [Step.cells, List.cons_append, List.nil_append, List.cons.injEq, true_and]
      apply List.flatMap_congr
      intro v _
      unfold Step.descriptor upvalueOf
      by_cases hlevel : v.level = D.level <;> simp [hlevel]
    rw [hcells]
    exact (writes_emitWith .closure index).append
      (writes_forM _ fun upvalue => (writes_emitCell _).append (writes_emitCell _))
  have hsame : ∀ item, (D.emit (.item item)).captures = D.captures := by
    intro item
    simp [Drafts.captures, Fragment.item]
  rw [Drafts.emit_withItem]
  refine (addConstant hitem hfits).silent (of_writes_step _ ?_ ?_ trivial (by simp))
  · rw [hsame]
    exact hwrites _
  · rw [hsame]
    exact hcaptures

/-- A finished function is taken off, and the function around it makes a closure of it. -/
theorem takeFrame {d : Draft} : Meets (D.inside d) []
    (Compile.takeFrame >>= Compile.emitClosure : Compile w.settings Unit) () True
    (D.emit (.closure D.level d.name d.arity fun _ => d.piece)) := by
  let item : Item := .function (d.piece.plan (D.level + 1) d.name d.arity)
  let captures := captureAll (D.level + 1) d.piece.uses
  let D₁ := D.emit (.use (exported (D.level + 1) d.piece.uses))
  have hafter : D.emit (.closure D.level d.name d.arity fun _ => d.piece) =
      (D₁.emit (.item item)).emit (.step (.closure D₁.constantCount captures)) :=
    (D.emit_append _ _).trans (D₁.emit_withItem item _)
  have haround : (D.inside d).around = D₁.captures := rfl
  have hknown : ∀ v ∈ captures, v.level = D.level ∨ v ∈ D₁.captures := by
    intro v hv
    have hmem : v ∈ captureAll D.stack.length (d.allUses []) → v.level + 1 = D.stack.length ∨
        v ∈ Draft.around (exported D.stack.length (d.allUses [])) D.stack :=
      mem_around_of_mem_captureAll
    rw [Draft.allUses, List.append_nil] at hmem
    exact (hmem hv).imp Nat.succ.inj id
  have hsame : (D₁.emit (.item item)).captures = D₁.captures := by
    simp [Drafts.captures, Fragment.item]
  rw [hafter]
  apply of_step D₁
  · exact Drafts.valid_use_of_inside
  · intro hv
    refine Drafts.valid_emit rfl (Drafts.valid_emit rfl hv (by simp [Fragment.item])) ?_
    intro step hstep
    rw [List.mem_singleton.mp hstep, hsame]
    exact hknown
  · intro _ h
    have hitem := (Plan.fits_iff.mp ((Drafts.fits_iff _).mp (Drafts.fits_of_emit h)).1).2.2.2.2.2
      item (List.mem_append_right _ (List.mem_singleton_self _))
    exact Drafts.fits_inside.mpr
      ⟨hitem, Drafts.fits_use.mp (Drafts.fits_of_emit (Drafts.fits_of_emit h))⟩
  · exact fun h => Drafts.fits_use.mpr (Drafts.fits_inside.mp h).2
  · intro s hv hD hs
    obtain ⟨hnames, hclasses, f, frames, hframes, hf, hrest⟩ := (Drafts.describes_iff _).mp hs
    obtain ⟨events, hrun⟩ := run_takeFrame (w := w) hframes
    refine ⟨{ s with frames, events }, Compile.emitClosure (f.finish, f.upvalues),
      run_bind_of_ok hrun, rfl, Drafts.describes_use hnames hclasses hrest, ?_⟩
    rw [← D₁.emit_withItem item fun index => .step (.closure index captures)]
    exact emitClosure (D := D₁) hf (Drafts.fits_inside.mp hD).1 hknown

/-- A function is finished, and the function around it makes a closure of it. -/
theorem endFrame {d : Draft} : Meets (D.inside d) []
    (Compile.endFrame >>= Compile.emitClosure : Compile w.settings Unit) () True
    (D.emit (.closure D.level d.name d.arity
      fun _ => d.piece ++ ⟨d.kind.returnSteps, [], [], 0⟩)) := by
  rw [endFrame_eq, bind_assoc]
  exact emitReturn.silent (takeFrame (D := D)
    (d := { d with piece := d.piece ++ ⟨d.kind.returnSteps, [], [], 0⟩ }))

/-! ## Names and parameters -/

theorem declareNamed (name : Symbol) (hfresh : D.current.fresh = none) :
    Meets D [.identifier name] (declareNamed name : Compile w.settings Nat) D.nameIndex
      (D.env.Free name) ((D.emit (D.env.header name)).hold (D.env.fresh name)) := by
  unfold Compile.declareNamed
  refine .token ((declareVariable name hfresh).finish fun _ => ?_)
  unfold Drafts.nameIndex Environment.header Environment.reserve Environment.fresh
  cases hscopes : D.env.scopes with
  | nil =>
      have hsame : (D.emit ∅).hold none = D := by
        rw [Drafts.emit_empty, Drafts.hold_of_fresh D hfresh]
      have hadd := addName (w := w) (D := D) name
      rw [hsame, Drafts.hold_of_fresh _ (by exact hfresh)]
      refine frame_bind (fun f hf => ?_) hadd
      rw [hf.depth, show D.current.scopes = [] from hscopes]
      rfl
  | cons scope outer =>
      refine frame_bind (l := pure 0) (fun f hf => ?_) Meets.pure
      have hdepth : f.scopeDepth = outer.length + 1 :=
        hf.depth.trans (congrArg List.length hscopes)
      rw [if_pos (by omega)]

/-- A declared name may be read from here on. -/
theorem settle (name : Symbol) (hfresh : D.current.fresh = none) :
    Meets (D.hold (D.env.fresh name)) [] (Compile.markInitialized : Compile w.settings Unit) () True
      (D.moveTo (D.env.declare name)) := by
  unfold Environment.fresh
  cases hscopes : D.env.scopes with
  | nil =>
      have hsame : D.moveTo (D.env.declare name) = D := by
        unfold Environment.declare
        rw [hscopes]
        rfl
      rw [hsame, Drafts.hold_of_fresh D hfresh]
      exact markInitialized_of_fresh hfresh
  | cons scope outer =>
      have hmark := markInitialized (w := w) (D := D.hold (some name)) rfl hscopes
      rwa [Drafts.hold_hold, Drafts.env_hold, Drafts.hold_of_fresh D hfresh] at hmark

/-- A variable that may be read already is made available. -/
theorem defineVariable_of_fresh (index : Nat) (hfresh : D.current.fresh = none) :
    Meets D [] (Compile.defineVariable index : Compile w.settings Unit) () True
      (D.emit (D.env.define index)) := by
  unfold Compile.defineVariable Environment.define
  cases hscopes : D.env.scopes with
  | nil =>
      refine frame_bind (fun f hf => ?_) (emitWith_constant .defineGlobal index)
      rw [hf.depth, show D.current.scopes = [] from hscopes]
      rfl
  | cons scope outer =>
      rw [Drafts.emit_empty]
      refine frame_bind (fun f hf => ?_) (markInitialized_of_fresh hfresh)
      have hdepth : f.scopeDepth = outer.length + 1 :=
        hf.depth.trans (congrArg List.length hscopes)
      rw [if_pos (by omega)]

section Parameters

variable {name : Symbol} {names : List Symbol} {scope : List Symbol} {outer : List (List Symbol)}

theorem parameter (name : Symbol) (count : Nat) (hscopes : D.env.scopes = scope :: outer)
    (hfresh : D.current.fresh = none) :
    Meets D [.identifier name]
      (compileParameters.compileParameter name count : Compile w.settings Unit) ()
      (Limits.admits w.limits.parameters (count + 1) = true ∧ D.env.Free name)
      ((D.emit D.env.reserve).moveTo (D.env.declare name)) := by
  have hheader : D.env.header name = D.env.reserve := by
    unfold Environment.header
    rw [hscopes]
  have hdefine : ∀ E : Drafts, E.env = D.env → E.emit (E.env.define D.nameIndex) = E := by
    intro E hE
    unfold Environment.define
    rw [hE, hscopes, Drafts.emit_empty]
  have hname := declareNamed (w := w) name hfresh
  have hafter := defineVariable (w := w) (D := D.emit D.env.reserve) name D.nameIndex hfresh
  rw [hdefine _ (by rfl)] at hafter
  rw [hheader] at hname
  unfold compileParameters.compileParameter
  refine (guard (c := (!Limits.admits w.limits.parameters (count + 1)) = true)
    not_cleanly_reportCurrent fun _ => hname.finish fun _ => hafter).congr fun _ => ?_
  simp

/-- Parameters are declared one after the other, unless they are too many. -/
theorem parameters (count : Nat) (hscopes : D.env.scopes = scope :: outer)
    (hfresh : D.current.fresh = none) :
    Meets D (FunctionTree.parameterTokens names)
      (compileParameters names count : Compile w.settings Unit) ()
      ((∀ i < names.length, Limits.admits w.limits.parameters (count + i + 1) = true) ∧
        D.env.FreeEach names)
      ((D.emit (D.env.reserveEach names)).moveTo (D.env.declareEach names)) := by
  induction names generalizing D count scope with
  | nil =>
      have hsame : (D.emit (D.env.reserveEach [])).moveTo (D.env.declareEach []) = D := by
        rw [Environment.reserveEach, Drafts.emit_empty]
        rfl
      rw [hsame]
      exact Meets.pure.congr fun _ => by simp [Environment.FreeEach]
  | cons name names ih =>
      have hfirst := parameter (w := w) name count hscopes hfresh
      let D₁ := (D.emit D.env.reserve).moveTo (D.env.declare name)
      have henv : D₁.env = D.env.declare name := Drafts.env_moveTo_declare (D.emit D.env.reserve) name
      have hscopes₁ : D₁.env.scopes = (name :: scope) :: outer := by
        rw [henv, Environment.declare, hscopes]
      have hcounts : (∀ i < (name :: names).length,
          Limits.admits w.limits.parameters (count + i + 1) = true) ↔
          Limits.admits w.limits.parameters (count + 1) = true ∧
            ∀ i < names.length, Limits.admits w.limits.parameters (count + 1 + i + 1) = true := by
        rw [List.length_cons, Nat.forall_lt_succ_left]
        simp only [Nat.add_zero, Nat.add_assoc, Nat.add_comm 1]
      have hrest := ih (D := D₁) (count + 1) hscopes₁ hfresh
      have hafter : (D₁.emit (D₁.env.reserveEach names)).moveTo (D₁.env.declareEach names) =
          (D.emit (D.env.reserveEach (name :: names))).moveTo (D.env.declareEach (name :: names)) := by
        rw [henv, Environment.reserveEach, Drafts.emit_append]
        rfl
      rw [hcounts, Environment.FreeEach, ← hafter]
      cases names with
      | nil =>
          have hsame : (D₁.emit (D₁.env.reserveEach [])).moveTo (D₁.env.declareEach []) = D₁ := by
            rw [Environment.reserveEach, Drafts.emit_empty]
            rfl
          rw [hsame]
          unfold compileParameters
          exact hfirst.congr fun _ => by simp [Environment.FreeEach]
      | cons next names =>
          unfold compileParameters
          refine (hfirst.bind fun _ => .token hrest).congr fun _ => ?_
          rw [henv]
          tauto

end Parameters

end Compile.Meets

end LoxCompiler
