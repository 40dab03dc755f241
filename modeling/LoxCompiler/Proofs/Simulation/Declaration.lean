import LoxCompiler.Proofs.Simulation.Statement

/-! # Compiling declarations

The declarations of variables, functions and classes, and the induction over the grammar that
puts all constructs together.
-/

namespace LoxCompiler

open Compile

set_option synthInstance.maxSize 4096

variable {β : Type} {w : Width β}

/-! ## Functions -/

/-- No parameter is one too many exactly if their number is within the limit. -/
theorem parameters_fit {limit : Option Nat} {n : Nat} :
    (∀ i < n, Limits.admits limit (0 + i + 1) = true) ↔ Limits.admits limit n = true := by
  cases limit with
  | none => simp [Limits.admits]
  | some limit =>
      simp only [Limits.admits, decide_eq_true_eq]
      constructor
      · intro h
        cases n with
        | zero => exact Nat.zero_le _
        | succ n =>
            have := h n (Nat.lt_succ_self n)
            omega
      · intro h i hi
        omega

theorem Drafts.fits_of_closure {D : Drafts} {limits : Limits} {level arity : Nat}
    {name : Option Symbol} {body : Fragment}
    (h : (D.emit (.closure level name arity body)).Fits limits) :
    Limits.admits limits.parameters arity = true := by
  have hitems := (Plan.fits_iff.mp ((Drafts.fits_iff _).mp h).1).2.2.2.2.2
  have hmem : Item.function ((body 0).plan (level + 1) name arity) ∈
      (D.emit (.closure level name arity body)).current.piece.constants :=
    List.mem_append_right _ (List.mem_singleton_self _)
  exact (Plan.fits_iff.mp (hitems _ hmem)).1

namespace FunctionTree

/-- A function compiles to a closure of its plan. -/
theorem compiles_mk {x : Symbol} {ps : List Symbol} {ds : List Declaration} {ts : List Kind}
    (hds : Declaration.CompilesEach w ds ts) : Compiles w (.mk x ps ds)
      (.openParen :: parameterTokens ps ++ .closeParen :: .openBrace :: ts ++ [.closeBrace]) := by
  intro D kind hfresh hspared
  simp only [ImplicitNames.spared_append, ImplicitNames.spared_cons, List.cons_append] at hspared
  obtain ⟨_, ⟨_, _, _, hspared⟩, _⟩ := hspared
  let D₁ := D.function kind (some x)
  let R := (D.env.function kind).reserveEach ps
  let inside := (D.env.function kind).declareEach ps
  let D₂ := ((D₁.emit R).moveTo inside).setArity ps.length
  let B := Declaration.fragmentEach inside ds
  let D₃ := (D₂.emit B).moveTo (Declaration.afterEach inside ds)
  have henv : D₂.env = inside := ((D.env.function kind).declareEach_eq ps).symm
  have hafter : D.emit (fragment kind D.env (.mk x ps ds)) = D.emit (.closure D.level (some x)
      ps.length fun _ => D₃.current.piece ++ ⟨kind.returnSteps, [], [], 0⟩) := by
    have hlevel : D.env.level = D.level := List.length_map _
    have hpiece : (R ++ B ++ .steps kind.returnSteps) 0 =
        D₃.current.piece ++ ⟨kind.returnSteps, [], [], 0⟩ := by
      show R 0 ++ B (0 + (R 0).constants.length) ++ _ = ∅ ++ R 0 ++ B (∅ ++ R 0).constants.length ++ _
      rw [Piece.empty_append, Nat.zero_add]
      rfl
    rw [fragment, hlevel, Fragment.closure, hpiece]
    rfl
  have hclosure := Meets.endFrame (w := w) (D := D) (d := D₃.current)
  have hbody := hds (D := D₂) rfl hspared
  rw [henv] at hbody
  rw [hafter]
  simp only [compile, Allowed, List.append_assoc, List.cons_append]
  refine Meets.congr (P := ((∀ i < ps.length, Limits.admits w.limits.parameters (0 + i + 1) = true) ∧
    D₁.env.FreeEach ps) ∧ Declaration.AllowedEach inside ds) ((Meets.beginFrame kind (some x)
      hfresh).silent (Meets.beginScope.silent (.token ((Meets.parameters (D := D₁) 0 rfl rfl).bind
        fun hparameters => ?_)))) ?_
  · have hadmits := parameters_fit.mp hparameters.1
    have harity := Meets.setArity (w := w) (D := (D₁.emit R).moveTo inside) (Nat.zero_le _) hadmits
    rw [Limits.clamp_of_admits hadmits]
    refine harity.silent (.token (.token (hbody.last fun _ => .token hclosure)))
  · intro hfits
    rw [parameters_fit]
    have := Drafts.fits_of_closure hfits
    tauto

/-- Methods compile to their closures, each with the instruction that binds it. -/
theorem compilesEach_cons {f : FunctionTree} {fs : List FunctionTree} {ts us : List Kind}
    (hf : f.Compiles w ts) (hfs : CompilesEach w fs us) :
    CompilesEach w (f :: fs) (.identifier f.name :: ts ++ us) := by
  intro D hfresh hspared
  simp only [ImplicitNames.spared_append, ImplicitNames.spared_cons, List.cons_append] at hspared
  obtain ⟨_, hspared, hspared'⟩ := hspared
  let D₁ := D.emit (.item (.string f.name))
  have hrest : Meets D₁ (ts ++ us) (do
      compile (D.names.methodKind f.name) f
      emitWith .method D.constantCount
      compileMethods fs : Compile w.settings Unit) ()
      (Allowed (D.env.names.methodKind f.name) D.env f ∧ AllowedEach D.env fs)
      (((D₁.emit (fragment (D.env.names.methodKind f.name) D.env f)).emit
        (.step (.constant .method D.constantCount))).emit (fragmentEach D.env fs)) :=
    (hf (D := D₁) _ hfresh hspared).bind fun _ => (Meets.emitWith_constant .method _).silent
      (hfs (D := (D₁.emit _).emit _) hfresh hspared')
  simp only [compileMethods, AllowedEach, fragmentEach, Drafts.emit_append, Drafts.emit_withItem,
    List.cons_append]
  refine .token ((Meets.addName f.name).silent (Meets.read_bind (fun s hs => ?_) hrest))
  rw [hs.names]
  rfl

theorem compilesEach_nil : CompilesEach w [] [] := by
  intro D _ _
  simp only [compileMethods, AllowedEach, fragmentEach, Drafts.emit_empty]
  exact Meets.pure

end FunctionTree

/-! ## Classes -/

namespace Drafts

variable (D : Drafts) (classes : List ClassContext)

/-- The same functions inside some classes. -/
def within : Drafts := { D with classes }

@[simp] theorem emit_within (F : Fragment) : (D.within classes).emit F = (D.emit F).within classes :=
  rfl

@[simp] theorem within_within (classes' : List ClassContext) :
    (D.within classes).within classes' = D.within classes' := rfl

variable {D classes}

theorem valid_within : (D.within classes).Valid ↔ D.Valid :=
  ⟨fun h => ⟨h.each, h.ready⟩, fun h => ⟨h.each, h.ready⟩⟩

/-- Reading a variable leaves everything known. -/
theorem valid_load (hv : D.Valid) (name : Symbol) : (D.emit (D.env.load name)).Valid := by
  have hload : D.emit (D.env.load name) = (D.emit (D.env.locate name)).emit
      (.step (D.env.place name D.constantCount).get) :=
    D.emit_append _ _
  rw [hload]
  unfold Environment.locate Environment.place
  cases slot? name D.env.locals with
  | some slot =>
      rw [emit_empty]
      exact valid_emit rfl hv (by simp [Fragment.step, Fragment.steps, Place.get, Place.step, Step.Known])
  | none =>
      cases hfind : Variable.find? name D.env.outer with
      | some v =>
          have hlt : v.level < D.level := by
            have := Variable.level_of_find? hfind
            rwa [show D.env.outer = D.outer.map Draft.locals from rfl, List.length_map] at this
          refine valid_emit rfl (valid_use hv hfind) fun step hstep => ?_
          obtain rfl := List.mem_singleton.mp hstep
          exact mem_captureAll_append D.uses hlt
      | none =>
          refine valid_emit rfl (valid_emit rfl hv ?_) ?_
          · simp [Fragment.item]
          · simp [Fragment.step, Fragment.steps, Place.get, Place.step, Step.Known]

theorem describes_within {s t : Session β} (hs : D.Describes w s) (hnames : t.names = s.names)
    (hframes : t.frames = s.frames) : (D.within t.classes).Describes w t where
  names := hnames.trans hs.names
  classes := rfl
  frames := hframes ▸ hs.frames

end Drafts

namespace Compile.Meets

variable {D : Drafts}

/-- A step that changes the classes only. -/
theorem of_classes {α : Type} {m : Compile w.settings α} {v : α} {classes : List ClassContext}
    (hm : ∀ {s : Session β}, s.classes = D.classes → m.run s = .ok (v, { s with classes })) :
    Meets D [] m v True (D.within classes) := by
  apply of_run
  · exact fun hv _ => Drafts.valid_within.mpr hv
  · exact fun _ h => h
  · intro s _ hD hs
    exact .inl ⟨trivial, hD, _, hm hs.classes, rfl,
      Drafts.describes_within (t := { s with classes }) hs rfl rfl⟩

theorem beginClass : Meets D [] (beginClass : Compile w.settings Unit) () True
    (D.within (⟨false⟩ :: D.classes)) :=
  of_classes fun h => by rw [← h]; rfl

theorem markSuperclass (classes : List ClassContext) :
    Meets (D.within (⟨false⟩ :: classes)) [] (markSuperclass : Compile w.settings Unit) () True
      (D.within (⟨true⟩ :: classes)) :=
  of_classes (D := D.within (⟨false⟩ :: classes)) fun {s} h => by
    show Except.ok ((), { s with classes := s.classes.modifyHead fun _ => ⟨true⟩ }) = _
    rw [h]
    rfl

theorem endClass (context : ClassContext) (classes : List ClassContext) :
    Meets (D.within (context :: classes)) [] (endClass : Compile w.settings ClassContext) context
      True (D.within classes) :=
  of_classes (D := D.within (context :: classes)) fun h => run_endClass h

/-- A variable is read where every local can be read. -/
theorem loadVariable_of_fresh (name : Symbol) (hfresh : D.current.fresh = none) :
    Meets D [] (Compile.loadVariable name : Compile w.settings Unit) () True
      (D.emit (D.env.load name)) :=
  (loadVariable name).congr fun _ => by simp [hfresh]

section Body

variable {name : Symbol} {fs : List FunctionTree} {ts : List Kind}
  (hfs : FunctionTree.CompilesEach w fs ts) (hfresh : D.current.fresh = none)
  (hspared : D.names.Spared ts)
include hfs hfresh hspared

/-- The methods of a class are bound to it while it is on the stack. -/
theorem classBody (context : ClassContext) {classes : List ClassContext} {D' : Drafts}
    (hclasses : D.classes = context :: classes)
    (hleave : Meets (((D.emit (D.env.load name)).emit
        (FunctionTree.fragmentEach D.env fs ++ .simple .pop)).within classes) []
      (if context.hasSuperclass then Compile.endScope else pure () : Compile w.settings Unit) ()
      True D') :
    Meets D (.openBrace :: (ts ++ [.closeBrace]))
      (compileClassBody name (FunctionTree.compileMethods fs) : Compile w.settings Unit) ()
      (FunctionTree.AllowedEach D.env fs) D' := by
  have hmethods := hfs (D := D.emit (D.env.load name)) hfresh hspared
  have hend := Meets.endClass (w := w) (D := ((D.emit (D.env.load name)).emit
    (FunctionTree.fragmentEach D.env fs)).emit (.simple .pop)) context classes
  have hsame : D.within (context :: classes) = D := by
    rw [← hclasses]
    rfl
  rw [← Drafts.emit_within, ← Drafts.emit_within, ← Drafts.emit_within, hsame] at hend
  unfold compileClassBody
  refine (loadVariable_of_fresh name hfresh).silent (.token
    (hmethods.last fun _ => .token ((Meets.emit .pop).silent (hend.silent ?_))))
  rw [Drafts.emit_append] at hleave
  exact hleave

/-- A class without a superclass from its opening brace on. -/
theorem plainClass : Meets (D.within (⟨false⟩ :: D.classes)) (.openBrace :: (ts ++ [.closeBrace]))
      (compileClassBody name (FunctionTree.compileMethods fs) : Compile w.settings Unit) ()
      (FunctionTree.AllowedEach (D.env.inClass ⟨false⟩) fs)
      (D.emit (D.env.classFragment name none fun inside => FunctionTree.fragmentEach inside fs)) := by
  rw [Environment.classFragment, Fragment.append_assoc, Drafts.emit_append]
  refine classBody (D := D.within (⟨false⟩ :: D.classes)) hfs hfresh hspared ⟨false⟩ rfl ?_
  rw [if_neg Bool.false_ne_true]
  exact Meets.pure

omit hfs hspared in
/-- The superclass of a class is bound to a local of the scope around its methods. -/
theorem superclassClause (superclass : Symbol) :
    Meets (D.within (⟨false⟩ :: D.classes)) [.operator .less, .identifier superclass]
      (compileSuperclass name (some superclass) : Compile w.settings Unit) () (superclass ≠ name)
      ((((D.emit (D.env.load superclass)).emit (D.env.enter.reserve ++
        ((D.env.enter.declare D.env.names.super).load name ++ .simple .inherit))).moveTo
          (D.env.enter.declare D.env.names.super)).within (⟨true⟩ :: D.classes)) := by
  let inside := D.env.enter.declare D.env.names.super
  let E := D.within (⟨false⟩ :: D.classes)
  let D₁ := ((E.emit (D.env.load superclass)).moveTo D.env.enter).emit D.env.enter.reserve
  let D₂ := D₁.moveTo inside
  let D₃ := (D₂.emit (inside.load name)).emit (.simple .inherit)
  have hload := loadVariable_of_fresh (w := w) (D := E) superclass hfresh
  have hsuper : Meets ((E.emit (D.env.load superclass)).moveTo D.env.enter) []
      (Compile.addLocal D.env.names.super : Compile w.settings Unit) () True
      (D₁.hold (some D.env.names.super)) :=
    addLocal _ hfresh
  have hdefine := defineVariable (w := w) (D := D₁) D.env.names.super 0 hfresh
  rw [show D₁.env.define 0 = ∅ from rfl, Drafts.emit_empty] at hdefine
  have hname : Meets D₂ [] (Compile.loadVariable name : Compile w.settings Unit) () True
      (D₂.emit (inside.load name)) :=
    loadVariable_of_fresh (D := D₂) name hfresh
  have hmark : Meets D₃ [] (Compile.markSuperclass : Compile w.settings Unit) () True
      (D₃.within (⟨true⟩ :: D.classes)) :=
    markSuperclass (D := D₃) D.classes
  have hrest : Meets ((E.emit (D.env.load superclass)).moveTo D.env.enter) [] (do
        Compile.addLocal D.env.names.super
        Compile.defineVariable 0
        Compile.loadVariable name
        Compile.emit .inherit
        Compile.markSuperclass : Compile w.settings Unit) () True (D₃.within (⟨true⟩ :: D.classes)) :=
    hsuper.silent (hdefine.silent (hname.silent ((Meets.emit .inherit).silent hmark)))
  simp only [Drafts.emit_append]
  unfold compileSuperclass
  refine .token (.token (hload.silent ((guard not_cleanly_report fun _ =>
    beginScope.silent (read_bind (fun s hs => ?_) hrest)).congr fun _ => by simp)))
  rw [hs.names]
  rfl

/-- A class with a superclass from its superclass on. -/
theorem subclass (superclass : Symbol) (hv : D.Valid) :
    Meets (D.within (⟨false⟩ :: D.classes))
      (.operator .less :: .identifier superclass :: .openBrace :: (ts ++ [.closeBrace]))
      (do
        compileSuperclass name (some superclass)
        compileClassBody name (FunctionTree.compileMethods fs) : Compile w.settings Unit) ()
      (superclass ≠ name ∧
        FunctionTree.AllowedEach (D.env.classBody (some superclass)) fs)
      (D.emit (D.env.classFragment name (some superclass) fun inside =>
        FunctionTree.fragmentEach inside fs)) := by
  let inside := D.env.enter.declare D.env.names.super
  let D₁ := D.emit (D.env.load superclass)
  let F := D.env.enter.reserve ++ (inside.load name ++ .simple .inherit)
  let M := inside.load name ++ (FunctionTree.fragmentEach (inside.inClass ⟨true⟩) fs ++ .simple .pop)
  have hclass : D.emit (D.env.classFragment name (some superclass) fun inside =>
      FunctionTree.fragmentEach inside fs) = D₁.emit (D.env.leave inside (F ++ M)) := by
    rw [← D.emit_append]
    simp only [Environment.classFragment, F, M, Fragment.append_assoc]
    rfl
  let D₂ := ((D₁.emit F).moveTo inside).within (⟨true⟩ :: D.classes)
  have hbody : (((D₂.emit (inside.load name)).emit (FunctionTree.fragmentEach
      (inside.inClass ⟨true⟩) fs ++ .simple .pop)).within D.classes) =
        (D₁.emit (F ++ M)).moveTo inside := by
    simp only [M, Drafts.emit_append]
    rfl
  have hleave := leaveScope (w := w) (D := D₁) (F := F ++ M) inside
    (Drafts.valid_load hv superclass) rfl hfresh
  rw [← hbody] at hleave
  rw [hclass]
  exact (superclassClause hfresh superclass).bind fun _ =>
    classBody (D := D₂) hfs hfresh hspared ⟨true⟩ rfl hleave

end Body

end Compile.Meets

namespace Declaration

theorem compiles_varDeclaration {x : Symbol} {value : Option Expression} {ts : List Kind}
    (h : VariableSpelled x value ts) :
    Compiles w (.varDeclaration x value) (.keyword .varWord :: ts) := by
  intro D hfresh hspared
  simp only [compile, Allowed, fragment, after]
  exact .token (.compileVariable hfresh (ImplicitNames.spared_cons.mp hspared).2 h)

theorem compiles_statement {s : Statement} {ts : List Kind} (hs : s.Compiles w ts) :
    Compiles w (.statement s) ts := by
  intro D hfresh hspared
  simp only [compile, Allowed, fragment, after]
  exact hs hfresh hspared

theorem compiles_funDeclaration {f : FunctionTree} {ts : List Kind} (hf : f.Compiles w ts) :
    Compiles w (.funDeclaration f) (.keyword .funWord :: .identifier f.name :: ts) := by
  intro D hfresh hspared
  simp only [ImplicitNames.spared_cons] at hspared
  obtain ⟨_, _, hspared⟩ := hspared
  let D₁ := (D.emit (D.env.header f.name)).moveTo (D.env.declare f.name)
  have henv : D₁.env = D.env.declare f.name :=
    Drafts.env_moveTo_declare (D.emit (D.env.header f.name)) f.name
  have hfunction := hf (D := D₁) .function hfresh hspared
  rw [henv] at hfunction
  have hdefine := Meets.defineVariable_of_fresh (w := w)
    (D := D₁.emit (FunctionTree.fragment .function (D.env.declare f.name) f)) D.nameIndex hfresh
  rw [Drafts.env_emit, henv, Environment.define_declare] at hdefine
  simp only [compile, Allowed, fragment, after, Drafts.emit_declaration]
  exact .token ((Meets.declareNamed f.name hfresh).bind fun _ =>
    (Meets.settle (D := D.emit (D.env.header f.name)) f.name hfresh).silent
      (hfunction.finish fun _ => hdefine))

theorem compiles_classDeclaration {x : Symbol} {y : Option Symbol} {fs : List FunctionTree}
    {ts : List Kind} (hfs : FunctionTree.CompilesEach w fs ts) :
    Compiles w (.classDeclaration x y fs)
      (.keyword .classWord :: .identifier x :: superclassTokens y ++
          .openBrace :: ts ++ [.closeBrace]) := by
  intro D hfresh hspared
  simp only [ImplicitNames.spared_append, ImplicitNames.spared_cons, List.cons_append] at hspared
  obtain ⟨_, _, ⟨_, _, hspared⟩, _⟩ := hspared
  let D₁ := (D.emit (.item (.string x))).emit D.env.reserve
  let E := D₁.emit (.step (.constant .makeClass D.constantCount))
  let D₂ := (E.emit (D.env.define D.constantCount)).moveTo (D.env.declare x)
  have henv : D₂.env = D.env.declare x := Drafts.env_moveTo_declare E x
  have hafter : (D.emit (fragment D.env (.classDeclaration x y fs))).moveTo (D.env.declare x) =
      D₂.emit ((D.env.declare x).classFragment x y fun inside =>
        FunctionTree.fragmentEach inside fs) := by
    rw [fragment, Drafts.emit_withItem, Drafts.emit_append, Drafts.emit_append, Drafts.emit_append]
    rfl
  have hdeclare : Meets (D.emit (.item (.string x))) [] (declareVariable x : Compile w.settings Unit)
      () (D.env.Free x) (D₁.hold (D.env.fresh x)) :=
    Meets.declareVariable x hfresh
  have hmake : Meets (D₁.hold (D.env.fresh x)) []
      (emitWith .makeClass D.constantCount : Compile w.settings Unit) () True
      (E.hold (D.env.fresh x)) :=
    Meets.emitWith_constant .makeClass D.constantCount
  have hdefine : Meets (E.hold (D.env.fresh x)) []
      (defineVariable D.constantCount : Compile w.settings Unit) () True D₂ :=
    Meets.defineVariable (D := E) x D.constantCount hfresh
  have hclass : Meets (D₂.within (⟨false⟩ :: D₂.classes))
      (superclassTokens y ++ .openBrace :: (ts ++ [.closeBrace]))
      (do
        compileSuperclass x y
        compileClassBody x (FunctionTree.compileMethods fs) : Compile w.settings Unit) ()
      (y ≠ some x ∧ FunctionTree.AllowedEach ((D.env.declare x).classBody y) fs)
      (D₂.emit ((D.env.declare x).classFragment x y fun inside =>
        FunctionTree.fragmentEach inside fs)) := by
    rw [← henv]
    cases y with
    | none =>
        exact (Meets.plainClass (D := D₂) hfs hfresh hspared).congr fun _ => by
          simp [Environment.classBody]
    | some superclass =>
        refine Meets.of_valid (fun _ => Drafts.fits_of_emit (D := D₂)) fun hv => ?_
        exact (Meets.subclass (D := D₂) hfs hfresh hspared superclass
          (Drafts.valid_within.mp hv)).congr fun _ => by simp
  simp only [compile, Allowed, after, List.append_assoc, List.cons_append, hafter]
  exact .token (.token ((Meets.addName x).silent (hdeclare.bind fun _ => hmake.silent
    (hdefine.silent (Meets.beginClass.silent hclass)))))

theorem compilesEach_nil : CompilesEach w [] [] := by
  intro D _ _
  simp only [compileEach, AllowedEach, fragmentEach, Drafts.emit_empty]
  exact Meets.pure

theorem compilesEach_cons {d : Declaration} {ds : List Declaration} {ts us : List Kind}
    (hd : d.Compiles w ts) (hds : CompilesEach w ds us) : CompilesEach w (d :: ds) (ts ++ us) := by
  intro D hfresh hspared
  obtain ⟨hspared, hspared'⟩ := ImplicitNames.spared_append.mp hspared
  let D₁ := (D.emit (d.fragment D.env)).moveTo (d.after D.env)
  have henv : D₁.env = d.after D.env := Drafts.env_moveTo_after d
  have hrest := hds (D := D₁) hfresh hspared'
  rw [henv] at hrest
  simp only [compileEach, AllowedEach, fragmentEach, Drafts.emit_append]
  exact (hd hfresh hspared).bind fun _ => hrest

end Declaration

/-! ## All constructs -/

mutual

/-- Every statement compiles to its fragment, exactly if it is allowed. -/
theorem Statement.compiles : ∀ {b : Statement} {ts : List Kind}, b.Spelled ts → b.Compiles w ts
  | _, _, .expression he => Statement.compiles_expression he
  | _, _, .print he => Statement.compiles_print he
  | _, _, .ifThen he hb => Statement.compiles_ifThen he (Statement.compiles hb)
  | _, _, .ifElse _ he hb ho =>
      Statement.compiles_ifElse he (Statement.compiles hb) (Statement.compiles ho)
  | _, _, .whileLoop he hb => Statement.compiles_whileLoop he (Statement.compiles hb)
  | _, _, .forLoop hi hc hn hb => Statement.compiles_forLoop hi hc hn (Statement.compiles hb)
  | _, _, .ret .none => Statement.compiles_ret_none
  | _, _, .ret (.some he) => Statement.compiles_ret_some he
  | _, _, .block hds => Statement.compiles_block (Declaration.compilesEach hds)

/-- Every declaration compiles to its fragment, exactly if it is allowed. -/
theorem Declaration.compiles : ∀ {d : Declaration} {ts : List Kind}, d.Spelled ts → d.Compiles w ts
  | _, _, .classDeclaration hfs =>
      Declaration.compiles_classDeclaration (FunctionTree.compilesEach hfs)
  | _, _, .funDeclaration (.mk hds) =>
      Declaration.compiles_funDeclaration (FunctionTree.compiles_mk (Declaration.compilesEach hds))
  | _, _, .varDeclaration h => Declaration.compiles_varDeclaration h
  | _, _, .statement hb => Declaration.compiles_statement (Statement.compiles hb)

/-- Declarations in a row compile to their fragments, exactly if they are allowed. -/
theorem Declaration.compilesEach : ∀ {ds : List Declaration} {ts : List Kind},
    Declaration.SpelledEach ds ts → Declaration.CompilesEach w ds ts
  | _, _, .nil => Declaration.compilesEach_nil
  | _, _, .cons hd hds =>
      Declaration.compilesEach_cons (Declaration.compiles hd) (Declaration.compilesEach hds)

/-- Methods in a row compile to their fragments, exactly if they are allowed. -/
theorem FunctionTree.compilesEach : ∀ {fs : List FunctionTree} {ts : List Kind},
    FunctionTree.SpelledEach fs ts → FunctionTree.CompilesEach w fs ts
  | _, _, .nil => FunctionTree.compilesEach_nil
  | _, _, .cons (.mk hds) hfs =>
      FunctionTree.compilesEach_cons (FunctionTree.compiles_mk (Declaration.compilesEach hds))
        (FunctionTree.compilesEach hfs)

end

end LoxCompiler
