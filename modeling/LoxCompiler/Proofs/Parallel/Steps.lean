import LoxCompiler.Proofs.Parallel.Relation
import LoxCompiler.Proofs.Run.Clean

/-! # Twin steps

Two steps are twins if from sessions that are alike they come to sessions that are alike, with
answers that match, or to the same fault. A step that works with symbols has the step that works
with the matching ones for its twin, and every other step is its own twin.
-/

set_option synthInstance.maxSize 4096

namespace LoxCompiler.Compile

variable {β : Type} {w : Width β} {α γ : Type} {p : Pairing} {R : α → α → Prop} {S : γ → γ → Prop}

/-- What comes of two steps is the same fault, or answers and sessions that match. -/
inductive Outcome (p : Pairing) (R : α → α → Prop) :
    Except Fault (α × Session β) → Except Fault (α × Session β) → Prop
  | fault (fault : Fault) : Outcome p R (.error fault) (.error fault)
  | ok {a a' : α} {s s' : Session β} : R a a' → s.Alike p s' →
      Outcome p R (.ok (a, s)) (.ok (a', s'))

/-- From sessions that are alike, two steps come to what matches. -/
class Twin (p : Pairing) (R : α → α → Prop) (m m' : Compile w.settings α) : Prop where
  run : ∀ {s s' : Session β}, s.Alike p s' → Outcome p R (m.run s) (m'.run s')

/-! ## Building blocks -/

section Blocks

variable {m m' : Compile w.settings α} {k k' : α → Compile w.settings γ}

theorem Twin.bind (hm : Twin p R m m') (hk : ∀ {a a'}, R a a' → Twin p S (k a) (k' a')) :
    Twin p S (m >>= k) (m' >>= k') where
  run {s s'} h := by
    have hfirst := hm.run h
    rw [run_bind, run_bind]
    generalize m.run s = first, m'.run s' = first' at hfirst ⊢
    cases hfirst with
    | fault fault => exact .fault fault
    | ok ha hs => exact (hk ha).run hs

theorem Twin.pure {a a' : α} (h : R a a') :
    Twin p R (pure a : Compile w.settings α) (Pure.pure a') where
  run hs := .ok h hs

instance (a : α) : Twin p Eq (pure a : Compile w.settings α) (pure a) := .pure rfl

instance [hm : Twin p Eq m m'] [hk : ∀ a, Twin p S (k a) (k' a)] : Twin p S (m >>= k) (m' >>= k') :=
  hm.bind fun ha => ha ▸ hk _

instance {m m' : Compile w.settings Symbol} {k k' : Symbol → Compile w.settings γ}
    [hm : Twin p p.name m m'] [hk : ∀ both : p.Match, Twin p S (k both.symbol) (k' both.other)] :
    Twin p S (m >>= k) (m' >>= k') :=
  hm.bind fun hname => hk ⟨_, _, hname⟩

theorem Twin.ite {c c' : Prop} [Decidable c] [Decidable c'] {n n' : Compile w.settings α}
    (hc : c ↔ c') [hm : Twin p R m m'] [hn : Twin p R n n'] :
    Twin p R (if c then m else n) (if c' then m' else n') := by
  by_cases h : c
  · rw [if_pos h, if_pos (hc.mp h)]
    exact hm
  · rw [if_neg h, if_neg fun h' => h (hc.mpr h')]
    exact hn

instance {c : Prop} [Decidable c] {n n' : Compile w.settings α} [Twin p R m m'] [Twin p R n n'] :
    Twin p R (if c then m else n) (if c then m' else n') :=
  .ite Iff.rfl

instance (as : Option γ) (k : γ → Compile w.settings Unit) [hk : ∀ a, Twin p Eq (k a) (k a)] :
    Twin p Eq (as.forM k) (as.forM k) := by
  cases as with
  | none => exact .pure rfl
  | some a => exact hk a

theorem twin_forM {T : γ → γ → Prop} {as as' : List γ} (has : List.Forall₂ T as as')
    {k : γ → Compile w.settings Unit} (hk : ∀ {a a'}, T a a' → Twin p Eq (k a) (k a')) :
    Twin p Eq (as.forM k) (as'.forM k) := by
  induction has with
  | nil => exact .pure rfl
  | cons ha _ ih => exact (hk ha).bind fun _ => ih

instance (as : List γ) (k : γ → Compile w.settings Unit) [hk : ∀ a, Twin p Eq (k a) (k a)] :
    Twin p Eq (as.forM k) (as.forM k) :=
  twin_forM (T := Eq) (List.forall₂_refl as) fun {a a'} (h : a = a') => h ▸ hk a

instance (fault : Fault) : Twin p R (throw fault : Compile w.settings α) (throw fault) where
  run _ := .fault fault

theorem Twin.read_bind {k k' : Session β → Compile w.settings γ}
    (hk : ∀ {s s' : Session β}, s.Alike p s' → Twin p S (k s) (k' s')) :
    Twin p S (read >>= k) (read >>= k') where
  run hs := (hk hs).run hs

theorem twin_change {f f' : Session β → Except Fault (α × Session β)}
    (h : ∀ {s s' : Session β}, s.Alike p s' → Outcome p R (f s) (f' s')) :
    Twin p R (change f : Compile w.settings α) (change f') where
  run hs := h hs

theorem twin_changeReader {f f' : Reader → α × Reader}
    (h : ∀ {r r' : Reader}, r.Alike p r' → R (f r).1 (f' r').1 ∧ (f r).2.Alike p (f' r').2) :
    Twin p R (changeReader f : Compile w.settings α) (changeReader f') :=
  twin_change fun hs => .ok (h hs.reader).1 { hs with reader := (h hs.reader).2 }

theorem twin_modifyReader {f f' : Reader → Reader}
    (h : ∀ {r r' : Reader}, r.Alike p r' → (f r).Alike p (f' r')) :
    Twin p Eq (modifyReader f : Compile w.settings Unit) (modifyReader f') :=
  twin_changeReader fun hr => ⟨rfl, h hr⟩

end Blocks

/-! ## Reading tokens -/

instance : Twin p Eq (startExpression : Compile w.settings Unit) startExpression where
  run hs := .ok rfl hs

instance (quantity : Quantity) :
    Twin p Eq (measure quantity : Compile w.settings Unit) (measure quantity) where
  run hs := .ok rfl hs

instance : Twin p (Token.Alike p) (previous : Compile w.settings _) previous :=
  .read_bind fun hs => .pure hs.reader.previous

instance : Twin p (Token.Alike p) (current : Compile w.settings _) current :=
  .read_bind fun hs => .pure hs.reader.current

theorem Twin.previous_bind {k k' : Token Symbol → Compile w.settings γ}
    (hk : ∀ {token token' : Token Symbol}, token.Alike p token' → Twin p S (k token) (k' token')) :
    Twin p S (previous >>= k) (previous >>= k') :=
  .bind inferInstance hk

theorem Twin.current_bind {k k' : Token Symbol → Compile w.settings γ}
    (hk : ∀ {token token' : Token Symbol}, token.Alike p token' → Twin p S (k token) (k' token')) :
    Twin p S (current >>= k) (current >>= k') :=
  .bind inferInstance hk

instance : Twin p Eq (advance : Compile w.settings Unit) advance :=
  twin_modifyReader fun hr => hr.advance

instance (kind : TokenKind Symbol) [kind.Nameless] :
    Twin p Eq (check kind : Compile w.settings Bool) (check kind) :=
  .read_bind fun hs => .pure (hs.reader.check kind)

instance (kind : TokenKind Symbol) [kind.Nameless] :
    Twin p Eq (accept kind : Compile w.settings Bool) (accept kind) :=
  twin_changeReader fun hr => hr.accept kind

instance (kind : TokenKind Symbol) [kind.Nameless] (message : String) :
    Twin p Eq (consume kind message : Compile w.settings Unit) (consume kind message) :=
  twin_modifyReader fun hr => hr.consume kind message

instance (message : String) :
    Twin p p.name (consumeIdentifier message : Compile w.settings Symbol)
      (consumeIdentifier message) :=
  twin_changeReader fun hr => hr.consumeIdentifier message

instance (problem : Diagnostic.Problem) :
    Twin p Eq (report problem : Compile w.settings Unit) (report problem) :=
  twin_modifyReader fun hr => hr.reportAt _ _ problem

instance (problem : Diagnostic.Problem) :
    Twin p Eq (reportCurrent problem : Compile w.settings Unit) (reportCurrent problem) :=
  twin_modifyReader fun hr => hr.reportAt _ _ problem

/-- What is noted makes no difference. -/
theorem twin_note (event event' : Event) :
    Twin p Eq (note event : Compile w.settings Unit) (note event') :=
  twin_change fun hs => .ok rfl { hs with }

instance : Twin p Eq (recover : Compile w.settings Unit) recover := by
  have hskip : Twin p Eq (changeReader (·.synchronize) : Compile w.settings Nat)
      (changeReader (·.synchronize)) := twin_changeReader fun hr => hr.synchronize
  refine .read_bind fun hs => ?_
  rw [hs.reader.panicMode]
  split
  · exact hskip.bind fun _ => .current_bind fun _ => twin_note _ _
  · exact .pure rfl

instance (condition : Compile w.settings Bool) (step : Compile w.settings Unit) (budget : Nat)
    [Twin p Eq condition condition] [Twin p Eq step step] :
    Twin p Eq (repeatWhile condition step budget) (repeatWhile condition step budget) := by
  induction budget with
  | zero =>
      exact inferInstanceAs
        (Twin p Eq (throw .outOfBudget : Compile w.settings Unit) (throw .outOfBudget))
  | succ budget ih =>
      unfold repeatWhile
      infer_instance

instance (item : Nat → Compile w.settings Unit) (budget count : Nat)
    [∀ n, Twin p Eq (item n) (item n)] :
    Twin p Eq (separated item budget count) (separated item budget count) := by
  induction budget generalizing count with
  | zero =>
      exact inferInstanceAs
        (Twin p Eq (throw .outOfBudget : Compile w.settings Nat) (throw .outOfBudget))
  | succ budget ih =>
      unfold separated
      infer_instance

/-! ## Emitting code -/

instance : Twin p (Frame.Alike p) (frame : Compile w.settings (Frame β)) frame where
  run {s s'} hs := by
    have hframes := hs.frames
    unfold Compile.run frame
    generalize hfs : s.frames = fs, hfs' : s'.frames = fs' at hframes
    cases hframes with
    | nil => exact .fault _
    | cons hframe _ => exact .ok hframe hs

theorem Twin.frame_bind {k k' : Frame β → Compile w.settings γ}
    (hk : ∀ {f f' : Frame β}, f.Alike p f' → Twin p S (k f) (k' f')) :
    Twin p S (frame >>= k) (frame >>= k') :=
  .bind inferInstance hk

theorem twin_modifyFrame {f f' : Frame β → Frame β}
    (h : ∀ {g g' : Frame β}, g.Alike p g' → (f g).Alike p (f' g')) :
    Twin p Eq (modifyFrame f : Compile w.settings Unit) (modifyFrame f') where
  run {s s'} hs := by
    have hframes := hs.frames
    unfold Compile.run modifyFrame change
    dsimp only
    generalize hfs : s.frames = fs, hfs' : s'.frames = fs' at hframes ⊢
    cases hframes with
    | nil => exact .fault _
    | cons hframe houter => exact .ok rfl { hs with frames := .cons (h hframe) houter }

instance : Twin p Eq (codeSize : Compile w.settings Nat) codeSize :=
  .frame_bind fun hf => .pure (congrArg Array.size hf.code)

instance : Twin p Eq (constantCount : Compile w.settings Nat) constantCount :=
  .frame_bind fun hf => .pure hf.constants.length_eq

instance (value : Nat) : Twin p Eq (emitCell value : Compile w.settings Unit) (emitCell value) :=
  .previous_bind fun htoken => twin_modifyFrame fun hf => hf.write _ htoken.line

instance (op : Opcode) : Twin p Eq (emit op : Compile w.settings Unit) (emit op) := by
  unfold emit
  infer_instance

instance (op : Opcode) (operand : Nat) :
    Twin p Eq (emitWith op operand : Compile w.settings Unit) (emitWith op operand) := by
  unfold emitWith
  infer_instance

theorem twin_addConstant {c c' : Constant β} (hc : c.Alike p.name p.line c') :
    Twin p Eq (addConstant c : Compile w.settings Nat) (addConstant c') := by
  have hadd : Twin p Eq (modifyFrame (·.addConstant c) : Compile w.settings Unit)
      (modifyFrame (·.addConstant c')) := twin_modifyFrame fun hf => hf.addConstant hc
  unfold addConstant
  infer_instance

theorem twin_emitConstant {c c' : Constant β} (hc : c.Alike p.name p.line c') :
    Twin p Eq (emitConstant c : Compile w.settings Unit) (emitConstant c') := by
  have := twin_addConstant (w := w) hc
  unfold emitConstant
  infer_instance

instance (x x' : Symbol) [hx : p.Named x x'] :
    Twin p Eq (addName x : Compile w.settings Nat) (addName x') := by
  apply twin_addConstant
  rw [Constant.Alike]
  exact hx.name

instance (problem : Diagnostic.Problem) (distance : Nat) :
    Twin p Eq (fitDistance problem distance : Compile w.settings Nat)
      (fitDistance problem distance) := by
  unfold fitDistance
  infer_instance

instance (op : Opcode) : Twin p Eq (emitJump op : Compile w.settings Nat) (emitJump op) := by
  have hopen (operand : Nat) : Twin p Eq
      (modifyFrame (·.openJump operand) : Compile w.settings Unit)
      (modifyFrame (·.openJump operand)) :=
    twin_modifyFrame fun hf => { hf with openJumps := congrArg (List.cons operand) hf.openJumps }
  unfold emitJump
  infer_instance

instance (operand : Nat) :
    Twin p Eq (patchJump operand : Compile w.settings Unit) (patchJump operand) := by
  have hclose (high low : β) : Twin p Eq
      (modifyFrame (·.closeJump operand high low) : Compile w.settings Unit)
      (modifyFrame (·.closeJump operand high low)) :=
    twin_modifyFrame fun hf => { hf with
      code := congrArg (fun code : Array β =>
        (code.setIfInBounds operand high).setIfInBounds (operand + 1) low) hf.code
      openJumps := congrArg (List.erase · operand) hf.openJumps }
  refine .frame_bind fun hf => ?_
  rw [hf.openJumps]
  infer_instance

instance (start : Nat) : Twin p Eq (emitLoop start : Compile w.settings Unit) (emitLoop start) := by
  unfold emitLoop
  infer_instance

instance : Twin p Eq (emitReturn : Compile w.settings Unit) emitReturn := by
  refine .frame_bind fun hf => ?_
  rw [hf.kind]
  infer_instance

/-! ## Scopes, variables and functions -/

instance : Twin p Eq (beginScope : Compile w.settings Unit) beginScope :=
  twin_modifyFrame fun hf => { hf with scopeDepth := congrArg (· + 1) hf.scopeDepth }

instance : Twin p Eq (endScope : Compile w.settings Unit) endScope := by
  rw [endScope_eq]
  refine .frame_bind fun {f f'} hf => ?_
  rw [hf.scopeDepth]
  cases f'.scopeDepth with
  | zero => exact inferInstanceAs (Twin p Eq (throw .noScope : Compile w.settings Unit) (throw .noScope))
  | succ depth =>
      have hleave : Twin p Eq
          (modifyFrame fun frame => { frame with
            scopeDepth := depth
            locals := frame.locals.dropWhile (·.declaredWithin (depth + 1)) } :
            Compile w.settings Unit)
          (modifyFrame fun frame => { frame with
            scopeDepth := depth
            locals := frame.locals.dropWhile (·.declaredWithin (depth + 1)) }) :=
        twin_modifyFrame fun hf => { hf with
          scopeDepth := rfl
          locals := Local.alike_dropWhile hf.locals _ }
      have hdropped := Local.alike_takeWhile hf.locals (depth + 1)
      refine hleave.bind fun _ => (twin_forM hdropped fun {l l'} hl => ?_).bind fun _ => twin_note _ _
      rw [dropInstruction, hl.captured]
      exact inferInstanceAs (Twin p Eq (emit (dropInstruction l')) (emit _))

variable {x x' : Symbol}

instance [hx : p.Named x x'] : Twin p Eq (addLocal x : Compile w.settings Unit) (addLocal x') := by
  rw [addLocal_eq, addLocal_eq]
  refine .frame_bind fun hf => ?_
  rw [measure_bind, measure_bind]
  obtain ⟨g, g', hg, hg', hadded⟩ | ⟨hg, hg'⟩ := hf.addLocal w.settings.limits hx.name
  · rw [hg, hg']
    exact twin_modifyFrame fun _ => hadded
  · rw [hg, hg']
    exact inferInstanceAs (Twin p Eq (report .tooManyLocals) (report .tooManyLocals))

instance [hx : p.Named x x'] :
    Twin p Eq (declareVariable x : Compile w.settings Unit) (declareVariable x') := by
  refine .frame_bind fun hf => ?_
  rw [hf.scopeDepth, hf.declaredInScope hx.name]
  infer_instance

instance : Twin p Eq (markInitialized : Compile w.settings Unit) markInitialized :=
  twin_modifyFrame fun hf => hf.markInitialized

instance (message : String) :
    Twin p Eq (declaredName message : Compile w.settings Nat) (declaredName message) := by
  have hdepth (x x' : Symbol) [p.Named x x'] : Twin p Eq
      (do if 0 < (← frame).scopeDepth then return 0 else addName x : Compile w.settings Nat)
      (do if 0 < (← frame).scopeDepth then return 0 else addName x') :=
    .frame_bind fun hf => by
      rw [hf.scopeDepth]
      infer_instance
  unfold declaredName
  infer_instance

instance (global : Nat) :
    Twin p Eq (defineVariable global : Compile w.settings Unit) (defineVariable global) := by
  refine .frame_bind fun hf => ?_
  rw [hf.scopeDepth]
  infer_instance

instance (answer : Option (Nat × Bool)) :
    Twin p Eq (localSlot answer : Compile w.settings (Option Nat)) (localSlot answer) := by
  unfold localSlot
  split <;> infer_instance

instance [hx : p.Named x x'] :
    Twin p Eq (resolveLocal x : Compile w.settings (Option Nat)) (resolveLocal x') := by
  rw [resolveLocal_eq, resolveLocal_eq]
  refine .frame_bind fun hf => ?_
  rw [hf.resolveLocal hx.name]
  infer_instance

instance [hx : p.Named x x'] : Twin p Eq
    (captureVariable x : Compile w.settings (Except Diagnostic.Problem (Option Nat)))
    (captureVariable x') := by
  rw [captureVariable_eq, captureVariable_eq]
  refine twin_change fun hs => ?_
  obtain ⟨hframes, hanswer⟩ := Frames.alike_resolveUpvalue hs.frames w.settings.limits hx.name
  exact .ok hanswer { hs with frames := hframes }

instance (answer : Except Diagnostic.Problem (Option Nat)) :
    Twin p Eq (upvalueIndex answer : Compile w.settings (Option Nat)) (upvalueIndex answer) := by
  unfold upvalueIndex
  split <;> infer_instance

instance [p.Named x x'] :
    Twin p Eq (resolveUpvalue x : Compile w.settings (Option Nat)) (resolveUpvalue x') := by
  rw [resolveUpvalue_eq, resolveUpvalue_eq]
  infer_instance

instance (index : Option Nat) [p.Named x x'] :
    Twin p Eq (accessOuter x index : Compile w.settings Access) (accessOuter x' index) := by
  unfold accessOuter
  split <;> infer_instance

instance (slot : Option Nat) [p.Named x x'] :
    Twin p Eq (accessLocal x slot : Compile w.settings Access) (accessLocal x' slot) := by
  unfold accessLocal
  split <;> infer_instance

instance [p.Named x x'] : Twin p Eq (access x : Compile w.settings Access) (access x') := by
  rw [access_eq, access_eq]
  infer_instance

instance [p.Named x x'] : Twin p Eq (loadVariable x : Compile w.settings Unit) (loadVariable x') := by
  unfold loadVariable
  infer_instance

instance (kind : FunctionKind) [hx : p.Named x x'] :
    Twin p Eq (beginFrame kind (some x) : Compile w.settings Unit) (beginFrame kind (some x')) :=
  twin_change fun hs => .ok rfl { hs with
    frames := .cons (.new kind (.some hx.name) (by
      cases kind <;> first | exact hs.this | exact p.anonymous))
      hs.frames }

/-- Two finished functions are alike, and capture the same. -/
def Finished (p : Pairing) (finished finished' : Function β × List Upvalue) : Prop :=
  finished.1.Alike p.name p.line finished'.1 ∧ finished.2 = finished'.2

instance : Twin p (Finished p) (endFrame : Compile w.settings (Function β × List Upvalue))
    endFrame := by
  have hpop : Twin p (Frame.Alike p) (change fun s => do
      let (frame, outer) ← s.frames.pop
      return (frame, { s with frames := outer }) : Compile w.settings (Frame β))
      (change fun s => do
        let (frame, outer) ← s.frames.pop
        return (frame, { s with frames := outer })) := by
    refine twin_change fun {s s'} hs => ?_
    have hframes := hs.frames
    generalize hfs : s.frames = fs, hfs' : s'.frames = fs' at hframes ⊢
    cases hframes with
    | nil => exact .fault _
    | cons hframe houter => exact .ok hframe { hs with frames := houter }
  have hreturn : Twin p Eq (emitReturn : Compile w.settings Unit) emitReturn := inferInstance
  exact hreturn.bind fun _ => hpop.bind fun hframe => .previous_bind fun _ =>
    (twin_note _ _).bind fun _ => .pure ⟨hframe.finish, hframe.upvalues⟩

theorem twin_emitClosure {finished finished' : Function β × List Upvalue}
    (h : Finished p finished finished') :
    Twin p Eq (emitClosure finished : Compile w.settings Unit) (emitClosure finished') := by
  have hconstant : Twin p Eq (addConstant (.function finished.1) : Compile w.settings Nat)
      (addConstant (.function finished'.1)) := by
    apply twin_addConstant
    rw [Constant.Alike]
    exact h.1
  unfold emitClosure
  rw [h.2]
  infer_instance

instance : Twin p Eq (beginClass : Compile w.settings Unit) beginClass :=
  twin_change fun hs => .ok rfl { hs with classes := congrArg (List.cons _) hs.classes }

instance : Twin p Eq (markSuperclass : Compile w.settings Unit) markSuperclass :=
  twin_change fun hs => .ok rfl { hs with
    classes := congrArg (List.modifyHead fun _ => ⟨true⟩) hs.classes }

instance : Twin p Eq (endClass : Compile w.settings ClassContext) endClass := by
  refine twin_change fun hs => ?_
  rw [hs.classes]
  split
  · exact .fault _
  · exact .ok rfl { hs with classes := rfl }

end LoxCompiler.Compile
