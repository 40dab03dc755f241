import LoxCompiler.Compilation

/-! # Orderly steps

A step of a compilation moves its reader in three ways only: it takes tokens, it reports
problems, and it ends a silence. So a property of readers that these three keep is kept by
every step, whatever happens to the functions under construction. And what a step finds in the log
stays there.
-/

set_option synthInstance.maxSize 4096

namespace LoxCompiler

/-- A property of readers that taking tokens, reporting problems and ending a silence keep. -/
structure Reader.Stable (P : Reader → Prop) : Prop where
  advance : ∀ r, P r → P r.advance
  report : ∀ r d, P r → P (r.report d)
  resume : ∀ r, P r → P { r with panicMode := false }

/-- What a report keeps, wherever the reader is, is kept where the next token is looked for. -/
theorem Reader.advanceOver_of_report {P : Reader → Prop} (hreport : ∀ r d, P r → P (r.report d))
    (hmove : ∀ r upcoming current, P r → P { r with upcoming, current }) (r : Reader)
    (items : List (Scanned Symbol)) (h : P r) : P (r.advanceOver items) := by
  fun_induction advanceOver r items with
  | case1 r => exact hmove r _ _ h
  | case2 r token upcoming => exact hmove r _ _ h
  | case3 r e upcoming ih => exact ih (hreport r _ h)

namespace Reader.Stable

variable {P : Reader → Prop}

/-- A property of what was reported is stable if a report keeps it. -/
theorem of_report (hreport : ∀ r d, P r → P (r.report d))
    (hresume : ∀ r, P r → P { r with panicMode := false })
    (hmove : ∀ r upcoming previous current, P r → P { r with upcoming, previous, current }) :
    Stable P where
  advance r h := advanceOver_of_report hreport
    (fun r upcoming current => hmove r upcoming r.previous current) _ _
    (hmove r r.upcoming r.current r.current h)
  report := hreport
  resume := hresume

/-- The first report stays the first one. -/
theorem first (d : Diagnostic) : Stable fun r => r.diagnostics.getLast? = some d := by
  refine of_report (fun r later h => ?_) (fun _ h => h) fun _ _ _ _ h => h
  unfold Reader.report
  split
  · exact h
  · simp [List.getLast?_cons, h]

variable (hP : Stable P)
include hP

theorem accept (r : Reader) (kind : TokenKind Symbol) (h : P r) : P (r.accept kind).2 := by
  unfold Reader.accept
  split
  · exact hP.advance r h
  · exact h

theorem reportAt (r : Reader) (token : Token Symbol) (problem : Diagnostic.Problem) (h : P r) :
    P (r.reportAt token problem) :=
  hP.report r _ h

theorem consume (r : Reader) (kind : TokenKind Symbol) (message : String) (h : P r) :
    P (r.consume kind message) := by
  unfold Reader.consume
  split
  · exact hP.advance r h
  · exact hP.reportAt r _ _ h

theorem consumeIdentifier (r : Reader) (message : String) (h : P r) :
    P (r.consumeIdentifier message).2 := by
  unfold Reader.consumeIdentifier
  split
  · exact hP.advance r h
  · exact hP.reportAt r _ _ h

theorem skipToBoundary (clock : List (Scanned Symbol)) (skipped : Nat) (r : Reader) (h : P r) :
    P (r.skipToBoundary clock skipped).2 := by
  induction clock generalizing skipped r with
  | nil =>
      unfold Reader.skipToBoundary
      split
      · exact h
      · exact hP.advance r h
  | cons item clock ih =>
      unfold Reader.skipToBoundary
      split
      · exact h
      · exact ih _ _ (hP.advance r h)

theorem synchronize (r : Reader) (h : P r) : P r.synchronize.2 :=
  hP.skipToBoundary _ _ _ (hP.resume r h)

end Reader.Stable

namespace Compile

variable {β : Type} {c : Settings β} {α γ : Type}

/-- A step that keeps every stable property of its reader, and everything in the log. -/
class Orderly (step : Compile c α) : Prop where
  keeps : ∀ {P : Reader → Prop}, Reader.Stable P → ∀ {s a t},
    step.run s = .ok (a, t) → P s.reader → P t.reader
  logs : ∀ {s a t}, step.run s = .ok (a, t) → s.events <:+ t.events

theorem run_pure (a : α) (s : Session β) : (pure a : Compile c α).run s = .ok (a, s) := rfl

theorem run_bind (m : Compile c α) (k : α → Compile c γ) (s : Session β) :
    (m >>= k).run s = (m.run s).bind fun (a, t) => (k a).run t := rfl

theorem run_read (s : Session β) : (read : Compile c (Session β)).run s = .ok (s, s) := rfl

theorem run_throw (fault : Fault) (s : Session β) :
    (throw fault : Compile c α).run s = .error fault := rfl

theorem run_bind_of_ok {m : Compile c α} {k : α → Compile c γ} {s t : Session β} {a : α}
    (h : m.run s = .ok (a, t)) : (m >>= k).run s = (k a).run t := by
  rw [run_bind, h]
  rfl

theorem ok_of_run_bind {m : Compile c α} {k : α → Compile c γ} {s u : Session β} {b : γ}
    (h : (m >>= k).run s = .ok (b, u)) :
    ∃ a t, m.run s = .ok (a, t) ∧ (k a).run t = .ok (b, u) := by
  cases hrun : m.run s with
  | error fault =>
      rw [run_bind, hrun] at h
      cases h
  | ok result =>
      obtain ⟨a, t⟩ := result
      rw [run_bind_of_ok hrun] at h
      exact ⟨a, t, rfl, h⟩

/-- A change that succeeds under the audit succeeds without it. -/
theorem ok_of_run_change {f : Session β → Except Fault (α × Session β)} {s t : Session β} {a : α}
    (h : (change f : Compile c α).run s = .ok (a, t)) : f s = .ok (a, t) := by
  unfold run change at h
  split at h
  · exact h
  · cases hf : f s with
    | error fault =>
        rw [hf] at h
        cases h
    | ok result =>
        obtain ⟨b, u⟩ := result
        rw [hf] at h
        dsimp only at h
        split at h
        · exact h
        · cases h

theorem of_run_startExpression {s t : Session β} {a : Unit}
    (h : (startExpression : Compile c Unit).run s = .ok (a, t)) : t = s := by
  unfold run startExpression at h
  split at h
  · cases h
    rfl
  · split at h <;> cases h
    rfl

theorem of_run_measure {quantity : Quantity} {s t : Session β} {a : Unit}
    (h : (measure quantity : Compile c Unit).run s = .ok (a, t)) : t = s := by
  unfold run measure at h
  split at h <;> cases h
  rfl

theorem run_frame {s : Session β} {f : Frame β} {outer : Frames β} (h : s.frames = f :: outer) :
    (frame : Compile c (Frame β)).run s = .ok (f, s) := by
  unfold run frame
  rw [h]
  rfl

theorem of_run_frame {s t : Session β} {f : Frame β}
    (h : (frame : Compile c (Frame β)).run s = .ok (f, t)) :
    t = s ∧ ∃ outer, s.frames = f :: outer := by
  cases hframes : s.frames with
  | nil =>
      unfold run frame at h
      rw [hframes] at h
      cases h
  | cons g outer =>
      cases (run_frame hframes).symm.trans h
      exact ⟨rfl, outer, rfl⟩

theorem of_run_modifyFrame {change : Frame β → Frame β} {s t : Session β} {a : Unit}
    (h : (modifyFrame change : Compile c Unit).run s = .ok (a, t)) :
    ∃ f outer, s.frames = f :: outer ∧ t = { s with frames := change f :: outer } := by
  have hrun := ok_of_run_change h
  cases hframes : s.frames with
  | nil =>
      rw [hframes] at hrun
      cases hrun
  | cons f outer =>
      rw [hframes] at hrun
      cases hrun
      exact ⟨f, outer, rfl, rfl⟩

theorem orderly_of_run {m : Compile c α}
    (hm : ∀ {s a t}, m.run s = .ok (a, t) → t.reader = s.reader ∧ s.events <:+ t.events) :
    Orderly m where
  keeps _ _ _ _ h hp := by rwa [(hm h).1]
  logs h := (hm h).2

theorem orderly_change {f : Session β → Except Fault (α × Session β)}
    (hf : ∀ s a t, f s = .ok (a, t) → t.reader = s.reader ∧ s.events <:+ t.events) :
    Orderly (change f : Compile c α) :=
  orderly_of_run fun h => hf _ _ _ (ok_of_run_change h)

theorem orderly_modify {f : Session β → Session β}
    (hf : ∀ s, (f s).reader = s.reader ∧ s.events <:+ (f s).events) :
    Orderly (modify f : Compile c Unit) := by
  apply orderly_change
  intro s a t h
  cases h
  exact hf s

theorem orderly_changeReader {f : Reader → α × Reader}
    (hf : ∀ {P : Reader → Prop}, Reader.Stable P → ∀ r, P r → P (f r).2) :
    Orderly (changeReader f : Compile c α) where
  keeps hP s a t h hp := by
    have hrun := ok_of_run_change h
    cases hrun
    exact hf hP _ hp
  logs h := by
    have hrun := ok_of_run_change h
    cases hrun
    exact List.suffix_rfl

theorem orderly_modifyReader {f : Reader → Reader}
    (hf : ∀ {P : Reader → Prop}, Reader.Stable P → ∀ r, P r → P (f r)) :
    Orderly (modifyReader f : Compile c Unit) :=
  orderly_changeReader hf

/-! ## Building blocks -/

instance (a : α) : Orderly (pure a : Compile c α) :=
  orderly_of_run fun h => by
    cases h
    exact ⟨rfl, List.suffix_rfl⟩

instance (m : Compile c α) (k : α → Compile c γ) [hm : Orderly m] [hk : ∀ a, Orderly (k a)] :
    Orderly (m >>= k) where
  keeps hP s b u h hp := by
    obtain ⟨a, t, hfirst, hrest⟩ := ok_of_run_bind h
    exact (hk a).keeps hP hrest (hm.keeps hP hfirst hp)
  logs h := by
    obtain ⟨a, t, hfirst, hrest⟩ := ok_of_run_bind h
    exact (hm.logs hfirst).trans ((hk a).logs hrest)

instance {p : Prop} [Decidable p] (m k : Compile c α) [hm : Orderly m] [hk : Orderly k] :
    Orderly (if p then m else k) := by
  split <;> assumption

/-- A step that goes on by cases on what it has read. -/
theorem Orderly.bind {m : Compile c α} {k : α → Compile c γ} [Orderly m] (hk : ∀ a, Orderly (k a)) :
    Orderly (m >>= k) :=
  inferInstance

instance (m : Option γ) (k : γ → Compile c Unit) [hk : ∀ a, Orderly (k a)] :
    Orderly (m.forM k) := by
  cases m with
  | none => exact inferInstanceAs (Orderly (pure () : Compile c Unit))
  | some a => exact hk a

instance orderly_forM (as : List γ) (k : γ → Compile c Unit) [hk : ∀ a, Orderly (k a)] :
    Orderly (as.forM k) := by
  induction as with
  | nil => exact inferInstanceAs (Orderly (pure () : Compile c Unit))
  | cons a as ih => exact inferInstanceAs (Orderly (k a >>= fun _ => as.forM k))

instance : Orderly (read : Compile c (Session β)) :=
  orderly_of_run fun h => by
    cases h
    exact ⟨rfl, List.suffix_rfl⟩

instance (fault : Fault) : Orderly (throw fault : Compile c α) :=
  orderly_of_run nofun

/-! ## Reading tokens -/

instance : Orderly (startExpression : Compile c Unit) :=
  orderly_of_run fun h => by
    obtain rfl := of_run_startExpression h
    exact ⟨rfl, List.suffix_rfl⟩

instance (quantity : Quantity) : Orderly (measure quantity : Compile c Unit) :=
  orderly_of_run fun h => by
    obtain rfl := of_run_measure h
    exact ⟨rfl, List.suffix_rfl⟩

instance : Orderly (previous : Compile c _) :=
  inferInstanceAs (Orderly (do let s ← read; pure s.reader.previous))

instance : Orderly (current : Compile c _) :=
  inferInstanceAs (Orderly (do let s ← read; pure s.reader.current))

instance : Orderly (advance : Compile c Unit) :=
  orderly_modifyReader fun hP r => hP.advance r

instance (kind : TokenKind Symbol) : Orderly (check kind : Compile c Bool) :=
  inferInstanceAs (Orderly (do let s ← read; pure (s.reader.check kind)))

instance (kind : TokenKind Symbol) : Orderly (accept kind : Compile c Bool) :=
  orderly_changeReader fun hP r => hP.accept r kind

instance (kind : TokenKind Symbol) (message : String) :
    Orderly (consume kind message : Compile c Unit) :=
  orderly_modifyReader fun hP r => hP.consume r kind message

instance (message : String) : Orderly (consumeIdentifier message : Compile c Symbol) :=
  orderly_changeReader fun hP r => hP.consumeIdentifier r message

instance (problem : Diagnostic.Problem) : Orderly (report problem : Compile c Unit) :=
  orderly_modifyReader fun hP r => hP.reportAt r _ problem

instance (problem : Diagnostic.Problem) : Orderly (reportCurrent problem : Compile c Unit) :=
  orderly_modifyReader fun hP r => hP.reportAt r _ problem

instance (event : Event) : Orderly (note event : Compile c Unit) :=
  orderly_modify fun s => ⟨rfl, List.suffix_cons event s.events⟩

instance : Orderly (changeReader (·.synchronize) : Compile c Nat) :=
  orderly_changeReader fun hP r => hP.synchronize r

instance : Orderly (recover : Compile c Unit) := by
  unfold recover
  infer_instance

instance (condition : Compile c Bool) (step : Compile c Unit) (budget : Nat)
    [Orderly condition] [Orderly step] : Orderly (repeatWhile condition step budget) := by
  induction budget with
  | zero => exact inferInstanceAs (Orderly (throw .outOfBudget : Compile c Unit))
  | succ budget ih =>
      unfold repeatWhile
      infer_instance

instance (item : Nat → Compile c Unit) (budget count : Nat) [∀ n, Orderly (item n)] :
    Orderly (separated item budget count) := by
  induction budget generalizing count with
  | zero => exact inferInstanceAs (Orderly (throw .outOfBudget : Compile c Nat))
  | succ budget ih =>
      unfold separated
      infer_instance

/-! ## Emitting code -/

instance : Orderly (frame : Compile c (Frame β)) :=
  orderly_of_run fun h => by
    obtain ⟨rfl, -⟩ := of_run_frame h
    exact ⟨rfl, List.suffix_rfl⟩

instance (f : Frame β → Frame β) : Orderly (modifyFrame f : Compile c Unit) :=
  orderly_of_run fun h => by
    obtain ⟨_, _, -, rfl⟩ := of_run_modifyFrame h
    exact ⟨rfl, List.suffix_rfl⟩

instance : Orderly (codeSize : Compile c Nat) := by unfold codeSize; infer_instance

instance : Orderly (constantCount : Compile c Nat) := by unfold constantCount; infer_instance

instance (value : Nat) : Orderly (emitCell value : Compile c Unit) := by
  unfold emitCell
  infer_instance

instance (op : Opcode) : Orderly (emit op : Compile c Unit) := by unfold emit; infer_instance

instance (op : Opcode) (operand : Nat) : Orderly (emitWith op operand : Compile c Unit) := by
  unfold emitWith
  infer_instance

instance (value : Constant β) : Orderly (addConstant value : Compile c Nat) := by
  unfold addConstant
  infer_instance

instance (name : Symbol) : Orderly (addName name : Compile c Nat) := by
  unfold addName
  infer_instance

instance (value : Constant β) : Orderly (emitConstant value : Compile c Unit) := by
  unfold emitConstant
  infer_instance

instance (problem : Diagnostic.Problem) (distance : Nat) :
    Orderly (fitDistance problem distance : Compile c Nat) := by
  unfold fitDistance
  infer_instance

instance (op : Opcode) : Orderly (emitJump op : Compile c Nat) := by
  unfold emitJump
  infer_instance

instance (operand : Nat) : Orderly (patchJump operand : Compile c Unit) := by
  unfold patchJump
  infer_instance

instance (start : Nat) : Orderly (emitLoop start : Compile c Unit) := by
  unfold emitLoop
  infer_instance

instance : Orderly (emitReturn : Compile c Unit) := by unfold emitReturn; infer_instance

/-! ## Scopes, variables and functions -/

instance : Orderly (beginScope : Compile c Unit) := by unfold beginScope; infer_instance

/-- Leave a scope of some depth that is the innermost one of some locals. -/
def leaveScope (locals : List Local) : Nat → Compile c Unit
  | 0 => throw .noScope
  | depth + 1 => do
      let inside := fun (l : Local) => l.declaredWithin (depth + 1)
      let dropped := locals.takeWhile inside
      modifyFrame fun frame =>
        { frame with scopeDepth := depth, locals := frame.locals.dropWhile inside }
      dropped.forM fun l => emit (dropInstruction l)
      note (.scopeLeft depth dropped.length)

theorem endScope_eq : (endScope : Compile c Unit) =
    frame >>= fun f => leaveScope f.locals f.scopeDepth := rfl

instance (locals : List Local) (depth : Nat) :
    Orderly (leaveScope locals depth : Compile c Unit) := by
  unfold leaveScope
  split <;> infer_instance

instance : Orderly (endScope : Compile c Unit) := by
  rw [endScope_eq]
  infer_instance

/-- Go on with a changed function, or report why there is none. -/
def storeFrame : Except Diagnostic.Problem (Frame β) → Compile c Unit
  | .ok frame => modifyFrame fun _ => frame
  | .error problem => report problem

theorem addLocal_eq (name : Symbol) : (addLocal name : Compile c Unit) =
    (do
      let frame ← frame
      measure (.slot frame.locals.length)
      storeFrame (frame.addLocal c.limits name)) := rfl

instance (answer : Except Diagnostic.Problem (Frame β)) :
    Orderly (storeFrame answer : Compile c Unit) := by
  unfold storeFrame
  split <;> infer_instance

instance (name : Symbol) : Orderly (addLocal name : Compile c Unit) := by
  rw [addLocal_eq]
  infer_instance

instance (name : Symbol) : Orderly (declareVariable name : Compile c Unit) := by
  unfold declareVariable
  infer_instance

instance : Orderly (markInitialized : Compile c Unit) := by
  unfold markInitialized
  infer_instance

instance (message : String) : Orderly (declaredName message : Compile c Nat) := by
  unfold declaredName
  infer_instance

instance (global : Nat) : Orderly (defineVariable global : Compile c Unit) := by
  unfold defineVariable
  infer_instance

/-- The slot of a local that was found. One that may not be read yet is reported. -/
def localSlot : Option (Nat × Bool) → Compile c (Option Nat)
  | none => return none
  | some (slot, initialized) => do
      if !initialized then report .selfReferentialInitializer
      return some slot

theorem resolveLocal_eq (name : Symbol) : (resolveLocal name : Compile c (Option Nat)) =
    (do localSlot ((← frame).resolveLocal name)) := rfl

instance (answer : Option (Nat × Bool)) : Orderly (localSlot answer : Compile c (Option Nat)) := by
  unfold localSlot
  split <;> infer_instance

instance (name : Symbol) : Orderly (resolveLocal name : Compile c (Option Nat)) := by
  rw [resolveLocal_eq]
  infer_instance

/-- The index of a captured variable. One that cannot be captured is reported. -/
def upvalueIndex : Except Diagnostic.Problem (Option Nat) → Compile c (Option Nat)
  | .ok index => return index
  | .error problem => do
      report problem
      return some 0

theorem resolveUpvalue_eq (name : Symbol) : (resolveUpvalue name : Compile c (Option Nat)) =
    captureVariable name >>= upvalueIndex := rfl

instance (name : Symbol) : Orderly
    (capture name : Compile c (Except Diagnostic.Problem (Option Nat))) := by
  apply orderly_change
  intro s a t h
  cases h
  exact ⟨rfl, List.suffix_rfl⟩

instance (name : Symbol) : Orderly
    (captureVariable name : Compile c (Except Diagnostic.Problem (Option Nat))) := by
  unfold captureVariable
  infer_instance

instance (answer : Except Diagnostic.Problem (Option Nat)) :
    Orderly (upvalueIndex answer : Compile c (Option Nat)) := by
  unfold upvalueIndex
  split <;> infer_instance

instance (name : Symbol) : Orderly (resolveUpvalue name : Compile c (Option Nat)) := by
  rw [resolveUpvalue_eq]
  infer_instance

/-- How to reach a variable that is no local: as a captured one, or else as a global. -/
def accessOuter (name : Symbol) : Option Nat → Compile c Access
  | some index => return ⟨.getUpvalue, .setUpvalue, index⟩
  | none => return ⟨.getGlobal, .setGlobal, ← addName name⟩

/-- How to reach a variable that may be a local. -/
def accessLocal (name : Symbol) : Option Nat → Compile c Access
  | some slot => return ⟨.getLocal, .setLocal, slot⟩
  | none => do accessOuter name (← resolveUpvalue name)

theorem access_eq (name : Symbol) : (access name : Compile c Access) =
    resolveLocal name >>= accessLocal name := rfl

instance (name : Symbol) (index : Option Nat) :
    Orderly (accessOuter name index : Compile c Access) := by
  unfold accessOuter
  split <;> infer_instance

instance (name : Symbol) (slot : Option Nat) :
    Orderly (accessLocal name slot : Compile c Access) := by
  unfold accessLocal
  split <;> infer_instance

instance (name : Symbol) : Orderly (access name : Compile c Access) := by
  rw [access_eq]
  infer_instance

instance (name : Symbol) : Orderly (loadVariable name : Compile c Unit) := by
  unfold loadVariable
  infer_instance

instance (kind : FunctionKind) (name : Option Symbol) :
    Orderly (beginFrame kind name : Compile c Unit) :=
  orderly_modify fun _ => ⟨rfl, List.suffix_rfl⟩

/-- Take the innermost function off, and give it with what it captures. -/
def takeFrame : Compile c (Function β × List Upvalue) := do
  let frame ← change fun s => do
    let (frame, outer) ← s.frames.pop
    return (frame, { s with frames := outer })
  note (.compiled frame.kind (← previous).position.line frame.code.size frame.constants.size
    frame.upvalues.length)
  return (frame.finish, frame.upvalues)

theorem endFrame_eq : (endFrame : Compile c (Function β × List Upvalue)) =
    emitReturn >>= fun _ => takeFrame := rfl

instance : Orderly (takeFrame : Compile c (Function β × List Upvalue)) := by
  unfold takeFrame
  have hpop : Orderly (change fun s => do
      let (frame, outer) ← s.frames.pop
      return (frame, { s with frames := outer }) : Compile c (Frame β)) := by
    apply orderly_change
    intro s a t h
    cases hf : s.frames.pop with
    | error fault =>
        rw [hf] at h
        cases h
    | ok result =>
        rw [hf] at h
        cases h
        exact ⟨rfl, List.suffix_rfl⟩
  infer_instance

instance : Orderly (endFrame : Compile c (Function β × List Upvalue)) := by
  rw [endFrame_eq]
  infer_instance

instance : Orderly (beginClass : Compile c Unit) :=
  orderly_modify fun _ => ⟨rfl, List.suffix_rfl⟩

instance : Orderly (markSuperclass : Compile c Unit) :=
  orderly_modify fun _ => ⟨rfl, List.suffix_rfl⟩

instance : Orderly (endClass : Compile c ClassContext) := by
  apply orderly_change
  intro s a t h
  split at h <;> cases h
  exact ⟨rfl, List.suffix_rfl⟩

end Compile

end LoxCompiler
