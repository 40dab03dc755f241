import LoxCompiler.Proofs.Limits.Agreement

/-! # Steps that agree

The steps of a compilation agree up to the limits: they read the same tokens, the code that they
emit is the same with other cells, and each of the numbers with a limit is noted where it is
checked.
-/

set_option synthInstance.maxSize 4096

namespace LoxCompiler.Compile

variable {α γ β : Type} {cell : Nat → β}

/-! ## Building blocks -/

theorem agrees_pure {R : γ → α → Prop} {a : α} {b : γ} (h : R b a) :
    Agrees R (pure b : Limited cell γ) fun _ => pure a :=
  agrees_of_run_eq (fun _ _ => rfl) fun hclean hrun => by
    obtain ⟨-, rfl, rfl⟩ := cleanly_pure.mp hclean
    cases hrun
    exact ⟨h, rfl⟩

instance agreeing_pure (a : α) : Agreeing (pure a : Limited cell α) fun _ => pure a :=
  ⟨agrees_pure rfl⟩

instance (m : Limited cell α) (m' : Watched α) (k : α → Limited cell γ)
    (k' : ∀ passes, α → Compile (Width.unbounded.within passes) γ) [hm : Agreeing m m']
    [hk : ∀ a, Agreeing (k a) fun passes => k' passes a] [∀ a, Orderly (k a)]
    [Orderly (m' fun _ => true)] [∀ a, Orderly (k' (fun _ => true) a)] :
    Agreeing (m >>= k) fun passes => m' passes >>= k' passes where
  agrees := hm.agrees.bind (fun a => (hk a).agrees.measuring) fun b a heq => by
    subst heq
    exact (hk b).agrees

/-- A step that goes on by cases on what it has read. -/
theorem Agreeing.bind {m : Limited cell α} {m' : Watched α}
    {k : α → Limited cell γ}
    {k' : ∀ passes, α → Compile (Width.unbounded.within passes) γ} [Agreeing m m']
    [∀ a, Orderly (k a)] [Orderly (m' fun _ => true)] [∀ a, Orderly (k' (fun _ => true) a)]
    (hk : ∀ a, Agreeing (k a) fun passes => k' passes a) :
    Agreeing (m >>= k) fun passes => m' passes >>= k' passes :=
  inferInstance

instance {p : Prop} [Decidable p] (m n : Limited cell α) (m' n' : Watched α)
    [Agreeing m m'] [Agreeing n n'] :
    Agreeing (if p then m else n) fun passes => if p then m' passes else n' passes := by
  split <;> assumption

instance (o : Option γ) (k : γ → Limited cell Unit)
    (k' : ∀ passes, γ → Compile (Width.unbounded.within passes) Unit)
    [hk : ∀ a, Agreeing (k a) fun passes => k' passes a] :
    Agreeing (o.forM k) fun passes => o.forM (k' passes) := by
  cases o with
  | none => exact agreeing_pure ()
  | some a => exact hk a

instance agreeing_forM (as : List γ) (k : γ → Limited cell Unit)
    (k' : ∀ passes, γ → Compile (Width.unbounded.within passes) Unit)
    [hk : ∀ a, Agreeing (k a) fun passes => k' passes a] [∀ a, Orderly (k a)]
    [∀ a, Orderly (k' (fun _ => true) a)] :
    Agreeing (as.forM k) fun passes => as.forM (k' passes) := by
  induction as with
  | nil => exact agreeing_pure ()
  | cons a as ih =>
      exact inferInstanceAs (Agreeing (k a >>= fun _ => as.forM k)
        fun passes => k' passes a >>= fun _ => as.forM (k' passes))

theorem agrees_throw {R : γ → α → Prop} (fault : Fault) :
    Agrees R (throw fault : Limited cell γ) fun _ => throw fault :=
  agrees_of_run_eq (fun _ _ => rfl) fun hclean => (cleanly_throw hclean).elim

instance agreeing_throw (fault : Fault) :
    Agreeing (throw fault : Limited cell α) fun _ => throw fault := ⟨agrees_throw fault⟩

/-- A step that only looks at the state, and what follows. -/
theorem agreeing_look_bind {β β' : Type} {look : Limited cell β'} {look' : Watched β}
    {k : β' → Limited cell γ}
    {k' : ∀ passes, β → Compile (Width.unbounded.within passes) γ} {f : Session Nat → β'}
    {f' : Session Nat → β}
    (hlook : ∀ s : Session Nat, look.run (s.mapCells cell) = .ok (f s, s.mapCells cell))
    (hlook' : ∀ passes s, (look' passes).run s = .ok (f' s, s))
    (hk : ∀ s, Agreeing (k (f s)) fun passes => k' passes (f' s)) :
    Agreeing (look >>= k) fun passes => look' passes >>= k' passes where
  agrees := by
    have hrun (passes : Quantity → Bool) (s : Session Nat) :
        (look' passes >>= k' passes).run s = (k' passes (f' s)).run s :=
      run_bind_of_ok (hlook' passes s)
    constructor
    · constructor
      intro s a t h
      rw [hrun] at h
      obtain ⟨qs, hqs⟩ := (hk s).agrees.measuring.exists_measures h
      exact ⟨qs, fun passes => (hrun passes s).trans (hqs passes)⟩
    · intro s a t qs b u hclean hblank hqs h
      rw [run_bind_of_ok (hlook s)] at h
      have hrest : Cleanly (k' (fun _ => true) (f' s)) s a t :=
        ⟨hclean.before, (hrun _ s).symm.trans hclean.run, hclean.after⟩
      have hnumbers : Measures (fun passes => k' passes (f' s)) s a t qs := fun passes =>
        (hrun passes s).symm.trans (hqs passes)
      exact (hk s).agrees.fitting hrest hblank hnumbers h

/-- What is read is the state with other cells. -/
instance (k : Session β → Limited cell γ)
    (k' : ∀ passes, Session Nat → Compile (Width.unbounded.within passes) γ)
    [hk : ∀ s : Session Nat, Agreeing (k (s.mapCells cell)) fun passes => k' passes s] :
    Agreeing (read >>= k) fun passes => read >>= k' passes :=
  agreeing_look_bind (fun _ => rfl) (fun _ _ => rfl) hk

/-- A step that goes on by cases on the last token taken. -/
theorem Agreeing.previous_bind {k : Token Symbol → Limited cell γ}
    {k' : ∀ passes, Token Symbol → Compile (Width.unbounded.within passes) γ}
    (hk : ∀ token, Agreeing (k token) fun passes => k' passes token) :
    Agreeing (previous >>= k) fun passes => previous >>= k' passes :=
  agreeing_look_bind (fun _ => rfl) (fun _ _ => rfl) fun s => hk s.reader.previous

/-- A step that goes on by cases on the next token. -/
theorem Agreeing.current_bind {k : Token Symbol → Limited cell γ}
    {k' : ∀ passes, Token Symbol → Compile (Width.unbounded.within passes) γ}
    (hk : ∀ token, Agreeing (k token) fun passes => k' passes token) :
    Agreeing (current >>= k) fun passes => current >>= k' passes :=
  agreeing_look_bind (fun _ => rfl) (fun _ _ => rfl) fun s => hk s.reader.current

/-- A change that is the same with other cells. -/
theorem agreeing_change {f : Session β → Except Fault (α × Session β)}
    {f' : Session Nat → Except Fault (α × Session Nat)}
    (h : ∀ s a t, f' s = .ok (a, t) → f (s.mapCells cell) = .ok (a, t.mapCells cell)) :
    Agreeing (change f : Limited cell α) fun _ => change f' where
  agrees := agrees_of_run_eq (fun _ _ => rfl) fun {s a t b u} hclean hrun => by
    have hf : f (s.mapCells cell) = .ok (b, u) := hrun
    rw [h s a t hclean.run] at hf
    cases hf
    exact ⟨rfl, rfl⟩

theorem agreeing_modify {f : Session β → Session β} {f' : Session Nat → Session Nat}
    (h : ∀ s, (f' s).mapCells cell = f (s.mapCells cell)) :
    Agreeing (modify f : Limited cell Unit) fun _ => modify f' :=
  agreeing_change fun s a t hf => by
    cases hf
    rw [h]

/-! ## Reading tokens -/

instance (f : Reader → α × Reader) :
    Agreeing (changeReader f : Limited cell α) fun _ => changeReader f :=
  agreeing_change fun s a t hf => by
    cases hf
    rfl

instance (f : Reader → Reader) :
    Agreeing (modifyReader f : Limited cell Unit) fun _ => modifyReader f := by
  unfold modifyReader
  infer_instance

instance : Agreeing (startExpression : Limited cell Unit) fun _ => startExpression where
  agrees := agrees_of_run_eq (fun _ _ => rfl) fun hclean hrun => by
    have h := hclean.run
    cases h
    cases hrun
    exact ⟨rfl, rfl⟩

instance : Agreeing (previous : Limited cell _) fun _ => previous := by
  unfold previous
  infer_instance

instance : Agreeing (current : Limited cell _) fun _ => current := by
  unfold current
  infer_instance

instance : Agreeing (advance : Limited cell Unit) fun _ => advance := by
  unfold advance
  infer_instance

instance (kind : TokenKind Symbol) :
    Agreeing (check kind : Limited cell Bool) fun _ => check kind := by
  unfold check
  infer_instance

instance (kind : TokenKind Symbol) :
    Agreeing (accept kind : Limited cell Bool) fun _ => accept kind := by
  unfold accept
  infer_instance

instance (kind : TokenKind Symbol) (message : String) :
    Agreeing (consume kind message : Limited cell Unit)
      fun _ => consume kind message := by
  unfold consume
  infer_instance

instance (message : String) :
    Agreeing (consumeIdentifier message : Limited cell Symbol)
      fun _ => consumeIdentifier message := by
  unfold consumeIdentifier
  infer_instance

instance (problem : Diagnostic.Problem) :
    Agreeing (report problem : Limited cell Unit) fun _ => report problem := by
  unfold report
  infer_instance

instance (event : Event) :
    Agreeing (note event : Limited cell Unit) fun _ => note event :=
  agreeing_modify fun _ => rfl

instance : Agreeing (recover : Limited cell Unit) fun _ => recover := by
  unfold recover
  infer_instance

instance (condition : Limited cell Bool) (condition' : Watched Bool)
    (step : Limited cell Unit) (step' : Watched Unit) (budget : Nat)
    [Agreeing condition condition'] [Agreeing step step'] [Orderly condition] [Orderly step]
    [Orderly (condition' fun _ => true)] [Orderly (step' fun _ => true)] :
    Agreeing (repeatWhile condition step budget)
      fun passes => repeatWhile (condition' passes) (step' passes) budget := by
  induction budget with
  | zero => exact agreeing_throw .outOfBudget
  | succ budget ih =>
      unfold repeatWhile
      infer_instance

/-! ## Emitting code -/

/-- What is read is the innermost function with other cells. -/
instance (k : Frame β → Limited cell γ)
    (k' : ∀ passes, Frame Nat → Compile (Width.unbounded.within passes) γ)
    [hk : ∀ f : Frame Nat, Agreeing (k (f.mapCells cell)) fun passes => k' passes f]
    [∀ f, Orderly (k f)] [∀ f, Orderly (k' (fun _ => true) f)] :
    Agreeing (frame >>= k) fun passes => frame >>= k' passes where
  agrees := by
    have hframe : Agrees (fun b a => b = Frame.mapCells cell a)
        (frame : Limited cell (Frame β)) fun _ => frame :=
      agrees_of_run_eq (fun _ _ => rfl) fun {s a t b u} hclean hrun => by
        obtain ⟨names, reader, frames, classes, events⟩ := s
        have h := hclean.run
        cases frames <;> cases h
        cases hrun
        exact ⟨rfl, rfl⟩
    refine hframe.bind (fun f => (hk f).agrees.measuring) fun b f hb => ?_
    subst hb
    exact (hk f).agrees

/-- A step that goes on by cases on the innermost function. -/
theorem Agreeing.frame_bind {k : Frame β → Limited cell γ}
    {k' : ∀ passes, Frame Nat → Compile (Width.unbounded.within passes) γ} [∀ f, Orderly (k f)]
    [∀ f, Orderly (k' (fun _ => true) f)]
    (hk : ∀ f : Frame Nat, Agreeing (k (f.mapCells cell)) fun passes => k' passes f) :
    Agreeing (frame >>= k) fun passes => frame >>= k' passes :=
  inferInstance

/-- A change of the innermost function that is the same with other cells. -/
theorem agreeing_modifyFrame {f : Frame β → Frame β} {f' : Frame Nat → Frame Nat}
    (h : ∀ g, (f' g).mapCells cell = f (g.mapCells cell)) :
    Agreeing (modifyFrame f : Limited cell Unit) fun _ => modifyFrame f' :=
  agreeing_change fun s a t hf => by
    obtain ⟨names, reader, frames, classes, events⟩ := s
    cases frames with
    | nil => cases hf
    | cons g outer =>
        cases hf
        show _ = Except.ok ((), (⟨names, reader,
          (f' g).mapCells cell :: outer.map (Frame.mapCells cell), classes, events⟩ : Session β))
        rw [h]
        rfl

instance : Agreeing (codeSize : Limited cell Nat) fun _ => codeSize := by
  have (f : Frame Nat) : Agreeing (pure (f.mapCells cell).code.size : Limited cell Nat)
      fun _ => pure f.code.size := by
    rw [Array.size_map]
    infer_instance
  unfold codeSize
  infer_instance

instance : Agreeing (constantCount : Limited cell Nat) fun _ => constantCount := by
  have (f : Frame Nat) : Agreeing (pure (f.mapCells cell).constants.size : Limited cell Nat)
      fun _ => pure f.constants.size := by
    rw [Array.size_map]
    infer_instance
  unfold constantCount
  infer_instance

instance (value : Nat) :
    Agreeing (emitCell value : Limited cell Unit) fun _ => emitCell value := by
  have (line : Nat) : Agreeing
      (modifyFrame (·.write ((Width.bounded cell).cell value) line) : Limited cell Unit)
      fun _ => modifyFrame (·.write (Width.unbounded.cell value) line) :=
    agreeing_modifyFrame fun f => f.mapCells_write cell value line
  unfold emitCell
  infer_instance

instance (op : Opcode) :
    Agreeing (emit op : Limited cell Unit) fun _ => emit op := by
  unfold emit
  infer_instance

instance (op : Opcode) (operand : Nat) :
    Agreeing (emitWith op operand : Limited cell Unit) fun _ => emitWith op operand := by
  unfold emitWith
  infer_instance

/-- A report is the oldest one if nothing was reported before it. -/
theorem reports_report (problem : Diagnostic.Problem) (k : Unit → Limited cell α)
    [∀ a, Orderly (k a)] : Reports problem (report problem >>= k) := by
  intro s b u hquiet hblank hrun
  rw [run_bind_of_ok (t := { s with reader := s.reader.reportPrevious problem }) rfl] at hrun
  exact Orderly.keeps (Reader.stable_opens problem) hrun (Reader.opens_report hquiet hblank _)

theorem reports_reportCurrent (problem : Diagnostic.Problem)
    (k : Unit → Limited cell α) [∀ a, Orderly (k a)] :
    Reports problem (reportCurrent problem >>= k) := by
  intro s b u hquiet hblank hrun
  rw [run_bind_of_ok (t := { s with reader := s.reader.reportCurrent problem }) rfl] at hrun
  exact Orderly.keeps (Reader.stable_opens problem) hrun (Reader.opens_report hquiet hblank _)

theorem agreeing_addConstant (cell : Nat → β) (value : Constant Nat) :
    Agreeing (addConstant (value.mapCells cell) : Limited cell Nat)
      fun _ => addConstant value := by
  have hadd : Agreeing
      (modifyFrame (·.addConstant (value.mapCells cell)) : Limited cell Unit)
      fun _ => modifyFrame (·.addConstant value) :=
    agreeing_modifyFrame fun f => f.mapCells_addConstant cell value
  unfold addConstant
  dsimp only
  refine .bind fun _ => .bind fun size => ⟨agrees_measure ?_ (fun hfits => ?_) fun hnot => ?_⟩
  · exact inferInstanceAs (Measuring fun _ => pure (size - 1))
  · have hroom : Limits.admits (Width.bounded cell).limits.constantIndex (size - 1) = true := hfits
    rw [if_pos hroom]
    exact (agreeing_pure (size - 1)).agrees
  · have hroom : ¬ Limits.admits (Width.bounded cell).limits.constantIndex (size - 1) = true :=
      ne_true_of_eq_false hnot
    rw [if_neg hroom]
    exact reports_report _ _

instance (name : Symbol) :
    Agreeing (addName name : Limited cell Nat) fun _ => addName name := by
  unfold addName
  rw [← Constant.mapCells_string]
  exact agreeing_addConstant cell (.string name)

theorem agreeing_emitConstant (value : Constant Nat) :
    Agreeing (emitConstant (value.mapCells cell) : Limited cell Unit)
      fun _ => emitConstant value := by
  have := agreeing_addConstant cell value
  unfold emitConstant
  infer_instance

instance (value : Binary64) : Agreeing
    (emitConstant (.number value) : Limited cell Unit)
    fun _ => emitConstant (.number value) := by
  rw [← Constant.mapCells_number]
  exact agreeing_emitConstant (.number value)

instance (value : Symbol) : Agreeing
    (emitConstant (.string value) : Limited cell Unit)
    fun _ => emitConstant (.string value) := by
  rw [← Constant.mapCells_string]
  exact agreeing_emitConstant (.string value)

/-- A distance that fits is its own operand. -/
theorem agreeing_fitDistance {problem : Diagnostic.Problem} {distance : Nat} {quantity : Quantity}
    (hfits : quantity.fits = decide (distance ≤ 65535)) (hproblem : quantity.problem = problem)
    {k : Nat → Limited cell Unit}
    {k' : ∀ passes, Nat → Compile (Width.unbounded.within passes) Unit}
    [hk : Agreeing (k distance) fun passes => k' passes distance] [∀ n, Orderly (k n)] :
    Agreeing (do
        measure quantity
        k (← fitDistance problem distance))
      fun passes => do
        measure quantity
        k' passes (← fitDistance problem distance) where
  agrees := by
    refine agrees_measure ?_ (fun hfit => ?_) fun hnot => ?_
    · exact hk.agrees.measuring
    · rw [hfits] at hfit
      have heq : fitDistance problem distance >>= k = k distance := by
        have hroom : Limits.admits (Width.bounded cell).limits.distance distance = true := hfit
        unfold fitDistance
        rw [if_pos hroom, pure_bind]
      rw [heq]
      exact hk.agrees
    · rw [hfits] at hnot
      have hroom : ¬ Limits.admits (Width.bounded cell).limits.distance distance = true :=
        ne_true_of_eq_false hnot
      unfold fitDistance
      rw [if_neg hroom, bind_assoc, hproblem]
      exact reports_report _ _

instance (op : Opcode) :
    Agreeing (emitJump op : Limited cell Nat) fun _ => emitJump op := by
  have (operand : Nat) : Agreeing (modifyFrame (·.openJump operand) : Limited cell Unit)
      fun _ => modifyFrame (·.openJump operand) :=
    agreeing_modifyFrame fun f => rfl
  unfold emitJump
  infer_instance

instance (operand : Nat) :
    Agreeing (patchJump operand : Limited cell Unit) fun _ => patchJump operand := by
  have (distance : Nat) : Agreeing
      (modifyFrame (·.closeJump operand ((Width.bounded cell).cell (distance / 256))
        ((Width.bounded cell).cell (distance % 256))) : Limited cell Unit)
      fun _ => modifyFrame (·.closeJump operand (Width.unbounded.cell (distance / 256))
        (Width.unbounded.cell (distance % 256))) :=
    agreeing_modifyFrame fun f => f.mapCells_closeJump cell operand _ _
  have (size : Nat) : Agreeing
      (do
        measure (.jump (size - operand - 2))
        let distance ← fitDistance .jumpTooLarge (size - operand - 2)
        modifyFrame (·.closeJump operand ((Width.bounded cell).cell (distance / 256))
          ((Width.bounded cell).cell (distance % 256))) : Limited cell Unit)
      fun _ => (do
        measure (.jump (size - operand - 2))
        let distance ← fitDistance .jumpTooLarge (size - operand - 2)
        modifyFrame (·.closeJump operand (Width.unbounded.cell (distance / 256))
          (Width.unbounded.cell (distance % 256)))) :=
    agreeing_fitDistance rfl rfl
  unfold patchJump
  infer_instance

instance (start : Nat) :
    Agreeing (emitLoop start : Limited cell Unit) fun _ => emitLoop start := by
  have (size : Nat) : Agreeing
      (do
        measure (.loop (size - start + 2))
        let distance ← fitDistance .loopTooLarge (size - start + 2)
        emitCell (distance / 256)
        emitCell (distance % 256) : Limited cell Unit)
      fun _ => (do
        measure (.loop (size - start + 2))
        let distance ← fitDistance .loopTooLarge (size - start + 2)
        emitCell (distance / 256)
        emitCell (distance % 256)) :=
    agreeing_fitDistance rfl rfl
  unfold emitLoop
  infer_instance

instance : Agreeing (emitReturn : Limited cell Unit) fun _ => emitReturn := by
  unfold emitReturn
  infer_instance

/-! ## Scopes -/

instance : Agreeing (beginScope : Limited cell Unit) fun _ => beginScope :=
  agreeing_modifyFrame fun _ => rfl

instance (locals : List Local) (depth : Nat) :
    Agreeing (leaveScope locals depth : Limited cell Unit)
      fun _ => leaveScope locals depth := by
  cases depth with
  | zero => exact agreeing_throw .noScope
  | succ depth =>
      have hdrop : Agreeing
          (modifyFrame (fun frame : Frame β =>
            { frame with
              scopeDepth := depth
              locals := frame.locals.dropWhile (·.declaredWithin (depth + 1)) }) :
            Limited cell Unit)
          fun _ => (modifyFrame fun frame : Frame Nat =>
            { frame with
              scopeDepth := depth
              locals := frame.locals.dropWhile (·.declaredWithin (depth + 1)) }) :=
        agreeing_modifyFrame fun _ => rfl
      unfold leaveScope
      infer_instance

instance : Agreeing (endScope : Limited cell Unit) fun _ => endScope := by
  simp only [endScope_eq]
  infer_instance

instance (h : Frame Nat → Frame Nat) :
    Measuring fun passes => (modifyFrame h : Compile (Width.unbounded.within passes) Unit) :=
  measuring_of_run_eq fun _ _ => rfl

instance (name : Symbol) :
    Agreeing (addLocal name : Limited cell Unit) fun _ => addLocal name := by
  simp only [addLocal_eq]
  refine .frame_bind fun f => ⟨agrees_measure ?_ (fun hfits => ?_) fun hnot => ?_⟩
  · exact inferInstanceAs (Measuring fun _ => modifyFrame _)
  · have hroom : Limits.admits (Width.bounded cell).limits.locals (f.locals.length + 1) = true :=
      decide_eq_true (Nat.succ_le_succ (of_decide_eq_true hfits))
    have hstore : (storeFrame ((f.mapCells cell).addLocal (Width.bounded cell).limits name) :
        Limited cell Unit) = modifyFrame fun _ =>
          { (f.mapCells cell) with locals := ⟨name, none, false⟩ :: f.locals } := by
      rw [Frame.addLocal, if_pos hroom]
      rfl
    rw [hstore]
    have hsame : Agreeing
        (modifyFrame fun _ => { f.mapCells cell with locals := ⟨name, none, false⟩ :: f.locals } :
          Limited cell Unit)
        fun _ => modifyFrame fun _ => { f with locals := ⟨name, none, false⟩ :: f.locals } :=
      agreeing_modifyFrame fun _ => rfl
    exact hsame.agrees
  · have hroom : ¬ Limits.admits (Width.bounded cell).limits.locals (f.locals.length + 1) = true :=
      fun h => of_decide_eq_false hnot (Nat.le_of_succ_le_succ (of_decide_eq_true h))
    have hstore : (storeFrame ((f.mapCells cell).addLocal (Width.bounded cell).limits name) :
        Limited cell Unit) = report .tooManyLocals >>= pure := by
      rw [Frame.addLocal, if_neg hroom, bind_pure]
      rfl
    rw [hstore]
    exact reports_report _ _

instance (name : Symbol) :
    Agreeing (declareVariable name : Limited cell Unit) fun _ => declareVariable name := by
  unfold declareVariable
  dsimp only
  refine .frame_bind fun f => ?_
  rw [show (f.mapCells cell).declaredInScope name = f.declaredInScope name from rfl]
  infer_instance

instance : Agreeing (markInitialized : Limited cell Unit) fun _ => markInitialized :=
  agreeing_modifyFrame fun f => f.mapCells_markInitialized cell

instance (message : String) : Agreeing (declaredName message : Limited cell Nat)
    fun _ => declaredName message := by
  unfold declaredName
  infer_instance

instance (global : Nat) : Agreeing (defineVariable global : Limited cell Unit)
    fun _ => defineVariable global := by
  unfold defineVariable
  infer_instance

instance (answer : Option (Nat × Bool)) :
    Agreeing (localSlot answer : Limited cell (Option Nat))
      fun _ => localSlot answer := by
  rcases answer with _ | ⟨slot, initialized⟩ <;> unfold localSlot <;> infer_instance

instance (name : Symbol) : Agreeing (resolveLocal name : Limited cell (Option Nat))
    fun _ => resolveLocal name := by
  have (f : Frame Nat) : Agreeing
      (localSlot ((f.mapCells cell).resolveLocal name) : Limited cell (Option Nat))
      fun _ => localSlot (f.resolveLocal name) := by
    rw [show (f.mapCells cell).resolveLocal name = f.resolveLocal name from rfl]
    infer_instance
  simp only [resolveLocal_eq]
  infer_instance

end LoxCompiler.Compile
