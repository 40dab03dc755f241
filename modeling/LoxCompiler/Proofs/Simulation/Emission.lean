import LoxCompiler.Proofs.Simulation.Meets

/-! # Emitting code

Each step that emits code appends one instruction to the draft, with its operands, or turns a
jump that leads nowhere into one that does.
-/

namespace LoxCompiler

open Compile

variable {β : Type} {w : Width β}

namespace Compile

section Runs

variable {s : Session β} {f : Frame β} {frames : Frames β}

theorem run_frame_bind {α : Type} {k : Frame β → Compile w.settings α}
    (h : s.frames = f :: frames) : (frame >>= k).run s = (k f).run s :=
  run_bind_of_ok (run_frame h)

theorem cleanly_frame_bind {α : Type} {k : Frame β → Compile w.settings α} {t : Session β} {a : α}
    (h : s.frames = f :: frames) : Cleanly (frame >>= k) s a t ↔ Cleanly (k f) s a t := by
  have hrun := run_frame_bind (w := w) (k := k) h
  exact ⟨fun hm => ⟨hm.before, hrun ▸ hm.run, hm.after⟩,
    fun hm => ⟨hm.before, hrun.trans hm.run, hm.after⟩⟩

/-- A step that goes on like one that always reports something does so itself. -/
theorem not_cleanly_of_run {α : Type} {m k : Compile w.settings α} {s s' : Session β}
    (hrun : m.run s = k.run s') (hreader : s'.reader = s.reader)
    (h : ∀ a t, ¬ Cleanly k s' a t) (a : α) (t : Session β) : ¬ Cleanly m s a t :=
  fun hm => h a t ⟨hreader ▸ hm.before, hrun ▸ hm.run, hm.after⟩

/-- A distance that does not fit is reported. -/
theorem not_cleanly_fitDistance {α : Type} {problem : Diagnostic.Problem} {distance : Nat}
    {k : Nat → Compile w.settings α} [∀ n, Orderly (k n)]
    (h : Limits.admits w.limits.distance distance = false) (a : α) (t : Session β) :
    ¬ Cleanly (fitDistance problem distance >>= k) s a t := by
  intro hm
  obtain ⟨_, _, hm, _⟩ := hm.of_bind
  rw [fitDistance, if_neg (by simp [h])] at hm
  exact not_cleanly_report_bind hm

/-- An open jump is closed with the distance to the end of the code, if that fits. -/
theorem run_patchJump {operand n : Nat} (hframes : s.frames = f :: frames)
    (hopen : operand ∈ f.openJumps) (hsize : f.code.size = operand + 2 + n) :
    (patchJump operand : Compile w.settings Unit).run s =
      (do
        let distance ← fitDistance .jumpTooLarge n
        modifyFrame (·.closeJump operand (w.cell (distance / 256)) (w.cell (distance % 256))) :
        Compile w.settings Unit).run s := by
  have hcontains : f.openJumps.contains operand = true := List.contains_iff_mem.mpr hopen
  have hdistance : operand + 2 + n - operand - 2 = n := by omega
  have hinside : ¬ operand + 2 + n < operand + 2 := by omega
  unfold patchJump
  rw [run_frame_bind hframes, codeSize]
  simp only [hcontains, Bool.not_true, Bool.false_eq_true, if_false, bind_assoc, pure_bind]
  rw [run_frame_bind hframes]
  simp [hsize, hinside, hdistance]

end Runs

/-- A step appends cells to the innermost function, and does nothing else. -/
structure Writes (m : Compile w.settings Unit) (cells : List Nat) : Prop where
  run : ∀ {s f frames}, s.frames = f :: frames → ∃ lines, m.run s = .ok ((), { s with
    frames := { f with code := f.code ++ (cells.map w.cell).toArray, lines } :: frames })

theorem writes_emitCell (value : Nat) :
    Writes (emitCell value : Compile w.settings Unit) [value] where
  run {s _ _} h :=
    ⟨_, run_modifyFrame (w := w) (·.write (w.cell value) s.reader.previous.position.line) h⟩

theorem Writes.append {m k : Compile w.settings Unit} {cells more : List Nat}
    (hm : Writes m cells) (hk : Writes k more) :
    Writes (m >>= fun _ => k) (cells ++ more) where
  run {s f frames} h := by
    obtain ⟨lines, hrun⟩ := hm.run h
    obtain ⟨lines', hrun'⟩ := hk.run (s := { s with frames := _ :: frames }) rfl
    refine ⟨lines', (run_bind_of_ok hrun).trans (hrun'.trans ?_)⟩
    simp

theorem writes_emit (op : Opcode) :
    Writes (emit op : Compile w.settings Unit) [op.toByte.toNat] :=
  writes_emitCell _

theorem writes_emitWith (op : Opcode) (operand : Nat) :
    Writes (emitWith op operand : Compile w.settings Unit) [op.toByte.toNat, operand] :=
  (writes_emit op).append (writes_emitCell operand)

/-- The operand of a jump back is the distance to an offset from the end of it, if that fits. -/
theorem run_emitLoop {s : Session β} {f : Frame β} {frames : Frames β} {start n : Nat}
    (hframes : s.frames = f :: frames) (hsize : f.code.size = start + n) :
    ∃ s', s'.reader = s.reader ∧
      (emit .loop : Compile w.settings Unit).run s = .ok ((), s') ∧
      (emitLoop start : Compile w.settings Unit).run s =
        (do
          let distance ← fitDistance .loopTooLarge (n + 3)
          emitCell (distance / 256)
          emitCell (distance % 256) : Compile w.settings Unit).run s' := by
  obtain ⟨lines, hop⟩ := (writes_emit (w := w) .loop).run hframes
  refine ⟨_, ?_, hop, ?_⟩
  · rfl
  have hdistance : start + n + 1 - start + 2 = n + 3 := by omega
  have hinside : ¬ start + n + 1 < start := by omega
  unfold emitLoop
  rw [run_bind_of_ok hop, codeSize, bind_assoc, run_frame_bind rfl, pure_bind]
  simp [hsize, hinside, hdistance]

theorem writes_pure : Writes (pure () : Compile w.settings Unit) [] where
  run {s f frames} h := ⟨f.lines, by simp [run_pure, ← h]⟩

theorem writes_forM {ι : Type} (items : List ι) {k : ι → Compile w.settings Unit}
    {cells : ι → List Nat} (hk : ∀ i, Writes (k i) (cells i)) :
    Writes (items.forM k) (items.flatMap cells) := by
  induction items with
  | nil => exact writes_pure
  | cons i items ih => exact (hk i).append ih

end Compile

/-- Writing the operand of a jump after some cells. -/
theorem set_operand {before after : List β} {n : Nat} (hn : before.length = n) {a b c x y : β} :
    ((before ++ a :: b :: c :: after).set (n + 1) x).set (n + 1 + 1) y =
      before ++ a :: x :: y :: after := by
  subst hn
  simp [List.set_append_right, Nat.add_assoc]

namespace Draft

/-- A draft with a jump that leads nowhere yet, and a piece after it. -/
def openOver (d : Draft) (op : Opcode) (p : Piece) : Draft :=
  { d with piece := d.piece ++ (⟨[.pending op], [], [], 0⟩ ++ p) }

/-- A draft with a jump over a piece. -/
def jumpOver (d : Draft) (op : Opcode) (p : Piece) : Draft :=
  { d with piece := d.piece ++ p.jumpOver op 0 }

section Jumps

variable {d : Draft} {op : Opcode} {p : Piece} {level : Nat} {uses : List Variable}
  {limits : Limits}

theorem uses_jumpOver : (d.jumpOver op p).piece.uses = (d.openOver op p).piece.uses := by
  simp [jumpOver, openOver, Piece.jumpOver]

theorem mem_code_jumpOver {step : Step} : step ∈ (d.jumpOver op p).piece.code ↔
    step ∈ d.piece.code ∨ step = .jump op p.size ∨ step ∈ p.code := by
  simp [jumpOver, Piece.jumpOver]

theorem mem_code_openOver {step : Step} : step ∈ (d.openOver op p).piece.code ↔
    step ∈ d.piece.code ∨ step = .pending op ∨ step ∈ p.code := by
  simp [openOver]

theorem size_openOver : (d.openOver op p).piece.size = d.piece.size + 3 + p.size := by
  rw [Nat.add_assoc]
  simp only [openOver, Piece.size_append]
  rfl

theorem operand_openOver : d.piece.size + 1 ∈ pendingOperands 0 (d.openOver op p).piece.code := by
  simp [openOver, pendingOperands_append, pendingOperands, Piece.size]

/-- A jump uses no captured variable, wherever it leads. -/
theorem Valid.jumpOver (h : (d.openOver op p).Valid level uses) :
    (d.jumpOver op p).Valid level uses where
  live := h.live
  known step hstep := by
    rcases mem_code_jumpOver.mp hstep with hstep | rfl | hstep
    · exact h.known step (mem_code_openOver.mpr (.inl hstep))
    · trivial
    · exact h.known step (mem_code_openOver.mpr (.inr (.inr hstep)))

/-- A jump that leads somewhere is within the limits if its distance is. -/
theorem fits_jumpOver_iff : (d.jumpOver op p).Fits limits level uses ↔
    (d.openOver op p).Fits limits level uses ∧ Limits.admits limits.distance p.size = true := by
  constructor
  · intro h
    refine ⟨Plan.Fits.of_le h (Nat.le_refl _) (Nat.le_refl _) ?_ (List.prefix_refl _)
      (Nat.le_refl _), (Plan.fits_iff.mp h).2.2.1 _ (mem_code_jumpOver.mpr (.inr (.inl rfl)))⟩
    intro step hstep
    rcases mem_code_openOver.mp hstep with hstep | rfl | hstep
    · exact .inl (mem_code_jumpOver.mpr (.inl hstep))
    · exact .inr trivial
    · exact .inl (mem_code_jumpOver.mpr (.inr (.inr hstep)))
  · rintro ⟨h, hadmits⟩
    refine Plan.Fits.of_le h (Nat.le_refl _) (Nat.le_refl _) ?_ (List.prefix_refl _) (Nat.le_refl _)
    intro step hstep
    rcases mem_code_jumpOver.mp hstep with hstep | rfl | hstep
    · exact .inl (mem_code_openOver.mpr (.inl hstep))
    · exact .inr hadmits
    · exact .inl (mem_code_openOver.mpr (.inr (.inr hstep)))

end Jumps

end Draft

namespace Draft.Describes

variable {level : Nat} {around uses : List Variable} {d : Draft} {f : Frame β}

/-- The size of a described frame. -/
theorem size_code (h : d.Describes w level around uses f) : f.code.size = d.piece.size := by
  have := congrArg List.length h.code
  rwa [List.length_map, length_cellsOf, Array.length_toList] at this

/-- A described frame with the cells of some instructions after its code. -/
theorem append (h : d.Describes w level around uses f) {p : Piece} {values : List (Constant β)}
    (hvalues : values.map Constant.eraseLines = Item.assembleEach w (level + 1) p.constants)
    (lines : Array Nat) {jumps : List Nat} (hjumps : f.openJumps ⊆ jumps)
    (hp : ∀ operand ∈ pendingOperands d.piece.size p.code, operand ∈ jumps) :
    Describes w level around uses { d with piece := d.piece ++ p }
      { f with
        code := f.code ++ ((cellsOf level (captureAll level uses) p.code).map w.cell).toArray
        constants := f.constants ++ values.toArray, lines, openJumps := jumps } where
  kind := h.kind
  name := h.name
  arity := h.arity
  code := by simp [h.code]
  constants := by
    have hconstants := h.constants
    rw [Item.assembleEach_eq] at hvalues hconstants ⊢
    simp [hconstants, hvalues]
  jumps := by
    intro operand hoperand
    rw [Piece.code_append, pendingOperands_append, List.mem_append] at hoperand
    rcases hoperand with hoperand | hoperand
    · exact hjumps (h.jumps operand hoperand)
    · rw [Nat.zero_add] at hoperand
      exact hp operand hoperand
  locals := h.locals
  upvalues := h.upvalues
  depth := h.depth

/-- A described frame with a jump that leads to the end of the code, where it led nowhere. -/
theorem closeJump {op : Opcode} {p : Piece} (h : (d.openOver op p).Describes w level around uses f) :
    (d.jumpOver op p).Describes w level around uses
      (f.closeJump (d.piece.size + 1) (w.cell (p.size / 256)) (w.cell (p.size % 256))) where
  kind := h.kind
  name := h.name
  arity := h.arity
  code := by
    have hcode := h.code
    have hlength : ((cellsOf level (captureAll level uses) d.piece.code).map w.cell).length =
        d.piece.size := by
      rw [List.length_map, length_cellsOf]
      rfl
    simp only [openOver, Piece.code_append, cellsOf_append, List.map_append] at hcode
    simp only [Frame.closeJump, Array.toList_setIfInBounds, hcode]
    rw [show cellsOf level (captureAll level uses) [Step.pending op] =
      [op.toByte.toNat, 0xff, 0xff] from rfl]
    simp only [List.map_cons, List.map_nil, List.cons_append, List.nil_append]
    rw [set_operand hlength]
    simp [jumpOver, Piece.jumpOver, cellsOf, Step.cells]
  constants := by
    have hconstants := h.constants
    simpa [openOver, jumpOver, Piece.jumpOver, Frame.closeJump] using hconstants
  jumps := by
    intro operand hoperand
    rw [jumpOver, Piece.code_append, pendingOperands_append, List.mem_append] at hoperand
    have hold : operand ∈ pendingOperands 0 (d.openOver op p).piece.code := by
      simp only [openOver, Piece.code_append, pendingOperands_append, List.mem_append]
      exact hoperand.imp id fun hin => .inr (by
        simpa [Piece.jumpOver, pendingOperands, Step.size] using hin)
    have hne : operand ≠ d.piece.size + 1 := by
      rcases hoperand with hin | hin
      · have := bounds_of_mem_pendingOperands hin
        unfold Piece.size
        omega
      · have hbounds := bounds_of_mem_pendingOperands (show operand ∈ pendingOperands
          (0 + totalSize d.piece.code + (Step.pending op).size) p.code from hin)
        unfold Piece.size
        simp only [Step.size] at hbounds
        omega
    exact (List.mem_erase_of_ne hne).mpr (h.jumps operand hold)
  locals := h.locals
  upvalues := h.upvalues
  depth := h.depth

end Draft.Describes

/-- A described state with the cells of a fragment after the code of the innermost function. -/
theorem Drafts.Describes.emit {D : Drafts} {s : Session β} (hs : D.Describes w s) {f : Frame β}
    {frames : Frames β} (hframes : s.frames = f :: frames) {F : Fragment}
    (huses : (F D.constantCount).uses = []) (values : List (Constant β))
    (hvalues : values.map Constant.eraseLines =
      Item.assembleEach w (D.level + 1) (F D.constantCount).constants)
    (lines : Array Nat) (jumps : List Nat) (hjumps : f.openJumps ⊆ jumps)
    (hp : ∀ operand ∈ pendingOperands D.size (F D.constantCount).code, operand ∈ jumps) :
    (D.emit F).Describes w { s with frames := { f with
      code := f.code ++
        ((cellsOf D.level D.captures (F D.constantCount).code).map w.cell).toArray
      constants := f.constants ++ values.toArray, lines, openJumps := jumps } :: frames } := by
  have hsame : (D.current.piece ++ F D.constantCount).uses = D.uses := by
    rw [Piece.uses_append, huses, List.append_nil]
    rfl
  refine Drafts.Describes.change hs hframes (congrArg (exported D.level) hsame) ?_ rfl rfl rfl
  intro hf
  rw [show (D.current.piece ++ F D.current.piece.constants.length).uses = D.uses from hsame]
  exact hf.append hvalues lines hjumps hp

namespace Compile

variable {D : Drafts}

namespace Meets

/-- What is read from the innermost function is what its draft says. -/
theorem frame_bind {α : Type} {v : α} {P : Prop} {ts : List Kind} {D' : Drafts}
    {k : Frame β → Compile w.settings α} {l : Compile w.settings α}
    (hk : ∀ f, D.current.Describes w D.level D.around D.uses f → k f = l)
    (h : Meets D ts l v P D') : Meets D ts (frame >>= k) v P D' where
  valid := h.valid
  fits := h.fits
  sound hv hfits hs hm := by
    obtain ⟨_, _, f, frames, hframes, hf, _⟩ := (Drafts.describes_iff D).mp hs
    rw [cleanly_frame_bind hframes, hk f hf] at hm
    exact h.sound hv hfits hs hm
  complete hv hs htakes hP hfits := by
    obtain ⟨_, _, f, frames, hframes, hf, _⟩ := (Drafts.describes_iff D).mp hs
    obtain ⟨a, t, hm⟩ := h.complete hv hs htakes hP hfits
    refine ⟨a, t, ?_⟩
    rw [cleanly_frame_bind hframes, hk f hf]
    exact hm

/-- A step that writes the cells of some instructions. -/
theorem of_writes {m : Compile w.settings Unit} {code : List Step}
    (hm : Writes m (cellsOf D.level D.captures code))
    (hknown : ∀ step ∈ code, step.Known D.level D.captures)
    (hfits : ∀ step ∈ code, step.Fits w.limits)
    (hdone : ∀ step ∈ code, ∀ op, step ≠ .pending op) :
    Meets D [] m () True (D.emit (.steps code)) := by
  apply of_run
  · exact fun hv _ => Drafts.valid_emit rfl hv hknown
  · exact fun _ => Drafts.fits_of_emit
  · intro s _ hD hs
    have hD' : (D.emit (.steps code)).Fits w.limits :=
      Drafts.fits_emit rfl hD hfits (by simp [Fragment.steps]) (.inl rfl) (by
        cases w.limits.locals <;> rfl)
    obtain ⟨_, _, f, frames, hframes, _⟩ := (Drafts.describes_iff D).mp hs
    obtain ⟨lines, hrun⟩ := hm.run hframes
    refine .inl ⟨trivial, hD', _, hrun, rfl, ?_⟩
    have hnew := hs.emit hframes (F := .steps code) rfl [] rfl lines f.openJumps
      (List.Subset.refl _) (by simp [Fragment.steps, pendingOperands_eq_nil hdone])
    simpa [Fragment.steps] using hnew

/-- A step that writes the cells of an instruction. -/
theorem of_writes_step {m : Compile w.settings Unit} (step : Step)
    (hm : Writes m (step.cells D.level D.captures)) (hknown : step.Known D.level D.captures)
    (hfits : step.Fits w.limits) (hdone : ∀ op, step ≠ .pending op) :
    Meets D [] m () True (D.emit (.step step)) := by
  apply of_writes
  · rw [show cellsOf D.level D.captures [step] = step.cells D.level D.captures from
      List.flatMap_singleton ..]
    exact hm
  · simpa using hknown
  · simpa using hfits
  · simpa using hdone

protected theorem emit (op : Opcode) :
    Meets D [] (emit op : Compile w.settings Unit) () True (D.emit (.simple op)) :=
  of_writes_step (.simple op) (writes_emit op) trivial trivial (by simp)

theorem emit_forM (ops : List Opcode) : Meets D [] (ops.forM emit : Compile w.settings Unit) ()
    True (D.emit (.steps (ops.map .simple))) := by
  apply of_writes
  · have hcells : cellsOf D.level D.captures (ops.map .simple) =
        ops.flatMap fun op => [op.toByte.toNat] := by
      simp [cellsOf, List.flatMap_map, Step.cells]
    rw [hcells]
    exact writes_forM ops writes_emit
  · simp [Step.Known]
  · simp [Step.Fits]
  · simp

theorem emitWith_byte (op : Opcode) (operand : Nat) (hfits : (Step.byte op operand).Fits w.limits) :
    Meets D [] (emitWith op operand : Compile w.settings Unit) () True
      (D.emit (.step (.byte op operand))) :=
  of_writes_step (.byte op operand) (writes_emitWith op operand) trivial hfits (by simp)

theorem emitWith_constant (op : Opcode) (index : Nat) :
    Meets D [] (emitWith op index : Compile w.settings Unit) () True
      (D.emit (.step (.constant op index))) :=
  of_writes_step (.constant op index) (writes_emitWith op index) trivial trivial (by simp)

theorem emitWith_captured (op : Opcode) {v : Variable} (hv : v ∈ D.captures) :
    Meets D [] (emitWith op (D.captures.idxOf v) : Compile w.settings Unit) () True
      (D.emit (.step (.captured op v))) :=
  of_writes_step (.captured op v) (writes_emitWith op _) hv trivial (by simp)

theorem emitWith_invoke (op : Opcode) (index arguments : Nat)
    (hfits : Limits.admits w.limits.arguments arguments = true) :
    Meets D [] (do emitWith op index; emitCell arguments : Compile w.settings Unit) () True
      (D.emit (.step (.invoke op index arguments))) :=
  of_writes_step (.invoke op index arguments)
    ((writes_emitWith op index).append (writes_emitCell arguments)) trivial hfits (by simp)

end Meets

/-- The index of a constant that was added, if it is within the limits. -/
def checkIndex (index : Nat) : Compile w.settings Nat := do
  if Limits.admits w.limits.constantIndex index then return index
  else
    report .tooManyConstants
    return 0

instance (index : Nat) : Orderly (checkIndex index : Compile w.settings Nat) := by
  unfold checkIndex
  infer_instance

theorem addConstant_eq (value : Constant β) : (addConstant value : Compile w.settings Nat) =
    (do
      modifyFrame (·.addConstant value)
      checkIndex ((← constantCount) - 1)) := rfl

namespace Meets

/-- A constant is added, and its index is given. -/
theorem addConstant {value : Constant β} {item : Item}
    (hvalue : value.eraseLines = item.assemble w (D.level + 1)) (hitem : item.Fits w.limits) :
    Meets D [] (addConstant value : Compile w.settings Nat) D.constantCount True
      (D.emit (.item item)) := by
  apply of_run
  · exact fun hv _ => Drafts.valid_emit rfl hv (by simp [Fragment.item])
  · exact fun _ => Drafts.fits_of_emit
  · intro s _ hD hs
    obtain ⟨_, _, f, frames, hframes, hf, _⟩ := (Drafts.describes_iff D).mp hs
    have hcount : f.constants.size = D.constantCount := by
      have := congrArg List.length hf.constants
      rwa [Item.assembleEach_eq, List.length_map, List.length_map, Array.length_toList] at this
    have hrun : (Compile.addConstant value : Compile w.settings Nat).run s =
        (checkIndex D.constantCount : Compile w.settings Nat).run
          { s with frames := f.addConstant value :: frames } := by
      rw [addConstant_eq, run_bind_of_ok (run_modifyFrame _ hframes), constantCount, bind_assoc,
        run_frame_bind rfl, pure_bind]
      simp [Frame.addConstant, hcount]
    cases hadmits : Limits.admits w.limits.constantIndex D.constantCount with
    | true =>
        have hD' : (D.emit (.item item)).Fits w.limits :=
          Drafts.fits_emit rfl hD (by simp [Fragment.item]) (by simpa [Fragment.item] using hitem)
            (.inr (by simpa [Fragment.item] using hadmits)) (by cases w.limits.locals <;> rfl)
        refine .inl ⟨trivial, hD', { s with frames := f.addConstant value :: frames }, ?_, rfl, ?_⟩
        · rw [hrun, checkIndex, if_pos hadmits, run_pure]
        · have hnew := hs.emit hframes (F := .item item) rfl [value]
            (by simp [Fragment.item, Item.assembleEach, hvalue]) f.lines f.openJumps
            (List.Subset.refl _)
            (by simp [Fragment.item, pendingOperands])
          simpa [Fragment.item, cellsOf, Frame.addConstant] using hnew
    | false =>
        refine .inr ⟨?_, ?_⟩
        · rintro ⟨_, hD'⟩
          have hindex := (Plan.fits_iff.mp ((Drafts.fits_iff _).mp hD').1).2.2.2.1
          have hlength : ((D.emit (.item item)).current.plan (D.emit (.item item)).level
              (D.emit (.item item)).uses).constants.length = D.constantCount + 1 :=
            List.length_append
          rw [hlength, Nat.add_sub_cancel, hadmits] at hindex
          cases hindex
        · apply not_cleanly_of_run hrun rfl
          intro a t hm
          rw [checkIndex, if_neg (by simp [hadmits])] at hm
          exact not_cleanly_report_bind hm

/-- The cells of a jump that leads nowhere yet. The answer is where its operand is. -/
protected theorem emitJump (op : Opcode) :
    Meets D [] (emitJump op : Compile w.settings Nat) (D.size + 1) True
      (D.emit (.step (.pending op))) := by
  apply of_run
  · exact fun hv _ => Drafts.valid_emit rfl hv (by simp [Fragment.step, Fragment.steps, Step.Known])
  · exact fun _ => Drafts.fits_of_emit
  · intro s _ hD hs
    have hD' : (D.emit (.step (.pending op))).Fits w.limits :=
      Drafts.fits_emit rfl hD (by simp [Fragment.step, Fragment.steps, Step.Fits])
        (by simp [Fragment.step, Fragment.steps]) (.inl rfl) (by cases w.limits.locals <;> rfl)
    obtain ⟨_, _, f, frames, hframes, hf, _⟩ := (Drafts.describes_iff D).mp hs
    obtain ⟨lines, hop⟩ := (writes_emit (w := w) op).run hframes
    obtain ⟨lines', hcells⟩ := ((writes_emitCell (w := w) 0xff).append (writes_emitCell 0xff)).run
      (s := { s with frames := { f with
        code := f.code ++ ([op.toByte.toNat].map w.cell).toArray, lines } :: frames }) rfl
    refine .inl ⟨trivial, hD', { s with frames := { f with
      code := f.code ++ (((Step.pending op).cells D.level D.captures).map w.cell).toArray
      lines := lines', openJumps := (D.size + 1) :: f.openJumps } :: frames }, ?_, rfl, ?_⟩
    · have hsize : f.code.size = D.size := hf.size_code
      unfold Compile.emitJump
      rw [run_bind_of_ok hop, codeSize, bind_assoc, run_frame_bind rfl, pure_bind, ← bind_assoc,
        run_bind_of_ok hcells, run_bind_of_ok (run_modifyFrame _ rfl), run_pure]
      simp [Frame.openJump, hsize, Step.cells]
    · have hnew := hs.emit hframes (F := .step (.pending op)) rfl [] rfl lines'
        ((D.size + 1) :: f.openJumps) (List.subset_cons_self _ _)
        (by simp [Fragment.step, Fragment.steps, pendingOperands])
      simpa [Fragment.step, Fragment.steps, cellsOf] using hnew

/-- A jump back to an offset. -/
protected theorem emitLoop (start : Nat) (hstart : start ≤ D.size) :
    Meets D [] (emitLoop start : Compile w.settings Unit) () True
      (D.emit (.step (.jump .loop (D.size - start + 3)))) := by
  apply of_run
  · exact fun hv _ => Drafts.valid_emit rfl hv (by simp [Fragment.step, Fragment.steps, Step.Known])
  · exact fun _ => Drafts.fits_of_emit
  · intro s _ hD hs
    obtain ⟨_, _, f, frames, hframes, hf, _⟩ := (Drafts.describes_iff D).mp hs
    have hsize : f.code.size = start + (D.size - start) := by
      rw [hf.size_code, Nat.add_sub_cancel' hstart]
      rfl
    obtain ⟨s', hreader, hop, hrun⟩ := run_emitLoop (w := w) hframes hsize
    cases hadmits : Limits.admits w.limits.distance (D.size - start + 3) with
    | true =>
        have hD' : (D.emit (.step (.jump .loop (D.size - start + 3)))).Fits w.limits :=
          Drafts.fits_emit rfl hD (by simpa [Fragment.step, Fragment.steps, Step.Fits] using hadmits)
            (by simp [Fragment.step, Fragment.steps]) (.inl rfl) (by cases w.limits.locals <;> rfl)
        obtain ⟨lines', hcells⟩ := ((writes_emit (w := w) .loop).append
          ((writes_emitCell ((D.size - start + 3) / 256)).append
            (writes_emitCell ((D.size - start + 3) % 256)))).run hframes
        rw [run_bind_of_ok hop] at hcells
        rw [fitDistance, if_pos hadmits, pure_bind] at hrun
        refine .inl ⟨trivial, hD', _, hrun.trans hcells, rfl, ?_⟩
        have hnew := hs.emit hframes (F := .step (.jump .loop (D.size - start + 3))) rfl
          [] rfl lines' f.openJumps (List.Subset.refl _)
          (by simp [Fragment.step, Fragment.steps, pendingOperands])
        simpa [Fragment.step, Fragment.steps, cellsOf, Step.cells] using hnew
    | false =>
        refine .inr ⟨?_, not_cleanly_of_run hrun hreader ?_⟩
        · rintro ⟨_, hD'⟩
          have : Limits.admits w.limits.distance (D.size - start + 3) = true :=
            Drafts.fits_of_mem hD' (List.mem_append_right _ (List.mem_singleton_self _))
          rw [hadmits] at this
          cases this
        · exact not_cleanly_fitDistance hadmits

/-- A jump that leads nowhere yet is led to the end of the code. -/
protected theorem patchJump (op : Opcode) (body : Fragment) :
    Meets ((D.emit (.step (.pending op))).emit body) []
      (patchJump (D.size + 1) : Compile w.settings Unit) () True (D.emit (.jumpOver op 0 body)) := by
  let p := body D.constantCount
  rw [← Drafts.emit_append]
  show Meets (D.change (·.openOver op p)) [] _ () True
    ((D.change (·.openOver op p)).change fun _ => D.current.jumpOver op p)
  have huses : (D.current.jumpOver op p).piece.uses = (D.change (·.openOver op p)).uses :=
    Draft.uses_jumpOver
  apply of_change (Limits.admits w.limits.distance p.size = true)
  · exact congrArg (exported D.level) huses
  · exact fun hv => huses ▸ hv.jumpOver
  · exact huses ▸ Draft.fits_jumpOver_iff
  · intro s f frames hframes _ hf
    have hsize : f.code.size = D.size + 1 + 2 + p.size := hf.size_code.trans Draft.size_openOver
    have hrun := run_patchJump (w := w) hframes (hf.jumps _ Draft.operand_openOver) hsize
    cases hadmits : Limits.admits w.limits.distance p.size with
    | true =>
        rw [fitDistance, if_pos hadmits, pure_bind, run_modifyFrame _ hframes] at hrun
        exact .inl ⟨rfl, _, _, hrun, huses ▸ hf.closeJump⟩
    | false =>
        exact .inr ⟨Bool.false_ne_true,
          not_cleanly_of_run hrun rfl (not_cleanly_fitDistance hadmits)⟩

end Meets

end Compile

end LoxCompiler
