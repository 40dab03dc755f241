import LoxCompiler.Proofs.Control.Flow

/-! # Where jumps lead

Every jump of structured code leads to the start of one of its steps, or to its end. Jumps ahead
lead past themselves, and jumps back lead no further than to the start of the code.
-/

namespace LoxCompiler

section

variable (P : Nat → Prop)

/-- Something holds of the offsets where some steps start, and of the offset after the last one. -/
def Boundaries : Nat → List Step → Prop
  | o, [] => P o
  | o, s :: code => P o ∧ Boundaries (o + s.size) code

/-- A step at an offset is no jump, or it jumps to an offset of which something holds. -/
def Step.Lands (o : Nat) : Step → Prop
  | .jump op distance =>
      if op = .loop then ∃ target, target + distance = o + 3 ∧ target ≤ o ∧ P target
      else P (o + 3 + distance)
  | _ => True

/-- All jumps among some steps lead to offsets of which something holds. -/
def JumpsLand : Nat → List Step → Prop
  | _, [] => True
  | o, s :: code => s.Lands P o ∧ JumpsLand (o + s.size) code

variable {P}

theorem Boundaries.head {o : Nat} {code : List Step} (h : Boundaries P o code) : P o := by
  cases code with
  | nil => exact h
  | cons s code => exact h.1

theorem boundaries_append {o : Nat} {code more : List Step} :
    Boundaries P o (code ++ more) ↔
      Boundaries P o code ∧ Boundaries P (o + totalSize code) more := by
  induction code generalizing o with
  | nil => exact ⟨fun h => ⟨h.head, h⟩, fun h => h.2⟩
  | cons s code ih =>
      simp only [List.cons_append, Boundaries, ih, totalSize_cons, Nat.add_assoc, and_assoc]

theorem Boundaries.last {o : Nat} {code : List Step} (h : Boundaries P o code) :
    P (o + totalSize code) := by
  rw [← List.append_nil code, boundaries_append] at h
  exact h.2

theorem Boundaries.mono {Q : Nat → Prop} (hPQ : ∀ o, P o → Q o) {o : Nat} {code : List Step}
    (h : Boundaries P o code) : Boundaries Q o code := by
  induction code generalizing o with
  | nil => exact hPQ o h
  | cons s code ih => exact ⟨hPQ o h.1, ih h.2⟩

theorem jumpsLand_append {o : Nat} {code more : List Step} :
    JumpsLand P o (code ++ more) ↔
      JumpsLand P o code ∧ JumpsLand P (o + totalSize code) more := by
  induction code generalizing o with
  | nil => simp [JumpsLand]
  | cons s code ih =>
      simp only [List.cons_append, JumpsLand, ih, totalSize_cons, Nat.add_assoc, and_assoc]

theorem Step.lands_of_isPlain {s : Step} (h : s.isPlain = true) (o : Nat) : s.Lands P o := by
  cases s with
  | jump op distance => cases h
  | _ => trivial

/-- A jump ahead, over some number of cells. -/
theorem Step.Lands.ahead {o distance target : Nat} {op : Opcode} (hop : op ≠ .loop)
    (htarget : o + 3 + distance = target) (h : P target) : (Step.jump op distance).Lands P o := by
  rw [Lands, if_neg hop, htarget]
  exact h

/-- A jump back, over some number of cells with its own. -/
theorem Step.Lands.back {o distance target : Nat} (htarget : target + distance = o + 3)
    (hle : target ≤ o) (h : P target) : (Step.jump .loop distance).Lands P o := by
  rw [Lands, if_pos rfl]
  exact ⟨target, htarget, hle, h⟩

end

variable {P : Nat → Prop}

namespace Flow

/-- Something holds of the offsets that the jumps of structured code lead to, if the code starts at
some offset: the ends of its alternatives, and the starts and ends of what its loops repeat. -/
def Gates (P : Nat → Prop) : Flow → Nat → Prop
  | skip, _ | step _ _, _ => True
  | seq first second, o => first.Gates P o ∧ second.Gates P (o + first.size)
  | when condition yes, o =>
      let start := o + condition.size + 3
      condition.Gates P o ∧ yes.Gates P start ∧ P (start + yes.size)
  | choose condition yes no, o =>
      let start := o + condition.size + 3
      let other := start + yes.size + 3
      condition.Gates P o ∧ yes.Gates P start ∧ no.Gates P other ∧ P other ∧ P (other + no.size)
  | whileTrue condition yes no, o =>
      let start := o + condition.size + 3
      let stop := start + yes.size + 3
      condition.Gates P o ∧ yes.Gates P start ∧ no.Gates P stop ∧ P o ∧ P stop
  | counting condition yes body increment no, o =>
      let start := o + condition.size + 3
      let next := start + yes.size + 3
      let inner := next + increment.size + 3
      let stop := inner + body.size + 3
      (condition.Gates P o ∧ yes.Gates P start ∧ increment.Gates P next ∧ body.Gates P inner ∧
        no.Gates P stop) ∧ P o ∧ P next ∧ P inner ∧ P stop
  | forever body, o => body.Gates P o ∧ P o
  | stepping body increment, o =>
      let inner := o + 3 + increment.size + 3
      increment.Gates P (o + 3) ∧ body.Gates P inner ∧ P o ∧ P (o + 3) ∧ P inner

/-- The jumps of structured code lead to such offsets. -/
theorem Gates.jumpsLand {f : Flow} {o : Nat} (h : f.Gates P o) : JumpsLand P o f.flat := by
  induction f generalizing o with
  | skip => trivial
  | step s plain => exact ⟨Step.lands_of_isPlain plain o, trivial⟩
  | seq first second ih ih' => exact jumpsLand_append.mpr ⟨ih h.1, ih' h.2⟩
  | when condition yes ih ih' =>
      obtain ⟨hcondition, hyes, hend⟩ := h
      exact jumpsLand_append.mpr ⟨ih hcondition, .ahead (by decide) rfl hend, ih' hyes⟩
  | choose condition yes no ih ih' ih'' =>
      obtain ⟨hcondition, hyes, hno, hother, hend⟩ := h
      refine jumpsLand_append.mpr ⟨ih hcondition, .ahead (by decide) ?_ hother,
        jumpsLand_append.mpr ⟨ih' hyes, .ahead (by decide) rfl hend, ih'' hno⟩⟩
      simp only [size]
      omega
  | whileTrue condition yes no ih ih' ih'' =>
      obtain ⟨hcondition, hyes, hno, hstart, hstop⟩ := h
      refine jumpsLand_append.mpr ⟨ih hcondition, .ahead (by decide) ?_ hstop,
        jumpsLand_append.mpr ⟨ih' hyes, .back ?_ ?_ hstart, ih'' hno⟩⟩
      all_goals simp only [size, Step.size]; omega
  | counting condition yes body increment no ih ihYes ihBody ihIncrement ihNo =>
      obtain ⟨⟨hcondition, hyes, hincrement, hbody, hno⟩, hstart, hnext, hinner, hstop⟩ := h
      refine jumpsLand_append.mpr ⟨ih hcondition, .ahead (by decide) ?_ hstop,
        jumpsLand_append.mpr ⟨ihYes hyes, .ahead (by decide) ?_ hinner,
          jumpsLand_append.mpr ⟨ihIncrement hincrement, .back ?_ ?_ hstart,
            jumpsLand_append.mpr ⟨ihBody hbody, .back ?_ ?_ hnext, ihNo hno⟩⟩⟩⟩
      all_goals simp only [size, Step.size]; omega
  | forever body ih =>
      refine jumpsLand_append.mpr ⟨ih h.1, .back ?_ ?_ h.2, trivial⟩
      all_goals omega
  | stepping body increment ih ih' =>
      obtain ⟨hincrement, hbody, hstart, hnext, hinner⟩ := h
      refine ⟨.ahead (by decide) ?_ hinner, jumpsLand_append.mpr ⟨ih' hincrement,
        .back ?_ ?_ hstart, jumpsLand_append.mpr ⟨ih hbody, .back ?_ ?_ hnext, trivial⟩⟩⟩
      all_goals simp only [size, Step.size]; omega

/-- What holds of all starts of steps, and of the end, holds of the offsets that jumps lead to. -/
theorem gates_of_boundaries {f : Flow} {o : Nat} (h : Boundaries P o f.flat) : f.Gates P o := by
  induction f generalizing o with
  | skip | step s plain => trivial
  | seq first second ih ih' =>
      rw [flat, boundaries_append] at h
      exact ⟨ih h.1, ih' h.2⟩
  | when condition yes ih ih' =>
      rw [flat, boundaries_append] at h
      obtain ⟨hcondition, -, hyes⟩ := h
      exact ⟨ih hcondition, ih' hyes, hyes.last⟩
  | choose condition yes no ih ih' ih'' =>
      rw [flat, boundaries_append] at h
      obtain ⟨hcondition, -, hrest⟩ := h
      obtain ⟨hyes, -, hno⟩ := boundaries_append.mp hrest
      exact ⟨ih hcondition, ih' hyes, ih'' hno, hno.head, hno.last⟩
  | whileTrue condition yes no ih ih' ih'' =>
      rw [flat, boundaries_append] at h
      obtain ⟨hcondition, -, hrest⟩ := h
      obtain ⟨hyes, -, hno⟩ := boundaries_append.mp hrest
      exact ⟨ih hcondition, ih' hyes, ih'' hno, hcondition.head, hno.head⟩
  | counting condition yes body increment no ih ihYes ihBody ihIncrement ihNo =>
      rw [flat, boundaries_append] at h
      obtain ⟨hcondition, -, hrest⟩ := h
      obtain ⟨hyes, -, hrest⟩ := boundaries_append.mp hrest
      obtain ⟨hincrement, -, hrest⟩ := boundaries_append.mp hrest
      obtain ⟨hbody, -, hno⟩ := boundaries_append.mp hrest
      exact ⟨⟨ih hcondition, ihYes hyes, ihIncrement hincrement, ihBody hbody, ihNo hno⟩,
        hcondition.head, hincrement.head, hbody.head, hno.head⟩
  | forever body ih =>
      rw [flat, boundaries_append] at h
      exact ⟨ih h.1, h.1.head⟩
  | stepping body increment ih ih' =>
      obtain ⟨hstart, hrest⟩ := h
      obtain ⟨hincrement, -, hrest⟩ := boundaries_append.mp hrest
      obtain ⟨hbody, -⟩ := boundaries_append.mp hrest
      exact ⟨ih' hincrement, ih hbody, hstart, hincrement.head, hbody.head⟩

/-- The jumps of structured code lead to steps of it, or to its end. -/
theorem jumpsLand {f : Flow} {o : Nat} (h : Boundaries P o f.flat) : JumpsLand P o f.flat :=
  (gates_of_boundaries h).jumpsLand

end Flow

end LoxCompiler
