import LoxCompiler.Proofs.Invariant.Obeys
import Mathlib.Data.List.Forall2

/-! # What a change of the state appends

The functions under construction change in five ways. Their code may be left as long as it is,
whatever is overwritten in it, with the same lines and constants. The innermost function may get one
more constant, or one more cell on the line of the last token taken. A function without code may be
begun, and the innermost one ended.
-/

namespace LoxCompiler

variable {β : Type}

/-- Some items are read on from a reader, with any reports on the way. -/
def Reader.LeadsTo (r r' : Reader) : Prop := ∀ P : Reader → Prop, Reader.Stable P → P r → P r'

/-- A token is taken between two readers. -/
def Reader.TakenBefore (r r' : Reader) : Prop := ∃ q : Reader, r.LeadsTo q ∧ q.advance.LeadsTo r'

namespace Reader

variable {r r' r'' : Reader}

theorem LeadsTo.refl (r : Reader) : r.LeadsTo r := fun _ _ h => h

theorem LeadsTo.trans (h : r.LeadsTo r') (h' : r'.LeadsTo r'') : r.LeadsTo r'' :=
  fun P hP hr => h' P hP (h P hP hr)

theorem takenBefore_advance (r : Reader) : r.TakenBefore r.advance := ⟨r, .refl r, .refl _⟩

theorem TakenBefore.trans (h : r.TakenBefore r') (h' : r'.LeadsTo r'') : r.TakenBefore r'' := by
  obtain ⟨q, hq, htaken⟩ := h
  exact ⟨q, hq, htaken.trans h'⟩

theorem LeadsTo.takenBefore (h : r.LeadsTo r') (h' : r'.TakenBefore r'') : r.TakenBefore r'' := by
  obtain ⟨q, hq, htaken⟩ := h'
  exact ⟨q, h.trans hq, htaken⟩

end Reader

/-- A function under construction has as much code as another one, with the same lines and
constants. -/
structure Frame.SameLines (f g : Frame β) : Prop where
  size : g.code.size = f.code.size
  lines : g.lines = f.lines
  constants : g.constants = f.constants

namespace Frame.SameLines

variable {f g h : Frame β}

theorem refl (f : Frame β) : f.SameLines f := ⟨rfl, rfl, rfl⟩

theorem markInitialized (f : Frame β) : f.SameLines f.markInitialized := by
  unfold Frame.markInitialized
  split
  · exact .refl f
  · split
    · exact ⟨rfl, rfl, rfl⟩
    · exact .refl f

theorem closeJump (f : Frame β) (operand : Nat) (high low : β) :
    f.SameLines (f.closeJump operand high low) where
  size := by simp [Frame.closeJump]
  lines := rfl
  constants := rfl

theorem addLocal {limits : Limits} {name : Symbol} (h : f.addLocal limits name = .ok g) :
    f.SameLines g := by
  unfold Frame.addLocal at h
  split at h <;> cases h
  exact ⟨rfl, rfl, rfl⟩

theorem addUpvalue {limits : Limits} {u : Upvalue} {index : Nat}
    (h : f.addUpvalue limits u = .ok (g, index)) : f.SameLines g := by
  unfold Frame.addUpvalue at h
  split at h
  · cases h
    exact .refl f
  · split at h <;> cases h
    exact ⟨rfl, rfl, rfl⟩

end Frame.SameLines

namespace Frames

variable {fs gs : Frames β}

theorem sameLines_refl (fs : Frames β) : List.Forall₂ Frame.SameLines fs fs :=
  List.forall₂_same.mpr fun f _ => .refl f

theorem sameLines_captureInnermost (limits : Limits) (f : Frame β) (u : Upvalue)
    (h : List.Forall₂ Frame.SameLines fs gs) :
    List.Forall₂ Frame.SameLines (f :: fs) (captureInnermost limits f gs u).1 := by
  unfold captureInnermost
  split
  · exact .cons (.addUpvalue ‹_›) h
  · exact .cons (.refl f) h

theorem sameLines_resolveUpvalue (limits : Limits) (name : Symbol) (fs : Frames β) :
    List.Forall₂ Frame.SameLines fs (resolveUpvalue limits name fs).1 := by
  fun_induction resolveUpvalue limits name fs with
  | case1 | case2 | case4 => exact sameLines_refl _
  | case3 f next outer slot hlocal =>
      have hnext : next.SameLines (next.captureLocal name) := ⟨rfl, rfl, rfl⟩
      exact sameLines_captureInnermost _ _ _ (.cons hnext (sameLines_refl outer))
  | case5 f next outer hlocal outer' index hinner ih =>
      rw [hinner] at ih
      exact sameLines_captureInnermost _ _ _ ih
  | case6 f next outer hlocal outer' answer hanswer hinner ih =>
      rw [hinner] at ih
      exact .cons (.refl f) ih

/-- What a change of the functions under construction appends, where a line is that of the last token
taken, and only some functions are given as constants. -/
inductive Appends (given : Function β → Prop) (line : Nat) : Frames β → Frames β → Prop
  | keep {fs gs : Frames β} : List.Forall₂ Frame.SameLines fs gs → Appends given line fs gs
  | constant {f outer} (value : Constant β) : (∀ g, value = .function g → given g) →
      Appends given line (f :: outer) (f.addConstant value :: outer)
  | cell {f outer} (cell : β) : Appends given line (f :: outer) (f.write cell line :: outer)
  | start {f outer} : f.code = #[] → f.lines = #[] → f.constants = #[] →
      Appends given line outer (f :: outer)
  | finish {f outer} : Appends given line (f :: outer) outer

theorem Appends.mono {given given' : Function β → Prop} {line : Nat} (h : Appends given line fs gs)
    (hgiven : ∀ g, given g → given' g) : Appends given' line fs gs := by
  cases h with
  | keep h => exact .keep h
  | constant value hvalue => exact .constant value fun g hg => hgiven g (hvalue g hg)
  | cell cell => exact .cell cell
  | start hcode hlines hconstants => exact .start hcode hlines hconstants
  | finish => exact .finish

end Frames

/-- What a change of the state appends. -/
structure Session.Appends (given : Function β → Prop) (s t : Session β) : Prop where
  reader : s.reader.LeadsTo t.reader
  frames : Frames.Appends given s.reader.previous.position.line s.frames t.frames

theorem Session.Appends.mono {given given' : Function β → Prop} {s t : Session β}
    (h : s.Appends given t) (hgiven : ∀ g, given g → given' g) : s.Appends given' t :=
  ⟨h.reader, h.frames.mono hgiven⟩

end LoxCompiler
