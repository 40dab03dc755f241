import LoxCompiler.Proofs.PostOrder.Generate
import LoxCompiler.Proofs.Stack.Capture
import Mathlib.Data.List.Forall2

/-! # The constants of an expression

Generating the code of an expression adds the names and literals of the tree to the constants of
the innermost function, in the order of the source. Only global variables need their names. Which
variables are global does not change while code is generated: captures change neither the names of
locals nor the constants.
-/

namespace LoxCompiler

variable {β : Type}

/-- Whether a name means a global variable, since no function has a local of that name. -/
def Frames.isGlobal (frames : Frames β) (name : Symbol) : Bool :=
  frames.all fun f => decide (name ∉ f.locals.map Local.name)

section Entries

variable (names : ImplicitNames) (isGlobal : Symbol → Bool)

/-- The constant that an access to a variable needs. -/
def Access.entries (name : Symbol) : List (Constant β) :=
  if isGlobal name then [.string name] else []

/-- The constant that a literal needs. -/
def Literal.entries : Literal Symbol → List (Constant β)
  | .nil | .boolean _ => []
  | .number value => [.number value]
  | .string value => [.string value]

mutual

/-- The names and literals of an expression that become constants, in the order of the source. -/
def Expression.entries : Expression → List (Constant β)
  | .literal value => value.entries
  | .variable name => Access.entries isGlobal name
  | .assign name value => Access.entries isGlobal name ++ value.entries
  | .receiver => Access.entries isGlobal names.this
  | .superGet method =>
      .string method :: (Access.entries isGlobal names.this ++ Access.entries isGlobal names.super)
  | .superCall method arguments =>
      .string method :: (Access.entries isGlobal names.this ++
        (Expression.entriesEach arguments ++ Access.entries isGlobal names.super))
  | .group inner | .unary _ inner => inner.entries
  | .binary _ left right | .and left right | .or left right => left.entries ++ right.entries
  | .call callee arguments => callee.entries ++ Expression.entriesEach arguments
  | .get object property => object.entries ++ [.string property]
  | .set object property value => object.entries ++ .string property :: value.entries
  | .invoke object method arguments =>
      object.entries ++ .string method :: Expression.entriesEach arguments

/-- The constants of some expressions, one after the other. -/
def Expression.entriesEach : List Expression → List (Constant β)
  | [] => []
  | e :: es => e.entries ++ Expression.entriesEach es

end

end Entries

/-! ## What the generator leaves as it is -/

/-- Two functions under construction have the same constants, and locals of the same names. -/
structure Frame.SameScope (f g : Frame β) : Prop where
  constants : g.constants = f.constants
  locals : g.locals.map Local.name = f.locals.map Local.name

namespace Frame.SameScope

theorem refl (f : Frame β) : f.SameScope f := ⟨rfl, rfl⟩

theorem captureLocal (f : Frame β) (name : Symbol) : f.SameScope (f.captureLocal name) :=
  ⟨rfl, Local.map_capture (fun _ => rfl) name f.locals⟩

theorem addUpvalue {limits : Limits} {f g : Frame β} {upvalue : Upvalue} {index : Nat}
    (h : f.addUpvalue limits upvalue = .ok (g, index)) : f.SameScope g := by
  unfold Frame.addUpvalue at h
  split at h
  · cases h
    exact refl f
  · split at h
    · cases h
      exact ⟨rfl, rfl⟩
    · cases h

end Frame.SameScope

namespace Frames

theorem sameScope_captureInnermost (limits : Limits) {f : Frame β} {outer outer' : Frames β}
    (h : List.Forall₂ Frame.SameScope outer outer') (upvalue : Upvalue) :
    List.Forall₂ Frame.SameScope (f :: outer) (captureInnermost limits f outer' upvalue).1 := by
  unfold captureInnermost
  split
  · exact .cons (.addUpvalue ‹_›) h
  · exact .cons (.refl f) h

theorem sameScope_refl (frames : Frames β) : List.Forall₂ Frame.SameScope frames frames :=
  List.forall₂_same.mpr fun f _ => .refl f

/-- Looking up a variable changes neither constants nor names. -/
theorem sameScope_resolveUpvalue (limits : Limits) (name : Symbol) (frames : Frames β) :
    List.Forall₂ Frame.SameScope frames (resolveUpvalue limits name frames).1 := by
  induction frames with
  | nil => exact .nil
  | cons f frames ih =>
      cases frames with
      | nil => exact sameScope_refl [f]
      | cons next outer =>
          unfold resolveUpvalue
          split
          · exact sameScope_captureInnermost limits
              (.cons (.captureLocal next name) (sameScope_refl outer)) _
          · exact sameScope_refl _
          · split
            · rename_i heq
              rw [heq] at ih
              exact sameScope_captureInnermost limits ih _
            · rename_i heq
              rw [heq] at ih
              exact .cons (.refl f) ih

theorem captureInnermost_ne_none (limits : Limits) (f : Frame β) (outer : Frames β)
    (upvalue : Upvalue) : (captureInnermost limits f outer upvalue).2 ≠ .ok none := by
  unfold captureInnermost
  split <;> simp

/-- Nothing is captured exactly if no function around has a local of the name. -/
theorem resolveUpvalue_eq_none_iff (limits : Limits) (name : Symbol) (f : Frame β)
    (frames : Frames β) : (resolveUpvalue limits name (f :: frames)).2 = .ok none ↔
      frames.isGlobal name = true := by
  induction frames generalizing f with
  | nil => simp [resolveUpvalue, isGlobal]
  | cons next outer ih =>
      have hnext : next.resolveLocal name = none ↔ name ∉ next.locals.map Local.name := by
        rw [Frame.resolveLocal, Option.map_eq_none_iff, Local.find?_eq_none_iff]
      have hsplit : isGlobal (next :: outer) name = true ↔
          next.resolveLocal name = none ∧ isGlobal outer name = true := by
        rw [hnext]
        simp [isGlobal]
      rw [hsplit, ← ih next, resolveUpvalue]
      split
      · simp_all [captureInnermost_ne_none]
      · simp_all
      · rename_i hnone
        split
        · rename_i heq
          simp [heq, captureInnermost_ne_none]
        · rename_i heq
          simp [heq, hnone]

theorem isGlobal_of_sameScope {frames frames' : Frames β}
    (h : List.Forall₂ Frame.SameScope frames frames') : frames'.isGlobal = frames.isGlobal := by
  funext name
  induction h with
  | nil => rfl
  | cons hf _ ih =>
      rw [isGlobal, List.all_cons, hf.locals, ← isGlobal, ih, isGlobal, isGlobal, List.all_cons]

end Frames

namespace Generate

variable {α γ : Type} {isGlobal : Symbol → Bool}

/-- A step of the generator adds some constants to the innermost function, while it is the same
variables that are global. -/
def Adds (isGlobal : Symbol → Bool) (g : Generate β α) (entries : List (Constant β)) : Prop :=
  ∀ f outer, Frames.isGlobal (f :: outer) = isGlobal →
    ∃ f' outer', (g (f :: outer)).2 = f' :: outer' ∧
      f'.constants.toList = f.constants.toList ++ entries ∧
      Frames.isGlobal (f' :: outer') = isGlobal

namespace Adds

protected theorem pure (a : α) : Adds isGlobal (pure a : Generate β α) [] :=
  fun f outer h => ⟨f, outer, rfl, by simp, h⟩

theorem bind {g : Generate β α} {k : α → Generate β γ} {entries more : List (Constant β)}
    (hg : Adds isGlobal g entries) (hk : ∀ a, Adds isGlobal (k a) more) :
    Adds isGlobal (g >>= k) (entries ++ more) := by
  intro f outer h
  obtain ⟨f₁, outer₁, hframes₁, hconstants₁, h₁⟩ := hg f outer h
  obtain ⟨f₂, outer₂, hframes₂, hconstants₂, h₂⟩ := hk (g (f :: outer)).1 f₁ outer₁ h₁
  refine ⟨f₂, outer₂, ?_, ?_, h₂⟩
  · rw [run_bind, hframes₁, hframes₂]
  · rw [hconstants₂, hconstants₁, List.append_assoc]

/-- A step that adds no constant, after one that does. -/
theorem last {g : Generate β α} {k : α → Generate β γ} {entries : List (Constant β)}
    (hg : Adds isGlobal g entries) (hk : ∀ a, Adds isGlobal (k a) []) :
    Adds isGlobal (g >>= k) entries := by
  have h := hg.bind hk
  rwa [List.append_nil] at h

protected theorem constant (value : Constant β) :
    Adds isGlobal (Generate.constant value) [value] :=
  fun f outer h => ⟨f.addConstant value, outer, rfl, by simp [Frame.addConstant], h⟩

protected theorem access (limits : Limits) (name : Symbol) :
    Adds isGlobal (Generate.access limits name : Generate β Access)
      (Access.entries isGlobal name) := by
  intro f outer h
  have hlocal : f.resolveLocal name = none ↔ name ∉ f.locals.map Local.name := by
    rw [Frame.resolveLocal, Option.map_eq_none_iff, Local.find?_eq_none_iff]
  have hsplit : isGlobal name = true ↔
      f.resolveLocal name = none ∧ Frames.isGlobal outer name = true := by
    rw [← h, hlocal]
    simp [Frames.isGlobal]
  unfold Generate.access Access.entries
  dsimp only
  split
  · have hno : isGlobal name = false := by simp_all
    exact ⟨f, outer, rfl, by simp [hno], h⟩
  · -- whether the name becomes a constant is what the functions around say
    have hsame := Frames.sameScope_resolveUpvalue limits name (f :: outer)
    have hnone := Frames.resolveUpvalue_eq_none_iff limits name f outer
    generalize Frames.resolveUpvalue limits name (f :: outer) = result at hsame hnone ⊢
    obtain ⟨frames, answer⟩ := result
    have hkept := Frames.isGlobal_of_sameScope hsame
    cases hsame with
    | cons hg _ =>
        rename_i g inner _
        have hconstants : g.constants.toList = f.constants.toList := by rw [hg.constants]
        rcases answer with problem | (_ | index)
        · have hno : isGlobal name = false := by simp_all
          exact ⟨g, inner, rfl, by simp [hno, hconstants], hkept.trans h⟩
        · have hyes : isGlobal name = true := by simp_all
          exact ⟨g.addConstant (.string name), inner, rfl,
            by simp [hyes, hconstants, Frame.addConstant], hkept.trans h⟩
        · have hno : isGlobal name = false := by simp_all
          exact ⟨g, inner, rfl, by simp [hno, hconstants], hkept.trans h⟩

protected theorem push (value : Literal Symbol) :
    Adds isGlobal (Generate.push value : Generate β (List Step)) value.entries := by
  cases value with
  | nil => exact .pure _
  | boolean value => cases value <;> exact .pure _
  | number value | string value => exact (Adds.constant _).last fun _ => .pure _

end Adds

end Generate

section

variable (limits : Limits) (names : ImplicitNames) (isGlobal : Symbol → Bool)

mutual

/-- Generating code adds the constants of the tree. -/
theorem Expression.adds (e : Expression) :
    Generate.Adds isGlobal (e.postOrder limits names : Generate β (List Step))
      (e.entries names isGlobal) := by
  cases e with
  | literal value => exact .push value
  | «variable» name => exact (Generate.Adds.access limits name).last fun _ => .pure _
  | assign name value =>
      exact (Generate.Adds.access limits name).bind fun _ =>
        (Expression.adds value).last fun _ => .pure _
  | receiver => exact (Generate.Adds.access limits names.this).last fun _ => .pure _
  | superGet method =>
      exact (Generate.Adds.constant _).bind fun _ => (Generate.Adds.access limits _).bind fun _ =>
        (Generate.Adds.access limits _).last fun _ => .pure _
  | superCall method arguments =>
      exact (Generate.Adds.constant _).bind fun _ => (Generate.Adds.access limits _).bind fun _ =>
        (Expression.addsEach arguments).bind fun _ =>
          (Generate.Adds.access limits _).last fun _ => .pure _
  | group inner => exact Expression.adds inner
  | unary op operand => exact (Expression.adds operand).last fun _ => .pure _
  | binary op left right | and left right | or left right =>
      exact (Expression.adds left).bind fun _ => (Expression.adds right).last fun _ => .pure _
  | call callee arguments =>
      exact (Expression.adds callee).bind fun _ =>
        (Expression.addsEach arguments).last fun _ => .pure _
  | get object property =>
      exact (Expression.adds object).bind fun _ => (Generate.Adds.constant _).last fun _ => .pure _
  | set object property value =>
      exact (Expression.adds object).bind fun _ => (Generate.Adds.constant _).bind fun _ =>
        (Expression.adds value).last fun _ => .pure _
  | invoke object method arguments =>
      exact (Expression.adds object).bind fun _ => (Generate.Adds.constant _).bind fun _ =>
        (Expression.addsEach arguments).last fun _ => .pure _

theorem Expression.addsEach (es : List Expression) :
    Generate.Adds isGlobal (Expression.postOrderEach limits names es : Generate β (List Step))
      (Expression.entriesEach names isGlobal es) := by
  cases es with
  | nil => exact .pure _
  | cons e es =>
      exact (Expression.adds e).bind fun _ => (Expression.addsEach es).last fun _ => .pure _

end

mutual

/-- Parentheses need no constants. -/
theorem Expression.entries_ungroup (e : Expression) :
    (e.ungroup.entries names isGlobal : List (Constant β)) = e.entries names isGlobal := by
  cases e <;> simp only [ungroup, entries, Expression.entries_ungroup,
    Expression.entriesEach_ungroupEach]

theorem Expression.entriesEach_ungroupEach (es : List Expression) :
    (Expression.entriesEach names isGlobal (Expression.ungroupEach es) : List (Constant β)) =
      Expression.entriesEach names isGlobal es := by
  cases es <;> simp only [ungroupEach, entriesEach, Expression.entries_ungroup,
    Expression.entriesEach_ungroupEach]

end

end

end LoxCompiler
