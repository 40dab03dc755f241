import LoxCompiler.Proofs.Limits.Steps

/-! # Captured variables up to the limits

A variable that is not one of the innermost function is captured by all functions between it and its
owner. Those that have not captured it before give it a new index. If all of these fit into a byte,
the functions with other cells capture it in the same way, and if not, one of them has too many
captured variables.
-/

set_option synthInstance.maxSize 4096

namespace LoxCompiler

namespace Frames

variable {β : Type} {cell : Nat → β}

/-- What comes of capturing a variable. -/
abbrev Captured (β : Type) : Type := Frames β × Except Diagnostic.Problem (Option Nat)

/-- With the limits of bytes the same is captured, or too much if something does not fit. -/
structure Bounded (cell : Nat → β) (fit : Prop) (wide : Captured Nat) (bounded : Captured β) :
    Prop where
  eq : fit → bounded = (wide.1.map (Frame.mapCells cell), wide.2)
  error : ¬ fit → bounded.2 = .error .tooManyUpvalues

/-- Whether the new index in a change of a function fits into a byte, if there is one. -/
def IndexFits (f g : Frame Nat) : Prop := f.upvalues.length < g.upvalues.length →
  f.upvalues.length ≤ 255

theorem forall_newUpvalues_cons {f g : Frame Nat} {before after : Frames Nat} :
    (∀ i ∈ newUpvalues (f :: before) (g :: after), i ≤ 255) ↔
      (∀ i ∈ before.newUpvalues after, i ≤ 255) ∧ IndexFits f g := by
  rw [newUpvalues, List.forall_mem_append]
  refine and_congr_right fun _ => ?_
  unfold IndexFits
  split
  · simp [*]
  · simp [*]

/-- Functions that capture what they have captured before get no new index. -/
theorem newUpvalues_eq_nil {before after : Frames Nat}
    (h : before.map Frame.upvalues = after.map Frame.upvalues) : before.newUpvalues after = [] := by
  induction before generalizing after with
  | nil => cases after <;> rfl
  | cons f outer ih =>
      cases after with
      | nil => rfl
      | cons g outer' =>
          obtain ⟨hfirst, hrest⟩ := List.cons_eq_cons.mp h
          rw [newUpvalues, ih hrest, hfirst, if_neg (Nat.lt_irrefl _), List.append_nil]

/-- The innermost function captures a variable at the index that it has, or at a new one. -/
theorem captureInnermost_bounded (cell : Nat → β) (f : Frame Nat) (outer : Frames Nat)
    (upvalue : Upvalue) :
    ∃ g index, captureInnermost .unbounded f outer upvalue = (g :: outer, .ok (some index)) ∧
      Bounded cell (IndexFits f g) (g :: outer, .ok (some index))
        (captureInnermost .byte (f.mapCells cell) (outer.map (Frame.mapCells cell)) upvalue) := by
  unfold captureInnermost Frame.addUpvalue
  cases hindex : f.upvalues.idxOf? upvalue with
  | some index =>
      refine ⟨f, index, rfl, fun _ => ?_, fun hnot => (hnot fun hlt => ?_).elim⟩
      · rfl
      · exact (Nat.lt_irrefl _ hlt).elim
  | none =>
      refine ⟨{ f with upvalues := f.upvalues ++ [upvalue] }, f.upvalues.length, rfl,
        fun hfits => ?_, fun hnot => ?_⟩
      · have hroom : Limits.admits Limits.byte.upvalues (f.upvalues.length + 1) = true :=
          decide_eq_true (Nat.succ_le_succ (hfits (by simp)))
        dsimp only
        rw [if_pos hroom]
        rfl
      · have hroom : ¬ Limits.admits Limits.byte.upvalues (f.upvalues.length + 1) = true :=
          fun h => hnot fun _ => Nat.le_of_succ_le_succ (of_decide_eq_true h)
        dsimp only
        rw [if_neg hroom]

/-- A function captures what the one around it has captured, if that has captured anything. -/
def captureThrough {β : Type} (limits : Limits) (frame : Frame β) : Captured β → Captured β
  | (outer, .ok (some index)) => captureInnermost limits frame outer ⟨false, index⟩
  | (outer, answer) => (frame :: outer, answer)

theorem captureThrough_bounded {fit : Prop} (f : Frame Nat) {outer : Frames Nat}
    {answer : Except Diagnostic.Problem (Option Nat)} {inside : Captured β}
    (h : Bounded cell fit (outer, answer) inside) :
    ∃ g, (captureThrough .unbounded f (outer, answer)).1 = g :: outer ∧
      Bounded cell (fit ∧ IndexFits f g) (captureThrough .unbounded f (outer, answer))
        (captureThrough .byte (f.mapCells cell) inside) := by
  have hstay : IndexFits f f := fun h => (Nat.lt_irrefl _ h).elim
  by_cases hfit : fit
  · obtain rfl := h.eq hfit
    rcases answer with problem | _ | index
    · exact ⟨f, rfl, fun _ => rfl, fun hnot => (hnot ⟨hfit, hstay⟩).elim⟩
    · exact ⟨f, rfl, fun _ => rfl, fun hnot => (hnot ⟨hfit, hstay⟩).elim⟩
    · obtain ⟨g, newest, hwide, hbounded⟩ := captureInnermost_bounded cell f outer ⟨false, index⟩
      rw [captureThrough, captureThrough, hwide]
      exact ⟨g, rfl, fun h => hbounded.eq h.2, fun hnot => hbounded.error fun h => hnot ⟨hfit, h⟩⟩
  · have hfirst : ∃ g, (captureThrough .unbounded f (outer, answer)).1 = g :: outer := by
      rcases answer with problem | _ | index
      · exact ⟨f, rfl⟩
      · exact ⟨f, rfl⟩
      · obtain ⟨g, newest, hwide, -⟩ := captureInnermost_bounded cell f outer ⟨false, index⟩
        exact ⟨g, congrArg Prod.fst hwide⟩
    obtain ⟨frames, found⟩ := inside
    obtain rfl : found = .error .tooManyUpvalues := h.error hfit
    obtain ⟨g, hg⟩ := hfirst
    exact ⟨g, hg, fun h => (hfit h.1).elim, fun _ => rfl⟩

theorem resolveUpvalue_of_none {β : Type} {limits : Limits} {name : Symbol} {frame next : Frame β}
    {outer : Frames β} (h : next.resolveLocal name = none) :
    resolveUpvalue limits name (frame :: next :: outer) =
      captureThrough limits frame (resolveUpvalue limits name (next :: outer)) := by
  rw [resolveUpvalue, h]
  dsimp only
  rcases resolveUpvalue limits name (next :: outer) with ⟨frames, _ | _ | index⟩ <;> rfl

/-- A variable is captured in the same way with other cells, if the new indices fit. -/
theorem resolveUpvalue_bounded (cell : Nat → β) (name : Symbol) (frames : Frames Nat) :
    Bounded cell (∀ i ∈ frames.newUpvalues (frames.resolveUpvalue .unbounded name).1, i ≤ 255)
      (frames.resolveUpvalue .unbounded name)
      (Frames.resolveUpvalue .byte name (frames.map (Frame.mapCells cell))) := by
  induction frames with
  | nil => exact ⟨fun _ => rfl, fun hnot => (hnot nofun).elim⟩
  | cons f outer ih =>
      cases outer with
      | nil => exact ⟨fun _ => rfl, fun hnot => (hnot (by simp [resolveUpvalue, newUpvalues])).elim⟩
      | cons next outer =>
          have hsame : (next.mapCells cell).resolveLocal name = next.resolveLocal name := rfl
          rw [List.map_cons, List.map_cons]
          cases hlocal : next.resolveLocal name with
          | none =>
              rw [resolveUpvalue_of_none hlocal, resolveUpvalue_of_none (hsame.trans hlocal)]
              obtain ⟨g, hg, hbounded⟩ := captureThrough_bounded f ih
              rw [hg, forall_newUpvalues_cons]
              exact hbounded
          | some found =>
              obtain ⟨slot, initialized⟩ := found
              rw [resolveUpvalue, resolveUpvalue, hsame, hlocal]
              cases initialized with
              | true =>
                  obtain ⟨g, index, hwide, hbounded⟩ :=
                    captureInnermost_bounded cell f (next.captureLocal name :: outer) ⟨true, slot⟩
                  have hnew : newUpvalues (next :: outer) (next.captureLocal name :: outer) = [] :=
                    newUpvalues_eq_nil rfl
                  dsimp only
                  rw [hwide, forall_newUpvalues_cons, hnew]
                  exact ⟨fun h => hbounded.eq h.2,
                    fun hnot => hbounded.error fun h => hnot ⟨nofun, h⟩⟩
              | false =>
                  refine ⟨fun _ => rfl, fun hnot => (hnot ?_).elim⟩
                  rw [newUpvalues_eq_nil rfl]
                  nofun

end Frames

namespace Compile

variable {α β : Type} {cell : Nat → β}

theorem measures_forM_measure (f : Nat → Quantity) (indices : List Nat) (s : Session Nat) :
    Measures (fun _ => indices.forM fun i => measure (f i)) s () s (indices.map f) := by
  induction indices with
  | nil => exact fun passes => rfl
  | cons i indices ih => exact (measures_measure (f i) s).bind ih

/-- What is captured for a name, and the new indices that are noted for it. -/
theorem measures_captureVariable (name : Symbol) (s : Session Nat) :
    Measures (fun _ => captureVariable name) s (s.frames.resolveUpvalue .unbounded name).2
      { s with frames := (s.frames.resolveUpvalue .unbounded name).1 }
      ((s.frames.newUpvalues (s.frames.resolveUpvalue .unbounded name).1).map .upvalueIndex) := by
  have hnoted (wide : Frames.Captured Nat) : Measures
      (fun _ => (s.frames.newUpvalues wide.1).forM (fun i => measure (.upvalueIndex i)) >>=
        fun _ => pure wide.2)
      { s with frames := wide.1 } wide.2 { s with frames := wide.1 }
      ((s.frames.newUpvalues wide.1).map .upvalueIndex ++ []) :=
    Measures.bind (measures_forM_measure .upvalueIndex _ _) fun _ => rfl
  simp only [List.append_nil] at hnoted
  exact fun passes => hnoted (s.frames.resolveUpvalue .unbounded name) passes

instance (name : Symbol) : Measuring fun passes => (captureVariable name :
    Compile (Width.unbounded.within passes) (Except Diagnostic.Problem (Option Nat))) where
  exists_measures {s a t} h := by
    have hmeasures := measures_captureVariable name s
    have heq := hmeasures.run.symm.trans h
    cases heq
    exact ⟨_, hmeasures⟩

theorem run_upvalueIndex (answer : Except Diagnostic.Problem (Option Nat))
    (passes : Quantity → Bool) (s : Session Nat) :
    (upvalueIndex answer : Compile (Width.unbounded.within passes) (Option Nat)).run s =
      (upvalueIndex answer : Compile Width.unbounded.settings (Option Nat)).run s := by
  cases answer <;> rfl

instance (answer : Except Diagnostic.Problem (Option Nat)) : Measuring fun passes =>
    (upvalueIndex answer : Compile (Width.unbounded.within passes) (Option Nat)) :=
  measuring_of_run_eq (run_upvalueIndex answer)

/-- With the limits of bytes, what is captured is known at once. -/
theorem run_captureVariable_bind (name : Symbol) (s : Session β)
    (k : Except Diagnostic.Problem (Option Nat) → Limited cell α) :
    (captureVariable name >>= k).run s =
      (k (s.frames.resolveUpvalue .byte name).2).run
        { s with frames := (s.frames.resolveUpvalue .byte name).1 } := by
  rw [captureVariable_eq]
  rfl

/-- The answer is the same if all new indices fit, and if not, there are too many of them. -/
theorem fitting_upvalueIndex {s t : Session Nat} {wide : Frames.Captured Nat}
    {bounded : Frames.Captured β} {new : List Nat} {a b : Option Nat} {u : Session β}
    (hbounded : Frames.Bounded cell (∀ i ∈ new, i ≤ 255) wide bounded)
    (hclean : Cleanly (upvalueIndex wide.2 : Compile Width.unbounded.settings (Option Nat))
      { s with frames := wide.1 } a t)
    (hblank : s.reader.Blank)
    (hrun : (upvalueIndex bounded.2 : Limited cell (Option Nat)).run
      { s.mapCells cell with frames := bounded.1 } = .ok (b, u)) :
    Fitting cell Eq (new.map .upvalueIndex) a t b u := by
  obtain ⟨frames, problem | index⟩ := wide
  · exact (not_cleanly_report_bind hclean).elim
  · obtain ⟨-, rfl, rfl⟩ := cleanly_pure.mp hclean
    unfold Fitting
    split
    · rename_i hnone
      have hfit : ∀ i ∈ new, i ≤ 255 := by simpa [Quantity.fits] using hnone
      rw [hbounded.eq hfit] at hrun
      cases hrun
      exact ⟨rfl, rfl⟩
    · rename_i q hsome
      obtain ⟨i, hi, rfl⟩ := List.mem_map.mp (List.mem_of_find?_eq_some hsome)
      have hbig : ¬ i ≤ 255 := by simpa [Quantity.fits] using List.find?_some hsome
      rw [hbounded.error fun hfit => hbig (hfit i hi)] at hrun
      exact reports_report .tooManyUpvalues (fun _ => pure (some 0)) hclean.before hblank hrun

instance (name : Symbol) :
    Agreeing (resolveUpvalue name : Limited cell (Option Nat)) fun _ => resolveUpvalue name where
  agrees := by
    simp only [resolveUpvalue_eq]
    refine ⟨inferInstance, fun {s a t qs b u} hclean hblank hqs hrun => ?_⟩
    obtain ⟨answer, v, hcapture, hindex⟩ := hclean.of_bind
    have hfirst := measures_captureVariable name s
    cases hfirst.run.symm.trans hcapture.run
    have hall : Measures (fun _ => captureVariable name >>= upvalueIndex) s a t
        ((s.frames.newUpvalues (s.frames.resolveUpvalue .unbounded name).1).map .upvalueIndex ++
          []) :=
      hfirst.bind fun passes => (run_upvalueIndex _ passes _).trans hindex.run
    rw [List.append_nil] at hall
    refine Fitting.congr ?_ hall hqs
    rw [run_captureVariable_bind] at hrun
    exact fitting_upvalueIndex (Frames.resolveUpvalue_bounded cell name s.frames) hindex hblank hrun

end Compile

end LoxCompiler
