import LoxCompiler.Proofs.Lines.Woven
import LoxCompiler.Proofs.Run.Still

/-! # Sessions side by side

Two compilations of programs of the same shape are at the same place: their functions under
construction are in scopes of the same depths, and have their lines woven together. The script of
the second compilation may have functions and lines from before, and its source may go on where that
of the first one ends. Names, code and captured variables may be different.
-/

namespace LoxCompiler

variable {β : Type}

/-- The functions and lines that a function under construction has from before. -/
structure Past (β : Type) where
  functions : List (Function β)
  lines : List Nat

instance : EmptyCollection (Past β) := ⟨⟨[], []⟩⟩

/-- What two compilations side by side have to do with each other. -/
structure Course (β : Type) where
  names : ImplicitNames
  /-- Which lines match. -/
  line : Nat → Nat → Prop
  /-- Whether the second source may go on where the first one ends. -/
  longer : Prop
  /-- What the script of the second compilation has from before. -/
  past : Past β

variable {c : Course β} {line : Nat → Nat → Prop} {past : Past β}

/-! ## Readers -/

/-- Two sources go on with tokens on lines that match. -/
inductive Ahead (c : Course β) : List (Scanned Symbol) → List (Scanned Symbol) → Prop
  | nil : Ahead c [] []
  | last {token items} : c.longer → token.kind = .endOfInput → Ahead c [.ok token] items
  | cons {token token' items items'} : c.line token.position.line token'.position.line →
      Ahead c items items' → Ahead c (.ok token :: items) (.ok token' :: items')

structure Reader.Abreast (c : Course β) (r r' : Reader) : Prop where
  previous : c.line r.previous.position.line r'.previous.position.line
  ahead : Ahead c (.ok r.current :: r.upcoming) (.ok r'.current :: r'.upcoming)

theorem Reader.Abreast.advance {r r' : Reader} (h : r.Abreast c r')
    (hkind : r.current.kind ≠ .endOfInput ∨ ¬ c.longer) : r.advance.Abreast c r'.advance := by
  obtain ⟨upcoming, previous, current, hadError, panicMode, diagnostics⟩ := r
  obtain ⟨upcoming', previous', current', hadError', panicMode', diagnostics'⟩ := r'
  cases h.ahead with
  | last hlonger hend => exact (hkind.elim (· hend) (· hlonger)).elim
  | cons hline hrest =>
      refine ⟨by rwa [previous_advance, previous_advance], ?_⟩
      cases hrest with
      | nil => exact .cons hline .nil
      | last hlonger hend => exact .last hlonger hend
      | cons hnext hrest => exact .cons hnext hrest

/-! ## Functions under construction -/

/-- Whether a local is dropped at the end of a scope depends on its depth only. -/
theorem Local.declaredWithin_eq (depth : Nat) : (·.declaredWithin depth : Local → Bool) =
    (fun | some d => decide (depth ≤ d) | none => true) ∘ Local.depth := rfl

/-- Two functions under construction are in scopes of the same depths, and the lines of the first
one are woven together with those that the second one has got since. -/
structure Frame.Abreast (line : Nat → Nat → Prop) (past : Past β) (f f' : Frame β) : Prop where
  kind : f.kind = f'.kind
  scopeDepth : f.scopeDepth = f'.scopeDepth
  depths : f.locals.map Local.depth = f'.locals.map Local.depth
  woven : ∃ fs ls, Constant.functions f'.constants.toList = past.functions ++ fs ∧
    f'.lines.toList = past.lines ++ ls ∧
    Woven line (Constant.functions f.constants.toList) f.lines.toList fs ls

/-- What is compared of two functions under construction is the same. -/
structure Frame.Stays (f g : Frame β) : Prop where
  kind : f.kind = g.kind
  scopeDepth : f.scopeDepth = g.scopeDepth
  depths : f.locals.map Local.depth = g.locals.map Local.depth
  lines : f.lines = g.lines
  functions : Constant.functions f.constants.toList = Constant.functions g.constants.toList

namespace Frame

variable {f f' g g' : Frame β}

theorem Stays.refl (f : Frame β) : f.Stays f := ⟨rfl, rfl, rfl, rfl, rfl⟩

theorem Stays.trans {h : Frame β} (hfg : f.Stays g) (hgh : g.Stays h) : f.Stays h where
  kind := hfg.kind.trans hgh.kind
  scopeDepth := hfg.scopeDepth.trans hgh.scopeDepth
  depths := hfg.depths.trans hgh.depths
  lines := hfg.lines.trans hgh.lines
  functions := hfg.functions.trans hgh.functions

theorem stays_captureLocal (f : Frame β) (name : Symbol) : f.Stays (f.captureLocal name) where
  __ := Stays.refl f
  depths := by
    unfold captureLocal
    dsimp only
    induction f.locals with
    | nil => rfl
    | cons l older ih =>
        unfold Local.capture
        split
        · rfl
        · exact congrArg (List.cons _) ih

theorem stays_addUpvalue {limits : Limits} {u : Upvalue} {index : Nat}
    (h : f.addUpvalue limits u = .ok (g, index)) : f.Stays g := by
  unfold addUpvalue at h
  split at h
  · cases h
    exact .refl f
  · split at h <;> cases h
    exact ⟨rfl, rfl, rfl, rfl, rfl⟩

/-- A constant that is no function. -/
theorem stays_addConstant (f : Frame β) {value : Constant β} (hvalue : value.function? = none) :
    f.Stays (f.addConstant value) where
  __ := Stays.refl f
  functions := by
    simp only [addConstant, Array.toList_push, Constant.functions_append]
    rw [Constant.functions, Constant.functions, List.filterMap_cons_none hvalue,
      List.filterMap_nil, List.append_nil]

namespace Abreast

theorem stays (h : f.Abreast line past f') (hg : f.Stays g) (hg' : f'.Stays g') :
    g.Abreast line past g' where
  kind := hg.kind.symm.trans (h.kind.trans hg'.kind)
  scopeDepth := hg.scopeDepth.symm.trans (h.scopeDepth.trans hg'.scopeDepth)
  depths := hg.depths.symm.trans (h.depths.trans hg'.depths)
  woven := by
    rw [← hg.lines, ← hg.functions, ← hg'.lines, ← hg'.functions]
    exact h.woven

theorem new (kind : FunctionKind) (name name' : Option Symbol) (receiver receiver' : Symbol) :
    (Frame.new kind name receiver : Frame β).Abreast line ∅ (Frame.new kind name' receiver') :=
  ⟨rfl, rfl, rfl, [], [], rfl, rfl, .nil⟩

theorem write (h : f.Abreast line past f') (cell cell' : β) {l l' : Nat} (hl : line l l') :
    (f.write cell l).Abreast line past (f'.write cell' l') where
  __ := h
  woven := by
    obtain ⟨fs, ls, hfs, hls, hwoven⟩ := h.woven
    refine ⟨fs, ls ++ [l'], hfs, ?_, ?_⟩
    · simp only [Frame.write, Array.toList_push, hls, List.append_assoc]
    · simp only [Frame.write, Array.toList_push]
      exact hwoven.cell hl

/-- A closure of two functions that are finished. -/
theorem closure (h : f.Abreast line past f') {g g' : Function β} (hg : Woven line
    (Constant.functions g.constants) g.lines (Constant.functions g'.constants) g'.lines)
    (code code' : Array β) {l l' : Nat} (hl : line l l') : Frame.Abreast line past
    { f.addConstant (.function g) with
      code, lines := f.lines ++ Array.replicate (2 + 2 * g.upvalueCount) l }
    { f'.addConstant (.function g') with
      code := code', lines := f'.lines ++ Array.replicate (2 + 2 * g'.upvalueCount) l' } where
  __ := h
  woven := by
    obtain ⟨fs, ls, hfs, hls, hwoven⟩ := h.woven
    refine ⟨fs ++ [g'], ls ++ List.replicate (2 + 2 * g'.upvalueCount) l', ?_, ?_, ?_⟩
    · simp [addConstant, hfs]
    · simp [hls]
    · simpa [addConstant] using hwoven.closure hg hl

theorem addLocal {limits : Limits} {name name' : Symbol} (h : f.Abreast line past f')
    (hg : f.addLocal limits name = .ok g) (hg' : f'.addLocal limits name' = .ok g') :
    g.Abreast line past g' := by
  unfold Frame.addLocal at hg hg'
  split at hg <;> cases hg
  split at hg' <;> cases hg'
  exact { h with depths := congrArg (List.cons none) h.depths }

theorem markInitialized (h : f.Abreast line past f') :
    f.markInitialized.Abreast line past f'.markInitialized := by
  unfold Frame.markInitialized
  rw [h.scopeDepth]
  split
  · exact h
  · obtain ⟨kind, name, arity, code, lines, constants, jumps, locals, upvalues, depth⟩ := f
    obtain ⟨kind', name', arity', code', lines', constants', jumps', locals', upvalues', depth'⟩ := f'
    have hdepths := h.depths
    dsimp only at hdepths
    cases locals with
    | nil =>
        rw [List.map_eq_nil_iff.mp hdepths.symm] at h ⊢
        exact h
    | cons l older =>
        obtain ⟨l', older', rfl, hl, holder⟩ := List.map_eq_cons_iff.mp hdepths.symm
        obtain ⟨name, d, captured⟩ := l
        obtain ⟨name', d', captured'⟩ := l'
        obtain rfl : d' = d := hl
        cases d' with
        | some d => exact h
        | none =>
            exact { h with
              depths := congrArg (List.cons (some depth')) holder.symm
              scopeDepth := rfl }

/-- The ends of two scopes drop the same number of locals. -/
theorem takeWhile (h : f.Abreast line past f') (depth : Nat) :
    List.Forall₂ (fun l l' : Local => l.depth = l'.depth)
      (f.locals.takeWhile (·.declaredWithin depth)) (f'.locals.takeWhile (·.declaredWithin depth)) := by
  have heq : (f.locals.takeWhile (·.declaredWithin depth)).map Local.depth =
      (f'.locals.takeWhile (·.declaredWithin depth)).map Local.depth := by
    rw [Local.declaredWithin_eq, ← List.takeWhile_map, ← List.takeWhile_map, h.depths]
  have hsame := List.forall₂_eq_eq_eq (α := Option Nat) ▸ heq
  rwa [List.forall₂_map_left_iff, List.forall₂_map_right_iff] at hsame

theorem leave (h : f.Abreast line past f') (depth : Nat) : Frame.Abreast line past
    { f with scopeDepth := depth, locals := f.locals.dropWhile (·.declaredWithin (depth + 1)) }
    { f' with scopeDepth := depth, locals := f'.locals.dropWhile (·.declaredWithin (depth + 1)) } where
  __ := h
  scopeDepth := rfl
  depths := by
    rw [Local.declaredWithin_eq, ← List.dropWhile_map, ← List.dropWhile_map, h.depths]

end Abreast

end Frame

/-- Two stacks of functions under construction, function by function. Only the script, which is the
last one, may have something from before. -/
inductive Frames.Abreast (line : Nat → Nat → Prop) (past : Past β) : Frames β → Frames β → Prop
  | script {f f'} : f.Abreast line past f' → Frames.Abreast line past [f] [f']
  | inside {f f' fs fs'} : f.Abreast line ∅ f' → Frames.Abreast line past fs fs' →
      Frames.Abreast line past (f :: fs) (f' :: fs')

namespace Frames

variable {f f' : Frame β} {fs fs' gs gs' : Frames β}

theorem Abreast.replace {g g' : Frame β} (h : Frames.Abreast line past (f :: fs) (f' :: fs'))
    (hg : ∀ {past : Past β}, f.Abreast line past f' → g.Abreast line past g') :
    Frames.Abreast line past (g :: fs) (g' :: fs') := by
  cases h with
  | script hf => exact .script (hg hf)
  | inside hf hfs => exact .inside (hg hf) hfs

/-- What is woven of a function inside another one is all of it. -/
theorem Abreast.finish (h : Frames.Abreast line past (f :: fs) (f' :: fs')) (hfs : fs ≠ []) :
    Woven line (Constant.functions f.finish.constants) f.finish.lines
      (Constant.functions f'.finish.constants) f'.finish.lines ∧ Frames.Abreast line past fs fs' := by
  cases h with
  | script _ => exact (hfs rfl).elim
  | inside hf hrest =>
      obtain ⟨gs, ls, hgs, hls, hwoven⟩ := hf.woven
      refine ⟨?_, hrest⟩
      unfold Frame.finish
      rw [hgs, hls]
      exact hwoven

/-- What is known of the innermost functions. -/
theorem Abreast.innermost (h : Frames.Abreast line past (f :: fs) (f' :: fs')) :
    ∃ past : Past β, f.Abreast line past f' := by
  cases h with
  | script hf | inside hf _ => exact ⟨_, hf⟩

theorem Abreast.stays (h : Frames.Abreast line past fs fs') (hg : List.Forall₂ Frame.Stays fs gs)
    (hg' : List.Forall₂ Frame.Stays fs' gs') : Frames.Abreast line past gs gs' := by
  induction h generalizing gs gs' with
  | script hf =>
      obtain ⟨g, rest, hfg, hrest, rfl⟩ := List.forall₂_cons_left_iff.mp hg
      obtain ⟨g', rest', hfg', hrest', rfl⟩ := List.forall₂_cons_left_iff.mp hg'
      cases hrest
      cases hrest'
      exact .script (hf.stays hfg hfg')
  | inside hf _ ih =>
      obtain ⟨g, rest, hfg, hrest, rfl⟩ := List.forall₂_cons_left_iff.mp hg
      obtain ⟨g', rest', hfg', hrest', rfl⟩ := List.forall₂_cons_left_iff.mp hg'
      exact .inside (hf.stays hfg hfg') (ih hrest hrest')

theorem stays_refl (fs : Frames β) : List.Forall₂ Frame.Stays fs fs :=
  List.forall₂_same.mpr fun f _ => .refl f

theorem stays_trans {hs : Frames β} (hfg : List.Forall₂ Frame.Stays fs gs)
    (hgh : List.Forall₂ Frame.Stays gs hs) : List.Forall₂ Frame.Stays fs hs := by
  induction hfg generalizing hs with
  | nil => exact hgh
  | cons hf _ ih =>
      obtain ⟨h, rest, hg, hrest, rfl⟩ := List.forall₂_cons_left_iff.mp hgh
      exact .cons (hf.trans hg) (ih hrest)

theorem stays_captureInnermost (limits : Limits) (f : Frame β) {fs gs : Frames β} (u : Upvalue)
    (h : List.Forall₂ Frame.Stays fs gs) :
    List.Forall₂ Frame.Stays (f :: fs) (captureInnermost limits f gs u).1 := by
  unfold captureInnermost
  split
  · exact .cons (Frame.stays_addUpvalue ‹_›) h
  · exact .cons (.refl f) h

theorem stays_resolveUpvalue (limits : Limits) (name : Symbol) (fs : Frames β) :
    List.Forall₂ Frame.Stays fs (resolveUpvalue limits name fs).1 := by
  fun_induction resolveUpvalue limits name fs with
  | case1 | case2 | case4 => exact stays_refl _
  | case3 f next outer slot hlocal =>
      exact stays_captureInnermost _ _ _ (.cons (next.stays_captureLocal name) (stays_refl outer))
  | case5 f next outer hlocal outer' index hinner ih =>
      rw [hinner] at ih
      exact stays_captureInnermost _ _ _ ih
  | case6 f next outer hlocal outer' answer hanswer hinner ih =>
      rw [hinner] at ih
      exact .cons (.refl f) ih

end Frames

/-- Two compilations are at the same place. -/
structure Session.Abreast (c : Course β) (s s' : Session β) : Prop where
  names : s.names = c.names
  names' : s'.names = c.names
  reader : s.reader.Abreast c s'.reader
  frames : Frames.Abreast c.line c.past s.frames s'.frames
  classes : s.classes = s'.classes

/-- What is compared of two sessions is the same. -/
structure Session.Stays (s t : Session β) : Prop where
  names : s.names = t.names
  reader : s.reader = t.reader
  frames : List.Forall₂ Frame.Stays s.frames t.frames
  classes : s.classes = t.classes

namespace Session

variable {s s' t t' u : Session β}

theorem Stays.refl (s : Session β) : s.Stays s := ⟨rfl, rfl, Frames.stays_refl _, rfl⟩

theorem Stays.trans (hst : s.Stays t) (htu : t.Stays u) : s.Stays u where
  names := hst.names.trans htu.names
  reader := hst.reader.trans htu.reader
  frames := Frames.stays_trans hst.frames htu.frames
  classes := hst.classes.trans htu.classes

theorem Abreast.stays (h : s.Abreast c s') (ht : s.Stays t) (ht' : s'.Stays t') : t.Abreast c t' where
  names := ht.names ▸ h.names
  names' := ht'.names ▸ h.names'
  reader := ht.reader ▸ ht'.reader ▸ h.reader
  frames := h.frames.stays ht.frames ht'.frames
  classes := ht.classes.symm.trans (h.classes.trans ht'.classes)

end Session

end LoxCompiler
