import LoxCompiler.Proofs.Invariant.Outline
import LoxCompiler.Proofs.Safety.Stacks
import LoxCompiler.Proofs.Stack.Capture

/-! # Captured variables of functions under construction

Every captured variable of a function is one of the next function out: a captured local that is
there, or a variable that this function has captured itself. Whatever is captured later, this stays
so, since no function loses a captured variable and no captured local is forgotten.
-/

namespace LoxCompiler

variable {β : Type} {limits : Limits} {names : ImplicitNames}

/-- The locals of a function under construction, without what captures them. -/
def Frame.outline (f : Frame β) : Outline :=
  ⟨f.kind, f.scopeDepth, f.locals.map fun l => (l.name, l.depth)⟩

/-- A captured variable is there in the next function out. -/
def Upvalue.Names (next : Frame β) : Upvalue → Prop
  | ⟨true, slot⟩ => ∃ l, next.locals.reverse[slot]? = some l ∧ l.captured = true
  | ⟨false, index⟩ => index < next.upvalues.length

/-- What holds of the captured variables of a function inside another one. -/
structure Frame.Linked (limits : Limits) (f next : Frame β) : Prop where
  names : ∀ u ∈ f.upvalues, u.Names next
  nodup : f.upvalues.Nodup
  room : Limits.admits limits.upvalues f.upvalues.length

namespace Frames

/-- What holds of the captured variables of all functions under construction. The script has
none. -/
def Linked (limits : Limits) : Frames β → Prop
  | [] => True
  | [f] => f.upvalues = []
  | f :: next :: outer => f.Linked limits next ∧ Linked limits (next :: outer)

/-- What holds of the functions under construction, innermost first. -/
structure Sound (limits : Limits) (names : ImplicitNames) (fs : Frames β) : Prop where
  outlines : Outline.AllSound limits names (fs.map Frame.outline)
  linked : Linked limits fs

theorem Linked.withHead {f g : Frame β} {outer : Frames β} (h : Linked limits (f :: outer))
    (hg : g.upvalues = f.upvalues) : Linked limits (g :: outer) := by
  cases outer with
  | nil => exact hg.trans h
  | cons next outer =>
      obtain ⟨⟨hnames, hnodup, hroom⟩, hrest⟩ := h
      rw [← hg] at hnames hnodup hroom
      exact ⟨⟨hnames, hnodup, hroom⟩, hrest⟩

end Frames

/-! ## Capturing -/

/-- A function has captured no less than before, and as much of it is captured. -/
structure Frame.Keeps (f g : Frame β) : Prop where
  outline : g.outline = f.outline
  captured : ∀ {slot : Nat} {l : Local}, f.locals.reverse[slot]? = some l → l.captured = true →
    ∃ m : Local, g.locals.reverse[slot]? = some m ∧ m.captured = true
  upvalues : f.upvalues <+: g.upvalues

namespace Frame.Keeps

variable {f g : Frame β}

theorem refl (f : Frame β) : f.Keeps f := ⟨rfl, fun h hl => ⟨_, h, hl⟩, List.prefix_rfl⟩

theorem named (h : f.Keeps g) {u : Upvalue} (hu : u.Names f) : u.Names g := by
  match u, hu with
  | ⟨true, slot⟩, ⟨l, hl, hcaptured⟩ => exact h.captured hl hcaptured
  | ⟨false, index⟩, hu => exact Nat.lt_of_lt_of_le hu h.upvalues.length_le

theorem linked (h : f.Keeps g) {inner : Frame β} (hinner : inner.Linked limits f) :
    inner.Linked limits g :=
  ⟨fun u hu => h.named (hinner.names u hu), hinner.nodup, hinner.room⟩

end Frame.Keeps

theorem Frames.map_outline_of_keeps {fs gs : Frames β} (h : List.Forall₂ Frame.Keeps fs gs) :
    gs.map Frame.outline = fs.map Frame.outline := by
  induction h with
  | nil => rfl
  | cons hfg _ ih => rw [List.map_cons, List.map_cons, hfg.outline, ih]

/-- Capturing a local leaves the captured ones captured. -/
theorem Local.capture_keeps (name : Symbol) {locals : List Local} {slot : Nat} {l : Local}
    (h : locals.reverse[slot]? = some l) (hl : l.captured = true) :
    ∃ m, (Local.capture name locals).reverse[slot]? = some m ∧ m.captured = true := by
  cases hfind : Local.find? name locals with
  | none =>
      rw [Local.capture_eq_self hfind]
      exact ⟨l, h, hl⟩
  | some p =>
      obtain ⟨slot', newest⟩ := p
      rw [Local.reverse_capture hfind, List.getElem?_set]
      split
      · rw [if_pos (by simpa using Local.lt_length_of_find? hfind)]
        exact ⟨_, rfl, rfl⟩
      · exact ⟨l, h, hl⟩

/-- The local that is found by a name is captured by it. -/
theorem Local.captured_capture {name : Symbol} {locals : List Local} {slot : Nat} {l : Local}
    (h : Local.find? name locals = some (slot, l)) :
    ∃ m, (Local.capture name locals).reverse[slot]? = some m ∧ m.captured = true := by
  rw [Local.reverse_capture h, List.getElem?_set_self (by simpa using Local.lt_length_of_find? h)]
  exact ⟨_, rfl, rfl⟩

namespace Frame

variable {f g next : Frame β}

theorem keeps_captureLocal (f : Frame β) (name : Symbol) : f.Keeps (f.captureLocal name) where
  outline := by
    unfold outline captureLocal
    rw [Local.map_capture fun _ => rfl]
  captured := Local.capture_keeps name
  upvalues := List.prefix_rfl

theorem names_captureLocal {name : Symbol} {slot : Nat}
    (h : next.resolveLocal name = some (slot, true)) :
    Upvalue.Names (next.captureLocal name) ⟨true, slot⟩ := by
  unfold resolveLocal at h
  obtain ⟨⟨slot', l⟩, hfind, heq⟩ := Option.map_eq_some_iff.mp h
  obtain rfl : slot' = slot := congrArg Prod.fst heq
  exact Local.captured_capture hfind

/-- A variable of the next function out can be added. -/
theorem addUpvalue_keeps {u : Upvalue} {index : Nat}
    (h : f.addUpvalue limits u = .ok (g, index)) (hlinked : f.Linked limits next)
    (hu : u.Names next) : f.Keeps g ∧ g.Linked limits next ∧ index < g.upvalues.length := by
  unfold addUpvalue at h
  split at h
  · rename_i i hindex
    cases h
    exact ⟨.refl f, hlinked, (List.findIdx?_eq_some_iff_findIdx_eq.mp hindex).1⟩
  · rename_i hnone
    split at h
    · rename_i hroom
      cases h
      refine ⟨⟨rfl, fun h hl => ⟨_, h, hl⟩, List.prefix_append _ _⟩, ⟨?_, ?_, ?_⟩, by simp⟩
      · intro v hv
        rcases List.mem_append.mp hv with hv | hv
        · exact hlinked.names v hv
        · rw [List.mem_singleton.mp hv]
          exact hu
      · have hnew : u ∉ f.upvalues := by simpa using hnone
        have hperm : (f.upvalues ++ [u]).Perm (u :: f.upvalues) := List.perm_append_singleton _ _
        exact hperm.nodup_iff.mpr (List.nodup_cons.mpr ⟨hnew, hlinked.nodup⟩)
      · simpa using hroom
    · cases h

end Frame

namespace Frames

/-- The innermost function captures a variable of the next one out. -/
theorem captureInnermost_keeps {f next : Frame β} {outer : Frames β} {u : Upvalue}
    (hf : f.Linked limits next) (hu : u.Names next) (houter : Linked limits (next :: outer)) :
    ∃ g, (captureInnermost limits f (next :: outer) u).1 = g :: next :: outer ∧ f.Keeps g ∧
      Linked limits (g :: next :: outer) ∧
      ∀ index, (captureInnermost limits f (next :: outer) u).2 = .ok (some index) →
        index < g.upvalues.length := by
  unfold captureInnermost
  cases hadd : f.addUpvalue limits u with
  | ok result =>
      obtain ⟨g, index⟩ := result
      obtain ⟨hkeeps, hlinked, hindex⟩ := Frame.addUpvalue_keeps hadd hf hu
      refine ⟨g, rfl, hkeeps, ⟨hlinked, houter⟩, fun i hi => ?_⟩
      cases hi
      exact hindex
  | error problem => exact ⟨f, rfl, .refl f, ⟨hf, houter⟩, fun _ h => nomatch h⟩

/-- Resolving a variable of an enclosing function keeps what holds of the captured variables. -/
theorem resolveUpvalue_keeps (limits : Limits) (name : Symbol) {fs : Frames β}
    (h : Linked limits fs) :
    List.Forall₂ Frame.Keeps fs (fs.resolveUpvalue limits name).1 ∧
      Linked limits (fs.resolveUpvalue limits name).1 ∧
      ∀ index, (fs.resolveUpvalue limits name).2 = .ok (some index) →
        ∀ g ∈ (fs.resolveUpvalue limits name).1.head?, index < g.upvalues.length := by
  have hrefl : ∀ fs : Frames β, List.Forall₂ Frame.Keeps fs fs :=
    fun fs => List.forall₂_same.mpr fun f _ => .refl f
  fun_induction Frames.resolveUpvalue limits name fs with
  | case1 => exact ⟨.nil, h, fun _ h => by cases h⟩
  | case2 f => exact ⟨hrefl _, h, fun _ h => by cases h⟩
  | case3 f next outer slot hlocal =>
      have hnext := next.keeps_captureLocal name
      obtain ⟨g, hg, hkeeps, hlinked, hindex⟩ := captureInnermost_keeps (hnext.linked h.1)
        (Frame.names_captureLocal hlocal) (h.2.withHead rfl)
      rw [hg]
      refine ⟨.cons hkeeps (.cons hnext (hrefl outer)), hlinked, fun index hanswer g' hg' => ?_⟩
      cases hg'
      exact hindex index hanswer
  | case4 => exact ⟨hrefl _, h, fun _ h => by cases h⟩
  | case5 f next outer hlocal outer' index hinner ih =>
      obtain ⟨hkept, hlinked, hindex⟩ := ih h.2
      rw [hinner] at hkept hlinked hindex
      cases hkept with
      | @cons _ next' _ rest' hnext hrest =>
          have hnames : Upvalue.Names next' ⟨false, index⟩ := hindex index rfl next' rfl
          obtain ⟨g, hg, hkeeps, hlinked', hindex'⟩ :=
            captureInnermost_keeps (hnext.linked h.1) hnames hlinked
          rw [hg]
          refine ⟨.cons hkeeps (.cons hnext hrest), hlinked', fun index hanswer g' hg' => ?_⟩
          cases hg'
          exact hindex' index hanswer
  | case6 f next outer hlocal outer' answer hanswer hinner ih =>
      obtain ⟨hkept, hlinked, -⟩ := ih h.2
      rw [hinner] at hkept hlinked
      cases hkept with
      | cons hnext hrest =>
          refine ⟨.cons (.refl f) (.cons hnext hrest), ⟨hnext.linked h.1, hlinked⟩, ?_⟩
          intro index hsome
          exact absurd hsome (hanswer index)

end Frames

end LoxCompiler
