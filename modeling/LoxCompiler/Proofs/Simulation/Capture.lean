import LoxCompiler.Proofs.Simulation.Scope

/-! # Access to variables

A variable of an enclosing function is captured by every function on the way to it. Each of them
lists it once, and takes it from the function around it; so the index in the innermost list leads
to the variable, step by step.
-/

namespace LoxCompiler

open Compile

variable {β : Type} {w : Width β}

/-! ## One function captures a variable -/

theorem captureAll_append_of_lt {level : Nat} {v : Variable} (uses : List Variable)
    (hv : v.level < level) :
    captureAll level (uses ++ [v]) = capture (captureAll level uses) v := by
  rw [captureAll_concat, if_pos hv]

theorem captureAll_append_of_not_lt {level : Nat} {v : Variable} (uses : List Variable)
    (hv : ¬ v.level < level) : captureAll level (uses ++ [v]) = captureAll level uses := by
  rw [captureAll_concat, if_neg hv]

theorem mem_captureAll_append {level : Nat} {v : Variable} (uses : List Variable)
    (hv : v.level < level) : v ∈ captureAll level (uses ++ [v]) :=
  mem_captureAll.mpr ⟨by simp, hv⟩

/-- Different variables that the function around has, or captures, have different places there. -/
theorem upvalueOf_inj {level : Nat} {around : List Variable} {u v : Variable}
    (hu : u.level < level ∧ (u.level + 1 = level ∨ u ∈ around))
    (hv : v.level < level ∧ (v.level + 1 = level ∨ v ∈ around))
    (h : upvalueOf level around u = upvalueOf level around v) : u = v := by
  unfold upvalueOf at h
  split at h <;> split at h <;> simp only [Upvalue.mk.injEq, reduceCtorEq, false_and, true_and] at h
  · cases u
    cases v
    simp only [Variable.mk.injEq]
    dsimp only at *
    omega
  · rename_i hu' hv'
    exact (List.idxOf_inj (hu.2.resolve_left hu')).mp h

theorem idxOf?_map_upvalueOf {level : Nat} {around captures : List Variable} {v : Variable}
    (hcaptures : ∀ u ∈ captures, u.level < level ∧ (u.level + 1 = level ∨ u ∈ around))
    (hv : v.level < level ∧ (v.level + 1 = level ∨ v ∈ around)) :
    (captures.map (upvalueOf level around)).idxOf? (upvalueOf level around v) =
      if v ∈ captures then some (captures.idxOf v) else none := by
  induction captures with
  | nil => rfl
  | cons u captures ih =>
      have ih := ih fun u hu => hcaptures u (by simp [hu])
      have hinj : upvalueOf level around u = upvalueOf level around v ↔ u = v :=
        ⟨upvalueOf_inj (hcaptures u (by simp)) hv, fun h => h ▸ rfl⟩
      rw [List.map_cons, List.idxOf?_cons, ih]
      by_cases huv : u = v
      · subst huv
        simp
      · simp only [beq_iff_eq, hinj, huv, if_false]
        by_cases hmem : v ∈ captures
        · simp [hmem, huv]
        · have : v ≠ u := fun h => huv h.symm
          simp [hmem, this]

section Frame

variable {level : Nat} {around around' uses : List Variable} {d : Draft} {f : Frame β} {v : Variable}

/-- More captured variables around do not change where the known ones are. -/
theorem map_upvalueOf_congr (haround : around <+: around')
    (hcovered : ∀ u ∈ captureAll level uses, u.level + 1 = level ∨ u ∈ around) :
    (captureAll level uses).map (upvalueOf level around') =
      (captureAll level uses).map (upvalueOf level around) := by
  apply List.map_congr_left
  intro u hu
  unfold upvalueOf
  split
  · rfl
  · rename_i hlevel
    rw [idxOf_eq_of_mem haround ((hcovered u hu).resolve_left hlevel)]

namespace Draft.Describes

variable (hf : d.Describes w level around uses f)
include hf

/-- A described frame with one more captured variable. -/
theorem use (hvalid : d.Valid level uses) (hlt : v.level < level) {upvalues : List Upvalue}
    (hupvalues : upvalues = (captureAll level (uses ++ [v])).map (upvalueOf level around')) :
    d.Describes w level around' (uses ++ [v]) { f with upvalues } where
  kind := hf.kind
  name := hf.name
  arity := hf.arity
  code := by
    rw [cellsOf_eq_of_known (prefix_captureAll level uses [v]) hvalid.known]
    exact hf.code
  constants := hf.constants
  jumps := hf.jumps
  locals := by
    have hsame : Local.ofDepths level (uses ++ [v]) d.depths =
        Local.ofDepths level uses d.depths := by
      apply Local.ofDepths_congr
      intro slot _
      have hne : (⟨level, slot⟩ : Variable) ≠ v := by
        rintro rfl
        exact Nat.lt_irrefl _ hlt
      simp [hne]
    rw [hsame]
    exact hf.locals
  upvalues := hupvalues
  depth := hf.depth

/-- A function captures a variable, unless that is one too many. -/
theorem addUpvalue {limits : Limits} (hvalid : d.Valid level uses)
    (hfits : Limits.admits limits.upvalues (captureAll level uses).length = true)
    (haround : around <+: around')
    (hcovered : ∀ u ∈ captureAll level uses, u.level + 1 = level ∨ u ∈ around)
    (hlt : v.level < level) (hv : v.level + 1 = level ∨ v ∈ around') :
    (Limits.admits limits.upvalues (captureAll level (uses ++ [v])).length = true ∧
      ∃ f', f.addUpvalue limits (upvalueOf level around' v) =
          .ok (f', (captureAll level (uses ++ [v])).idxOf v) ∧
        d.Describes w level around' (uses ++ [v]) f') ∨
    (Limits.admits limits.upvalues (captureAll level (uses ++ [v])).length = false ∧
      ∃ problem, f.addUpvalue limits (upvalueOf level around' v) = .error problem) := by
  have hupvalues : f.upvalues = (captureAll level uses).map (upvalueOf level around') :=
    hf.upvalues.trans (map_upvalueOf_congr haround hcovered).symm
  have hlookup : f.upvalues.idxOf? (upvalueOf level around' v) =
      if v ∈ captureAll level uses then some ((captureAll level uses).idxOf v) else none := by
    rw [hupvalues]
    apply idxOf?_map_upvalueOf _ ⟨hlt, hv⟩
    intro u hu
    exact ⟨(mem_captureAll.mp hu).2, (hcovered u hu).imp id fun hu => haround.subset hu⟩
  rw [captureAll_append_of_lt uses hlt, capture]
  unfold Frame.addUpvalue
  rw [hlookup]
  by_cases hmem : v ∈ captureAll level uses
  · have hsame : f.upvalues = (captureAll level (uses ++ [v])).map (upvalueOf level around') := by
      rw [captureAll_append_of_lt uses hlt, capture, if_pos hmem, hupvalues]
    rw [if_pos hmem, if_pos hmem]
    exact .inl ⟨hfits, f, rfl, hf.use hvalid hlt hsame⟩
  · have hmore : f.upvalues ++ [upvalueOf level around' v] =
        (captureAll level (uses ++ [v])).map (upvalueOf level around') := by
      rw [captureAll_append_of_lt uses hlt, capture, if_neg hmem, hupvalues, List.map_append]
      rfl
    have hlength : f.upvalues.length = (captureAll level uses).length := by
      rw [hupvalues, List.length_map]
    rw [if_neg hmem, if_neg hmem, List.length_append, List.length_singleton]
    dsimp only
    rw [hlength]
    cases hadmits : Limits.admits limits.upvalues ((captureAll level uses).length + 1) with
    | true =>
        refine .inl ⟨rfl, _, ?_, hf.use hvalid hlt hmore⟩
        simp [List.idxOf_append_of_notMem hmem]
    | false => exact .inr ⟨rfl, _, rfl⟩

end Draft.Describes

section Local

variable {name : Symbol} {slot : Nat} (hf : d.Describes w level around uses f)
  (hfresh : d.fresh = none)
include hf hfresh

/-- Without a local that cannot be read, the frame finds what the draft says. -/
theorem resolveLocal_eq_slot? (name : Symbol) :
    f.resolveLocal name = (slot? name d.locals).map fun slot => (slot, true) := by
  unfold Frame.resolveLocal
  rw [locals_eq_ofDepths hf hfresh, Local.find?_ofDepths, d.map_fst_depths]

/-- A described frame with one more local that a closure captures. -/
theorem Draft.Describes.captureLocal (hslot : slot? name d.locals = some slot) :
    d.Describes w level around (uses ++ [⟨level, slot⟩]) (f.captureLocal name) where
  kind := hf.kind
  name := hf.name
  arity := hf.arity
  code := by
    rw [captureAll_append_of_not_lt uses (Nat.lt_irrefl level)]
    exact hf.code
  constants := hf.constants
  jumps := hf.jumps
  locals := by
    rw [← d.map_fst_depths] at hslot
    rw [hfresh, ← Local.capture_ofDepths hslot, ← locals_eq_ofDepths hf hfresh]
    rfl
  upvalues := by
    rw [captureAll_append_of_not_lt uses (Nat.lt_irrefl level)]
    exact hf.upvalues
  depth := hf.depth

end Local

end Frame

/-! ## All functions on the way capture a variable -/

theorem Variable.level_of_find? {name : Symbol} {outer : List (List Symbol)} {v : Variable}
    (h : Variable.find? name outer = some v) : v.level < outer.length := by
  induction outer with
  | nil => cases h
  | cons locals outer ih =>
      simp only [Variable.find?] at h
      split at h
      · cases h
        exact Nat.lt_succ_self _
      · exact Nat.lt_succ_of_lt (ih h)

section Stack

variable {limits : Limits} {name : Symbol} {d : Draft} {outer : List Draft}
  {inner : List Variable} {f : Frame β} {frames : Frames β}

/-- What a function captures, the one around it has or captures itself. -/
theorem mem_around_of_mem_captureAll {u : Variable}
    (hu : u ∈ captureAll outer.length (d.allUses inner)) : u.level + 1 = outer.length ∨
      u ∈ Draft.around (exported outer.length (d.allUses inner)) outer := by
  rw [mem_captureAll] at hu
  cases outer with
  | nil => exact (Nat.not_lt_zero _ hu.2).elim
  | cons next rest =>
      rw [List.length_cons] at hu ⊢
      by_cases hlevel : u.level = rest.length
      · exact .inl (congrArg (· + 1) hlevel)
      · refine .inr (mem_captureAll.mpr ⟨?_, by omega⟩)
        exact List.mem_append_right _ (mem_exported.mpr hu)

/-- A name that no function around has leaves everything as it is. -/
theorem resolveUpvalue_of_find?_none (limits : Limits)
    (hs : Draft.DescribesEach w inner (d :: outer) (f :: frames))
    (hready : ∀ d ∈ outer, d.fresh = none)
    (hnone : Variable.find? name (outer.map Draft.locals) = none) :
    Frames.resolveUpvalue limits name (f :: frames) = (f :: frames, .ok none) := by
  induction outer generalizing d inner f frames with
  | nil =>
      cases frames with
      | nil => rfl
      | cons => exact hs.2.elim
  | cons next rest ih =>
      cases frames with
      | nil => exact hs.2.elim
      | cons g frames =>
          simp only [List.map_cons, Variable.find?] at hnone
          split at hnone
          · cases hnone
          · rename_i hslot
            have hlocal := resolveLocal_eq_slot? hs.2.1 (hready next (by simp)) name
            rw [hslot] at hlocal
            have hrest := ih hs.2 (fun d hd => hready d (by simp [hd])) hnone
            simp [Frames.resolveUpvalue, hlocal, hrest]

theorem allUses_append (inner : List Variable) (v : Variable) (d : Draft) :
    d.allUses (inner ++ [v]) = d.allUses inner ++ [v] :=
  (List.append_assoc ..).symm

theorem prefix_around (inner : List Variable) (v : Variable) (outer : List Draft) :
    Draft.around inner outer <+: Draft.around (inner ++ [v]) outer := by
  cases outer with
  | nil => exact List.prefix_refl _
  | cons next rest =>
      simp only [Draft.around, allUses_append]
      exact prefix_captureAll _ _ _

theorem Draft.fits_append_iff {level : Nat} {uses : List Variable} {v : Variable}
    (h : d.Fits limits level uses) : d.Fits limits level (uses ++ [v]) ↔
      Limits.admits limits.upvalues (captureAll level (uses ++ [v])).length = true := by
  unfold Draft.Fits at h ⊢
  rw [Plan.fits_iff] at h ⊢
  exact ⟨fun h => h.2.1, fun h' => ⟨h.1, h', h.2.2⟩⟩

/-- The outcome of capturing a variable: the functions are as if it was used, and the answer is
its index; or that is one too many for one of them. -/
def Captured (w : Width β) (limits : Limits) (inner : List Variable) (d : Draft)
    (outer : List Draft) (v : Variable)
    (result : Frames β × Except Diagnostic.Problem (Option Nat)) : Prop :=
  (Draft.Each (Draft.Fits limits) (inner ++ [v]) (d :: outer) ∧
    result.2 = .ok (some ((captureAll outer.length (d.allUses (inner ++ [v]))).idxOf v)) ∧
    Draft.DescribesEach w (inner ++ [v]) (d :: outer) result.1) ∨
  (¬ Draft.Each (Draft.Fits limits) (inner ++ [v]) (d :: outer) ∧
    ∃ problem, result.2 = .error problem)

/-- The innermost function captures a variable that the functions around provide now. -/
theorem captureInnermost_describes {v : Variable}
    (hs : d.Describes w outer.length (Draft.around (exported outer.length (d.allUses inner)) outer)
      (d.allUses inner) f)
    (hvalid : d.Valid outer.length (d.allUses inner))
    (hfits : d.Fits limits outer.length (d.allUses inner)) (hlt : v.level < outer.length)
    {upvalue : Upvalue} (hupvalue : upvalue = upvalueOf outer.length
      (Draft.around (exported outer.length (d.allUses inner) ++ [v]) outer) v)
    (houter : Draft.Each (Draft.Fits limits) (exported outer.length (d.allUses inner) ++ [v]) outer)
    (hsouter : Draft.DescribesEach w (exported outer.length (d.allUses inner) ++ [v]) outer frames) :
    Captured w limits inner d outer v (Frames.captureInnermost limits f frames upvalue) := by
  have hexported : exported outer.length (d.allUses inner ++ [v]) =
      exported outer.length (d.allUses inner) ++ [v] := by
    simp [exported, hlt]
  have hprovided := mem_around_of_mem_captureAll (show v ∈ captureAll outer.length
    (d.allUses (inner ++ [v])) from allUses_append inner v d ▸ mem_captureAll_append _ hlt)
  rw [allUses_append, hexported] at hprovided
  have hadd := hs.addUpvalue hvalid (Plan.fits_iff.mp hfits).2.1
    (prefix_around _ v outer) (fun u hu => mem_around_of_mem_captureAll hu) hlt hprovided
  simp only [Captured, Draft.Each, allUses_append, hexported, Draft.fits_append_iff hfits]
  unfold Frames.captureInnermost
  rw [hupvalue]
  rcases hadd with ⟨hadmits, f', hadd, hf'⟩ | ⟨hadmits, problem, hadd⟩
  · rw [hadd]
    refine .inl ⟨⟨hadmits, houter⟩, rfl, ?_⟩
    simp only [Draft.DescribesEach, allUses_append, hexported]
    exact ⟨hf', hsouter⟩
  · rw [hadd, hadmits]
    exact .inr ⟨fun h => Bool.false_ne_true h.1, problem, rfl⟩

/-- A name that a function around has is captured by all functions on the way, unless that is
one too many for one of them. -/
theorem resolveUpvalue_of_find?_some {v : Variable}
    (hs : Draft.DescribesEach w inner (d :: outer) (f :: frames))
    (hvalid : Draft.Each Draft.Valid inner (d :: outer))
    (hfits : Draft.Each (Draft.Fits limits) inner (d :: outer))
    (hready : ∀ d ∈ outer, d.fresh = none)
    (hsome : Variable.find? name (outer.map Draft.locals) = some v) :
    Captured w limits inner d outer v (Frames.resolveUpvalue limits name (f :: frames)) := by
  induction outer generalizing d inner f frames with
  | nil => cases hsome
  | cons next rest ih =>
      cases frames with
      | nil => exact hs.2.elim
      | cons g frames =>
          have hlt : v.level < (next :: rest).length := by
            have := Variable.level_of_find? hsome
            rwa [List.length_map] at this
          have hfresh := hready next (by simp)
          have hlocal := resolveLocal_eq_slot? hs.2.1 hfresh name
          simp only [List.map_cons, Variable.find?, List.length_map] at hsome
          split at hsome
          · -- The function around has the variable.
            rename_i slot hslot
            cases hsome
            rw [hslot] at hlocal
            have hexported : ∀ uses, exported rest.length (uses ++ [⟨rest.length, slot⟩]) =
                exported rest.length uses := by
              simp [exported]
            have hresolve : Frames.resolveUpvalue limits name (f :: g :: frames) =
                Frames.captureInnermost limits f (g.captureLocal name :: frames) ⟨true, slot⟩ := by
              simp [Frames.resolveUpvalue, hlocal]
            have hown : ¬ (⟨rest.length, slot⟩ : Variable).level < rest.length := Nat.lt_irrefl _
            rw [hresolve]
            apply captureInnermost_describes hs.1 hvalid.1 hfits.1 hlt
            · simp [upvalueOf]
            · simp only [Draft.Each, allUses_append, hexported, Draft.fits_append_iff hfits.2.1,
                captureAll_append_of_not_lt _ hown]
              exact ⟨(Plan.fits_iff.mp hfits.2.1).2.1, hfits.2.2⟩
            · simp only [Draft.DescribesEach, allUses_append, hexported]
              exact ⟨hs.2.1.captureLocal hfresh hslot, hs.2.2⟩
          · -- The function around captures the variable first.
            rename_i hslot
            rw [hslot] at hlocal
            have hrest := ih hs.2 hvalid.2 hfits.2 (fun d hd => hready d (by simp [hd])) hsome
            have hexported : exported (next :: rest).length (d.allUses inner ++ [v]) =
                exported (next :: rest).length (d.allUses inner) ++ [v] := by
              simpa [exported] using hlt
            have hbelow : v.level < rest.length := by
              have := Variable.level_of_find? hsome
              rwa [List.length_map] at this
            rcases hrest with ⟨hfits', hanswer, hs'⟩ | ⟨hfits', problem, hanswer⟩
            · have hresolve : Frames.resolveUpvalue limits name (f :: g :: frames) =
                  Frames.captureInnermost limits f
                    (Frames.resolveUpvalue limits name (g :: frames)).1
                    ⟨false, (captureAll rest.length (next.allUses
                      (exported (next :: rest).length (d.allUses inner) ++ [v]))).idxOf v⟩ := by
                rw [Frames.resolveUpvalue, hlocal]
                simp only [Option.map_none]
                split
                · rename_i heq
                  rw [heq] at hanswer
                  cases hanswer
                  rw [heq]
                · rename_i hnot heq
                  rw [heq] at hanswer
                  exact (hnot _ hanswer).elim
              rw [hresolve]
              apply captureInnermost_describes hs.1 hvalid.1 hfits.1 hlt _ hfits' hs'
              unfold upvalueOf
              rw [if_neg (by rw [List.length_cons]; omega)]
              rfl
            · refine .inr ⟨?_, problem, ?_⟩
              · intro h
                have hmore := h.2
                rw [allUses_append, hexported] at hmore
                exact hfits' hmore
              · rw [Frames.resolveUpvalue, hlocal]
                simp only [Option.map_none]
                split
                · rename_i heq
                  rw [heq] at hanswer
                  cases hanswer
                · rename_i heq
                  rw [heq] at hanswer
                  exact hanswer

end Stack

theorem Draft.Valid.use_of_lt {level : Nat} {uses : List Variable} {d : Draft} {v : Variable}
    (h : d.Valid level uses) (hlt : v.level < level) : d.Valid level (uses ++ [v]) where
  live u hu hlevel := by
    rcases List.mem_append.mp hu with hu | hu
    · exact h.live u hu hlevel
    · obtain rfl := List.mem_singleton.mp hu
      omega
  known step hstep := (h.known step hstep).extend (prefix_captureAll level uses [v])

/-- The functions around may be used for a variable that they find. -/
theorem each_valid_use {outer : List Draft} {inner : List Variable} {v : Variable} {name : Symbol}
    (h : Draft.Each Draft.Valid inner outer)
    (hfind : Variable.find? name (outer.map Draft.locals) = some v) :
    Draft.Each Draft.Valid (inner ++ [v]) outer := by
  induction outer generalizing inner with
  | nil => trivial
  | cons next rest ih =>
      simp only [List.map_cons, Variable.find?, List.length_map] at hfind
      simp only [Draft.Each, allUses_append]
      split at hfind
      · rename_i slot hslot
        cases hfind
        have hown : ¬ (⟨rest.length, slot⟩ : Variable).level < rest.length := Nat.lt_irrefl _
        have hexported : exported rest.length (next.allUses inner ++ [⟨rest.length, slot⟩]) =
            exported rest.length (next.allUses inner) := by
          simp [exported]
        rw [hexported]
        refine ⟨⟨?_, ?_⟩, h.2⟩
        · intro u hu hlevel
          rcases List.mem_append.mp hu with hu | hu
          · exact h.1.live u hu hlevel
          · obtain rfl := List.mem_singleton.mp hu
            exact slot?_lt hslot
        · rw [captureAll_append_of_not_lt _ hown]
          exact h.1.known
      · have hlt : v.level < rest.length := by
          have := Variable.level_of_find? hfind
          rwa [List.length_map] at this
        have hexported : exported rest.length (next.allUses inner ++ [v]) =
            exported rest.length (next.allUses inner) ++ [v] := by
          simpa [exported] using hlt
        rw [hexported]
        exact ⟨h.1.use_of_lt hlt, ih h.2 hfind⟩

namespace Drafts

variable {D : Drafts} {v : Variable}

theorem emit_use (D : Drafts) (vs : List Variable) : D.emit (.use vs) = D.change fun d =>
    { d with piece := { d.piece with uses := d.piece.uses ++ vs } } := by
  have hpiece : D.current.piece ++ Fragment.use vs D.current.piece.constants.length =
      { D.current.piece with uses := D.current.piece.uses ++ vs } := by
    ext1 <;> simp [Fragment.use]
  exact congrArg (fun piece => { D with current := { D.current with piece } }) hpiece

theorem fits_use {limits : Limits} {vs : List Variable} : (D.emit (.use vs)).Fits limits ↔
    Draft.Each (Draft.Fits limits) vs D.stack := by
  rw [emit_use, fits_iff]
  rfl

theorem describes_use {s : Session β} {vs : List Variable} (hnames : s.names = D.names)
    (hclasses : s.classes = D.classes) (hs : Draft.DescribesEach w vs D.stack s.frames) :
    (D.emit (.use vs)).Describes w s := by
  rw [emit_use, describes_iff]
  refine ⟨hnames, hclasses, ?_⟩
  cases hframes : s.frames with
  | nil =>
      rw [hframes] at hs
      exact hs.elim
  | cons f frames =>
      rw [hframes] at hs
      refine ⟨f, frames, rfl, ?_, hs.2⟩
      exact
        { kind := hs.1.kind
          name := hs.1.name
          arity := hs.1.arity
          code := hs.1.code
          constants := hs.1.constants
          jumps := hs.1.jumps
          locals := hs.1.locals
          upvalues := hs.1.upvalues
          depth := hs.1.depth }

/-- The use of a variable of a function around leaves everything known. -/
theorem valid_use (hv : D.Valid) {name : Symbol}
    (hfind : Variable.find? name D.env.outer = some v) : (D.emit (.use [v])).Valid := by
  have hlt : v.level < D.level := by
    have := Variable.level_of_find? hfind
    rwa [show D.env.outer = D.outer.map Draft.locals from rfl, List.length_map] at this
  rw [valid_iff] at hv
  rw [emit_use, valid_iff]
  have hcurrent := hv.1.use_of_lt hlt
  refine ⟨⟨hcurrent.live, hcurrent.known⟩, ?_, hv.2.2⟩
  have hexports : (D.change fun d =>
      { d with piece := { d.piece with uses := d.piece.uses ++ [v] } }).exports =
        D.exports ++ [v] := by
    show exported D.level (D.uses ++ [v]) = _
    rw [exported_append, show exported D.level [v] = [v] by simpa [exported] using hlt]
    rfl
  rw [hexports]
  exact each_valid_use hv.2.1 hfind

/-- The index of a variable of a function around, once it is captured. -/
def captureIndex (D : Drafts) (v : Variable) : Nat := (captureAll D.level (D.uses ++ [v])).idxOf v

/-- How the variable of a name is reached. -/
def access (D : Drafts) (name : Symbol) : Access :=
  match D.env.place name D.constantCount with
  | .slot n => ⟨.getLocal, .setLocal, n⟩
  | .captured v => ⟨.getUpvalue, .setUpvalue, D.captureIndex v⟩
  | .global n => ⟨.getGlobal, .setGlobal, n⟩

end Drafts

namespace Compile.Meets

variable {D : Drafts} {name : Symbol}

/-- A local is found in its slot, and there is none of a name that cannot be read. -/
theorem resolveLocal (name : Symbol) :
    Meets D [] (resolveLocal name : Compile w.settings (Option Nat)) (slot? name D.env.locals)
      (D.current.fresh ≠ some name) D := by
  rw [resolveLocal_eq]
  by_cases hname : D.current.fresh = some name
  · apply of_never (fun h => h hname)
    intro s a t hs hm
    obtain ⟨_, _, f, frames, hframes, hf, _⟩ := (Drafts.describes_iff D).mp hs
    rw [cleanly_frame_bind hframes] at hm
    have hlocal : f.resolveLocal name = some (D.current.depths.length, false) := by
      unfold Frame.resolveLocal
      rw [hf.locals, hname]
      simp [Local.find?, Local.length_ofDepths]
    rw [hlocal] at hm
    exact not_cleanly_report_bind
      (show Cleanly (report _ >>= fun _ => _) _ _ _ from hm)
  · refine (frame_bind (l := pure (slot? name D.env.locals)) ?_ Meets.pure).congr
      fun _ => by simp [hname]
    intro f hf
    have hlocal : f.resolveLocal name =
        (slot? name D.env.locals).map fun slot => (slot, true) := by
      cases hfresh : D.current.fresh with
      | none => exact resolveLocal_eq_slot? hf hfresh name
      | some x =>
          have hne : x ≠ name := by
            rintro rfl
            exact hname hfresh
          unfold Frame.resolveLocal
          rw [hf.locals, hfresh]
          simp only [Option.map_some, Option.toList_some, List.cons_append, List.nil_append,
            Local.find?, hne, if_false]
          rw [Local.find?_ofDepths, D.current.map_fst_depths]
          rfl
    rw [hlocal]
    cases slot? name D.env.locals <;> rfl

theorem run_captureVariable (s : Session β) : (captureVariable name : Compile w.settings _).run s =
    .ok ((s.frames.resolveUpvalue w.limits name).2,
      { s with frames := (s.frames.resolveUpvalue w.limits name).1 }) := by
  rw [captureVariable_eq]
  rfl

theorem resolveUpvalue_none (hfind : Variable.find? name D.env.outer = none) :
    Meets D [] (resolveUpvalue name : Compile w.settings (Option Nat)) none True D := by
  apply of_run
  · exact fun hv _ => hv
  · exact fun _ h => h
  · intro s hv hD hs
    obtain ⟨_, _, f, frames, hframes, _⟩ := (Drafts.describes_iff D).mp hs
    have hstack := hs.frames
    rw [hframes] at hstack
    have hresolve := resolveUpvalue_of_find?_none w.limits hstack hv.ready hfind
    refine .inl ⟨trivial, hD, s, ?_, rfl, hs⟩
    rw [resolveUpvalue_eq, run_bind_of_ok (run_captureVariable s), hframes, hresolve, upvalueIndex,
      run_pure, ← hframes]

theorem resolveUpvalue_some {v : Variable} (hfind : Variable.find? name D.env.outer = some v) :
    Meets D [] (resolveUpvalue name : Compile w.settings (Option Nat)) (some (D.captureIndex v))
      True (D.emit (.use [v])) := by
  apply of_run
  · exact fun hv _ => Drafts.valid_use hv hfind
  · exact fun _ => Drafts.fits_of_emit
  · intro s hv hD hs
    obtain ⟨_, _, f, frames, hframes, _⟩ := (Drafts.describes_iff D).mp hs
    have hstack := hs.frames
    rw [hframes] at hstack
    have hresolve := resolveUpvalue_of_find?_some hstack hv.each hD hv.ready hfind
    rw [← hframes] at hresolve
    rcases hresolve with ⟨hfits, hanswer, hs'⟩ | ⟨hfits, problem, hanswer⟩
    · refine .inl ⟨trivial, Drafts.fits_use.mpr hfits,
        { s with frames := (s.frames.resolveUpvalue w.limits name).1 }, ?_, rfl,
        Drafts.describes_use hs.names hs.classes hs'⟩
      rw [resolveUpvalue_eq, run_bind_of_ok (run_captureVariable s), hanswer]
      rfl
    · have hrun : (resolveUpvalue name : Compile w.settings _).run s =
          (upvalueIndex (.error problem) : Compile w.settings _).run
            { s with frames := (s.frames.resolveUpvalue w.limits name).1 } := by
        rw [resolveUpvalue_eq, run_bind_of_ok (run_captureVariable s), hanswer]
      refine .inr ⟨fun h => hfits (Drafts.fits_use.mp h.2), not_cleanly_of_run hrun rfl ?_⟩
      intro a t hm
      exact not_cleanly_report_bind
        (show Cleanly (report _ >>= fun _ => _) _ _ _ from hm)

/-- The access to a variable, with what it needs. -/
theorem access (name : Symbol) :
    Meets D [] (access name : Compile w.settings Access) (D.access name)
      (D.current.fresh ≠ some name) (D.emit (D.env.locate name)) := by
  rw [access_eq]
  refine (resolveLocal name).last fun _ => ?_
  unfold Drafts.access Environment.locate Environment.place
  cases hslot : slot? name D.env.locals with
  | some slot =>
      simp only [Drafts.emit_empty]
      exact Meets.pure
  | none =>
      cases hfind : Variable.find? name D.env.outer with
      | some v => exact (resolveUpvalue_some hfind).next Meets.pure
      | none =>
          have hname : Meets D [] (addName name : Compile w.settings Nat) D.constantCount True
              (D.emit (.item (.string name))) :=
            addConstant rfl trivial
          exact (resolveUpvalue_none hfind).next (hname.next Meets.pure)

section Place

variable {F : Fragment}

theorem captureIndex_eq {v : Variable} (hlt : v.level < D.level) :
    v ∈ ((D.emit (.use [v])).emit F).captures ∧
      D.captureIndex v = ((D.emit (.use [v])).emit F).captures.idxOf v := by
  have hmem := mem_captureAll_append D.uses hlt
  have hextends := prefix_captureAll D.level (D.uses ++ [v])
    (F (D.emit (.use [v])).constantCount).uses
  exact ⟨hextends.subset hmem, (idxOf_eq_of_mem hextends hmem).symm⟩

/-- Code that accesses a variable later, by the instructions for its kind. -/
theorem emitWith_place (name : Symbol) (op : Access → Opcode) {ofSlot ofCaptured ofGlobal : Opcode}
    (hslot : ∀ n, op ⟨.getLocal, .setLocal, n⟩ = ofSlot)
    (hfits : ∀ n, (Step.byte ofSlot n).Fits w.limits)
    (hcaptured : ∀ n, op ⟨.getUpvalue, .setUpvalue, n⟩ = ofCaptured)
    (hglobal : ∀ n, op ⟨.getGlobal, .setGlobal, n⟩ = ofGlobal) :
    Meets ((D.emit (D.env.locate name)).emit F) []
      (emitWith (op (D.access name)) (D.access name).operand : Compile w.settings Unit) () True
      (((D.emit (D.env.locate name)).emit F).emit
        (.step ((D.env.place name D.constantCount).step ofSlot ofCaptured ofGlobal))) := by
  unfold Drafts.access Environment.locate Environment.place
  cases slot? name D.env.locals with
  | some slot =>
      simp only [hslot]
      exact emitWith_byte ofSlot slot (hfits slot)
  | none =>
      cases hfind : Variable.find? name D.env.outer with
      | some v =>
          have hlt : v.level < D.level := by
            have := Variable.level_of_find? hfind
            rwa [show D.env.outer = D.outer.map Draft.locals from rfl, List.length_map] at this
          obtain ⟨hmem, hindex⟩ := captureIndex_eq (F := F) hlt
          simp only [hcaptured, hindex]
          exact emitWith_captured ofCaptured hmem
      | none =>
          simp only [hglobal]
          exact emitWith_constant ofGlobal D.constantCount

theorem emitWith_get (name : Symbol) :
    Meets ((D.emit (D.env.locate name)).emit F) []
      (emitWith (D.access name).get (D.access name).operand : Compile w.settings Unit) () True
      (((D.emit (D.env.locate name)).emit F).emit
        (.step (D.env.place name D.constantCount).get)) :=
  emitWith_place name Access.get (fun _ => rfl) (fun _ => trivial) (fun _ => rfl)
    fun _ => rfl

theorem emitWith_set (name : Symbol) :
    Meets ((D.emit (D.env.locate name)).emit F) []
      (emitWith (D.access name).set (D.access name).operand : Compile w.settings Unit) () True
      (((D.emit (D.env.locate name)).emit F).emit
        (.step (D.env.place name D.constantCount).set)) :=
  emitWith_place name Access.set (fun _ => rfl) (fun _ => trivial) (fun _ => rfl)
    fun _ => rfl

end Place

/-- A variable is read. -/
theorem loadVariable (name : Symbol) :
    Meets D [] (loadVariable name : Compile w.settings Unit) () (D.current.fresh ≠ some name)
      (D.emit (D.env.load name)) := by
  have hload : D.emit (D.env.load name) = (D.emit (D.env.locate name)).emit
      (.step (D.env.place name D.constantCount).get) :=
    D.emit_append _ _
  have hget := emitWith_get (w := w) (D := D) (F := ∅) name
  rw [Drafts.emit_empty] at hget
  rw [hload]
  exact (access name).last fun _ => hget

end Compile.Meets

end LoxCompiler
