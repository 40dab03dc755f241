import LoxCompiler.Proofs.Composition.Shift
import LoxCompiler.Proofs.Composition.Tokens
import LoxCompiler.Proofs.Lines.Constructs

/-! # Programs one after the other

A program that is followed by another one is compiled side by side with itself on its own, up to the
end of its own source. There the script is in no scope and no class, and the next token is the first
one of the second program. So from there on the second program is compiled side by side with itself
on its own, except that the script has code and constants from before.
-/

namespace LoxCompiler

open Compile

set_option synthInstance.maxSize 4096

/-! ## Readers -/

namespace Reader

theorem advance_of_ok {r : Reader} {token : Token Symbol} {items : List (Scanned Symbol)}
    (h : r.upcoming = .ok token :: items) :
    r.advance = { r with previous := r.current, current := token, upcoming := items } := by
  unfold advance
  rw [h]
  rfl

/-- What is ahead after some tokens were taken. -/
theorem Takes.ahead {q r : Reader} {ts : List Kind} {standing rest : List (Scanned Symbol)}
    {next : Token Symbol} (h : q.advance.Takes ts r)
    (hkinds : standing.map (Except.map Token.kind) = ts.map .ok)
    (hupcoming : q.upcoming = standing ++ .ok next :: rest) :
    r.current = next ∧ r.upcoming = rest := by
  induction ts generalizing q standing with
  | nil =>
      rw [List.map_eq_nil_iff.mp hkinds] at hupcoming
      rw [h.2, advance_of_ok hupcoming]
      exact ⟨rfl, rfl⟩
  | cons kind kinds ih =>
      obtain ⟨item, standing, rfl, hitem, hrest⟩ := List.map_eq_cons_iff.mp hkinds
      cases item with
      | error e => cases hitem
      | ok token =>
          refine ih h.2.2 hrest ?_
          rw [advance_of_ok hupcoming]
          rfl

/-- Two sources are side by side before their first tokens. -/
theorem abreast_start {β : Type} {c : Course β} {items items' : List (Scanned Symbol)}
    (hline : c.line 1 1) (h : Ahead c items items') : (start items).Abreast c (start items') := by
  refine ⟨?_, ?_⟩
  · rw [start_eq, start_eq, previous_advance, previous_advance]
    exact hline
  · cases h with
    | nil => exact .cons hline .nil
    | last hlonger hend => exact .last hlonger hend
    | cons hnext hrest => exact .cons hnext hrest

end Reader

namespace Ahead

variable {β : Type} {c : Course β}

/-- Tokens with the end of the input after them go on as the same tokens with more after them. -/
theorem append (hlonger : c.longer) (hline : ∀ l, c.line l l) {standing : List (Scanned Symbol)}
    {ts : List Kind} (hkinds : standing.map (Except.map Token.kind) = ts.map .ok)
    {last : Token Symbol} (hlast : last.kind = .endOfInput) (later : List (Scanned Symbol)) :
    Ahead c (standing ++ [.ok last]) (standing ++ later) := by
  induction ts generalizing standing with
  | nil =>
      rw [List.map_eq_nil_iff.mp hkinds]
      exact .last hlonger hlast
  | cons kind kinds ih =>
      obtain ⟨item, standing, rfl, hitem, hrest⟩ := List.map_eq_cons_iff.mp hkinds
      cases item with
      | error e => cases hitem
      | ok token => exact .cons (hline _) (ih hrest)

theorem of_sameKind {items items' : List (Scanned Symbol)} {ts : List Kind}
    (h : List.Forall₂ (Scanned.SameKind c.line) items items')
    (hkinds : items.map (Except.map Token.kind) = ts.map .ok) : Ahead c items items' := by
  induction h generalizing ts with
  | nil => exact .nil
  | @cons item item' _ _ hitem _ ih =>
      obtain ⟨kind, kinds, rfl, hkind, hrest⟩ := List.map_eq_cons_iff.mp hkinds.symm
      match item, item', hitem with
      | .ok token, .ok token', ⟨_, hline⟩ => exact .cons hline (ih hrest.symm)

end Ahead

/-! ## Scripts -/

variable {β : Type} {w : Width β} {names : ImplicitNames} {ds ds' : List Declaration}

/-- A session between two declarations of a script. -/
structure Session.Between (names : ImplicitNames) (s : Session β) (f : Frame β) : Prop where
  names : s.names = names
  classes : s.classes = []
  frames : s.frames = [f]
  kind : f.kind = .script
  scopeDepth : f.scopeDepth = 0
  depths : f.locals.map Local.depth = [some 0]

namespace Compile

/-- After some declarations, a script is between two of them again. -/
theorem Cleanly.between {ts : List Kind} (hds : Declaration.SpelledEach ds ts)
    (hspared : names.Spared ts) {items : List (Scanned Symbol)} {t : Session β}
    (h : Cleanly (Declaration.compileEach ds : Compile w.settings Unit)
      (Compilation.start names items) () t) :
    (∃ f, t.Between names f) ∧ (Reader.start items).Takes ts t.reader := by
  obtain ⟨-, -, -, htakes, ht⟩ := (Declaration.compilesEach hds (D := .script names) rfl
    hspared).sound Drafts.valid_script Drafts.fits_script (Drafts.describes_script items) h
  have hafter : Declaration.afterEach (Drafts.script names).env ds = .script names :=
    Declaration.afterEach_script ds
  rw [hafter] at ht
  obtain ⟨hnames, hclasses, f, frames, hframes, hf, hrest⟩ := (Drafts.describes_iff _).mp ht
  cases frames with
  | cons g frames => exact hrest.elim
  | nil =>
      exact ⟨⟨f, hnames, hclasses, hframes, hf.kind, hf.depth, congrArg _ hf.locals⟩, htakes⟩

/-- At its end, a script gets the two cells of a return. -/
theorem Cleanly.of_end {s t : Session β} {f : Frame β} (hs : s.Between names f)
    (h : Cleanly (do expect .endOfInput; emitReturn : Compile w.settings Unit) s () t) :
    ∃ code l, t.frames = [{ f with code, lines := f.lines ++ Array.replicate 2 l }] := by
  obtain ⟨_, u, hexpect, hreturn⟩ := h.of_bind
  obtain ⟨-, rfl, -⟩ := cleanly_advance.mp (cleanly_expect.mp hexpect).2
  unfold emitReturn at hreturn
  obtain ⟨g, _, hframe, hcells⟩ := hreturn.of_bind
  obtain ⟨outer, hg, rfl⟩ := hframe.of_frame
  cases hs.frames.symm.trans hg
  dsimp only at hcells
  rw [hs.kind, if_neg nofun] at hcells
  obtain ⟨code, hrun⟩ := ((lays_emitCell (w := w) _).bind (lays_emitCell _)).run hg
  cases hrun.symm.trans hcells.run
  exact ⟨code, _, rfl⟩

theorem Cleanly.of_takeScript {s t : Session β} {f : Function β}
    (h : Cleanly (Prod.fst <$> takeFrame : Compile w.settings (Function β)) s f t) :
    ∃ g frames, s.frames = g :: frames ∧ f = g.finish := by
  rw [map_eq_pure_bind] at h
  obtain ⟨answer, u, htake, hpure⟩ := h.of_bind
  obtain ⟨-, rfl, -⟩ := cleanly_pure.mp hpure
  have htakes := htake.run
  cases hframes : s.frames with
  | nil =>
      obtain ⟨names, reader, frames, classes, events⟩ := s
      cases hframes
      cases htakes
  | cons g frames =>
      obtain ⟨events, hrun⟩ := run_takeFrame (w := w) hframes
      cases hrun.symm.trans htakes
      exact ⟨g, frames, rfl, rfl⟩

end Compile

namespace Declaration

theorem compileEach_append : (compileEach (ds ++ ds') : Compile w.settings Unit) =
    compileEach ds >>= fun _ => compileEach ds' := by
  induction ds with
  | nil => rw [compileEach, pure_bind, List.nil_append]
  | cons d ds ih => simp only [List.cons_append, compileEach, ih, bind_assoc]

theorem compileUpToReturn_append : (compileUpToReturn (ds ++ ds') : Compile w.settings Unit) =
    compileEach ds >>= fun _ => compileUpToReturn ds' := by
  unfold compileUpToReturn
  rw [compileEach_append, bind_assoc]

end Declaration

namespace Compile

/-- A script is between two declarations before its return. -/
theorem Cleanly.of_program {ts : List Kind} (hds : Declaration.SpelledEach ds ts)
    (hspared : names.Spared ts) {items : List (Scanned Symbol)} {f : Function β} {t : Session β}
    (h : Cleanly (Declaration.compileProgram ds : Compile w.settings (Function β))
      (Compilation.start names items) f t) :
    (∃ m g l, Cleanly (Declaration.compileEach ds : Compile w.settings Unit)
      (Compilation.start names items) () m ∧ m.Between names g ∧
      f.lines = g.lines.toList ++ [l, l] ∧ f.constants = g.constants.toList) ∧
    ∃ u g, Cleanly (Declaration.compileUpToReturn ds : Compile w.settings Unit)
      (Compilation.start names items) () u ∧ u.frames = [g] ∧ f = g.finish := by
  rw [Declaration.compileProgram_eq] at h
  obtain ⟨_, u, hprogram, htake⟩ := h.of_bind
  have hboth := hprogram
  unfold Declaration.compileUpToReturn at hboth
  obtain ⟨_, m, heach, hend⟩ := hboth.of_bind
  obtain ⟨⟨g, hm⟩, -⟩ := heach.between hds hspared
  obtain ⟨code, l, hframes⟩ := hend.of_end hm
  obtain ⟨g', frames, hframes', rfl⟩ := htake.of_takeScript
  obtain ⟨rfl, rfl⟩ := List.cons.inj (hframes.symm.trans hframes')
  refine ⟨⟨m, g, l, heach, hm, ?_, rfl⟩, u, _, hprogram, hframes, rfl⟩
  simp [Frame.finish]

/-- A program with another one after it is side by side with itself on its own, up to the end of its
own source. -/
theorem Cleanly.woven_seam {ts : List Kind} {standing later : List (Scanned Symbol)}
    {last : Token Symbol} (hstanding : standing.map (Except.map Token.kind) = ts.map .ok)
    (hlast : last.kind = .endOfInput) {m m' : Session β} {g g' : Frame β}
    (h : Cleanly (Declaration.compileEach ds : Compile w.settings Unit)
      (Compilation.start names (standing ++ [.ok last])) () m) (hm : m.Between names g)
    (h' : Cleanly (Declaration.compileEach ds : Compile w.settings Unit)
      (Compilation.start names (standing ++ later)) () m') (hm' : m'.Between names g') :
    Woven Eq (Constant.functions g.constants.toList) g.lines.toList
      (Constant.functions g'.constants.toList) g'.lines.toList := by
  have hbegin : (Compilation.start names (standing ++ [.ok last]) : Session β).Abreast
      ⟨names, Eq, True, ∅⟩ (Compilation.start names (standing ++ later)) :=
    { names := rfl
      names' := rfl
      reader := Reader.abreast_start rfl (.append trivial (fun _ => rfl) hstanding hlast later)
      frames := .script (.new _ _ _ _ _)
      classes := rfl }
  have hend := ((Declaration.abreast_compileEach (w := w) id id ds fun _ _ => Iff.rfl).run hbegin
    (by rwa [Declaration.renameEach_id]) (by rwa [Declaration.renameEach_id])).2.frames
  rw [hm.frames, hm'.frames] at hend
  cases hend with
  | inside _ hnone => cases hnone
  | script hg =>
      obtain ⟨fs, ls, hfs, hls, hwoven⟩ := hg.woven
      rw [hfs, hls]
      exact hwoven

/-- A program that goes on in a script is side by side with itself on its own. -/
theorem Cleanly.woven_rest {items later : List (Scanned Symbol)} {us : List Kind} {k : Nat}
    (hitems : items.map (Except.map Token.kind) = us.map .ok)
    (hlater : List.Forall₂ (Scanned.SameKind fun l l' => l' = l + k) items later)
    {m u u' : Session β} {f g g' : Frame β} {frames : Frames β} (hm : m.Between names f)
    (hreader : later = .ok m.reader.current :: m.reader.upcoming)
    (h : Cleanly (Declaration.compileUpToReturn ds : Compile w.settings Unit)
      (Compilation.start names items) () u) (hu : u.frames = [g])
    (h' : Cleanly (Declaration.compileUpToReturn ds : Compile w.settings Unit) m () u')
    (hu' : u'.frames = g' :: frames) :
    ∃ fs ls, Constant.functions g'.constants.toList = Constant.functions f.constants.toList ++ fs ∧
      g'.lines.toList = f.lines.toList ++ ls ∧
      Woven (fun l l' => l' = l + k) (Constant.functions g.constants.toList) g.lines.toList fs ls := by
  let c : Course β := ⟨names, fun l l' => l' = l + k, False,
    ⟨Constant.functions f.constants.toList, f.lines.toList⟩⟩
  -- the last token before the seam is not compared, so it may be taken to stand on a later line
  let token : Token Symbol := .endAt ⟨1 + k, 0⟩ 0
  have hframe : (Frame.new .script none .anonymous : Frame β).Abreast c.line c.past f :=
    { kind := hm.kind.symm
      scopeDepth := hm.scopeDepth.symm
      depths := hm.depths.symm
      woven := ⟨[], [], (List.append_nil _).symm, (List.append_nil _).symm, .nil⟩ }
  have hbegin : (Compilation.start names items : Session β).Abreast c
      { m with reader := { m.reader with previous := token } } :=
    { names := rfl
      names' := hm.names
      reader := by
        have hahead : Ahead c items later := .of_sameKind hlater hitems
        rw [hreader] at hahead
        cases hahead with
        | last hlonger _ => exact hlonger.elim
        | cons hline hrest => exact ⟨rfl, .cons hline hrest⟩
      frames := by
        show Frames.Abreast c.line c.past _ m.frames
        rw [hm.frames]
        exact .script hframe
      classes := hm.classes.symm }
  have hkinds : SameKinds id id c.names (Declaration.methodNamesEach ds) := fun _ _ => Iff.rfl
  have hend := ((Declaration.begins_compileUpToReturn (w := w) id hkinds).run token hbegin
      (by rwa [Declaration.renameEach_id]) (by rwa [Declaration.renameEach_id])).frames
  rw [hu, hu'] at hend
  cases hend with
  | inside _ hnone => cases hnone
  | script hg => exact hg.woven

/-- The lines and functions of two programs one after the other are those of the programs on their
own, woven with what the programs get together. -/
theorem Cleanly.woven_append {ts us : List Kind} (hds : Declaration.SpelledEach ds ts)
    (hds' : Declaration.SpelledEach ds' us) (hspared : names.Spared ts) (hspared' : names.Spared us)
    {standing items later : List (Scanned Symbol)} {last : Token Symbol} {k : Nat}
    (hstanding : standing.map (Except.map Token.kind) = ts.map .ok)
    (hlast : last.kind = .endOfInput)
    (hitems : items.map (Except.map Token.kind) = (us ++ [TokenKind.endOfInput]).map .ok)
    (hlater : List.Forall₂ (Scanned.SameKind fun l l' => l' = l + k) items later)
    {f₁ f₂ f : Function β} {t₁ t₂ t : Session β}
    (h₁ : Cleanly (Declaration.compileProgram ds : Compile w.settings (Function β))
      (Compilation.start names (standing ++ [.ok last])) f₁ t₁)
    (h₂ : Cleanly (Declaration.compileProgram ds' : Compile w.settings (Function β))
      (Compilation.start names items) f₂ t₂)
    (h : Cleanly (Declaration.compileProgram (ds ++ ds') : Compile w.settings (Function β))
      (Compilation.start names (standing ++ later)) f t) :
    ∃ ls₁ l fs ls fs' ls', f₁.lines = ls₁ ++ [l, l] ∧
      Constant.functions f.constants = fs ++ fs' ∧ f.lines = ls ++ ls' ∧
      Woven Eq (Constant.functions f₁.constants) ls₁ fs ls ∧
      Woven (fun l l' => l' = l + k) (Constant.functions f₂.constants) f₂.lines fs' ls' := by
  obtain ⟨⟨m₁, g₁, l, heach₁, hm₁, hlines₁, hconstants₁⟩, -⟩ := h₁.of_program hds hspared
  obtain ⟨-, u₂, g₂, hprogram₂, hframes₂, rfl⟩ := h₂.of_program hds' hspared'
  rw [Declaration.compileProgram_eq, Declaration.compileUpToReturn_append] at h
  obtain ⟨_, u, hboth, htake⟩ := h.of_bind
  obtain ⟨_, m, heach, hprogram⟩ := hboth.of_bind
  obtain ⟨⟨g, hm⟩, htakes⟩ := heach.between hds hspared
  obtain ⟨g', frames, hframes, rfl⟩ := htake.of_takeScript
  have hreader : later = .ok m.reader.current :: m.reader.upcoming := by
    have hkinds := Scanned.map_kind_of_sameKind id hlater hitems
    cases later with
    | nil => simp at hkinds
    | cons item rest =>
        cases item with
        | error e => cases us <;> cases hkinds
        | ok next =>
            obtain ⟨hcurrent, hupcoming⟩ := htakes.ahead hstanding rfl
            rw [hcurrent, hupcoming]
  obtain ⟨fs', ls', hfunctions, hlines, hrest⟩ :=
    hprogram₂.woven_rest hitems hlater hm hreader hframes₂ hprogram hframes
  refine ⟨_, l, _, _, fs', ls', hlines₁, hfunctions, hlines, ?_, hrest⟩
  rw [hconstants₁]
  exact heach₁.woven_seam hstanding hlast hm₁ heach hm

end Compile

end LoxCompiler
