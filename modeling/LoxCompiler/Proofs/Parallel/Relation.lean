import LoxCompiler.Proofs.Parallel.Alike
import LoxCompiler.Session.Basic

/-! # Alike sessions

Two compilations that read the same kinds of token go through the same states, up to symbols and
lines. The symbols of the one match those of the other one to one, so what names decide is the same
in both. What is left out of the relation decides nothing: lexemes, spans and what was noted.
-/

namespace LoxCompiler

/-- How the symbols of two compilations match, one to one, and how their lines do. -/
structure Pairing where
  name : Symbol → Symbol → Prop
  line : Nat → Nat → Prop
  name_iff {x x' y y' : Symbol} : name x x' → name y y' → (x = y ↔ x' = y')
  anonymous : name .anonymous .anonymous

/-- Two symbols match. -/
class Pairing.Named (p : Pairing) (x x' : Symbol) : Prop where
  name : p.name x x'

instance (p : Pairing) : p.Named .anonymous .anonymous := ⟨p.anonymous⟩

/-- A symbol, with one that matches it. -/
structure Pairing.Match (p : Pairing) where
  symbol : Symbol
  other : Symbol
  name : p.name symbol other

instance (p : Pairing) (both : p.Match) : p.Named both.symbol both.other := ⟨both.name⟩

variable {p : Pairing} {β : Type}

/-! ## Tokens -/

/-- A kind of token without a symbol. -/
class TokenKind.Nameless (kind : TokenKind Symbol) : Prop where
  ne_identifier : ∀ x, kind ≠ .identifier x
  ne_string : ∀ x, kind ≠ .literal (.string x)

namespace TokenKind

instance (word : Keyword) : Nameless (.keyword word) := ⟨nofun, nofun⟩
instance (op : Operator) : Nameless (.operator op) := ⟨nofun, nofun⟩
instance (value : Binary64) : Nameless (.literal (.number value)) := ⟨nofun, nofun⟩
instance (value : Bool) : Nameless (.literal (.boolean value)) := ⟨nofun, nofun⟩
instance : Nameless (.literal .nil) := ⟨nofun, nofun⟩
instance : Nameless .comma := ⟨nofun, nofun⟩
instance : Nameless .dot := ⟨nofun, nofun⟩
instance : Nameless .semicolon := ⟨nofun, nofun⟩
instance : Nameless .openParen := ⟨nofun, nofun⟩
instance : Nameless .closeParen := ⟨nofun, nofun⟩
instance : Nameless .openBrace := ⟨nofun, nofun⟩
instance : Nameless .closeBrace := ⟨nofun, nofun⟩
instance : Nameless .endOfInput := ⟨nofun, nofun⟩

/-- Two kinds of token are the same up to their symbols, which match. -/
inductive Alike (p : Pairing) : TokenKind Symbol → TokenKind Symbol → Prop
  | identifier {x x'} : p.name x x' → Alike p (.identifier x) (.identifier x')
  | string {x x'} : p.name x x' → Alike p (.literal (.string x)) (.literal (.string x'))
  | same (kind) [Nameless kind] : Alike p kind kind

/-- Kinds that are alike are of the same kind without a symbol, if of any. -/
theorem Alike.eq_iff {k k' : TokenKind Symbol} (h : k.Alike p k') (kind : TokenKind Symbol)
    [hkind : Nameless kind] : k = kind ↔ k' = kind := by
  cases h with
  | identifier _ => exact iff_of_false (hkind.ne_identifier _).symm (hkind.ne_identifier _).symm
  | string _ => exact iff_of_false (hkind.ne_string _).symm (hkind.ne_string _).symm
  | same _ => exact Iff.rfl

theorem Alike.startsStatement {k k' : TokenKind Symbol} (h : k.Alike p k') :
    k.startsStatement = k'.startsStatement := by
  cases h <;> rfl

end TokenKind

/-- Two tokens are of kinds that are alike, on lines that match. -/
structure Token.Alike (p : Pairing) (token token' : Token Symbol) : Prop where
  kind : token.kind.Alike p token'.kind
  line : p.line token.position.line token'.position.line

/-- Two items are tokens that are alike, or lexical errors with the same cause. -/
inductive Scanned.Alike (p : Pairing) : Scanned Symbol → Scanned Symbol → Prop
  | ok {token token'} : Token.Alike p token token' → Alike p (.ok token) (.ok token')
  | error {e e' : LexicalError} : e.cause = e'.cause → Alike p (.error e) (.error e')

/-! ## Readers -/

/-- Two readers stand at tokens that are alike, and have reported the same problems. -/
structure Reader.Alike (p : Pairing) (r r' : Reader) : Prop where
  upcoming : List.Forall₂ (Scanned.Alike p) r.upcoming r'.upcoming
  previous : r.previous.Alike p r'.previous
  current : r.current.Alike p r'.current
  hadError : r.hadError = r'.hadError
  panicMode : r.panicMode = r'.panicMode
  problems : r.diagnostics.map Diagnostic.problem = r'.diagnostics.map Diagnostic.problem

namespace Reader.Alike

variable {r r' : Reader}

theorem report (h : r.Alike p r') {d d' : Diagnostic} (hd : d.problem = d'.problem) :
    (r.report d).Alike p (r'.report d') := by
  unfold Reader.report
  rw [← h.panicMode]
  split
  · exact h
  · exact ⟨h.upcoming, h.previous, h.current, rfl, rfl, congrArg₂ List.cons hd h.problems⟩

theorem reportAt (h : r.Alike p r') (token token' : Token Symbol) (problem : Diagnostic.Problem) :
    (r.reportAt token problem).Alike p (r'.reportAt token' problem) :=
  h.report rfl

theorem advanceOver (h : r.Alike p r') {items items' : List (Scanned Symbol)}
    (hitems : List.Forall₂ (Scanned.Alike p) items items') :
    (r.advanceOver items).Alike p (r'.advanceOver items') := by
  induction hitems generalizing r r' with
  | nil =>
      exact ⟨.nil, h.previous, ⟨.same .endOfInput, h.current.line⟩, h.hadError, h.panicMode,
        h.problems⟩
  | cons hitem hrest ih =>
      cases hitem with
      | ok htoken => exact ⟨hrest, h.previous, htoken, h.hadError, h.panicMode, h.problems⟩
      | error hcause => exact ih (h.report (congrArg Diagnostic.Problem.lexical hcause))

theorem advance (h : r.Alike p r') : r.advance.Alike p r'.advance := by
  have htaken : { r with previous := r.current }.Alike p { r' with previous := r'.current } :=
    { h with previous := h.current }
  exact htaken.advanceOver h.upcoming

theorem check (h : r.Alike p r') (kind : TokenKind Symbol) [kind.Nameless] :
    r.check kind = r'.check kind :=
  decide_eq_decide.mpr (h.current.kind.eq_iff kind)

theorem accept (h : r.Alike p r') (kind : TokenKind Symbol) [kind.Nameless] :
    (r.accept kind).1 = (r'.accept kind).1 ∧ (r.accept kind).2.Alike p (r'.accept kind).2 := by
  unfold Reader.accept
  rw [← h.check kind]
  split
  · exact ⟨rfl, h.advance⟩
  · exact ⟨rfl, h⟩

theorem consume (h : r.Alike p r') (kind : TokenKind Symbol) [kind.Nameless] (message : String) :
    (r.consume kind message).Alike p (r'.consume kind message) := by
  unfold Reader.consume
  rw [← h.check kind]
  split
  · exact h.advance
  · exact h.reportAt _ _ _

theorem consumeIdentifier (h : r.Alike p r') (message : String) :
    p.name (r.consumeIdentifier message).1 (r'.consumeIdentifier message).1 ∧
      (r.consumeIdentifier message).2.Alike p (r'.consumeIdentifier message).2 := by
  unfold Reader.consumeIdentifier
  have hkind := h.current.kind
  generalize r.current.kind = k, r'.current.kind = k' at hkind
  cases hkind with
  | identifier hname => exact ⟨hname, h.advance⟩
  | string _ => exact ⟨p.anonymous, h.reportAt _ _ _⟩
  | same _ =>
      rename_i hkind
      cases k with
      | identifier x => exact (hkind.ne_identifier x rfl).elim
      | _ => exact ⟨p.anonymous, h.reportAt _ _ _⟩

theorem atBoundary (h : r.Alike p r') : r.atBoundary = r'.atBoundary := by
  unfold Reader.atBoundary
  rw [h.current.kind.startsStatement, decide_eq_decide.mpr (h.current.kind.eq_iff .endOfInput),
    decide_eq_decide.mpr (h.previous.kind.eq_iff .semicolon)]

theorem skipToBoundary (h : r.Alike p r') {clock clock' : List (Scanned Symbol)}
    (hclock : List.Forall₂ (Scanned.Alike p) clock clock') (skipped : Nat) :
    (r.skipToBoundary clock skipped).1 = (r'.skipToBoundary clock' skipped).1 ∧
      (r.skipToBoundary clock skipped).2.Alike p (r'.skipToBoundary clock' skipped).2 := by
  induction hclock generalizing r r' skipped with
  | nil =>
      unfold Reader.skipToBoundary
      rw [← h.atBoundary]
      split
      · exact ⟨rfl, h⟩
      · exact ⟨rfl, h.advance⟩
  | cons _ _ ih =>
      unfold Reader.skipToBoundary
      rw [← h.atBoundary]
      split
      · exact ⟨rfl, h⟩
      · exact ih h.advance _

theorem synchronize (h : r.Alike p r') :
    r.synchronize.1 = r'.synchronize.1 ∧ r.synchronize.2.Alike p r'.synchronize.2 := by
  have hresumed : { r with panicMode := false }.Alike p { r' with panicMode := false } :=
    { h with panicMode := rfl }
  exact hresumed.skipToBoundary h.upcoming 0

theorem remaining (h : r.Alike p r') : r.remaining = r'.remaining := by
  unfold Reader.remaining
  rw [h.upcoming.length_eq]
  simp only [h.current.kind.eq_iff .endOfInput]

end Reader.Alike

/-- The readers of items that are alike. -/
theorem Reader.alike_start {items items' : List (Scanned Symbol)}
    (h : List.Forall₂ (Scanned.Alike p) items items') (hline : p.line 1 1) :
    (Reader.start items).Alike p (Reader.start items') := by
  have horigin : (Token.endAt .start 0).Alike p (.endAt .start 0) := ⟨.same .endOfInput, hline⟩
  exact .advance ⟨h, horigin, horigin, rfl, rfl, rfl⟩

/-! ## Locals and frames -/

/-- Two locals are of names that match, and the rest of them is the same. -/
structure Local.Alike (p : Pairing) (l l' : Local) : Prop where
  name : p.name l.name l'.name
  depth : l.depth = l'.depth
  captured : l.captured = l'.captured

namespace Local

variable {locals locals' : List Local} {x x' : Symbol}

theorem alike_find? (h : List.Forall₂ (Alike p) locals locals') (hx : p.name x x') :
    (find? x locals).map (fun (slot, l) => (slot, l.depth.isSome)) =
      (find? x' locals').map fun (slot, l) => (slot, l.depth.isSome) := by
  induction h with
  | nil => rfl
  | cons hfirst hrest ih =>
      unfold find?
      simp only [p.name_iff hfirst.name hx]
      split
      · rw [Option.map_some, Option.map_some, hrest.length_eq, hfirst.depth]
      · exact ih

theorem alike_capture (h : List.Forall₂ (Alike p) locals locals') (hx : p.name x x') :
    List.Forall₂ (Alike p) (capture x locals) (capture x' locals') := by
  induction h with
  | nil => exact .nil
  | cons hfirst hrest ih =>
      unfold capture
      simp only [p.name_iff hfirst.name hx]
      split
      · exact .cons ⟨hfirst.name, hfirst.depth, rfl⟩ hrest
      · exact .cons hfirst ih

theorem Alike.declaredWithin {l l' : Local} (h : l.Alike p l') (depth : Nat) :
    l.declaredWithin depth = l'.declaredWithin depth := by
  unfold Local.declaredWithin
  rw [h.depth]

theorem alike_takeWhile (h : List.Forall₂ (Alike p) locals locals') (depth : Nat) :
    List.Forall₂ (Alike p) (locals.takeWhile (·.declaredWithin depth))
      (locals'.takeWhile (·.declaredWithin depth)) := by
  induction h with
  | nil => exact .nil
  | cons hfirst _ ih =>
      rw [List.takeWhile_cons, List.takeWhile_cons, hfirst.declaredWithin]
      split
      · exact .cons hfirst ih
      · exact .nil

theorem alike_dropWhile (h : List.Forall₂ (Alike p) locals locals') (depth : Nat) :
    List.Forall₂ (Alike p) (locals.dropWhile (·.declaredWithin depth))
      (locals'.dropWhile (·.declaredWithin depth)) := by
  induction h with
  | nil => exact .nil
  | cons hfirst hrest ih =>
      rw [List.dropWhile_cons, List.dropWhile_cons, hfirst.declaredWithin]
      split
      · exact ih
      · exact .cons hfirst hrest

theorem alike_any (h : List.Forall₂ (Alike p) locals locals') (hx : p.name x x') :
    locals.any (·.name = x) = locals'.any (·.name = x') := by
  induction h with
  | nil => rfl
  | cons hfirst _ ih =>
      rw [List.any_cons, List.any_cons, ih, decide_eq_decide.mpr (p.name_iff hfirst.name hx)]

end Local

/-- Two functions under construction are the same up to names and lines, which match. -/
structure Frame.Alike (p : Pairing) (f f' : Frame β) : Prop where
  kind : f.kind = f'.kind
  name : Option.Rel p.name f.name f'.name
  arity : f.arity = f'.arity
  code : f.code = f'.code
  lines : List.Forall₂ p.line f.lines.toList f'.lines.toList
  constants : List.Forall₂ (Constant.Alike p.name p.line) f.constants.toList f'.constants.toList
  openJumps : f.openJumps = f'.openJumps
  locals : List.Forall₂ (Local.Alike p) f.locals f'.locals
  upvalues : f.upvalues = f'.upvalues
  scopeDepth : f.scopeDepth = f'.scopeDepth

namespace Frame.Alike

variable {f f' : Frame β} {x x' : Symbol}

theorem new (kind : FunctionKind) {name name' : Option Symbol} (hname : Option.Rel p.name name name')
    (hx : p.name x x') : (Frame.new kind name x : Frame β).Alike p (Frame.new kind name' x') :=
  ⟨rfl, hname, rfl, rfl, .nil, .nil, rfl, .cons ⟨hx, rfl, rfl⟩ .nil, rfl, rfl⟩

theorem write (h : f.Alike p f') (cell : β) {line line' : Nat} (hline : p.line line line') :
    (f.write cell line).Alike p (f'.write cell line') where
  __ := h
  code := congrArg (Array.push · cell) h.code
  lines := by
    simp only [Frame.write, Array.toList_push]
    exact List.rel_append h.lines (.cons hline .nil)

theorem addConstant (h : f.Alike p f') {c c' : Constant β} (hc : c.Alike p.name p.line c') :
    (f.addConstant c).Alike p (f'.addConstant c') where
  __ := h
  constants := by
    simp only [Frame.addConstant, Array.toList_push]
    exact List.rel_append h.constants (.cons hc .nil)

theorem resolveLocal (h : f.Alike p f') (hx : p.name x x') :
    f.resolveLocal x = f'.resolveLocal x' :=
  Local.alike_find? h.locals hx

theorem declaredInScope (h : f.Alike p f') (hx : p.name x x') :
    f.declaredInScope x = f'.declaredInScope x' := by
  unfold Frame.declaredInScope
  rw [h.scopeDepth]
  exact Local.alike_any (Local.alike_takeWhile h.locals _) hx

theorem captureLocal (h : f.Alike p f') (hx : p.name x x') :
    (f.captureLocal x).Alike p (f'.captureLocal x') where
  __ := h
  locals := Local.alike_capture h.locals hx

theorem markInitialized (h : f.Alike p f') : f.markInitialized.Alike p f'.markInitialized := by
  unfold Frame.markInitialized
  rw [h.scopeDepth]
  split
  · exact h
  · have hlocals := h.locals
    cases hls : f.locals with
    | nil =>
        rw [hls, List.forall₂_nil_left_iff] at hlocals
        rw [hlocals]
        exact h
    | cons l older =>
        rw [hls, List.forall₂_cons_left_iff] at hlocals
        obtain ⟨⟨name', depth', captured'⟩, older', hl, holder, hls'⟩ := hlocals
        obtain ⟨name, depth, captured⟩ := l
        obtain rfl : depth = depth' := hl.depth
        rw [hls']
        cases depth with
        | some depth => exact h
        | none =>
            exact { h with locals := .cons ⟨hl.name, rfl, hl.captured⟩ holder, scopeDepth := rfl }

theorem addLocal (h : f.Alike p f') (limits : Limits) (hx : p.name x x') :
    (∃ g g', f.addLocal limits x = .ok g ∧ f'.addLocal limits x' = .ok g' ∧ g.Alike p g') ∨
      f.addLocal limits x = .error .tooManyLocals ∧
        f'.addLocal limits x' = .error .tooManyLocals := by
  unfold Frame.addLocal
  rw [h.locals.length_eq]
  split
  · exact .inl ⟨_, _, rfl, rfl, { h with locals := .cons ⟨hx, rfl, rfl⟩ h.locals }⟩
  · exact .inr ⟨rfl, rfl⟩

theorem addUpvalue (h : f.Alike p f') (limits : Limits) (u : Upvalue) :
    (∃ g g' index, f.addUpvalue limits u = .ok (g, index) ∧
      f'.addUpvalue limits u = .ok (g', index) ∧ g.Alike p g') ∨
      ∃ problem, f.addUpvalue limits u = .error problem ∧
        f'.addUpvalue limits u = .error problem := by
  unfold Frame.addUpvalue
  rw [← h.upvalues]
  cases f.upvalues.idxOf? u with
  | some index => exact .inl ⟨f, f', index, rfl, rfl, h⟩
  | none =>
      dsimp only
      split
      · exact .inl ⟨_, _, _, rfl, rfl, { h with upvalues := rfl }⟩
      · exact .inr ⟨_, rfl, rfl⟩

theorem finish (h : f.Alike p f') : f.finish.Alike p.name p.line f'.finish := by
  rw [Function.alike_iff]
  exact ⟨h.name, h.arity, congrArg List.length h.upvalues, congrArg Array.toList h.code, h.lines,
    h.constants⟩

end Frame.Alike

/-- Two stacks of functions under construction are alike, function by function. -/
abbrev Frames.Alike (p : Pairing) (fs fs' : Frames β) : Prop := List.Forall₂ (Frame.Alike p) fs fs'

namespace Frames

variable {f f' : Frame β} {fs fs' : Frames β} {x x' : Symbol}

theorem alike_captureInnermost (hf : f.Alike p f') (hfs : fs.Alike p fs') (limits : Limits)
    (u : Upvalue) : (captureInnermost limits f fs u).1.Alike p (captureInnermost limits f' fs' u).1 ∧
      (captureInnermost limits f fs u).2 = (captureInnermost limits f' fs' u).2 := by
  unfold captureInnermost
  obtain ⟨g, g', index, hg, hg', hgrown⟩ | ⟨problem, hg, hg'⟩ := hf.addUpvalue limits u
  · rw [hg, hg']
    exact ⟨.cons hgrown hfs, rfl⟩
  · rw [hg, hg']
    exact ⟨.cons hf hfs, rfl⟩

/-- A variable is captured in the same way through functions that are alike. -/
theorem alike_resolveUpvalue (h : fs.Alike p fs') (limits : Limits) (hx : p.name x x') :
    (resolveUpvalue limits x fs).1.Alike p (resolveUpvalue limits x' fs').1 ∧
      (resolveUpvalue limits x fs).2 = (resolveUpvalue limits x' fs').2 := by
  induction h with
  | nil => exact ⟨.nil, rfl⟩
  | @cons f f' outer outer' hf houter ih =>
      cases houter with
      | nil => exact ⟨.cons hf .nil, rfl⟩
      | @cons next next' outer outer' hnext houter =>
          unfold resolveUpvalue
          rw [hnext.resolveLocal hx]
          split
          · exact alike_captureInnermost hf (.cons (hnext.captureLocal hx) houter) _ _
          · exact ⟨.cons hf (.cons hnext houter), rfl⟩
          · obtain ⟨hframes, hanswer⟩ := ih
            generalize resolveUpvalue limits x (next :: outer) = result at hframes hanswer
            generalize resolveUpvalue limits x' (next' :: outer') = result' at hframes hanswer
            obtain ⟨frames, answer⟩ := result
            obtain ⟨frames', answer'⟩ := result'
            obtain rfl : answer = answer' := hanswer
            match answer with
            | .ok (some index) => exact alike_captureInnermost hf hframes _ _
            | .ok none | .error _ => exact ⟨.cons hf hframes, rfl⟩

end Frames

/-! ## Sessions -/

/-- Two sessions stand at the same place of programs that differ in symbols and lines. -/
structure Session.Alike (p : Pairing) (s s' : Session β) : Prop where
  this : p.name s.names.this s'.names.this
  super : p.name s.names.super s'.names.super
  init : p.name s.names.init s'.names.init
  reader : s.reader.Alike p s'.reader
  frames : s.frames.Alike p s'.frames
  classes : s.classes = s'.classes

end LoxCompiler
