import LoxCompiler.Proofs.History.Appends
import LoxCompiler.Proofs.Invariant.Outline
import Mathlib.Data.List.Chain

/-! # Line tables over changes

A function under construction has one line for each cell. A change adds at most one line, the one of
the last token taken, together with the cell. So each line in a table can be followed back to the
change that emitted its cell.
-/

namespace LoxCompiler

variable {β : Type} {given : Function β → Prop} {fs gs : Frames β} {line line' : Nat}

/-- A function under construction has one line for each cell. The lines do not decrease, and the
last of them is at most a given one. The functions among its constants are given ones. -/
structure Frame.Recorded (given : Function β → Prop) (line : Nat) (f : Frame β) : Prop where
  size : f.lines.size = f.code.size
  sorted : f.lines.toList.Pairwise (· ≤ ·)
  within : ∀ n ∈ f.lines.toList, 1 ≤ n ∧ n ≤ line
  functions : ∀ g, .function g ∈ f.constants.toList → given g

namespace Frame.Recorded

variable {f g : Frame β}

theorem mono (h : f.Recorded given line) (hle : line ≤ line') : f.Recorded given line' :=
  { h with within := fun n hn => ⟨(h.within n hn).1, (h.within n hn).2.trans hle⟩ }

theorem of_empty (hcode : f.code = #[]) (hlines : f.lines = #[]) (hconstants : f.constants = #[]) :
    f.Recorded given line := by
  constructor
  · rw [hcode, hlines]
    rfl
  · simp [hlines]
  · simp [hlines]
  · simp [hconstants]

theorem sameLines (h : f.Recorded given line) (hg : f.SameLines g) : g.Recorded given line := by
  constructor
  · rw [hg.lines, hg.size, h.size]
  · rw [hg.lines]
    exact h.sorted
  · rw [hg.lines]
    exact h.within
  · rw [hg.constants]
    exact h.functions

theorem addConstant (h : f.Recorded given line) {value : Constant β}
    (hvalue : ∀ g, value = .function g → given g) : (f.addConstant value).Recorded given line :=
  { h with
    functions := fun g hg => by
      rcases List.mem_append.mp (Array.toList_push ▸ hg) with hg | hg
      · exact h.functions g hg
      · exact hvalue g (List.mem_singleton.mp hg).symm }

/-- No line of a table is after that of a cell that is appended. -/
theorem write (h : f.Recorded given line) (hline : 1 ≤ line) (cell : β) :
    (f.write cell line).Recorded given line where
  size := by simp [Frame.write, h.size]
  sorted := by
    simp only [Frame.write, Array.toList_push, List.pairwise_append]
    refine ⟨h.sorted, List.pairwise_singleton _ _, fun n hn m hm => ?_⟩
    rw [List.mem_singleton.mp hm]
    exact (h.within n hn).2
  within n hn := by
    simp only [Frame.write, Array.toList_push, List.mem_append, List.mem_singleton] at hn
    rcases hn with hn | rfl
    · exact h.within n hn
    · exact ⟨hline, Nat.le_refl _⟩
  functions := h.functions

end Frame.Recorded

namespace Frames

theorem recorded_of_sameLines (h : List.Forall₂ Frame.SameLines fs gs)
    (hfs : ∀ f ∈ fs, f.Recorded given line) : ∀ g ∈ gs, g.Recorded given line := by
  induction h with
  | nil => exact hfs
  | cons hsame _ ih =>
      obtain ⟨hf, houter⟩ := List.forall_mem_cons.mp hfs
      exact List.forall_mem_cons.mpr ⟨hf.sameLines hsame, ih houter⟩

/-- Over a change, the tables of all functions under construction stay recorded. -/
theorem Appends.recorded (h : Appends given line fs gs) (hline : 1 ≤ line)
    (hfs : ∀ f ∈ fs, f.Recorded given line) : ∀ g ∈ gs, g.Recorded given line := by
  cases h with
  | keep hkeep => exact recorded_of_sameLines hkeep hfs
  | constant value hvalue =>
      obtain ⟨hf, houter⟩ := List.forall_mem_cons.mp hfs
      exact List.forall_mem_cons.mpr ⟨hf.addConstant hvalue, houter⟩
  | cell cell =>
      obtain ⟨hf, houter⟩ := List.forall_mem_cons.mp hfs
      exact List.forall_mem_cons.mpr ⟨hf.write hline cell, houter⟩
  | start hcode hlines hconstants =>
      exact List.forall_mem_cons.mpr ⟨.of_empty hcode hlines hconstants, hfs⟩
  | finish => exact (List.forall_mem_cons.mp hfs).2

/-! ## Following a line back -/

/-- The line of a cell of the function under construction at some level, where the script is at
level zero. -/
def lineAt? (fs : Frames β) (level offset : Nat) : Option Nat :=
  (fs.map Frame.lines).reverse[level]?.bind (·[offset]?)

theorem lines_of_sameLines (h : List.Forall₂ Frame.SameLines fs gs) :
    gs.map Frame.lines = fs.map Frame.lines := by
  induction h with
  | nil => rfl
  | cons hsame _ ih => rw [List.map_cons, List.map_cons, hsame.lines, ih]

/-- The innermost function under construction, which is at some level, gets a cell at some offset,
on some line. -/
def Emits (level offset line : Nat) (fs gs : Frames β) : Prop :=
  ∃ f outer cell, fs = f :: outer ∧ gs = f.write cell line :: outer ∧
    outer.length = level ∧ f.code.size = offset

theorem Emits.not_sameLines {level offset : Nat} (h : Emits level offset line fs gs) :
    ¬ List.Forall₂ Frame.SameLines fs gs := by
  obtain ⟨f, outer, cell, rfl, rfl, -, -⟩ := h
  intro hsame
  have hsize := (List.forall₂_cons.mp hsame).1.size
  simp [Frame.write] at hsize

/-- A line that is in a table after a change was there before it, or its cell is emitted by this
change, on the line of the last token taken. -/
theorem Appends.lineAt? {level offset n : Nat} (h : Appends given line fs gs)
    (hsize : ∀ f ∈ fs, f.lines.size = f.code.size) (hn : lineAt? gs level offset = some n) :
    lineAt? fs level offset = some n ∨ n = line ∧ Emits level offset n fs gs := by
  unfold Frames.lineAt? at hn ⊢
  cases h with
  | keep hkeep => exact .inl (lines_of_sameLines hkeep ▸ hn)
  | constant => exact .inl hn
  | @cell f outer cell =>
      rw [List.map_cons, Outline.getElem?_reverse_cons, List.length_map] at hn ⊢
      by_cases hlevel : level = outer.length
      · rw [if_pos hlevel, Option.bind_some] at hn ⊢
        rw [Frame.write, Array.getElem?_push] at hn
        split at hn
        · rename_i hoffset
          have hcode : f.code.size = offset := hoffset ▸ (hsize f List.mem_cons_self).symm
          obtain rfl := Option.some.inj hn
          exact .inr ⟨rfl, f, outer, cell, rfl, rfl, hlevel.symm, hcode⟩
        · exact .inl hn
      · rw [if_neg hlevel] at hn ⊢
        exact .inl hn
  | @start f outer hcode hlines hconstants =>
      rw [List.map_cons, Outline.getElem?_reverse_cons, hlines] at hn
      split at hn
      · simp at hn
      · exact .inl hn
  | @finish f outer =>
      rw [List.map_cons, Outline.getElem?_reverse_cons]
      split
      · rename_i hlevel
        rw [List.getElem?_eq_none (by simp [hlevel])] at hn
        cases hn
      · exact .inl hn

end Frames

/-- A line that is in a table after some changes, but not before the first of them, is that of the
last token taken when one of them emits its cell. It is in the table from then on. -/
theorem Session.exists_emits {level offset n : Nat} {earlier : List (Session β)} {s : Session β}
    (hchain : List.IsChain (Session.Appends given) (earlier ++ [s]))
    (hsize : ∀ u ∈ earlier ++ [s], ∀ f ∈ u.frames, f.lines.size = f.code.size)
    (hfirst : ∀ u, [u] <+: earlier ++ [s] → Frames.lineAt? u.frames level offset = none)
    (hn : Frames.lineAt? s.frames level offset = some n) :
    ∃ before t u between, earlier ++ [s] = before ++ t :: u :: between ∧
      n = t.reader.previous.position.line ∧ Frames.Emits level offset n t.frames u.frames ∧
      ∀ v ∈ u :: between, Frames.lineAt? v.frames level offset = some n := by
  induction earlier using List.reverseRecOn generalizing s with
  | nil => cases (hfirst s (List.prefix_refl [s])).symm.trans hn
  | append_singleton earlier r ih =>
      have hsplit : earlier ++ [r] ++ [s] = earlier ++ r :: [s] := List.append_assoc earlier [r] [s]
      rw [hsplit, List.isChain_split] at hchain
      obtain ⟨hbefore, hlast⟩ := hchain
      have happends : r.Appends given s := (List.isChain_cons_cons.mp hlast).1
      -- The line was there before the last change, or it comes with this change.
      rcases happends.frames.lineAt? (hsize r (by simp)) hn with hr | ⟨hline, hemits⟩
      · obtain ⟨before, t, u, between, heq, hline, hemits, hthere⟩ :=
          ih hbefore (fun u hu => hsize u (List.mem_append_left _ hu))
            (fun u hu => hfirst u (hu.trans (List.prefix_append _ [s]))) hr
        refine ⟨before, t, u, between ++ [s], by rw [heq]; simp, hline, hemits, ?_⟩
        rw [← List.cons_append]
        exact List.forall_mem_append.mpr ⟨hthere, List.forall_mem_singleton.mpr hn⟩
      · exact ⟨earlier, r, s, [], hsplit, hline, hemits, List.forall_mem_singleton.mpr hn⟩

end LoxCompiler
