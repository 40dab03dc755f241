import LoxCompiler.Proofs.WellFormed.Program

/-! # Places in code

Fragments stand at places of the code of a function. Which closures the code there makes tells which
locals of the function are captured.
-/

namespace LoxCompiler

open Fragment (simple step steps withItem jumpOver counting)

/-! ## Places in code -/

/-- The steps of some code with their offsets. -/
def Step.labelled (o : Nat) : List Step → List (Nat × Step)
  | [] => []
  | s :: code => (o, s) :: labelled (o + s.size) code

namespace Step

variable {o : Nat} {code more : List Step}

@[simp] theorem labelled_append (o : Nat) (code more : List Step) :
    labelled o (code ++ more) = labelled o code ++ labelled (o + totalSize code) more := by
  induction code generalizing o with
  | nil => rfl
  | cons s code ih =>
      rw [List.cons_append, labelled, labelled, ih, totalSize_cons, Nat.add_assoc, List.cons_append]

theorem bounds_of_mem_labelled {e : Nat × Step} (h : e ∈ labelled o code) :
    o ≤ e.1 ∧ e.1 < o + totalSize code := by
  induction code generalizing o with
  | nil => cases h
  | cons s code ih =>
      have hpos := s.size_pos
      rw [totalSize_cons]
      rcases List.mem_cons.mp h with rfl | h
      · exact ⟨Nat.le_refl _, by dsimp only; omega⟩
      · have := ih h
        omega

theorem mem_of_mem_labelled {e : Nat × Step} (h : e ∈ labelled o code) : e.2 ∈ code := by
  induction code generalizing o with
  | nil => cases h
  | cons s code ih =>
      rcases List.mem_cons.mp h with rfl | h
      · exact List.mem_cons_self
      · exact List.mem_cons_of_mem _ (ih h)

theorem exists_mem_labelled {s : Step} (h : s ∈ code) (o : Nat) : ∃ o', (o', s) ∈ labelled o code := by
  obtain ⟨before, after, rfl⟩ := List.append_of_mem h
  refine ⟨o + totalSize before, ?_⟩
  rw [labelled_append]
  exact List.mem_append_right _ List.mem_cons_self

end Step

/-- A place in the code of a function: how many constants and how many cells are before it. -/
structure Site where
  constants : Nat
  offset : Nat

namespace Site

variable (site : Site)

/-- The place after a fragment. -/
def after (f : Fragment) : Site :=
  ⟨site.constants + (f site.constants).constants.length, site.offset + (f site.constants).size⟩

/-- The place after some cells. -/
def skip (cells : Nat) : Site := { site with offset := site.offset + cells }

theorem after_append (f g : Fragment) : site.after (f ++ g) = (site.after f).after g := by
  simp only [after, Fragment.append_apply, Piece.constants_append, List.length_append,
    Piece.size_append, Nat.add_assoc]

theorem after_sized (f : Fragment) (g : Nat → Fragment) :
    site.after (.sized f g) = (site.after f).after (g (f site.constants).size) :=
  site.after_append f _

theorem after_withItem (value : Item) (f : Nat → Fragment) :
    site.after (withItem value f) = (site.after (.item value)).after (f site.constants) :=
  site.after_append (.item value) _

theorem after_jumpOver (op : Opcode) (extra : Nat) (f : Fragment) :
    site.after (jumpOver op extra f) = (site.skip 3).after f := by
  simp only [after, skip, Fragment.size_jumpOver, Nat.add_assoc]
  rfl

/-- The place of the body of a loop with a condition and an increment. -/
def body (condition increment : Option Fragment) : Site :=
  match condition with
  | none => rounds site
  | some condition => rounds ((site.after condition).skip 4)
where
  /-- The place of the body after the condition. -/
  rounds (site : Site) : Site :=
    match increment with
    | none => site
    | some increment => ((site.skip 3).after increment).skip 4

end Site

/-- A part of a list has some measure of the list before it. -/
def PartAt {α : Type} (measure : List α → Nat) (whole : List α) (start : Nat) (part : List α) : Prop :=
  ∃ before after, whole = before ++ part ++ after ∧ measure before = start

namespace PartAt

variable {α : Type} {measure : List α → Nat} {whole part more : List α} {start : Nat}

theorem left (h : PartAt measure whole start (part ++ more)) : PartAt measure whole start part := by
  obtain ⟨before, after, hwhole, hstart⟩ := h
  exact ⟨before, more ++ after, by rw [hwhole, List.append_assoc, List.append_assoc,
    List.append_assoc], hstart⟩

theorem right (h : PartAt measure whole start (part ++ more))
    (hmeasure : ∀ xs ys, measure (xs ++ ys) = measure xs + measure ys) :
    PartAt measure whole (start + measure part) more := by
  obtain ⟨before, after, hwhole, hstart⟩ := h
  exact ⟨before ++ part, after, by rw [hwhole, ← List.append_assoc], by rw [hmeasure, hstart]⟩

end PartAt

/-- A fragment stands at a place of a piece, with its code and its constants. -/
structure Fragment.Placed (whole : Piece) (site : Site) (f : Fragment) : Prop where
  code : PartAt totalSize whole.code site.offset (f site.constants).code
  constants : PartAt List.length whole.constants site.constants (f site.constants).constants

namespace Fragment.Placed

variable {whole : Piece} {site : Site} {f g : Fragment}

theorem left (h : Placed whole site (f ++ g)) : Placed whole site f := by
  obtain ⟨hcode, hconstants⟩ := h
  rw [append_apply, Piece.code_append] at hcode
  rw [append_apply, Piece.constants_append] at hconstants
  exact ⟨hcode.left, hconstants.left⟩

theorem right (h : Placed whole site (f ++ g)) : Placed whole (site.after f) g := by
  obtain ⟨hcode, hconstants⟩ := h
  rw [append_apply, Piece.code_append] at hcode
  rw [append_apply, Piece.constants_append] at hconstants
  exact ⟨hcode.right totalSize_append, hconstants.right fun _ _ => List.length_append⟩

/-- Only the constants before a fragment tell what it is. -/
theorem congr (h : Placed whole site f) (heq : f site.constants = g site.constants) :
    Placed whole site g := ⟨heq ▸ h.code, heq ▸ h.constants⟩

theorem ofItem {value : Item} {f : Nat → Fragment} (h : Placed whole site (withItem value f)) :
    Placed whole (site.after (item value)) (f site.constants) :=
  have hboth : Placed whole site (item value ++ f site.constants) := h.congr rfl
  hboth.right

theorem ofJumpOver {op : Opcode} {extra : Nat} (h : Placed whole site (jumpOver op extra f)) :
    Placed whole (site.skip 3) f :=
  have hcode : PartAt totalSize whole.code site.offset
    ([.jump op ((f site.constants).size + extra)] ++ (f site.constants).code) := h.code
  ⟨hcode.right totalSize_append, h.constants⟩

theorem ofSized {g : Nat → Fragment} (h : Placed whole site (sized f g)) : Placed whole site f :=
  have hboth : Placed whole site (f ++ g (f site.constants).size) := h.congr rfl
  hboth.left

theorem ofSized_right {g : Nat → Fragment} (h : Placed whole site (sized f g)) :
    Placed whole (site.after f) (g (f site.constants).size) :=
  have hboth : Placed whole site (f ++ g (f site.constants).size) := h.congr rfl
  hboth.right

theorem ofLoop {size : Nat} (h : Placed whole site (loop size f)) : Placed whole site f := h.ofSized

theorem ofDrop {level base count : Nat} (h : Placed whole site (drop level base count f)) :
    Placed whole site f :=
  have hcode : PartAt totalSize whole.code site.offset ((f site.constants).code ++
    Piece.dropSteps level base (f site.constants).uses count) := h.code
  ⟨hcode.left, h.constants⟩

/-- The body of a loop stands after its condition and its increment. -/
theorem ofCounting {condition increment : Option Fragment}
    (h : Placed whole site (counting condition increment f)) :
    Placed whole (site.body condition increment) f := by
  have hrounds {site : Site} {size : Nat} (h : Placed whole site (counting.rounds increment f size)) :
      Placed whole (Site.body.rounds increment site) f := by
    cases increment with
    | none => exact h.ofLoop
    | some i =>
        have h : Placed whole site (sized (jumpOver .jump 0 (loop (size + 3) (i ++ simple .pop)) ++ f)
          fun size => step (.jump .loop size)) := h
        have hbody := h.ofSized.right
        rw [Site.after_jumpOver] at hbody
        rw [loop, Site.after_sized, Site.after_append] at hbody
        exact hbody
  cases condition with
  | none => exact hrounds h
  | some c =>
      have h : Placed whole site (c.sized fun size => jumpOver .jumpIfFalse 0
        (simple .pop ++ counting.rounds increment f (size + 4)) ++ simple .pop) := h
      exact hrounds h.ofSized_right.left.ofJumpOver.right

end Fragment.Placed

/-! ## Closures that capture a slot -/

/-- A step makes a closure that captures a variable. -/
def Step.Closes (v : Variable) : Step → Prop
  | .closure _ vs => v ∈ vs
  | _ => False

theorem Step.Closes.closure?_ne_none {v : Variable} {s : Step} (h : s.Closes v) :
    s.closure? ≠ none := by
  cases s with
  | closure index vs => exact Option.some_ne_none _
  | _ => exact h.elim

/-- A fragment of a function at some level shows by its closures whether it uses a local of the
function as a captured variable. -/
def Fragment.Shows (v : Variable) (f : Fragment) : Prop :=
  ∀ n, v ∈ (f n).uses ↔ ∃ s ∈ (f n).code, s.Closes v

namespace Fragment.Shows

variable {v : Variable} {f g : Fragment}

theorem steps {code : List Step} (h : ∀ s ∈ code, s.closure? = none) : (steps code).Shows v := by
  intro n
  exact ⟨nofun, fun ⟨s, hs, hcloses⟩ => (hcloses.closure?_ne_none (h s hs)).elim⟩

theorem step {s : Step} (h : s.closure? = none) : (Fragment.step s).Shows v :=
  steps (List.forall_mem_singleton.mpr h)

theorem simple (op : Opcode) : (Fragment.simple op).Shows v := step rfl

theorem simpleEach (ops : List Opcode) : (Fragment.steps (ops.map .simple)).Shows v := by
  apply steps
  intro s hs
  obtain ⟨op, -, rfl⟩ := List.mem_map.mp hs
  rfl

theorem empty : (∅ : Fragment).Shows v := @steps v [] nofun

theorem reserve (slots : Nat) : (Fragment.reserve slots).Shows v := fun _ =>
  ⟨nofun, fun ⟨_, hs, _⟩ => nomatch hs⟩

theorem item (value : Item) : (Fragment.item value).Shows v := fun _ =>
  ⟨nofun, fun ⟨_, hs, _⟩ => nomatch hs⟩

theorem append (hf : f.Shows v) (hg : g.Shows v) : (f ++ g).Shows v := by
  intro n
  rw [append_apply, Piece.uses_append, Piece.code_append, List.mem_append, hf n, hg]
  constructor
  · rintro (⟨s, hs, hcloses⟩ | ⟨s, hs, hcloses⟩)
    · exact ⟨s, List.mem_append_left _ hs, hcloses⟩
    · exact ⟨s, List.mem_append_right _ hs, hcloses⟩
  · rintro ⟨s, hs, hcloses⟩
    exact (List.mem_append.mp hs).imp (fun hs => ⟨s, hs, hcloses⟩) fun hs => ⟨s, hs, hcloses⟩

theorem withItem {value : Item} {f : Nat → Fragment} (h : ∀ n, (f n).Shows v) :
    (withItem value f).Shows v := fun n => ((item value).append (h n)) n

theorem sized {g : Nat → Fragment} (hf : f.Shows v) (hg : ∀ n, (g n).Shows v) :
    (sized f g).Shows v := fun n => (hf.append (hg (f n).size)) n

theorem jumpOver (h : f.Shows v) (op : Opcode) (extra : Nat) : (jumpOver op extra f).Shows v := by
  intro n
  refine (h n).trans ⟨fun ⟨s, hs, hcloses⟩ => ⟨s, List.mem_cons_of_mem _ hs, hcloses⟩, ?_⟩
  rintro ⟨s, hs, hcloses⟩
  rcases List.mem_cons.mp hs with rfl | hs
  · exact hcloses.elim
  · exact ⟨s, hs, hcloses⟩

theorem loop (h : f.Shows v) (size : Nat) : (loop size f).Shows v := h.sized fun _ => step rfl

/-- Locals that stay are not touched by the end of a scope. -/
theorem drop {level base : Nat} (h : f.Shows v) (hv : v.level = level → v.slot < base)
    (count : Nat) : (drop level base count f).Shows v := by
  intro n
  have huses : v ∈ (Fragment.drop level base count f n).uses ↔ v ∈ (f n).uses := by
    show v ∈ List.filter _ _ ↔ _
    rw [List.mem_filter, decide_eq_true_iff, and_iff_left_iff_imp]
    rintro - ⟨hlevel, hslot⟩
    exact Nat.not_lt.mpr hslot (hv hlevel)
  rw [huses, h n]
  constructor
  · exact fun ⟨s, hs, hcloses⟩ => ⟨s, List.mem_append_left _ hs, hcloses⟩
  · rintro ⟨s, hs, hcloses⟩
    rcases List.mem_append.mp hs with hs | hs
    · exact ⟨s, hs, hcloses⟩
    · obtain ⟨op, rfl, -⟩ := Piece.simple_of_mem_dropSteps hs
      exact hcloses.elim

theorem closure (level : Nat) (name : Option Symbol) (arity : Nat) (body : Fragment) :
    (closure level name arity body).Shows v := by
  intro n
  have huses : v ∈ (Fragment.closure level name arity body n).uses ↔
      v ∈ captureAll (level + 1) (body 0).uses := by
    show v ∈ exported (level + 1) (body 0).uses ++ [] ↔ _
    rw [List.append_nil, mem_exported, mem_captureAll]
  rw [huses]
  exact ⟨fun h => ⟨_, List.mem_singleton_self _, h⟩, fun ⟨s, hs, hcloses⟩ => by
    cases List.mem_singleton.mp hs
    exact hcloses⟩

theorem counting {condition increment : Option Fragment} (hcondition : ∀ c ∈ condition, c.Shows v)
    (hincrement : ∀ i ∈ increment, i.Shows v) (h : f.Shows v) :
    (counting condition increment f).Shows v := by
  have hrounds (size : Nat) : (counting.rounds increment f size).Shows v := by
    cases increment with
    | none => exact h.loop size
    | some i =>
        exact ((((hincrement i rfl).append (simple .pop)).loop (size + 3)).jumpOver .jump 0).append h
          |>.sized fun _ => step rfl
  cases condition with
  | none => exact hrounds 0
  | some c =>
      exact (hcondition c rfl).sized fun size =>
        (((simple .pop).append (hrounds (size + 4))).jumpOver .jumpIfFalse 0).append (simple .pop)

end Fragment.Shows

namespace Environment

variable (env : Environment)

/-- Reading or writing a variable makes no closure, and uses no local of the function as a captured
variable. -/
theorem shows_reach {slot : Nat} {name : Symbol} {f : Place → Fragment}
    (h : ∀ place, (f place).Shows ⟨env.level, slot⟩) : (env.reach name f).Shows ⟨env.level, slot⟩ := by
  have hlocate : (env.locate name).Shows ⟨env.level, slot⟩ := by
    intro n
    unfold locate place
    cases slot? name env.locals with
    | some slot => exact ⟨nofun, fun ⟨_, hs, _⟩ => nomatch hs⟩
    | none =>
        cases hfind : Variable.find? name env.outer with
        | none => exact ⟨nofun, fun ⟨_, hs, _⟩ => nomatch hs⟩
        | some v =>
            refine ⟨fun hv => ?_, fun ⟨_, hs, _⟩ => nomatch hs⟩
            cases List.mem_singleton.mp hv
            exact (Nat.lt_irrefl _ (Variable.of_find? hfind).level_lt).elim
  exact fun n => (hlocate.append (h (env.place name n))) n

theorem shows_load (slot : Nat) (name : Symbol) : (env.load name).Shows ⟨env.level, slot⟩ :=
  env.shows_reach fun place => .step (by cases place <;> rfl)

variable {v : Variable}

theorem shows_reserve : env.reserve.Shows v := by
  unfold reserve
  split
  · exact .empty
  · exact .reserve _

theorem shows_header (name : Symbol) : (env.header name).Shows v := by
  unfold header
  split
  · exact .item _
  · exact env.shows_reserve

theorem shows_define (index : Nat) : (env.define index).Shows v := by
  unfold define
  split
  · exact .step rfl
  · exact .empty

theorem shows_declaration {name : Symbol} {value : Fragment} (h : value.Shows v) :
    (env.declaration name value).Shows v :=
  fun n => (((env.shows_header name).append h).append (env.shows_define n)) n

end Environment

end LoxCompiler
