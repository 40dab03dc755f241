import LoxCompiler.Proofs.Blueprint.Bodies

/-! # Well-formed code

What every piece of a plan does right by itself, whatever stands around it: its instructions have
the operands of their kind, they refer to constants that are there and that are of the right kind,
every constant is there for some instruction, and every function for exactly one closure. Captured
variables are locals of the functions around, and the slots that are named are among those that
the piece asks for.
-/

namespace LoxCompiler

namespace Item

/-- Whether a constant is a name. -/
def isName : Item → Bool
  | .string _ => true
  | _ => false

/-- Whether a constant is a value of the program. -/
def isValue : Item → Bool
  | .function _ => false
  | _ => true

/-- The indices of the functions among some constants, if there are constants before them. -/
def functionIndices (start : Nat) : List Item → List Nat
  | [] => []
  | .function _ :: items => start :: functionIndices (start + 1) items
  | .number _ :: items | .string _ :: items => functionIndices (start + 1) items

theorem functionIndices_append (start : Nat) (items more : List Item) :
    functionIndices start (items ++ more) =
      functionIndices start items ++ functionIndices (start + items.length) more := by
  induction items generalizing start with
  | nil => rfl
  | cons item items ih =>
      cases item <;>
        simp only [List.cons_append, functionIndices, ih, List.length_cons, Nat.add_assoc,
          Nat.add_comm 1]

theorem functionIndices_of_isValue {item : Item} (h : item.isValue = true) (start : Nat) :
    functionIndices start [item] = [] := by
  cases item with
  | function plan => cases h
  | number value | string value => rfl

theorem mem_functionIndices {start i : Nat} {items : List Item} :
    i ∈ functionIndices start items ↔
      ∃ j p, items[j]? = some (.function p) ∧ i = start + j := by
  induction items generalizing start with
  | nil => simp [functionIndices]
  | cons item items ih =>
      constructor
      · intro h
        cases item with
        | function plan =>
            rcases List.mem_cons.mp h with rfl | h
            · exact ⟨0, plan, rfl, rfl⟩
            · obtain ⟨j, p, hj, rfl⟩ := ih.mp h
              exact ⟨j + 1, p, hj, by omega⟩
        | number value | string value =>
            obtain ⟨j, p, hj, rfl⟩ := ih.mp h
            exact ⟨j + 1, p, hj, by omega⟩
      · rintro ⟨j, p, hj, rfl⟩
        cases j with
        | zero =>
            cases hj
            exact List.mem_cons_self
        | succ j =>
            have hrest : start + (j + 1) ∈ functionIndices (start + 1) items :=
              ih.mpr ⟨j, p, hj, by omega⟩
            cases item with
            | function plan => exact List.mem_cons_of_mem _ hrest
            | number value | string value => exact hrest

theorem nodup_functionIndices (start : Nat) (items : List Item) :
    (functionIndices start items).Nodup := by
  induction items generalizing start with
  | nil => exact List.nodup_nil
  | cons item items ih =>
      cases item with
      | function plan =>
          refine List.nodup_cons.mpr ⟨fun h => ?_, ih (start + 1)⟩
          obtain ⟨j, p, -, hj⟩ := mem_functionIndices.mp h
          omega
      | number value | string value => exact ih (start + 1)

theorem getElem?_own (before more : List Item) (item : Item) :
    (before ++ [item] ++ more)[before.length]? = some item := by
  rw [List.append_assoc, List.getElem?_append_right (Nat.le_refl _), Nat.sub_self]
  rfl

end Item

namespace Step

/-- The constant that a step refers to. -/
def reference? : Step → Option Nat
  | .constant _ index | .invoke _ index _ | .closure index _ => some index
  | _ => none

/-- The constant of the function that a step makes a closure of. -/
def closure? : Step → Option Nat
  | .closure index _ => some index
  | _ => none

/-- The operands of a step are of the kind that its opcode asks for, and what it refers to among
the constants is there. -/
def Refers (constants : List Item) : Step → Prop
  | .simple op => op.operands = .none
  | .byte op _ => op.operands = .byte ∧ op ≠ .getUpvalue ∧ op ≠ .setUpvalue
  | .captured op _ => op = .getUpvalue ∨ op = .setUpvalue
  | .constant op index => op.operands = .constant ∧ ∃ item, constants[index]? = some item ∧
      (if op = .constant then item.isValue else item.isName) = true
  | .invoke op index _ => op.operands = .invoke ∧ ∃ item, constants[index]? = some item ∧
      item.isName = true
  | .jump op _ => op.operands = .jump
  | .pending _ => False
  | .closure index vs => ∃ plan : Plan, constants[index]? = some (.function plan) ∧
      plan.captures = vs

/-- The slots that a step names, for itself or for a closure, are among the first ones of its
function. -/
def Names (level room : Nat) : Step → Prop
  | .byte .getLocal slot | .byte .setLocal slot => slot < room
  | .closure _ vs => ∀ v ∈ vs, v.level = level → v.slot < room
  | _ => True

theorem names_byte (op : Opcode) {level slot room : Nat} (h : slot < room) :
    (Step.byte op slot).Names level room := by
  cases op <;> first | exact h | trivial

theorem Names.mono {level room room' : Nat} {s : Step} (h : s.Names level room)
    (hle : room ≤ room') : s.Names level room' := by
  unfold Names at h ⊢
  split
  · exact Nat.lt_of_lt_of_le h hle
  · exact Nat.lt_of_lt_of_le h hle
  · exact fun v hv hlevel => Nat.lt_of_lt_of_le (h v hv hlevel) hle
  · trivial

/-- What is among some constants is there when there are more. -/
theorem Refers.extend {constants : List Item} {s : Step} (h : s.Refers constants)
    (more : List Item) : s.Refers (constants ++ more) := by
  have hkeep {index : Nat} {item : Item} (h : constants[index]? = some item) :
      (constants ++ more)[index]? = some item := by
    rw [List.getElem?_append_left (List.getElem?_eq_some_iff.mp h).1]
    exact h
  cases s with
  | constant op index =>
      obtain ⟨hop, item, hitem, hkind⟩ := h
      exact ⟨hop, item, hkeep hitem, hkind⟩
  | invoke op index arguments =>
      obtain ⟨hop, item, hitem, hkind⟩ := h
      exact ⟨hop, item, hkeep hitem, hkind⟩
  | closure index vs =>
      obtain ⟨plan, hplan, hcaptures⟩ := h
      exact ⟨plan, hkeep hplan, hcaptures⟩
  | _ => exact h

theorem Known.of_subset {level : Nat} {captures more : List Variable} {s : Step}
    (hknown : s.Known level captures) (h : captures ⊆ more) : s.Known level more := by
  cases s with
  | captured op v => exact h hknown
  | closure index vs => exact fun v hv => (hknown v hv).imp id fun hv => h hv
  | _ => trivial

end Step

/-- A variable is a local of one of some functions, whose locals are listed innermost first. -/
def Variable.Of : List (List Symbol) → Variable → Prop
  | [], _ => False
  | locals :: outer, v => (v.level = outer.length ∧ v.slot < locals.length) ∨ Variable.Of outer v

theorem Variable.Of.level_lt {scopes : List (List Symbol)} {v : Variable} (h : v.Of scopes) :
    v.level < scopes.length := by
  induction scopes with
  | nil => exact h.elim
  | cons locals outer ih =>
      rcases h with ⟨hlevel, _⟩ | h
      · simp [hlevel]
      · exact Nat.lt_succ_of_lt (ih h)

theorem Variable.of_find? {name : Symbol} {scopes : List (List Symbol)} {v : Variable}
    (h : Variable.find? name scopes = some v) : v.Of scopes := by
  induction scopes with
  | nil => cases h
  | cons locals outer ih =>
      unfold Variable.find? at h
      split at h
      · rename_i slot hslot
        cases h
        exact .inl ⟨rfl, slot?_lt hslot⟩
      · exact .inr (ih h)

/-- A piece is well-formed, with some constants before its own, in a function that has some number
of locals and is inside functions with some locals. -/
structure Piece.WellFormed (outer : List (List Symbol)) (count : Nat) (before : List Item)
    (p : Piece) : Prop where
  refers : ∀ s ∈ p.code, s.Refers (before ++ p.constants)
  /-- Every constant is there for some instruction. -/
  used : ∀ i, before.length ≤ i → i < before.length + p.constants.length →
    i ∈ p.code.filterMap Step.reference?
  /-- Every function is there for one closure. -/
  closures : p.code.filterMap Step.closure? = Item.functionIndices before.length p.constants
  known : ∀ s ∈ p.code, s.Known outer.length (exported outer.length p.uses)
  uses : ∀ v ∈ p.uses, (v.level = outer.length ∧ v.slot < count) ∨ v.Of outer
  /-- There is room for the slots that are named. -/
  names : ∀ s ∈ p.code, s.Names outer.length (max count p.slots)

namespace Piece.WellFormed

variable {outer : List (List Symbol)} {count count' : Nat} {before : List Item} {p q : Piece}

theorem mono (h : p.WellFormed outer count before) (hle : count ≤ count') :
    p.WellFormed outer count' before :=
  { h with
    uses v hv := (h.uses v hv).imp_left (And.imp_right fun hslot => Nat.lt_of_lt_of_le hslot hle)
    names s hs := (h.names s hs).mono (by omega) }

/-- Code without constants of its own and without captured variables. -/
theorem ofCode {code : List Step} {slots : Nat} (hrefers : ∀ s ∈ code, s.Refers before)
    (hclosure : ∀ s ∈ code, s.closure? = none)
    (hknown : ∀ s ∈ code, s.Known outer.length [])
    (hnames : ∀ s ∈ code, s.Names outer.length count) :
    (⟨code, [], [], slots⟩ : Piece).WellFormed outer count before where
  refers := by rwa [List.append_nil]
  used i hi hlt := (Nat.not_lt.mpr hi hlt).elim
  closures := List.filterMap_eq_nil_iff.mpr hclosure
  known := hknown
  uses v hv := by cases hv
  names s hs := (hnames s hs).mono (Nat.le_max_left _ _)

theorem append (hp : p.WellFormed outer count before)
    (hq : q.WellFormed outer count (before ++ p.constants)) :
    (p ++ q).WellFormed outer count before where
  refers s hs := by
    rw [Piece.constants_append, ← List.append_assoc]
    rcases List.mem_append.mp hs with hs | hs
    · exact (hp.refers s hs).extend _
    · exact hq.refers s hs
  used i hi hlt := by
    rw [Piece.constants_append, List.length_append] at hlt
    rw [Piece.code_append, List.filterMap_append, List.mem_append]
    by_cases hfirst : i < before.length + p.constants.length
    · exact .inl (hp.used i hi hfirst)
    · exact .inr (hq.used i (by rw [List.length_append]; omega) (by rw [List.length_append]; omega))
  closures := by
    rw [Piece.code_append, List.filterMap_append, hp.closures, hq.closures, Piece.constants_append,
      Item.functionIndices_append, List.length_append]
  known s hs := by
    rw [Piece.uses_append, exported_append]
    rcases List.mem_append.mp hs with hs | hs
    · exact (hp.known s hs).of_subset (List.subset_append_left _ _)
    · exact (hq.known s hs).of_subset (List.subset_append_right _ _)
  uses v hv := (List.mem_append.mp hv).elim (hp.uses v) (hq.uses v)
  names s hs := by
    rw [Piece.slots_append]
    rcases List.mem_append.mp hs with hs | hs
    · exact (hp.names s hs).mono (by omega)
    · exact (hq.names s hs).mono (by omega)

/-- A jump may stand before well-formed code. -/
theorem jumpOver (h : p.WellFormed outer count before) {op : Opcode} (hop : op.operands = .jump)
    (extra : Nat) : (p.jumpOver op extra).WellFormed outer count before where
  refers := List.forall_mem_cons.mpr ⟨hop, h.refers⟩
  used := h.used
  closures := h.closures
  known := List.forall_mem_cons.mpr ⟨trivial, h.known⟩
  uses := h.uses
  names := List.forall_mem_cons.mpr ⟨trivial, h.names⟩

/-- When locals are dropped, those that are left are older. -/
theorem drop (h : p.WellFormed outer count' before) (hcount : count' ≤ max count p.slots) (n : Nat) :
    (p.drop outer.length count n).WellFormed outer count before where
  refers s hs := by
    rcases List.mem_append.mp hs with hs | hs
    · exact h.refers s hs
    · obtain ⟨op, rfl, hop⟩ := simple_of_mem_dropSteps hs
      exact hop
  used i hi hlt := by
    show i ∈ List.filterMap _ (p.code ++ _)
    rw [List.filterMap_append, List.mem_append]
    exact .inl (h.used i hi hlt)
  closures := by
    show List.filterMap _ (p.code ++ _) = _
    rw [List.filterMap_append, h.closures, List.filterMap_eq_nil_iff.mpr, List.append_nil]
    · rfl
    · intro s hs
      obtain ⟨op, rfl, -⟩ := simple_of_mem_dropSteps hs
      rfl
  known s hs := by
    rcases List.mem_append.mp hs with hs | hs
    · refine (h.known s hs).of_subset fun v hv => ?_
      obtain ⟨hv, hlt⟩ := mem_exported.mp hv
      refine mem_exported.mpr ⟨List.mem_filter.mpr ⟨hv, decide_eq_true ?_⟩, hlt⟩
      exact fun hlevel => Nat.ne_of_lt hlt hlevel.1
    · obtain ⟨op, rfl, -⟩ := simple_of_mem_dropSteps hs
      trivial
  uses v hv := by
    obtain ⟨hv, hkeep⟩ := List.mem_filter.mp hv
    have hkeep := of_decide_eq_true hkeep
    refine (h.uses v hv).imp_left fun ⟨hlevel, _⟩ => ⟨hlevel, ?_⟩
    exact Nat.lt_of_not_le fun hle => hkeep ⟨hlevel, hle⟩
  names s hs := by
    rcases List.mem_append.mp hs with hs | hs
    · exact (h.names s hs).mono (Nat.max_le.mpr ⟨hcount, Nat.le_max_right _ _⟩)
    · obtain ⟨op, rfl, -⟩ := simple_of_mem_dropSteps hs
      trivial

/-- A constant that is no function, before code that refers to it. -/
theorem withItem {item : Item} (hitem : item.isValue = true)
    (h : p.WellFormed outer count (before ++ [item]))
    (hused : before.length ∈ p.code.filterMap Step.reference?) :
    (⟨[], [item], [], 0⟩ ++ p : Piece).WellFormed outer count before where
  refers s hs := by
    have hs := h.refers s hs
    rwa [List.append_assoc] at hs
  used i hi hlt := by
    rcases Nat.eq_or_lt_of_le hi with rfl | hi
    · exact hused
    · rw [Piece.constants_append, List.length_append, List.length_singleton] at hlt
      refine h.used i ?_ ?_ <;> rw [List.length_append, List.length_singleton] <;> omega
  closures := by
    have hclosures := h.closures
    rw [List.length_append] at hclosures
    rw [Piece.constants_append, Item.functionIndices_append, Item.functionIndices_of_isValue hitem]
    exact hclosures
  known := h.known
  uses := h.uses
  names s hs := by
    rw [Piece.slots_append]
    exact (h.names s hs).mono (by omega)

end Piece.WellFormed

/-- A fragment is well-formed, with some constants before its own. -/
def Fragment.WellFormed (outer : List (List Symbol)) (count : Nat) (before : List Item)
    (f : Fragment) : Prop :=
  (f before.length).WellFormed outer count before

namespace Fragment.WellFormed

variable {outer : List (List Symbol)} {count count' : Nat} {before : List Item} {f g : Fragment}

theorem mono (h : f.WellFormed outer count before) (hle : count ≤ count') :
    f.WellFormed outer count' before := Piece.WellFormed.mono h hle

theorem empty : (∅ : Fragment).WellFormed outer count before := .ofCode nofun nofun nofun nofun

theorem reserve (slots : Nat) : (reserve slots).WellFormed outer count before :=
  .ofCode nofun nofun nofun nofun

/-- An instruction that refers to nothing outside of the constants. -/
theorem step {s : Step} (hrefers : s.Refers before) (hclosure : s.closure? = none)
    (hknown : s.Known outer.length []) (hnames : s.Names outer.length count) :
    (step s).WellFormed outer count before :=
  .ofCode (List.forall_mem_singleton.mpr hrefers) (List.forall_mem_singleton.mpr hclosure)
    (List.forall_mem_singleton.mpr hknown) (List.forall_mem_singleton.mpr hnames)

theorem simple {op : Opcode} (hop : op.operands = .none) :
    (simple op).WellFormed outer count before := .step hop rfl trivial trivial

theorem simpleEach {ops : List Opcode} (h : ∀ op ∈ ops, op.operands = .none) :
    (steps (ops.map .simple)).WellFormed outer count before :=
  .ofCode (by simpa [Step.Refers] using h) (by simp [Step.closure?]) (by simp [Step.Known])
    (by simp [Step.Names])

/-- An instruction that refers to a name. -/
theorem named {op : Opcode} {name : Symbol} {index : Nat} (hop : op.operands = .constant)
    (hkind : op ≠ .constant) (hname : before[index]? = some (.string name)) :
    (Fragment.step (.constant op index)).WellFormed outer count before :=
  .step ⟨hop, _, hname, by rw [if_neg hkind]; rfl⟩ rfl trivial trivial

theorem append (hf : f.WellFormed outer count before)
    (hg : g.WellFormed outer count (before ++ (f before.length).constants)) :
    (f ++ g).WellFormed outer count before := by
  unfold WellFormed at hg
  rw [List.length_append] at hg
  exact Piece.WellFormed.append hf hg

theorem jumpOver (h : f.WellFormed outer count before) {op : Opcode} (hop : op.operands = .jump)
    (extra : Nat) : (jumpOver op extra f).WellFormed outer count before :=
  Piece.WellFormed.jumpOver h hop extra

theorem sized {g : Nat → Fragment} (hf : f.WellFormed outer count before)
    (hg : ∀ size, (g size).WellFormed outer count (before ++ (f before.length).constants)) :
    (sized f g).WellFormed outer count before := hf.append (hg _)

theorem loop (h : f.WellFormed outer count before) (size : Nat) :
    (loop size f).WellFormed outer count before := h.sized fun _ => .step rfl rfl trivial trivial

theorem drop {n : Nat} (h : f.WellFormed outer count' before)
    (hcount : count' ≤ max count (f before.length).slots) :
    (drop outer.length count n f).WellFormed outer count before := Piece.WellFormed.drop h hcount n

/-- A constant that is no function, with code that refers to it. -/
theorem withItem {item : Item} {f : Nat → Fragment} (hitem : item.isValue = true)
    (h : (f before.length).WellFormed outer count (before ++ [item]))
    (hused : before.length ∈
      (f before.length (before.length + 1)).code.filterMap Step.reference?) :
    (withItem item f).WellFormed outer count before := by
  unfold WellFormed at h
  rw [List.length_append] at h
  exact Piece.WellFormed.withItem hitem h hused

end Fragment.WellFormed

end LoxCompiler
