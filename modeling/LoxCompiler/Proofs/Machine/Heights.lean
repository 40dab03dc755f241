import LoxCompiler.Proofs.Control.Heights
import LoxCompiler.Proofs.Machine.Compiled

/-! # The height of the stack while code runs

Every way through the instructions of a compiled function finds the stack at the same height when
it comes to the same instruction. There are always enough values above the receiver, and slots are
those of values that are there.
-/

namespace LoxCompiler

/-- How much an instruction changes the height of the stack, if it names some number of
arguments. -/
def Opcode.effect (arguments : Nat) : Opcode → Int
  | .constant | .pushNil | .pushTrue | .pushFalse | .getLocal | .getGlobal | .getUpvalue
  | .makeClass | .closure => 1
  | .pop | .defineGlobal | .print | .closeUpvalue | .inherit | .method | .setProperty | .getSuper
  | .equal | .greater | .less | .add | .subtract | .multiply | .divide | .ret => -1
  | .setLocal | .setGlobal | .setUpvalue | .getProperty | .not | .negate | .jump | .jumpIfFalse
  | .loop => 0
  | .call | .invoke => -arguments
  | .superInvoke => -(arguments + 1)

/-- What an instruction leaves, without what it uses. -/
theorem Opcode.effect_eq (arguments : Nat) (op : Opcode) :
    op.effect arguments = op.gives - op.takes arguments := by
  cases op <;> simp only [effect, gives, takes] <;> omega

namespace Instruction

/-- How many values an instruction uses from the top of the stack. -/
def takes : Instruction → Nat
  | .simple op | .constant op _ | .jump op _ _ => op.takes 0
  | .byte op operand => op.takes operand.toNat
  | .invoke op _ arguments => op.takes arguments.toNat
  | .closure _ _ => Opcode.closure.takes 0
  | .unknown _ | .truncated _ => 0

/-- How much an instruction changes the height of the stack. -/
def effect : Instruction → Int
  | .simple op | .constant op _ | .jump op _ _ => op.effect 0
  | .byte op operand => op.effect operand.toNat
  | .invoke op _ arguments => op.effect arguments.toNat
  | .closure _ _ => Opcode.closure.effect 0
  | .unknown _ | .truncated _ => 0

/-- The slots that an instruction names are below a height. A closure may capture the slot that it
takes itself. -/
def SlotsBelow (height : Int) : Instruction → Prop
  | .byte .getLocal slot | .byte .setLocal slot => slot.toNat < height
  | .closure _ descriptors => ∀ slot, (true, slot) ∈ descriptors → slot.toNat < height + 1
  | _ => True

end Instruction

namespace Function

variable (f : Function UInt8)

/-- Control comes to an offset with a stack of some height: the receiver and the arguments at the
start, and from then on what the instructions make of it. A return ends the way. -/
inductive Reaches : Nat → Int → Prop
  | start : Reaches 0 (1 + f.arity)
  | next {o h i} : Reaches o h → (o, i) ∈ f.instructions → i.goesOn = true →
      Reaches (o + i.size) (h + i.effect)
  | jump {o h op distance target} : Reaches o h → (o, .jump op distance target) ∈ f.instructions →
      Reaches target (h + op.effect 0)
  | skip {o h distance target} : Reaches o h →
      (o, .jump .jumpIfFalse distance target) ∈ f.instructions →
      Reaches (o + 3) (h + Opcode.jumpIfFalse.effect 0)

/-- The height of the stack at an instruction is the same on all ways to it. No instruction uses
the receiver or more values than there are, or names a slot where there is none. -/
def Balanced : Prop :=
  ∀ o h, f.Reaches o h → (∀ h', f.Reaches o h' → h' = h) ∧
    ∃ i, (o, i) ∈ f.instructions ∧ i.takes < h ∧ i.SlotsBelow h

end Function

/-! ## Rows of steps with their heights -/

namespace Marks

variable {marks : Marks} {o : Nat}

theorem le_of_mem_rows {x k : Nat} {s : Step} (h : (x, k, s) ∈ rows o marks) : o ≤ x := by
  induction marks generalizing o with
  | nil => cases h
  | cons mark marks ih =>
      rcases List.mem_cons.mp h with heq | h
      · cases heq
        exact Nat.le_refl _
      · exact Nat.le_trans (Nat.le_add_right _ _) (ih h)

/-- At an offset there is one step, and it has one height. -/
theorem unique_of_mem_rows {x k k' : Nat} {s s' : Step} (h : (x, k, s) ∈ rows o marks)
    (h' : (x, k', s') ∈ rows o marks) : k = k' ∧ s = s' := by
  induction marks generalizing o with
  | nil => cases h
  | cons mark marks ih =>
      -- later steps have greater offsets, since no step is empty
      have hlater {k : Nat} {s : Step} : (o, k, s) ∉ rows (o + mark.2.size) marks := fun hmem => by
        have := le_of_mem_rows hmem
        have := mark.2.size_pos
        omega
      rcases List.mem_cons.mp h with heq | hrest
      · cases heq
        rcases List.mem_cons.mp h' with heq' | hrest'
        · cases heq'
          exact ⟨rfl, rfl⟩
        · exact (hlater hrest').elim
      · rcases List.mem_cons.mp h' with heq' | hrest'
        · cases heq'
          exact (hlater hrest).elim
        · exact ih hrest hrest'

/-- Some steps have the heights that their rows say. -/
theorem hold_of_rows {R : Nat → Nat → Prop} (h : ∀ x k s, (x, k, s) ∈ rows o marks → R x k) :
    Hold R o marks := by
  induction marks generalizing o with
  | nil => trivial
  | cons mark marks ih =>
      exact ⟨h _ _ _ List.mem_cons_self, ih fun x k s hs => h x k s (List.mem_cons_of_mem _ hs)⟩

theorem Send.of_mem {R : Nat → Nat → Prop} {level x k : Nat} {s : Step} (h : Send R level o marks)
    (hs : (x, k, s) ∈ rows o marks) : s.Sends R level x k := by
  induction marks generalizing o with
  | nil => cases hs
  | cons mark marks ih =>
      rcases List.mem_cons.mp hs with heq | hs
      · cases heq
        exact h.1
      · exact ih h.2 hs

theorem mem_code_of_mem_rows {x k : Nat} {s : Step} (h : (x, k, s) ∈ rows o marks) :
    s ∈ marks.code := by
  induction marks generalizing o with
  | nil => cases h
  | cons mark marks ih =>
      rcases List.mem_cons.mp h with heq | h
      · cases heq
        exact List.mem_cons_self
      · exact List.mem_cons_of_mem _ (ih h)

/-- Decoded instructions are those of the rows. -/
theorem mem_decoded {level : Nat} {captures : List Variable} {x : Nat} {i : Instruction} :
    (x, i) ∈ Step.decoded level captures o marks.code ↔
      ∃ k s, (x, k, s) ∈ rows o marks ∧ i = s.instruction level captures x := by
  induction marks generalizing o with
  | nil => simp [code, Step.decoded, rows]
  | cons mark marks ih =>
      obtain ⟨k, s⟩ := mark
      rw [code_cons, Step.decoded, rows, List.mem_cons, ih]
      constructor
      · rintro (heq | ⟨k', s', hs, hi⟩)
        · cases heq
          exact ⟨k, s, List.mem_cons_self, rfl⟩
        · exact ⟨k', s', List.mem_cons_of_mem _ hs, hi⟩
      · rintro ⟨k', s', hs, rfl⟩
        rcases List.mem_cons.mp hs with heq | hs
        · cases heq
          exact .inl rfl
        · exact .inr ⟨k', s', hs, rfl⟩

end Marks

/-! ## Instructions of steps -/

namespace Step

variable {level : Nat} {captures : List Variable} {constants : List Item} {s : Step}

/-- The number of arguments that a step names fits into its operand. -/
theorem toNat_arguments (h : s.Fits .byte) : (UInt8.ofNat s.arguments).toNat = s.arguments := by
  rw [UInt8.toNat_ofNat']
  unfold arguments
  split
  · simp only [Fits, Limits.byte, Limits.admits, decide_eq_true_eq] at h
    omega
  · simp only [Fits, Limits.byte, Limits.admits, decide_eq_true_eq] at h
    omega
  · rfl

/-- An instruction uses as many values as its step, and leaves as many. -/
theorem takes_instruction (h : s.Refers constants) (hfits : s.Fits .byte) (o : Nat) :
    (s.instruction level captures o).takes = s.opcode.takes s.arguments ∧
      (s.instruction level captures o).effect = s.opcode.effect s.arguments := by
  have harguments := toNat_arguments hfits
  cases s with
  | byte op operand =>
      obtain ⟨hop, -⟩ := h
      cases op with
      | call => exact ⟨congrArg _ harguments, congrArg (Opcode.call.effect ·) harguments⟩
      | _ => first | exact ⟨rfl, rfl⟩ | cases hop
  | captured op v => rcases h with rfl | rfl <;> exact ⟨rfl, rfl⟩
  | invoke op index arguments =>
      exact ⟨congrArg (op.takes ·) harguments, congrArg (op.effect ·) harguments⟩
  | pending op => exact h.elim
  | simple op | constant op index | jump op distance | closure index vs => exact ⟨rfl, rfl⟩

/-- The slots that an instruction names are those of its step. -/
theorem slotsBelow_instruction (h : s.Refers constants) {height : Nat} (hs : s.Within level height)
    (o : Nat) : (s.instruction level captures o).SlotsBelow height := by
  have hmod (slot : Nat) : (UInt8.ofNat slot).toNat ≤ slot := by
    rw [UInt8.toNat_ofNat']
    exact Nat.mod_le _ _
  cases s with
  | byte op slot =>
      cases op with
      | getLocal | setLocal => exact Int.ofNat_lt.mpr (Nat.lt_of_le_of_lt (hmod slot) hs)
      | _ => trivial
  | captured op v => rcases h with rfl | rfl <;> trivial
  | closure index vs =>
      intro slot hslot
      obtain ⟨v, hv, heq⟩ := List.mem_map.mp hslot
      unfold upvalue at heq
      split at heq
      · rename_i hlevel
        cases heq
        have := hmod v.slot
        have := hs v hv hlevel
        omega
      · cases heq
  | simple op | constant op index | jump op distance | invoke op index arguments | pending op =>
      trivial

theorem plain_of_goesOn {o : Nat} (h : (s.instruction level captures o).goesOn = true) :
    s.isReturn = false ∧ s.isPlain = true := by
  cases s with
  | simple op => exact ⟨by simp_all [instruction, Instruction.goesOn, isReturn], rfl⟩
  | jump op distance | pending op => cases h
  | byte op operand | captured op v | constant op index | invoke op index arguments
  | closure index vs => exact ⟨rfl, rfl⟩

end Step

/-! ## Compiled functions -/

/-- The steps of a function with their heights, which fit together from its start on. -/
structure FunctionBody.MarkedBy (b : FunctionBody) (marks : Marks) : Prop where
  code : marks.code = b.plan.code
  starts : ∃ s, (0, 1 + b.parameters.length, s) ∈ marks.rows 0
  sends : marks.Send (fun x k => ∃ s, (x, k, s) ∈ marks.rows 0) b.env.level 0

namespace FunctionBody.CompiledTo

variable {b : FunctionBody} {g : Function UInt8} {marks : Marks}

/-- The steps of a function have heights. -/
theorem exists_markedBy (h : b.CompiledTo g) : ∃ marks, b.MarkedBy marks := by
  obtain ⟨htyped, hcode⟩ := h.proper.laidOut
  obtain ⟨s, hsteps, plain, hmoves⟩ := b.env.kind.exists_returnStep
  have hpos : 0 < 1 + b.parameters.length := by omega
  have hlast := Flow.typed_pos htyped hpos
  have hall : (b.flow.seq (.step s plain)).Typed b.env.level (1 + b.parameters.length)
      (b.last.count + 1) := ⟨_, htyped, hmoves b.env.level _ hlast⟩
  obtain ⟨marks, hmarks, hfollow⟩ := Flow.exists_marks hall hpos
  let whole : Marks := marks ++ [(b.last.count + 1, .simple .ret)]
  have hold : Marks.Hold (fun x k => ∃ s, (x, k, s) ∈ whole.rows 0) 0 whole :=
    Marks.hold_of_rows fun x k s hs => ⟨s, hs⟩
  obtain ⟨hold, hend, -⟩ := Marks.hold_append.mp hold
  obtain ⟨hstart, hsend⟩ := hfollow _ 0 hold hend
  refine ⟨whole, ?_, hstart, Marks.send_append.mpr ⟨hsend, .ret (Nat.succ_lt_succ hlast), trivial⟩⟩
  rw [Marks.code_append, hmarks, hcode, hsteps, Flow.flat, Flow.flat, List.append_assoc]
  rfl

/-- The instructions of a function are those of the rows of its steps. -/
theorem mem_instructions (h : b.CompiledTo g) (hm : b.MarkedBy marks) {o : Nat} {i : Instruction} :
    (o, i) ∈ g.instructions ↔ ∃ k s, (o, k, s) ∈ marks.rows 0 ∧
      i = s.instruction b.env.level b.plan.captures o := by
  rw [h.instructions_eq, ← hm.code, Marks.mem_decoded]

/-- What is known of the step at an offset with some height. -/
theorem of_row (h : b.CompiledTo g) (hm : b.MarkedBy marks) {o k : Nat} {s : Step}
    (hs : (o, k, s) ∈ marks.rows 0) : s ∈ b.plan.code ∧
      s.Sends (fun x k => ∃ s, (x, k, s) ∈ marks.rows 0) b.env.level o k ∧
        s.Refers b.plan.constants ∧ s.Fits .byte := by
  have hmem := Marks.mem_code_of_mem_rows hs
  rw [hm.code] at hmem
  exact ⟨hmem, hm.sends.of_mem hs, h.refers hmem, (Plan.fits_iff.mp h.fits).2.2.1 s hmem⟩

/-- Control comes to an offset with the height of the step there. -/
theorem height_of_reaches (h : b.CompiledTo g) (hm : b.MarkedBy marks) {o : Nat} {height : Int}
    (hreach : g.Reaches o height) : ∃ k s, height = (k : Nat) ∧ (o, k, s) ∈ marks.rows 0 := by
  -- the instruction at a step that is reached is the one of the step
  have hstep {o k : Nat} {s : Step} {i : Instruction} (hs : (o, k, s) ∈ marks.rows 0)
      (hi : (o, i) ∈ g.instructions) : i = s.instruction b.env.level b.plan.captures o := by
    obtain ⟨k', s', hs', rfl⟩ := (h.mem_instructions hm).mp hi
    rw [(Marks.unique_of_mem_rows hs hs').2]
  have hjump {o k : Nat} {s : Step} {op : Opcode} {distance target : Nat}
      (hs : (o, k, s) ∈ marks.rows 0) (hi : (o, .jump op distance target) ∈ g.instructions) :
      op.effect 0 = 0 ∧ (∃ s, (target, k, s) ∈ marks.rows 0) ∧
        (op = .jumpIfFalse → ∃ s, (o + 3, k, s) ∈ marks.rows 0) := by
    obtain ⟨-, hsends, hrefers, -⟩ := h.of_row hm hs
    have heq := hstep hs hi
    cases s <;> cases heq
    · refine ⟨?_, hsends.jump _ _ rfl⟩
      cases op <;> first | rfl | cases hrefers
    · exact hrefers.elim
  -- on the way, the height is always that of the row of the step that is reached
  induction hreach with
  | start =>
      obtain ⟨s, hs⟩ := hm.starts
      exact ⟨_, s, by rw [h.arity_eq]; rfl, hs⟩
  | next hreach hi hgoes ih =>
      obtain ⟨k, s, rfl, hs⟩ := ih
      obtain ⟨-, hsends, hrefers, hfits⟩ := h.of_row hm hs
      obtain rfl := hstep hs hi
      obtain ⟨hreturn, hplain⟩ := Step.plain_of_goesOn hgoes
      obtain ⟨k', ⟨s', hs'⟩, hbalance⟩ := hsends.next hreturn hplain
      refine ⟨k', s', ?_, ?_⟩
      · rw [(Step.takes_instruction hrefers hfits _).2, Opcode.effect_eq]
        omega
      · rwa [Step.size_instruction]
  | jump hreach hi ih =>
      obtain ⟨k, s, rfl, hs⟩ := ih
      obtain ⟨heffect, ⟨s', hs'⟩, -⟩ := hjump hs hi
      exact ⟨k, s', by rw [heffect, Int.add_zero], hs'⟩
  | skip hreach hi ih =>
      obtain ⟨k, s, rfl, hs⟩ := ih
      obtain ⟨heffect, -, hnext⟩ := hjump hs hi
      obtain ⟨s', hs'⟩ := hnext rfl
      exact ⟨k, s', by rw [heffect, Int.add_zero], hs'⟩

/-- The height at an offset is that of the step there, whatever the way to it. -/
theorem balanced (h : b.CompiledTo g) : g.Balanced := by
  obtain ⟨marks, hm⟩ := h.exists_markedBy
  intro o height hreach
  obtain ⟨k, s, rfl, hs⟩ := h.height_of_reaches hm hreach
  obtain ⟨-, hsends, hrefers, hfits⟩ := h.of_row hm hs
  refine ⟨fun height' hreach' => ?_, _, (h.mem_instructions hm).mpr ⟨k, s, hs, rfl⟩, ?_,
    Step.slotsBelow_instruction hrefers hsends.within o⟩
  · obtain ⟨k', s', rfl, hs'⟩ := h.height_of_reaches hm hreach'
    rw [(Marks.unique_of_mem_rows hs hs').1]
  · rw [(Step.takes_instruction hrefers hfits o).1]
    exact Int.ofNat_lt.mpr hsends.enough

end FunctionBody.CompiledTo

namespace Compilation

/-- In every function of a source that compiles the stack has the same height on all ways to the
same instruction. -/
theorem balanced_family {source : Bytes} {table : SymbolTable} {c : Compilation UInt8}
    {f : Function UInt8} (hc : ofSource source table = .ok c) (hf : c.result = .ok f) :
    ∀ g ∈ f.family, g.Balanced := by
  obtain ⟨ds, -, hcompiled⟩ := Accepts.compiled ⟨c, hc, hf⟩
  intro g hg
  obtain ⟨b, -, hb⟩ := exists_compiledTo hcompiled hg
  exact hb.balanced

/-- Where operands of `or` come together, and where a function captures a parameter. -/
theorem balanced_of_captured_parameter : ∃ c f, ofSource capturing .empty = .ok c ∧
    c.result = .ok f ∧ ∀ g ∈ f.family, g.Balanced := by
  obtain ⟨c, f, hc, hf⟩ := compiles_capturing
  exact ⟨c, f, hc, hf, balanced_family hc hf⟩

end Compilation

end LoxCompiler
