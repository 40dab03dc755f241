import LoxCompiler.Proofs.Parsing.ExpressionSound
import LoxCompiler.Proofs.PostOrder.Generate
import LoxCompiler.Proofs.Simulation.Expression

/-! # Compiling an expression generates its code

What the compiler does with the tokens of an expression, in one pass and without a tree, is what
the generator does with the tree. This holds in every state of the compiler: whatever functions
are under construction, with whatever code, constants and variables.
-/

namespace LoxCompiler

set_option synthInstance.maxSize 4096

open Compile

variable {β : Type} {w : Width β}

namespace Step

/-- The cells of some instructions that refer to captured variables by their places. -/
def encode (w : Width β) (code : List Step) : List β := (cellsOf 0 [] code).map w.cell

@[simp] theorem encode_nil : encode w [] = [] := rfl

@[simp] theorem encode_append (code more : List Step) :
    encode w (code ++ more) = encode w code ++ encode w more := by
  simp [encode]

theorem encode_singleton (step : Step) : encode w [step] = (step.cells 0 []).map w.cell := by
  simp [encode, cellsOf]

theorem encode_simple (ops : List Opcode) :
    encode w (ops.map .simple) = (ops.flatMap fun op => [op.toByte.toNat]).map w.cell := by
  simp [encode, cellsOf, List.flatMap_map, cells]

theorem length_encode (code : List Step) : (encode w code).length = totalSize code := by
  rw [encode, List.length_map, length_cellsOf]

end Step

namespace Frame

/-- A function with other code, and with other jumps that lead nowhere yet. -/
def withCode (f : Frame β) (code : List β) (lines : Array Nat) (jumps : List Nat) : Frame β :=
  { f with code := code.toArray, lines, openJumps := jumps }

theorem closeJump_withCode (f : Frame β) (before after : List β) (op a b high low : β)
    (lines : Array Nat) (jumps : List Nat) :
    (f.withCode (before ++ op :: a :: b :: after) lines jumps).closeJump (before.length + 1) high
      low = f.withCode (before ++ op :: high :: low :: after) lines
        (jumps.erase (before.length + 1)) := by
  simp only [closeJump, withCode, List.setIfInBounds_toArray]
  rw [set_operand rfl]

end Frame

/-- Variables are looked up without regard to the code. -/
theorem Frames.resolveUpvalue_withCode (limits : Limits) (name : Symbol) (f : Frame β)
    (outer : Frames β) : ∃ (g : Frame β) (frames : Frames β) (answer : _),
      resolveUpvalue limits name (f :: outer) = (g :: frames, answer) ∧
      ∀ code lines jumps, resolveUpvalue limits name (f.withCode code lines jumps :: outer) =
        (g.withCode code lines jumps :: frames, answer) := by
  have hcapture (outer : Frames β) (upvalue : Upvalue) :
      ∃ (g : Frame β) (frames : Frames β) (answer : _),
        captureInnermost limits f outer upvalue = (g :: frames, answer) ∧
        ∀ code lines jumps, captureInnermost limits (f.withCode code lines jumps) outer upvalue =
          (g.withCode code lines jumps :: frames, answer) := by
    unfold captureInnermost Frame.addUpvalue
    cases hfound : f.upvalues.idxOf? upvalue with
    | some index => exact ⟨f, outer, _, rfl, fun _ _ _ => by simp [Frame.withCode, hfound]⟩
    | none =>
        cases hadmits : Limits.admits limits.upvalues (f.upvalues.length + 1) with
        | true =>
            exact ⟨{ f with upvalues := f.upvalues ++ [upvalue] }, outer, _, rfl,
              fun _ _ _ => by simp [Frame.withCode, hfound, hadmits]⟩
        | false =>
            exact ⟨f, outer, _, rfl, fun _ _ _ => by simp [Frame.withCode, hfound, hadmits]⟩
  cases outer with
  | nil => exact ⟨f, [], .ok none, rfl, fun _ _ _ => rfl⟩
  | cons next outer =>
      simp only [resolveUpvalue]
      split
      · exact hcapture _ _
      · exact ⟨f, next :: outer, _, rfl, fun _ _ _ => rfl⟩
      · split
        · exact hcapture _ _
        · exact ⟨f, _, _, rfl, fun _ _ _ => rfl⟩

/-- What a session is, apart from its reader and its notes: the code of its innermost function with
the jumps there that lead nowhere yet, and what the generator works on. -/
structure Session.Holds (names : ImplicitNames) (classes : List ClassContext) (frames : Frames β)
    (code : List β) (jumps : List Nat) (s : Session β) : Prop where
  names : s.names = names
  classes : s.classes = classes
  frames : ∃ f outer lines, frames = f :: outer ∧ s.frames = f.withCode code lines jumps :: outer

namespace Session.Holds

variable {names : ImplicitNames} {classes : List ClassContext} {frames : Frames β} {code : List β}
  {jumps : List Nat} {s t : Session β} (hs : s.Holds names classes frames code jumps)
include hs

theorem expect {kind : Kind} {a : Unit}
    (h : Cleanly (Compile.expect kind : Compile w.settings Unit) s a t) :
    t.Holds names classes frames code jumps := by
  obtain ⟨_, hadvance⟩ := cleanly_expect.mp h
  obtain ⟨_, rfl, _⟩ := cleanly_advance.mp hadvance
  exact ⟨hs.names, hs.classes, hs.frames⟩

theorem writes {m : Compile w.settings Unit} {cells : List Nat} {a : Unit} (hm : Writes m cells)
    (h : Cleanly m s a t) : t.Holds names classes frames (code ++ cells.map w.cell) jumps := by
  obtain ⟨f, outer, lines, rfl, hframes⟩ := hs.frames
  obtain ⟨lines', hrun⟩ := hm.run hframes
  cases h.run.symm.trans hrun
  exact ⟨hs.names, hs.classes, f, outer, lines', rfl, by simp [Frame.withCode]⟩

/-- Writing the cells of an instruction. -/
theorem writes_step {m : Compile w.settings Unit} {a : Unit} (step : Step)
    (hm : Writes m (step.cells 0 [])) (h : Cleanly m s a t) :
    t.Holds names classes frames (code ++ Step.encode w [step]) jumps := by
  rw [Step.encode_singleton]
  exact hs.writes hm h

theorem addConstant {value : Constant β} {index : Nat}
    (h : Cleanly (Compile.addConstant value : Compile w.settings Nat) s index t) :
    index = (Generate.constant value frames).1 ∧
      t.Holds names classes (Generate.constant value frames).2 code jumps := by
  obtain ⟨f, outer, lines, rfl, hframes⟩ := hs.frames
  have hrun : (Compile.addConstant value : Compile w.settings Nat).run s =
      (checkIndex f.constants.size : Compile w.settings Nat).run
        { s with frames := (f.addConstant value).withCode code lines jumps :: outer } := by
    rw [addConstant_eq, run_bind_of_ok (run_modifyFrame _ hframes), constantCount, bind_assoc,
      run_frame_bind rfl, pure_bind]
    simp [Frame.addConstant, Frame.withCode]
  by_cases hadmits : Limits.admits w.limits.constantIndex f.constants.size = true
  · rw [checkIndex, if_pos hadmits] at hrun
    cases h.run.symm.trans hrun
    exact ⟨rfl, hs.names, hs.classes, f.addConstant value, outer, lines, rfl, rfl⟩
  · refine (not_cleanly_of_run hrun rfl (fun a t hm => ?_) _ _ h).elim
    rw [checkIndex, if_neg hadmits] at hm
    exact not_cleanly_report_bind hm

omit hs in
/-- A local is found in a clean run only if it may be read. -/
theorem cleanly_localSlot {found : Option (Nat × Bool)} {slot : Option Nat}
    (h : Cleanly (localSlot found : Compile w.settings (Option Nat)) s slot t) :
    slot = found.map Prod.fst ∧ t = s := by
  cases found with
  | none =>
      obtain ⟨_, rfl, rfl⟩ := cleanly_pure.mp h
      exact ⟨rfl, rfl⟩
  | some found =>
      obtain ⟨index, _ | _⟩ := found
      · exact (not_cleanly_report_bind
          (show Cleanly (report _ >>= fun _ => pure (some index)) _ _ _ from h)).elim
      · obtain ⟨_, rfl, rfl⟩ := cleanly_pure.mp h
        exact ⟨rfl, rfl⟩

/-- In a clean run a variable is captured or not found. -/
theorem resolveUpvalue {name : Symbol} {index : Option Nat}
    (h : Cleanly (Compile.resolveUpvalue name : Compile w.settings (Option Nat)) s index t) :
    (Frames.resolveUpvalue w.limits name frames).2 = .ok index ∧
      t.Holds names classes (Frames.resolveUpvalue w.limits name frames).1 code jumps := by
  obtain ⟨f, outer, lines, rfl, hframes⟩ := hs.frames
  obtain ⟨g, inner, answer, hbare, hcode⟩ := Frames.resolveUpvalue_withCode w.limits name f outer
  rw [resolveUpvalue_eq] at h
  obtain ⟨answer', u, hcapture, hanswer⟩ := h.of_bind
  have hrun : (captureVariable name : Compile w.settings _).run s =
      .ok (answer, { s with frames := g.withCode code lines jumps :: inner }) := by
    rw [captureVariable_eq]
    show Except.ok ((s.frames.resolveUpvalue w.limits name).2,
      { s with frames := (s.frames.resolveUpvalue w.limits name).1 }) = _
    rw [hframes, hcode]
  cases hcapture.run.symm.trans hrun
  rw [hbare]
  cases answer with
  | error problem =>
      exact (not_cleanly_report_bind hanswer).elim
  | ok found =>
      obtain ⟨_, rfl, rfl⟩ := cleanly_pure.mp hanswer
      exact ⟨rfl, hs.names, hs.classes, g, inner, lines, rfl, rfl⟩

theorem access {name : Symbol} {a : Access}
    (h : Cleanly (Compile.access name : Compile w.settings Access) s a t) :
    a = (Generate.access w.limits name frames).1 ∧
      t.Holds names classes (Generate.access w.limits name frames).2 code jumps := by
  obtain ⟨f, outer, lines, rfl, hframes⟩ := hs.frames
  rw [access_eq, resolveLocal_eq, bind_assoc, cleanly_frame_bind hframes] at h
  obtain ⟨slot, u, hslot, haccess⟩ := h.of_bind
  obtain ⟨rfl, rfl⟩ := cleanly_localSlot hslot
  rw [show (f.withCode code lines jumps).resolveLocal name = f.resolveLocal name from rfl]
    at haccess
  unfold Generate.access
  dsimp only
  cases hfound : f.resolveLocal name with
  | some found =>
      rw [hfound] at haccess
      obtain ⟨_, rfl, rfl⟩ := cleanly_pure.mp haccess
      exact ⟨rfl, hs⟩
  | none =>
      rw [hfound, Option.map_none, accessLocal] at haccess
      obtain ⟨index, v, hindex, hrest⟩ := haccess.of_bind
      obtain ⟨hanswer, hv⟩ := hs.resolveUpvalue hindex
      dsimp only
      generalize Frames.resolveUpvalue w.limits name (f :: outer) = result at hanswer hv ⊢
      obtain ⟨frames, answer⟩ := result
      cases hanswer
      cases index with
      | some index =>
          obtain ⟨_, rfl, rfl⟩ := cleanly_pure.mp hrest
          exact ⟨rfl, hv⟩
      | none =>
          obtain ⟨index, y, hname, hdone⟩ := hrest.of_bind
          obtain ⟨_, rfl, rfl⟩ := cleanly_pure.mp hdone
          obtain ⟨rfl, hy⟩ := hv.addConstant hname
          exact ⟨rfl, hy⟩

theorem emitWith {op : Opcode} {value : Nat} {a : Unit}
    (h : Cleanly (Compile.emitWith op value : Compile w.settings Unit) s a t) :
    t.Holds names classes frames (code ++ Step.encode w [.operand op value]) jumps := by
  refine hs.writes_step _ ?_ h
  rw [Step.cells_operand]
  exact writes_emitWith op value

theorem loadVariable {name : Symbol} {a : Unit}
    (h : Cleanly (Compile.loadVariable name : Compile w.settings Unit) s a t) :
    t.Holds names classes (Generate.access w.limits name frames).2
      (code ++ Step.encode w [(Generate.access w.limits name frames).1.read]) jumps := by
  unfold Compile.loadVariable at h
  obtain ⟨access, u, haccess, hemit⟩ := h.of_bind
  obtain ⟨rfl, hu⟩ := hs.access haccess
  exact hu.emitWith hemit

theorem codeSize {n : Nat} (h : Cleanly (Compile.codeSize : Compile w.settings Nat) s n t) :
    n = code.length ∧ t = s := by
  obtain ⟨f, outer, lines, rfl, hframes⟩ := hs.frames
  rw [Compile.codeSize, cleanly_frame_bind hframes] at h
  obtain ⟨_, rfl, rfl⟩ := cleanly_pure.mp h
  exact ⟨rfl, rfl⟩

theorem emitJump {op : Opcode} {operand : Nat}
    (h : Cleanly (Compile.emitJump op : Compile w.settings Nat) s operand t) :
    operand = code.length + 1 ∧
      t.Holds names classes frames (code ++ Step.encode w [.pending op]) (operand :: jumps) := by
  unfold Compile.emitJump at h
  obtain ⟨_, u, hop, hsizes⟩ := h.of_bind
  have hu := hs.writes (writes_emit op) hop
  obtain ⟨n, v, hsize, hcells⟩ := hsizes.of_bind
  obtain ⟨rfl, rfl⟩ := hu.codeSize hsize
  obtain ⟨_, x, hhigh, hcell⟩ := hcells.of_bind
  have hx := hu.writes (writes_emitCell 0xff) hhigh
  obtain ⟨_, y, hlow, hjump⟩ := hcell.of_bind
  have hy := hx.writes (writes_emitCell 0xff) hlow
  obtain ⟨_, z, hopen, hdone⟩ := hjump.of_bind
  obtain ⟨_, rfl, rfl⟩ := cleanly_pure.mp hdone
  obtain ⟨f, outer, lines, rfl, hframes⟩ := hy.frames
  cases hopen.run.symm.trans (run_modifyFrame _ hframes)
  refine ⟨by simp, hy.names, hy.classes, f, outer, lines, rfl, ?_⟩
  simp [Frame.openJump, Frame.withCode, Step.encode_singleton, Step.cells]

end Session.Holds

/-- In a clean run a distance fits. -/
theorem Compile.cleanly_fitDistance {problem : Diagnostic.Problem} {distance n : Nat}
    {s t : Session β}
    (h : Cleanly (fitDistance problem distance : Compile w.settings Nat) s n t) :
    n = distance ∧ t = s := by
  unfold fitDistance at h
  dsimp only at h
  split at h
  · obtain ⟨_, rfl, rfl⟩ := cleanly_pure.mp h
    exact ⟨rfl, rfl⟩
  · exact (not_cleanly_report_bind h).elim

/-- A clean run passes every test for a fault. -/
theorem Compile.Cleanly.of_test {α : Type} {c : Prop} [Decidable c] {fault : Fault}
    {k : Compile w.settings α} {s t : Session β} {a : α}
    (h : Cleanly (if c then throw fault >>= fun _ : PUnit => k else k) s a t) :
    Cleanly k s a t := by
  split at h
  · cases h.run
  · exact h

/-- A jump that leads nowhere yet is led over the code after it. -/
theorem Session.Holds.patchJump {names : ImplicitNames} {classes : List ClassContext}
    {frames : Frames β} {before : List β} {op : Opcode} {body : List Step} {jumps : List Nat}
    {operand : Nat} {s t : Session β} {a : Unit} (hoperand : operand = before.length + 1)
    (hs : s.Holds names classes frames
      (before ++ Step.encode w [.pending op] ++ Step.encode w body) jumps)
    (h : Cleanly (Compile.patchJump operand : Compile w.settings Unit) s a t) :
    t.Holds names classes frames
      (before ++ Step.encode w [.jump op (totalSize body)] ++ Step.encode w body)
      (jumps.erase operand) := by
  obtain ⟨f, outer, lines, rfl, hframes⟩ := hs.frames
  subst hoperand
  unfold Compile.patchJump at h
  rw [cleanly_frame_bind hframes] at h
  have hsizes := h.of_test
  obtain ⟨size, u, hsize, hdistances⟩ := hsizes.of_bind
  obtain ⟨rfl, rfl⟩ := hs.codeSize hsize
  have hfitted := hdistances.of_test
  rw [measure_bind] at hfitted
  obtain ⟨distance, v, hdistance, hclose⟩ := hfitted.of_bind
  obtain ⟨rfl, rfl⟩ := cleanly_fitDistance hdistance
  have hsize : (before ++ Step.encode w [.pending op] ++ Step.encode w body).length -
      (before.length + 1) - 2 = totalSize body := by
    simp [Step.length_encode, Step.size]
    omega
  cases hclose.run.symm.trans (run_modifyFrame _ hframes)
  refine ⟨hs.names, hs.classes, f, outer, lines, rfl, ?_⟩
  rw [hsize, Step.encode_singleton, Step.encode_singleton, List.append_assoc, List.append_assoc]
  exact congrArg (· :: outer) (Frame.closeJump_withCode f before _ _ _ _ _ _ lines jumps)

/-! ## Expressions -/

theorem Compile.cleanly_checkArgument {count : Nat} {a : Unit} {s t : Session β}
    (h : Cleanly (checkArgument count : Compile w.settings Unit) s a t) :
    w.limits.arguments ≠ some count ∧ t = s := by
  unfold checkArgument at h
  split at h
  · exact (not_cleanly_report h).elim
  · exact ⟨‹_›, (cleanly_pure.mp h).2.2⟩

namespace Session.Holds

variable {names : ImplicitNames} {classes : List ClassContext} {frames : Frames β} {code : List β}
  {jumps : List Nat} {s t : Session β} (hs : s.Holds names classes frames code jumps)
include hs

theorem pushLiteral {value : Literal Symbol} {a : Unit}
    (h : Cleanly (Compile.pushLiteral value : Compile w.settings Unit) s a t) :
    t.Holds names classes (Generate.push value frames).2
      (code ++ Step.encode w (Generate.push value frames).1) jumps := by
  cases value with
  | nil => exact hs.writes_step (.simple .pushNil) (writes_emit _) h
  | boolean value =>
      cases value with
      | true => exact hs.writes_step (.simple .pushTrue) (writes_emit _) h
      | false => exact hs.writes_step (.simple .pushFalse) (writes_emit _) h
  | number value | string value =>
      obtain ⟨index, u, hconstant, hemit⟩ := h.of_bind
      obtain ⟨rfl, hu⟩ := hs.addConstant hconstant
      exact hu.writes_step (.constant .constant _) (writes_emitWith _ _) hemit

theorem receiver {a : Unit} (h : Cleanly (Compile.receiver : Compile w.settings Unit) s a t) :
    t.Holds names classes (Generate.access w.limits names.this frames).2
      (code ++ Step.encode w [(Generate.access w.limits names.this frames).1.read]) jumps := by
  unfold Compile.receiver at h
  rw [cleanly_read_bind] at h
  split at h
  · exact (not_cleanly_report h).elim
  · rw [hs.names] at h
    exact hs.loadVariable h

/-- The opcodes of an operator. -/
theorem emitEach {ops : List Opcode} {a : Unit}
    (h : Cleanly (ops.forM emit : Compile w.settings Unit) s a t) :
    t.Holds names classes frames (code ++ Step.encode w (ops.map .simple)) jumps := by
  rw [Step.encode_simple]
  exact hs.writes (writes_forM ops writes_emit) h

theorem superMethod {method : Symbol} {answer : Nat × Symbol}
    (h : Cleanly (Compile.superMethod method : Compile w.settings (Nat × Symbol)) s answer t) :
    answer = ((Generate.constant (.string method) frames).1, names.super) ∧
      t.Holds names classes
        (Generate.access w.limits names.this (Generate.constant (.string method) frames).2).2
        (code ++ Step.encode w [(Generate.access w.limits names.this
          (Generate.constant (.string method) frames).2).1.read]) jumps := by
  unfold Compile.superMethod at h
  obtain ⟨_, u, hsuper, hproblem⟩ := h.of_bind
  have hu := hs.expect hsuper
  rw [cleanly_read_bind] at hproblem
  obtain ⟨_, v, hreport, hdot⟩ := hproblem.of_bind
  obtain ⟨_, _, rfl⟩ := cleanly_forM_report.mp hreport
  obtain ⟨_, x, hexpect, hname⟩ := hdot.of_bind
  have hx := hu.expect hexpect
  obtain ⟨_, y, hexpect', hconstant⟩ := hname.of_bind
  have hy := hx.expect hexpect'
  obtain ⟨index, z, hindex, hthis⟩ := hconstant.of_bind
  obtain ⟨rfl, hz⟩ := hy.addConstant hindex
  rw [cleanly_read_bind] at hthis
  obtain ⟨_, z', hload, hdone⟩ := hthis.of_bind
  obtain ⟨_, rfl, rfl⟩ := cleanly_pure.mp hdone
  rw [hz.names] at hload ⊢
  exact ⟨rfl, hz.loadVariable hload⟩

end Session.Holds

mutual

/-- Compiling an expression generates its code. -/
theorem Expression.generates (e : Expression) {names : ImplicitNames}
    {classes : List ClassContext} {frames : Frames β} {code : List β} {jumps : List Nat}
    {s t : Session β} (hs : s.Holds names classes frames code jumps)
    (h : Cleanly (e.compile : Compile w.settings Unit) s () t) :
    t.Holds names classes (e.postOrder w.limits names frames).2
      (code ++ Step.encode w (e.postOrder w.limits names frames).1) jumps := by
  cases e with
  | literal value =>
      rw [compile] at h
      obtain ⟨_, u, hvalue, hpush⟩ := h.of_bind
      exact (hs.expect hvalue).pushLiteral hpush
  | «variable» name =>
      rw [compile] at h
      obtain ⟨_, u, hname, hload⟩ := h.of_bind
      exact (hs.expect hname).loadVariable hload
  | assign name value =>
      rw [compile] at h
      obtain ⟨_, u, hname, haccess⟩ := h.of_bind
      obtain ⟨target, v, haccess, hassign⟩ := haccess.of_bind
      obtain ⟨rfl, hv⟩ := (hs.expect hname).access haccess
      obtain ⟨_, x, hexpect, hvalue⟩ := hassign.of_bind
      obtain ⟨_, y, hvalue, hwrite⟩ := hvalue.of_bind
      have hy := Expression.generates value (hv.expect hexpect) hvalue
      have ht := hy.emitWith hwrite
      rw [List.append_assoc, ← Step.encode_append] at ht
      exact ht
  | receiver =>
      rw [compile] at h
      obtain ⟨_, u, hthis, hload⟩ := h.of_bind
      exact (hs.expect hthis).receiver hload
  | superGet method =>
      rw [compile] at h
      obtain ⟨_, u, hmethod, hsuper⟩ := h.of_bind
      obtain ⟨rfl, hu⟩ := hs.superMethod hmethod
      obtain ⟨_, v, hload, hget⟩ := hsuper.of_bind
      have hv := hu.loadVariable hload
      have ht := hv.writes_step (.constant .getSuper _) (writes_emitWith _ _) hget
      simpa only [postOrder, Generate.run_bind, Generate.run_pure, ← Step.encode_append,
        List.append_assoc, List.cons_append, List.nil_append] using ht
  | superCall method arguments =>
      rw [compile] at h
      obtain ⟨_, u, hmethod, hcall⟩ := h.of_bind
      obtain ⟨rfl, hu⟩ := hs.superMethod hmethod
      obtain ⟨_, v, hopen, harguments⟩ := hcall.of_bind
      obtain ⟨_, x, harguments, hclose⟩ := harguments.of_bind
      obtain ⟨hx, hfit⟩ := Expression.generatesEach arguments (hu.expect hopen) harguments
      obtain ⟨_, y, hclose, hsuper⟩ := hclose.of_bind
      obtain ⟨_, z, hload, hinvoke⟩ := hsuper.of_bind
      have hz := (hx.expect hclose).loadVariable hload
      rw [Limits.clamp_of_admits (arguments_fit.mp hfit)] at hinvoke
      have ht := hz.writes_step (.invoke .superInvoke _ arguments.length)
        ((writes_emitWith _ _).append (writes_emitCell _)) hinvoke
      simpa only [postOrder, Generate.run_bind, Generate.run_pure, ← Step.encode_append,
        List.append_assoc, List.cons_append, List.nil_append] using ht
  | group inner =>
      rw [compile] at h
      obtain ⟨_, u, hopen, hinner⟩ := h.of_bind
      obtain ⟨_, v, hinner, hclose⟩ := hinner.of_bind
      exact (Expression.generates inner (hs.expect hopen) hinner).expect hclose
  | unary op operand =>
      rw [compile] at h
      obtain ⟨_, u, hop, hoperand⟩ := h.of_bind
      obtain ⟨_, v, hoperand, hcode⟩ := hoperand.of_bind
      have hv := Expression.generates operand (hs.expect hop) hoperand
      have ht := hv.emitEach hcode
      simpa only [postOrder, Generate.run_bind, Generate.run_pure, ← Step.encode_append,
        List.append_assoc, List.cons_append, List.nil_append] using ht
  | binary op left right =>
      rw [compile] at h
      obtain ⟨_, u, hleft, hop⟩ := h.of_bind
      have hu := Expression.generates left hs hleft
      obtain ⟨_, v, hop, hright⟩ := hop.of_bind
      obtain ⟨_, x, hright, hcode⟩ := hright.of_bind
      have hx := Expression.generates right (hu.expect hop) hright
      have ht := hx.emitEach hcode
      simpa only [postOrder, Generate.run_bind, Generate.run_pure, ← Step.encode_append,
        List.append_assoc, List.cons_append, List.nil_append] using ht
  | and left right =>
      rw [compile] at h
      obtain ⟨_, u, hleft, hop⟩ := h.of_bind
      have hu := Expression.generates left hs hleft
      obtain ⟨_, v, hop, hjump⟩ := hop.of_bind
      obtain ⟨skip, x, hjump, hpop⟩ := hjump.of_bind
      obtain ⟨hskip, hx⟩ := (hu.expect hop).emitJump hjump
      obtain ⟨_, y, hpop, hright⟩ := hpop.of_bind
      have hy := hx.writes_step (.simple .pop) (writes_emit _) hpop
      obtain ⟨_, z, hright, hpatch⟩ := hright.of_bind
      have hz := Expression.generates right hy hright
      rw [List.append_assoc, ← Step.encode_append] at hz
      have ht := hz.patchJump hskip hpatch
      rw [List.erase_cons_head] at ht
      simpa only [postOrder, Generate.run_bind, Generate.run_pure, ← Step.encode_append,
        List.append_assoc, List.cons_append, List.nil_append, totalSize_cons, Step.size] using ht
  | or left right =>
      rw [compile] at h
      obtain ⟨_, u, hleft, hop⟩ := h.of_bind
      have hu := Expression.generates left hs hleft
      obtain ⟨_, v, hop, hjump⟩ := hop.of_bind
      obtain ⟨next, x, hjump, hjump'⟩ := hjump.of_bind
      obtain ⟨hnext, hx⟩ := (hu.expect hop).emitJump hjump
      obtain ⟨skip, y, hjump', hpatch⟩ := hjump'.of_bind
      obtain ⟨hskip, hy⟩ := hx.emitJump hjump'
      obtain ⟨_, z, hpatch, hpop⟩ := hpatch.of_bind
      have hz := hy.patchJump hnext hpatch
      have hopen : (skip :: next :: jumps).erase next = skip :: jumps := by
        have hne : skip ≠ next := by
          simp only [hskip, hnext, List.length_append, Step.length_encode, totalSize_cons,
            totalSize_nil, Step.size]
          omega
        rw [List.erase_cons_tail (by simpa using hne), List.erase_cons_head]
      rw [hopen] at hz
      obtain ⟨_, z', hpop, hright⟩ := hpop.of_bind
      have hz' := hz.writes_step (.simple .pop) (writes_emit _) hpop
      obtain ⟨_, z'', hright, hpatch'⟩ := hright.of_bind
      have hz'' := Expression.generates right hz' hright
      rw [List.append_assoc, ← Step.encode_append] at hz''
      have ht := hz''.patchJump (by simpa [Step.length_encode, Step.size] using hskip) hpatch'
      rw [List.erase_cons_head] at ht
      simpa only [postOrder, Generate.run_bind, Generate.run_pure, ← Step.encode_append,
        List.append_assoc, List.cons_append, List.nil_append, totalSize_cons,
        totalSize_nil, Step.size] using ht
  | call callee arguments =>
      rw [compile] at h
      obtain ⟨_, u, hcallee, hopen⟩ := h.of_bind
      have hu := Expression.generates callee hs hcallee
      obtain ⟨_, v, hopen, harguments⟩ := hopen.of_bind
      obtain ⟨_, x, harguments, hclose⟩ := harguments.of_bind
      obtain ⟨hx, hfit⟩ := Expression.generatesEach arguments (hu.expect hopen) harguments
      obtain ⟨_, y, hclose, hcall⟩ := hclose.of_bind
      rw [Limits.clamp_of_admits (arguments_fit.mp hfit)] at hcall
      have ht := (hx.expect hclose).writes_step (.byte .call arguments.length)
        (writes_emitWith _ _) hcall
      simpa only [postOrder, Generate.run_bind, Generate.run_pure, ← Step.encode_append,
        List.append_assoc, List.cons_append, List.nil_append] using ht
  | get object property =>
      rw [compile] at h
      obtain ⟨_, u, hobject, hdot⟩ := h.of_bind
      have hu := Expression.generates object hs hobject
      obtain ⟨_, v, hdot, hname⟩ := hdot.of_bind
      obtain ⟨_, x, hname, hconstant⟩ := hname.of_bind
      obtain ⟨index, y, hconstant, hget⟩ := hconstant.of_bind
      obtain ⟨rfl, hy⟩ := ((hu.expect hdot).expect hname).addConstant hconstant
      have ht := hy.writes_step (.constant .getProperty _) (writes_emitWith _ _) hget
      simpa only [postOrder, Generate.run_bind, Generate.run_pure, ← Step.encode_append,
        List.append_assoc, List.cons_append, List.nil_append] using ht
  | set object property value =>
      rw [compile] at h
      obtain ⟨_, u, hobject, hdot⟩ := h.of_bind
      have hu := Expression.generates object hs hobject
      obtain ⟨_, v, hdot, hname⟩ := hdot.of_bind
      obtain ⟨_, x, hname, hconstant⟩ := hname.of_bind
      obtain ⟨index, y, hconstant, hassign⟩ := hconstant.of_bind
      obtain ⟨rfl, hy⟩ := ((hu.expect hdot).expect hname).addConstant hconstant
      obtain ⟨_, z, hassign, hvalue⟩ := hassign.of_bind
      obtain ⟨_, z', hvalue, hset⟩ := hvalue.of_bind
      have hz := Expression.generates value (hy.expect hassign) hvalue
      have ht := hz.writes_step (.constant .setProperty _) (writes_emitWith _ _) hset
      simpa only [postOrder, Generate.run_bind, Generate.run_pure, ← Step.encode_append,
        List.append_assoc, List.cons_append, List.nil_append] using ht
  | invoke object method arguments =>
      rw [compile] at h
      obtain ⟨_, u, hobject, hdot⟩ := h.of_bind
      have hu := Expression.generates object hs hobject
      obtain ⟨_, v, hdot, hname⟩ := hdot.of_bind
      obtain ⟨_, x, hname, hconstant⟩ := hname.of_bind
      obtain ⟨index, y, hconstant, hopen⟩ := hconstant.of_bind
      obtain ⟨rfl, hy⟩ := ((hu.expect hdot).expect hname).addConstant hconstant
      obtain ⟨_, z, hopen, harguments⟩ := hopen.of_bind
      obtain ⟨_, z', harguments, hclose⟩ := harguments.of_bind
      obtain ⟨hz, hfit⟩ := Expression.generatesEach arguments (hy.expect hopen) harguments
      obtain ⟨_, z'', hclose, hinvoke⟩ := hclose.of_bind
      rw [Limits.clamp_of_admits (arguments_fit.mp hfit)] at hinvoke
      have ht := (hz.expect hclose).writes_step (.invoke .invoke _ arguments.length)
        ((writes_emitWith _ _).append (writes_emitCell _)) hinvoke
      simpa only [postOrder, Generate.run_bind, Generate.run_pure, ← Step.encode_append,
        List.append_assoc, List.cons_append, List.nil_append] using ht

/-- Compiling arguments generates their code. -/
theorem Expression.generatesEach (es : List Expression) {names : ImplicitNames}
    {classes : List ClassContext} {frames : Frames β} {code : List β} {jumps : List Nat}
    {s t : Session β} {count : Nat} (hs : s.Holds names classes frames code jumps)
    (h : Cleanly (Expression.compileEach es count : Compile w.settings Unit) s () t) :
    t.Holds names classes (Expression.postOrderEach w.limits names es frames).2
      (code ++ Step.encode w (Expression.postOrderEach w.limits names es frames).1) jumps ∧
    ∀ i < es.length, w.limits.arguments ≠ some (count + i) := by
  cases es with
  | nil =>
      rw [compileEach] at h
      obtain ⟨_, _, rfl⟩ := cleanly_pure.mp h
      rw [postOrderEach, Generate.run_pure, Step.encode_nil, List.append_nil]
      exact ⟨hs, fun i hi => (Nat.not_lt_zero i hi).elim⟩
  | cons e es =>
      cases es with
      | nil =>
          rw [compileEach] at h
          obtain ⟨_, u, he, hcheck⟩ := h.of_bind
          have hu := Expression.generates e hs he
          obtain ⟨hfit, rfl⟩ := cleanly_checkArgument hcheck
          refine ⟨?_, fun i hi => ?_⟩
          · simpa only [postOrderEach, Generate.run_bind, Generate.run_pure, List.append_nil] using hu
          · obtain rfl : i = 0 := by simpa using hi
            exact hfit
      | cons next es =>
          rw [compileEach] at h
          obtain ⟨_, u, he, hcheck⟩ := h.of_bind
          have hu := Expression.generates e hs he
          obtain ⟨_, v, hcheck, hcomma⟩ := hcheck.of_bind
          obtain ⟨hfit, rfl⟩ := cleanly_checkArgument hcheck
          obtain ⟨_, x, hcomma, hrest⟩ := hcomma.of_bind
          obtain ⟨ht, hfits⟩ := Expression.generatesEach (next :: es) (hu.expect hcomma) hrest
          refine ⟨?_, fun i hi => ?_⟩
          · rw [postOrderEach, Generate.run_bind, Generate.run_bind, Generate.run_pure,
              Step.encode_append, ← List.append_assoc]
            exact ht
          · cases i with
            | zero => exact hfit
            | succ i =>
                have := hfits i (by simpa using hi)
                rwa [Nat.add_assoc, Nat.add_comm 1 i] at this

end

end LoxCompiler
