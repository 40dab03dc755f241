import LoxCompiler.Proofs.Blueprint.Plan
import LoxCompiler.Proofs.Parallel.Alike

/-! # Woven lines

Two compilations of programs of the same shape write their lines in the same order: a cell here and
there, and now and then all cells of a closure, whose function got its lines before. How many cells
a closure has is only known from its function. If in the end the functions are the same up to
lines, then so are the numbers of cells, and the lines match one by one.
-/

namespace LoxCompiler

variable {β : Type}

/-- The functions among some constants. -/
def Constant.functions (cs : List (Constant β)) : List (Function β) := cs.filterMap Constant.function?

namespace Constant

@[simp] theorem functions_append (cs cs' : List (Constant β)) :
    functions (cs ++ cs') = functions cs ++ functions cs' :=
  List.filterMap_append

@[simp] theorem functions_number (value : Binary64) :
    functions [(.number value : Constant β)] = [] := rfl

@[simp] theorem functions_string (value : Symbol) :
    functions [(.string value : Constant β)] = [] := rfl

@[simp] theorem functions_function (f : Function β) : functions [.function f] = [f] := rfl

end Constant

theorem Function.eraseLines_eq_iff {f f' : Function β} : f.eraseLines = f'.eraseLines ↔
    f.name = f'.name ∧ f.arity = f'.arity ∧ f.upvalueCount = f'.upvalueCount ∧ f.code = f'.code ∧
      f.constants.map Constant.eraseLines = f'.constants.map Constant.eraseLines := by
  cases f
  cases f'
  simp only [Function.eraseLines, Constant.eraseLinesEach_eq, Function.mk.injEq, true_and]

namespace Constant

variable {line : Nat → Nat → Prop} {cs cs' : List (Constant β)}

theorem eraseLines_functions (h : cs.map eraseLines = cs'.map eraseLines) :
    (functions cs).map Function.eraseLines = (functions cs').map Function.eraseLines := by
  induction cs generalizing cs' with
  | nil => rw [List.map_eq_nil_iff.mp h.symm]
  | cons c cs ih =>
      obtain ⟨c', cs', rfl, hc, hcs⟩ := List.map_eq_cons_iff.mp h.symm
      have hrest := ih hcs.symm
      cases c <;> cases c' <;> simp only [eraseLines, reduceCtorEq] at hc
      · exact hrest
      · exact hrest
      · exact congrArg₂ List.cons (Constant.function.inj hc).symm hrest

/-- Constants that are the same up to lines match if the functions among them do. -/
theorem alike_of_functions (h : cs.map eraseLines = cs'.map eraseLines)
    (hfunctions : List.Forall₂ (Function.Alike Eq line) (functions cs) (functions cs')) :
    List.Forall₂ (Alike Eq line) cs cs' := by
  induction cs generalizing cs' with
  | nil =>
      rw [List.map_eq_nil_iff.mp h.symm]
      exact .nil
  | cons c cs ih =>
      obtain ⟨c', cs', rfl, hc, hcs⟩ := List.map_eq_cons_iff.mp h.symm
      cases c <;> cases c' <;> simp only [eraseLines, reduceCtorEq] at hc
      · exact .cons (by rw [Alike, Constant.number.inj hc]) (ih hcs.symm hfunctions)
      · exact .cons (by rw [Alike, Constant.string.inj hc]) (ih hcs.symm hfunctions)
      · obtain ⟨hf, hrest⟩ := List.forall₂_cons.mp hfunctions
        exact .cons (by rwa [Alike]) (ih hcs.symm hrest)

end Constant

/-- Two functions that are the same up to lines match if their lines and constants do. -/
theorem Function.alike_of_eraseLines {line : Nat → Nat → Prop} {f f' : Function β}
    (h : f.eraseLines = f'.eraseLines) (hlines : List.Forall₂ line f.lines f'.lines)
    (hconstants : List.Forall₂ (Constant.Alike Eq line) f.constants f'.constants) :
    f.Alike Eq line f' := by
  obtain ⟨hname, harity, hcount, hcode, -⟩ := eraseLines_eq_iff.mp h
  have hnames : Option.Rel Eq f.name f'.name := by
    rw [hname]
    cases f'.name with
    | none => exact .none
    | some _ => exact .some rfl
  exact alike_iff.mpr ⟨hnames, harity, hcount, hcode, hlines, hconstants⟩

/-- The lines of two functions under construction, with the functions that were finished in them so
far. A closure has two cells, and two more for each variable that it captures. -/
inductive Woven (line : Nat → Nat → Prop) :
    List (Function β) → List Nat → List (Function β) → List Nat → Prop
  | nil : Woven line [] [] [] []
  | cell {fs ls fs' ls' l l'} : Woven line fs ls fs' ls' → line l l' →
      Woven line fs (ls ++ [l]) fs' (ls' ++ [l'])
  | closure {fs ls fs' ls' l l'} {g g' : Function β} : Woven line fs ls fs' ls' →
      Woven line (Constant.functions g.constants) g.lines (Constant.functions g'.constants)
        g'.lines → line l l' →
      Woven line (fs ++ [g]) (ls ++ List.replicate (2 + 2 * g.upvalueCount) l)
        (fs' ++ [g']) (ls' ++ List.replicate (2 + 2 * g'.upvalueCount) l')

theorem Woven.alike {line : Nat → Nat → Prop} {fs fs' : List (Function β)} {ls ls' : List Nat}
    (h : Woven line fs ls fs' ls')
    (herase : fs.map Function.eraseLines = fs'.map Function.eraseLines) :
    List.Forall₂ line ls ls' ∧ List.Forall₂ (Function.Alike Eq line) fs fs' := by
  induction h with
  | nil => exact ⟨.nil, .nil⟩
  | cell _ hl ih =>
      obtain ⟨hlines, hfunctions⟩ := ih herase
      exact ⟨List.rel_append hlines (.cons hl .nil), hfunctions⟩
  | @closure fs ls fs' ls' l l' g g' _ _ hl ih ihinner =>
      rw [List.map_append, List.map_append] at herase
      obtain ⟨hbefore, hlast⟩ := List.append_inj' herase rfl
      have hg : g.eraseLines = g'.eraseLines := List.singleton_inj.mp hlast
      obtain ⟨-, -, hcount, -, hconstants⟩ := Function.eraseLines_eq_iff.mp hg
      obtain ⟨hlines, hfunctions⟩ := ih hbefore
      obtain ⟨hinnerLines, hinnerFunctions⟩ := ihinner (Constant.eraseLines_functions hconstants)
      have halike := Function.alike_of_eraseLines hg hinnerLines
        (Constant.alike_of_functions hconstants hinnerFunctions)
      rw [hcount]
      refine ⟨List.rel_append hlines ?_, List.rel_append hfunctions (.cons halike .nil)⟩
      exact List.forall₂_iff_get.mpr ⟨by simp, fun i h h' => by simpa using hl⟩

end LoxCompiler
