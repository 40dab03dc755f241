import LoxCompiler.Proofs.Control.Layout
import LoxCompiler.Proofs.WellFormed.Program

/-! # The structure of compiled programs

Statements are structured code made of the code of their parts. They start and end with nothing on
the stack but the locals that are in scope, so that a declaration leaves its value where the slot
of its local is. The code of every function is laid out like this, and changes the height of the
stack as its declarations say.
-/

namespace LoxCompiler

open LoxCompiler.Flow (simple ofSteps)

/-! ## Structured code of statements -/

/-- The structured code of a loop with a body and two clauses that may be absent. The value of the
condition is dropped in every round, and at the end of the loop. -/
def Flow.rounds (condition increment : Option Flow) (body : Flow) : Flow :=
  match condition, increment with
  | none, none => .forever body
  | none, some increment => .stepping body (increment.seq (simple .pop))
  | some condition, none => .whileTrue condition ((simple .pop).seq body) (simple .pop)
  | some condition, some increment =>
      .counting condition (simple .pop) body (increment.seq (simple .pop)) (simple .pop)

/-- The index of the next constant after an expression that may be absent. -/
def Expression.indexAfter (env : Environment) : Option Expression → Nat → Nat
  | none, n => n
  | some e, n => n + (e.fragment env n).constants.length

/-- The structured code of an initial value. -/
def Expression.initialFlow (env : Environment) : Option Expression → Nat → Flow
  | none, _ => simple .pushNil
  | some value, n => value.flow env n

/-- The structured code of the declaration of a variable, with that of its value. -/
def Environment.declarationFlow (env : Environment) (name : Symbol) (value : Nat → Flow)
    (n : Nat) : Flow :=
  (value (n + (env.header name n).constants.length)).seq (ofSteps (env.define n n).code)

/-- The instructions at the end of a scope. -/
def Environment.dropped (env last : Environment) (f : Fragment) (n : Nat) : List Step :=
  Piece.dropSteps env.level env.count (f n).uses (last.count - env.count)

/-- The structured code of the first clause of a loop. -/
def Initializer.flow (env : Environment) : Initializer → Nat → Flow
  | .absent, _ => .skip
  | .variable name value, n => env.declarationFlow name (Expression.initialFlow env value) n
  | .expression value, n => (value.flow env n).seq (simple .pop)

mutual

/-- The structured code of a statement. The value of a condition is dropped on each path after
it. -/
def Statement.flow (env : Environment) : Statement → Nat → Flow
  | .expression value, n => (value.flow env n).seq (simple .pop)
  | .print value, n => (value.flow env n).seq (simple .print)
  | .ifThen condition body, n =>
      .choose (condition.flow env n)
        ((simple .pop).seq (body.flow env (n + (condition.fragment env n).constants.length)))
        (simple .pop)
  | .ifElse condition body otherwise, n =>
      let m := n + (condition.fragment env n).constants.length
      .choose (condition.flow env n) ((simple .pop).seq (body.flow env m))
        ((simple .pop).seq (otherwise.flow env (m + (body.fragment env m).constants.length)))
  | .whileLoop condition body, n =>
      .whileTrue (condition.flow env n)
        ((simple .pop).seq (body.flow env (n + (condition.fragment env n).constants.length)))
        (simple .pop)
  | .forLoop first condition increment body, n =>
      let inside := first.after env.enter
      let m := n + (first.fragment env.enter n).constants.length
      let m' := Expression.indexAfter inside condition m
      ((first.flow env.enter n).seq
        (.rounds (condition.map (Expression.flow inside · m))
          (increment.map (Expression.flow inside · m'))
          (body.flow inside (Expression.indexAfter inside increment m')))).seq
        (ofSteps (env.dropped inside (first.fragment env.enter ++
          .counting (condition.map (Expression.fragment inside))
            (increment.map (Expression.fragment inside)) (body.fragment inside)) n))
  | .ret none, _ => ofSteps env.kind.returnSteps
  | .ret (some value), n => (value.flow env n).seq (simple .ret)
  | .block inner, n =>
      (Declaration.flowEach env.enter inner n).seq
        (ofSteps (env.dropped (Declaration.afterEach env.enter inner)
          (Declaration.fragmentEach env.enter inner) n))

/-- The structured code of a declaration. Functions have code of their own, so there is nothing but
a closure for each. -/
def Declaration.flow (env : Environment) : Declaration → Nat → Flow
  | .classDeclaration name superclass methods, n =>
      ofSteps ((Declaration.classDeclaration name superclass methods).fragment env n).code
  | .funDeclaration f, n => ofSteps ((Declaration.funDeclaration f).fragment env n).code
  | .varDeclaration name value, n => env.declarationFlow name (Expression.initialFlow env value) n
  | .statement s, n => s.flow env n

/-- The structured code of some declarations, one after the other. -/
def Declaration.flowEach (env : Environment) : List Declaration → Nat → Flow
  | [], _ => .skip
  | d :: ds, n =>
      (d.flow env n).seq
        (Declaration.flowEach (d.after env) ds (n + (d.fragment env n).constants.length))

end

/-- The structured code of the body of a function. -/
def FunctionBody.flow (b : FunctionBody) : Flow :=
  Declaration.flowEach b.inside b.body (b.env.reserveEach b.parameters 0).constants.length

/-! ## Scopes and declarations -/

/-- Locals are dropped one by one, and nothing below them. -/
theorem Piece.straight_dropSteps (level : Nat) {base : Nat} (hbase : 0 < base) (uses : List Variable)
    (count : Nat) : Straight level (dropSteps level base uses count) (base + count) base := by
  induction count with
  | zero => exact .nil
  | succ count ih =>
      refine .cons rfl ?_ ih
      unfold dropStep
      split
      · exact ⟨show 1 < base + (count + 1) by omega, rfl, trivial⟩
      · exact ⟨show 1 < base + (count + 1) by omega, rfl, trivial⟩

/-- A function that ends without a value pushes one and returns it. -/
theorem FunctionKind.exists_returnStep (kind : FunctionKind) : ∃ s : Step,
    kind.returnSteps = [s, .simple .ret] ∧ s.isPlain = true ∧
      ∀ level h, 0 < h → s.Moves level h (h + 1) := by
  cases kind with
  | initializer => exact ⟨.byte .getLocal 0, rfl, rfl, fun _ _ hh => ⟨hh, rfl, hh⟩⟩
  | function | method | script =>
      exact ⟨.simple .pushNil, rfl, rfl, fun _ _ hh => ⟨hh, rfl, trivial⟩⟩

theorem FunctionKind.straight_returnSteps (kind : FunctionKind) (level : Nat) {h : Nat}
    (hh : 0 < h) : Straight level kind.returnSteps h h := by
  obtain ⟨s, hsteps, plain, hmoves⟩ := kind.exists_returnStep
  rw [hsteps]
  exact .cons plain (hmoves level h hh) (.step rfl ⟨Nat.succ_lt_succ hh, rfl, trivial⟩)

namespace Environment

variable (env : Environment)

/-- A scope ends with its locals dropped. -/
theorem straight_dropped (last : Environment) (hcount : env.count ≤ last.count) (f : Fragment)
    (n : Nat) : Straight env.level (env.dropped last f n) last.count env.count := by
  have hdrop := Piece.straight_dropSteps env.level env.count_pos (f n).uses
    (last.count - env.count)
  rwa [Nat.add_sub_cancel' hcount] at hdrop

theorem codes_leave {last : Environment} {f : Fragment} {n h : Nat} {F : Flow}
    (hF : F.Codes (f n).code env.level h last.count) (hcount : env.count ≤ last.count) :
    (F.seq (ofSteps (env.dropped last f n))).Codes (env.leave last f n).code env.level h
      env.count := hF.seq (env.straight_dropped last hcount f n).codes

@[simp] theorem code_reserve (n : Nat) : (env.reserve n).code = [] := by
  unfold reserve
  cases env.scopes <;> rfl

@[simp] theorem code_header (name : Symbol) (n : Nat) : (env.header name n).code = [] := by
  have hreserve := env.code_reserve n
  unfold header
  cases env.scopes with
  | nil => rfl
  | cons scope outer => exact hreserve

/-- The definition of a variable is the same whatever constants there are before. -/
theorem code_define (index m n : Nat) : (env.define index m).code = (env.define index n).code := by
  unfold define
  cases env.scopes <;> rfl

/-- The value of a variable stays on the stack if the variable is a local. -/
theorem straight_define (name : Symbol) (index n : Nat) :
    Straight env.level (env.define index n).code (env.count + 1) (env.declare name).count := by
  unfold define declare
  cases hscopes : env.scopes with
  | nil => exact .step rfl ⟨Nat.succ_lt_succ env.count_pos, rfl, trivial⟩
  | cons scope outer =>
      have hlocal : ({ env with scopes := (name :: scope) :: outer } : Environment).count =
          env.count + 1 := by
        simp only [count, locals, hscopes, List.flatten_cons, List.length_append, List.length_cons]
        omega
      rw [hlocal]
      exact .nil

/-- The code of a declaration is that of its value, with its definition. -/
theorem code_declaration (name : Symbol) (value : Fragment) (n : Nat) :
    (env.declaration name value n).code =
      (value (n + (env.header name n).constants.length)).code ++ (env.define n n).code := by
  show (env.header name n).code ++ _ ++ (env.define n _).code = _
  rw [code_header, List.nil_append, env.code_define n _ n]

theorem codes_declaration {name : Symbol} {value : Fragment} {V : Nat → Flow} {n : Nat}
    (hV : ∀ m, (V m).Codes (value m).code env.level env.count (env.count + 1)) :
    (env.declarationFlow name V n).Codes (env.declaration name value n).code env.level env.count
      (env.declare name).count := by
  rw [code_declaration]
  exact (hV _).seq (env.straight_define name n n).codes

end Environment

/-! ## Functions and classes -/

theorem Environment.count_declare_le (env : Environment) (name : Symbol) :
    (env.declare name).count ≤ env.count + 1 := by
  unfold declare
  split
  · exact Nat.le_succ _
  · rename_i scope outer hscopes
    simp only [count, locals, hscopes, List.flatten_cons, List.length_append, List.length_cons]
    omega

/-- The code that makes a closure of a function is one instruction. The slots that the function
captures are there, that of the closure itself among them. -/
theorem FunctionTree.straight_closure (kind : FunctionKind) (env : Environment) (f : FunctionTree)
    (n : Nat) {h : Nat} (hpos : 0 < h) (hcount : env.count ≤ h + 1) :
    Straight env.level (f.fragment kind env n).code h (h + 1) := by
  obtain ⟨name, parameters, body⟩ := f
  have hnames := ((FunctionTree.mk name parameters body).wellFormed kind env
    (List.replicate n (.string name))).names
  rw [List.length_replicate] at hnames
  refine .step (s := .closure n _) rfl ⟨hpos, rfl, fun v hv hlevel => ?_⟩
  have hslot := hnames _ (List.mem_singleton_self _) v hv hlevel
  exact Nat.lt_of_lt_of_le hslot (Nat.max_le.mpr ⟨hcount, Nat.zero_le _⟩)

/-- Methods are bound to the class below them one after the other. -/
theorem FunctionTree.straight_methods (env : Environment) (fs : List FunctionTree) (n : Nat)
    {h : Nat} (hh : env.count < h) :
    Straight env.level (FunctionTree.fragmentEach env fs n).code h h := by
  induction fs generalizing n with
  | nil => exact .nil
  | cons f fs ih =>
      have hmethod : (Step.constant .method n).Moves env.level (h + 1) h :=
        ⟨show 2 < h + 1 by have := env.count_pos; omega, rfl, trivial⟩
      exact ((straight_closure _ env f _ (by omega) (by omega)).append (.step rfl hmethod)).append
        (ih _)

/-- A class with its methods, which is on the stack while they are bound to it. The superclass is
a local while there are methods that may refer to it. -/
theorem Environment.straight_classFragment (env : Environment) (name : Symbol)
    (superclass : Option Symbol) (methods : List FunctionTree) (n : Nat) :
    Straight env.level (env.classFragment name superclass
      (fun inside => FunctionTree.fragmentEach inside methods) n).code env.count env.count := by
  have hpos := env.count_pos
  have hpop {h : Nat} (hh : 0 < h) : Straight env.level [.simple .pop] (h + 1) h :=
    .step rfl ⟨Nat.succ_lt_succ hh, rfl, trivial⟩
  cases superclass with
  | none =>
      exact ((env.straight_load _ (Nat.le_refl _) name n).append
        (FunctionTree.straight_methods (env.inClass ⟨false⟩) methods _ (Nat.lt_succ_self _))).append
          (hpop hpos)
  | some superclass =>
      let inside := env.enter.declare env.names.super
      have hcount : inside.count = env.count + 1 := rfl
      have hinherit : (Step.simple .inherit).Moves env.level (env.count + 2) (env.count + 1) :=
        ⟨show 2 < env.count + 2 by omega, rfl, trivial⟩
      have hinner (m : Nat) : Straight env.level ((env.enter.reserve ++ inside.load name ++
          Fragment.simple .inherit ++ inside.load name ++
            FunctionTree.fragmentEach (inside.inClass ⟨true⟩) methods ++ Fragment.simple .pop) m).code
              (env.count + 1) inside.count :=
        (((((Straight.nil.append (inside.straight_load _ (Nat.le_refl _) name _)).append
          (.step rfl hinherit)).append (inside.straight_load _ (Nat.le_refl _) name _)).append
            (FunctionTree.straight_methods (inside.inClass ⟨true⟩) methods _
              (Nat.lt_succ_self _)))).append (hpop (Nat.succ_pos _))
      exact (env.straight_load _ (Nat.le_refl _) superclass n).append
        ((hinner _).append (env.straight_dropped inside (Nat.le_succ _) _ _))

/-! ## Loops -/

namespace Flow.Codes

variable {B C I : Flow} {bcode ccode icode : List Step} {level h : Nat}

theorem forever (hB : B.Codes bcode level h h) :
    (Flow.forever B).Codes (bcode ++ [.jump .loop (0 + totalSize bcode + 3)]) level h h where
  flat := by rw [Flow.flat, hB.flat, Nat.zero_add]
  typed := ⟨hB.typed, rfl⟩

/-- What stands before the body of a loop with an increment: a jump to the body, and the increment
with a jump back to the condition. -/
def increment (before : Nat) (icode : List Step) : List Step :=
  .jump .jump (totalSize (icode ++ [.jump .loop (before + 3 + totalSize icode + 3)]) + 0) ::
    (icode ++ [.jump .loop (before + 3 + totalSize icode + 3)])

/-- The rounds of a loop, with a condition before them that is dropped in each round and at the
end. -/
def tested (ccode rounds : List Step) : List Step :=
  ccode ++ (.jump .jumpIfFalse (totalSize (.simple .pop :: rounds) + 0) :: .simple .pop :: rounds ++
    [.simple .pop])

theorem stepping (hB : B.Codes bcode level h h) (hI : I.Codes icode level h h) :
    (Flow.stepping B I).Codes (increment 0 icode ++ bcode ++
      [.jump .loop (totalSize (increment 0 icode ++ bcode))]) level h h where
  flat := by
    simp [Flow.flat, hB.flat, hI.flat, increment, Step.size]
    omega
  typed := ⟨h, hB.typed, hI.typed, rfl⟩

theorem conditional (hh : 0 < h) (hC : C.Codes ccode level h (h + 1))
    (hB : B.Codes bcode level h h) :
    (C.whileTrue ((simple .pop).seq B) (simple .pop)).Codes
      (tested ccode (bcode ++ [.jump .loop (totalSize ccode + 4 + totalSize bcode + 3)])) level h
        h where
  flat := by
    simp [Flow.flat, hC.flat, hB.flat, Flow.simple, tested, Step.size]
    omega
  typed := ⟨h + 1, hC.typed, Nat.succ_lt_succ hh, (Codes.branch hh hB).typed, (Codes.pop hh).typed⟩

theorem counting (hh : 0 < h) (hC : C.Codes ccode level h (h + 1)) (hB : B.Codes bcode level h h)
    (hI : I.Codes icode level h h) :
    (C.counting (simple .pop) B I (simple .pop)).Codes
      (tested ccode (increment (totalSize ccode + 4) icode ++ bcode ++
        [.jump .loop (totalSize (increment (totalSize ccode + 4) icode ++ bcode))])) level h h where
  flat := by
    simp [Flow.flat, hC.flat, hB.flat, hI.flat, Flow.simple, tested, increment, Step.size]
    omega
  typed := ⟨h + 1, h, h, hC.typed, Nat.succ_lt_succ hh, (Codes.pop hh).typed, hB.typed, hI.typed,
    (Codes.pop hh).typed⟩

end Flow.Codes

/-! ## Statements and declarations -/

/-- A statement is laid out with its parts in their places, and leaves the stack as it is. -/
def Statement.LaidOut (s : Statement) : Prop :=
  ∀ (env : Environment) (n : Nat),
    (s.flow env n).Codes (s.fragment env n).code env.level env.count env.count

/-- A declaration is laid out with its parts in their places, and leaves a new local on the stack,
if it makes one. -/
def Declaration.LaidOut (d : Declaration) : Prop :=
  ∀ (env : Environment) (n : Nat),
    (d.flow env n).Codes (d.fragment env n).code env.level env.count (d.after env).count

/-- Some declarations are laid out one after the other. -/
def Declaration.LaidOutEach (ds : List Declaration) : Prop :=
  ∀ (env : Environment) (n : Nat),
    (Declaration.flowEach env ds n).Codes (Declaration.fragmentEach env ds n).code env.level
      env.count (Declaration.afterEach env ds).count

/-- The first clause of a loop is laid out, and leaves its local on the stack, if it makes one. -/
def Initializer.LaidOut (first : Initializer) : Prop :=
  ∀ (env : Environment) (n : Nat),
    (first.flow env n).Codes (first.fragment env n).code env.level env.count (first.after env).count

namespace Statement

variable {condition value : Expression} {body otherwise : Statement}

theorem laidOut_expression (hv : value.LaidOut) : LaidOut (.expression value) :=
  fun env n => (hv env n _ (Nat.le_refl _)).seq (.pop env.count_pos)

theorem laidOut_print (hv : value.LaidOut) : LaidOut (.print value) :=
  fun env n => (hv env n _ (Nat.le_refl _)).seq
    (.step rfl ⟨Nat.succ_lt_succ env.count_pos, rfl, trivial⟩)

theorem laidOut_ifThen (hc : condition.LaidOut) (hb : body.LaidOut) :
    LaidOut (.ifThen condition body) := by
  intro env n
  have hpos := env.count_pos
  exact .choose (Nat.succ_lt_succ hpos) (hc env n _ (Nat.le_refl _)) (.branch hpos (hb env _))
    (.pop hpos)

theorem laidOut_ifElse (hc : condition.LaidOut) (hb : body.LaidOut) (ho : otherwise.LaidOut) :
    LaidOut (.ifElse condition body otherwise) := by
  intro env n
  have hpos := env.count_pos
  have hindex : ((condition.fragment env ++ Fragment.jumpOver .jumpIfFalse 3
      (Fragment.simple .pop ++ body.fragment env)) n).constants.length =
        (condition.fragment env n).constants.length + (body.fragment env
          (n + (condition.fragment env n).constants.length)).constants.length := List.length_append
  have hcodes := Flow.Codes.choose (Nat.succ_lt_succ hpos) (hc env n _ (Nat.le_refl _))
    (.branch hpos (hb env (n + (condition.fragment env n).constants.length)))
    (.branch hpos (ho env (n + ((condition.fragment env ++ Fragment.jumpOver .jumpIfFalse 3
      (Fragment.simple .pop ++ body.fragment env)) n).constants.length)))
  rw [hindex, ← Nat.add_assoc] at hcodes
  rw [fragment, Fragment.code_append, hindex, ← Nat.add_assoc]
  exact hcodes

theorem laidOut_whileLoop (hc : condition.LaidOut) (hb : body.LaidOut) :
    LaidOut (.whileLoop condition body) := by
  intro env n
  have hpos := env.count_pos
  exact .whileTrue (Nat.succ_lt_succ hpos) (hc env n _ (Nat.le_refl _)) (.branch hpos (hb env _))
    (.pop hpos)

theorem laidOut_ret_none : LaidOut (.ret none) :=
  fun env _ => (env.kind.straight_returnSteps env.level env.count_pos).codes

theorem laidOut_ret_some (hv : value.LaidOut) : LaidOut (.ret (some value)) :=
  fun env n => (hv env n _ (Nat.le_refl _)).seq
    (.step rfl ⟨Nat.succ_lt_succ env.count_pos, rfl, trivial⟩)

theorem laidOut_block {inner : List Declaration} (h : Declaration.LaidOutEach inner) :
    LaidOut (.block inner) :=
  fun env n => env.codes_leave (h env.enter n) (Declaration.count_afterEach env.enter inner)

end Statement

/-- A loop is laid out with its clauses and its body in their places. -/
theorem Environment.codes_rounds (env : Environment) {condition increment : Option Expression}
    {body : Statement} (hcondition : ∀ e ∈ condition, e.LaidOut)
    (hincrement : ∀ e ∈ increment, e.LaidOut) (hbody : body.LaidOut) (n : Nat) :
    (Flow.rounds (condition.map (Expression.flow env · n))
      (increment.map (Expression.flow env · (Expression.indexAfter env condition n)))
      (body.flow env (Expression.indexAfter env increment
        (Expression.indexAfter env condition n)))).Codes
      (Fragment.counting (condition.map (Expression.fragment env))
        (increment.map (Expression.fragment env)) (body.fragment env) n).code env.level env.count
          env.count := by
  have hpos := env.count_pos
  -- the jumps around the increment bring no constants, so the body comes right after it
  have hindex (increment : Fragment) (before m : Nat) : m + (increment m).constants.length =
      m + (Fragment.jumpOver .jump 0 (.loop before (increment ++ .simple .pop)) m).constants.length := by
    simp [Fragment.jumpOver, Piece.jumpOver, Fragment.loop, Fragment.sized, Fragment.append_apply,
      Fragment.simple]
  have hbody' {m m' : Nat} (h : m = m') : (body.flow env m).Codes (body.fragment env m').code
      env.level env.count env.count := h ▸ hbody env m
  cases increment with
  | none =>
      cases condition with
      | none => exact .forever (hbody env _)
      | some condition =>
          exact .conditional hpos (hcondition condition rfl env _ _ (Nat.le_refl _)) (hbody env _)
  | some increment =>
      have hdropped (m : Nat) := (hincrement increment rfl env m _ (Nat.le_refl _)).seq
        (.pop hpos)
      cases condition with
      | none => exact .stepping (hbody' (hindex _ _ _)) (hdropped _)
      | some condition =>
          exact .counting hpos (hcondition condition rfl env _ _ (Nat.le_refl _))
            (hbody' (hindex _ _ _)) (hdropped _)

/-- An initial value is laid out. -/
theorem Expression.codes_initial (env : Environment) {value : Option Expression}
    (hvalue : ∀ e ∈ value, e.LaidOut) (n : Nat) :
    (Expression.initialFlow env value n).Codes (Expression.initial env value n).code env.level
      env.count (env.count + 1) := by
  cases value with
  | none => exact .step rfl ⟨env.count_pos, rfl, trivial⟩
  | some value => exact hvalue value rfl env n _ (Nat.le_refl _)

namespace Initializer

theorem laidOut_absent : LaidOut .absent := fun _ _ => .skip

theorem laidOut_expression {value : Expression} (hv : value.LaidOut) :
    LaidOut (.expression value) :=
  fun env n => (hv env n _ (Nat.le_refl _)).seq (.pop env.count_pos)

theorem laidOut_variable (name : Symbol) {value : Option Expression}
    (hvalue : ∀ e ∈ value, e.LaidOut) : LaidOut (.variable name value) :=
  fun env _ => env.codes_declaration (Expression.codes_initial env hvalue)

end Initializer

theorem Statement.laidOut_forLoop {first : Initializer} {condition increment : Option Expression}
    {body : Statement} (hfirst : first.LaidOut) (hcondition : ∀ e ∈ condition, e.LaidOut)
    (hincrement : ∀ e ∈ increment, e.LaidOut) (hbody : body.LaidOut) :
    LaidOut (.forLoop first condition increment body) := by
  intro env n
  have hrounds := (first.after env.enter).codes_rounds hcondition hincrement hbody
    (n + (first.fragment env.enter n).constants.length)
  rw [show (first.after env.enter).level = env.level from first.level_after env.enter] at hrounds
  exact env.codes_leave ((hfirst env.enter n).seq hrounds) (first.count_after env.enter)

namespace Declaration

theorem laidOut_variable (name : Symbol) {value : Option Expression}
    (hvalue : ∀ e ∈ value, e.LaidOut) : LaidOut (.varDeclaration name value) :=
  fun env _ => env.codes_declaration (Expression.codes_initial env hvalue)

theorem laidOut_function (f : FunctionTree) : LaidOut (.funDeclaration f) := by
  intro env n
  have hclosure (m : Nat) := f.straight_closure .function (env.declare f.name) m env.count_pos
    (env.count_declare_le f.name)
  have hstraight : Straight env.level
      (env.declaration f.name (f.fragment .function (env.declare f.name)) n).code env.count
        (env.declare f.name).count := by
    rw [env.code_declaration]
    rw [Environment.level_declare] at hclosure
    exact (hclosure _).append (env.straight_define f.name n n)
  exact hstraight.codes

theorem laidOut_class (name : Symbol) (superclass : Option Symbol) (methods : List FunctionTree) :
    LaidOut (.classDeclaration name superclass methods) := by
  intro env n
  have hclass (m : Nat) := (env.declare name).straight_classFragment name superclass methods m
  rw [Environment.level_declare] at hclass
  have hmake : (Step.constant .makeClass n).Moves env.level env.count (env.count + 1) :=
    ⟨env.count_pos, rfl, trivial⟩
  have hreserve : Straight env.level (env.reserve (n + 1)).code env.count env.count := by
    rw [env.code_reserve]
    exact .nil
  exact (((hreserve.append (.step rfl hmake)).append (env.straight_define name n _)).append
    (hclass _)).codes

theorem laidOut_statement {s : Statement} (hs : s.LaidOut) : LaidOut (.statement s) := hs

theorem laidOutEach_nil : LaidOutEach [] := fun _ _ => .skip

theorem laidOutEach_cons {d : Declaration} {ds : List Declaration} (hd : d.LaidOut)
    (hds : LaidOutEach ds) : LaidOutEach (d :: ds) := by
  intro env n
  have hrest := hds (d.after env) (n + (d.fragment env n).constants.length)
  rw [Declaration.level_after] at hrest
  exact (hd env n).seq hrest

end Declaration

/-! ## Programs -/

theorem Expression.SpelledOption.laidOut {value : Option Expression} {ts : List Kind}
    (h : Expression.SpelledOption value ts) : ∀ e ∈ value, e.LaidOut := by
  intro e he
  cases h with
  | none => cases he
  | some hvalue =>
      cases he
      exact hvalue.laidOut

theorem Declaration.VariableSpelled.laidOut {name : Symbol} {value : Option Expression}
    {ts : List Kind} (h : Declaration.VariableSpelled name value ts) : ∀ e ∈ value, e.LaidOut := by
  intro e he
  cases h with
  | bare => cases he
  | initial hvalue =>
      cases he
      exact hvalue.laidOut

theorem Initializer.Spelled.laidOut {first : Initializer} {ts : List Kind} (h : first.Spelled ts) :
    first.LaidOut := by
  cases h with
  | absent => exact laidOut_absent
  | «variable» hvalue => exact laidOut_variable _ hvalue.laidOut
  | expression hvalue => exact laidOut_expression hvalue.laidOut

mutual

/-- Every statement of the grammar is laid out. -/
theorem Statement.Spelled.laidOut : ∀ {s : Statement} {ts : List Kind}, s.Spelled ts → s.LaidOut
  | _, _, .expression hv => Statement.laidOut_expression hv.laidOut
  | _, _, .print hv => Statement.laidOut_print hv.laidOut
  | _, _, .ifThen hc hb => Statement.laidOut_ifThen hc.laidOut hb.laidOut
  | _, _, .ifElse _ hc hb ho => Statement.laidOut_ifElse hc.laidOut hb.laidOut ho.laidOut
  | _, _, .whileLoop hc hb => Statement.laidOut_whileLoop hc.laidOut hb.laidOut
  | _, _, .forLoop hi hc hn hb =>
      Statement.laidOut_forLoop hi.laidOut hc.laidOut hn.laidOut hb.laidOut
  | _, _, .ret .none => Statement.laidOut_ret_none
  | _, _, .ret (.some hv) => Statement.laidOut_ret_some hv.laidOut
  | _, _, .block hds => Statement.laidOut_block hds.laidOut

theorem Declaration.Spelled.laidOut : ∀ {d : Declaration} {ts : List Kind},
    d.Spelled ts → d.LaidOut
  | _, _, .classDeclaration _ => Declaration.laidOut_class _ _ _
  | _, _, .funDeclaration _ => Declaration.laidOut_function _
  | _, _, .varDeclaration hv => Declaration.laidOut_variable _ hv.laidOut
  | _, _, .statement hs => Declaration.laidOut_statement hs.laidOut

theorem Declaration.SpelledEach.laidOut : ∀ {ds : List Declaration} {ts : List Kind},
    Declaration.SpelledEach ds ts → Declaration.LaidOutEach ds
  | _, _, .nil => Declaration.laidOutEach_nil
  | _, _, .cons hd hds => Declaration.laidOutEach_cons hd.laidOut hds.laidOut

end

/-- A function as programs have it: its body is spelled by the grammar, and it starts with the
receiver and its parameters on the stack. -/
structure FunctionBody.Proper (b : FunctionBody) : Prop where
  spelled : ∃ ts, Declaration.SpelledEach b.body ts
  starts : b.inside.count = 1 + b.parameters.length

/-- Inside of a scope every declaration makes a local. -/
theorem Environment.count_declareEach_eq (env : Environment) (hscopes : env.scopes ≠ [])
    (names : List Symbol) : (env.declareEach names).count = env.count + names.length := by
  induction names generalizing env with
  | nil => rfl
  | cons name names ih =>
      obtain ⟨scope, outer, heq⟩ := List.exists_cons_of_ne_nil hscopes
      have hdeclare : env.declare name = { env with scopes := (name :: scope) :: outer } := by
        rw [declare, heq]
      have hcount : (env.declare name).count = env.count + 1 := by
        rw [hdeclare]
        simp only [count, locals, heq, List.flatten_cons, List.length_append, List.length_cons]
        omega
      have hinner : (env.declare name).scopes ≠ [] := by
        rw [hdeclare]
        exact List.cons_ne_nil _ _
      rw [List.length_cons, Nat.add_comm names.length, ← Nat.add_assoc, ← hcount]
      exact ih (env.declare name) hinner

mutual

/-- The functions in what the grammar spells are proper ones. -/
theorem Statement.Spelled.proper : ∀ {s : Statement} {ts : List Kind}, s.Spelled ts →
    ∀ env, ∀ b ∈ s.functions env, b.Proper
  | _, _, .expression _, _, _, hb | _, _, .print _, _, _, hb | _, _, .ret _, _, _, hb => by cases hb
  | _, _, .ifThen _ h, env, b, hb | _, _, .whileLoop _ h, env, b, hb => h.proper env b hb
  | _, _, .ifElse _ _ h h', env, b, hb =>
      (List.mem_append.mp hb).elim (h.proper env b) (h'.proper env b)
  | _, _, .forLoop _ _ _ h, _, b, hb => h.proper _ b hb
  | _, _, .block h, env, b, hb => h.proper env.enter b hb

theorem Declaration.Spelled.proper : ∀ {d : Declaration} {ts : List Kind}, d.Spelled ts →
    ∀ env, ∀ b ∈ d.functions env, b.Proper
  | _, _, .classDeclaration h, _, b, hb => h.proper _ b hb
  | _, _, .funDeclaration h, _, b, hb => h.proper _ _ b hb
  | _, _, .varDeclaration _, _, _, hb => by cases hb
  | _, _, .statement h, env, b, hb => h.proper env b hb

theorem Declaration.SpelledEach.proper : ∀ {ds : List Declaration} {ts : List Kind},
    Declaration.SpelledEach ds ts → ∀ env, ∀ b ∈ Declaration.functionsEach env ds, b.Proper
  | _, _, .nil, _, _, hb => by cases hb
  | _, _, .cons h h', env, b, hb => (List.mem_append.mp hb).elim (h.proper env b) (h'.proper _ b)

theorem FunctionTree.Spelled.proper : ∀ {f : FunctionTree} {ts : List Kind}, f.Spelled ts →
    ∀ kind env, ∀ b ∈ f.functions kind env, b.Proper
  | _, _, .mk h, kind, env, b, hb => by
      rcases List.mem_cons.mp hb with rfl | hb
      · refine ⟨⟨_, h⟩, ?_⟩
        exact (env.function kind).count_declareEach_eq (List.cons_ne_nil _ _) _
      · exact h.proper _ b hb

theorem FunctionTree.SpelledEach.proper : ∀ {fs : List FunctionTree} {ts : List Kind},
    FunctionTree.SpelledEach fs ts → ∀ env, ∀ b ∈ FunctionTree.functionsEach env fs, b.Proper
  | _, _, .nil, _, _, hb => by cases hb
  | _, _, .cons h h', env, b, hb => (List.mem_append.mp hb).elim (h.proper _ env b) (h'.proper env b)

end

theorem Declaration.SpelledEach.proper_bodies {ds : List Declaration} {ts : List Kind}
    (h : Declaration.SpelledEach ds ts) (names : ImplicitNames) :
    ∀ b ∈ Declaration.bodies names ds, b.Proper := by
  intro b hb
  rcases List.mem_cons.mp hb with rfl | hb
  · exact ⟨⟨ts, h⟩, rfl⟩
  · exact h.proper _ b hb

/-- The code of a function is that of its body, and a return after it. The body starts with the
receiver and the parameters on the stack, and ends with the locals that are still in scope. -/
theorem FunctionBody.Proper.laidOut {b : FunctionBody} (hb : b.Proper) :
    b.flow.Typed b.env.level (1 + b.parameters.length) b.last.count ∧
      b.plan.code = b.flow.flat ++ b.env.kind.returnSteps := by
  obtain ⟨ts, hspelled⟩ := hb.spelled
  have hreserve : ∀ (env : Environment) (names : List Symbol) (n : Nat),
      (env.reserveEach names n).code = [] := by
    intro env names
    induction names generalizing env with
    | nil => exact fun _ => rfl
    | cons name names ih =>
        intro n
        show (env.reserve n).code ++ _ = []
        rw [env.code_reserve, List.nil_append]
        exact ih _ _
  have hcodes := hspelled.laidOut b.inside (b.env.reserveEach b.parameters 0).constants.length
  constructor
  · have htyped := hcodes.typed
    rw [hb.starts] at htyped
    rwa [← Environment.level_declareEach b.env b.parameters]
  · rw [show b.flow.flat = _ from hcodes.flat]
    show (b.env.reserveEach b.parameters 0).code ++ _ ++ _ = _
    rw [hreserve, List.nil_append, Nat.zero_add]
    rfl

end LoxCompiler
