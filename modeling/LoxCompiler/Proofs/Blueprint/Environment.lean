import LoxCompiler.Proofs.Blueprint.Fragment
import LoxCompiler.Session.Basic

/-! # Environments

What a name means at some place of a program. The scopes of a function are listed innermost
first, and the names that a scope declares newest first. The locals of a function are in its
slots in the order of their declarations, with the receiver before all others.
-/

namespace LoxCompiler

/-- A place of a program: the function it is in, the classes around it, and the locals that
can be named there. -/
structure Environment where
  names : ImplicitNames
  kind : FunctionKind
  classes : List ClassContext
  receiver : Symbol
  /-- The scopes of the function. Outside all scopes variables are global. -/
  scopes : List (List Symbol)
  /-- The locals of the functions around, innermost function first. -/
  outer : List (List Symbol)

/-- The slot of the newest local of a name. -/
def slot? (name : Symbol) : List Symbol → Option Nat
  | [] => none
  | x :: older => if x = name then some older.length else slot? name older

theorem slot?_lt {name : Symbol} {locals : List Symbol} {slot : Nat}
    (h : slot? name locals = some slot) : slot < locals.length := by
  induction locals with
  | nil => cases h
  | cons x older ih =>
      unfold slot? at h
      split at h
      · cases h
        exact Nat.lt_succ_self _
      · exact Nat.lt_succ_of_lt (ih h)

/-- The newest local of a name in some functions, from the innermost function that has one. -/
def Variable.find? (name : Symbol) : List (List Symbol) → Option Variable
  | [] => none
  | locals :: outer =>
      match slot? name locals with
      | some slot => some ⟨outer.length, slot⟩
      | none => find? name outer

/-- What a name means: a local of the function, a local of a function around it, or a global
variable, which is found by its name as a constant. -/
inductive Place where
  | slot (slot : Nat)
  | captured (v : Variable)
  | global (index : Nat)
deriving DecidableEq, Repr

namespace Place

/-- The instruction that accesses a variable, by the opcode for its kind. -/
def step (ofSlot ofCaptured ofGlobal : Opcode) : Place → Step
  | .slot n => .byte ofSlot n
  | .captured v => .captured ofCaptured v
  | .global n => .constant ofGlobal n

/-- The instruction that reads a variable. -/
def get : Place → Step := step .getLocal .getUpvalue .getGlobal

/-- The instruction that writes a variable. -/
def set : Place → Step := step .setLocal .setUpvalue .setGlobal

end Place

namespace Environment

variable (env : Environment)

/-- The locals of the function, newest first. -/
def locals : List Symbol := env.scopes.flatten ++ [env.receiver]

/-- The number of locals of the function. -/
def count : Nat := env.locals.length

theorem count_pos : 0 < env.count := by
  unfold count locals
  rw [List.length_append]
  exact Nat.lt_add_left _ Nat.zero_lt_one

/-- The number of functions around. -/
def level : Nat := env.outer.length

/-- What a name means, if it needs a constant whose index would be the given one. -/
def place (name : Symbol) (index : Nat) : Place :=
  match slot? name env.locals with
  | some slot => .slot slot
  | none =>
      match Variable.find? name env.outer with
      | some v => .captured v
      | none => .global index

/-- What comes with the access to a place. -/
def locate (name : Symbol) : Fragment :=
  match env.place name 0 with
  | .slot _ => ∅
  | .captured v => .use [v]
  | .global _ => .item (.string name)

/-- The access to a variable, with what is done at its place. -/
def reach (name : Symbol) (f : Place → Fragment) : Fragment :=
  fun n => (env.locate name ++ f (env.place name n)) n

/-- Read a variable. -/
def load (name : Symbol) : Fragment := env.reach name fun place => .step place.get

/-- The place after a name was declared. Outside all scopes this makes no local. -/
def declare (name : Symbol) : Environment :=
  match env.scopes with
  | [] => env
  | scope :: outer => { env with scopes := (name :: scope) :: outer }

theorem declare_eq (name : Symbol) :
    env.declare name = { env with scopes := (env.declare name).scopes } := by
  unfold declare
  split <;> rfl

/-- Whether a name may be declared: no other variable of the innermost scope has it. -/
def Free (name : Symbol) : Prop :=
  match env.scopes with
  | [] => True
  | scope :: _ => name ∉ scope

/-- The slot that a declaration takes. -/
def reserve : Fragment :=
  match env.scopes with
  | [] => ∅
  | _ :: _ => .reserve (env.count + 1)

/-- The instruction that makes a variable of the top of the stack, given the index of its name.
A local needs none, since its value is in its slot already. -/
def define (index : Nat) : Fragment :=
  match env.scopes with
  | [] => .step (.constant .defineGlobal index)
  | _ :: _ => ∅

theorem define_declare (name : Symbol) (index : Nat) :
    (env.declare name).define index = env.define index := by
  unfold define declare
  cases hscopes : env.scopes with
  | nil => simp only [hscopes]
  | cons scope outer => rfl

/-- What a declaration needs for its name: a global needs it as a constant, and a local takes a
slot. -/
def header (name : Symbol) : Fragment :=
  match env.scopes with
  | [] => .item (.string name)
  | _ :: _ => env.reserve

/-- The declaration of a variable, with the code of its value. -/
def declaration (name : Symbol) (value : Fragment) : Fragment :=
  fun index => (env.header name ++ value ++ env.define index) index

/-- The beginning of a scope. -/
def enter : Environment := { env with scopes := [] :: env.scopes }

/-- A fragment from the beginning of a scope to its end, with the place before its end. -/
def leave (last : Environment) (f : Fragment) : Fragment :=
  f.drop env.level env.count (last.count - env.count)

/-- The name of the receiver of a function. Only methods can refer to it. -/
def receiverOf : FunctionKind → Symbol
  | .method | .initializer => env.names.this
  | .function | .script => .anonymous

/-- The beginning of a function inside, before its parameters. -/
def function (kind : FunctionKind) : Environment :=
  { env with kind, receiver := env.receiverOf kind, scopes := [[]]
             outer := env.locals :: env.outer }

/-- The place after some names were declared one after the other. -/
def declareEach (names : List Symbol) : Environment := names.foldl declare env

theorem declareEach_eq (env : Environment) (names : List Symbol) :
    env.declareEach names = { env with scopes := (env.declareEach names).scopes } := by
  induction names generalizing env with
  | nil => rfl
  | cons name names ih =>
      exact (ih (env.declare name)).trans (congrArg (fun e : Environment =>
        { e with scopes := (env.declareEach (name :: names)).scopes }) (env.declare_eq name))

/-- The slots that some declarations take. -/
def reserveEach (env : Environment) : List Symbol → Fragment
  | [] => ∅
  | name :: names => env.reserve ++ reserveEach (env.declare name) names

/-- The beginning of the body of a class. -/
def inClass (context : ClassContext) : Environment :=
  { env with classes := context :: env.classes }

end Environment

end LoxCompiler
