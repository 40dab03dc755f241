import LoxCompiler.Bytecode.Instruction

/-! # Following code

What code does as far as control is concerned: which of its instructions are visited, given what
is found on top of the stack whenever a condition is tested. Structured code says this by its
parts, and decoded instructions say it one by one. Here both are related, construct by construct.

Runs that are not over yet count too, so loops that never end are not left out.
-/

namespace LoxCompiler

/-- How far a run got: to the end of the code, out of the function, or not to an end yet. -/
inductive Exit where
  | done
  | returned
  | cut
deriving DecidableEq

/-- The runs of some code: what its conditions turned out to be, the offsets of the instructions
that were visited, and how far the run got. -/
def Behaviour : Type := List Bool → List Nat → Exit → Prop

namespace Behaviour

/-- Visit nothing. -/
inductive nothing : Behaviour
  | done : nothing [] [] .done
  | cut : nothing [] [] .cut

/-- Visit one instruction, and go on after it. -/
inductive visit (offset : Nat) : Behaviour
  | before : visit offset [] [] .cut
  | done : visit offset [] [offset] .done
  | cut : visit offset [] [offset] .cut

/-- Visit one instruction, and leave the function by it. -/
inductive leave (offset : Nat) : Behaviour
  | before : leave offset [] [] .cut
  | returned : leave offset [] [offset] .returned

/-- One after the other. -/
inductive andThen (first second : Behaviour) : Behaviour
  | stop {os τ e} : first os τ e → e ≠ .done → andThen first second os τ e
  | next {os τ os' τ' e} : first os τ .done → second os' τ' e →
      andThen first second (os ++ os') (τ ++ τ') e

/-- One or the other, depending on a condition. -/
inductive test (truthy falsey : Behaviour) : Behaviour
  | truthy {os τ e} : truthy os τ e → test truthy falsey (true :: os) τ e
  | falsey {os τ e} : falsey os τ e → test truthy falsey (false :: os) τ e
  | cut : test truthy falsey [] [] .cut

/-- A condition, and something to do every time it is true, until it is false. -/
inductive whileTrue (condition body after : Behaviour) : Behaviour
  | stop {os τ e} : condition os τ e → e ≠ .done → whileTrue condition body after os τ e
  | inside {os τ os' τ' e} : condition os τ .done → body os' τ' e → e ≠ .done →
      whileTrue condition body after (os ++ true :: os') (τ ++ τ') e
  | again {os τ os' τ' os'' τ'' e} : condition os τ .done → body os' τ' .done →
      whileTrue condition body after os'' τ'' e →
      whileTrue condition body after (os ++ true :: (os' ++ os'')) (τ ++ (τ' ++ τ'')) e
  | after {os τ os' τ' e} : condition os τ .done → after os' τ' e →
      whileTrue condition body after (os ++ false :: os') (τ ++ τ') e

/-- The same again and again. -/
inductive forever (body : Behaviour) : Behaviour
  | inside {os τ e} : body os τ e → e ≠ .done → forever body os τ e
  | again {os τ os' τ' e} : body os τ .done → forever body os' τ' e →
      forever body (os ++ os') (τ ++ τ') e

end Behaviour

namespace Instruction

/-- Whether control goes on at the next instruction, whatever there is on the stack. -/
def goesOn : Instruction → Bool
  | .jump _ _ _ | .unknown _ | .truncated _ => false
  | .simple op => op ≠ .ret
  | .byte _ _ | .constant _ _ | .invoke _ _ _ | .closure _ _ => true

end Instruction

/-- Some number of steps through decoded instructions, from an offset to another one or out of the
function. Conditional jumps ask what is on top of the stack. Jumps themselves are not counted
among the instructions visited. -/
inductive Follows (P : List (Nat × Instruction)) :
    Nat → Nat → List Bool → List Nat → Option Nat → Prop
  | here {o} : Follows P 0 o [] [] (some o)
  | next {n o i os τ r} : P.lookup o = some i → i.goesOn = true →
      Follows P n (o + i.size) os τ r → Follows P (n + 1) o os (o :: τ) r
  | ret {o} : P.lookup o = some (.simple .ret) → Follows P 1 o [] [o] none
  | jump {n o op distance target os τ r} : P.lookup o = some (.jump op distance target) →
      op ≠ .jumpIfFalse → Follows P n target os τ r → Follows P (n + 1) o os τ r
  | falsey {n o distance target os τ r} :
      P.lookup o = some (.jump .jumpIfFalse distance target) → Follows P n target os τ r →
      Follows P (n + 1) o (false :: os) τ r
  | truthy {n o distance target os τ r} :
      P.lookup o = some (.jump .jumpIfFalse distance target) → Follows P n (o + 3) os τ r →
      Follows P (n + 1) o (true :: os) τ r

namespace Follows

variable {P : List (Nat × Instruction)}

theorem trans {n m o o' : Nat} {os os' : List Bool} {τ τ' : List Nat} {r : Option Nat}
    (h : Follows P n o os τ (some o')) (h' : Follows P m o' os' τ' r) :
    ∃ k, Follows P k o (os ++ os') (τ ++ τ') r := by
  generalize hr : some o' = last at h
  induction h with
  | here =>
      cases hr
      exact ⟨m, h'⟩
  | next hi hgoes _ ih =>
      obtain ⟨k, hk⟩ := ih hr
      exact ⟨k + 1, .next hi hgoes hk⟩
  | ret => cases hr
  | jump hi hop _ ih =>
      obtain ⟨k, hk⟩ := ih hr
      exact ⟨k + 1, .jump hi hop hk⟩
  | falsey hi _ ih =>
      obtain ⟨k, hk⟩ := ih hr
      exact ⟨k + 1, .falsey hi hk⟩
  | truthy hi _ ih =>
      obtain ⟨k, hk⟩ := ih hr
      exact ⟨k + 1, .truthy hi hk⟩

/-- Steps that start at an unconditional jump. -/
theorem of_jump {n o distance target : Nat} {op : Opcode} {os : List Bool} {τ : List Nat}
    {r : Option Nat} (hi : P.lookup o = some (.jump op distance target)) (hop : op ≠ .jumpIfFalse)
    (h : Follows P n o os τ r) :
    (os = [] ∧ τ = [] ∧ r = some o) ∨ ∃ k < n, Follows P k target os τ r := by
  cases h with
  | here => exact .inl ⟨rfl, rfl, rfl⟩
  | next hi' hgoes _ =>
      cases hi.symm.trans hi'
      cases hgoes
  | ret hi' => cases hi.symm.trans hi'
  | jump hi' _ h =>
      cases hi.symm.trans hi'
      exact .inr ⟨_, Nat.lt_succ_self _, h⟩
  | falsey hi' _ | truthy hi' _ =>
      cases hi.symm.trans hi'
      exact (hop rfl).elim

/-- Steps that start at a conditional jump. -/
theorem of_test {n o distance target : Nat} {os : List Bool} {τ : List Nat} {r : Option Nat}
    (hi : P.lookup o = some (.jump .jumpIfFalse distance target)) (h : Follows P n o os τ r) :
    (os = [] ∧ τ = [] ∧ r = some o) ∨
      (∃ k < n, ∃ os', os = true :: os' ∧ Follows P k (o + 3) os' τ r) ∨
      ∃ k < n, ∃ os', os = false :: os' ∧ Follows P k target os' τ r := by
  cases h with
  | here => exact .inl ⟨rfl, rfl, rfl⟩
  | next hi' hgoes _ =>
      cases hi.symm.trans hi'
      cases hgoes
  | ret hi' => cases hi.symm.trans hi'
  | jump hi' hop _ =>
      cases hi.symm.trans hi'
      exact (hop rfl).elim
  | falsey hi' h =>
      cases hi.symm.trans hi'
      exact .inr (.inr ⟨_, Nat.lt_succ_self _, _, rfl, h⟩)
  | truthy hi' h =>
      cases hi.symm.trans hi'
      exact .inr (.inl ⟨_, Nat.lt_succ_self _, _, rfl, h⟩)

end Follows

/-- Where a run ends that got so far, if the end of the code is at some offset. -/
def Exit.At (stop : Nat) : Exit → Option Nat → Prop
  | .done, r => r = some stop
  | .returned, r => r = none
  | .cut, r => r ≠ none

/-- A run that is not at the end of some code is as far in code with another end. -/
theorem Exit.At.of_ne {e : Exit} {r : Option Nat} {stop stop' : Nat} (he : e ≠ .done)
    (h : e.At stop r) : e.At stop' r := by
  cases e with
  | done => exact (he rfl).elim
  | returned | cut => exact h

/-- From an offset on, the instructions do just what a behaviour says. They are left at another
offset. -/
structure Tracks (P : List (Nat × Instruction)) (b : Behaviour) (start stop : Nat) : Prop where
  /-- Nothing has happened yet. -/
  before : b [] [] .cut
  /-- Whether a run is at the end may be left open. -/
  cut : ∀ {os τ}, b os τ .done → b os τ .cut
  /-- What the behaviour says happens. -/
  follows : ∀ {os τ e}, b os τ e → ∃ n r, Follows P n start os τ r ∧ e.At stop r
  /-- What happens is what the behaviour says, up to the end and after it. -/
  only : ∀ {n os τ r}, Follows P n start os τ r →
    (∃ e, e ≠ .done ∧ b os τ e ∧ e.At stop r) ∨
      ∃ os₁ τ₁ os₂ τ₂ k, os = os₁ ++ os₂ ∧ τ = τ₁ ++ τ₂ ∧ k ≤ n ∧ b os₁ τ₁ .done ∧
        Follows P k stop os₂ τ₂ r

namespace Tracks

variable {P : List (Nat × Instruction)} {b b' : Behaviour} {start middle stop : Nat}

/-- A run that is not at an end yet, if it has not left the function. -/
theorem only_of_cut {os : List Bool} {τ : List Nat} {o n : Nat} (h : b os τ .cut) :
    (∃ e, e ≠ .done ∧ b os τ e ∧ e.At stop (some o)) ∨
      ∃ os₁ τ₁ os₂ τ₂ k, os = os₁ ++ os₂ ∧ τ = τ₁ ++ τ₂ ∧ k ≤ n ∧ b os₁ τ₁ .done ∧
        Follows P k stop os₂ τ₂ (some o) :=
  .inl ⟨.cut, nofun, h, nofun⟩

protected theorem nothing : Tracks P .nothing start start where
  before := .cut
  cut h := by
    cases h
    exact .cut
  follows h := by
    cases h with
    | done => exact ⟨0, _, .here, rfl⟩
    | cut => exact ⟨0, _, .here, nofun⟩
  only h := .inr ⟨[], [], _, _, _, rfl, rfl, Nat.le_refl _, .done, h⟩

protected theorem visit {i : Instruction} (hi : P.lookup start = some i) (hgoes : i.goesOn = true) :
    Tracks P (.visit start) start (start + i.size) where
  before := .before
  cut h := by
    cases h
    exact .cut
  follows h := by
    cases h with
    | before => exact ⟨0, _, .here, nofun⟩
    | done => exact ⟨1, _, .next hi hgoes .here, rfl⟩
    | cut => exact ⟨1, _, .next hi hgoes .here, nofun⟩
  only h := by
    cases h with
    | here => exact only_of_cut .before
    | next hi' _ h =>
        cases hi.symm.trans hi'
        exact .inr ⟨[], [start], _, _, _, rfl, rfl, Nat.le_succ _, .done, h⟩
    | ret hi' | jump hi' _ _ | falsey hi' _ | truthy hi' _ =>
        cases hi.symm.trans hi'
        cases hgoes

protected theorem leave (hi : P.lookup start = some (.simple .ret)) :
    Tracks P (.leave start) start stop where
  before := .before
  cut h := by cases h
  follows h := by
    cases h with
    | before => exact ⟨0, _, .here, nofun⟩
    | returned => exact ⟨1, _, .ret hi, rfl⟩
  only h := by
    cases h with
    | here => exact only_of_cut .before
    | next hi' hgoes _ =>
        cases hi.symm.trans hi'
        cases hgoes
    | ret => exact .inl ⟨.returned, nofun, .returned, rfl⟩
    | jump hi' _ _ | falsey hi' _ | truthy hi' _ => cases hi.symm.trans hi'

theorem andThen (h : Tracks P b start middle) (h' : Tracks P b' middle stop) :
    Tracks P (b.andThen b') start stop where
  before := .stop h.before nofun
  cut hrun := by
    cases hrun with
    | stop _ hdone => exact (hdone rfl).elim
    | next hfirst hsecond => exact .next hfirst (h'.cut hsecond)
  follows hrun := by
    cases hrun with
    | stop hfirst hdone =>
        obtain ⟨n, r, hn, hr⟩ := h.follows hfirst
        exact ⟨n, r, hn, hr.of_ne hdone⟩
    | next hfirst hsecond =>
        obtain ⟨n, _, hn, rfl⟩ := h.follows hfirst
        obtain ⟨m, r, hm, hr⟩ := h'.follows hsecond
        obtain ⟨k, hk⟩ := hn.trans hm
        exact ⟨k, r, hk, hr⟩
  only hn := by
    rcases h.only hn with ⟨e, hdone, hfirst, hr⟩ | ⟨os₁, τ₁, os₂, τ₂, k, rfl, rfl, hk, hfirst, hrest⟩
    · exact .inl ⟨e, hdone, .stop hfirst hdone, hr.of_ne hdone⟩
    · rcases h'.only hrest with ⟨e, hdone, hsecond, hr⟩ |
        ⟨os₃, τ₃, os₄, τ₄, m, rfl, rfl, hm, hsecond, hafter⟩
      · exact .inl ⟨e, hdone, .next hfirst hsecond, hr⟩
      · exact .inr ⟨os₁ ++ os₃, τ₁ ++ τ₃, os₄, τ₄, m, (List.append_assoc ..).symm,
          (List.append_assoc ..).symm, Nat.le_trans hm hk, .next hfirst hsecond, hafter⟩

/-- An unconditional jump after the code. -/
theorem jump {op : Opcode} {distance : Nat} (h : Tracks P b start middle)
    (hi : P.lookup middle = some (.jump op distance stop)) (hop : op ≠ .jumpIfFalse) :
    Tracks P b start stop where
  before := h.before
  cut := h.cut
  follows := by
    intro os τ e hrun
    obtain ⟨n, r, hn, hr⟩ := h.follows hrun
    cases e with
    | done =>
        cases hr
        obtain ⟨k, hk⟩ := hn.trans (.jump hi hop .here)
        rw [List.append_nil, List.append_nil] at hk
        exact ⟨k, _, hk, rfl⟩
    | returned | cut => exact ⟨n, r, hn, hr⟩
  only hn := by
    rcases h.only hn with ⟨e, hdone, hinside, hr⟩ | ⟨os₁, τ₁, os₂, τ₂, k, rfl, rfl, hk, hdone, hrest⟩
    · exact .inl ⟨e, hdone, hinside, hr.of_ne hdone⟩
    · rcases hrest.of_jump hi hop with ⟨rfl, rfl, rfl⟩ | ⟨m, hm, hafter⟩
      · simp only [List.append_nil]
        exact only_of_cut (h.cut hdone)
      · exact .inr ⟨os₁, τ₁, os₂, τ₂, m, rfl, rfl, by omega, hdone, hafter⟩

/-- A conditional jump before two alternatives. -/
theorem test {distance target : Nat}
    (hi : P.lookup start = some (.jump .jumpIfFalse distance target))
    (h : Tracks P b (start + 3) stop) (h' : Tracks P b' target stop) :
    Tracks P (.test b b') start stop where
  before := .cut
  cut hrun := by
    cases hrun with
    | truthy hrun => exact .truthy (h.cut hrun)
    | falsey hrun => exact .falsey (h'.cut hrun)
  follows hrun := by
    cases hrun with
    | truthy hrun =>
        obtain ⟨n, r, hn, hr⟩ := h.follows hrun
        exact ⟨n + 1, r, .truthy hi hn, hr⟩
    | falsey hrun =>
        obtain ⟨n, r, hn, hr⟩ := h'.follows hrun
        exact ⟨n + 1, r, .falsey hi hn, hr⟩
    | cut => exact ⟨0, _, .here, nofun⟩
  only hn := by
    rcases hn.of_test hi with ⟨rfl, rfl, rfl⟩ | ⟨k, hk, os', rfl, hrest⟩ | ⟨k, hk, os', rfl, hrest⟩
    · exact only_of_cut .cut
    · rcases h.only hrest with ⟨e, hdone, hinside, hr⟩ |
        ⟨os₁, τ₁, os₂, τ₂, m, rfl, rfl, hm, hdone, hafter⟩
      · exact .inl ⟨e, hdone, .truthy hinside, hr⟩
      · exact .inr ⟨true :: os₁, τ₁, os₂, τ₂, m, rfl, rfl, by omega, .truthy hdone, hafter⟩
    · rcases h'.only hrest with ⟨e, hdone, hinside, hr⟩ |
        ⟨os₁, τ₁, os₂, τ₂, m, rfl, rfl, hm, hdone, hafter⟩
      · exact .inl ⟨e, hdone, .falsey hinside, hr⟩
      · exact .inr ⟨false :: os₁, τ₁, os₂, τ₂, m, rfl, rfl, by omega, .falsey hdone, hafter⟩

/-- A body with a jump back to its start. -/
theorem forever {op : Opcode} {distance : Nat} (h : Tracks P b start middle)
    (hi : P.lookup middle = some (.jump op distance start)) (hop : op ≠ .jumpIfFalse) :
    Tracks P (.forever b) start stop where
  before := .inside h.before nofun
  cut hrun := by
    generalize he : Exit.done = e at hrun
    induction hrun with
    | inside _ hdone => exact (hdone he.symm).elim
    | again hround _ ih => exact .again hround (ih he)
  follows hrun := by
    induction hrun with
    | inside hrun hdone =>
        obtain ⟨n, r, hn, hr⟩ := h.follows hrun
        exact ⟨n, r, hn, hr.of_ne hdone⟩
    | again hround _ ih =>
        obtain ⟨n, _, hn, rfl⟩ := h.follows hround
        obtain ⟨m, r, hm, hr⟩ := ih
        obtain ⟨k, hk⟩ := hn.trans (.jump hi hop hm)
        exact ⟨k, r, hk, hr⟩
  only := by
    intro n
    -- the jump back is a step, so fewer steps are left for the rounds after the first one
    induction n using Nat.strongRecOn with
    | ind n ih =>
        intro os τ r hn
        rcases h.only hn with ⟨e, hdone, hinside, hr⟩ |
          ⟨os₁, τ₁, os₂, τ₂, k, rfl, rfl, hk, hround, hrest⟩
        · exact .inl ⟨e, hdone, .inside hinside hdone, hr.of_ne hdone⟩
        · rcases hrest.of_jump hi hop with ⟨rfl, rfl, rfl⟩ | ⟨m, hm, hagain⟩
          · exact only_of_cut (.again hround (.inside h.before nofun))
          · rcases ih m (by omega) hagain with ⟨e, hdone, hmore, hr⟩ |
              ⟨os₃, τ₃, os₄, τ₄, j, rfl, rfl, hj, hmore, hafter⟩
            · exact .inl ⟨e, hdone, .again hround hmore, hr⟩
            · exact .inr ⟨os₁ ++ os₃, τ₁ ++ τ₃, os₄, τ₄, j, (List.append_assoc ..).symm,
                (List.append_assoc ..).symm, by omega, .again hround hmore, hafter⟩

/-- A condition with a jump out of the loop, and a body that goes back to the condition. -/
theorem whileTrue {condition body after : Behaviour} {distance target : Nat}
    (h : Tracks P condition start middle)
    (hi : P.lookup middle = some (.jump .jumpIfFalse distance target))
    (hbody : Tracks P body (middle + 3) start) (hafter : Tracks P after target stop) :
    Tracks P (.whileTrue condition body after) start stop where
  before := .stop h.before nofun
  cut hrun := by
    generalize he : Exit.done = e at hrun
    induction hrun with
    | stop _ hdone | inside _ _ hdone => exact (hdone he.symm).elim
    | again htrue hround _ ih => exact .again htrue hround (ih he)
    | after hfalse hrun =>
        cases he
        exact .after hfalse (hafter.cut hrun)
  follows hrun := by
    induction hrun with
    | stop hrun hdone =>
        obtain ⟨n, r, hn, hr⟩ := h.follows hrun
        exact ⟨n, r, hn, hr.of_ne hdone⟩
    | inside htrue hrun hdone =>
        obtain ⟨n, _, hn, rfl⟩ := h.follows htrue
        obtain ⟨m, r, hm, hr⟩ := hbody.follows hrun
        obtain ⟨k, hk⟩ := hn.trans (.truthy hi hm)
        exact ⟨k, r, hk, hr.of_ne hdone⟩
    | again htrue hround _ ih =>
        obtain ⟨n, _, hn, rfl⟩ := h.follows htrue
        obtain ⟨m, _, hm, rfl⟩ := hbody.follows hround
        obtain ⟨m', r, hm', hr⟩ := ih
        obtain ⟨k, hk⟩ := hm.trans hm'
        obtain ⟨k', hk'⟩ := hn.trans (.truthy hi hk)
        exact ⟨k', r, hk', hr⟩
    | after hfalse hrun =>
        obtain ⟨n, _, hn, rfl⟩ := h.follows hfalse
        obtain ⟨m, r, hm, hr⟩ := hafter.follows hrun
        obtain ⟨k, hk⟩ := hn.trans (.falsey hi hm)
        exact ⟨k, r, hk, hr⟩
  only := by
    intro n
    -- the conditional jump is a step, so fewer steps are left for the rounds after the first one
    induction n using Nat.strongRecOn with
    | ind n ih =>
        intro os τ r hn
        rcases h.only hn with ⟨e, hdone, hinside, hr⟩ |
          ⟨os₁, τ₁, os₂, τ₂, k, rfl, rfl, hk, hcondition, hrest⟩
        · exact .inl ⟨e, hdone, .stop hinside hdone, hr.of_ne hdone⟩
        rcases hrest.of_test hi with ⟨rfl, rfl, rfl⟩ | ⟨m, hm, os', rfl, hround⟩ |
          ⟨m, hm, os', rfl, hleft⟩
        · simp only [List.append_nil]
          exact only_of_cut (.stop (h.cut hcondition) nofun)
        · rcases hbody.only hround with ⟨e, hdone, hinside, hr⟩ |
            ⟨os₃, τ₃, os₄, τ₄, j, rfl, rfl, hj, hbodyDone, hagain⟩
          · exact .inl ⟨e, hdone, .inside hcondition hinside hdone, hr.of_ne hdone⟩
          · rcases ih j (by omega) hagain with ⟨e, hdone, hmore, hr⟩ |
              ⟨os₅, τ₅, os₆, τ₆, l, rfl, rfl, hl, hmore, hrest⟩
            · exact .inl ⟨e, hdone, .again hcondition hbodyDone hmore, hr⟩
            · exact .inr ⟨os₁ ++ true :: (os₃ ++ os₅), τ₁ ++ (τ₃ ++ τ₅), os₆, τ₆, l, by simp, by simp,
                by omega, .again hcondition hbodyDone hmore, hrest⟩
        · rcases hafter.only hleft with ⟨e, hdone, hinside, hr⟩ |
            ⟨os₃, τ₃, os₄, τ₄, j, rfl, rfl, hj, hdone, hrest⟩
          · exact .inl ⟨e, hdone, .after hcondition hinside, hr⟩
          · exact .inr ⟨os₁ ++ false :: os₃, τ₁ ++ τ₃, os₄, τ₄, j, by simp, by simp, by omega,
              .after hcondition hdone, hrest⟩

end Tracks

end LoxCompiler
