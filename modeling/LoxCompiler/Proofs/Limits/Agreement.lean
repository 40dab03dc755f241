import LoxCompiler.Proofs.Limits.Cells
import LoxCompiler.Proofs.Run.Still

/-! # Agreement up to the limits

A step is run with cells of bytes and with cells of any size. The second run meets some numbers that
code has to hold, in some order, and it meets the same ones however many of them it may come to
before it is stopped. If all of them fit into bytes, the first run does the same with other cells.
Otherwise it reports a problem, and its oldest report is that of the first number that does not fit.
-/

set_option synthInstance.maxSize 4096

namespace LoxCompiler

variable {α α' γ γ' β : Type} {cell : Nat → β}

namespace Quantity

/-- Whether code of bytes has room for a number: one byte, or two of them for a distance. -/
def fits : Quantity → Bool
  | .constantIndex n | .slot n | .upvalueIndex n | .parameters n | .arguments n => n ≤ 255
  | .jump distance | .loop distance => distance ≤ 65535

/-- What is reported of a number that does not fit. -/
def problem : Quantity → Diagnostic.Problem
  | .constantIndex _ => .tooManyConstants
  | .slot _ => .tooManyLocals
  | .upvalueIndex _ => .tooManyUpvalues
  | .parameters _ => .tooManyParameters
  | .arguments _ => .tooManyArguments
  | .jump _ => .jumpTooLarge
  | .loop _ => .loopTooLarge

/-- What comes of a run that meets some numbers, and stops at the first that it may not come to. -/
def stopping (passes : Quantity → Bool) (qs : List Quantity) (result : Except Fault α) :
    Except Fault α :=
  match qs.find? (!passes ·) with
  | none => result
  | some q => .error (.refused q)

@[simp] theorem stopping_nil (passes : Quantity → Bool) (result : Except Fault α) :
    stopping passes [] result = result := rfl

theorem stopping_append (passes : Quantity → Bool) (qs qs' : List Quantity)
    (result : Except Fault α) :
    stopping passes (qs ++ qs') result = stopping passes qs (stopping passes qs' result) := by
  unfold stopping
  rw [List.find?_append]
  cases qs.find? (!passes ·) <;> rfl

theorem stopping_bind (passes : Quantity → Bool) (qs : List Quantity) (result : Except Fault α)
    (f : α → Except Fault γ) :
    (stopping passes qs result).bind f = stopping passes qs (result.bind f) := by
  unfold stopping
  cases qs.find? (!passes ·) <;> rfl

end Quantity

namespace Reader

/-- The oldest report is of some problem. -/
def Opens (problem : Diagnostic.Problem) (r : Reader) : Prop :=
  r.diagnostics.getLast?.map Diagnostic.problem = some problem

theorem stable_opens (problem : Diagnostic.Problem) : Stable (Opens problem) := by
  refine .of_report (fun r later h => ?_) (fun _ h => h) fun _ _ _ _ h => h
  obtain ⟨d, hd, hproblem⟩ := Option.map_eq_some_iff.mp h
  exact Option.map_eq_some_iff.mpr ⟨d, (Stable.first d).report r later hd, hproblem⟩

/-- Without an error there are no reports. -/
def Blank (r : Reader) : Prop := r.hadError = false → r.diagnostics = []

theorem stable_blank : Stable Blank := by
  refine .of_report (fun r d h => ?_) (fun _ h => h) fun _ _ _ _ h => h
  unfold report
  split
  · exact h
  · exact nofun

/-- The first report is the oldest one. -/
theorem opens_report {r : Reader} (hr : r.Quiet) (hblank : r.Blank) (d : Diagnostic) :
    (r.report d).Opens d.problem := by
  unfold report Opens
  rw [if_neg (Bool.eq_false_iff.mp hr.noPanic), hblank hr.noError]
  rfl

end Reader

/-- Code with the limits of bytes, with any kind of cells. -/
abbrev Width.bounded (cell : Nat → β) : Width β := ⟨cell, .byte⟩

/-- Code of some width that stops at the first number that it may not come to. -/
abbrev Width.within (w : Width β) (passes : Quantity → Bool) : Settings β :=
  ⟨w, none, passes⟩

namespace Compile

/-- Steps within the limits of bytes, with any kind of cells. -/
abbrev Limited (cell : Nat → β) : Type → Type := Compile (Width.bounded cell).settings

/-- A step with cells of any size, whichever numbers it may come to. -/
abbrev Watched (α : Type) : Type := ∀ passes, Compile (Width.unbounded.within passes) α

/-- A run meets some numbers in some order, and stops at the first that it may not come to. -/
def Measures (m' : Watched α) (s : Session Nat) (a : α) (t : Session Nat) (qs : List Quantity) :
    Prop :=
  ∀ passes, (m' passes).run s = Quantity.stopping passes qs (.ok (a, t))

/-- A step that meets certain numbers in each of its runs. -/
class Measuring (m' : Watched α) : Prop where
  exists_measures : ∀ {s a t}, (m' fun _ => true).run s = .ok (a, t) → ∃ qs, Measures m' s a t qs

/-- What a run with bytes comes to where the run with cells of any size meets some numbers. -/
def Fitting (cell : Nat → β) (R : α' → α → Prop) (qs : List Quantity) (a : α) (t : Session Nat)
    (b : α') (u : Session β) : Prop :=
  match qs.find? (!·.fits) with
  | none => R b a ∧ u = t.mapCells cell
  | some q => u.reader.Opens q.problem

/-- From clean states, two steps do the same with related answers if all numbers fit. -/
structure Agrees (R : α' → α → Prop) (m : Limited cell α') (m' : Watched α) :
    Prop where
  measuring : Measuring m'
  fitting : ∀ {s a t qs b u}, Cleanly (m' fun _ => true) s a t → s.reader.Blank →
    Measures m' s a t qs → m.run (s.mapCells cell) = .ok (b, u) → Fitting cell R qs a t b u

/-- Two steps that agree and give the same answers. -/
class Agreeing (m : Limited cell α) (m' : Watched α) : Prop where
  agrees : Agrees Eq m m'

/-- A step that reports a problem, and no other one before it. -/
def Reports (problem : Diagnostic.Problem) (m : Limited cell α) : Prop :=
  ∀ ⦃s b u⦄, s.reader.Quiet → s.reader.Blank → m.run s = .ok (b, u) → u.reader.Opens problem

variable {R : α' → α → Prop} {S : γ' → γ → Prop} {m : Limited cell α'}
  {m' : Watched α} {k : α' → Limited cell γ'}
  {k' : ∀ passes, α → Compile (Width.unbounded.within passes) γ} {s t : Session Nat} {a : α}
  {qs qs' : List Quantity} {b : α'} {u : Session β} {quantity : Quantity}
  {problem : Diagnostic.Problem}

/-! ## The numbers of a run -/

/-- A run that may come to all numbers is not stopped. -/
theorem Measures.run (h : Measures m' s a t qs) : (m' fun _ => true).run s = .ok (a, t) := by
  have hnone : qs.find? (fun _ => !true) = none := List.find?_eq_none.mpr fun _ _ => nofun
  rw [h fun _ => true, Quantity.stopping, hnone]

theorem Measures.find?_eq (h : Measures m' s a t qs) (h' : Measures m' s a t qs') :
    qs.find? (!·.fits) = qs'.find? (!·.fits) := by
  have heq := (h Quantity.fits).symm.trans (h' Quantity.fits)
  unfold Quantity.stopping at heq
  cases hqs : qs.find? (!·.fits) <;> cases hqs' : qs'.find? (!·.fits) <;> rw [hqs, hqs'] at heq
  all_goals cases heq
  all_goals rfl

theorem Fitting.congr (hfitting : Fitting cell R qs a t b u) (h : Measures m' s a t qs)
    (h' : Measures m' s a t qs') : Fitting cell R qs' a t b u := by
  unfold Fitting at hfitting ⊢
  rw [← h.find?_eq h']
  exact hfitting

theorem Measures.bind {v : Session Nat} {c : γ} (hm : Measures m' s a t qs)
    (hk : Measures (fun passes => k' passes a) t c v qs') :
    Measures (fun passes => m' passes >>= k' passes) s c v (qs ++ qs') := by
  intro passes
  rw [run_bind, hm passes, Quantity.stopping_bind, Quantity.stopping_append]
  exact congrArg _ (hk passes)

/-- A step that notes no number. -/
theorem measuring_of_run_eq (h : ∀ passes s, (m' passes).run s = (m' fun _ => true).run s) :
    Measuring m' where
  exists_measures hrun := ⟨[], fun passes => (h passes _).trans hrun⟩

instance (a : α) : Measuring fun passes => (pure a : Compile (Width.unbounded.within passes) α) :=
  measuring_of_run_eq fun _ _ => rfl

instance (m' : Watched α) (k' : ∀ passes, α → Compile (Width.unbounded.within passes) γ)
    [hm : Measuring m'] [hk : ∀ a, Measuring fun passes => k' passes a] :
    Measuring fun passes => m' passes >>= k' passes where
  exists_measures {s c v} h := by
    obtain ⟨a, t, hfirst, hrest⟩ := ok_of_run_bind h
    obtain ⟨qs, hqs⟩ := hm.exists_measures hfirst
    obtain ⟨qs', hqs'⟩ := (hk a).exists_measures hrest
    exact ⟨qs ++ qs', hqs.bind hqs'⟩

instance {p : Prop} [Decidable p] (m' n' : Watched α) [Measuring m'] [Measuring n'] :
    Measuring fun passes => if p then m' passes else n' passes := by
  split <;> assumption

theorem measures_measure (quantity : Quantity) (s : Session Nat) :
    Measures (fun _ => measure quantity) s () s [quantity] := by
  intro passes
  unfold run measure Quantity.stopping
  by_cases hpasses : passes quantity = true <;> simp [hpasses]

instance (quantity : Quantity) : Measuring fun passes =>
    (measure quantity : Compile (Width.unbounded.within passes) Unit) where
  exists_measures h := by
    cases h
    exact ⟨[quantity], measures_measure quantity _⟩

instance (fault : Fault) : Measuring fun passes =>
    (throw fault : Compile (Width.unbounded.within passes) α) :=
  measuring_of_run_eq fun _ _ => rfl

/-! ## Agreement -/

/-- A step that notes no number. -/
theorem agrees_of_run_eq (hrun : ∀ passes s, (m' passes).run s = (m' fun _ => true).run s)
    (h : ∀ {s a t b u}, Cleanly (m' fun _ => true) s a t → m.run (s.mapCells cell) = .ok (b, u) →
      R b a ∧ u = t.mapCells cell) : Agrees R m m' where
  measuring := measuring_of_run_eq hrun
  fitting {s a t qs b u} hclean _ hqs hm := by
    have hnone : Measures m' s a t [] := fun passes => (hrun passes s).trans hclean.run
    have hfitting : Fitting cell R [] a t b u := h hclean hm
    exact hfitting.congr hnone hqs

/-- What follows a step may depend on both answers. -/
theorem Agrees.bind [hb : ∀ b, Orderly (k b)] [hm' : Orderly (m' fun _ => true)]
    [hk' : ∀ a, Orderly (k' (fun _ => true) a)] (hm : Agrees R m m')
    (hmeasuring : ∀ a, Measuring fun passes => k' passes a)
    (hk : ∀ b a, R b a → Agrees S (k b) fun passes => k' passes a) :
    Agrees S (m >>= k) fun passes => m' passes >>= k' passes where
  measuring :=
    have := hm.measuring
    inferInstance
  fitting {s c v qs d w} hclean hblank hqs hrun := by
    obtain ⟨a, t, hfirst, hrest⟩ := hclean.of_bind
    obtain ⟨qs₁, hqs₁⟩ := hm.measuring.exists_measures hfirst.run
    obtain ⟨qs₂, hqs₂⟩ := (hmeasuring a).exists_measures hrest.run
    refine Fitting.congr ?_ (hqs₁.bind hqs₂) hqs
    obtain ⟨b, u, hb, hrun⟩ := ok_of_run_bind hrun
    have hstart := hm.fitting hfirst hblank hqs₁ hb
    unfold Fitting at hstart ⊢
    rw [List.find?_append]
    cases hfind : qs₁.find? (!·.fits) with
    | none =>
        rw [hfind] at hstart
        obtain ⟨hR, rfl⟩ := hstart
        have hstill := hm'.keeps Reader.stable_blank hfirst.run hblank
        exact (hk b a hR).fitting hrest hstill hqs₂ hrun
    | some q =>
        rw [hfind] at hstart
        exact Orderly.keeps (Reader.stable_opens _) hrun hstart

/-- A number is noted. Where it does not fit, a problem is reported. -/
theorem agrees_measure {k : Unit → Limited cell α'}
    {k' : ∀ passes, Unit → Compile (Width.unbounded.within passes) α}
    (hmeasuring : Measuring fun passes => k' passes ())
    (hfits : quantity.fits = true → Agrees R (k ()) fun passes => k' passes ())
    (hnot : quantity.fits = false → Reports quantity.problem (k ())) :
    Agrees R (measure quantity >>= k) fun passes => measure quantity >>= k' passes where
  measuring := by
    have (a : Unit) : Measuring fun passes => k' passes a := hmeasuring
    infer_instance
  fitting {s a t qs b u} hclean hblank hqs hrun := by
    have hrest : Cleanly (k' (fun _ => true) ()) s a t := ⟨hclean.before, hclean.run, hclean.after⟩
    obtain ⟨qs', hqs'⟩ := hmeasuring.exists_measures hrest.run
    have hall : Measures (fun passes => measure quantity >>= k' passes) s a t (quantity :: qs') :=
      (measures_measure quantity s).bind hqs'
    refine Fitting.congr ?_ hall hqs
    unfold Fitting
    cases hq : quantity.fits with
    | true =>
        rw [List.find?_cons_of_neg (by simp [hq])]
        exact (hfits hq).fitting hrest hblank hqs' hrun
    | false =>
        rw [List.find?_cons_of_pos (by simp [hq])]
        exact hnot hq hclean.before hblank hrun

theorem Agrees.mono {R' : α' → α → Prop} (h : Agrees R m m') (hR : ∀ b a, R b a → R' b a) :
    Agrees R' m m' where
  measuring := h.measuring
  fitting {s a t qs b u} hclean hblank hqs hrun := by
    have hfitting := h.fitting hclean hblank hqs hrun
    unfold Fitting at hfitting ⊢
    split
    · rename_i hfind
      rw [hfind] at hfitting
      exact hfitting.imp_left (hR b a)
    · rename_i q hfind
      rw [hfind] at hfitting
      exact hfitting

end Compile

end LoxCompiler
