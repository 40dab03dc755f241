import LoxCompiler.Proofs.Simulation.Draft

/-! # What drafts describe

How the parts of a described frame look up, mark and drop locals, and what a larger plan that is
within the limits says about a smaller one.
-/

namespace LoxCompiler

/-! ## Limits -/

theorem Limits.admits_of_le {limit : Option Nat} {n m : Nat} (h : n ≤ m)
    (hm : Limits.admits limit m = true) : Limits.admits limit n = true := by
  cases limit with
  | none => rfl
  | some limit =>
      simp only [Limits.admits, decide_eq_true_eq] at hm ⊢
      omega

theorem Limits.clamp_of_admits {limit : Option Nat} {n : Nat} (h : Limits.admits limit n = true) :
    Limits.clamp limit n = n := by
  cases limit with
  | none => rfl
  | some limit =>
      simp only [Limits.admits, decide_eq_true_eq] at h
      exact Nat.min_eq_left h

theorem Plan.fits_iff {limits : Limits} {p : Plan} : p.Fits limits ↔
    Limits.admits limits.parameters p.arity = true ∧
      Limits.admits limits.upvalues p.captures.length = true ∧
      (∀ step ∈ p.code, step.Fits limits) ∧
      Limits.admits limits.constantIndex (p.constants.length - 1) = true ∧
      Limits.admits limits.locals p.slots = true ∧ ∀ item ∈ p.constants, item.Fits limits := by
  cases p
  simp only [Plan.Fits, Item.fitsEach_iff]

/-- A plan that is no larger than one within the limits is within the limits. -/
theorem Plan.Fits.of_le {limits : Limits} {p q : Plan} (h : q.Fits limits)
    (arity : p.arity ≤ q.arity) (captures : p.captures.length ≤ q.captures.length)
    (code : ∀ step ∈ p.code, step ∈ q.code ∨ step.Fits limits)
    (constants : p.constants <+: q.constants) (slots : p.slots ≤ q.slots) : p.Fits limits := by
  rw [Plan.fits_iff] at h ⊢
  obtain ⟨harity, hcaptures, hcode, hcount, hslots, hconstants⟩ := h
  refine ⟨Limits.admits_of_le arity harity, Limits.admits_of_le captures hcaptures, ?_,
    Limits.admits_of_le ?_ hcount, Limits.admits_of_le slots hslots, ?_⟩
  · intro step hstep
    rcases code step hstep with hmem | hfits
    · exact hcode step hmem
    · exact hfits
  · have := constants.length_le
    omega
  · intro item hitem
    exact hconstants item (constants.subset hitem)

/-! ## Locals of frames -/

section Locals

variable {level : Nat} {uses : List Variable}

theorem Local.length_ofDepths (ds : List (Symbol × Nat)) :
    (Local.ofDepths level uses ds).length = ds.length := by
  induction ds with
  | nil => rfl
  | cons d ds ih => simp [Local.ofDepths, ih]

/-- The newest local of a name is in the slot that the names alone say. -/
theorem Local.find?_ofDepths (name : Symbol) (ds : List (Symbol × Nat)) :
    (Local.find? name (Local.ofDepths level uses ds)).map (fun p => (p.1, p.2.depth.isSome)) =
      (slot? name (ds.map Prod.fst)).map fun slot => (slot, true) := by
  induction ds with
  | nil => rfl
  | cons d ds ih =>
      simp only [Local.ofDepths, Local.find?, List.map_cons, slot?, Local.length_ofDepths,
        List.length_map]
      split
      · rfl
      · exact ih

theorem Local.ofDepths_congr {uses' : List Variable} {ds : List (Symbol × Nat)}
    (h : ∀ slot < ds.length, (⟨level, slot⟩ : Variable) ∈ uses ↔ ⟨level, slot⟩ ∈ uses') :
    Local.ofDepths level uses ds = Local.ofDepths level uses' ds := by
  induction ds with
  | nil => rfl
  | cons d ds ih =>
      simp only [Local.ofDepths, List.cons.injEq]
      refine ⟨by simp [h ds.length (by simp)], ih fun slot hslot => h slot ?_⟩
      simp only [List.length_cons]
      omega

/-- Marking the newest local of a name is the same as one more use of its slot. -/
theorem Local.capture_ofDepths {name : Symbol} {ds : List (Symbol × Nat)} {slot : Nat}
    (h : slot? name (ds.map Prod.fst) = some slot) :
    Local.capture name (Local.ofDepths level uses ds) =
      Local.ofDepths level (uses ++ [⟨level, slot⟩]) ds := by
  induction ds with
  | nil => cases h
  | cons d ds ih =>
      simp only [List.map_cons, slot?, List.length_map] at h
      simp only [Local.ofDepths, Local.capture]
      split at h
      · rename_i hname
        cases h
        have hsame : Local.ofDepths level uses ds =
            Local.ofDepths level (uses ++ [⟨level, ds.length⟩]) ds := by
          apply Local.ofDepths_congr
          intro slot hslot
          have : slot ≠ ds.length := by omega
          simp [this]
        rw [if_pos hname, hsame]
        simp
      · rename_i hname
        have hlt := slot?_lt h
        rw [List.length_map] at hlt
        have : ds.length ≠ slot := by omega
        rw [if_neg hname, ih h]
        simp [this]

end Locals

/-! ## Scopes of frames -/

theorem map_fst_depths (scopes : List (List Symbol)) :
    (depths scopes).map Prod.fst = scopes.flatten := by
  induction scopes with
  | nil => rfl
  | cons scope outer ih =>
      simp only [depths, List.map_append, List.map_map, ih, List.flatten_cons]
      congr 1
      simp [Function.comp_def]

theorem Draft.map_fst_depths (d : Draft) : d.depths.map Prod.fst = d.locals := by
  simp [Draft.depths, Draft.locals, LoxCompiler.map_fst_depths]

theorem Draft.length_depths (d : Draft) : d.depths.length = d.locals.length := by
  rw [← d.map_fst_depths, List.length_map]

theorem le_of_mem_depths {scopes : List (List Symbol)} {p : Symbol × Nat}
    (h : p ∈ depths scopes) : p.2 ≤ scopes.length := by
  induction scopes with
  | nil => cases h
  | cons scope outer ih =>
      rw [depths, List.mem_append] at h
      rcases h with h | h
      · obtain ⟨_, _, rfl⟩ := List.mem_map.mp h
        simp
      · have := ih h
        simp only [List.length_cons]
        omega

section Inside

open Compile (dropInstruction)

variable {level depth : Nat} {uses : List Variable} {ds es : List (Symbol × Nat)}

theorem declaredWithin_ofDepths (hes : ∀ p ∈ es, p.2 < depth) :
    ∀ l ∈ Local.ofDepths level uses es, l.declaredWithin depth = false := by
  induction es with
  | nil => simp [Local.ofDepths]
  | cons e es ih =>
      have he := hes e (by simp)
      have hrest := ih fun p hp => hes p (by simp [hp])
      simp only [Local.ofDepths, List.mem_cons, forall_eq_or_imp]
      exact ⟨by simp [Local.declaredWithin, he], hrest⟩

theorem takeWhile_ofDepths (hes : ∀ p ∈ es, p.2 < depth) :
    (Local.ofDepths level uses es).takeWhile (Local.declaredWithin depth) = [] := by
  cases h : Local.ofDepths level uses es with
  | nil => rfl
  | cons l ls =>
      have hl : l.declaredWithin depth = false := declaredWithin_ofDepths hes l (h ▸ List.mem_cons_self)
      simp [hl]

theorem dropWhile_ofDepths_self (hes : ∀ p ∈ es, p.2 < depth) :
    (Local.ofDepths level uses es).dropWhile (Local.declaredWithin depth) =
      Local.ofDepths level uses es := by
  cases h : Local.ofDepths level uses es with
  | nil => rfl
  | cons l ls =>
      have hl : l.declaredWithin depth = false := declaredWithin_ofDepths hes l (h ▸ List.mem_cons_self)
      simp [hl]

variable (hds : ∀ p ∈ ds, depth ≤ p.2) (hes : ∀ p ∈ es, p.2 < depth)
include hds hes

/-- What is left of the locals when those of a scope are dropped. -/
theorem Local.dropWhile_ofDepths :
    (Local.ofDepths level uses (ds ++ es)).dropWhile (Local.declaredWithin depth) =
      Local.ofDepths level uses es := by
  induction ds with
  | nil => exact dropWhile_ofDepths_self hes
  | cons d ds ih =>
      have hd : depth ≤ d.2 := hds d (by simp)
      have hrest := ih fun p hp => hds p (by simp [hp])
      simpa [Local.ofDepths, List.dropWhile_cons, Local.declaredWithin, hd] using hrest

/-- The names of the locals of a scope. -/
theorem Local.names_takeWhile_ofDepths (level : Nat) (uses : List Variable) :
    ((Local.ofDepths level uses (ds ++ es)).takeWhile (Local.declaredWithin depth)).map
      Local.name = ds.map Prod.fst := by
  induction ds with
  | nil => simp [takeWhile_ofDepths hes]
  | cons d ds ih =>
      have hd : depth ≤ d.2 := hds d (by simp)
      have hrest := ih fun p hp => hds p (by simp [hp])
      simpa [Local.ofDepths, List.takeWhile_cons, Local.declaredWithin, hd] using hrest

/-- The instructions that drop the locals of a scope. -/
theorem Local.drops_takeWhile_ofDepths (level : Nat) (uses : List Variable) :
    ((Local.ofDepths level uses (ds ++ es)).takeWhile (Local.declaredWithin depth)).map
        (fun l => Step.simple (dropInstruction l)) =
      Piece.dropSteps level es.length uses ds.length := by
  induction ds with
  | nil => simp [takeWhile_ofDepths hes, Piece.dropSteps]
  | cons d ds ih =>
      have hd : depth ≤ d.2 := hds d (by simp)
      have hrest := ih fun p hp => hds p (by simp [hp])
      have hslot : ds.length + es.length = es.length + ds.length := Nat.add_comm _ _
      simpa [Local.ofDepths, List.takeWhile_cons, Local.declaredWithin, hd, Piece.dropSteps,
        Piece.dropStep, dropInstruction, hslot] using hrest

end Inside

/-! ## Jumps that lead nowhere yet -/

theorem pendingOperands_append (offset : Nat) (code more : List Step) :
    pendingOperands offset (code ++ more) =
      pendingOperands offset code ++ pendingOperands (offset + totalSize code) more := by
  induction code generalizing offset with
  | nil => simp [pendingOperands]
  | cons step code ih =>
      have hsize : offset + totalSize (step :: code) = offset + step.size + totalSize code := by
        rw [totalSize_cons, Nat.add_assoc]
      rw [hsize]
      cases step <;> simp only [List.cons_append, pendingOperands, ih]

theorem pendingOperands_eq_nil {code : List Step} (h : ∀ step ∈ code, ∀ op, step ≠ .pending op)
    (offset : Nat) : pendingOperands offset code = [] := by
  induction code generalizing offset with
  | nil => rfl
  | cons step code ih =>
      have hrest := ih fun s hs => h s (by simp [hs])
      cases step with
      | pending op => exact (h _ (by simp) op rfl).elim
      | _ => exact hrest _

theorem bounds_of_mem_pendingOperands {offset operand : Nat} {code : List Step}
    (h : operand ∈ pendingOperands offset code) :
    offset < operand ∧ operand < offset + totalSize code := by
  induction code generalizing offset with
  | nil => cases h
  | cons step code ih =>
      have hpos := step.size_pos
      rw [totalSize_cons]
      cases step with
      | pending op =>
          rcases List.mem_cons.mp h with rfl | h
          · simp only [Step.size]
            omega
          · have := ih h
            omega
      | _ =>
          have := ih h
          omega

/-! ## Stacks of drafts -/

theorem Draft.Each.of_append {P : Nat → List Variable → Draft → Prop}
    (hP : ∀ {level uses more d}, P level (uses ++ more) d → P level uses d)
    {inner more : List Variable} {ds : List Draft} (h : Draft.Each P (inner ++ more) ds) :
    Draft.Each P inner ds := by
  induction ds generalizing inner more with
  | nil => trivial
  | cons d ds ih =>
      simp only [Draft.Each, Draft.allUses, ← List.append_assoc, exported_append] at h ⊢
      exact ⟨hP h.1, ih (by simpa using h.2)⟩

theorem Draft.Fits.of_uses {limits : Limits} {level : Nat} {uses more : List Variable} {d : Draft}
    (h : d.Fits limits level (uses ++ more)) : d.Fits limits level uses :=
  Plan.Fits.of_le h (Nat.le_refl _) (prefix_captureAll level uses more).length_le
    (fun _ hstep => .inl hstep) (List.prefix_refl _) (Nat.le_refl _)

namespace Drafts

variable {limits : Limits} {D : Drafts} {F : Fragment}

theorem exports_emit : (D.emit F).exports = D.exports ++ exported D.level (F D.constantCount).uses :=
  exported_append ..

section Change

variable {g : Draft → Draft} (huses : exported D.level (g D.current).piece.uses = D.exports)
include huses

theorem valid_change : (D.change g).Valid ↔
    (g D.current).Valid D.level (g D.current).piece.uses ∧
      Draft.Each Draft.Valid D.exports D.outer ∧ ∀ d ∈ D.outer, d.fresh = none := by
  rw [valid_iff, show (D.change g).exports = D.exports from huses]
  rfl

theorem fits_change : (D.change g).Fits limits ↔
    (g D.current).Fits limits D.level (g D.current).piece.uses ∧
      Draft.Each (Draft.Fits limits) D.exports D.outer := by
  rw [fits_iff, show (D.change g).exports = D.exports from huses]
  rfl

end Change

/-- What is within the limits with more code is so without it. -/
theorem fits_of_emit (h : (D.emit F).Fits limits) : D.Fits limits := by
  rw [fits_iff] at h ⊢
  obtain ⟨hcurrent, houter⟩ := h
  rw [uses_emit] at hcurrent
  rw [exports_emit] at houter
  refine ⟨?_, houter.of_append fun hd => hd.of_uses⟩
  exact Plan.Fits.of_le hcurrent.of_uses (Nat.le_refl _) (Nat.le_refl _)
    (fun step hstep => .inl (List.mem_append_left _ hstep)) (List.prefix_append _ _)
    (Nat.le_max_left _ _)

/-- A step of a function that is within the limits is so. -/
theorem fits_of_mem {step : Step} (h : D.Fits limits)
    (hmem : step ∈ D.current.piece.code) : step.Fits limits :=
  (Plan.fits_iff.mp ((Drafts.fits_iff _).mp h).1).2.2.1 _ hmem

/-- Code that captures nothing more and is within the limits leaves all functions so. -/
theorem fits_emit (huses : (F D.constantCount).uses = []) (h : D.Fits limits)
    (hcode : ∀ step ∈ (F D.constantCount).code, step.Fits limits)
    (hitems : ∀ item ∈ (F D.constantCount).constants, item.Fits limits)
    (hcount : (F D.constantCount).constants = [] ∨ Limits.admits limits.constantIndex
      (D.constantCount + (F D.constantCount).constants.length - 1) = true)
    (hslots : Limits.admits limits.locals (F D.constantCount).slots = true) :
    (D.emit F).Fits limits := by
  rw [fits_iff] at h ⊢
  obtain ⟨hcurrent, houter⟩ := h
  rw [uses_emit, exports_emit, huses, List.append_nil, exported_nil, List.append_nil]
  refine ⟨?_, houter⟩
  unfold Draft.Fits at hcurrent ⊢
  rw [Plan.fits_iff] at hcurrent ⊢
  obtain ⟨harity, hcaptures, hsteps, hindex, hlocals, hconstants⟩ := hcurrent
  refine ⟨harity, hcaptures, ?_, ?_, ?_, ?_⟩
  · intro step hstep
    rcases List.mem_append.mp hstep with hstep | hstep
    · exact hsteps step hstep
    · exact hcode step hstep
  · have hlength : ((D.emit F).current.plan D.level D.uses).constants.length =
        D.constantCount + (F D.constantCount).constants.length := List.length_append
    rw [level_emit, hlength]
    rcases hcount with hnone | hcount
    · rw [hnone]
      exact hindex
    · exact hcount
  · rcases Nat.le_total D.current.piece.slots (F D.constantCount).slots with hle | hle
    · rw [show ((D.emit F).current.plan _ _).slots = _ from Nat.max_eq_right hle]
      exact hslots
    · rw [show ((D.emit F).current.plan _ _).slots = _ from Nat.max_eq_left hle]
      exact hlocals
  · intro item hitem
    rcases List.mem_append.mp hitem with hitem | hitem
    · exact hconstants item hitem
    · exact hitems item hitem

/-- Code that refers to known variables only leaves everything known. -/
theorem valid_emit (huses : (F D.constantCount).uses = []) (h : D.Valid)
    (hknown : ∀ step ∈ (F D.constantCount).code, step.Known D.level D.captures) :
    (D.emit F).Valid := by
  rw [valid_iff] at h ⊢
  obtain ⟨hcurrent, houter, hready⟩ := h
  rw [uses_emit, exports_emit, huses, List.append_nil, exported_nil, List.append_nil]
  refine ⟨⟨hcurrent.live, ?_⟩, houter, hready⟩
  intro step hstep
  rcases List.mem_append.mp hstep with hstep | hstep
  · exact hcurrent.known step hstep
  · exact hknown step hstep

end Drafts

section Change

variable {β : Type} {w : Width β} {D : Drafts} {g : Draft → Draft} {s t : Session β} {f : Frame β}
  {frames : Frames β}

/-- A change of the innermost function that leaves the same uses to the others. -/
theorem Drafts.Describes.change (hs : D.Describes w s) (hframes : s.frames = f :: frames)
    (huses : exported D.level (g D.current).piece.uses = D.exports) {f' : Frame β}
    (hf : D.current.Describes w D.level D.around D.uses f →
      (g D.current).Describes w D.level D.around (g D.current).piece.uses f')
    (hnames : t.names = s.names) (hclasses : t.classes = s.classes)
    (ht : t.frames = f' :: frames) : (D.change g).Describes w t := by
  rw [Drafts.describes_iff] at hs ⊢
  obtain ⟨hn, hc, f₀, frames₀, hs, hcurrent, houter⟩ := hs
  rw [hframes] at hs
  cases hs
  have hexports : (D.change g).exports = D.exports := huses
  have haround : (D.change g).around = D.around := by
    unfold Drafts.around
    rw [hexports]
    rfl
  refine ⟨hnames.trans hn, hclasses.trans hc, f', frames, ht, ?_, ?_⟩
  · rw [haround]
    exact hf hcurrent
  · rw [hexports]
    exact houter

end Change

end LoxCompiler
