import LoxCompiler.Proofs.Run.Takes
import LoxCompiler.Proofs.Simulation.Description

/-! # Specifications of steps

A step of the compiler meets a specification if it takes given tokens, turns a state that some
drafts describe into one that other drafts describe, and does so without a report exactly if a
condition holds and the new drafts are within the limits. So one specification says both what
is accepted and what it compiles to.
-/

namespace LoxCompiler

namespace Compile

variable {β : Type} {w : Width β} {α γ : Type}

/-- A step meets a specification. -/
structure Meets (D : Drafts) (ts : List Kind) (m : Compile w.settings α) (v : α) (P : Prop)
    (D' : Drafts) : Prop where
  valid : D.Valid → P → D'.Fits w.limits → D'.Valid
  fits : P → D'.Fits w.limits → D.Fits w.limits
  sound : ∀ {s a t}, D.Valid → D.Fits w.limits → D.Describes w s → Cleanly m s a t →
    a = v ∧ P ∧ D'.Fits w.limits ∧ s.reader.Takes ts t.reader ∧ D'.Describes w t
  complete : ∀ {s r}, D.Valid → D.Describes w s → s.reader.Takes ts r → P →
    D'.Fits w.limits → ∃ a t, Cleanly m s a t

namespace Meets

variable {D D₁ D₂ D' : Drafts} {ts us : List Kind} {m : Compile w.settings α}
  {k : α → Compile w.settings γ} {v : α} {b : γ} {P Q : Prop}

/-- What is known of valid drafts may be used. -/
theorem of_valid (fits : P → D'.Fits w.limits → D.Fits w.limits)
    (h : D.Valid → Meets D ts m v P D') : Meets D ts m v P D' where
  valid hv := (h hv).valid hv
  fits := fits
  sound hv := (h hv).sound hv
  complete hv := (h hv).complete hv

/-- Another way to put the condition. -/
theorem congr (h : Meets D ts m v P D') (hPQ : D'.Fits w.limits → (P ↔ Q)) :
    Meets D ts m v Q D' where
  valid hv q hfits := h.valid hv ((hPQ hfits).mpr q) hfits
  fits q hfits := h.fits ((hPQ hfits).mpr q) hfits
  sound hv hfits hs hm := by
    obtain ⟨ha, hp, hrest⟩ := h.sound hv hfits hs hm
    exact ⟨ha, (hPQ hrest.1).mp hp, hrest⟩
  complete hv hs htakes q hfits := h.complete hv hs htakes ((hPQ hfits).mpr q) hfits

/-- One step after the other. -/
theorem bind [Orderly m] [∀ a, Orderly (k a)] (hm : Meets D ts m v P D₁)
    (hk : P → Meets D₁ us (k v) b Q D₂) : Meets D (ts ++ us) (m >>= k) b (P ∧ Q) D₂ where
  valid hv h hfits :=
    (hk h.1).valid (hm.valid hv h.1 ((hk h.1).fits h.2 hfits)) h.2 hfits
  fits h hfits := hm.fits h.1 ((hk h.1).fits h.2 hfits)
  sound hv hfits hs h := by
    obtain ⟨a, u, hfirst, hrest⟩ := h.of_bind
    obtain ⟨rfl, hP, hfits₁, htakes, hu⟩ := hm.sound hv hfits hs hfirst
    obtain ⟨hb, hQ, hfits₂, htakes', ht⟩ :=
      (hk hP).sound (hm.valid hv hP hfits₁) hfits₁ hu hrest
    exact ⟨hb, ⟨hP, hQ⟩, hfits₂, Reader.takes_append.mpr ⟨_, htakes, htakes'⟩, ht⟩
  complete {s r} hv hs htakes h hfits := by
    obtain ⟨hP, hQ⟩ := h
    obtain ⟨q, htakes, htakes'⟩ := Reader.takes_append.mp htakes
    have hfits₁ : D₁.Fits w.limits := (hk hP).fits hQ hfits
    obtain ⟨a, u, hfirst⟩ := hm.complete hv hs htakes hP hfits₁
    obtain ⟨rfl, _, _, htaken, hu⟩ := hm.sound hv (hm.fits hP hfits₁) hs hfirst
    obtain rfl := htakes.unique htaken
    obtain ⟨b', t, hrest⟩ := (hk hP).complete (hm.valid hv hP hfits₁) hu htakes' hQ hfits
    exact ⟨b', t, hfirst.bind hrest⟩

/-- A step without a condition, and another one after it. -/
theorem next [Orderly m] [∀ a, Orderly (k a)] (hm : Meets D ts m v True D₁)
    (hk : Meets D₁ us (k v) b Q D₂) : Meets D (ts ++ us) (m >>= k) b Q D₂ :=
  (hm.bind fun _ => hk).congr fun _ => by simp

/-- The last step has no condition. -/
theorem last [Orderly m] [∀ a, Orderly (k a)] (hm : Meets D ts m v P D₁)
    (hk : P → Meets D₁ us (k v) b True D₂) : Meets D (ts ++ us) (m >>= k) b P D₂ :=
  (hm.bind hk).congr fun _ => by simp

protected theorem pure : Meets D [] (pure v : Compile w.settings α) v True D where
  valid hv _ _ := hv
  fits _ hfits := hfits
  sound _ hfits hs h := by
    obtain ⟨hquiet, rfl, rfl⟩ := cleanly_pure.mp h
    exact ⟨rfl, trivial, hfits, ⟨hquiet, rfl⟩, hs⟩
  complete _ _ htakes _ _ := ⟨v, _, cleanly_pure.mpr ⟨htakes.quiet, rfl, rfl⟩⟩

/-- A token is taken. -/
protected theorem expect (kind : Kind) :
    Meets D [kind] (expect kind : Compile w.settings Unit) () True D where
  valid hv _ _ := hv
  fits _ hfits := hfits
  sound _ hfits hs h := by
    obtain ⟨hkind, hadvance⟩ := cleanly_expect.mp h
    obtain ⟨hquiet, rfl, hlast⟩ := cleanly_advance.mp hadvance
    exact ⟨rfl, trivial, hfits, ⟨hquiet, hkind, hlast, rfl⟩, ⟨hs.names, hs.classes, hs.frames⟩⟩
  complete _ _ htakes _ _ :=
    ⟨(), _, cleanly_expect.mpr ⟨htakes.2.1,
      cleanly_advance.mpr ⟨htakes.1, rfl, htakes.2.2.1⟩⟩⟩

/-- The last step takes no token and has no condition. -/
theorem finish [Orderly m] [∀ a, Orderly (k a)] (hm : Meets D ts m v P D₁)
    (hk : P → Meets D₁ [] (k v) b True D₂) : Meets D ts (m >>= k) b P D₂ := by
  have h := hm.last hk
  rwa [List.append_nil] at h

/-- A step that takes no token and has no condition, and another one after it. -/
theorem silent [Orderly m] [∀ a, Orderly (k a)] (hm : Meets D [] m v True D₁)
    (hk : Meets D₁ us (k v) b Q D₂) : Meets D us (m >>= k) b Q D₂ :=
  hm.next hk

/-- A token, and a step after it. -/
theorem token {kind : Kind} {k : Compile w.settings γ} [Orderly k]
    (hk : Meets D us k b Q D₂) : Meets D (kind :: us) (Compile.expect kind >>= fun _ => k) b Q D₂ :=
  (Meets.expect kind).next hk

/-- A step that never runs without a report, where a condition fails. -/
theorem of_never (hP : ¬ P) (hm : ∀ s a t, D.Describes w s → ¬ Cleanly m s a t) :
    Meets D ts m v P D' where
  valid _ p := (hP p).elim
  fits p := (hP p).elim
  sound _ _ hs h := (hm _ _ _ hs h).elim
  complete _ _ _ p := (hP p).elim

/-- A problem that is reported if something is the case, and nothing else. -/
theorem check {c : Prop} [Decidable c] {problem : Diagnostic.Problem} :
    Meets D [] (if c then report problem else pure () : Compile w.settings Unit) () (¬ c) D := by
  by_cases hc : c
  · rw [if_pos hc]
    exact of_never (fun h => h hc) fun _ _ _ _ => not_cleanly_report
  · rw [if_neg hc]
    exact Meets.pure.congr fun _ => by simp [hc]

/-- What is read from the state is what the drafts say. -/
theorem read_bind {k : Session β → Compile w.settings α} {l : Compile w.settings α}
    (hk : ∀ s, D.Describes w s → k s = l) (h : Meets D ts l v P D') :
    Meets D ts (read >>= k) v P D' where
  valid := h.valid
  fits := h.fits
  sound hv hfits hs hm := by
    rw [cleanly_read_bind, hk _ hs] at hm
    exact h.sound hv hfits hs hm
  complete hv hs htakes hP hfits := by
    obtain ⟨a, t, hm⟩ := h.complete hv hs htakes hP hfits
    refine ⟨a, t, ?_⟩
    rw [cleanly_read_bind, hk _ hs]
    exact hm

/-- A problem that is reported if something is the case. -/
theorem guard {c : Prop} [Decidable c] {r : Compile w.settings Unit} [Orderly r]
    (hr : ∀ {s t}, ¬ Cleanly r s () t) {k : Compile w.settings α} [Orderly k]
    (h : ¬ c → Meets D ts k v P D') :
    Meets D ts (if c then r >>= fun _ => k else k) v (¬ c ∧ P) D' := by
  by_cases hc : c
  · rw [if_pos hc]
    apply of_never (fun h => h.1 hc)
    intro s a t _ hm
    obtain ⟨_, _, hreport, _⟩ := hm.of_bind
    exact hr hreport
  · rw [if_neg hc]
    exact (h hc).congr fun _ => by simp [hc]

/-- A step that either does what the drafts say, or reports something. -/
theorem of_run (valid : D.Valid → P → D'.Valid)
    (fits : P → D'.Fits w.limits → D.Fits w.limits)
    (hrun : ∀ {s}, D.Valid → D.Fits w.limits → D.Describes w s →
      (P ∧ D'.Fits w.limits ∧ ∃ t, m.run s = .ok (v, t) ∧ t.reader = s.reader ∧
        D'.Describes w t) ∨
      (¬ (P ∧ D'.Fits w.limits) ∧ ∀ a t, ¬ Cleanly m s a t)) : Meets D [] m v P D' where
  valid hv p _ := valid hv p
  fits := fits
  sound hv hfits hs hm := by
    rcases hrun hv hfits hs with ⟨hP, hfits', t, ht, hreader, hs'⟩ | ⟨_, hnot⟩
    · have heq := hm.run.symm.trans ht
      cases heq
      exact ⟨rfl, hP, hfits', ⟨hm.before, hreader⟩, hs'⟩
    · exact (hnot _ _ hm).elim
  complete hv hs htakes hP hfits' := by
    rcases hrun hv (fits hP hfits') hs with ⟨_, _, t, ht, hreader, _⟩ | ⟨hnot, _⟩
    · exact ⟨v, t, htakes.1, ht, hreader ▸ htakes.1⟩
    · exact (hnot ⟨hP, hfits'⟩).elim

/-- A step that changes the innermost function and leaves the same uses to the others. It
reports something exactly if the function is not within the limits afterwards, where it was. -/
theorem of_change (within : Prop) {g : Draft → Draft} {m : Compile w.settings Unit}
    (huses : exported D.level (g D.current).piece.uses = D.exports)
    (valid : D.current.Valid D.level D.uses →
      (g D.current).Valid D.level (g D.current).piece.uses)
    (fits : (g D.current).Fits w.limits D.level (g D.current).piece.uses ↔
      D.current.Fits w.limits D.level D.uses ∧ within)
    (hrun : ∀ {s f frames}, s.frames = f :: frames → D.current.Valid D.level D.uses →
      D.current.Describes w D.level D.around D.uses f →
      (within ∧ ∃ f' events, m.run s = .ok ((), { s with frames := f' :: frames, events }) ∧
        (g D.current).Describes w D.level D.around (g D.current).piece.uses f') ∨
      (¬ within ∧ ∀ a t, ¬ Cleanly m s a t)) :
    Meets D [] m () True (D.change g) := by
  have hchange : (D.change g).Fits w.limits ↔ D.Fits w.limits ∧ within := by
    rw [Drafts.fits_change huses, Drafts.fits_iff, and_right_comm]
    exact and_congr_left' fits
  apply of_run
  · intro hv _
    obtain ⟨hcurrent, houter⟩ := (Drafts.valid_iff D).mp hv
    exact (Drafts.valid_change huses).mpr ⟨valid hcurrent, houter⟩
  · exact fun _ h => (hchange.mp h).1
  · intro s hv hD hs
    obtain ⟨_, _, f, frames, hframes, hf, _⟩ := (Drafts.describes_iff D).mp hs
    rcases hrun hframes ((Drafts.valid_iff D).mp hv).1 hf with
      ⟨hwithin, f', events, hm, hf'⟩ | ⟨hover, hnot⟩
    · exact .inl ⟨trivial, hchange.mpr ⟨hD, hwithin⟩, _, hm, rfl,
        hs.change hframes huses (fun _ => hf') rfl rfl rfl⟩
    · exact .inr ⟨fun h => hover (hchange.mp h.2).2, hnot⟩

end Meets

end Compile

end LoxCompiler
