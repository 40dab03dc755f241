import LoxCompiler.Proofs.Parsing.Step

/-! # One tree for each sequence of tokens

Reading tokens from left to right leaves no choice: the next token decides what it starts, or
whether it continues the tree so far. A tree is found again this way from the tokens that spell
it, whatever comes after them. So no two trees are spelled by the same tokens.
-/

namespace LoxCompiler

mutual

/-- At a level, the first tokens are read as a tree, and the given ones are left. -/
inductive Parses : Precedence → List Kind → Expression → List Kind → Prop where
  | literal {level l ts e us} : Extends level (.literal l) ts e us →
      Parses level (.literal l :: ts) e us
  | receiver {level ts e us} : Extends level .receiver ts e us →
      Parses level (.keyword .thisWord :: ts) e us
  | variable {level x ts e us}
      (plain : level ≤ .assignment → ts.head? ≠ some (.operator .assign)) :
      Extends level (.variable x) ts e us → Parses level (.identifier x :: ts) e us
  | assign {level x ts v us e vs} (weak : level ≤ .assignment) : Parses .assignment ts v us →
      Extends level (.assign x v) us e vs →
      Parses level (.identifier x :: .operator .assign :: ts) e vs
  | group {level ts i us e vs} : Parses .assignment ts i (.closeParen :: us) →
      Extends level (.group i) us e vs → Parses level (.openParen :: ts) e vs
  | unary {level op ts o us e vs} (isUnary : (Rule.ofOperator op).leading = some .unary) :
      Parses .unary ts o us → Extends level (.unary op o) us e vs →
      Parses level (.operator op :: ts) e vs
  | superGet {level m ts e us} (plain : ts.head? ≠ some .openParen) :
      Extends level (.superGet m) ts e us →
      Parses level (.keyword .superWord :: .dot :: .identifier m :: ts) e us
  | superCall {level m ts es us e vs} : ParsesEach ts es us →
      Extends level (.superCall m es) us e vs →
      Parses level (.keyword .superWord :: .dot :: .identifier m :: .openParen :: ts) e vs

/-- At a level, the first tokens are read as what continues a tree. -/
inductive Extends : Precedence → Expression → List Kind → Expression → List Kind → Prop where
  | stop {level e ts} (weaker : ∀ k ∈ ts.head?, ¬ level ≤ (Rule.ofKind k).precedence) :
      Extends level e ts e ts
  | binary {level op l ts r us e vs} (isBinary : (Rule.ofOperator op).continuing = some .binary)
      (stronger : level ≤ (Rule.ofOperator op).precedence) :
      Parses (Rule.ofOperator op).precedence.next ts r us →
      Extends level (.binary op l r) us e vs → Extends level l (.operator op :: ts) e vs
  | and {level l ts r us e vs} (stronger : level ≤ .and) : Parses .and ts r us →
      Extends level (.and l r) us e vs → Extends level l (.operator .and :: ts) e vs
  | or {level l ts r us e vs} (stronger : level ≤ .or) : Parses .or ts r us →
      Extends level (.or l r) us e vs → Extends level l (.operator .or :: ts) e vs
  | call {level f ts es us e vs} (stronger : level ≤ .call) : ParsesEach ts es us →
      Extends level (.call f es) us e vs → Extends level f (.openParen :: ts) e vs
  | get {level o p ts e us} (stronger : level ≤ .call)
      (plain : level ≤ .assignment → ts.head? ≠ some (.operator .assign))
      (noMethod : ts.head? ≠ some .openParen) : Extends level (.get o p) ts e us →
      Extends level o (.dot :: .identifier p :: ts) e us
  | set {level o p ts v us e vs} (weak : level ≤ .assignment) : Parses .assignment ts v us →
      Extends level (.set o p v) us e vs →
      Extends level o (.dot :: .identifier p :: .operator .assign :: ts) e vs
  | invoke {level o m ts es us e vs} (stronger : level ≤ .call) : ParsesEach ts es us →
      Extends level (.invoke o m es) us e vs →
      Extends level o (.dot :: .identifier m :: .openParen :: ts) e vs

/-- The first tokens are read as arguments and the parenthesis after them. -/
inductive ParsesEach : List Kind → List Expression → List Kind → Prop where
  | none {ts} : ParsesEach (.closeParen :: ts) [] ts
  | last {ts e us} : Parses .assignment ts e (.closeParen :: us) → ParsesEach ts [e] us
  | more {ts e us e' es vs} : Parses .assignment ts e (.comma :: us) →
      ParsesEach us (e' :: es) vs → ParsesEach ts (e :: e' :: es) vs

end

/-! ## There is no choice -/

mutual

theorem Parses.unique {level : Precedence} {ts us us' : List Kind} {e e' : Expression} :
    Parses level ts e us → Parses level ts e' us' → e = e' ∧ us = us'
  | .literal h, .literal h' => h.unique h'
  | .receiver h, .receiver h' => h.unique h'
  | .variable _ h, .variable _ h' => h.unique h'
  | .variable plain _, .assign weak _ _ => (plain weak rfl).elim
  | .assign weak _ _, .variable plain _ => (plain weak rfl).elim
  | .assign _ hv h, .assign _ hv' h' => by
      obtain ⟨rfl, rfl⟩ := hv.unique hv'
      exact h.unique h'
  | .group hi h, .group hi' h' => by
      obtain ⟨rfl, hus⟩ := hi.unique hi'
      cases hus
      exact h.unique h'
  | .unary _ ho h, .unary _ ho' h' => by
      obtain ⟨rfl, rfl⟩ := ho.unique ho'
      exact h.unique h'
  | .superGet _ h, .superGet _ h' => h.unique h'
  | .superGet plain _, .superCall _ _ => (plain rfl).elim
  | .superCall _ _, .superGet plain _ => (plain rfl).elim
  | .superCall hes h, .superCall hes' h' => by
      obtain ⟨rfl, rfl⟩ := hes.unique hes'
      exact h.unique h'

theorem Extends.unique {level : Precedence} {o e e' : Expression} {ts us us' : List Kind} :
    Extends level o ts e us → Extends level o ts e' us' → e = e' ∧ us = us'
  | .stop _, .stop _ => ⟨rfl, rfl⟩
  | .stop weaker, .binary _ stronger _ _ => (weaker _ rfl stronger).elim
  | .stop weaker, .and stronger _ _ => (weaker _ rfl stronger).elim
  | .stop weaker, .or stronger _ _ => (weaker _ rfl stronger).elim
  | .stop weaker, .call stronger _ _ => (weaker _ rfl stronger).elim
  | .stop weaker, .get stronger _ _ _ => (weaker _ rfl stronger).elim
  | .stop weaker, .set weak _ _ => (weaker _ rfl (Precedence.le_trans weak (by decide))).elim
  | .stop weaker, .invoke stronger _ _ => (weaker _ rfl stronger).elim
  | .binary _ stronger _ _, .stop weaker => (weaker _ rfl stronger).elim
  | .and stronger _ _, .stop weaker => (weaker _ rfl stronger).elim
  | .or stronger _ _, .stop weaker => (weaker _ rfl stronger).elim
  | .call stronger _ _, .stop weaker => (weaker _ rfl stronger).elim
  | .get stronger _ _ _, .stop weaker => (weaker _ rfl stronger).elim
  | .set weak _ _, .stop weaker => (weaker _ rfl (Precedence.le_trans weak (by decide))).elim
  | .invoke stronger _ _, .stop weaker => (weaker _ rfl stronger).elim
  | .binary _ _ hr h, .binary _ _ hr' h' => by
      obtain ⟨rfl, rfl⟩ := hr.unique hr'
      exact h.unique h'
  | .and _ hr h, .and _ hr' h' => by
      obtain ⟨rfl, rfl⟩ := hr.unique hr'
      exact h.unique h'
  | .or _ hr h, .or _ hr' h' => by
      obtain ⟨rfl, rfl⟩ := hr.unique hr'
      exact h.unique h'
  | .binary isBinary _ _ _, .and _ _ _ => nomatch isBinary
  | .binary isBinary _ _ _, .or _ _ _ => nomatch isBinary
  | .and _ _ _, .binary isBinary _ _ _ => nomatch isBinary
  | .or _ _ _, .binary isBinary _ _ _ => nomatch isBinary
  | .call _ hes h, .call _ hes' h' => by
      obtain ⟨rfl, rfl⟩ := hes.unique hes'
      exact h.unique h'
  | .get _ _ _ h, .get _ _ _ h' => h.unique h'
  | .get _ plain _ _, .set weak _ _ => (plain weak rfl).elim
  | .get _ _ noMethod _, .invoke _ _ _ => (noMethod rfl).elim
  | .set weak _ _, .get _ plain _ _ => (plain weak rfl).elim
  | .set _ hv h, .set _ hv' h' => by
      obtain ⟨rfl, rfl⟩ := hv.unique hv'
      exact h.unique h'
  | .invoke _ _ _, .get _ _ noMethod _ => (noMethod rfl).elim
  | .invoke _ hes h, .invoke _ hes' h' => by
      obtain ⟨rfl, rfl⟩ := hes.unique hes'
      exact h.unique h'

theorem ParsesEach.unique {ts us us' : List Kind} {es es' : List Expression} :
    ParsesEach ts es us → ParsesEach ts es' us' → es = es' ∧ us = us'
  | .none, .none => ⟨rfl, rfl⟩
  | .none, .last h => nomatch h
  | .none, .more h _ => nomatch h
  | .last h, .none => nomatch h
  | .more h _, .none => nomatch h
  | .last h, .last h' => by
      obtain ⟨rfl, hus⟩ := h.unique h'
      cases hus
      exact ⟨rfl, rfl⟩
  | .last h, .more h' _ => nomatch (h.unique h').2
  | .more h _, .last h' => nomatch (h.unique h').2
  | .more h hes, .more h' hes' => by
      obtain ⟨rfl, hus⟩ := h.unique h'
      cases hus
      obtain ⟨hes, rfl⟩ := hes.unique hes'
      cases hes
      exact ⟨rfl, rfl⟩

end

/-! ## Spelled trees are read again -/

/-- What may come after a tree of some level that is read at a weaker one: no token that would
still belong to the tree. -/
structure Closed (level own : Precedence) (e : Expression) (rest : List Kind) : Prop where
  weaker : ∀ k ∈ rest.head?, ¬ own.edge ≤ (Rule.ofKind k).precedence
  plain : level ≤ .assignment → rest.head? ≠ some (.operator .assign)
  noMethod : e.endsInName = true → rest.head? ≠ some .openParen

namespace Closed

variable {level own : Precedence} {e : Expression} {rest : List Kind}

/-- What may come after a tree may come after its right operand. -/
theorem right (h : Closed level own e rest) (hlevel : level ≤ own) (hcall : own.edge ≤ .call)
    (r : Expression) : Closed own.edge own.edge r rest where
  weaker k hk hle := h.weaker k hk (Precedence.le_trans own.edge.le_edge hle)
  plain hweak := h.plain (Precedence.le_trans hlevel (Precedence.le_trans own.le_edge hweak))
  noMethod _ hparen := h.weaker _ hparen hcall

/-- An operator that binds no stronger than a tree may come after it. -/
theorem operator {k : Kind} {ts : List Kind} (hedge : ¬ own.edge ≤ (Rule.ofKind k).precedence)
    (hassign : k ≠ .operator .assign) (hparen : e.endsInName = true → k ≠ .openParen) :
    Closed level own e (k :: ts) where
  weaker _ hk := Option.some.inj hk ▸ hedge
  plain _ h := hassign (Option.some.inj h)
  noMethod hname h := hparen hname (Option.some.inj h)

/-- A token without precedence may come after a whole expression. -/
theorem whole {k : Kind} {ts : List Kind} (hk : (Rule.ofKind k).precedence = .none)
    (hassign : k ≠ .operator .assign) : Closed .assignment .assignment e (k :: ts) :=
  operator (hk ▸ by decide) hassign fun _ hparen => by
    rw [hparen] at hk
    cases hk

end Closed

mutual

/-- The tokens that spell a tree are read as the tree, and then what continues it. -/
theorem Expression.Spelled.parses {own level : Precedence} {e e' : Expression}
    {ts rest vs : List Kind} (he : e.Spelled own ts) (hlevel : level ≤ own)
    (hclosed : Closed level own e rest) (hrest : Extends level e rest e' vs) :
    Parses level (ts ++ rest) e' vs := by
  match he with
  | .weaken he =>
      exact he.parses (Precedence.le_trans hlevel own.le_next)
        ⟨fun k hk hle => hclosed.weaker k hk
          (Precedence.le_trans (Precedence.edge_mono own.le_next) hle), hclosed.plain,
          hclosed.noMethod⟩ hrest
  | .assign hv =>
      exact .assign hlevel
        (hv.parses (Precedence.le_refl _) (hclosed.right hlevel (by decide) _) (.stop hclosed.weaker))
        hrest
  | .set ho hv =>
      have hvalue := hv.parses (Precedence.le_refl _) (hclosed.right hlevel (by decide) _)
        (.stop hclosed.weaker)
      rw [List.append_assoc]
      exact ho.parses (Precedence.le_trans hlevel (by decide))
        (.operator (by decide) (by simp) (by simp)) (.set hlevel hvalue hrest)
  | .or hl hr =>
      have hright := hr.parses (Precedence.le_refl _) (hclosed.right hlevel (by decide) _)
        (.stop hclosed.weaker)
      rw [List.append_assoc]
      exact hl.parses (Precedence.le_trans hlevel (by decide))
        (.operator (by decide) (by simp) (by simp)) (.or hlevel hright hrest)
  | .and hl hr =>
      have hright := hr.parses (Precedence.le_refl _) (hclosed.right hlevel (by decide) _)
        (.stop hclosed.weaker)
      rw [List.append_assoc]
      exact hl.parses (Precedence.le_trans hlevel (by decide))
        (.operator (by decide) (by simp) (by simp)) (.and hlevel hright hrest)
  | @Expression.Spelled.binary op _ _ _ _ hbinary hl hr =>
      obtain ⟨hedge, hequality, hfactor⟩ := Rule.binary_level hbinary
      have hop : op ≠ .assign := by
        rintro rfl
        cases hbinary
      have hcall : (Rule.ofOperator op).precedence.edge ≤ .call :=
        Precedence.le_trans (Precedence.edge_mono hfactor) (by decide)
      have hright := hr.parses (Precedence.le_refl _) (hedge ▸ hclosed.right hlevel hcall _)
        (.stop (hedge ▸ hclosed.weaker))
      rw [List.append_assoc]
      refine hl.parses hlevel (.operator ?_ (by simpa using hop) (by simp))
        (.binary hbinary hlevel hright hrest)
      revert hbinary
      cases op <;> decide
  | .unary hunary ho =>
      exact .unary hunary
        (ho.parses (Precedence.le_refl _) (hclosed.right hlevel (by decide) _) (.stop hclosed.weaker))
        hrest
  | .call hplain hf hes =>
      simp only [List.append_assoc, List.cons_append, List.nil_append]
      exact hf.parses hlevel (.operator (by decide) (by simp) (by simp [hplain]))
        (.call hlevel hes.parses hrest)
  | .get ho =>
      simp only [List.append_assoc, List.cons_append, List.nil_append]
      exact ho.parses hlevel (.operator (by decide) (by simp) (by simp))
        (.get hlevel hclosed.plain (hclosed.noMethod rfl) hrest)
  | .invoke ho hes =>
      simp only [List.append_assoc, List.cons_append, List.nil_append]
      exact ho.parses hlevel (.operator (by decide) (by simp) (by simp))
        (.invoke hlevel hes.parses hrest)
  | .superCall hes =>
      simp only [List.append_assoc, List.cons_append, List.nil_append]
      exact .superCall hes.parses hrest
  | .superGet => exact .superGet (hclosed.noMethod rfl) hrest
  | .receiver => exact .receiver hrest
  | .variable => exact .variable hclosed.plain hrest
  | .literal => exact .literal hrest
  | .group hi =>
      simp only [List.append_assoc, List.cons_append, List.nil_append]
      exact .group (hi.parses (Precedence.le_refl _) (.whole rfl (by simp))
        (.stop (by simp [Rule.ofKind, Rule.absent]; decide))) hrest

/-- The tokens that spell arguments are read as the arguments, before a closing parenthesis. -/
theorem Expression.SpelledEach.parses {es : List Expression} {ts rest : List Kind}
    (hes : Expression.SpelledEach es ts) : ParsesEach (ts ++ .closeParen :: rest) es rest := by
  match hes with
  | .none => exact .none
  | .last he =>
      exact .last (he.parses (Precedence.le_refl _) (.whole rfl (by simp))
        (.stop (by simp [Rule.ofKind, Rule.absent]; decide)))
  | .more he hes =>
      simp only [List.append_assoc, List.cons_append]
      exact .more (he.parses (Precedence.le_refl _) (.whole rfl (by simp))
        (.stop (by simp [Rule.ofKind, Rule.absent]; decide))) hes.parses

end

/-- A tree is known from the tokens that spell it, even if more tokens come after them, if these
end an expression. -/
theorem Expression.Spelled.unique {e e' : Expression} {ts ts' rest rest' : List Kind}
    (he : e.Spelled .assignment ts) (he' : e'.Spelled .assignment ts')
    (hsame : ts ++ rest = ts' ++ rest')
    (hrest : Closed .assignment .assignment e rest)
    (hrest' : Closed .assignment .assignment e' rest') : e = e' ∧ ts = ts' := by
  have h := he.parses (Precedence.le_refl _) hrest (.stop hrest.weaker)
  have h' := he'.parses (Precedence.le_refl _) hrest' (.stop hrest'.weaker)
  rw [hsame] at h
  obtain ⟨rfl, rfl⟩ := h.unique h'
  exact ⟨rfl, List.append_cancel_right hsame⟩

end LoxCompiler
