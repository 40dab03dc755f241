import LoxCompiler.Proofs.Parsing.Unique
import LoxCompiler.Proofs.Viable.Goal

/-! # Programs fulfil goals

The tokens that spell a tree fulfil the goal of a tree, whatever comes after them. So nothing that
some program continues with is stuck.
-/

namespace LoxCompiler

/-! ## What is read and what is left -/

mutual

/-- What is left after an expression is the end of what there was, and no operator of its level
comes first. -/
theorem Parses.ended {level : Precedence} {ts us : List Kind} {e : Expression} :
    Parses level ts e us → us <:+ ts ∧ ∀ k ∈ us.head?, ¬ level ≤ (Rule.ofKind k).precedence
  | .literal h | .receiver h | .variable _ h =>
      h.ended.imp_left fun hs => hs.trans (List.suffix_cons _ _)
  | .assign _ hv h => h.ended.imp_left fun hs => (hs.trans hv.ended.1).trans ⟨[_, _], rfl⟩
  | .group hi h => h.ended.imp_left fun hs =>
      ((hs.trans (List.suffix_cons _ _)).trans hi.ended.1).trans (List.suffix_cons _ _)
  | .unary _ ho h => h.ended.imp_left fun hs => (hs.trans ho.ended.1).trans (List.suffix_cons _ _)
  | .superGet _ h => h.ended.imp_left fun hs => hs.trans ⟨[_, _, _], rfl⟩
  | .superCall hes h => h.ended.imp_left fun hs => (hs.trans hes.suffix).trans ⟨[_, _, _, _], rfl⟩

theorem Extends.ended {level : Precedence} {o e : Expression} {ts us : List Kind} :
    Extends level o ts e us → us <:+ ts ∧ ∀ k ∈ us.head?, ¬ level ≤ (Rule.ofKind k).precedence
  | .stop weaker => ⟨List.suffix_refl _, weaker⟩
  | .binary _ _ hr h | .and _ hr h | .or _ hr h => h.ended.imp_left fun hs =>
      (hs.trans hr.ended.1).trans (List.suffix_cons _ _)
  | .call _ hes h => h.ended.imp_left fun hs => (hs.trans hes.suffix).trans (List.suffix_cons _ _)
  | .get _ _ _ h => h.ended.imp_left fun hs => hs.trans ⟨[_, _], rfl⟩
  | .set _ hv h => h.ended.imp_left fun hs => (hs.trans hv.ended.1).trans ⟨[_, _, _], rfl⟩
  | .invoke _ hes h => h.ended.imp_left fun hs => (hs.trans hes.suffix).trans ⟨[_, _, _], rfl⟩

theorem ParsesEach.suffix {ts us : List Kind} {es : List Expression} :
    ParsesEach ts es us → us <:+ ts
  | .none => List.suffix_cons _ _
  | .last h => (List.suffix_cons _ _).trans h.ended.1
  | .more h hes => (hes.suffix.trans (List.suffix_cons _ _)).trans h.ended.1

end

/-- An expression starts with a token that starts expressions. -/
theorem Parses.exists_lead {level : Precedence} {ts us : List Kind} {e : Expression}
    (h : Parses level ts e us) :
    ∃ k vs leading, ts = k :: vs ∧ (Rule.ofKind k).leading = some leading := by
  cases h with
  | @literal _ l => cases l <;> exact ⟨_, _, _, rfl, rfl⟩
  | unary hunary => exact ⟨_, _, _, rfl, hunary⟩
  | _ => exact ⟨_, _, _, rfl, rfl⟩

/-! ## Expressions -/

namespace Leads

variable {level own : Precedence} {k : Kind} {gs gs' : List Goal} {ts ts' : List Kind}

/-- A token that starts an expression is taken. -/
theorem lead {leading : Leading} (hk : (Rule.ofKind k).leading = some leading)
    (h : Leads (Goal.lead level leading ++ gs) ts gs' ts') :
    Leads (.expression level :: gs) (k :: ts) gs' ts' :=
  .refine (by rw [Goal.refine, hk]; rfl) (.take h)

/-- A token that continues an expression is taken. -/
theorem extend {continuing : Continuing} (hk : (Rule.ofKind k).continuing = some continuing)
    (hlevel : level ≤ (Rule.ofKind k).precedence) (hown : ¬ own.edge ≤ (Rule.ofKind k).precedence)
    (h : Leads (Goal.extend level (Rule.ofKind k).precedence continuing ++ gs) ts gs' ts') :
    Leads (.operators level own :: gs) (k :: ts) gs' ts' :=
  .refine (by rw [Goal.refine, if_pos hlevel, if_neg hown, hk]; rfl) (.take h)

/-- Before a token that continues no expression of a level, the operators of the level end. -/
theorem stop (hweak : ∀ k ∈ ts.head?, ¬ level ≤ (Rule.ofKind k).precedence)
    (hplain : level ≤ .assignment → ts.head? ≠ some (.operator .assign)) (hne : ts ≠ [])
    (h : Leads gs ts gs' ts') : Leads (.operators level own :: gs) ts gs' ts' := by
  obtain ⟨k, ts, rfl⟩ := List.exists_cons_of_ne_nil hne
  have hassign : ¬ (k = .operator .assign ∧ level ≤ .assignment) :=
    fun hk => hplain hk.2 (congrArg some hk.1)
  have hnone : (Goal.operators level own).refine k = some [] := by
    rw [Goal.refine, if_neg (hweak k rfl), if_neg hassign]
  exact .refine hnone h

theorem plainName (hplain : level ≤ .assignment → ts.head? ≠ some (.operator .assign))
    (hne : ts ≠ []) (h : Leads (.operators level .primary :: gs) ts gs' ts') :
    Leads (.afterName level :: gs) ts gs' ts' := by
  obtain ⟨k, ts, rfl⟩ := List.exists_cons_of_ne_nil hne
  have hassign : ¬ (k = .operator .assign ∧ level ≤ .assignment) :=
    fun hk => hplain hk.2 (congrArg some hk.1)
  exact .refine (by rw [Goal.refine, if_neg hassign]) h

theorem plainProperty (hplain : level ≤ .assignment → ts.head? ≠ some (.operator .assign))
    (hmethod : ts.head? ≠ some .openParen) (hne : ts ≠ [])
    (h : Leads (.operators level .call :: gs) ts gs' ts') :
    Leads (.afterProperty level :: gs) ts gs' ts' := by
  obtain ⟨k, ts, rfl⟩ := List.exists_cons_of_ne_nil hne
  have hassign : ¬ (k = .operator .assign ∧ level ≤ .assignment) :=
    fun hk => hplain hk.2 (congrArg some hk.1)
  have hparen : k ≠ .openParen := fun hk => hmethod (congrArg some hk)
  exact .refine (by rw [Goal.refine, if_neg hassign, if_neg hparen]) h

theorem plainSuper (hmethod : ts.head? ≠ some .openParen) (hne : ts ≠ [])
    (h : Leads gs ts gs' ts') : Leads (.afterSuper :: gs) ts gs' ts' := by
  obtain ⟨k, ts, rfl⟩ := List.exists_cons_of_ne_nil hne
  have hparen : k ≠ .openParen := fun hk => hmethod (congrArg some hk)
  have hnone : Goal.afterSuper.refine k = some [] := by rw [Goal.refine, if_neg hparen]
  exact .refine hnone h

/-- A call's arguments are taken after the name of a method of the superclass. -/
theorem superArguments (h : Leads (.arguments :: gs) ts gs' ts') :
    Leads (.afterSuper :: gs) (.openParen :: ts) gs' ts' :=
  .refine rfl (.take h)

/-- Arguments are an argument and more of them, unless there is none. -/
theorem arguments {us : List Kind} {es : List Expression} (hes : ParsesEach ts es us)
    (hrest : Leads gs us gs' ts')
    (hmore : es ≠ [] → Leads (.expression .assignment :: .moreArguments :: gs) ts gs' ts') :
    Leads (.arguments :: gs) ts gs' ts' := by
  have hsome {e : Expression} {vs : List Kind} (h : Parses .assignment ts e vs)
      (hmore : Leads (.expression .assignment :: .moreArguments :: gs) ts gs' ts') :
      Leads (.arguments :: gs) ts gs' ts' := by
    obtain ⟨k, ts, leading, rfl, hk⟩ := h.exists_lead
    have hparen : k ≠ .closeParen := by
      rintro rfl
      cases hk
    exact .refine (by rw [Goal.refine, if_neg hparen]) hmore
  cases hes with
  | none => exact .refine rfl (.take hrest)
  | last h => exact hsome h (hmore (List.cons_ne_nil _ _))
  | more h _ => exact hsome h (hmore (List.cons_ne_nil _ _))

end Leads

/-- Nothing continues an expression after an assignment. -/
theorem Extends.eq_of_assignment {level : Precedence} {o e : Expression} {ts us : List Kind}
    (h : Extends level o ts e us) (hlevel : .assignment ≤ level)
    (hts : ∀ k ∈ ts.head?, ¬ .assignment ≤ (Rule.ofKind k).precedence) : us = ts := by
  cases h with
  | stop => rfl
  | binary _ hstronger | and hstronger | or hstronger | call hstronger | get hstronger
  | invoke hstronger => exact absurd (Precedence.le_trans hlevel hstronger) (hts _ rfl)
  | set hweak => exact absurd (show Precedence.assignment ≤ .call by decide) (hts _ rfl)

section Expressions

variable {gs' : List Goal} {ts' : List Kind}

mutual

/-- The tokens that are read as an expression fulfil its goal. -/
theorem Parses.leads : ∀ {level : Precedence} {ts us : List Kind} {e : Expression} {gs : List Goal},
    Parses level ts e us → .assignment ≤ level →
    (level ≤ .assignment → us.head? ≠ some (.operator .assign)) → us ≠ [] →
    Leads gs us gs' ts' → Leads (.expression level :: gs) ts gs' ts'
  | _, _, _, _, _, @Parses.literal _ l _ _ _ h, hlevel, hplain, hne, hrest => by
      have hoperators := h.leads .primary hlevel (fun k _ => Rule.not_primary_le k) hplain hne hrest
      cases l <;> exact .lead rfl hoperators
  | _, _, _, _, _, .receiver h, hlevel, hplain, hne, hrest =>
      .lead rfl (h.leads .primary hlevel (fun k _ => Rule.not_primary_le k) hplain hne hrest)
  | _, _, _, _, _, .variable plain h, hlevel, hplain, hne, hrest =>
      .lead rfl (.plainName plain (h.ended.1.ne_nil hne)
        (h.leads .primary hlevel (fun k _ => Rule.not_primary_le k) hplain hne hrest))
  | _, _, _, _, _, .assign weak hv h, hlevel, hplain, hne, hrest => by
      rw [h.eq_of_assignment hlevel hv.ended.2] at hplain hne hrest
      have hvalue := hv.leads (Precedence.le_refl _) (fun _ => hplain weak) hne hrest
      exact .lead rfl (.refine (if_pos ⟨rfl, weak⟩) (.take hvalue))
  | _, _, _, _, _, .group hi h, hlevel, hplain, hne, hrest =>
      .lead rfl (hi.leads (Precedence.le_refl _) (by simp) (by simp) (.take
        (h.leads .primary hlevel (fun k _ => Rule.not_primary_le k) hplain hne hrest)))
  | _, _, _, _, _, .unary hop ho h, hlevel, hplain, hne, hrest =>
      .lead hop (ho.leads (by decide) (fun hweak => absurd hweak (by decide)) (h.ended.1.ne_nil hne)
        (h.leads .unary hlevel ho.ended.2 hplain hne hrest))
  | _, _, _, _, _, .superGet plain h, hlevel, hplain, hne, hrest =>
      .lead rfl (.take (.refine rfl (.take (.plainSuper plain (h.ended.1.ne_nil hne)
        (h.leads .call hlevel (fun k _ => Rule.not_primary_le k) hplain hne hrest)))))
  | _, _, _, _, _, .superCall hes h, hlevel, hplain, hne, hrest => by
      have hoperators := h.leads .call hlevel (fun k _ => Rule.not_primary_le k) hplain hne hrest
      exact .lead rfl (.take (.refine rfl (.take (.superArguments
        (.arguments hes hoperators (hes.leads hoperators))))))

/-- The tokens that are read as what continues an expression fulfil the goal of its operators. -/
theorem Extends.leads : ∀ {level : Precedence} {ts us : List Kind} {o e : Expression}
    {gs : List Goal} (own : Precedence), Extends level o ts e us → .assignment ≤ level →
    (∀ k ∈ ts.head?, ¬ own.edge ≤ (Rule.ofKind k).precedence) →
    (level ≤ .assignment → us.head? ≠ some (.operator .assign)) → us ≠ [] →
    Leads gs us gs' ts' → Leads (.operators level own :: gs) ts gs' ts'
  | _, _, _, _, _, _, _, .stop weaker, _, _, hplain, hne, hrest => .stop weaker hplain hne hrest
  | _, _, _, _, _, _, _, @Extends.binary _ op _ _ _ _ _ _ hop stronger hr h, hlevel, hown, hplain,
      hne, hrest => by
      obtain ⟨hedge, hequality, -⟩ := Rule.binary_level hop
      have hnext : ¬ (Rule.ofOperator op).precedence.next ≤ .assignment := by
        revert hequality
        cases (Rule.ofOperator op).precedence <;> decide
      have hright := hr.leads (Precedence.le_trans (by decide) (Precedence.le_trans hequality
        (Precedence.le_next _))) (fun hweak => absurd hweak hnext) (h.ended.1.ne_nil hne)
        (h.leads (Rule.ofOperator op).precedence hlevel (hedge ▸ hr.ended.2) hplain hne hrest)
      refine .extend hop stronger (hown _ rfl) ?_
      change Leads (.expression (Rule.ofOperator op).precedence.edge :: _) _ _ _
      rw [hedge]
      exact hright
  | _, _, _, _, _, _, _, .and stronger hr h, hlevel, hown, hplain, hne, hrest =>
      .extend rfl stronger (hown _ rfl) (hr.leads (by decide)
        (fun hweak => absurd hweak (by decide)) (h.ended.1.ne_nil hne)
        (h.leads .and hlevel hr.ended.2 hplain hne hrest))
  | _, _, _, _, _, _, _, .or stronger hr h, hlevel, hown, hplain, hne, hrest =>
      .extend rfl stronger (hown _ rfl) (hr.leads (by decide)
        (fun hweak => absurd hweak (by decide)) (h.ended.1.ne_nil hne)
        (h.leads .or hlevel hr.ended.2 hplain hne hrest))
  | _, _, _, _, _, _, _, .call stronger hes h, hlevel, hown, hplain, hne, hrest => by
      have hoperators := h.leads .call hlevel (fun k _ => Rule.not_primary_le k) hplain hne hrest
      exact .extend rfl stronger (hown _ rfl) (.arguments hes hoperators (hes.leads hoperators))
  | _, _, _, _, _, _, _, .get stronger plain noMethod h, hlevel, hown, hplain, hne, hrest =>
      .extend rfl stronger (hown _ rfl) (.refine rfl (.take (.plainProperty plain noMethod
        (h.ended.1.ne_nil hne)
        (h.leads .call hlevel (fun k _ => Rule.not_primary_le k) hplain hne hrest))))
  | _, _, _, _, _, _, _, .set weak hv h, hlevel, hown, hplain, hne, hrest => by
      rw [h.eq_of_assignment hlevel hv.ended.2] at hplain hne hrest
      have hvalue := hv.leads (Precedence.le_refl _) (fun _ => hplain weak) hne hrest
      exact .extend rfl (Precedence.le_trans weak (by decide)) (hown _ rfl)
        (.refine rfl (.take (.refine (if_pos ⟨rfl, weak⟩) (.take hvalue))))
  | _, _, _, _, _, _, _, .invoke stronger hes h, hlevel, hown, hplain, hne, hrest => by
      have hoperators := h.leads .call hlevel (fun k _ => Rule.not_primary_le k) hplain hne hrest
      exact .extend rfl stronger (hown _ rfl) (.refine rfl (.take (.refine rfl
        (.take (.arguments hes hoperators (hes.leads hoperators))))))

/-- The tokens that are read as arguments fulfil the goals of these, if there are any. -/
theorem ParsesEach.leads : ∀ {ts us : List Kind} {es : List Expression} {gs : List Goal},
    ParsesEach ts es us → Leads gs us gs' ts' → es ≠ [] →
    Leads (.expression .assignment :: .moreArguments :: gs) ts gs' ts'
  | _, _, _, _, .none, _, hne => absurd rfl hne
  | _, _, _, _, .last h, hrest, _ =>
      h.leads (Precedence.le_refl _) (by simp) (by simp) (.refine rfl (.take hrest))
  | _, _, _, _, .more h hes, hrest, _ =>
      h.leads (Precedence.le_refl _) (by simp) (by simp)
        (.refine rfl (.take (hes.leads hrest (List.cons_ne_nil _ _))))

end

end Expressions

/-! ## First tokens -/

namespace Goal

/-- An expression statement starts with a token that starts expressions. -/
theorem startStatement_of_lead {k : Kind} {leading : Leading}
    (hk : (Rule.ofKind k).leading = some leading) :
    startStatement k = [expression .assignment, token .semicolon] := by
  cases k with
  | keyword word => cases word <;> cases hk <;> rfl
  | openBrace => cases hk
  | _ => rfl

end Goal

/-- A token that starts a statement: it starts no other declaration, and ends nothing. -/
structure StartsStatement (k : Kind) : Prop where
  declaration : Goal.startDeclaration k = [.statement]
  no_else : k ≠ .keyword .elseWord
  no_brace : k ≠ .closeBrace
  no_end : k ≠ .endOfInput

theorem startsStatement_of_lead {k : Kind} {leading : Leading}
    (hk : (Rule.ofKind k).leading = some leading) : StartsStatement k := by
  cases k with
  | keyword word => cases word <;> cases hk <;> exact ⟨rfl, by simp, by simp, by simp⟩
  | closeBrace | endOfInput => cases hk
  | _ => exact ⟨rfl, by simp, by simp, by simp⟩

theorem Expression.Spelled.exists_lead {e : Expression} {ts : List Kind}
    (he : e.Spelled .assignment ts) :
    ∃ k us leading, ts = k :: us ∧ (Rule.ofKind k).leading = some leading := by
  have hstop : Extends .assignment e [.semicolon] e [.semicolon] :=
    .stop (by simp [Rule.ofKind, Rule.absent]; decide)
  have hparses := he.parses (Precedence.le_refl _) (.whole rfl (by simp)) hstop
  obtain ⟨k, us, leading, hts, hk⟩ := hparses.exists_lead
  cases ts with
  | nil =>
      cases hts
      cases hk
  | cons k' ts =>
      obtain ⟨rfl, -⟩ := List.cons.inj hts
      exact ⟨k', ts, leading, rfl, hk⟩

theorem Statement.Spelled.exists_start {b : Statement} {ts : List Kind} (hb : b.Spelled ts) :
    ∃ k us, ts = k :: us ∧ StartsStatement k := by
  cases hb with
  | expression he =>
      obtain ⟨k, us, leading, rfl, hk⟩ := he.exists_lead
      exact ⟨k, us ++ [.semicolon], rfl, startsStatement_of_lead hk⟩
  | _ => exact ⟨_, _, rfl, rfl, by simp, by simp, by simp⟩

theorem Declaration.Spelled.exists_start {d : Declaration} {ts : List Kind} (hd : d.Spelled ts) :
    ∃ k us, ts = k :: us ∧ k ≠ .keyword .elseWord ∧ k ≠ .closeBrace ∧ k ≠ .endOfInput := by
  cases hd with
  | statement hb =>
      obtain ⟨k, us, rfl, hk⟩ := hb.exists_start
      exact ⟨k, us, rfl, hk.no_else, hk.no_brace, hk.no_end⟩
  | _ => exact ⟨_, _, rfl, by simp, by simp, by simp⟩

/-- No `else` comes first of some declarations and what ends them. -/
theorem Declaration.SpelledEach.no_else {ds : List Declaration} {ts rest : List Kind}
    {closing : Kind}
    (hds : SpelledEach ds ts) (hclosing : closing ≠ .keyword .elseWord) :
    (ts ++ closing :: rest).head? ≠ some (.keyword .elseWord) := by
  cases hds with
  | nil => simpa using hclosing
  | cons hd hds =>
      obtain ⟨k, us, rfl, hk, -⟩ := hd.exists_start
      simpa using hk

/-! ## Statements and declarations -/

section Statements

variable {gs gs' : List Goal} {ts rest ts' : List Kind}

/-- A whole expression before a token that is no operator fulfils its goal. -/
theorem Expression.Spelled.leads {e : Expression} {k : Kind} (he : e.Spelled .assignment ts)
    (hk : (Rule.ofKind k).precedence = .none) (hassign : k ≠ .operator .assign)
    (hrest : Leads gs (k :: rest) gs' ts') :
    Leads (.expression .assignment :: gs) (ts ++ k :: rest) gs' ts' := by
  have hweak : ∀ k' ∈ (k :: rest).head?, ¬ Precedence.assignment ≤ (Rule.ofKind k').precedence := by
    simp [hk]
    decide
  exact (he.parses (Precedence.le_refl _) (.whole hk hassign) (.stop hweak)).leads
    (Precedence.le_refl _) (fun _ => by simpa using hassign) (List.cons_ne_nil _ _) hrest

theorem Expression.SpelledOption.leads {e : Option Expression} {closing : Kind}
    (he : SpelledOption e ts) (hclosing : Rule.ofKind closing = .absent)
    (hassign : closing ≠ .operator .assign) (hrest : Leads gs rest gs' ts') :
    Leads (.optional closing :: gs) (ts ++ closing :: rest) gs' ts' := by
  cases he with
  | none => exact .refine (by rw [Goal.refine, if_pos rfl]) (.take hrest)
  | some he =>
      obtain ⟨k, us, leading, rfl, hk⟩ := he.exists_lead
      have hne : k ≠ closing := by
        rintro rfl
        rw [hclosing] at hk
        cases hk
      exact .refine (by rw [Goal.refine, if_neg hne])
        (he.leads (by rw [hclosing]; rfl) hassign (.take hrest))

theorem Declaration.VariableSpelled.leads {x : Symbol} {e : Option Expression}
    (h : VariableSpelled x e ts) (hrest : Leads gs rest gs' ts') :
    Leads (.name :: .initial :: gs) (ts ++ rest) gs' ts' := by
  cases h with
  | bare => exact .refine rfl (.take (.refine rfl (.take hrest)))
  | initial he =>
      rw [List.append_assoc]
      exact .refine rfl (.take (.refine rfl (.take (he.leads rfl (by simp) (.take hrest)))))

theorem Initializer.Spelled.leads {i : Initializer} (h : i.Spelled ts)
    (hrest : Leads gs rest gs' ts') : Leads (.first :: gs) (ts ++ rest) gs' ts' := by
  cases h with
  | absent => exact .refine rfl (.take hrest)
  | «variable» h => exact .refine rfl (.take (h.leads hrest))
  | expression he =>
      obtain ⟨k, us, leading, rfl, hk⟩ := he.exists_lead
      have hrefine : Goal.first.refine k = some [.expression .assignment, .token .semicolon] := by
        cases k with
        | keyword word => cases word <;> cases hk <;> rfl
        | semicolon => cases hk
        | _ => rfl
      rw [List.append_assoc]
      exact .refine hrefine (he.leads rfl (by simp) (.take hrest))

/-- The tokens of parameters fulfil their goal. -/
theorem Leads.parameters (ps : List Symbol) (hrest : Leads gs rest gs' ts') :
    Leads (.parameters :: gs) (FunctionTree.parameterTokens ps ++ .closeParen :: rest) gs' ts' := by
  have hmore (p : Symbol) (ps : List Symbol) : Leads (.name :: .moreParameters :: gs)
      (FunctionTree.parameterTokens (p :: ps) ++ .closeParen :: rest) gs' ts' := by
    induction ps generalizing p with
    | nil => exact .refine rfl (.take (.refine rfl (.take hrest)))
    | cons p' ps ih => exact .refine rfl (.take (.refine rfl (.take (ih p'))))
  cases ps with
  | nil => exact .refine rfl (.take hrest)
  | cons p ps =>
      have h := hmore p ps
      cases ps <;> exact .refine rfl h

theorem Leads.superclass (y : Option Symbol)
    (hrest : Leads (.token .openBrace :: gs) (.openBrace :: rest) gs' ts') :
    Leads (.superclass :: .token .openBrace :: gs)
      (Declaration.superclassTokens y ++ .openBrace :: rest) gs' ts' := by
  cases y with
  | none => exact .refine (Option.some_inj.mpr rfl) hrest
  | some x => exact .refine rfl (.take (.refine rfl (.take hrest)))

/-- Where no `else` comes next, a choice has no second branch. -/
theorem Leads.noOtherwise (hne : rest ≠ []) (helse : rest.head? ≠ some (.keyword .elseWord))
    (hrest : Leads gs rest gs' ts') : Leads (.otherwise :: gs) rest gs' ts' := by
  obtain ⟨k, rest, rfl⟩ := List.exists_cons_of_ne_nil hne
  have hk : k ≠ .keyword .elseWord := fun hk => helse (congrArg some hk)
  have hnone : Goal.otherwise.refine k = some [] := by rw [Goal.refine, if_neg hk]
  exact .refine hnone hrest

/-- A goal of declarations up to a closing token. -/
structure Goal.Encloses (g : Goal) (closing : Kind) : Prop where
  close : g.refine closing = some [.token closing]
  go_on : ∀ k, k ≠ .closeBrace → k ≠ .endOfInput → g.refine k = some [.declaration, g]
  no_else : closing ≠ .keyword .elseWord

theorem Goal.encloses_block : block.Encloses .closeBrace where
  close := rfl
  go_on k hbrace hend := by simp [refine, hbrace, hend]
  no_else := by simp

theorem Goal.encloses_script : script.Encloses .endOfInput where
  close := rfl
  go_on k _ hend := by simp [refine, hend]
  no_else := by simp

mutual

/-- The tokens of a statement fulfil its goal, if no `else` comes that would belong to it. -/
theorem Statement.Spelled.leads : ∀ {b : Statement} {ts rest : List Kind} {gs : List Goal},
    b.Spelled ts → (b.endsOpen = true → rest.head? ≠ some (.keyword .elseWord)) → rest ≠ [] →
    Leads gs rest gs' ts' → Leads (.statement :: gs) (ts ++ rest) gs' ts'
  | _, _, _, _, .expression he, _, _, hrest => by
      obtain ⟨k, us, leading, rfl, hk⟩ := he.exists_lead
      rw [List.append_assoc]
      exact .refine (congrArg some (Goal.startStatement_of_lead hk))
        (he.leads rfl (by simp) (.take hrest))
  | _, _, _, _, .print he, _, _, hrest => by
      simp only [List.cons_append, List.append_assoc]
      exact .refine rfl (.take (he.leads rfl (by simp) (.take hrest)))
  | _, _, _, _, .ifThen he hb, hopen, hne, hrest => by
      simp only [List.cons_append, List.append_assoc]
      exact .refine rfl (.take (.take (he.leads rfl (by simp) (.take
        (hb.leads (fun _ => hopen rfl) hne (.noOtherwise hne (hopen rfl) hrest))))))
  | _, _, _, _, .ifElse hclosed he hb ho, hopen, hne, hrest => by
      simp only [List.cons_append, List.append_assoc]
      exact .refine rfl (.take (.take (he.leads rfl (by simp) (.take
        (hb.leads (fun h => absurd h (by simp [hclosed])) (List.cons_ne_nil _ _)
          (.refine rfl (.take (ho.leads hopen hne hrest))))))))
  | _, _, _, _, .whileLoop he hb, hopen, hne, hrest => by
      simp only [List.cons_append, List.append_assoc]
      exact .refine rfl (.take (.take (he.leads rfl (by simp) (.take (hb.leads hopen hne hrest)))))
  | _, _, _, _, .forLoop hi he hn hb, hopen, hne, hrest => by
      simp only [List.cons_append, List.append_assoc]
      exact .refine rfl (.take (.take (hi.leads (he.leads rfl (by simp)
        (hn.leads rfl (by simp) (hb.leads hopen hne hrest))))))
  | _, _, _, _, .ret he, _, _, hrest => by
      simp only [List.cons_append, List.append_assoc]
      exact .refine rfl (.take (he.leads rfl (by simp) hrest))
  | _, _, _, _, .block hds, _, _, hrest => by
      simp only [List.cons_append, List.append_assoc]
      exact .refine rfl (.take (hds.leads Goal.encloses_block hrest))

/-- The tokens of a declaration fulfil its goal, if no `else` comes next. -/
theorem Declaration.Spelled.leads : ∀ {d : Declaration} {ts rest : List Kind} {gs : List Goal},
    d.Spelled ts → rest.head? ≠ some (.keyword .elseWord) → rest ≠ [] →
    Leads gs rest gs' ts' → Leads (.declaration :: gs) (ts ++ rest) gs' ts'
  | _, _, _, _, @Declaration.Spelled.classDeclaration x y _ _ hfs, _, _, hrest => by
      simp only [List.cons_append, List.append_assoc]
      exact .refine rfl (.take (.refine rfl (.take (.superclass y (.take (hfs.leads hrest))))))
  | _, _, _, _, .funDeclaration hf, _, _, hrest => .refine rfl (.take (hf.leads hrest))
  | _, _, _, _, .varDeclaration h, _, _, hrest => .refine rfl (.take (h.leads hrest))
  | _, _, _, _, .statement hb, helse, hne, hrest => by
      have hleads := hb.leads (fun _ => helse) hne hrest
      obtain ⟨k, us, rfl, hk⟩ := hb.exists_start
      exact .refine (congrArg some hk.declaration) hleads

/-- The tokens of some declarations and what ends them fulfil the goal of these. -/
theorem Declaration.SpelledEach.leads : ∀ {ds : List Declaration} {ts rest : List Kind}
    {gs : List Goal} {g : Goal} {closing : Kind}, Declaration.SpelledEach ds ts →
    g.Encloses closing → Leads gs rest gs' ts' → Leads (g :: gs) (ts ++ closing :: rest) gs' ts'
  | _, _, _, _, _, _, .nil, hg, hrest => .refine hg.close (.take hrest)
  | _, _, _, _, _, _, .cons hd hds, hg, hrest => by
      have hleads := hd.leads (hds.no_else hg.no_else) (by simp) (hds.leads hg hrest)
      obtain ⟨k, us, rfl, -, hbrace, hend⟩ := hd.exists_start
      rw [List.append_assoc]
      exact .refine (hg.go_on k hbrace hend) hleads

/-- The tokens of a function fulfil its goals. -/
theorem FunctionTree.Spelled.leads : ∀ {f : FunctionTree} {ts rest : List Kind} {gs : List Goal},
    f.Spelled ts → Leads gs rest gs' ts' → Leads (Goal.function ++ gs) (ts ++ rest) gs' ts'
  | _, _, _, _, @FunctionTree.Spelled.mk _ ps _ _ hds, hrest => by
      simp only [List.cons_append, List.append_assoc]
      exact .refine rfl (.take (.take (.parameters ps
        (.take (hds.leads Goal.encloses_block hrest)))))

/-- The tokens of methods and the brace after them fulfil their goal. -/
theorem FunctionTree.SpelledEach.leads : ∀ {fs : List FunctionTree} {ts rest : List Kind}
    {gs : List Goal}, FunctionTree.SpelledEach fs ts → Leads gs rest gs' ts' →
    Leads (.methods :: gs) (ts ++ .closeBrace :: rest) gs' ts'
  | _, _, _, _, .nil, hrest => .refine rfl (.take hrest)
  | _, _, _, _, .cons hf hfs, hrest => by
      have hleads := hf.leads (hfs.leads hrest)
      cases hf
      rw [List.append_assoc]
      exact .refine rfl (by simpa using hleads)

end

end Statements

/-- A program fulfils the goal of a script. -/
theorem Declaration.SpelledEach.leads_script {ds : List Declaration} {ts : List Kind}
    (hds : SpelledEach ds ts) : Leads [.script] (ts ++ [.endOfInput]) [] [] :=
  hds.leads Goal.encloses_script .refl

end LoxCompiler
