import LoxCompiler.Proofs.Parsing.Unique

/-! # One program for each sequence of tokens

The first token of a statement or a declaration decides what it is, and an `else` belongs to the
nearest `if`. So no two programs are spelled by the same tokens.
-/

namespace LoxCompiler

/-! ## Expressions before other tokens -/

/-- An expression starts with a token that may start one. -/
theorem Parses.leading {level : Precedence} {k : Kind} {ts us : List Kind} {e : Expression}
    (h : Parses level (k :: ts) e us) : (Rule.ofKind k).leading ≠ none := by
  cases h with
  | @literal _ value =>
      cases value <;> exact Option.some_ne_none _
  | unary isUnary =>
      intro hnone
      cases isUnary.symm.trans hnone
  | _ => exact Option.some_ne_none _

namespace Expression.Spelled

variable {e e' : Expression} {ts ts' rest rest' us : List Kind} {k : Kind}

theorem exists_leading (he : e.Spelled .assignment ts) :
    ∃ k us, ts = k :: us ∧ (Rule.ofKind k).leading ≠ none := by
  have h : Parses .assignment (ts ++ [.semicolon]) e [.semicolon] :=
    he.parses (Precedence.le_refl _) (.whole rfl (by simp))
      (.stop (by simp [Rule.ofKind, Rule.absent]; decide))
  cases ts with
  | nil => exact absurd rfl h.leading
  | cons k us => exact ⟨k, us, rfl, h.leading⟩

/-- No expression starts with a token that starts none. -/
theorem ne_cons (he : e.Spelled .assignment ts) (hk : (Rule.ofKind k).leading = none) :
    ts ++ rest ≠ k :: us := by
  obtain ⟨k', vs, rfl, hleading⟩ := he.exists_leading
  rintro h
  obtain rfl := (List.cons.inj h).1
  exact hleading hk

/-- An expression before a token that takes no part in expressions. -/
theorem unique_before (hk : (Rule.ofKind k).precedence = .none) (hassign : k ≠ .operator .assign)
    (he : e.Spelled .assignment ts) (he' : e'.Spelled .assignment ts')
    (h : ts ++ k :: rest = ts' ++ k :: rest') : e = e' ∧ ts = ts' ∧ rest = rest' := by
  obtain ⟨rfl, rfl⟩ := he.unique he' h (.whole hk hassign) (.whole hk hassign)
  exact ⟨rfl, rfl, (List.cons.inj (List.append_cancel_left h)).2⟩

theorem unique_semicolon (he : e.Spelled .assignment ts) (he' : e'.Spelled .assignment ts')
    (h : ts ++ .semicolon :: rest = ts' ++ .semicolon :: rest') :
    e = e' ∧ ts = ts' ∧ rest = rest' :=
  unique_before rfl (by simp) he he' h

theorem unique_closeParen (he : e.Spelled .assignment ts) (he' : e'.Spelled .assignment ts')
    (h : ts ++ .closeParen :: rest = ts' ++ .closeParen :: rest') :
    e = e' ∧ ts = ts' ∧ rest = rest' :=
  unique_before rfl (by simp) he he' h

end Expression.Spelled

/-- An expression that may be absent, before a token that starts and continues none. -/
theorem Expression.SpelledOption.unique_before {value value' : Option Expression}
    {ts ts' rest rest' : List Kind} {k : Kind} (hk : Rule.ofKind k = .absent)
    (hassign : k ≠ .operator .assign) (he : Expression.SpelledOption value ts)
    (he' : Expression.SpelledOption value' ts') (h : ts ++ k :: rest = ts' ++ k :: rest') :
    value = value' ∧ ts = ts' ∧ rest = rest' := by
  have hleading : (Rule.ofKind k).leading = .none := by rw [hk]; rfl
  cases he with
  | none =>
      cases he' with
      | none => exact ⟨rfl, rfl, (List.cons.inj h).2⟩
      | some he' => exact (he'.ne_cons hleading h.symm).elim
  | some he =>
      cases he' with
      | none => exact (he.ne_cons hleading h).elim
      | some he' =>
          obtain ⟨rfl, rfl, hrest⟩ := he.unique_before (by rw [hk]; rfl) hassign he' h
          exact ⟨rfl, rfl, hrest⟩

theorem Declaration.VariableSpelled.unique {x x' : Symbol} {value value' : Option Expression}
    {ts ts' rest rest' : List Kind} (hv : Declaration.VariableSpelled x value ts)
    (hv' : Declaration.VariableSpelled x' value' ts') (h : ts ++ rest = ts' ++ rest') :
    x = x' ∧ value = value' ∧ ts = ts' ∧ rest = rest' := by
  cases hv with
  | bare =>
      cases hv' with
      | bare =>
          simp only [List.cons_append, List.nil_append, List.cons.injEq, TokenKind.identifier.injEq,
            true_and] at h
          obtain ⟨rfl, rfl⟩ := h
          exact ⟨rfl, rfl, rfl, rfl⟩
      | initial he' => simp at h
  | initial he =>
      cases hv' with
      | bare => simp at h
      | initial he' =>
          simp only [List.append_assoc, List.cons_append, List.nil_append, List.cons.injEq,
            TokenKind.identifier.injEq, true_and] at h
          obtain ⟨rfl, htail⟩ := h
          obtain ⟨rfl, rfl, rfl⟩ := he.unique_semicolon he' htail
          exact ⟨rfl, rfl, rfl, rfl⟩

theorem Initializer.Spelled.unique {first first' : Initializer} {ts ts' rest rest' : List Kind}
    (hi : first.Spelled ts) (hi' : first'.Spelled ts') (h : ts ++ rest = ts' ++ rest') :
    first = first' ∧ ts = ts' ∧ rest = rest' := by
  cases hi with
  | absent =>
      cases hi' with
      | absent => exact ⟨rfl, rfl, List.append_cancel_left h⟩
      | «variable» hv' => simp at h
      | expression he' =>
          rw [List.append_assoc] at h
          exact (he'.ne_cons rfl h.symm).elim
  | «variable» hv =>
      cases hi' with
      | absent => simp at h
      | «variable» hv' =>
          obtain ⟨rfl, rfl, rfl, rfl⟩ := hv.unique hv' (List.cons.inj h).2
          exact ⟨rfl, rfl, rfl⟩
      | expression he' =>
          rw [List.append_assoc] at h
          exact (he'.ne_cons rfl h.symm).elim
  | expression he =>
      rw [List.append_assoc] at h
      cases hi' with
      | absent => exact (he.ne_cons rfl h).elim
      | «variable» hv' => exact (he.ne_cons rfl h).elim
      | expression he' =>
          rw [List.append_assoc] at h
          obtain ⟨rfl, rfl, rfl⟩ := he.unique_semicolon he' h
          exact ⟨rfl, rfl, rfl⟩

theorem FunctionTree.unique_parameterTokens {ps ps' : List Symbol} {rest rest' : List Kind}
    (h : FunctionTree.parameterTokens ps ++ .closeParen :: rest =
      FunctionTree.parameterTokens ps' ++ .closeParen :: rest') : ps = ps' ∧ rest = rest' := by
  induction ps generalizing ps' with
  | nil =>
      match ps' with
      | [] => exact ⟨rfl, (List.cons.inj h).2⟩
      | [_] | _ :: _ :: _ => simp [FunctionTree.parameterTokens] at h
  | cons x ps ih =>
      match ps, ps' with
      | [], [] | _ :: _, [] => simp [FunctionTree.parameterTokens] at h
      | [], [_] | [], _ :: _ :: _ | _ :: _, [_] => simp_all [FunctionTree.parameterTokens]
      | y :: ps, x' :: y' :: ps' =>
          simp only [FunctionTree.parameterTokens, List.cons_append, List.cons.injEq,
            TokenKind.identifier.injEq, true_and] at h
          obtain ⟨rfl, htail⟩ := h
          obtain ⟨hps, rfl⟩ := ih htail
          exact ⟨congrArg _ hps, rfl⟩

theorem Declaration.unique_superclassTokens {x x' : Option Symbol} {rest rest' : List Kind}
    (h : Declaration.superclassTokens x ++ .openBrace :: rest =
      Declaration.superclassTokens x' ++ .openBrace :: rest') : x = x' ∧ rest = rest' := by
  cases x <;> cases x' <;> simp_all [Declaration.superclassTokens]

/-! ## What starts a declaration -/

/-- A token that may start a statement. -/
def TokenKind.opensStatement : Kind → Bool
  | .keyword .printWord | .keyword .ifWord | .keyword .whileWord | .keyword .forWord
  | .keyword .returnWord | .openBrace => true
  | k => (Rule.ofKind k).leading.isSome

/-- A token that may start a declaration. -/
def TokenKind.opensDeclaration : Kind → Bool
  | .keyword .classWord | .keyword .funWord | .keyword .varWord => true
  | k => k.opensStatement

theorem TokenKind.opensStatement_of_leading {k : Kind} (h : (Rule.ofKind k).leading ≠ none) :
    k.opensStatement = true := by
  have hsome : (Rule.ofKind k).leading.isSome = true := by
    cases hleading : (Rule.ofKind k).leading with
    | none => exact absurd hleading h
    | some leading => rfl
  unfold opensStatement
  split
  all_goals first | rfl | exact hsome

theorem TokenKind.opensDeclaration_of_statement {k : Kind} (h : k.opensStatement = true) :
    k.opensDeclaration = true := by
  unfold opensDeclaration
  split
  all_goals first | rfl | exact h

theorem Statement.Spelled.exists_opens {s : Statement} {ts : List Kind} (h : s.Spelled ts) :
    ∃ k us, ts = k :: us ∧ k.opensStatement = true := by
  cases h with
  | expression he =>
      obtain ⟨k, us, rfl, hk⟩ := he.exists_leading
      exact ⟨k, _, rfl, TokenKind.opensStatement_of_leading hk⟩
  | _ => exact ⟨_, _, rfl, rfl⟩

theorem Declaration.Spelled.exists_opens {d : Declaration} {ts : List Kind} (h : d.Spelled ts) :
    ∃ k us, ts = k :: us ∧ k.opensDeclaration = true := by
  cases h with
  | statement hs =>
      obtain ⟨k, us, rfl, hk⟩ := hs.exists_opens
      exact ⟨k, us, rfl, TokenKind.opensDeclaration_of_statement hk⟩
  | _ => exact ⟨_, _, rfl, rfl⟩

/-- No statement starts with a token that starts none. -/
theorem Statement.Spelled.ne_cons {s : Statement} {ts rest us : List Kind} {k : Kind}
    (hs : s.Spelled ts) (hk : k.opensStatement = false) : ts ++ rest ≠ k :: us := by
  obtain ⟨k', vs, rfl, hopens⟩ := hs.exists_opens
  rintro h
  obtain rfl := (List.cons.inj h).1
  exact Bool.false_ne_true (hk.symm.trans hopens)

/-- What comes after some declarations: the end of a block, or that of the program. -/
def Stops (rest : List Kind) : Prop := ∀ k ∈ rest.head?, k = .closeBrace

theorem Declaration.Spelled.not_stops {d : Declaration} {ts rest : List Kind} (hd : d.Spelled ts) :
    ¬ Stops (ts ++ rest) := by
  obtain ⟨k, us, rfl, hopens⟩ := hd.exists_opens
  intro hstops
  obtain rfl : k = .closeBrace := hstops k rfl
  cases hopens

/-- No `else` comes after declarations. -/
theorem Declaration.SpelledEach.head?_ne_else {ds : List Declaration} {ts rest : List Kind}
    (hds : Declaration.SpelledEach ds ts) (hrest : Stops rest) :
    (ts ++ rest).head? ≠ some (.keyword .elseWord) := by
  cases hds with
  | nil =>
      intro h
      cases hrest _ h
  | cons hd hds =>
      obtain ⟨k, us, rfl, hopens⟩ := hd.exists_opens
      intro h
      cases Option.some.inj h
      cases hopens

/-! ## Statements and declarations -/

/-- What comes after a statement: no `else`, if it would belong to the statement. -/
def Statement.Ends (s : Statement) (rest : List Kind) : Prop :=
  s.endsOpen = true → rest.head? ≠ some (.keyword .elseWord)

mutual

/-- A statement is known from the tokens that spell it, whatever comes after them. -/
theorem Statement.Spelled.unique : ∀ {s s' : Statement} {ts ts' rest rest' : List Kind},
    s.Spelled ts → s'.Spelled ts' → s.Ends rest → s'.Ends rest' → ts ++ rest = ts' ++ rest' →
      s = s' ∧ ts = ts' ∧ rest = rest'
  | _, _, _, _, _, _, .expression he, hs', _, _, h => by
      rw [List.append_assoc] at h
      cases hs' with
      | expression he' =>
          rw [List.append_assoc] at h
          obtain ⟨rfl, rfl, rfl⟩ := he.unique_semicolon he' h
          exact ⟨rfl, rfl, rfl⟩
      | _ => exact (he.ne_cons rfl h).elim
  | _, _, _, _, _, _, .print he, hs', _, _, h => by
      cases hs' with
      | expression he' =>
          simp only [List.append_assoc, List.cons_append] at h
          exact (he'.ne_cons rfl h.symm).elim
      | print he' =>
          simp only [List.append_assoc, List.cons_append, List.nil_append, List.cons.injEq,
            true_and] at h
          obtain ⟨rfl, rfl, rfl⟩ := he.unique_semicolon he' h
          exact ⟨rfl, rfl, rfl⟩
      | _ => simp at h
  | _, _, _, _, _, _, .ifThen he hb, hs', hends, hends', h => by
      cases hs' with
      | expression he' =>
          simp only [List.append_assoc, List.cons_append] at h
          exact (he'.ne_cons rfl h.symm).elim
      | ifThen he' hb' =>
          simp only [List.append_assoc, List.cons_append, List.cons.injEq, true_and] at h
          obtain ⟨rfl, rfl, hrest⟩ := he.unique_closeParen he' h
          obtain ⟨rfl, rfl, rfl⟩ := hb.unique hb' (fun _ => hends rfl) (fun _ => hends' rfl) hrest
          exact ⟨rfl, rfl, rfl⟩
      | ifElse hclosed he' hb' ho' =>
          simp only [List.append_assoc, List.cons_append, List.cons.injEq, true_and] at h
          obtain ⟨rfl, rfl, hrest⟩ := he.unique_closeParen he' h
          obtain ⟨rfl, rfl, rfl⟩ := hb.unique hb' (fun _ => hends rfl)
            (fun hopen => by simp [hclosed] at hopen) hrest
          exact (hends rfl rfl).elim
      | _ => simp at h
  | _, _, _, _, _, _, @Statement.Spelled.ifElse _ b _ _ _ _ hclosed he hb ho, hs', hends, hends',
      h => by
      have hfirst {rest : List Kind} : b.Ends rest := fun hopen => by simp [hclosed] at hopen
      cases hs' with
      | expression he' =>
          simp only [List.append_assoc, List.cons_append] at h
          exact (he'.ne_cons rfl h.symm).elim
      | ifThen he' hb' =>
          simp only [List.append_assoc, List.cons_append, List.cons.injEq, true_and] at h
          obtain ⟨rfl, rfl, hrest⟩ := he.unique_closeParen he' h
          obtain ⟨rfl, rfl, rfl⟩ := hb.unique hb' hfirst (fun _ => hends' rfl) hrest
          exact (hends' rfl rfl).elim
      | ifElse hclosed' he' hb' ho' =>
          simp only [List.append_assoc, List.cons_append, List.cons.injEq, true_and] at h
          obtain ⟨rfl, rfl, hbodies⟩ := he.unique_closeParen he' h
          obtain ⟨rfl, rfl, hrest⟩ := hb.unique hb' hfirst
            (fun hopen => by simp [hclosed'] at hopen) hbodies
          obtain ⟨rfl, rfl, rfl⟩ := ho.unique ho' hends hends' (List.cons.inj hrest).2
          exact ⟨rfl, rfl, rfl⟩
      | _ => simp at h
  | _, _, _, _, _, _, .whileLoop he hb, hs', hends, hends', h => by
      cases hs' with
      | expression he' =>
          simp only [List.append_assoc, List.cons_append] at h
          exact (he'.ne_cons rfl h.symm).elim
      | whileLoop he' hb' =>
          simp only [List.append_assoc, List.cons_append, List.cons.injEq, true_and] at h
          obtain ⟨rfl, rfl, hrest⟩ := he.unique_closeParen he' h
          obtain ⟨rfl, rfl, rfl⟩ := hb.unique hb' hends hends' hrest
          exact ⟨rfl, rfl, rfl⟩
      | _ => simp at h
  | _, _, _, _, _, _, .forLoop hi he hn hb, hs', hends, hends', h => by
      cases hs' with
      | expression he' =>
          simp only [List.append_assoc, List.cons_append] at h
          exact (he'.ne_cons rfl h.symm).elim
      | forLoop hi' he' hn' hb' =>
          simp only [List.append_assoc, List.cons_append, List.cons.injEq, true_and] at h
          obtain ⟨rfl, rfl, hclauses⟩ := hi.unique hi' h
          obtain ⟨rfl, rfl, hclause⟩ := he.unique_before rfl (by simp) he' hclauses
          obtain ⟨rfl, rfl, hbody⟩ := hn.unique_before rfl (by simp) hn' hclause
          obtain ⟨rfl, rfl, rfl⟩ := hb.unique hb' hends hends' hbody
          exact ⟨rfl, rfl, rfl⟩
      | _ => simp at h
  | _, _, _, _, _, _, .ret he, hs', _, _, h => by
      cases hs' with
      | expression he' =>
          simp only [List.append_assoc, List.cons_append] at h
          exact (he'.ne_cons rfl h.symm).elim
      | ret he' =>
          simp only [List.append_assoc, List.cons_append, List.nil_append, List.cons.injEq,
            true_and] at h
          obtain ⟨rfl, rfl, rfl⟩ := he.unique_before rfl (by simp) he' h
          exact ⟨rfl, rfl, rfl⟩
      | _ => simp at h
  | _, _, _, _, _, _, .block hds, hs', _, _, h => by
      cases hs' with
      | expression he' =>
          simp only [List.append_assoc, List.cons_append] at h
          exact (he'.ne_cons rfl h.symm).elim
      | block hds' =>
          simp only [List.append_assoc, List.cons_append, List.nil_append, List.cons.injEq,
            true_and] at h
          obtain ⟨rfl, rfl, hrest⟩ := hds.unique_before hds' (by simp [Stops]) (by simp [Stops]) h
          exact ⟨rfl, rfl, (List.cons.inj hrest).2⟩
      | _ => simp at h

/-- A declaration is known from the tokens that spell it, whatever comes after them. -/
theorem Declaration.Spelled.unique : ∀ {d d' : Declaration} {ts ts' rest rest' : List Kind},
    d.Spelled ts → d'.Spelled ts' → rest.head? ≠ some (.keyword .elseWord) →
      rest'.head? ≠ some (.keyword .elseWord) → ts ++ rest = ts' ++ rest' →
      d = d' ∧ ts = ts' ∧ rest = rest'
  | _, _, _, _, _, _, .classDeclaration hms, hd', _, _, h => by
      cases hd' with
      | classDeclaration hms' =>
          simp only [List.append_assoc, List.cons_append, List.nil_append, List.cons.injEq,
            TokenKind.identifier.injEq, true_and] at h
          obtain ⟨rfl, hsuper⟩ := h
          obtain ⟨rfl, hbody⟩ := Declaration.unique_superclassTokens hsuper
          obtain ⟨rfl, rfl, rfl⟩ := hms.unique_before hms' hbody
          exact ⟨rfl, rfl, rfl⟩
      | statement hs' => exact (hs'.ne_cons rfl (by rw [← h]; rfl)).elim
      | _ => simp at h
  | _, _, _, _, _, _, .funDeclaration hf, hd', _, _, h => by
      cases hd' with
      | funDeclaration hf' =>
          obtain ⟨rfl, rfl, rfl⟩ := hf.unique hf' (List.cons.inj h).2
          exact ⟨rfl, rfl, rfl⟩
      | statement hs' => exact (hs'.ne_cons rfl h.symm).elim
      | _ => simp at h
  | _, _, _, _, _, _, .varDeclaration hv, hd', _, _, h => by
      cases hd' with
      | varDeclaration hv' =>
          obtain ⟨rfl, rfl, rfl, rfl⟩ := hv.unique hv' (List.cons.inj h).2
          exact ⟨rfl, rfl, rfl⟩
      | statement hs' => exact (hs'.ne_cons rfl h.symm).elim
      | _ => simp at h
  | _, _, _, _, _, _, .statement hs, hd', hrest, hrest', h => by
      cases hd' with
      | statement hs' =>
          obtain ⟨rfl, rfl, rfl⟩ := hs.unique hs' (fun _ => hrest) (fun _ => hrest') h
          exact ⟨rfl, rfl, rfl⟩
      | classDeclaration _ => exact (hs.ne_cons rfl (by rw [h]; rfl)).elim
      | _ => exact (hs.ne_cons rfl h).elim

/-- Declarations in a row are known from the tokens that spell them, before the end of a block or of
the program. -/
theorem Declaration.SpelledEach.unique_before : ∀ {ds ds' : List Declaration}
    {ts ts' rest rest' : List Kind}, Declaration.SpelledEach ds ts →
      Declaration.SpelledEach ds' ts' → Stops rest → Stops rest' → ts ++ rest = ts' ++ rest' →
      ds = ds' ∧ ts = ts' ∧ rest = rest'
  | _, _, _, _, _, _, .nil, hds', hrest, _, h => by
      cases hds' with
      | nil => exact ⟨rfl, rfl, h⟩
      | cons hd' hds' =>
          rw [List.nil_append, List.append_assoc] at h
          exact (hd'.not_stops (h ▸ hrest)).elim
  | _, _, _, _, _, _, .cons hd hds, hds', hrest, hrest', h => by
      rw [List.append_assoc] at h
      cases hds' with
      | nil =>
          rw [List.nil_append] at h
          exact (hd.not_stops (h ▸ hrest')).elim
      | cons hd' hds' =>
          rw [List.append_assoc] at h
          obtain ⟨rfl, rfl, htail⟩ := hd.unique hd' (hds.head?_ne_else hrest)
            (hds'.head?_ne_else hrest') h
          obtain ⟨rfl, rfl, rfl⟩ := hds.unique_before hds' hrest hrest' htail
          exact ⟨rfl, rfl, rfl⟩

theorem FunctionTree.Spelled.unique : ∀ {f f' : FunctionTree} {ts ts' rest rest' : List Kind},
    f.Spelled ts → f'.Spelled ts' → ts ++ rest = ts' ++ rest' → f = f' ∧ ts = ts' ∧ rest = rest'
  | _, _, _, _, _, _, .mk hds, .mk hds', h => by
      simp only [List.append_assoc, List.cons_append, List.nil_append, List.cons.injEq,
        TokenKind.identifier.injEq, true_and] at h
      obtain ⟨rfl, hparameters⟩ := h
      obtain ⟨rfl, hbody⟩ := FunctionTree.unique_parameterTokens hparameters
      obtain ⟨rfl, rfl, hrest⟩ := hds.unique_before hds' (by simp [Stops]) (by simp [Stops])
        (List.cons.inj hbody).2
      exact ⟨rfl, rfl, (List.cons.inj hrest).2⟩

theorem FunctionTree.SpelledEach.unique_before : ∀ {fs fs' : List FunctionTree}
    {ts ts' rest rest' : List Kind}, FunctionTree.SpelledEach fs ts →
      FunctionTree.SpelledEach fs' ts' → ts ++ .closeBrace :: rest = ts' ++ .closeBrace :: rest' →
      fs = fs' ∧ ts = ts' ∧ rest = rest'
  | _, _, _, _, _, _, .nil, hfs', h => by
      cases hfs' with
      | nil => exact ⟨rfl, rfl, (List.cons.inj h).2⟩
      | cons hf' _ =>
          cases hf'
          simp at h
  | _, _, _, _, _, _, .cons hf hfs, hfs', h => by
      cases hfs' with
      | nil =>
          cases hf
          simp at h
      | cons hf' hfs' =>
          rw [List.append_assoc, List.append_assoc] at h
          obtain ⟨rfl, rfl, htail⟩ := hf.unique hf' h
          obtain ⟨rfl, rfl, rfl⟩ := hfs.unique_before hfs' htail
          exact ⟨rfl, rfl, rfl⟩

end

/-- No two programs are spelled by the same tokens. -/
theorem Declaration.SpelledEach.unique {ds ds' : List Declaration} {ts : List Kind}
    (h : Declaration.SpelledEach ds ts) (h' : Declaration.SpelledEach ds' ts) : ds = ds' := by
  have hstops : Stops [] := by simp [Stops]
  exact (h.unique_before h' hstops hstops rfl).1

end LoxCompiler
