import LoxCompiler.Proofs.Parsing.Step

/-! # Trees are read as expressions

Whenever a tree compiles cleanly, the parser at the level of the tree runs cleanly too, and does
the same, provided that the token after the tree ends an expression of that level. The parser
reads the leftmost part of a tree first and comes back to the operators around it one by one,
so what is shown of a part is that the parser starts with it and may go on after it.
-/

set_option synthInstance.maxSize 4096

namespace LoxCompiler.Compile

variable {β : Type} {w : Width β}

/-- Compiling an expression takes a token. -/
theorem remaining_expression (e : Expression) {s t : Session β}
    (h : Cleanly (e.compile : Compile w.settings Unit) s () t) :
    t.reader.remaining < s.reader.remaining := by
  have hfirst {m : Compile w.settings Unit} {γ : Type} {k : Unit → Compile w.settings γ} {b : γ}
      [Orderly m] [∀ a, Orderly (k a)] (hall : Cleanly (m >>= k) s b t)
      (hm : ∀ {u}, Cleanly m s () u → u.reader.remaining < s.reader.remaining) :
      t.reader.remaining < s.reader.remaining := by
    obtain ⟨_, u, hu, hrest⟩ := hall.of_bind
    exact Nat.lt_of_le_of_lt hrest.remaining_le (hm hu)
  have htoken {kind : Kind} {γ : Type} {k : Unit → Compile w.settings γ} {b : γ}
      [∀ a, Orderly (k a)] (hall : Cleanly (expect kind >>= k) s b t)
      (hkind : kind ≠ .endOfInput) : t.reader.remaining < s.reader.remaining :=
    hfirst hall fun hu => hu.remaining_of_expect hkind
  unfold Expression.compile at h
  match e with
  | .literal _ | .variable _ | .assign _ _ | .receiver | .group _ | .unary _ _ =>
      exact htoken h (by nofun)
  | .superGet _ | .superCall _ _ =>
      obtain ⟨_, u, hmethod, hrest⟩ := h.of_bind
      obtain ⟨_, v, hsuper, hmore⟩ := Cleanly.of_bind (show Cleanly (_ >>= fun _ => _) _ _ _ from hmethod)
      have h₁ := hsuper.remaining_of_expect (by nofun)
      have h₂ := hmore.remaining_le
      have h₃ := hrest.remaining_le
      omega
  | .binary _ left _ | .and left _ | .or left _ => exact hfirst h (remaining_expression left)
  | .call object _ | .get object _ | .set object _ _ | .invoke object _ _ =>
      exact hfirst h (remaining_expression object)

/-- The first token of an expression is one that starts expressions. -/
theorem leading_expression {level : Precedence} {e : Expression} {ts : List Kind} {s t : Session β}
    (he : Expression.Spelled level e ts)
    (h : Cleanly (e.compile : Compile w.settings Unit) s () t) :
    ∃ leading, (Rule.ofKind s.reader.current.kind).leading = some leading := by
  have htoken {kind : Kind} {leading : Leading} {γ : Type} {k : Unit → Compile w.settings γ} {b : γ}
      [∀ a, Orderly (k a)] (hall : Cleanly (expect kind >>= k) s b t)
      (hkind : (Rule.ofKind kind).leading = some leading) :
      ∃ leading, (Rule.ofKind s.reader.current.kind).leading = some leading := by
    obtain ⟨_, u, hu, _⟩ := hall.of_bind
    rw [hu.kind_of_expect]
    exact ⟨leading, hkind⟩
  match he with
  | .weaken he => exact leading_expression he h
  | .set he _ | .or he _ | .and he _ | .binary _ he _ | .call _ he _ | .get he | .invoke he _ =>
      unfold Expression.compile at h
      obtain ⟨_, u, hu, _⟩ := h.of_bind
      exact leading_expression he hu
  | .assign _ | .receiver | .variable | .group _ =>
      unfold Expression.compile at h
      exact htoken h rfl
  | .unary hunary _ =>
      unfold Expression.compile at h
      exact htoken h hunary
  | .superCall _ | .superGet =>
      unfold Expression.compile at h
      obtain ⟨_, u, hmethod, _⟩ := h.of_bind
      obtain ⟨_, v, hsuper, _⟩ :=
        Cleanly.of_bind (show Cleanly (_ >>= fun _ => _) _ _ _ from hmethod)
      rw [hsuper.kind_of_expect]
      exact ⟨_, rfl⟩
  | .literal (l := value) =>
      unfold Expression.compile at h
      cases value <;> exact htoken h rfl

theorem leading_arguments {e : Expression} {es : List Expression} {ts : List Kind} {count : Nat}
    {s t : Session β} (hes : Expression.SpelledEach (e :: es) ts)
    (h : Cleanly (Expression.compileEach (e :: es) count : Compile w.settings Unit) s () t) :
    ∃ leading, (Rule.ofKind s.reader.current.kind).leading = some leading := by
  cases hes with
  | last he =>
      unfold Expression.compileEach at h
      obtain ⟨_, u, hvalue, _⟩ := h.of_bind
      exact leading_expression he hvalue
  | more he _ =>
      unfold Expression.compileEach at h
      obtain ⟨_, u, hvalue, _⟩ := h.of_bind
      exact leading_expression he hvalue

/-- An operand accepts the trees of its level, if there are few enough tokens left. -/
def AcceptsTrees (n : Nat) (operand : Precedence → Compile w.settings Unit) : Prop :=
  ∀ ⦃level : Precedence⦄ ⦃e : Expression⦄ ⦃ts : List Kind⦄ ⦃s t : Session β⦄,
    Expression.Spelled level e ts → .assignment ≤ level → level ≤ .unary →
    Cleanly (e.compile : Compile w.settings Unit) s () t →
    ¬ level ≤ (Rule.ofKind t.reader.current.kind).precedence →
    (level ≤ .assignment → t.reader.current.kind ≠ .operator .assign) →
    s.reader.remaining ≤ n → Cleanly (operand level) s () t

section Level

variable {operand : Precedence → Compile w.settings Unit} {n : Nat}
  (hoperand : AcceptsTrees n operand) {budget : Nat} {s t u : Session β}

include hoperand

/-- A whole expression before a token that is no operator. -/
theorem AcceptsTrees.whole {e : Expression} {ts : List Kind} {kind : Kind}
    (he : Expression.Spelled .assignment e ts)
    (h : Cleanly (e.compile : Compile w.settings Unit) s () t)
    (hend : t.reader.current.kind = kind) (hrule : (Rule.ofKind kind).precedence = .none)
    (hkind : kind ≠ .operator .assign) (hn : s.reader.remaining ≤ n) :
    Cleanly (operand .assignment) s () t := by
  apply hoperand he (by decide) (by decide) h _ _ hn
  · rw [hend, hrule]
    decide
  · rw [hend]
    exact fun _ => hkind

theorem separated_accepts {es : List Expression} {e : Expression} {ts : List Kind} {fuel count : Nat}
    (hes : Expression.SpelledEach (e :: es) ts)
    (h : Cleanly (Expression.compileEach (e :: es) count : Compile w.settings Unit) s () t)
    (hend : t.reader.current.kind = .closeParen) (hn : s.reader.remaining ≤ n)
    (hfuel : s.reader.remaining ≤ fuel) :
    Cleanly (separated (fun count => do
        operand .assignment
        if w.limits.arguments = some count then report .tooManyArguments) fuel count)
      s (count + (e :: es).length) t := by
  induction es generalizing e ts fuel count s with
  | nil =>
      cases hes with
      | last he =>
          unfold Expression.compileEach at h
          obtain ⟨_, u, hvalue, hcheck⟩ := h.of_bind
          have hless := remaining_expression e hvalue
          have hreader : u.reader = t.reader := (Still.reader_eq hcheck).symm
          have hargument :=
            hoperand.whole he hvalue (by rw [hreader, hend]) rfl (by nofun) hn
          have hclosed : t.reader.current.kind ≠ .comma := by
            rw [hend]
            nofun
          cases fuel with
          | zero => omega
          | succ fuel =>
              unfold separated
              have hnone : Cleanly (accept .comma : Compile w.settings Bool) t false t :=
                cleanly_accept.mpr (.inr ⟨rfl, hclosed, hcheck.after, rfl⟩)
              exact (hargument.bind hcheck).bind
                (hnone.bind (cleanly_pure.mpr ⟨hcheck.after, rfl, rfl⟩))
  | cons e' es ih =>
      cases hes with
      | more he hrest =>
          unfold Expression.compileEach at h
          obtain ⟨_, u, hvalue, h₁⟩ := h.of_bind
          obtain ⟨_, v, hcheck, h₂⟩ := h₁.of_bind
          obtain ⟨_, x, hcomma, hmore⟩ := h₂.of_bind
          have hless := remaining_expression e hvalue
          have hle := hcheck.remaining_le
          have hlate := hcomma.remaining_le
          have hreader : u.reader = v.reader := (Still.reader_eq hcheck).symm
          have hargument := hoperand.whole he hvalue
            (by rw [hreader, hcomma.kind_of_expect]) rfl (by nofun) hn
          cases fuel with
          | zero => omega
          | succ fuel =>
              have hcount : count + (e :: e' :: es).length = count + 1 + (e' :: es).length := by
                simp only [List.length_cons]
                omega
              rw [hcount]
              unfold separated
              have hsome : Cleanly (accept .comma : Compile w.settings Bool) v true x :=
                cleanly_accept.mpr (.inl ⟨rfl, hcomma⟩)
              exact (hargument.bind hcheck).bind
                (hsome.bind (ih hrest hmore (by omega) (by omega)))

theorem argumentList_accepts {es : List Expression} {ts : List Kind}
    (hes : Expression.SpelledEach es ts)
    (h : Cleanly (Expression.compileEach es 0 : Compile w.settings Unit) s () t)
    (hclose : Cleanly (expect .closeParen : Compile w.settings Unit) t () u)
    (hn : s.reader.remaining ≤ n) (hbudget : n ≤ budget) :
    Cleanly (argumentList operand budget) s (Limits.clamp w.limits.arguments es.length) u := by
  have hconsume : Cleanly (consume .closeParen "Expect ')' after arguments." :
      Compile w.settings Unit) t () u := cleanly_consume_iff_expect.mpr hclose
  have hdone {count : Nat} : Cleanly (pure (Limits.clamp w.limits.arguments count) :
      Compile w.settings Nat) u (Limits.clamp w.limits.arguments count) u :=
    cleanly_pure.mpr ⟨hclose.after, rfl, rfl⟩
  unfold argumentList
  dsimp only
  rw [cleanly_check_bind]
  cases es with
  | nil =>
      unfold Expression.compileEach at h
      obtain ⟨_, _, rfl⟩ := cleanly_pure.mp h
      have hopen : t.reader.check .closeParen = true := decide_eq_true hclose.kind_of_expect
      rw [if_pos hopen, pure_bind]
      exact hconsume.bind hdone
  | cons e es =>
      have hopen : s.reader.check .closeParen = false := by
        obtain ⟨leading, hleading⟩ := leading_arguments hes h
        apply decide_eq_false
        intro hkind
        rw [hkind] at hleading
        cases hleading
      rw [if_neg (Bool.eq_false_iff.mp hopen)]
      refine Cleanly.bind ?_ (hconsume.bind hdone)
      have hall := separated_accepts hoperand hes h hclose.kind_of_expect hn (Nat.le_trans hn hbudget)
      rwa [Nat.zero_add] at hall

variable [∀ level, Orderly (operand level)]

omit hoperand in
/-- The parser starts with some tokens and goes on from there. -/
def Opens (operand : Precedence → Compile w.settings Unit) (budget : Nat) (level : Precedence)
    (s t : Session β) : Prop :=
  ∃ u, Cleanly (start operand budget level) s () u ∧
    Repeats (atOperator level) (operator operand budget level) u t

omit hoperand in
/-- At an operator the parser goes on with it. -/
theorem repeats_of_token {level : Precedence} {kind : Kind} {continuing : Continuing}
    {x y : Session β} (hfirst : Cleanly (expect kind : Compile w.settings Unit) s () x)
    (hcontinuing : (Rule.ofKind kind).continuing = some continuing)
    (hlevel : level ≤ (Rule.ofKind kind).precedence)
    (h : Cleanly (extend operand budget (decide (level ≤ .assignment)) continuing) x () y)
    (hrest : Repeats (atOperator level) (operator operand budget level) y u) :
    Repeats (atOperator level) (operator operand budget level) s u := by
  refine Repeats.again ?_ (operator_of_token hfirst hcontinuing h) hrest
  rw [← hfirst.kind_of_expect] at hlevel
  exact cleanly_atOperator.mpr ⟨hfirst.before, (decide_eq_true hlevel).symm, rfl⟩

omit hoperand in
theorem start_literal {level : Precedence} {value : Literal Symbol}
    (htoken : Cleanly (expect (.literal value) : Compile w.settings Unit) s () u)
    (hpush : Cleanly (pushLiteral value : Compile w.settings Unit) u () t) :
    Cleanly (start operand budget level) s () t := by
  cases value with
  | nil =>
      refine start_of_token .literal htoken rfl ?_
      unfold lead wordLiteral
      rw [cleanly_previous_bind, htoken.previous_of_expect]
      exact hpush
  | boolean value =>
      refine start_of_token .literal htoken rfl ?_
      unfold lead wordLiteral
      rw [cleanly_previous_bind, htoken.previous_of_expect]
      cases value <;> exact hpush
  | number value =>
      refine start_of_token .number htoken rfl ?_
      unfold lead numberLiteral
      rw [cleanly_previous_bind, htoken.previous_of_expect]
      exact hpush
  | string value =>
      refine start_of_token .string htoken rfl ?_
      unfold lead stringLiteral
      rw [cleanly_previous_bind, htoken.previous_of_expect]
      exact hpush

omit hoperand [∀ level, Orderly (operand level)] in
/-- After the name of a method of the superclass, the parser looks for arguments. -/
theorem superclass_of_method (operand : Precedence → Compile w.settings Unit) (budget : Nat)
    {method super : Symbol} {index : Nat}
    (h : Cleanly (superMethod method : Compile w.settings (Nat × Symbol)) s (index, super) u) :
    ∃ v, Cleanly (expect (.keyword .superWord) : Compile w.settings Unit) s () v ∧
      ∀ {t}, Cleanly (do
        if ← accept .openParen then
          let arguments ← argumentList operand budget
          loadVariable super
          emitWith .superInvoke index
          emitCell arguments
        else
          loadVariable super
          emitWith .getSuper index) u () t → Cleanly (superclass operand budget) v () t := by
  unfold superMethod at h
  dsimp only at h
  obtain ⟨_, v, hsuper, h₁⟩ := h.of_bind
  rw [cleanly_read_bind] at h₁
  obtain ⟨_, a, hproblem, h₂⟩ := h₁.of_bind
  obtain ⟨_, b, hdot, h₃⟩ := h₂.of_bind
  obtain ⟨_, c, hname, h₄⟩ := h₃.of_bind
  obtain ⟨found, d, hindex, h₅⟩ := h₄.of_bind
  rw [cleanly_read_bind] at h₅
  obtain ⟨_, x, hthis, hdone⟩ := h₅.of_bind
  obtain ⟨_, hanswer, rfl⟩ := cleanly_pure.mp hdone
  cases hanswer
  refine ⟨v, hsuper, fun {t} hrest => ?_⟩
  unfold superclass
  dsimp only
  refine cleanly_read_bind.mpr (hproblem.bind ?_)
  refine (cleanly_consume_iff_expect.mpr hdot).bind ?_
  refine (cleanly_consumeIdentifier.mpr hname).bind ?_
  rw [(cleanly_forM_report.mp hproblem).1]
  exact hindex.bind (cleanly_read_bind.mpr (hthis.bind hrest))

omit hoperand in
/-- The leftmost part of a tree of some level is read first, and the rest of the tree after it, up
to a token that may follow the tree. -/
def OpensTree (n : Nat) (operand : Precedence → Compile w.settings Unit) (budget : Nat)
    (own : Precedence) (e : Expression) : Prop :=
  ∀ ⦃level : Precedence⦄ ⦃s t u : Session β⦄, .assignment ≤ level → level ≤ own →
    level ≤ .unary → s.reader.remaining ≤ n + 1 →
    Cleanly (e.compile : Compile w.settings Unit) s () t →
    ¬ own.edge ≤ (Rule.ofKind t.reader.current.kind).precedence →
    (level ≤ .assignment → t.reader.current.kind ≠ .operator .assign) →
    (e.endsInName = true → t.reader.current.kind ≠ .openParen) →
    Repeats (atOperator level) (operator operand budget level) t u →
    Opens operand budget level s u

omit hoperand in
/-- A tree before a dot, and the property after it. -/
theorem opens_of_property {object : Expression} {level : Precedence} {a b : Session β}
    (hobject : OpensTree n operand budget .call object) (hweak : .assignment ≤ level)
    (hcall : level ≤ .call) (hlevel : level ≤ .unary) (hn : s.reader.remaining ≤ n + 1)
    (ho : Cleanly (object.compile : Compile w.settings Unit) s () a)
    (hdot : Cleanly (expect .dot : Compile w.settings Unit) a () b)
    (hproperty : Cleanly (property operand budget (decide (level ≤ .assignment))) b () t)
    (hrest : Repeats (atOperator level) (operator operand budget level) t u) :
    Opens operand budget level s u := by
  apply hobject hweak hcall hlevel hn ho
  · rw [hdot.kind_of_expect]
    exact Rule.not_primary_le .dot
  · rw [hdot.kind_of_expect]
    nofun
  · rw [hdot.kind_of_expect]
    nofun
  · exact repeats_of_token hdot rfl hcall hproperty hrest

omit hoperand [∀ level, Orderly (operand level)] in
theorem opensTree_weaken {own : Precedence} {e : Expression}
    (he : OpensTree n operand budget own.next e) :
    OpensTree n operand budget own e := by
  intro level s t u hweak hown hlevel hn h hnext hassign hmethod hrest
  apply he hweak _ hlevel hn h _ hassign hmethod hrest
  · exact Precedence.le_trans hown (Precedence.le_next _)
  · intro hedge
    exact hnext (Precedence.le_trans (Precedence.edge_mono (Precedence.le_next _)) hedge)

theorem opensTree_assign {name : Symbol} {value : Expression} {ts : List Kind}
    (hvalue : Expression.Spelled .assignment value ts) :
    OpensTree n operand budget .assignment (.assign name value) := by
  intro level s t u hweak hown hlevel hn h hnext hassign hmethod hrest
  unfold Expression.compile at h
  obtain ⟨_, a, hname, h₁⟩ := h.of_bind
  obtain ⟨access, b, haccess, h₂⟩ := h₁.of_bind
  obtain ⟨_, c, hequals, h₃⟩ := h₂.of_bind
  obtain ⟨_, d, hv, hemit⟩ := h₃.of_bind
  have hless := hname.remaining_of_expect (by nofun)
  have hle := haccess.remaining_le
  have hle' := hequals.remaining_le
  have hreader : d.reader = t.reader := (Still.reader_eq hemit).symm
  have hoperandValue : Cleanly (operand .assignment) c () d := by
    apply hoperand hvalue (by decide) (by decide) hv _ _ (by omega)
    · rwa [hreader]
    · rw [hreader]
      exact fun _ => hassign hown
  refine ⟨t, start_of_token _ hname rfl ?_, hrest⟩
  unfold lead named
  rw [cleanly_previous_bind, hname.previous_of_expect]
  have hfound : Cleanly (acceptAssign (decide (level ≤ .assignment)) :
      Compile w.settings Bool) b true c :=
    cleanly_acceptAssign.mpr (.inl ⟨rfl, decide_eq_true hown, hequals⟩)
  exact haccess.bind (hfound.bind (hoperandValue.bind hemit))

theorem opensTree_set {object value : Expression} {name : Symbol} {ts : List Kind}
    (hobject : OpensTree n operand budget .call object)
    (hvalue : Expression.Spelled .assignment value ts) :
    OpensTree n operand budget .assignment (.set object name value) := by
  intro level s t u hweak hown hlevel hn h hnext hassign hmethod hrest
  unfold Expression.compile at h
  obtain ⟨_, a, ho, h₁⟩ := h.of_bind
  obtain ⟨_, b, hdot, h₂⟩ := h₁.of_bind
  obtain ⟨_, c, hname, h₃⟩ := h₂.of_bind
  obtain ⟨index, d, hindex, h₄⟩ := h₃.of_bind
  obtain ⟨_, x, hequals, h₅⟩ := h₄.of_bind
  obtain ⟨_, y, hv, hemit⟩ := h₅.of_bind
  have hless := remaining_expression _ ho
  have hlate : x.reader.remaining ≤ a.reader.remaining :=
    Nat.le_trans hequals.remaining_le (Nat.le_trans hindex.remaining_le
      (Nat.le_trans hname.remaining_le hdot.remaining_le))
  have hreader : y.reader = t.reader := (Still.reader_eq hemit).symm
  have hoperandValue : Cleanly (operand .assignment) x () y := by
    apply hoperand hvalue (by decide) (by decide) hv _ _ (by omega)
    · rwa [hreader]
    · rw [hreader]
      exact fun _ => hassign hown
  have hproperty : Cleanly (property operand budget (decide (level ≤ .assignment))) b () t := by
    have hfound : Cleanly (acceptAssign (decide (level ≤ .assignment)) :
        Compile w.settings Bool) d true x :=
      cleanly_acceptAssign.mpr (.inl ⟨rfl, decide_eq_true hown, hequals⟩)
    unfold property
    exact (cleanly_consumeIdentifier.mpr hname).bind
      (hindex.bind (hfound.bind (hoperandValue.bind hemit)))
  exact opens_of_property hobject hweak (Precedence.le_trans hlevel (by decide)) hlevel hn ho hdot
    hproperty hrest

theorem opensTree_or {l r : Expression} {ts : List Kind}
    (hl : OpensTree n operand budget .and l) (hr : Expression.Spelled .or r ts) :
    OpensTree n operand budget .or (.or l r) := by
  intro level s t u hweak hown hlevel hn h hnext hassign hmethod hrest
  unfold Expression.compile at h
  obtain ⟨_, a, hleft, h₁⟩ := h.of_bind
  obtain ⟨_, b, hor, h₂⟩ := h₁.of_bind
  obtain ⟨next, c, hjump, h₃⟩ := h₂.of_bind
  obtain ⟨skip, d, hskip, h₄⟩ := h₃.of_bind
  obtain ⟨_, x, hpatch, h₅⟩ := h₄.of_bind
  obtain ⟨_, y, hpop, h₆⟩ := h₅.of_bind
  obtain ⟨_, z, hright, hend⟩ := h₆.of_bind
  have hless := remaining_expression _ hleft
  have hlate : y.reader.remaining ≤ a.reader.remaining :=
    Nat.le_trans hpop.remaining_le (Nat.le_trans hpatch.remaining_le
      (Nat.le_trans hskip.remaining_le (Nat.le_trans hjump.remaining_le hor.remaining_le)))
  have hreader : z.reader = t.reader := (Still.reader_eq hend).symm
  have hoperandRight : Cleanly (operand .or) y () z := by
    apply hoperand hr (by decide) (by decide) hright _ (fun hle => nomatch hle) (by omega)
    rwa [hreader]
  apply hl hweak (Precedence.le_trans hown (by decide)) hlevel hn hleft
  · rw [hor.kind_of_expect]
    decide
  · rw [hor.kind_of_expect]
    nofun
  · rw [hor.kind_of_expect]
    nofun
  · refine repeats_of_token hor rfl hown ?_ hrest
    exact hjump.bind (hskip.bind (hpatch.bind (hpop.bind (hoperandRight.bind hend))))

theorem opensTree_and {l r : Expression} {ts : List Kind}
    (hl : OpensTree n operand budget .equality l) (hr : Expression.Spelled .and r ts) :
    OpensTree n operand budget .and (.and l r) := by
  intro level s t u hweak hown hlevel hn h hnext hassign hmethod hrest
  unfold Expression.compile at h
  obtain ⟨_, a, hleft, h₁⟩ := h.of_bind
  obtain ⟨_, b, hand, h₂⟩ := h₁.of_bind
  obtain ⟨skip, c, hskip, h₃⟩ := h₂.of_bind
  obtain ⟨_, x, hpop, h₄⟩ := h₃.of_bind
  obtain ⟨_, y, hright, hend⟩ := h₄.of_bind
  have hless := remaining_expression _ hleft
  have hlate : x.reader.remaining ≤ a.reader.remaining :=
    Nat.le_trans hpop.remaining_le (Nat.le_trans hskip.remaining_le hand.remaining_le)
  have hreader : y.reader = t.reader := (Still.reader_eq hend).symm
  have hoperandRight : Cleanly (operand .and) x () y := by
    apply hoperand hr (by decide) (by decide) hright _ (fun hle => nomatch hle) (by omega)
    rwa [hreader]
  apply hl hweak (Precedence.le_trans hown (by decide)) hlevel hn hleft
  · rw [hand.kind_of_expect]
    decide
  · rw [hand.kind_of_expect]
    nofun
  · rw [hand.kind_of_expect]
    nofun
  · refine repeats_of_token hand rfl hown ?_ hrest
    exact hskip.bind (hpop.bind (hoperandRight.bind hend))

theorem opensTree_binary {op : Operator} {l r : Expression} {ts : List Kind}
    (hbinary : (Rule.ofOperator op).continuing = some .binary)
    (hl : OpensTree n operand budget (Rule.ofOperator op).precedence l)
    (hr : Expression.Spelled (Rule.ofOperator op).precedence.next r ts) :
    OpensTree n operand budget (Rule.ofOperator op).precedence (.binary op l r) := by
  intro level s t u hweak hown hlevel hn h hnext hassign hmethod hrest
  obtain ⟨hedge, _⟩ := Rule.binary_level hbinary
  have hright : .assignment ≤ (Rule.ofOperator op).precedence.next ∧
      (Rule.ofOperator op).precedence.next ≤ .unary ∧
      ¬ (Rule.ofOperator op).precedence.next ≤ .assignment ∧ op ≠ .assign := by
    revert hbinary
    cases op <;> decide
  obtain ⟨hstrong, hunary, hnever, hop⟩ := hright
  unfold Expression.compile at h
  obtain ⟨_, a, hleft, h₁⟩ := h.of_bind
  obtain ⟨_, b, htoken, h₂⟩ := h₁.of_bind
  obtain ⟨_, c, hvalue, hemit⟩ := h₂.of_bind
  have hless := remaining_expression _ hleft
  have hlate := htoken.remaining_le
  have hreader : c.reader = t.reader := (Still.reader_eq hemit).symm
  have hoperandRight : Cleanly (operand (Rule.ofOperator op).precedence.next) b () c := by
    apply hoperand hr hstrong hunary hvalue _ (fun hle => (hnever hle).elim) (by omega)
    rwa [hreader, ← hedge]
  apply hl hweak hown hlevel hn hleft
  · rw [htoken.kind_of_expect, hedge]
    revert hbinary
    cases op <;> decide
  · rw [htoken.kind_of_expect]
    intro _ heq
    cases heq
    exact hop rfl
  · rw [htoken.kind_of_expect]
    nofun
  · refine repeats_of_token htoken hbinary hown ?_ hrest
    unfold extend binary
    dsimp only
    rw [cleanly_previous_bind, htoken.previous_of_expect]
    exact hoperandRight.bind hemit

theorem opensTree_unary {op : Operator} {e : Expression} {ts : List Kind}
    (hunary : (Rule.ofOperator op).leading = some .unary)
    (hvalue : Expression.Spelled .unary e ts) :
    OpensTree n operand budget .unary (.unary op e) := by
  intro level s t u hweak hown hlevel hn h hnext hassign hmethod hrest
  unfold Expression.compile at h
  obtain ⟨_, a, htoken, h₁⟩ := h.of_bind
  obtain ⟨_, b, hv, hemit⟩ := h₁.of_bind
  have hless := htoken.remaining_of_expect (by nofun)
  have hreader : b.reader = t.reader := (Still.reader_eq hemit).symm
  have hoperandValue : Cleanly (operand .unary) a () b := by
    apply hoperand hvalue (by decide) (by decide) hv _ (fun hle => nomatch hle) (by omega)
    rwa [hreader]
  refine ⟨t, start_of_token _ htoken hunary ?_, hrest⟩
  unfold lead unary
  dsimp only
  rw [cleanly_previous_bind, htoken.previous_of_expect]
  exact hoperandValue.bind hemit

theorem opensTree_call (hbudget : n ≤ budget) {f : Expression} {es : List Expression} {ts : List Kind}
    (hplain : f.endsInName = false) (hcallee : OpensTree n operand budget .call f)
    (hes : Expression.SpelledEach es ts) :
    OpensTree n operand budget .call (.call f es) := by
  intro level s t u hweak hown hlevel hn h hnext hassign hmethod hrest
  unfold Expression.compile at h
  obtain ⟨_, a, hc, h₁⟩ := h.of_bind
  obtain ⟨_, b, hopen, h₂⟩ := h₁.of_bind
  obtain ⟨_, c, hargs, h₃⟩ := h₂.of_bind
  obtain ⟨_, x, hclose, hemit⟩ := h₃.of_bind
  have hless := remaining_expression _ hc
  have hlate := hopen.remaining_le
  have harguments := argumentList_accepts hoperand hes hargs hclose (by omega) hbudget
  apply hcallee hweak hown hlevel hn hc
  · rw [hopen.kind_of_expect]
    exact Rule.not_primary_le .openParen
  · rw [hopen.kind_of_expect]
    nofun
  · intro hends
    rw [hplain] at hends
    cases hends
  · exact repeats_of_token hopen rfl hown (harguments.bind hemit) hrest

omit hoperand in
theorem opensTree_get {object : Expression} {name : Symbol}
    (hobject : OpensTree n operand budget .call object) :
    OpensTree n operand budget .call (.get object name) := by
  intro level s t u hweak hown hlevel hn h hnext hassign hmethod hrest
  unfold Expression.compile at h
  obtain ⟨_, a, ho, h₁⟩ := h.of_bind
  obtain ⟨_, b, hdot, h₂⟩ := h₁.of_bind
  obtain ⟨_, c, hname, h₃⟩ := h₂.of_bind
  obtain ⟨index, d, hindex, hemit⟩ := h₃.of_bind
  have hreader : d.reader = t.reader := (Still.reader_eq hemit).symm
  have hproperty : Cleanly (property operand budget (decide (level ≤ .assignment))) b () t := by
    have hnone : Cleanly (acceptAssign (decide (level ≤ .assignment)) :
        Compile w.settings Bool) d false d := by
      refine cleanly_acceptAssign.mpr (.inr ⟨rfl, fun hle => ?_, hemit.before, rfl⟩)
      rw [hreader]
      exact hassign (of_decide_eq_true hle)
    have hplain : Cleanly (accept .openParen : Compile w.settings Bool) d false d := by
      refine cleanly_accept.mpr (.inr ⟨rfl, ?_, hemit.before, rfl⟩)
      rw [hreader]
      exact hmethod rfl
    unfold property
    exact (cleanly_consumeIdentifier.mpr hname).bind
      (hindex.bind (hnone.bind (hplain.bind hemit)))
  exact opens_of_property hobject hweak hown hlevel hn ho hdot hproperty hrest

theorem opensTree_invoke (hbudget : n ≤ budget) {object : Expression} {name : Symbol}
    {es : List Expression}
    {ts : List Kind} (hobject : OpensTree n operand budget .call object)
    (hes : Expression.SpelledEach es ts) :
    OpensTree n operand budget .call (.invoke object name es) := by
  intro level s t u hweak hown hlevel hn h hnext hassign hmethod hrest
  unfold Expression.compile at h
  obtain ⟨_, a, ho, h₁⟩ := h.of_bind
  obtain ⟨_, b, hdot, h₂⟩ := h₁.of_bind
  obtain ⟨_, c, hname, h₃⟩ := h₂.of_bind
  obtain ⟨index, d, hindex, h₄⟩ := h₃.of_bind
  obtain ⟨_, x, hopen, h₅⟩ := h₄.of_bind
  obtain ⟨_, y, hargs, h₆⟩ := h₅.of_bind
  obtain ⟨_, z, hclose, hemit⟩ := h₆.of_bind
  have hless := remaining_expression _ ho
  have hlate : x.reader.remaining ≤ a.reader.remaining :=
    Nat.le_trans hopen.remaining_le (Nat.le_trans hindex.remaining_le
      (Nat.le_trans hname.remaining_le hdot.remaining_le))
  have harguments := argumentList_accepts hoperand hes hargs hclose (by omega) hbudget
  have hproperty : Cleanly (property operand budget (decide (level ≤ .assignment))) b () t := by
    have hnone : Cleanly (acceptAssign (decide (level ≤ .assignment)) :
        Compile w.settings Bool) d false d := by
      refine cleanly_acceptAssign.mpr (.inr ⟨rfl, fun _ => ?_, hopen.before, rfl⟩)
      rw [hopen.kind_of_expect]
      nofun
    have hcalled : Cleanly (accept .openParen : Compile w.settings Bool) d true x :=
      cleanly_accept.mpr (.inl ⟨rfl, hopen⟩)
    unfold property
    exact (cleanly_consumeIdentifier.mpr hname).bind
      (hindex.bind (hnone.bind (hcalled.bind (harguments.bind hemit))))
  exact opens_of_property hobject hweak hown hlevel hn ho hdot hproperty hrest

omit hoperand in
theorem opensTree_receiver :
    OpensTree n operand budget .primary .receiver := by
  intro level s t u hweak hown hlevel hn h hnext hassign hmethod hrest
  unfold Expression.compile at h
  obtain ⟨_, a, hthis, hemit⟩ := h.of_bind
  exact ⟨t, start_of_token _ hthis rfl hemit, hrest⟩

omit hoperand in
theorem opensTree_variable {name : Symbol} :
    OpensTree n operand budget .primary (.variable name) := by
  intro level s t u hweak hown hlevel hn h hnext hassign hmethod hrest
  unfold Expression.compile at h
  obtain ⟨_, a, hname, h₁⟩ := h.of_bind
  obtain ⟨access, b, haccess, hemit⟩ := h₁.of_bind
  have hreader : b.reader = t.reader := (Still.reader_eq hemit).symm
  refine ⟨t, start_of_token _ hname rfl ?_, hrest⟩
  unfold lead named
  rw [cleanly_previous_bind, hname.previous_of_expect]
  have hnone : Cleanly (acceptAssign (decide (level ≤ .assignment)) :
      Compile w.settings Bool) b false b := by
    refine cleanly_acceptAssign.mpr (.inr ⟨rfl, fun hle => ?_, hemit.before, rfl⟩)
    rw [hreader]
    exact hassign (of_decide_eq_true hle)
  exact haccess.bind (hnone.bind hemit)

omit hoperand in
theorem opensTree_literal {value : Literal Symbol} :
    OpensTree n operand budget .primary (.literal value) := by
  intro level s t u hweak hown hlevel hn h hnext hassign hmethod hrest
  unfold Expression.compile at h
  obtain ⟨_, a, htoken, hemit⟩ := h.of_bind
  exact ⟨t, start_literal htoken hemit, hrest⟩

theorem opensTree_group {e : Expression} {ts : List Kind} (hinner : Expression.Spelled .assignment e ts) :
    OpensTree n operand budget .primary (.group e) := by
  intro level s t u hweak hown hlevel hn h hnext hassign hmethod hrest
  unfold Expression.compile at h
  obtain ⟨_, a, hopen, h₁⟩ := h.of_bind
  obtain ⟨_, b, hi, hclose⟩ := h₁.of_bind
  have hless := hopen.remaining_of_expect (by nofun)
  have hoperandInner :=
    hoperand.whole hinner hi hclose.kind_of_expect rfl (by nofun) (by omega)
  refine ⟨t, start_of_token _ hopen rfl ?_, hrest⟩
  exact hoperandInner.bind (cleanly_consume_iff_expect.mpr hclose)

omit hoperand in
theorem opensTree_superGet {name : Symbol} :
    OpensTree n operand budget .primary (.superGet name) := by
  intro level s t u hweak hown hlevel hn h hnext hassign hmethod hrest
  unfold Expression.compile at h
  obtain ⟨⟨index, super⟩, a, hmethodOf, hemit⟩ := h.of_bind
  obtain ⟨b, hsuper, hrestOf⟩ := superclass_of_method operand budget hmethodOf
  have hreader : a.reader = t.reader := (Still.reader_eq hemit).symm
  have hplain : Cleanly (accept .openParen : Compile w.settings Bool) a false a := by
    refine cleanly_accept.mpr (.inr ⟨rfl, ?_, hemit.before, rfl⟩)
    rw [hreader]
    exact hmethod rfl
  exact ⟨t, start_of_token _ hsuper rfl (hrestOf (hplain.bind hemit)), hrest⟩

theorem opensTree_superCall (hbudget : n ≤ budget) {name : Symbol} {es : List Expression} {ts : List Kind}
    (hes : Expression.SpelledEach es ts) :
    OpensTree n operand budget .call (.superCall name es) := by
  intro level s t u hweak hown hlevel hn h hnext hassign hmethod hrest
  unfold Expression.compile at h
  obtain ⟨⟨index, super⟩, a, hmethodOf, h₁⟩ := h.of_bind
  obtain ⟨_, b, hopen, h₂⟩ := h₁.of_bind
  obtain ⟨_, c, hargs, h₃⟩ := h₂.of_bind
  obtain ⟨_, d, hclose, hemit⟩ := h₃.of_bind
  obtain ⟨x, hsuper, hrestOf⟩ := superclass_of_method operand budget hmethodOf
  have hless := hmethodOf.remaining_le
  have hlate := hopen.remaining_of_expect (by nofun)
  have harguments := argumentList_accepts hoperand hes hargs hclose (by omega) hbudget
  have hcalled : Cleanly (accept .openParen : Compile w.settings Bool) a true b :=
    cleanly_accept.mpr (.inl ⟨rfl, hopen⟩)
  exact ⟨t, start_of_token _ hsuper rfl (hrestOf (hcalled.bind (harguments.bind hemit))), hrest⟩

theorem opensTree_of_spelled (hbudget : n ≤ budget) {own : Precedence} {e : Expression}
    {ts : List Kind} (he : Expression.Spelled own e ts) : OpensTree n operand budget own e := by
  match he with
  | .weaken he => exact opensTree_weaken (opensTree_of_spelled hbudget he)
  | .assign hvalue => exact opensTree_assign hoperand hvalue
  | .set hobject hvalue => exact opensTree_set hoperand (opensTree_of_spelled hbudget hobject) hvalue
  | .or hl hr => exact opensTree_or hoperand (opensTree_of_spelled hbudget hl) hr
  | .and hl hr => exact opensTree_and hoperand (opensTree_of_spelled hbudget hl) hr
  | .binary hbinary hl hr => exact opensTree_binary hoperand hbinary (opensTree_of_spelled hbudget hl) hr
  | .unary hunary hvalue => exact opensTree_unary hoperand hunary hvalue
  | .call hplain hcallee hes =>
      exact opensTree_call hoperand hbudget hplain (opensTree_of_spelled hbudget hcallee) hes
  | .get hobject => exact opensTree_get (opensTree_of_spelled hbudget hobject)
  | .invoke hobject hes =>
      exact opensTree_invoke hoperand hbudget (opensTree_of_spelled hbudget hobject) hes
  | .receiver => exact opensTree_receiver
  | .variable => exact opensTree_variable
  | .literal => exact opensTree_literal
  | .group hinner => exact opensTree_group hoperand hinner
  | .superGet => exact opensTree_superGet
  | .superCall hes => exact opensTree_superCall hoperand hbudget hes

theorem expressionStep_accepts (hbudget : n < budget) {level : Precedence} {e : Expression}
    {ts : List Kind} (he : Expression.Spelled level e ts) (hweak : .assignment ≤ level)
    (hlevel : level ≤ .unary) (h : Cleanly (e.compile : Compile w.settings Unit) s () t)
    (hnext : ¬ level ≤ (Rule.ofKind t.reader.current.kind).precedence)
    (hassign : level ≤ .assignment → t.reader.current.kind ≠ .operator .assign)
    (hn : s.reader.remaining ≤ n + 1) : Cleanly (expressionStep operand budget level) s () t := by
  have hstop : Repeats (atOperator level) (operator operand budget level) t t :=
    .stop (cleanly_atOperator.mpr ⟨h.after, (decide_eq_false hnext).symm, rfl⟩)
  have hedge : ¬ level.edge ≤ (Rule.ofKind t.reader.current.kind).precedence :=
    fun hle => hnext (Precedence.le_trans (Precedence.le_edge level) hle)
  have hmethod : e.endsInName = true → t.reader.current.kind ≠ .openParen := by
    intro _ hopen
    rw [hopen] at hnext
    exact hnext (Precedence.le_trans hlevel (by decide))
  obtain ⟨u, hstart, hloop⟩ := opensTree_of_spelled hoperand (Nat.le_of_lt hbudget) he hweak
    (Precedence.le_refl level) hlevel hn h hedge hassign hmethod hstop
  obtain ⟨x, leading, htoken, _, hleading, hlead⟩ := cleanly_start.mp hstart
  have hless := htoken.remaining_of_expect (by
    intro hkind
    rw [hkind] at hleading
    cases hleading)
  have hle := hlead.remaining_le
  refine cleanly_expressionStep.mpr ⟨u, hstart, hloop.enough ?_ (by omega), hassign⟩
  intro a b c hgo hstep
  obtain ⟨_, hgo, rfl⟩ := cleanly_atOperator.mp hgo
  have hsome : (Rule.ofKind b.reader.current.kind).precedence ≠ .none := by
    intro hnone
    have hge := of_decide_eq_true hgo.symm
    rw [hnone] at hge
    exact absurd (Precedence.le_trans hweak hge) (by decide)
  obtain ⟨continuing, hcontinuing⟩ := Rule.continuing_of_precedence hsome
  obtain ⟨d, hfirst, _, hextend⟩ := (cleanly_operator hcontinuing).mp hstep
  have htaken := hfirst.remaining_of_expect (by
    intro hkind
    rw [hkind] at hcontinuing
    cases hcontinuing)
  exact Nat.lt_of_le_of_lt hextend.remaining_le htaken

end Level

/-- Every tree that compiles cleanly is accepted by the expression parser of its level. -/
theorem expressionAt_accepts (n : Nat) :
    AcceptsTrees n (expressionAt n : Precedence → Compile w.settings Unit) := by
  induction n with
  | zero =>
      intro level e ts s t _ _ _ h _ _ hn
      have hless := remaining_expression e h
      omega
  | succ n ih =>
      intro level e ts s t he hweak hlevel h hnext hassign hn
      have hstep := expressionStep_accepts ih (Nat.lt_succ_self n) he hweak hlevel h hnext hassign hn
      exact ⟨hstep.before, hstep.run, hstep.after⟩

/-- A whole expression before a token that is no operator is accepted. -/
theorem expression_accepts (budget : Nat) {e : Expression} {ts : List Kind} {kind : Kind}
    {s t : Session β} (he : Expression.Spelled .assignment e ts)
    (h : Cleanly (e.compile : Compile w.settings Unit) s () t)
    (hend : t.reader.current.kind = kind) (hrule : (Rule.ofKind kind).precedence = .none)
    (hkind : kind ≠ .operator .assign) (hbudget : s.reader.remaining ≤ budget) :
    Cleanly (expression budget : Compile w.settings Unit) s () t :=
  AcceptsTrees.whole (expressionAt_accepts budget) he h hend hrule hkind hbudget

end LoxCompiler.Compile
