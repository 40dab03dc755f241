import LoxCompiler.Proofs.Viable.Source

/-! # Reports about grammatical sources

A static mistake is reported like a wrong token, and tokens up to the next boundary are skipped after
it. The parser knows where it is all the same, so the tokens that close what is around the mistake
are missed later. As long as nothing is skipped, no report on a grammatical source is about its
tokens.
-/

namespace LoxCompiler

namespace Reader

theorem remaining_iterate_le (n : Nat) (r : Reader) : (advance^[n] r).remaining ≤ r.remaining := by
  induction n generalizing r with
  | zero => exact Nat.le_refl _
  | succ n ih => exact Nat.le_trans (ih r.advance) (remaining_advance_le r)

/-- A brace is no boundary. So after a report in a declaration that ends with a brace, the brace that
ends the block around it is skipped too, together with all tokens up to the next boundary. -/
theorem closing_brace_skipped {r : Reader} (hcurrent : r.current.kind = .closeBrace)
    (hprevious : r.previous.kind ≠ .semicolon) :
    0 < r.synchronize.1 ∧ r.synchronize.2.remaining < r.remaining := by
  obtain ⟨n, -, heq, hboundary, -⟩ := synchronize_eq r
  let allowed : Reader := { r with panicMode := false }
  have hinside : allowed.atBoundary = false := by
    simp [allowed, atBoundary, hcurrent, hprevious, TokenKind.startsStatement]
  cases n with
  | zero =>
      rw [heq] at hboundary
      exact (Bool.false_ne_true (hinside.symm.trans hboundary)).elim
  | succ n =>
      have hbrace : allowed.current.kind ≠ .endOfInput := by
        rw [show allowed.current = r.current from rfl, hcurrent]
        exact fun h => by cases h
      rw [heq, Function.iterate_succ_apply]
      exact ⟨Nat.succ_pos n, Nat.lt_of_le_of_lt (remaining_iterate_le n allowed.advance)
        (remaining_advance_lt hbrace)⟩

-- At the end of `fun a() {} }` the last brace is skipped.
example :
    let brace (offset : Nat) : Token Symbol := ⟨.closeBrace, .start, ⟨offset, offset + 1⟩, []⟩
    { start [.ok (brace 11)] with previous := brace 9 }.synchronize.1 = 1 := rfl

end Reader

/-- No token of a program is stuck before the goals that the tokens before it lead to. -/
theorem Declaration.SpelledEach.not_offends {ds : List Declaration} {ts : List Kind}
    {tokens : List (Token Symbol)} (hds : Declaration.SpelledEach ds ts)
    (htokens : tokens.map Token.kind = ts ++ [.endOfInput]) (token : Token Symbol) :
    ¬ Offends tokens token := by
  rintro ⟨before, after, gs, -, hstuck, hleads⟩
  rw [htokens] at hleads
  exact hleads.not_fulfilled hstuck hds.leads_script

namespace Compilation

/-- The tokens of a source, with the last one at the end of the input. -/
theorem Scans.exists_tokens {source : Bytes} {table : SymbolTable} {ts : List Kind}
    (h : Scans source table ts) : ∃ (body : List (Token Symbol)) (last : Token Symbol),
      items source table = (body ++ [last]).map .ok ∧ last.kind = .endOfInput ∧
        (body ++ [last]).map Token.kind = ts ++ [.endOfInput] := by
  obtain ⟨body, last, hitems, hlast, -⟩ := Compilation.exists_tokens table h.no_error
  have hmap : ((body ++ [last]).map Token.kind).map Except.ok =
      (ts ++ [TokenKind.endOfInput]).map (Except.ok (ε := LexicalError)) := by
    rw [← h, hitems, List.map_map, List.map_map]
    rfl
  exact ⟨body, last, hitems, hlast, List.map_injective_iff.mpr (fun _ _ => Except.ok.inj) hmap⟩

/-- Reports about the tokens of a program only come after skipped tokens. Let the tokens of a source
without lexical errors spell a program. It compiles to a function or to reports, and the first report
is not about the tokens: no certain token or expression is expected there, and nothing that cannot
be assigned to is assigned to. If a later report is about them, then the log says that tokens were
skipped after a report. -/
theorem cascade_after_skip {source : Bytes} {table : SymbolTable} {ts : List Kind}
    {ds : List Declaration} (hts : Scans source table ts) (hds : Declaration.SpelledEach ds ts) :
    ∃ c, ofSource source table = .ok c ∧
      ∀ d later, c.result = .error (d :: later) →
        d.problem.isSyntactic = false ∧
        ((∃ d' ∈ later, d'.problem.isSyntactic = true) →
          ∃ line skipped, .synchronized line skipped ∈ c.events ∧ 0 < skipped) := by
  obtain ⟨f, t, -, hc, -⟩ := exists_outcome source table
  obtain ⟨body, last, hitems, hlast, hkinds⟩ := hts.exists_tokens
  refine ⟨_, hc, fun d later hresult => ?_⟩
  rcases reports_follow hitems hlast hc hresult with hnone | ⟨token, hoffends, -⟩ | ⟨hd, hskips⟩
  · refine ⟨hnone d List.mem_cons_self, ?_⟩
    rintro ⟨d', hd', hsyntactic⟩
    cases (hnone d' (List.mem_cons_of_mem d hd')).symm.trans hsyntactic
  · exact absurd hoffends (hds.not_offends hkinds token)
  · exact ⟨hd, fun _ => hskips⟩

/-- The source `{ fun a() {} fun a() {} }`. -/
def twins : Bytes :=
  let twin := ['f', 'u', 'n', ' ', 'a', '(', ')', ' ', '{', '}', ' ']
  ascii (['{', ' '] ++ twin ++ twin ++ ['}'])

theorem spelled_twins : ∃ ts ds, Scans twins .empty ts ∧ Declaration.SpelledEach ds ts := by
  have hfun : Declaration.Spelled (.funDeclaration (.mk ⟨4⟩ [] [])) [.keyword .funWord,
      .identifier ⟨4⟩, .openParen, .closeParen, .openBrace, .closeBrace] :=
    .funDeclaration (@FunctionTree.Spelled.mk ⟨4⟩ [] [] [] .nil)
  have hblock := Statement.Spelled.block (.cons hfun (.cons hfun .nil))
  refine ⟨_, _, ?_, .cons (.statement hblock) .nil⟩
  unfold Scans
  decide +kernel

theorem diagnostics_twins : diagnostics? twins =
    some [⟨.duplicateVariable, 1, .lexeme [byteOf 'a']⟩,
      ⟨.expected "Expect '\x7d' after block.", 1, .atEnd⟩] := by
  decide +kernel

/-- The second one of the twins is a static mistake, and the brace at the end is skipped after it. -/
theorem skip_after_twins : ∃ c line skipped, ofSource twins .empty = .ok c ∧
    .synchronized line skipped ∈ c.events ∧ 0 < skipped := by
  obtain ⟨ts, ds, hts, hds⟩ := spelled_twins
  obtain ⟨c, hc, hreports⟩ := cascade_after_skip hts hds
  have hdiagnostics := diagnostics_twins
  unfold diagnostics? at hdiagnostics
  rw [hc] at hdiagnostics
  cases hresult : c.result with
  | ok f => simp [hresult] at hdiagnostics
  | error diagnostics =>
      obtain rfl : diagnostics = _ := by simpa [hresult] using hdiagnostics
      obtain ⟨line, skipped, hmem, hskipped⟩ :=
        (hreports _ _ hresult).2 ⟨_, List.mem_cons_self, rfl⟩
      exact ⟨c, line, skipped, hc, hmem, hskipped⟩

/-- A static mistake in a block is answered as if the tokens were wrong too: the tokens up to the
next boundary are skipped, and the brace that ends the block is one of them. The tokens spell a
program, yet the brace is missed. -/
theorem cascade_in_block :
    (∃ ts ds, Scans twins .empty ts ∧ Declaration.SpelledEach ds ts) ∧
      diagnostics? twins = some [⟨.duplicateVariable, 1, .lexeme [byteOf 'a']⟩,
        ⟨.expected "Expect '\x7d' after block.", 1, .atEnd⟩] :=
  ⟨spelled_twins, diagnostics_twins⟩

end Compilation

end LoxCompiler
