import LoxCompiler.Proofs.Binding.Bound
import LoxCompiler.Proofs.Scanning.Replace
import LoxCompiler.Proofs.Scanning.Stored

/-! # Numbers of tokens as names

To tell the occurrences of a name apart, each token of a source has its number as its name. What a
number is called is the name of the token in the source. With the names of the tokens replaced by
something, the tokens of the source are the tokens with these numbers, called something.
-/

namespace LoxCompiler

variable {ν μ : Type}

theorem TokenKind.name?_mapName (f : ν → μ) (kind : TokenKind ν) :
    (kind.mapName f).name? = kind.name?.map f := by
  cases kind with
  | literal value => cases value <;> rfl
  | _ => rfl

theorem TokenKind.mapName_mapName {ξ : Type} (g : μ → ξ) (f : ν → μ) (kind : TokenKind ν) :
    (kind.mapName f).mapName g = kind.mapName (g ∘ f) := by
  cases kind with
  | literal value => cases value <;> rfl
  | _ => rfl

theorem TokenKind.mapName_congr {f g : ν → μ} {kind : TokenKind ν}
    (h : ∀ name, kind.name? = some name → f name = g name) : kind.mapName f = kind.mapName g := by
  cases kind with
  | identifier name => exact congrArg TokenKind.identifier (h name rfl)
  | literal value =>
      cases value with
      | string name => exact congrArg (fun name => TokenKind.literal (.string name)) (h name rfl)
      | _ => rfl
  | _ => rfl

namespace Scanned

/-- The kinds of some tokens, each with its number as its name. -/
def numbered (n : Nat) (items : List (Scanned Bytes)) : List Kind :=
  (items.zipIdx n).filterMap fun (item, i) =>
    item.toOption.map fun token => token.kind.mapName fun _ => ⟨i⟩

/-- What the token with a number is called, where tokens are counted from one. -/
def called (items : List (Scanned Bytes)) (x : Symbol) : Bytes :=
  match items[x.index - 1]? with
  | some (.ok token) => token.kind.name?.getD []
  | _ => []

variable {n : Nat} {items : List (Scanned Bytes)}

theorem numbered_cons (token : Token Bytes) (items : List (Scanned Bytes)) :
    numbered n (.ok token :: items) =
      (token.kind.mapName fun _ => ⟨n⟩) :: numbered (n + 1) items := by
  simp [numbered, List.zipIdx_cons, Except.toOption]

theorem called_eq {token : Token Bytes} {i : Nat} {name : Bytes}
    (hitem : (.ok token, i) ∈ items.zipIdx 1) (hname : token.kind.name? = some name) :
    called items ⟨i⟩ = name := by
  obtain ⟨-, hget⟩ := List.mk_mem_zipIdx_iff_le_and_getElem?_sub.mp hitem
  simp [called, hget, hname]

/-- What is numbered is a token. -/
theorem exists_of_mem_numbered {x : Symbol} {kind : Kind} (hkind : kind ∈ numbered n items)
    (hx : kind.name? = some x) : ∃ token name, (.ok token, x.index) ∈ items.zipIdx n ∧
      token.kind.name? = some name ∧ kind = token.kind.mapName fun _ => x := by
  obtain ⟨⟨item, i⟩, hitem, hsome⟩ := List.mem_filterMap.mp hkind
  cases item with
  | error e => cases hsome
  | ok token =>
      cases hsome
      rw [TokenKind.name?_mapName] at hx
      obtain ⟨name, hname, rfl⟩ := Option.map_eq_some_iff.mp hx
      exact ⟨token, name, hitem, hname, rfl⟩

/-- No two tokens have the same number. -/
theorem nodup_numbered (hclean : ∀ e, .error e ∉ items) :
    ((numbered n items).filterMap TokenKind.name?).Nodup ∧
      ∀ x ∈ (numbered n items).filterMap TokenKind.name?, n ≤ x.index := by
  induction items generalizing n with
  | nil => exact ⟨List.nodup_nil, fun _ h => (List.not_mem_nil h).elim⟩
  | cons item items ih =>
      cases item with
      | error e => exact (hclean e List.mem_cons_self).elim
      | ok token =>
          obtain ⟨hnodup, hle⟩ := ih (n := n + 1) fun e he => hclean e (List.mem_cons_of_mem _ he)
          rw [numbered_cons, List.filterMap_cons, TokenKind.name?_mapName]
          cases token.kind.name? with
          | none => exact ⟨hnodup, fun x hx => Nat.le_of_succ_le (hle x hx)⟩
          | some name =>
              refine ⟨List.nodup_cons.mpr ⟨fun hmem => ?_, hnodup⟩, ?_⟩
              · exact Nat.not_succ_le_self n (hle _ hmem)
              · exact List.forall_mem_cons.mpr
                  ⟨Nat.le_refl n, fun x hx => Nat.le_of_succ_le (hle x hx)⟩

/-- The tokens with numbers for their names, called something, are the tokens with their names
replaced, if the numbers are called what their names are replaced by. -/
theorem map_numbered (hclean : ∀ e, .error e ∉ items) {σ : Symbol → μ} {f : Bytes → μ}
    (h : ∀ token i name, (.ok token, i) ∈ items.zipIdx n → token.kind.name? = some name →
      σ ⟨i⟩ = f name) :
    ((numbered n items).map (TokenKind.mapName σ)).map Except.ok =
      items.map (Except.map fun token => token.kind.mapName f) := by
  induction items generalizing n with
  | nil => rfl
  | cons item items ih =>
      cases item with
      | error e => exact (hclean e List.mem_cons_self).elim
      | ok token =>
          have htail := ih (n := n + 1) (fun e he => hclean e (List.mem_cons_of_mem _ he))
            fun token i name hitem => h token i name (List.mem_cons_of_mem _ hitem)
          rw [numbered_cons, List.map_cons, List.map_cons, List.map_cons, htail,
            TokenKind.mapName_mapName]
          exact congrArg (fun kind => Except.ok kind :: _) (TokenKind.mapName_congr
            fun name hname => h token n name List.mem_cons_self hname)

/-- The names of some items are stored when all of them have been. -/
theorem resolve?_symbol {items : List (Scanned Bytes)} {t₀ t : SymbolTable}
    (h : (internAll items t₀).2.Extends t) {token : Token Bytes} (htoken : .ok token ∈ items)
    {name : Bytes} (hname : token.kind.name? = some name) :
    t.resolve? (t.symbol name) = some name := by
  induction items generalizing t₀ with
  | nil => cases htoken
  | cons item items ih =>
      rw [internAll_cons] at h
      rcases List.mem_cons.mp htoken with rfl | htoken
      · have hfirst : (token.kind.intern t₀).2.Extends t := (extends_internAll items _).trans h
        have hstored : (t₀.intern name).2.Extends t := by
          generalize token.kind = kind at hname hfirst
          cases kind with
          | identifier x =>
              cases hname
              exact hfirst
          | literal value =>
              cases value with
              | string x =>
                  cases hname
                  exact hfirst
              | _ => cases hname
          | _ => cases hname
        have hresolve := hstored.resolve? (SymbolTable.resolve?_intern name t₀)
        rwa [SymbolTable.symbol_of_resolve? hresolve]
      · exact ih h htoken

/-! ## Replaced tokens -/

variable {chosen : List Symbol} {other : Bytes}

theorem replaceIn_clean (hclean : ∀ e, .error e ∉ items) (e : LexicalError) :
    .error e ∉ replaceIn chosen other n items := by
  intro he
  obtain ⟨⟨item, i⟩, hitem, heq⟩ := List.mem_map.mp he
  cases item with
  | error e => exact hclean e (List.fst_mem_of_mem_zipIdx hitem)
  | ok token =>
      dsimp only at heq
      split at heq <;> cases heq

/-- Tokens that are replaced have the same numbers. -/
theorem numbered_replaceIn (hclean : ∀ e, .error e ∉ items) (h : Identifiers chosen n items) :
    numbered n (replaceIn chosen other n items) = numbered n items := by
  induction items generalizing n with
  | nil => rfl
  | cons item items ih =>
      have htail := ih (fun e he => hclean e (List.mem_cons_of_mem _ he)) h.tail
      by_cases hmem : ⟨n⟩ ∈ chosen
      · obtain ⟨token, name, rfl, hkind⟩ := h item n List.mem_cons_self hmem
        rw [replaceIn_cons_of_mem hmem, numbered_cons, numbered_cons, htail, hkind]
        rfl
      · cases item with
        | error e => exact (hclean e List.mem_cons_self).elim
        | ok token => rw [replaceIn_cons_of_notMem hmem, numbered_cons, numbered_cons, htail]

/-- A token among replaced ones is one of the others, or it is the other identifier. -/
theorem mem_zipIdx_replaceIn {token : Token Bytes} {i : Nat} (h : Identifiers chosen n items)
    (hitem : (.ok token, i) ∈ (replaceIn chosen other n items).zipIdx n) :
    (⟨i⟩ ∉ chosen ∧ (.ok token, i) ∈ items.zipIdx n) ∨
      ⟨i⟩ ∈ chosen ∧ token.kind = .identifier other := by
  induction items generalizing n with
  | nil => cases hitem
  | cons item items ih =>
      by_cases hmem : ⟨n⟩ ∈ chosen
      · obtain ⟨token', name, rfl, -⟩ := h item n List.mem_cons_self hmem
        rw [replaceIn_cons_of_mem hmem, List.zipIdx_cons] at hitem
        rcases List.mem_cons.mp hitem with heq | hitem
        · cases heq
          exact .inr ⟨hmem, rfl⟩
        · exact (ih h.tail hitem).imp (And.imp id (List.mem_cons_of_mem _)) id
      · rw [replaceIn_cons_of_notMem hmem, List.zipIdx_cons] at hitem
        rcases List.mem_cons.mp hitem with heq | hitem
        · cases heq
          exact .inl ⟨hmem, List.mem_cons_self⟩
        · exact (ih h.tail hitem).imp (And.imp id (List.mem_cons_of_mem _)) id

end Scanned

end LoxCompiler
