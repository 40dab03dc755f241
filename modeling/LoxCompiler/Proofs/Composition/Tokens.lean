import LoxCompiler.Proofs.Parallel.Source
import LoxCompiler.Proofs.Scanning.Seam

/-! # Sources one after the other

The second of two sources with a line break between is scanned as it is on its own, on later lines.
If the names of the first one are stored before, its tokens get the same symbols as on their own.
-/

namespace LoxCompiler

/-! ## Symbols -/

/-- A name that is stored has its symbol already. -/
theorem SymbolTable.intern_of_resolve? {t : SymbolTable} {s : Symbol} {name : Bytes}
    (h : t.resolve? s = some name) : t.intern name = (s, t) := by
  have hsymbol := SymbolTable.resolve?_intern name t
  unfold SymbolTable.intern at hsymbol ⊢
  split at hsymbol
  · rw [SymbolTable.resolve?_inj h hsymbol]
  · rename_i hnone
    rw [Array.idxOf?_eq_none_iff] at hnone
    exact (hnone (Array.mem_of_getElem? h)).elim

namespace Scanned

variable {line : Nat → Nat → Prop}

theorem internAll_append (items more : List (Scanned Bytes)) (t : SymbolTable) :
    internAll (items ++ more) t =
      ((internAll items t).1 ++ (internAll more (internAll items t).2).1,
        (internAll more (internAll items t).2).2) := by
  induction items generalizing t with
  | nil => rfl
  | cons item items ih => rw [List.cons_append, internAll_cons, ih, internAll_cons]; rfl

theorem intern_sameKind {item item' : Scanned Bytes} (h : SameKind line item item')
    (t : SymbolTable) :
    (intern item' t).2 = (intern item t).2 ∧ SameKind line (intern item t).1 (intern item' t).1 := by
  match item, item', h with
  | .error _, .error _, hcause => exact ⟨rfl, hcause⟩
  | .ok token, .ok token', ⟨hkind, hline⟩ =>
      have hsame : token.kind.intern t = token'.kind.intern t := by rw [hkind]
      have htable := congrArg Prod.snd hsame
      exact ⟨htable.symm, congrArg Prod.fst hsame, hline⟩

/-- Items of the same kinds get the same symbols. -/
theorem internAll_sameKind {items items' : List (Scanned Bytes)}
    (h : List.Forall₂ (SameKind line) items items') (t : SymbolTable) :
    (internAll items' t).2 = (internAll items t).2 ∧
      List.Forall₂ (SameKind line) (internAll items t).1 (internAll items' t).1 := by
  induction h generalizing t with
  | nil => exact ⟨rfl, .nil⟩
  | @cons item item' _ _ hitem _ ih =>
      obtain ⟨htable, hsame⟩ := intern_sameKind hitem t
      obtain ⟨hrest, hsames⟩ := ih (intern item t).2
      rw [internAll_cons, internAll_cons, htable]
      exact ⟨hrest, .cons hsame hsames⟩

/-- Items of the same kinds as some tokens are tokens of these kinds, whatever is read of a kind. -/
theorem map_kind_of_sameKind {ν μ : Type} (f : TokenKind ν → μ) {items items' : List (Scanned ν)}
    {ts : List μ} (h : List.Forall₂ (SameKind line) items items')
    (hts : items.map (Except.map fun token => f token.kind) = ts.map .ok) :
    items'.map (Except.map fun token => f token.kind) = ts.map .ok := by
  induction h generalizing ts with
  | nil => exact hts
  | @cons item item' _ _ hitem _ ih =>
      obtain ⟨kind, kinds, rfl, hkind, hkinds⟩ := List.map_eq_cons_iff.mp hts.symm
      rw [List.map_cons, List.map_cons, ih hkinds.symm]
      match item, item', hitem with
      | .ok token, .ok token', ⟨hsame, _⟩ =>
          exact congrArg (· :: _) ((congrArg (Except.ok ∘ f) hsame.symm).trans hkind.symm)

end Scanned

namespace Compilation

variable {source more : Bytes} {table : SymbolTable} {ts us : List Kind}

/-- The names of the language have their symbols already. -/
theorem implicitNames_of_extends {t : SymbolTable} (h : (implicitNames table).2.Extends t) :
    implicitNames t = ((implicitNames table).1, t) := by
  obtain ⟨hthis, hsuper, hinit⟩ := resolve?_implicitNames table
  have hthis := SymbolTable.intern_of_resolve? (h.resolve? hthis)
  have hsuper := SymbolTable.intern_of_resolve? (h.resolve? hsuper)
  have hinit := SymbolTable.intern_of_resolve? (h.resolve? hinit)
  conv_lhs => unfold implicitNames
  simp only [hthis, hsuper, hinit]

theorem implicitNames_symbolsOf (source : Bytes) (table : SymbolTable) :
    implicitNames (symbolsOf source table) =
      ((implicitNames table).1, symbolsOf source table) :=
  implicitNames_of_extends (Scanned.extends_internAll _ _)

/-- Another source after a source keeps the symbols. -/
theorem extends_symbolsOf (source more : Bytes) (table : SymbolTable) :
    (symbolsOf source table).Extends (symbolsOf more (symbolsOf source table)) := by
  have hextends := Scanned.extends_internAll (Scanned.ofSource more)
    (implicitNames (symbolsOf source table)).2
  rw [implicitNames_symbolsOf] at hextends
  rwa [symbolsOf.eq_def more, implicitNames_symbolsOf]

/-- The items of two sources with a line break between: the tokens of the first one before its end,
and the items of the second one on later lines. -/
theorem items_append_line (h : Scans source table ts) (more : Bytes) : ∃ standing last later,
    items source table = standing ++ [.ok last] ∧ last.kind = .endOfInput ∧
      standing.map (Except.map Token.kind) = ts.map .ok ∧
      items (source ++ byteOf '\n' :: more) table = standing ++ later ∧
      List.Forall₂ (Scanned.SameKind fun l l' => l' = l + (source.count (byteOf '\n') + 1))
        (items more (symbolsOf source table)) later ∧
      symbolsOf (source ++ byteOf '\n' :: more) table = symbolsOf more (symbolsOf source table) := by
  obtain ⟨standing, later, hsource, hwhole, hlater⟩ :=
    Scanned.ofSource_append_line h.no_error more
  let t := (implicitNames table).2
  let t' := (Scanned.internAll standing t).2
  -- the end of the input has no name, so the first source leaves the table as its other tokens do
  have hend : Scanned.internAll [.ending source] t' = ([.ok (.endAt (.ofBefore source)
      source.length)], t') := rfl
  have hitems : items source table =
      (Scanned.internAll standing t).1 ++ [.ok (.endAt (.ofBefore source) source.length)] := by
    rw [items, hsource, Scanned.internAll_append, hend]
  have hsymbols : symbolsOf source table = t' := by
    rw [symbolsOf, hsource, Scanned.internAll_append, hend]
  have hnames : (implicitNames (symbolsOf source table)).2 = t' := by
    rw [implicitNames_symbolsOf, hsymbols]
  obtain ⟨htable, hsame⟩ := Scanned.internAll_sameKind hlater t'
  refine ⟨_, _, (Scanned.internAll later t').1, hitems, rfl, ?_, ?_, ?_, ?_⟩
  · unfold Scans at h
    rw [hitems, List.map_append, List.map_append] at h
    exact (List.append_inj' h rfl).1
  · rw [items, hwhole, Scanned.internAll_append]
  · rw [items, hnames]
    exact hsame
  · rw [symbolsOf, hwhole, Scanned.internAll_append, symbolsOf, hnames]
    exact htable

/-- Two sources with a line break between are the tokens of both. -/
theorem Scans.append_line (h : Scans source table ts) (hmore : Scans more (symbolsOf source table) us) :
    Scans (source ++ byteOf '\n' :: more) table (ts ++ us) := by
  obtain ⟨standing, last, later, -, -, hkinds, hwhole, hlater, -⟩ := items_append_line h more
  have hlast : later.map (Except.map Token.kind) = (us ++ [TokenKind.endOfInput]).map .ok :=
    Scanned.map_kind_of_sameKind id hlater hmore
  unfold Scans
  rw [hwhole, List.map_append, hkinds, hlast, List.append_assoc, ← List.map_append]

end Compilation

end LoxCompiler
