import LoxCompiler.Proofs.Binding.Code
import LoxCompiler.Proofs.Binding.Lines
import LoxCompiler.Proofs.Binding.Numbers
import LoxCompiler.Proofs.Binding.Rules
import LoxCompiler.Proofs.Composition.Source
import LoxCompiler.Proofs.Parsing.Programs
import LoxCompiler.Proofs.Syntax.Relabel

/-! # Sources with other names of locals

A local variable leaves no trace in what a source compiles to. Its name can be replaced where it is
declared and wherever it is bound to the declaration.
-/

namespace LoxCompiler

namespace Compilation

open Compile

variable {source other : Bytes} {table t t₀ t₁ : SymbolTable} {ts us : List Kind}
  {ds : List Declaration} {declared x : Symbol}

/-! ## Trees of numbers -/

/-- A program whose names are the numbers of their tokens in a source. -/
def Numbered (source : Bytes) (ds : List Declaration) : Prop :=
  ∃ ts, Scanned.numbered 1 (Scanned.ofSource source) = ts ++ [.endOfInput] ∧
    Declaration.SpelledEach ds ts

/-- A source is one program. -/
theorem Numbered.unique {ds' : List Declaration} (h : Numbered source ds) (h' : Numbered source ds') :
    ds = ds' := by
  obtain ⟨ts, hts, hds⟩ := h
  obtain ⟨ts', hts', hds'⟩ := h'
  obtain rfl := List.append_cancel_right (hts.symm.trans hts')
  exact hds.unique hds'

/-- The names of the language, as numbers after those of some tokens. -/
def implicitNumbers (n : Nat) : ImplicitNames := ⟨⟨n + 1⟩, ⟨n + 2⟩, ⟨n + 3⟩⟩

/-- What numbers are called in a table, those of tokens and of the names of the language. -/
def callIn (t : SymbolTable) (items : List (Scanned Bytes)) (x : Symbol) : Symbol :=
  if x = .anonymous then .anonymous
  else if x.index ≤ items.length then t.symbol (Scanned.called items x)
  else if x = (implicitNumbers items.length).this then (implicitNames t).1.this
  else if x = (implicitNumbers items.length).super then (implicitNames t).1.super
  else (implicitNames t).1.init

theorem callIn_anonymous (t : SymbolTable) (items : List (Scanned Bytes)) :
    callIn t items .anonymous = .anonymous := if_pos rfl

theorem rename_implicitNumbers (t : SymbolTable) (items : List (Scanned Bytes)) :
    (implicitNumbers items.length).rename (callIn t items) = (implicitNames t).1 := by
  have hlater (k : Nat) : ¬ items.length + (k + 1) ≤ items.length := by omega
  simp [implicitNumbers, ImplicitNames.rename, callIn, Symbol.anonymous, hlater 0, hlater 1, hlater 2]

/-- The number of a name is called its symbol. -/
theorem callIn_of_mem {items : List (Scanned Bytes)} {token : Token Bytes} {i : Nat} {name : Bytes}
    (hitem : (.ok token, i) ∈ items.zipIdx 1) (hname : token.kind.name? = some name) :
    callIn t items ⟨i⟩ = t.symbol name := by
  obtain ⟨hle, hget⟩ := List.mk_mem_zipIdx_iff_le_and_getElem?_sub.mp hitem
  obtain ⟨hlt, -⟩ := List.getElem?_eq_some_iff.mp hget
  have hne : (⟨i⟩ : Symbol) ≠ .anonymous := fun heq => by
    have hzero := congrArg Symbol.index heq
    simp only [Symbol.anonymous] at hzero
    omega
  have hindex : (⟨i⟩ : Symbol).index ≤ items.length := by
    show i ≤ items.length
    omega
  rw [callIn, if_neg hne, if_pos hindex, Scanned.called_eq hitem hname]

/-- The numbers of the tokens of a source are called their names. -/
theorem Scans.map_numbered (hscans : Scans source t ts)
    (hstored : (symbolsOf source t₀).Extends t) :
    (Scanned.numbered 1 (Scanned.ofSource source)).map
      (TokenKind.mapName (callIn t (Scanned.ofSource source))) = ts ++ [.endOfInput] := by
  have hkinds := Scanned.map_numbered hscans.no_error (f := t.symbol) (n := 1)
    fun token i name hitem hname => callIn_of_mem hitem hname
  rw [(scans_of_extends hstored).mp hscans] at hkinds
  exact List.map_injective_iff.mpr (fun _ _ => Except.ok.inj) hkinds

/-- What a source spells is a program of its numbers, with what they are called. -/
theorem Scans.exists_numbers (hscans : Scans source t ts)
    (hstored : (symbolsOf source t₀).Extends t) (hds : Declaration.SpelledEach ds ts) :
    ∃ ds', Numbered source ds' ∧
      Declaration.renameEach (callIn t (Scanned.ofSource source)) ds' = ds := by
  obtain ⟨us, ends, hnumbered, hus, hends⟩ :=
    List.map_eq_append_iff.mp (hscans.map_numbered hstored)
  obtain ⟨kind, hend, hkind⟩ := List.map_eq_singleton_iff.mp hends
  rw [TokenKind.mapName_eq_endOfInput] at hkind
  subst hkind hend
  obtain ⟨ds', hds', hrename⟩ := hds.relabel us hus
  exact ⟨ds', ⟨us, hnumbered, hds'⟩, hrename⟩

/-! ## Names of identifiers -/

/-- The number of an identifier. -/
def IsIdentifier (source : Bytes) (x : Symbol) : Prop :=
  .identifier x ∈ Scanned.numbered 1 (Scanned.ofSource source)

theorem IsIdentifier.exists_token (h : IsIdentifier source x) : ∃ token name,
    (.ok token, x.index) ∈ (Scanned.ofSource source).zipIdx 1 ∧ token.kind = .identifier name := by
  obtain ⟨token, name, hitem, hname, hkind⟩ := Scanned.exists_of_mem_numbered h rfl
  refine ⟨token, name, hitem, ?_⟩
  generalize token.kind = kind at hname hkind
  cases kind with
  | identifier x =>
      cases hname
      rfl
  | literal value => cases value <;> cases hkind
  | _ => cases hkind

/-- The numbers of tokens are not those of what is hidden, or of the name of initializers. -/
theorem IsIdentifier.notMem_hidden (h : IsIdentifier source x) :
    x ∉ (implicitNumbers (Scanned.ofSource source).length).hidden ∧
      x ≠ (implicitNumbers (Scanned.ofSource source).length).init := by
  obtain ⟨token, -, hitem, -⟩ := h.exists_token
  obtain ⟨hle, hget⟩ := List.mk_mem_zipIdx_iff_le_and_getElem?_sub.mp hitem
  obtain ⟨hlt, -⟩ := List.getElem?_eq_some_iff.mp hget
  cases x with
  | mk i =>
      dsimp only at hle hlt
      simp only [ImplicitNames.hidden, implicitNumbers, Symbol.anonymous, List.mem_cons,
        List.not_mem_nil, Symbol.mk.injEq, ne_eq, or_false]
      omega

/-- No identifier of a source is called like something hidden. -/
theorem Scans.ne_hidden {σ : Symbol → Symbol} (hscans : Scans source t ts)
    {ks : List Kind} (hks : ks.map (TokenKind.mapName σ) = ts ++ [.endOfInput])
    (hx : .identifier x ∈ ks) : ∀ z ∈ (implicitNames t).1.hidden, σ x ≠ z := by
  have hmem : .identifier (σ x) ∈ ts ++ [TokenKind.endOfInput] :=
    hks ▸ List.mem_map_of_mem (f := TokenKind.mapName σ) hx
  have hmem : .identifier (σ x) ∈ ts := by simpa using hmem
  obtain ⟨hthis, hsuper, hanonymous⟩ := hscans.mem hmem
  simp only [ne_eq, TokenKind.identifier.injEq] at hthis hsuper hanonymous
  simpa [ImplicitNames.hidden] using ⟨hthis, hsuper, hanonymous⟩

namespace Numbered

variable (hds : Numbered source ds)

include hds

/-- The names of variables and members are identifiers. -/
theorem isIdentifier (hx : .identifier x ∈ (Declaration.programRoles ds).map Role.kind) :
    IsIdentifier source x := by
  obtain ⟨us, hus, hspelled⟩ := hds
  rw [Declaration.programRoles, hspelled.kinds] at hx
  rw [IsIdentifier, hus]
  exact List.mem_append_left _ (List.mem_of_mem_filter hx)

theorem isIdentifier_of_mem_localsOf (hx : x ∈ localsOf (Declaration.programRoles ds)) :
    IsIdentifier source x := by
  obtain ⟨r, hr, hrx⟩ := List.mem_filterMap.mp hx
  cases r <;> cases hrx <;> exact hds.isIdentifier (List.mem_map_of_mem hr)

/-- No two names of a program are the same token. -/
theorem nodup (hclean : ∀ e, .error e ∉ Scanned.ofSource source) :
    ((Declaration.programRoles ds).map Role.name).Nodup := by
  obtain ⟨us, hus, hspelled⟩ := hds
  have hnames : (Declaration.programRoles ds).map Role.name =
      ((Declaration.programRoles ds).map Role.kind).filterMap TokenKind.name? := by
    rw [List.filterMap_map, ← List.filterMap_eq_map]
    exact List.filterMap_congr fun r _ => (Role.name?_kind r).symm
  rw [hnames, Declaration.programRoles, hspelled.kinds, named]
  refine List.Nodup.sublist ?_ (Scanned.nodup_numbered hclean (n := 1)).1
  rw [hus]
  exact (List.filter_sublist.trans (List.sublist_append_left _ _)).filterMap _

/-- What is bound to a variable are identifiers. -/
theorem isIdentifier_of_mem_boundTo {ν : Type} [DecidableEq ν] {called : Symbol → ν}
    (hx : x ∈ boundTo called declared (Declaration.programRoles ds)) : IsIdentifier source x := by
  obtain ⟨r, hr, rfl⟩ := List.mem_map.mp hx
  obtain ⟨hr, hof⟩ := List.mem_filter.mp hr
  have hkind := List.mem_map_of_mem (f := Role.kind) hr
  cases r with
  | text value => exact absurd (of_decide_eq_true hof) id
  | _ => exact hds.isIdentifier hkind

theorem identifiers {ν : Type} [DecidableEq ν] {called : Symbol → ν} :
    Scanned.Identifiers (boundTo called declared (Declaration.programRoles ds)) 1
      (Scanned.ofSource source) := by
  intro item i hitem hbound
  obtain ⟨token, name, htoken, hkind⟩ := (hds.isIdentifier_of_mem_boundTo hbound).exists_token
  have hget := (List.mk_mem_zipIdx_iff_le_and_getElem?_sub.mp hitem).2
  have hget' := (List.mk_mem_zipIdx_iff_le_and_getElem?_sub.mp htoken).2
  exact ⟨token, name, Option.some.inj (hget.symm.trans hget'), hkind⟩

end Numbered

/-! ## Another name -/

/-- The tokens that declare a local variable or are bound to it, by their numbers. -/
def boundIn (source : Bytes) (declared : Symbol) (ds : List Declaration) : List Symbol :=
  boundTo (Scanned.called (Scanned.ofSource source)) declared (Declaration.programRoles ds)

/-- The names of a source where what is bound to a variable is called otherwise. -/
def recallIn (t : SymbolTable) (source : Bytes) (declared : Symbol) (other : Bytes)
    (ds : List Declaration) : Symbol → Symbol :=
  callAnew (boundIn source declared ds) (t.symbol other) (callIn t (Scanned.ofSource source))

/-- Identifiers are called the same exactly if they have the same symbol. -/
theorem callIn_eq_iff (hstored : (symbolsOf source t₀).Extends t) {y : Symbol}
    (hx : IsIdentifier source x) (hy : IsIdentifier source y) :
    callIn t (Scanned.ofSource source) x = callIn t (Scanned.ofSource source) y ↔
      Scanned.called (Scanned.ofSource source) x = Scanned.called (Scanned.ofSource source) y := by
  obtain ⟨token, name, hitem, hkind⟩ := hx.exists_token
  obtain ⟨token', name', hitem', hkind'⟩ := hy.exists_token
  have hname : token.kind.name? = some name := by rw [hkind]; rfl
  have hname' : token'.kind.name? = some name' := by rw [hkind']; rfl
  have hresolve := Scanned.resolve?_symbol hstored (List.fst_mem_of_mem_zipIdx hitem') hname'
  rw [callIn_of_mem hitem hname, callIn_of_mem hitem' hname', Scanned.called_eq hitem hname,
    Scanned.called_eq hitem' hname']
  exact ⟨SymbolTable.eq_of_symbol_eq hresolve, congrArg t.symbol⟩

/-- An identifier does not have the symbol of a name that no identifier has. -/
theorem callIn_ne (hstored : (symbolsOf source t₀).Extends t)
    (hnew : ∀ token, .ok token ∈ Scanned.ofSource source → token.kind ≠ .identifier other)
    (hx : IsIdentifier source x) : callIn t (Scanned.ofSource source) x ≠ t.symbol other := by
  obtain ⟨token, name, hitem, hkind⟩ := hx.exists_token
  have hname : token.kind.name? = some name := by rw [hkind]; rfl
  have htoken := List.fst_mem_of_mem_zipIdx hitem
  have hresolve := Scanned.resolve?_symbol hstored htoken hname
  intro heq
  rw [callIn_of_mem hitem hname] at heq
  exact hnew token htoken (SymbolTable.eq_of_symbol_eq hresolve heq.symm ▸ hkind)

namespace Numbered

/-- What is bound to a variable can be told from the symbols of names. -/
theorem boundIn_eq (hds : Numbered source ds) (hstored : (symbolsOf source t₀).Extends t) :
    boundIn source declared ds =
      boundTo (callIn t (Scanned.ofSource source)) declared (Declaration.programRoles ds) := by
  refine boundTo_congr fun name visible huse x hx => (callIn_eq_iff hstored ?_ ?_).symm
  · exact hds.isIdentifier_of_mem_localsOf (Declaration.seen_subset_localsOf huse hx)
  · exact hds.isIdentifier (List.mem_map_of_mem huse)

/-- The tokens of a source where what is bound to a variable is replaced. -/
theorem scans_replaced (hds : Numbered source ds) (hscans : Scans source t ts)
    (hother : Written (.identifier other) other)
    (hstored : (symbolsOf (replaced source (boundIn source declared ds) other) t₀).Extends t)
    (hus : Scanned.numbered 1 (Scanned.ofSource source) = us ++ [.endOfInput]) :
    Scans (replaced source (boundIn source declared ds) other) t
      (us.map (TokenKind.mapName (recallIn t source declared other ds))) := by
  have hclean := hscans.no_error
  have hidentifiers : Scanned.Identifiers (boundIn source declared ds) 1
    (Scanned.ofSource source) := hds.identifiers
  have hsame := Scanned.ofSource_replaced hother hclean hidentifiers
  rw [scans_of_extends hstored]
  refine Scanned.map_kind_of_sameKind (TokenKind.mapName t.symbol) hsame ?_
  have hcalled (token : Token Bytes) (i : Nat) (name : Bytes)
      (hitem : (.ok token, i) ∈ (Scanned.replaceIn (boundIn source declared ds) other 1
        (Scanned.ofSource source)).zipIdx 1) (hname : token.kind.name? = some name) :
      recallIn t source declared other ds ⟨i⟩ = t.symbol name := by
    rcases Scanned.mem_zipIdx_replaceIn hidentifiers hitem with ⟨hbound, hitem⟩ | ⟨hbound, hkind⟩
    · exact (if_neg hbound).trans (callIn_of_mem hitem hname)
    · rw [hkind] at hname
      cases hname
      exact if_pos hbound
  have hkinds := Scanned.map_numbered (Scanned.replaceIn_clean hclean) hcalled
  rw [Scanned.numbered_replaceIn hclean hidentifiers, hus] at hkinds
  rw [← hkinds, List.map_append]
  rfl

/-- Calling what is bound to a variable otherwise changes the names of variables only. -/
theorem recalling (hds : Numbered source ds) (hscans : Scans source t ts)
    (hstored : (symbolsOf source t₀).Extends t) (hother : Written (.identifier other) other)
    (hnew : ∀ token, .ok token ∈ Scanned.ofSource source → token.kind ≠ .identifier other)
    (hstored' : (symbolsOf (replaced source (boundIn source declared ds) other) t₁).Extends t) :
    Recalling (implicitNumbers (Scanned.ofSource source).length) (IsIdentifier source)
      (callIn t (Scanned.ofSource source)) (recallIn t source declared other ds) := by
  have hcalled := hscans.map_numbered hstored
  obtain ⟨us, hus, -⟩ := id hds
  have hscans' := hds.scans_replaced hscans hother hstored' hus
  have hbound {y : Symbol} (hy : y ∈ boundIn source declared ds) : IsIdentifier source y :=
    hds.isIdentifier_of_mem_boundTo hy
  have hhidden {z : Symbol}
      (hz : z ∈ (implicitNumbers (Scanned.ofSource source).length).hidden) :
      callIn t (Scanned.ofSource source) z ∈ (implicitNames t).1.hidden := by
    rw [← rename_implicitNumbers t (Scanned.ofSource source),
      ImplicitNames.hidden_rename (callIn_anonymous t _)]
    exact List.mem_map_of_mem hz
  exact
    { anonymous := callIn_anonymous t _
      hidden := fun z hz => if_neg fun hmem => (hbound hmem).notMem_hidden.1 hz
      init := if_neg fun hmem => (hbound hmem).notMem_hidden.2 rfl
      plain_hidden := fun x z hx hz => hscans.ne_hidden hcalled hx _ (hhidden hz)
      plain_hidden' := fun x z hx hz => by
        have hcalled' : (us ++ [TokenKind.endOfInput]).map
            (TokenKind.mapName (recallIn t source declared other ds)) =
            us.map (TokenKind.mapName (recallIn t source declared other ds)) ++ [.endOfInput] :=
          List.map_append
        exact hscans'.ne_hidden hcalled' (hus ▸ hx) _ (hhidden hz)
      separate := fun x y hx hy heq => by
        have hsame {y : Symbol} (hy : y ∈ boundIn source declared ds) :
            callIn t (Scanned.ofSource source) y = callIn t (Scanned.ofSource source) declared :=
          called_eq_of_mem_boundTo (hds.boundIn_eq hstored ▸ hy)
        have hne {y : Symbol} (hy : IsIdentifier source y) := callIn_ne hstored hnew hy
        unfold recallIn callAnew at heq
        by_cases hxb : x ∈ boundIn source declared ds
        · by_cases hyb : y ∈ boundIn source declared ds
          · exact (hsame hxb).trans (hsame hyb).symm
          · rw [if_pos hxb, if_neg hyb] at heq
            exact absurd heq.symm (hne hy)
        · rw [if_neg hxb] at heq
          by_cases hyb : y ∈ boundIn source declared ds
          · rw [if_pos hyb] at heq
            exact absurd heq (hne hx)
          · rwa [if_neg hyb] at heq }

/-- All names find what they found before. -/
theorem agrees (hds : Numbered source ds) (hscans : Scans source t ts)
    (hstored : (symbolsOf source t₀).Extends t)
    (hnew : ∀ token, .ok token ∈ Scanned.ofSource source → token.kind ≠ .identifier other)
    (hdeclared : .localVariable declared ∈ Declaration.programRoles ds) :
    ∀ r ∈ Declaration.programRoles ds, r.Agrees (IsIdentifier source)
      (callIn t (Scanned.ofSource source)) (recallIn t source declared other ds) := by
  rw [recallIn, hds.boundIn_eq hstored]
  exact agrees_recall (hds.nodup hscans.no_error)
    (fun name visible => Declaration.seen_subset_localsOf) hdeclared
    (fun x => hds.isIdentifier) fun x hx => callIn_ne hstored hnew hx

end Numbered

/-- With all names stored, a source where what is bound to a variable is replaced compiles to the same
script. -/
theorem Accepts.recall_local {f : Function UInt8} (h : Accepts .byte source t f)
    (hstored : (symbolsOf source t₀).Extends t) (hds : Numbered source ds)
    (hdeclared : .localVariable declared ∈ Declaration.programRoles ds)
    (hother : Written (.identifier other) other)
    (hnew : ∀ token, .ok token ∈ Scanned.ofSource source → token.kind ≠ .identifier other)
    (hstored' : (symbolsOf (replaced source (boundIn source declared ds) other) t₁).Extends t) :
    ∃ g, Accepts .byte (replaced source (boundIn source declared ds) other) t g ∧
      f.Alike Eq Eq g := by
  obtain ⟨_, ts, _, hspelled, hscans, hprogram, hallowed, hfits, herased⟩ := h.run
  obtain ⟨ds', hds', rfl⟩ := hscans.exists_numbers hstored hspelled
  obtain rfl := hds.unique hds'
  have hrecalling := hds.recalling hscans hstored hother hnew hstored'
  have hagrees := hds.agrees hscans hstored hnew hdeclared
  have hnames := rename_implicitNumbers t (Scanned.ofSource source)
  have hnames' := hrecalling.names_eq.trans hnames
  obtain ⟨us, hus, hus_spelled⟩ := id hds
  have hscans' := hds.scans_replaced hscans hother hstored' hus
  have hspelled' := hus_spelled.rename (ρ := recallIn t source declared other ds)
  -- the program is allowed and has the same plan
  have hallowed' := Declaration.allowedEach_script_rename hrecalling hagrees (hnames.symm ▸ hallowed)
  have hplan := Declaration.plan_rename hrecalling hagrees
  rw [hnames', hnames] at hplan
  rw [hnames'] at hallowed'
  obtain ⟨r, htakes⟩ := (scans_iff (β := UInt8) hspelled'.no_end).mp hscans'
  obtain ⟨g, u, hprogram'⟩ := Declaration.program_complete (w := .byte) hspelled' hscans'.spared
    (Drafts.describes_script _) htakes hallowed' (hplan.symm ▸ hfits)
  have hg := script_accepts hspelled' hprogram' (Nat.lt_succ_self _)
  obtain ⟨-, -, herased'⟩ := Declaration.program_sound hspelled' hscans'.spared
    (Drafts.describes_script _) hprogram'
  rw [hplan, ← herased] at herased'
  -- it is compiled side by side with the program before
  have hahead : Ahead (β := UInt8) ⟨(implicitNames t).1, Eq, False, ∅⟩ (items source t)
      (items (replaced source (boundIn source declared ds) other) t) := by
    rw [items_of_extends hstored, items_of_extends hstored']
    exact .of_replaceIn (fun _ => rfl) hscans.no_error
      (Scanned.ofSource_replaced hother hscans.no_error hds.identifiers) _ _
  exact ⟨g, accepts_iff_cleanly.mpr ⟨u, hg⟩,
    hprogram.alike_rename hspelled hspelled' hscans.spared hscans'.spared hahead
      (Declaration.sameKinds_methodNamesEach hagrees) hprogram' herased'.symm⟩

/-- Names of locals leave no trace. A source that compiles is one program. Take any local variable or
parameter of it, and an identifier that does not occur. If the variable and all that lexical scoping
binds to it are called by this identifier, the source still compiles, to a script that is alike. -/
theorem alike_of_replaced_local {c : Compilation UInt8} {f : Function UInt8}
    (hc : ofSource source table = .ok c) (hf : c.result = .ok f) :
    ∃ ds, Numbered source ds ∧ (∀ ds', Numbered source ds' → ds' = ds) ∧
      ∀ declared, .localVariable declared ∈ Declaration.programRoles ds →
      ∀ other, Written (.identifier other) other →
        (∀ token, .ok token ∈ Scanned.ofSource source → token.kind ≠ .identifier other) →
      ∀ table', ∃ c' f', ofSource (replaced source (boundIn source declared ds) other) table' = .ok c' ∧
        c'.result = .ok f' ∧ f.Alike (c.symbols.SameName c'.symbols) Eq f' := by
  have haccepts : Accepts .byte source table f := ⟨c, hc, hf⟩
  have hsymbols : c.symbols = symbolsOf source table := symbols_ofSourceWith hc
  obtain ⟨_, hg₀, -⟩ := haccepts.alike (symbolsOf source table)
  obtain ⟨_, _, _, hspelled, hscans, -⟩ := hg₀.run
  obtain ⟨ds, hds, -⟩ := hscans.exists_numbers (.refl _) hspelled
  refine ⟨ds, hds, fun _ h => h.unique hds, fun declared hdeclared other hother hnew table' => ?_⟩
  -- a table that has the names of both sources
  obtain ⟨t, ht⟩ : ∃ t, t = symbolsOf (replaced source (boundIn source declared ds) other)
    (symbolsOf source table) := ⟨_, rfl⟩
  have hstored' : (symbolsOf (replaced source (boundIn source declared ds) other)
      (symbolsOf source table)).Extends t := ht ▸ .refl _
  have hstored : (symbolsOf source table).Extends t := ht ▸ extends_symbolsOf ..
  obtain ⟨g, hg, hfg⟩ := haccepts.alike t
  obtain ⟨g', hg', hgg'⟩ := hg.recall_local hstored hds hdeclared hother hnew hstored'
  obtain ⟨f', hf', hgf'⟩ := hg'.alike table'
  rw [symbolsOf_of_extends hstored, ← hsymbols] at hfg
  rw [symbolsOf_of_extends hstored'] at hgf'
  obtain ⟨c', hc', hresult'⟩ := hf'
  have hsymbols' : c'.symbols = symbolsOf _ table' := symbols_ofSourceWith hc'
  rw [← hsymbols'] at hgf'
  have hline (k l m : Nat) (hkl : k = l) (hlm : l = m) : k = m := hkl.trans hlm
  have hfg' := hfg.comp (fun x y z hxy (hyz : y = z) => hyz ▸ hxy) hline hgg'
  exact ⟨c', f', hc', hresult', hfg'.comp (fun _ _ _ => .trans) hline hgf'⟩

/-- The program of `capturing`, where each name is the number of its token. -/
def capturingNumbers : List Declaration :=
  [.funDeclaration (.mk ⟨2⟩ [⟨4⟩] [.funDeclaration (.mk ⟨8⟩ []
    [.statement (.expression (.or (.variable ⟨12⟩) (.variable ⟨14⟩)))])])]

theorem numbers_capturing : Numbered capturing capturingNumbers := by
  have hvariable (x : Symbol) : Expression.Spelled .and (.variable x) [.identifier x] := by
    iterate 7 apply Expression.Spelled.weaken
    exact .variable
  have hor := Expression.Spelled.or (hvariable ⟨12⟩) (.weaken (hvariable ⟨14⟩))
  have hinner := Declaration.SpelledEach.cons (.statement (.expression (.weaken hor))) .nil
  have houter := Declaration.SpelledEach.cons
    (.funDeclaration (@FunctionTree.Spelled.mk ⟨8⟩ [] _ _ hinner)) .nil
  exact ⟨_, by decide +kernel, .cons (.funDeclaration (.mk houter)) .nil⟩

/-- The source `fun f(b) { fun g() { b or f; } }`. -/
def capturingOther : Bytes :=
  ascii ['f', 'u', 'n', ' ', 'f', '(', 'b', ')', '\x7b', 'f', 'u', 'n', ' ', 'g', '(', ')', '\x7b',
    'b', ' ', 'o', 'r', ' ', 'f', ';', '\x7d', '\x7d']

theorem replaced_capturing : replaced capturing (boundIn capturing ⟨4⟩ capturingNumbers)
    [byteOf 'b'] = capturingOther := by decide +kernel

/-- A captured parameter with another name. -/
theorem alike_of_replaced_parameter : ∃ c f, ofSource capturing .empty = .ok c ∧ c.result = .ok f ∧
    ∃ c' f', ofSource capturingOther .empty = .ok c' ∧ c'.result = .ok f' ∧
      f.Alike (c.symbols.SameName c'.symbols) Eq f' := by
  obtain ⟨c, f, hc, hf⟩ := compiles_capturing
  obtain ⟨ds, -, hunique, hlocals⟩ := alike_of_replaced_local hc hf
  obtain rfl := hunique _ numbers_capturing
  have hother : Written (.identifier [byteOf 'b']) [byteOf 'b'] :=
    @Written.word (byteOf 'b') [] rfl (by simp)
  have hnew : ∀ item ∈ Scanned.ofSource capturing,
      item.toOption.map Token.kind ≠ some (.identifier [byteOf 'b']) := by decide +kernel
  obtain ⟨c', f', hc', hf', halike⟩ := hlocals ⟨4⟩ (.tail _ (.head _)) [byteOf 'b'] hother
    (fun token htoken hkind => hnew _ htoken (congrArg some hkind)) .empty
  rw [replaced_capturing] at hc'
  exact ⟨c, f, hc, hf, c', f', hc', hf', halike⟩

end Compilation

end LoxCompiler
