import LoxCompiler.Bytecode.Function
import Mathlib.Data.List.Forall2
import Mathlib.Data.Option.Defs

/-! # Alike functions

Two functions are alike if nothing but their symbols and their lines is different, and these match.
What it means for symbols and for lines to match is a parameter: symbols of two tables match if
they are of the same name.
-/

namespace LoxCompiler

variable {β : Type}

mutual

/-- Two functions have the same code, and their names, lines and constants match. -/
def Function.Alike (name : Symbol → Symbol → Prop) (line : Nat → Nat → Prop) :
    Function β → Function β → Prop
  | ⟨n, arity, upvalueCount, code, lines, constants⟩,
      ⟨n', arity', upvalueCount', code', lines', constants'⟩ =>
    Option.Rel name n n' ∧ arity = arity' ∧ upvalueCount = upvalueCount' ∧ code = code' ∧
      List.Forall₂ line lines lines' ∧ Constant.AlikeEach name line constants constants'

/-- Two constants are the same number, strings that match, or functions that are alike. -/
def Constant.Alike (name : Symbol → Symbol → Prop) (line : Nat → Nat → Prop) :
    Constant β → Constant β → Prop
  | .number value, .number value' => value = value'
  | .string value, .string value' => name value value'
  | .function f, .function f' => Function.Alike name line f f'
  | _, _ => False

/-- Some constants are alike, one by one. -/
def Constant.AlikeEach (name : Symbol → Symbol → Prop) (line : Nat → Nat → Prop) :
    List (Constant β) → List (Constant β) → Prop
  | [], [] => True
  | c :: cs, c' :: cs' => Constant.Alike name line c c' ∧ Constant.AlikeEach name line cs cs'
  | _, _ => False

end

variable {name name₁ name₂ : Symbol → Symbol → Prop} {line line₁ line₂ : Nat → Nat → Prop}

theorem Constant.alikeEach_iff {cs cs' : List (Constant β)} :
    Constant.AlikeEach name line cs cs' ↔ List.Forall₂ (Constant.Alike name line) cs cs' := by
  induction cs generalizing cs' with
  | nil => cases cs' <;> simp [Constant.AlikeEach]
  | cons c cs ih =>
      cases cs' with
      | nil => simp [Constant.AlikeEach]
      | cons c' cs' => simp [Constant.AlikeEach, ih]

theorem Function.alike_iff {f f' : Function β} : f.Alike name line f' ↔
    Option.Rel name f.name f'.name ∧ f.arity = f'.arity ∧ f.upvalueCount = f'.upvalueCount ∧
      f.code = f'.code ∧ List.Forall₂ line f.lines f'.lines ∧
      List.Forall₂ (Constant.Alike name line) f.constants f'.constants := by
  cases f
  cases f'
  rw [Function.Alike, Constant.alikeEach_iff]

theorem forall₂_comp {α : Type} {R S T : α → α → Prop} (h : ∀ a b c, R a b → S b c → T a c)
    {as bs cs : List α} (hab : List.Forall₂ R as bs) (hbc : List.Forall₂ S bs cs) :
    List.Forall₂ T as cs := by
  induction hab generalizing cs with
  | nil => cases hbc; exact .nil
  | cons hr _ ih =>
      cases hbc with
      | cons hs hrest => exact .cons (h _ _ _ hr hs) (ih hrest)

mutual

/-- What is alike one after the other is alike. -/
theorem Function.Alike.comp (hname : ∀ x y z, name₁ x y → name₂ y z → name x z)
    (hline : ∀ l m n, line₁ l m → line₂ m n → line l n)
    {f g h : Function β} (hfg : f.Alike name₁ line₁ g) (hgh : g.Alike name₂ line₂ h) :
    f.Alike name line h := by
  match f, g, h with
  | ⟨n, arity, upvalueCount, code, lines, constants⟩, ⟨n', _, _, _, lines', constants'⟩,
      ⟨n'', _, _, _, lines'', constants''⟩ =>
    rw [Function.Alike] at hfg hgh ⊢
    obtain ⟨hn, rfl, rfl, rfl, hlines, hconstants⟩ := hfg
    obtain ⟨hn', rfl, rfl, rfl, hlines', hconstants'⟩ := hgh
    refine ⟨?_, rfl, rfl, rfl, ?_, Constant.AlikeEach.comp hname hline hconstants hconstants'⟩
    · cases hn with
      | none =>
          cases hn'
          exact .none
      | some hn =>
          cases hn' with
          | some hn' => exact .some (hname _ _ _ hn hn')
    · exact forall₂_comp hline hlines hlines'

theorem Constant.Alike.comp (hname : ∀ x y z, name₁ x y → name₂ y z → name x z)
    (hline : ∀ l m n, line₁ l m → line₂ m n → line l n)
    {c d e : Constant β} (hcd : c.Alike name₁ line₁ d) (hde : d.Alike name₂ line₂ e) :
    c.Alike name line e := by
  match c, d, e with
  | .number _, .number _, .number _ =>
      rw [Constant.Alike] at hcd hde ⊢
      exact hcd.trans hde
  | .string _, .string _, .string _ =>
      rw [Constant.Alike] at hcd hde ⊢
      exact hname _ _ _ hcd hde
  | .function f, .function g, .function h =>
      rw [Constant.Alike] at hcd hde ⊢
      exact Function.Alike.comp hname hline hcd hde

theorem Constant.AlikeEach.comp (hname : ∀ x y z, name₁ x y → name₂ y z → name x z)
    (hline : ∀ l m n, line₁ l m → line₂ m n → line l n) {cs ds es : List (Constant β)}
    (hcd : Constant.AlikeEach name₁ line₁ cs ds) (hde : Constant.AlikeEach name₂ line₂ ds es) :
    Constant.AlikeEach name line cs es := by
  match cs, ds, es with
  | [], [], [] => trivial
  | c :: cs, d :: ds, e :: es =>
      exact ⟨Constant.Alike.comp hname hline hcd.1 hde.1,
        Constant.AlikeEach.comp hname hline hcd.2 hde.2⟩

end

/-- Two symbols, each of its own table, are of the same name. -/
def SymbolTable.SameName (t t' : SymbolTable) (s s' : Symbol) : Prop :=
  ∃ name, t.resolve? s = some name ∧ t'.resolve? s' = some name

theorem SymbolTable.SameName.trans {t t' t'' : SymbolTable} {s s' s'' : Symbol}
    (h : t.SameName t' s s') (h' : t'.SameName t'' s' s'') : t.SameName t'' s s'' := by
  obtain ⟨name, hs, hs'⟩ := h
  obtain ⟨name', hsame, hs''⟩ := h'
  obtain rfl := Option.some.inj (hs'.symm.trans hsame)
  exact ⟨name, hs, hs''⟩

end LoxCompiler
