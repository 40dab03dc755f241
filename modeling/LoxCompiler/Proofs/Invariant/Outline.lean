import LoxCompiler.Proofs.Simulation.Description
import Mathlib.Data.List.Chain

/-! # Outlines

What the functions under construction say about their locals: which there are, and from which depth
on each of them may be read. The compiler changes this in a few ways only, its moves. Every move
keeps what holds of all stacks of functions, and no move changes the depth of a local that has one.
-/

namespace LoxCompiler

/-- The name of the first slot of a function: that of the receiver in methods, and one that cannot
be spelled in other functions. -/
def FunctionKind.receiver (names : ImplicitNames) : FunctionKind → Symbol
  | .method | .initializer => names.this
  | .function | .script => .anonymous

/-- The locals of a function under construction, newest first, with their depths. -/
structure Outline where
  kind : FunctionKind
  scopeDepth : Nat
  locals : List (Symbol × Option Nat)

namespace Outline

/-- Whether a local belongs to a scope of at least the given depth. -/
def within (depth : Nat) (l : Symbol × Option Nat) : Bool :=
  match l.2 with
  | some d => depth ≤ d
  | none => true

/-- The newest local may be read, if there is any. -/
def Settled (o : Outline) : Prop := ∀ l ∈ o.locals.head?, l.2 ≠ none

/-- What holds of the locals of every function. -/
structure Sound (limits : Limits) (names : ImplicitNames) (o : Outline) : Prop where
  /-- The oldest local is the receiver, at depth zero, and all others are deeper. -/
  receiver : ∃ newer, o.locals = newer ++ [(o.kind.receiver names, some 0)] ∧
    ∀ l ∈ newer, ∀ d, l.2 = some d → 1 ≤ d
  /-- A newer local is at least as deep as an older one. -/
  sorted : o.locals.Pairwise fun newer older =>
    ∀ d e, newer.2 = some d → older.2 = some e → e ≤ d
  bounded : ∀ l ∈ o.locals, ∀ d, l.2 = some d → d ≤ o.scopeDepth
  /-- Only the newest local may be one that cannot be read yet, and only in a scope. -/
  pending : ∀ l ∈ o.locals.tail, l.2 ≠ none
  outside : o.scopeDepth = 0 → o.Settled
  room : Limits.admits limits.locals o.locals.length

/-- What holds of all functions under construction, innermost first: the script is the last one, and
a local that may not be read yet is in the innermost one. -/
def AllSound (limits : Limits) (names : ImplicitNames) : List Outline → Prop
  | [] => False
  | [o] => o.kind = .script ∧ o.Sound limits names
  | o :: next :: os => (o.kind ≠ .script ∧ o.Sound limits names) ∧ next.Settled ∧
      AllSound limits names (next :: os)

/-- The ways in which the locals change. -/
inductive Moves (limits : Limits) (names : ImplicitNames) : List Outline → List Outline → Prop
  | stay {os} : Moves limits names os os
  | enter {o os} : o.Settled →
      Moves limits names (o :: os) ({ o with scopeDepth := o.scopeDepth + 1 } :: os)
  /-- The end of a scope drops what belongs to it. -/
  | leave {o os depth} : o.Settled → o.scopeDepth = depth + 1 → Moves limits names (o :: os)
      ({ o with scopeDepth := depth, locals := o.locals.dropWhile (within (depth + 1)) } :: os)
  /-- A local is declared in a scope, if there is room. -/
  | declare {o os name} : o.Settled → o.scopeDepth ≠ 0 →
      Limits.admits limits.locals (o.locals.length + 1) →
      Moves limits names (o :: os) ({ o with locals := (name, none) :: o.locals } :: os)
  /-- The newest local may be read from now on. -/
  | settle {o os name older} : o.locals = (name, none) :: older → Moves limits names (o :: os)
      ({ o with locals := (name, some o.scopeDepth) :: older } :: os)
  | begin {o os kind} : o.Settled → kind ≠ .script → Limits.admits limits.locals 1 →
      Moves limits names (o :: os) (⟨kind, 0, [(kind.receiver names, some 0)]⟩ :: o :: os)
  | finish {o next os} : Moves limits names (o :: next :: os) (next :: os)

variable {limits : Limits} {names : ImplicitNames} {o : Outline} {os os' : List Outline}

/-! ## What every move keeps -/

/-- All locals of a function may be read if the newest one may be. -/
theorem Sound.depth_ne_none (h : o.Sound limits names) (hsettled : o.Settled) :
    ∀ l ∈ o.locals, l.2 ≠ none := by
  intro l hl
  have hpending := h.pending
  unfold Settled at hsettled
  cases hlocals : o.locals with
  | nil =>
      rw [hlocals] at hl
      cases hl
  | cons newest older =>
      rw [hlocals] at hl hsettled hpending
      rcases List.mem_cons.mp hl with rfl | hl
      · exact hsettled _ rfl
      · exact hpending _ hl

/-- What the end of a scope leaves is outside of it. -/
theorem le_of_mem_dropWhile {depth : Nat} {locals : List (Symbol × Option Nat)}
    (hsorted : locals.Pairwise fun newer older =>
      ∀ d e, newer.2 = some d → older.2 = some e → e ≤ d) :
    ∀ l ∈ locals.dropWhile (within (depth + 1)), ∀ d, l.2 = some d → d ≤ depth := by
  induction locals with
  | nil => simp
  | cons newest older ih =>
      obtain ⟨hnewest, holder⟩ := List.pairwise_cons.mp hsorted
      intro l hl d hd
      by_cases hinside : within (depth + 1) newest = true
      · rw [List.dropWhile_cons_of_pos hinside] at hl
        exact ih holder l hl d hd
      · rw [List.dropWhile_cons_of_neg hinside] at hl
        cases hdepth : newest.2 with
        | none => simp [within, hdepth] at hinside
        | some e =>
            have he : e ≤ depth := by
              simp only [within, hdepth, decide_eq_true_eq] at hinside
              omega
            rcases List.mem_cons.mp hl with rfl | hl
            · rw [hdepth] at hd
              cases hd
              exact he
            · exact Nat.le_trans (hnewest l hl e d hdepth hd) he

namespace Sound

theorem enter (h : o.Sound limits names) (hsettled : o.Settled) :
    ({ o with scopeDepth := o.scopeDepth + 1 } : Outline).Sound limits names where
  receiver := h.receiver
  sorted := h.sorted
  bounded l hl d hd := Nat.le_succ_of_le (h.bounded l hl d hd)
  pending := h.pending
  outside _ := hsettled
  room := h.room

theorem leave (h : o.Sound limits names) (hsettled : o.Settled) (depth : Nat) :
    ({ o with scopeDepth := depth, locals := o.locals.dropWhile (within (depth + 1)) } :
      Outline).Sound limits names where
  receiver := by
    obtain ⟨newer, hlocals, hdeep⟩ := h.receiver
    refine ⟨newer.dropWhile (within (depth + 1)), ?_, fun l hl =>
      hdeep l (List.dropWhile_suffix _ |>.subset hl)⟩
    have hreceiver : [(o.kind.receiver names, some 0)].dropWhile (within (depth + 1)) =
        [(o.kind.receiver names, some 0)] := List.dropWhile_cons_of_neg (by simp [within])
    rw [hlocals, List.dropWhile_append, hreceiver]
    split
    · rename_i hempty
      rw [List.isEmpty_iff.mp hempty, List.nil_append]
    · rfl
  sorted := h.sorted.sublist (List.dropWhile_sublist _)
  bounded := le_of_mem_dropWhile h.sorted
  pending l hl := h.depth_ne_none hsettled l
    (List.dropWhile_suffix _ |>.subset (List.mem_of_mem_tail hl))
  outside _ l hl := h.depth_ne_none hsettled l
    (List.dropWhile_suffix _ |>.subset (List.mem_of_mem_head? hl))
  room := by
    have hlength := (List.dropWhile_sublist (within (depth + 1)) (l := o.locals)).length_le
    exact Limits.admits_of_le hlength h.room

theorem declare (h : o.Sound limits names) (hsettled : o.Settled) (hdepth : o.scopeDepth ≠ 0)
    (hroom : Limits.admits limits.locals (o.locals.length + 1)) (name : Symbol) :
    ({ o with locals := (name, none) :: o.locals } : Outline).Sound limits names where
  receiver := by
    obtain ⟨newer, hlocals, hdeep⟩ := h.receiver
    refine ⟨(name, none) :: newer, by rw [List.cons_append, ← hlocals], ?_⟩
    simpa using hdeep
  sorted := List.pairwise_cons.mpr ⟨by simp, h.sorted⟩
  bounded := by simpa using h.bounded
  pending := h.depth_ne_none hsettled
  outside hzero := absurd hzero hdepth
  room := hroom

theorem settle {name : Symbol} {older : List (Symbol × Option Nat)} (h : o.Sound limits names)
    (hlocals : o.locals = (name, none) :: older) :
    ({ o with locals := (name, some o.scopeDepth) :: older } : Outline).Sound limits names := by
  have hpending : ∀ l ∈ older, l.2 ≠ none := by
    have hpending := h.pending
    rw [hlocals] at hpending
    exact hpending
  have hmem : ∀ l ∈ older, l ∈ o.locals := fun l hl => hlocals ▸ List.mem_cons_of_mem _ hl
  have hdepth : 1 ≤ o.scopeDepth := Nat.one_le_iff_ne_zero.mpr fun hzero => by
    have hsettled := h.outside hzero
    unfold Settled at hsettled
    rw [hlocals] at hsettled
    exact hsettled _ rfl rfl
  exact
    { receiver := by
        obtain ⟨newer, hsplit, hdeep⟩ := h.receiver
        rw [hlocals] at hsplit
        cases newer with
        | nil => cases hsplit
        | cons newest newer =>
            obtain ⟨rfl, rfl⟩ := List.cons_eq_cons.mp hsplit
            refine ⟨(name, some o.scopeDepth) :: newer, rfl, List.forall_mem_cons.mpr ⟨?_, ?_⟩⟩
            · intro d hd
              cases hd
              exact hdepth
            · exact (List.forall_mem_cons.mp hdeep).2
      sorted := by
        have hsorted := h.sorted
        rw [hlocals] at hsorted
        refine List.pairwise_cons.mpr ⟨fun l hl d e hd he => ?_, hsorted.of_cons⟩
        cases hd
        exact h.bounded l (hmem l hl) e he
      bounded := by
        refine List.forall_mem_cons.mpr ⟨fun d hd => ?_, fun l hl => h.bounded l (hmem l hl)⟩
        cases hd
        exact Nat.le_refl _
      pending := hpending
      outside := fun _ l hl => by
        cases hl
        simp
      room := by
        have hroom := h.room
        rw [hlocals] at hroom
        exact hroom }

theorem begin (hroom : Limits.admits limits.locals 1) (kind : FunctionKind) :
    (⟨kind, 0, [(kind.receiver names, some 0)]⟩ : Outline).Sound limits names where
  receiver := ⟨[], rfl, by simp⟩
  sorted := List.pairwise_singleton _ _
  bounded := by simp
  pending := by simp
  outside _ := by simp [Settled]
  room := hroom

end Sound

namespace AllSound

theorem head (h : AllSound limits names (o :: os)) : o.Sound limits names := by
  cases os with
  | nil => exact h.2
  | cons next os => exact h.1.2

/-- The innermost function may be exchanged for a sound one of the same kind. -/
theorem withHead {o' : Outline} (h : AllSound limits names (o :: os)) (hkind : o'.kind = o.kind)
    (ho : o'.Sound limits names) : AllSound limits names (o' :: os) := by
  cases os with
  | nil => exact ⟨hkind.trans h.1, ho⟩
  | cons next os => exact ⟨⟨fun hscript => h.1.1 (hkind.symm.trans hscript), ho⟩, h.2⟩

/-- Every move keeps what holds of all functions under construction. -/
theorem moves (h : AllSound limits names os) (hmoves : Moves limits names os os') :
    AllSound limits names os' := by
  cases hmoves with
  | stay => exact h
  | enter hsettled => exact h.withHead rfl (h.head.enter hsettled)
  | leave hsettled _ => exact h.withHead rfl (h.head.leave hsettled _)
  | declare hsettled hdepth hroom => exact h.withHead rfl (h.head.declare hsettled hdepth hroom _)
  | settle hlocals => exact h.withHead rfl (h.head.settle hlocals)
  | begin hsettled hkind hroom => exact ⟨⟨hkind, .begin hroom _⟩, hsettled, h⟩
  | finish => exact h.2.2

end AllSound

/-! ## Locals over time -/

/-- The depth of the local in a slot, if there is one. -/
def depth? (o : Outline) (slot : Nat) : Option (Option Nat) := o.locals.reverse[slot]?.map Prod.snd

/-- The depth of the local in a slot of a function, which is counted from the script inwards. -/
def depthAt? (os : List Outline) (level slot : Nat) : Option (Option Nat) :=
  os.reverse[level]?.bind (·.depth? slot)

/-- The number of scopes of a function, which is counted from the script inwards. -/
def scopeAt? (os : List Outline) (level : Nat) : Option Nat := os.reverse[level]?.map scopeDepth

/-- A local has a depth, or it may not be read yet and would get this depth now. -/
def Tied (os : List Outline) (level slot depth : Nat) : Prop :=
  depthAt? os level slot = some (some depth) ∨
    depthAt? os level slot = some none ∧ scopeAt? os level = some depth

/-- What happens to the locals of one function: a depth stays, and a local without one gets that of
the scopes, whose number stays. A new local has no depth. -/
structure Follows (o o' : Outline) : Prop where
  set : ∀ {slot d x}, o.depth? slot = some (some d) → o'.depth? slot = some x → x = some d
  unset : ∀ {slot x}, o.depth? slot = some none → o'.depth? slot = some x →
    o'.scopeDepth = o.scopeDepth ∧ (x = none ∨ x = some o.scopeDepth)
  fresh : ∀ {slot x}, o.depth? slot = none → o'.depth? slot = some x → x = none

theorem getElem?_reverse_cons {α : Type} (a : α) (as : List α) (n : Nat) :
    (a :: as).reverse[n]? = if n = as.length then some a else as.reverse[n]? := by
  rw [List.reverse_cons, List.getElem?_append, List.length_reverse]
  split
  · rw [if_neg (by omega)]
  · split
    · simp [*]
    · rw [List.getElem?_eq_none (by simp; omega), List.getElem?_eq_none (by simp; omega)]

theorem Follows.refl (o : Outline) : o.Follows o where
  set h h' := Option.some.inj (h'.symm.trans h)
  unset h h' := ⟨rfl, .inl (Option.some.inj (h'.symm.trans h))⟩
  fresh h h' := nomatch h.symm.trans h'

/-- If all locals may be read, then some of them may be dropped and the number of scopes may
change. -/
theorem Follows.of_suffix {o' : Outline} (hset : ∀ l ∈ o.locals, l.2 ≠ none)
    (h : o'.locals <:+ o.locals) : o.Follows o' := by
  have hkept {slot : Nat} {x : Option Nat} (hx : o'.depth? slot = some x) :
      o.depth? slot = some x := by
    obtain ⟨l, hl, hdepth⟩ := Option.map_eq_some_iff.mp hx
    obtain ⟨newer, hsplit⟩ : o'.locals.reverse <+: o.locals.reverse := List.reverse_prefix.mpr h
    refine Option.map_eq_some_iff.mpr ⟨l, ?_, hdepth⟩
    rw [← hsplit, List.getElem?_append_left (List.getElem?_eq_some_iff.mp hl).1, hl]
  exact
    { set := fun h h' => Option.some.inj ((hkept h').symm.trans h)
      unset := fun h _ => by
        obtain ⟨l, hl, hdepth⟩ := Option.map_eq_some_iff.mp h
        exact absurd hdepth (hset l (List.mem_reverse.mp (List.mem_of_getElem? hl)))
      fresh := fun h h' => nomatch h.symm.trans (hkept h') }

theorem follows_declare (o : Outline) (name : Symbol) :
    o.Follows { o with locals := (name, none) :: o.locals } := by
  have hdepth (slot : Nat) : depth? { o with locals := (name, none) :: o.locals } slot =
      if slot = o.locals.length then some none else o.depth? slot := by
    unfold depth?
    rw [getElem?_reverse_cons]
    split <;> rfl
  have hnone : o.depth? o.locals.length = none := by simp [depth?]
  constructor
  · intro slot d x h h'
    rw [hdepth] at h'
    split at h'
    · rename_i hslot
      rw [hslot, hnone] at h
      cases h
    · exact Option.some.inj (h'.symm.trans h)
  · intro slot x h h'
    rw [hdepth] at h'
    split at h'
    · exact ⟨rfl, .inl (Option.some.inj h').symm⟩
    · exact ⟨rfl, .inl (Option.some.inj (h'.symm.trans h))⟩
  · intro slot x h h'
    rw [hdepth] at h'
    split at h'
    · exact (Option.some.inj h').symm
    · exact nomatch h.symm.trans h'

theorem follows_settle {name : Symbol} {older : List (Symbol × Option Nat)}
    (h : o.locals = (name, none) :: older) :
    o.Follows { o with locals := (name, some o.scopeDepth) :: older } := by
  have hdepth (d : Option Nat) (slot : Nat) : depth? { o with locals := (name, d) :: older } slot =
      if slot = older.length then some d else older.reverse[slot]?.map Prod.snd := by
    unfold depth?
    rw [getElem?_reverse_cons]
    split <;> rfl
  have hold (slot : Nat) : o.depth? slot =
      if slot = older.length then some none else older.reverse[slot]?.map Prod.snd := by
    rw [← hdepth none, ← h]
  constructor
  · intro slot d x hx hx'
    rw [hold] at hx
    rw [hdepth] at hx'
    split at hx
    · cases hx
    · rw [if_neg ‹_›] at hx'
      exact Option.some.inj (hx'.symm.trans hx)
  · intro slot x hx hx'
    rw [hold] at hx
    rw [hdepth] at hx'
    split at hx'
    · exact ⟨rfl, .inr (Option.some.inj hx').symm⟩
    · rw [if_neg ‹_›] at hx
      exact ⟨rfl, .inl (Option.some.inj (hx'.symm.trans hx))⟩
  · intro slot x hx hx'
    rw [hold] at hx
    rw [hdepth] at hx'
    split at hx
    · cases hx
    · rw [if_neg ‹_›] at hx'
      exact nomatch hx.symm.trans hx'

/-- A move that changes the innermost function only. -/
theorem follows_of_head {o' : Outline} (h : o.Follows o') {level : Nat} {p q : Outline}
    (hp : (o :: os).reverse[level]? = some p) (hq : (o' :: os).reverse[level]? = some q) :
    p.Follows q := by
  rw [getElem?_reverse_cons] at hp hq
  split at hp
  · rw [if_pos ‹_›] at hq
    cases hp
    cases hq
    exact h
  · rw [if_neg ‹_›] at hq
    obtain rfl := Option.some.inj (hp.symm.trans hq)
    exact .refl p

/-- What a move does to a function that is there before it and after it. -/
theorem Moves.follows (h : Moves limits names os os') (hos : AllSound limits names os) {level : Nat}
    {p q : Outline} (hp : os.reverse[level]? = some p) (hq : os'.reverse[level]? = some q) :
    p.Follows q := by
  cases h with
  | stay =>
      obtain rfl := Option.some.inj (hp.symm.trans hq)
      exact .refl p
  | @enter o os hsettled =>
      have hset := hos.head.depth_ne_none hsettled
      have hfollows : o.Follows { o with scopeDepth := o.scopeDepth + 1 } :=
        .of_suffix hset (List.suffix_refl _)
      exact follows_of_head hfollows hp hq
  | leave hsettled _ =>
      have hset := hos.head.depth_ne_none hsettled
      exact follows_of_head (.of_suffix hset (List.dropWhile_suffix _)) hp hq
  | declare _ _ _ => exact follows_of_head (follows_declare _ _) hp hq
  | settle hlocals => exact follows_of_head (follows_settle hlocals) hp hq
  | begin _ _ _ =>
      rw [getElem?_reverse_cons] at hq
      split at hq
      · rename_i hlevel
        rw [List.getElem?_eq_none (by simp [hlevel])] at hp
        cases hp
      · obtain rfl := Option.some.inj (hp.symm.trans hq)
        exact .refl p
  | finish =>
      rw [getElem?_reverse_cons] at hp
      split at hp
      · rename_i hlevel
        rw [List.getElem?_eq_none (by simp [hlevel])] at hq
        cases hq
      · obtain rfl := Option.some.inj (hp.symm.trans hq)
        exact .refl p

/-- A function that is new has a receiver only. -/
theorem Moves.fresh (h : Moves limits names os os') {level : Nat} {q : Outline}
    (hp : os.reverse[level]? = none) (hq : os'.reverse[level]? = some q) :
    ∃ kind, q = ⟨kind, 0, [(kind.receiver names, some 0)]⟩ := by
  have hhead {o o' : Outline} {os : List Outline} (hp : (o :: os).reverse[level]? = none)
      (hq : (o' :: os).reverse[level]? = some q) : False := by
    have hle := List.getElem?_eq_none_iff.mp hp
    rw [List.getElem?_eq_none (by simpa using hle)] at hq
    cases hq
  cases h with
  | stay => exact nomatch hp.symm.trans hq
  | enter _ => exact (hhead hp hq).elim
  | leave _ _ => exact (hhead hp hq).elim
  | declare _ _ _ => exact (hhead hp hq).elim
  | settle _ => exact (hhead hp hq).elim
  | begin _ _ _ =>
      rw [getElem?_reverse_cons] at hq
      split at hq
      · exact ⟨_, (Option.some.inj hq).symm⟩
      · exact nomatch hp.symm.trans hq
  | finish =>
      rw [getElem?_reverse_cons, hq] at hp
      split at hp <;> cases hp

variable {level slot depth : Nat}

/-- A new local is tied to the scope that declares it. -/
theorem Moves.tied_fresh (h : Moves limits names os os') (hos : AllSound limits names os)
    (hnew : depthAt? os level slot = none) (hthere : depthAt? os' level slot ≠ none) :
    ∃ depth, scopeAt? os' level = some depth ∧ Tied os' level slot depth := by
  unfold Tied
  unfold depthAt? scopeAt? at *
  cases hq : os'.reverse[level]? with
  | none => simp [hq] at hthere
  | some q =>
      rw [hq] at hthere
      obtain ⟨x, hx⟩ := Option.ne_none_iff_exists'.mp hthere
      refine ⟨q.scopeDepth, rfl, ?_⟩
      rw [Option.bind_some] at hx ⊢
      cases hp : os.reverse[level]? with
      | none =>
          obtain ⟨kind, rfl⟩ := h.fresh hp hq
          cases slot with
          | zero => exact .inl rfl
          | succ slot => simp [depth?] at hx
      | some p =>
          rw [hp, Option.bind_some] at hnew
          rw [(h.follows hos hp hq).fresh hnew hx] at hx
          exact .inr ⟨hx, rfl⟩

/-- A local stays tied to a scope as long as it is there, and it keeps its depth once it has
one. -/
theorem Moves.tied (h : Moves limits names os os') (hos : AllSound limits names os)
    (htied : Tied os level slot depth) (hthere : depthAt? os' level slot ≠ none) :
    Tied os' level slot depth ∧ (depthAt? os level slot = some (some depth) →
      depthAt? os' level slot = some (some depth)) := by
  unfold Tied at *
  unfold depthAt? scopeAt? at *
  cases hq : os'.reverse[level]? with
  | none => simp [hq] at hthere
  | some q =>
      rw [hq] at hthere
      obtain ⟨x, hx⟩ := Option.ne_none_iff_exists'.mp hthere
      rw [Option.bind_some] at hx
      cases hp : os.reverse[level]? with
      | none => simp [hp] at htied
      | some p =>
          have hfollows := h.follows hos hp hq
          rw [hp] at htied
          simp only [Option.bind_some, Option.map_some, hx] at htied ⊢
          rcases htied with hset | ⟨hunset, hscope⟩
          · obtain rfl := hfollows.set hset hx
            exact ⟨.inl rfl, fun _ => rfl⟩
          · obtain ⟨hkept, hdepth⟩ := hfollows.unset hunset hx
            refine ⟨?_, fun hset => nomatch hunset.symm.trans hset⟩
            rcases hdepth with rfl | rfl
            · exact .inr ⟨rfl, by rw [hkept]; exact hscope⟩
            · exact .inl (congrArg some hscope)

end Outline

end LoxCompiler
