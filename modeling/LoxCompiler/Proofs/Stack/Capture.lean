import LoxCompiler.Frame.Stack
import Mathlib.Data.List.Forall2

/-! # Capturing through a stack

Functions inside the owner of a variable capture it one from the other. Each of them has the
descriptor already or gets it at the end, so the chain of descriptors leads to the slot of the
variable, and resolving the variable once more finds the same chain. This holds of all stacks.
-/

namespace LoxCompiler

/-! ## Locals of a name -/

namespace Local

/-- A local is the newest one of a name: of all slots of that name, it is in the highest. -/
structure Newest (name : Symbol) (locals : List Local) (slot : Nat) (l : Local) : Prop where
  getElem?_eq : locals.reverse[slot]? = some l
  name_eq : l.name = name
  highest : ∀ {slot' : Nat} {m : Local}, locals.reverse[slot']? = some m → m.name = name →
    slot' ≤ slot

variable {name : Symbol} {locals : List Local} {slot : Nat} {l : Local}

theorem getElem?_reverse_older {newest : Local} {older : List Local} (h : slot < older.length) :
    (newest :: older).reverse[slot]? = older.reverse[slot]? := by
  rw [List.reverse_cons, List.getElem?_append_left (by rwa [List.length_reverse])]

theorem getElem?_reverse_newest (newest : Local) (older : List Local) :
    (newest :: older).reverse[older.length]? = some newest := by
  rw [List.reverse_cons, List.getElem?_append_right (by simp)]
  simp

/-- A local that is found is in one of the slots. -/
theorem lt_length_of_find? (h : find? name locals = some (slot, l)) : slot < locals.length := by
  induction locals with
  | nil => exact nomatch h
  | cons newest older ih =>
      unfold find? at h
      split at h
      · cases h
        exact Nat.lt_succ_self _
      · exact Nat.lt_succ_of_lt (ih h)

theorem find?_eq_none_iff_ne : find? name locals = none ↔ ∀ l ∈ locals, l.name ≠ name := by
  induction locals with
  | nil => simp [find?]
  | cons newest older ih =>
      rw [find?, List.forall_mem_cons, ← ih]
      by_cases h : newest.name = name
      · simp [h]
      · simp [h]

theorem find?_of_newest (h : Newest name locals slot l) : find? name locals = some (slot, l) := by
  induction locals with
  | nil => exact nomatch h.getElem?_eq
  | cons newest older ih =>
      have hlt := (List.getElem?_eq_some_iff.mp h.getElem?_eq).1
      rw [List.length_reverse, List.length_cons] at hlt
      unfold find?
      by_cases hname : newest.name = name
      · have hslot : slot = older.length :=
          Nat.le_antisymm (Nat.le_of_lt_succ hlt) (h.highest (getElem?_reverse_newest _ _) hname)
        have hlast := h.getElem?_eq
        rw [hslot, getElem?_reverse_newest] at hlast
        rw [if_pos hname, hslot, Option.some.inj hlast]
      · have hslot : slot ≠ older.length := by
          rintro rfl
          have hlast := h.getElem?_eq
          rw [getElem?_reverse_newest] at hlast
          exact hname (Option.some.inj hlast ▸ h.name_eq)
        have holder : slot < older.length := by omega
        rw [if_neg hname]
        refine ih ⟨?_, h.name_eq, fun {slot' m} hm hmname => ?_⟩
        · rw [← getElem?_reverse_older holder]
          exact h.getElem?_eq
        · have hslot' : slot' < older.length := by
            simpa using (List.getElem?_eq_some_iff.mp hm).1
          exact h.highest ((getElem?_reverse_older hslot').trans hm) hmname

theorem newest_of_find? (h : find? name locals = some (slot, l)) : Newest name locals slot l := by
  induction locals with
  | nil => exact nomatch h
  | cons newest older ih =>
      unfold find? at h
      split at h
      · cases h
        exact ⟨getElem?_reverse_newest _ _, ‹_›, fun hm _ => Nat.le_of_lt_succ
          (by simpa using (List.getElem?_eq_some_iff.mp hm).1)⟩
      · have holder := ih h
        refine ⟨?_, holder.name_eq, fun {slot' m} hm hmname => ?_⟩
        · rw [getElem?_reverse_older (lt_length_of_find? h)]
          exact holder.getElem?_eq
        · by_cases hslot' : slot' < older.length
          · exact holder.highest ((getElem?_reverse_older hslot').symm.trans hm) hmname
          · have hlt : slot' < older.length + 1 := by
              simpa using (List.getElem?_eq_some_iff.mp hm).1
            obtain rfl : slot' = older.length := by omega
            rw [getElem?_reverse_newest] at hm
            exact absurd (Option.some.inj hm ▸ hmname) ‹_›

theorem find?_eq_none_iff : find? name locals = none ↔ name ∉ locals.map Local.name := by
  rw [find?_eq_none_iff_ne, List.mem_map, not_exists]
  simp only [not_and]

/-- Nothing but the mark changes. -/
theorem map_capture {γ : Type} {f : Local → γ} (hf : ∀ l : Local, f { l with captured := true } = f l)
    (name : Symbol) (locals : List Local) : (capture name locals).map f = locals.map f := by
  induction locals with
  | nil => rfl
  | cons newest older ih =>
      unfold capture
      split
      · rw [List.map_cons, List.map_cons, hf]
      · rw [List.map_cons, List.map_cons, ih]

theorem length_capture : (capture name locals).length = locals.length := by
  simpa using congrArg List.length (map_capture (f := fun _ => ()) (fun _ => rfl) name locals)

theorem capture_eq_self (h : find? name locals = none) : capture name locals = locals := by
  induction locals with
  | nil => rfl
  | cons newest older ih =>
      unfold find? at h
      unfold capture
      split at h
      · cases h
      · rw [if_neg ‹_›, ih h]

/-- Only the newest local of the name is marked. -/
theorem reverse_capture (h : find? name locals = some (slot, l)) :
    (capture name locals).reverse = locals.reverse.set slot { l with captured := true } := by
  induction locals with
  | nil => exact nomatch h
  | cons newest older ih =>
      unfold find? at h
      unfold capture
      split at h
      · cases h
        rw [if_pos ‹_›, List.reverse_cons, List.reverse_cons, List.set_append_right]
        · simp
        · simp
      · rw [if_neg ‹_›, List.reverse_cons, List.reverse_cons, ih h, List.set_append_left]
        rw [List.length_reverse]
        exact lt_length_of_find? h

theorem find?_capture : find? name (capture name locals) =
    (find? name locals).map fun p => (p.1, { p.2 with captured := true }) := by
  induction locals with
  | nil => rfl
  | cons newest older ih =>
      unfold capture find?
      by_cases h : newest.name = name
      · rw [if_pos h, if_pos h]
        exact if_pos h
      · rw [if_neg h, if_neg h, ← ih]
        exact if_neg h

theorem capture_capture : capture name (capture name locals) = capture name locals := by
  induction locals with
  | nil => rfl
  | cons newest older ih =>
      by_cases h : newest.name = name
      · simp [capture, h]
      · simp [capture, h, ih]

end Local

namespace Frame

variable {β : Type} {f g : Frame β} {name : Symbol} {slot : Nat}

theorem resolveLocal_eq_none_iff : f.resolveLocal name = none ↔ ∀ l ∈ f.locals, l.name ≠ name := by
  rw [resolveLocal, Option.map_eq_none_iff, Local.find?_eq_none_iff_ne]

theorem resolveLocal_of_newest {l : Local} (h : Local.Newest name f.locals slot l) :
    f.resolveLocal name = some (slot, l.depth.isSome) := by
  rw [resolveLocal, Local.find?_of_newest h]
  rfl

theorem resolveLocal_captureLocal : (f.captureLocal name).resolveLocal name = f.resolveLocal name := by
  unfold resolveLocal captureLocal
  rw [Local.find?_capture, Option.map_map]
  rfl

theorem captureLocal_captureLocal : (f.captureLocal name).captureLocal name = f.captureLocal name := by
  unfold captureLocal
  rw [Local.capture_capture]

/-- A function has the same captured variables as before, or a new one after them. -/
inductive Grows (limits : Limits) (f : Frame β) : Frame β → Prop
  | same : Grows limits f f
  | append {u : Upvalue} : u ∉ f.upvalues →
      Limits.admits limits.upvalues (f.upvalues.length + 1) = true →
      Grows limits f { f with upvalues := f.upvalues ++ [u] }

theorem Grows.prefix_upvalues {limits : Limits} (h : f.Grows limits g) :
    f.upvalues <+: g.upvalues := by
  cases h with
  | same => exact List.prefix_rfl
  | append _ _ => exact List.prefix_append _ _

theorem Grows.locals {limits : Limits} (h : f.Grows limits g) : g.locals = f.locals := by
  cases h <;> rfl

theorem idxOf?_append_singleton {us : List Upvalue} {u : Upvalue} (h : u ∉ us) :
    (us ++ [u]).idxOf? u = some us.length := by
  induction us with
  | nil => simp [List.idxOf?_cons]
  | cons v us ih =>
      obtain ⟨hne, hnot⟩ := List.ne_and_not_mem_of_not_mem_cons h
      rw [List.cons_append, List.idxOf?_cons, ih hnot]
      simp [Ne.symm hne]

/-- A captured variable is found where it is, or added at the end, unless there is no room. -/
theorem addUpvalue_cases (limits : Limits) (f : Frame β) (u : Upvalue) :
    (∃ g index, f.addUpvalue limits u = .ok (g, index) ∧ f.Grows limits g ∧
      g.upvalues.idxOf? u = some index) ∨
    (f.addUpvalue limits u = .error .tooManyUpvalues ∧ u ∉ f.upvalues ∧
      Limits.admits limits.upvalues (f.upvalues.length + 1) ≠ true) := by
  unfold addUpvalue
  cases hindex : f.upvalues.idxOf? u with
  | some index => exact .inl ⟨f, index, rfl, .same, hindex⟩
  | none =>
      have hnew : u ∉ f.upvalues := by simpa using hindex
      dsimp only
      split
      · rename_i hroom
        refine .inl ⟨_, _, rfl, .append hnew hroom, ?_⟩
        exact idxOf?_append_singleton hnew
      · exact .inr ⟨rfl, hnew, ‹_›⟩

end Frame

/-! ## Chains of descriptors -/

namespace Frames

variable {β : Type} {limits : Limits} {name : Symbol} {inner inner' outer : Frames β} {owner : Frame β}
  {slot index : Nat}

/-- Follow a captured variable of the innermost function outwards, up to the function that captures
a local of the next one. The answer is the number of functions on the way, and the slot. -/
def follow : Frames β → Nat → Option (Nat × Nat)
  | [], _ => none
  | f :: outer, index =>
      match f.upvalues[index]? with
      | none => none
      | some ⟨true, slot⟩ => some (0, slot)
      | some ⟨false, index⟩ => (follow outer index).map fun (passed, slot) => (passed + 1, slot)

/-- Each of some functions finds its descriptor of a variable that the outermost of them captures
from a slot. -/
inductive Threaded (slot : Nat) : Frames β → Nat → Prop
  | last {f : Frame β} {index : Nat} : f.upvalues.idxOf? ⟨true, slot⟩ = some index →
      Threaded slot [f] index
  | through {f : Frame β} {inner : Frames β} {index index' : Nat} : Threaded slot inner index' →
      f.upvalues.idxOf? ⟨false, index'⟩ = some index → Threaded slot (f :: inner) index

/-- The descriptor that a function needs of a variable, given the functions between it and the
owner. -/
inductive Needs (slot : Nat) : Frames β → Upvalue → Prop
  | owned : Needs slot [] ⟨true, slot⟩
  | through {between : Frames β} {index : Nat} : Threaded slot between index →
      Needs slot between ⟨false, index⟩

/-- A function has no room for a descriptor that it needs. The functions inside it are as before,
and those around it have the descriptors that they need. -/
def Overflows (limits : Limits) (slot : Nat) (inner inner' : Frames β) : Prop :=
  ∃ inside full between between' upvalue, inner = inside ++ full :: between ∧
    inner' = inside ++ full :: between' ∧ Needs slot between' upvalue ∧
    upvalue ∉ full.upvalues ∧ Limits.admits limits.upvalues (full.upvalues.length + 1) ≠ true

theorem Overflows.cons (h : Overflows limits slot inner inner') (f : Frame β) :
    Overflows limits slot (f :: inner) (f :: inner') := by
  obtain ⟨inside, full, between, between', upvalue, hinner, hinner', hfull⟩ := h
  exact ⟨f :: inside, full, between, between', upvalue, by rw [hinner]; rfl, by rw [hinner']; rfl,
    hfull⟩

theorem getElem?_of_idxOf? {us : List Upvalue} {u : Upvalue} (h : us.idxOf? u = some index) :
    us[index]? = some u := by
  obtain ⟨hlt, hget, -⟩ := List.findIdx?_eq_some_iff_getElem.mp h
  rw [List.getElem?_eq_getElem hlt, eq_of_beq hget]

namespace Threaded

theorem follow_eq (h : Threaded slot inner index) (outer : Frames β) :
    follow (inner ++ outer) index = some (inner.length - 1, slot) := by
  induction h with
  | last hindex => rw [List.singleton_append, follow, getElem?_of_idxOf? hindex]; rfl
  | @through f inner index index' h hindex ih =>
      rw [List.cons_append, follow, getElem?_of_idxOf? hindex]
      dsimp only
      rw [ih]
      have hpos : 0 < inner.length := by cases h <;> exact Nat.succ_pos _
      simp only [Option.map_some, List.length_cons, Option.some.injEq, Prod.mk.injEq, and_true]
      omega

theorem lt_length (h : Threaded slot inner index) :
    ∃ f ∈ inner.head?, index < f.upvalues.length := by
  cases h with
  | last hindex =>
      exact ⟨_, rfl, (List.getElem?_eq_some_iff.mp (getElem?_of_idxOf? hindex)).1⟩
  | through _ hindex =>
      exact ⟨_, rfl, (List.getElem?_eq_some_iff.mp (getElem?_of_idxOf? hindex)).1⟩

end Threaded

/-- A captured variable stays what it was when functions capture more of them. -/
theorem follow_of_prefix {fs gs : Frames β} {captured : Nat × Nat}
    (h : List.Forall₂ (fun f g => f.upvalues <+: g.upvalues) fs gs)
    (hfollow : follow fs index = some captured) : follow gs index = some captured := by
  induction h generalizing index captured with
  | nil => exact nomatch hfollow
  | @cons f g fs gs hfirst hrest ih =>
      rw [follow] at hfollow ⊢
      cases hdescriptor : f.upvalues[index]? with
      | none =>
          rw [hdescriptor] at hfollow
          exact nomatch hfollow
      | some u =>
          obtain ⟨local?, index'⟩ := u
          obtain ⟨added, hadded⟩ := hfirst
          rw [← hadded, List.getElem?_append_left (List.getElem?_eq_some_iff.mp hdescriptor).1,
            hdescriptor]
          rw [hdescriptor] at hfollow
          cases local? with
          | true => exact hfollow
          | false =>
              obtain ⟨captured', houter, rfl⟩ := Option.map_eq_some_iff.mp hfollow
              exact Option.map_eq_some_iff.mpr ⟨captured', ih houter, rfl⟩

theorem captureInnermost_of_idxOf? {f : Frame β} {u : Upvalue}
    (h : f.upvalues.idxOf? u = some index) :
    captureInnermost limits f outer u = (f :: outer, .ok (some index)) := by
  rw [captureInnermost, Frame.addUpvalue, h]

/-! ## Resolving a variable -/

/-- The owner of a variable of the innermost function is the next function out with a local of that
name. The newest of these locals is the variable. -/
structure Owned (name : Symbol) (fs inner : Frames β) (owner : Frame β) (outer : Frames β)
    (slot : Nat) (l : Local) : Prop where
  eq_append : fs = inner ++ owner :: outer
  ne_nil : inner ≠ []
  none_between : ∀ f ∈ inner.tail, ∀ l ∈ f.locals, l.name ≠ name
  newest : Local.Newest name owner.locals slot l

theorem exists_newest {fs : Frames β} (h : ¬ ∀ f ∈ fs, ∀ l ∈ f.locals, l.name ≠ name) :
    ∃ inner owner outer slot l, fs = inner ++ owner :: outer ∧
      (∀ f ∈ inner, ∀ l ∈ f.locals, l.name ≠ name) ∧ Local.Newest name owner.locals slot l := by
  induction fs with
  | nil => exact (h nofun).elim
  | cons f fs ih =>
      cases hf : Local.find? name f.locals with
      | none =>
          have hnone := Local.find?_eq_none_iff_ne.mp hf
          obtain ⟨inner, owner, outer, slot, l, rfl, hinner, howner⟩ :=
            ih fun hrest => h (List.forall_mem_cons.mpr ⟨hnone, hrest⟩)
          exact ⟨f :: inner, owner, outer, slot, l, rfl,
            List.forall_mem_cons.mpr ⟨hnone, hinner⟩, howner⟩
      | some p => exact ⟨[], f, fs, p.1, p.2, rfl, nofun, Local.newest_of_find? hf⟩

theorem exists_owned {fs : Frames β} (h : ¬ ∀ f ∈ fs.tail, ∀ l ∈ f.locals, l.name ≠ name) :
    ∃ inner owner outer slot l, Owned name fs inner owner outer slot l := by
  cases fs with
  | nil => exact (h nofun).elim
  | cons f fs =>
      obtain ⟨inner, owner, outer, slot, l, rfl, hinner, howner⟩ := exists_newest h
      exact ⟨f :: inner, owner, outer, slot, l, rfl, List.cons_ne_nil _ _, hinner, howner⟩

/-- A variable that only the innermost function has as a local is not captured. -/
theorem resolveUpvalue_eq_none (h : ∀ f ∈ inner.tail, f.resolveLocal name = none) :
    resolveUpvalue limits name inner = (inner, .ok none) := by
  induction inner with
  | nil => rfl
  | cons f inner ih =>
      cases inner with
      | nil => rfl
      | cons next inner =>
          have hnext := h next List.mem_cons_self
          have hrest := ih fun g hg => h g (List.mem_cons_of_mem _ hg)
          rw [resolveUpvalue, hnext]
          dsimp only
          rw [hrest]

/-- A variable that cannot be read yet is not captured. -/
theorem resolveUpvalue_uninitialized (hinner : inner ≠ [])
    (h : ∀ f ∈ inner.tail, f.resolveLocal name = none)
    (howner : owner.resolveLocal name = some (slot, false)) :
    resolveUpvalue limits name (inner ++ owner :: outer) =
      (inner ++ owner :: outer, .error .selfReferentialInitializer) := by
  induction inner with
  | nil => exact (hinner rfl).elim
  | cons f inner ih =>
      cases inner with
      | nil =>
          rw [List.singleton_append, resolveUpvalue, howner]
      | cons next inner =>
          have hnext := h next List.mem_cons_self
          have hrest := ih (List.cons_ne_nil _ _) fun g hg => h g (List.mem_cons_of_mem _ hg)
          rw [List.cons_append] at hrest
          rw [List.cons_append, List.cons_append, resolveUpvalue, hnext]
          dsimp only
          rw [hrest]

/-- The innermost function captures a variable, or has no room for it. -/
theorem captureInnermost_cases (limits : Limits) (f : Frame β) (outer : Frames β) (u : Upvalue) :
    (∃ g index, captureInnermost limits f outer u = (g :: outer, .ok (some index)) ∧
      f.Grows limits g ∧ g.upvalues.idxOf? u = some index) ∨
    (captureInnermost limits f outer u = (f :: outer, .error .tooManyUpvalues) ∧
      u ∉ f.upvalues ∧ Limits.admits limits.upvalues (f.upvalues.length + 1) ≠ true) := by
  unfold captureInnermost
  rcases f.addUpvalue_cases limits u with ⟨g, index, hadd, hgrows, hindex⟩ | ⟨hadd, hfull⟩
  · rw [hadd]
    exact .inl ⟨g, index, rfl, hgrows, hindex⟩
  · rw [hadd]
    exact .inr ⟨rfl, hfull⟩

/-- All functions inside the owner of a variable capture it one from the other, up to one that has
no room for it. -/
theorem resolveUpvalue_cases (hinner : inner ≠ [])
    (h : ∀ f ∈ inner.tail, f.resolveLocal name = none)
    (howner : owner.resolveLocal name = some (slot, true)) :
    ∃ inner', List.Forall₂ (Frame.Grows limits) inner inner' ∧
      ((∃ index, resolveUpvalue limits name (inner ++ owner :: outer) =
          (inner' ++ owner.captureLocal name :: outer, .ok (some index)) ∧
        Threaded slot inner' index) ∨
      (resolveUpvalue limits name (inner ++ owner :: outer) =
          (inner' ++ owner.captureLocal name :: outer, .error .tooManyUpvalues) ∧
        Overflows limits slot inner inner')) := by
  induction inner with
  | nil => exact (hinner rfl).elim
  | cons f inner ih =>
      cases inner with
      | nil =>
          rw [List.singleton_append, resolveUpvalue, howner]
          rcases captureInnermost_cases limits f (owner.captureLocal name :: outer) ⟨true, slot⟩ with
            ⟨g, index, hcapture, hgrows, hindex⟩ | ⟨hcapture, hnew, hroom⟩
          · exact ⟨[g], .cons hgrows .nil, .inl ⟨index, hcapture, .last hindex⟩⟩
          · exact ⟨[f], .cons .same .nil,
              .inr ⟨hcapture, [], f, [], [], _, rfl, rfl, .owned, hnew, hroom⟩⟩
      | cons next inner =>
          have hnext := h next List.mem_cons_self
          obtain ⟨inner', hgrown, hrest⟩ :=
            ih (List.cons_ne_nil _ _) fun g hg => h g (List.mem_cons_of_mem _ hg)
          rw [List.cons_append] at hrest
          rw [List.cons_append, List.cons_append, resolveUpvalue, hnext]
          dsimp only
          rcases hrest with ⟨index, hrest, hthreaded⟩ | ⟨hrest, hfull⟩
          · rw [hrest]
            rcases captureInnermost_cases limits f (inner' ++ owner.captureLocal name :: outer)
              ⟨false, index⟩ with ⟨g, index', hcapture, hgrows, hindex⟩ | ⟨hcapture, hnew, hroom⟩
            · exact ⟨g :: inner', .cons hgrows hgrown,
                .inl ⟨index', hcapture, .through hthreaded hindex⟩⟩
            · exact ⟨f :: inner', .cons .same hgrown,
                .inr ⟨hcapture, [], f, _, inner', _, rfl, rfl, .through hthreaded, hnew, hroom⟩⟩
          · rw [hrest]
            exact ⟨f :: inner', .cons .same hgrown, .inr ⟨rfl, hfull.cons f⟩⟩

/-- Functions that have captured a variable already find it again, and nothing changes. -/
theorem Threaded.resolveUpvalue_eq (hthreaded : Threaded slot inner index)
    (h : ∀ f ∈ inner.tail, f.resolveLocal name = none)
    (howner : owner.resolveLocal name = some (slot, true))
    (hmarked : owner.captureLocal name = owner) :
    resolveUpvalue limits name (inner ++ owner :: outer) =
      (inner ++ owner :: outer, .ok (some index)) := by
  induction hthreaded with
  | last hindex =>
      rw [List.singleton_append, resolveUpvalue, howner]
      dsimp only
      rw [hmarked, captureInnermost_of_idxOf? hindex]
  | @through f inner index index' hthreaded hindex ih =>
      have hrest := ih fun g hg => h g (List.mem_of_mem_tail hg)
      cases inner with
      | nil => cases hthreaded
      | cons next inner =>
          have hnext := h next List.mem_cons_self
          rw [List.cons_append] at hrest
          rw [List.cons_append, List.cons_append, resolveUpvalue, hnext]
          dsimp only
          rw [hrest]
          dsimp only
          rw [captureInnermost_of_idxOf? hindex]

theorem none_of_forall_ne {fs : Frames β} (h : ∀ f ∈ fs, ∀ l ∈ f.locals, l.name ≠ name) :
    ∀ f ∈ fs, f.resolveLocal name = none :=
  fun f hf => Frame.resolveLocal_eq_none_iff.mpr (h f hf)

theorem resolveUpvalue_global {fs : Frames β} (h : ∀ f ∈ fs.tail, ∀ l ∈ f.locals, l.name ≠ name) :
    resolveUpvalue limits name fs = (fs, .ok none) :=
  resolveUpvalue_eq_none (none_of_forall_ne h)

theorem resolveLocal_of_grown {fs gs : Frames β} (h : List.Forall₂ (Frame.Grows limits) fs gs)
    (hnone : ∀ f ∈ fs, f.resolveLocal name = none) : ∀ g ∈ gs, g.resolveLocal name = none := by
  induction h with
  | nil => exact hnone
  | @cons f g fs gs hfirst hrest ih =>
      obtain ⟨hf, hfs⟩ := List.forall_mem_cons.mp hnone
      refine List.forall_mem_cons.mpr ⟨?_, ih hfs⟩
      rw [Frame.resolveLocal, hfirst.locals]
      exact hf

namespace Owned

variable {fs : Frames β} {l : Local}

theorem resolveUpvalue_uninitialized (h : Owned name fs inner owner outer slot l)
    (hdepth : l.depth = none) :
    resolveUpvalue limits name fs = (fs, .error .selfReferentialInitializer) := by
  have howner := Frame.resolveLocal_of_newest h.newest
  rw [hdepth] at howner
  rw [h.eq_append]
  exact Frames.resolveUpvalue_uninitialized h.ne_nil (none_of_forall_ne h.none_between) howner

theorem resolveUpvalue_cases (h : Owned name fs inner owner outer slot l)
    (hdepth : l.depth.isSome = true) :
    ∃ inner', List.Forall₂ (Frame.Grows limits) inner inner' ∧
      ((∃ index, resolveUpvalue limits name fs =
          (inner' ++ owner.captureLocal name :: outer, .ok (some index)) ∧
        Threaded slot inner' index) ∨
      (resolveUpvalue limits name fs =
          (inner' ++ owner.captureLocal name :: outer, .error .tooManyUpvalues) ∧
        Overflows limits slot inner inner')) := by
  have howner := Frame.resolveLocal_of_newest h.newest
  rw [hdepth] at howner
  rw [h.eq_append]
  exact Frames.resolveUpvalue_cases h.ne_nil (none_of_forall_ne h.none_between) howner

/-- The variable is found again after it has been captured. -/
theorem resolveUpvalue_again (h : Owned name fs inner owner outer slot l)
    (hdepth : l.depth.isSome = true) (hgrown : List.Forall₂ (Frame.Grows limits) inner inner')
    (hthreaded : Threaded slot inner' index) :
    resolveUpvalue limits name (inner' ++ owner.captureLocal name :: outer) =
      (inner' ++ owner.captureLocal name :: outer, .ok (some index)) := by
  have hnone : ∀ f ∈ inner'.tail, f.resolveLocal name = none := by
    cases hgrown with
    | nil => exact nofun
    | cons _ hrest => exact resolveLocal_of_grown hrest (none_of_forall_ne h.none_between)
  refine hthreaded.resolveUpvalue_eq hnone ?_ Frame.captureLocal_captureLocal
  rw [Frame.resolveLocal_captureLocal, Frame.resolveLocal_of_newest h.newest, hdepth]

end Owned

end Frames

end LoxCompiler
