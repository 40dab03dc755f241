import LoxCompiler.Proofs.Stack.Capture

/-! # Stacks of the compiler

The compiler adds a function to the stack or takes one off, and changes the variables of the
innermost one. No function gets more locals or captured variables than a byte can number, so the
numbers of a captured variable are bytes on all these stacks.
-/

namespace LoxCompiler

namespace Frames

variable {β : Type}

/-! ## Operations on stacks -/

/-- What the compiler does to the functions under construction and their variables. -/
inductive Operation where
  | push (kind : FunctionKind) (name : Option Symbol) (receiver : Symbol)
  | pop
  | setDepth (depth : Nat)
  | addLocal (name : Symbol)
  | dropLocal
  | markInitialized
  | addUpvalue (upvalue : Upvalue)
  | resolveUpvalue (name : Symbol)
deriving DecidableEq, Repr

namespace Operation

/-- The functions after an operation. What there is no room for is not added. -/
def run : Operation → Frames β → Except Fault (Frames β)
  | push kind name receiver, fs => .ok (.new kind name receiver :: fs)
  | pop, fs => fs.pop.map Prod.snd
  | setDepth depth, fs => fs.modifyInnermost fun f => { f with scopeDepth := depth }
  | addLocal name, fs => fs.modifyInnermost fun f => (f.addLocal .byte name).toOption.getD f
  | dropLocal, fs => fs.modifyInnermost Frame.dropLocal
  | markInitialized, fs => fs.modifyInnermost Frame.markInitialized
  | addUpvalue u, fs =>
      fs.modifyInnermost fun f => ((f.addUpvalue .byte u).toOption.map Prod.fst).getD f
  | resolveUpvalue name, fs => .ok (Frames.resolveUpvalue .byte name fs).1

/-- The functions after some operations. -/
def runAll (operations : List Operation) (fs : Frames β) : Except Fault (Frames β) :=
  operations.foldlM (fun fs operation => operation.run fs) fs

end Operation

/-- A stack that comes of operations, the first of them on no functions. -/
def Built (fs : Frames β) : Prop := ∃ operations, Operation.runAll operations [] = .ok fs

/-! ## Bytes number the variables -/

/-- Bytes number the locals and the captured variables of all functions. -/
def Numbered (fs : Frames β) : Prop :=
  ∀ f ∈ fs, f.locals.length ≤ 256 ∧ f.upvalues.length ≤ 256

namespace Numbered

variable {fs fs' : Frames β} {name : Symbol}

theorem modifyInnermost {change : Frame β → Frame β} (h : Numbered fs)
    (hrun : fs.modifyInnermost change = .ok fs')
    (hchange : ∀ f : Frame β, f.locals.length ≤ 256 → f.upvalues.length ≤ 256 →
      (change f).locals.length ≤ 256 ∧ (change f).upvalues.length ≤ 256) : Numbered fs' := by
  cases fs with
  | nil => exact nomatch hrun
  | cons f outer =>
      cases hrun
      obtain ⟨hf, houter⟩ := List.forall_mem_cons.mp h
      exact List.forall_mem_cons.mpr ⟨hchange f hf.1 hf.2, houter⟩

theorem addLocal {f : Frame β} (hlocals : f.locals.length ≤ 256) (hupvalues : f.upvalues.length ≤ 256) :
    ((f.addLocal .byte name).toOption.getD f).locals.length ≤ 256 ∧
      ((f.addLocal .byte name).toOption.getD f).upvalues.length ≤ 256 := by
  unfold Frame.addLocal
  split
  · exact ⟨of_decide_eq_true ‹_›, hupvalues⟩
  · exact ⟨hlocals, hupvalues⟩

theorem markInitialized {f : Frame β} : f.markInitialized.locals.length = f.locals.length ∧
    f.markInitialized.upvalues = f.upvalues := by
  unfold Frame.markInitialized
  split
  · exact ⟨rfl, rfl⟩
  · split
    · rename_i hlocals
      exact ⟨(congrArg List.length hlocals).symm, rfl⟩
    · exact ⟨rfl, rfl⟩

theorem grows {f g : Frame β} (h : f.Grows .byte g)
    (hf : f.locals.length ≤ 256 ∧ f.upvalues.length ≤ 256) :
    g.locals.length ≤ 256 ∧ g.upvalues.length ≤ 256 := by
  cases h with
  | same => exact hf
  | append _ hroom => exact ⟨hf.1, by simpa using of_decide_eq_true hroom⟩

theorem addUpvalue {f : Frame β} (u : Upvalue)
    (hf : f.locals.length ≤ 256 ∧ f.upvalues.length ≤ 256) :
    (((f.addUpvalue .byte u).toOption.map Prod.fst).getD f).locals.length ≤ 256 ∧
      (((f.addUpvalue .byte u).toOption.map Prod.fst).getD f).upvalues.length ≤ 256 := by
  rcases f.addUpvalue_cases .byte u with ⟨g, index, hadd, hgrows, -⟩ | ⟨hadd, -⟩
  · rw [hadd]
    exact grows hgrows hf
  · rw [hadd]
    exact hf

theorem forall₂_grows {inner inner' : Frames β} (hgrown : List.Forall₂ (Frame.Grows .byte) inner inner')
    (h : Numbered inner) : Numbered inner' := by
  induction hgrown with
  | nil => exact nofun
  | cons hfirst _ ih =>
      obtain ⟨hf, hrest⟩ := List.forall_mem_cons.mp h
      exact List.forall_mem_cons.mpr ⟨grows hfirst hf, ih hrest⟩

theorem resolveUpvalue (h : Numbered fs) : Numbered (Frames.resolveUpvalue .byte name fs).1 := by
  by_cases hglobal : ∀ f ∈ fs.tail, ∀ l ∈ f.locals, l.name ≠ name
  · rw [resolveUpvalue_global hglobal]
    exact h
  · obtain ⟨inner, owner, outer, slot, l, howned⟩ := exists_owned hglobal
    cases hdepth : l.depth with
    | none =>
        rw [howned.resolveUpvalue_uninitialized hdepth]
        exact h
    | some depth =>
        obtain ⟨inner', hgrown, hanswer⟩ := howned.resolveUpvalue_cases
          (Option.isSome_iff_exists.mpr ⟨depth, hdepth⟩)
        have hframes : (Frames.resolveUpvalue .byte name fs).1 =
            inner' ++ owner.captureLocal name :: outer := by
          rcases hanswer with ⟨index, hanswer, -⟩ | ⟨hanswer, -⟩ <;> rw [hanswer]
        rw [howned.eq_append] at h
        obtain ⟨hinner, howner⟩ := List.forall_mem_append.mp h
        obtain ⟨howner, houter⟩ := List.forall_mem_cons.mp howner
        rw [hframes]
        refine List.forall_mem_append.mpr ⟨forall₂_grows hgrown hinner, List.forall_mem_cons.mpr
          ⟨⟨?_, howner.2⟩, houter⟩⟩
        rw [Frame.captureLocal, Local.length_capture]
        exact howner.1

theorem run {operation : Operation} (h : Numbered fs) (hrun : operation.run fs = .ok fs') :
    Numbered fs' := by
  cases operation with
  | push kind name receiver =>
      cases hrun
      exact List.forall_mem_cons.mpr ⟨⟨Nat.le_of_ble_eq_true rfl, Nat.zero_le _⟩, h⟩
  | pop =>
      cases fs with
      | nil => exact nomatch hrun
      | cons f outer =>
          cases hrun
          exact (List.forall_mem_cons.mp h).2
  | setDepth depth => exact h.modifyInnermost hrun fun f hl hu => ⟨hl, hu⟩
  | addLocal name => exact h.modifyInnermost hrun fun f => addLocal
  | dropLocal =>
      have hdropped (f : Frame β) : f.dropLocal.locals.length ≤ f.locals.length := by
        simp [Frame.dropLocal]
      exact h.modifyInnermost hrun fun f hl hu => ⟨Nat.le_trans (hdropped f) hl, hu⟩
  | markInitialized =>
      refine h.modifyInnermost hrun fun f hl hu => ?_
      rw [markInitialized.1, markInitialized.2]
      exact ⟨hl, hu⟩
  | addUpvalue u => exact h.modifyInnermost hrun fun f hl hu => addUpvalue u ⟨hl, hu⟩
  | resolveUpvalue name =>
      cases hrun
      exact h.resolveUpvalue

theorem runAll {operations : List Operation} (h : Numbered fs)
    (hrun : Operation.runAll operations fs = .ok fs') : Numbered fs' := by
  induction operations generalizing fs with
  | nil =>
      cases hrun
      exact h
  | cons operation operations ih =>
      rw [Operation.runAll, List.foldlM_cons] at hrun
      cases hfirst : operation.run fs with
      | error fault =>
          rw [hfirst] at hrun
          exact nomatch hrun
      | ok between =>
          rw [hfirst] at hrun
          exact ih (h.run hfirst) hrun

end Numbered

theorem Built.numbered {fs : Frames β} (h : Built fs) : Numbered fs := by
  obtain ⟨operations, hrun⟩ := h
  exact Numbered.runAll (List.forall_mem_nil _) hrun

/-! ## Resolving a variable of a built stack -/

/-- What comes of capturing a variable: the owner marks the slot of the variable, functions inside it
may each have captured one more variable, and nothing else changes. -/
structure AfterCapture (fs inner : Frames β) (owner : Frame β) (outer : Frames β) (slot : Nat)
    (l : Local) (fs' : Frames β) : Prop where
  frames : ∃ inner' locals', fs' = inner' ++ { owner with locals := locals' } :: outer ∧
    List.Forall₂ (Frame.Grows .byte) inner inner' ∧
    locals'.reverse = owner.locals.reverse.set slot { l with captured := true }
  /-- The numbers of captured variables mean what they meant, in every function. -/
  kept : ∀ {n index : Nat} {captured : Nat × Nat}, follow (fs.drop n) index = some captured →
    follow (fs'.drop n) index = some captured

theorem AfterCapture.of_grown {name : Symbol} {fs inner inner' outer : Frames β} {owner : Frame β}
    {slot : Nat} {l : Local} (h : Owned name fs inner owner outer slot l)
    (hgrown : List.Forall₂ (Frame.Grows .byte) inner inner') :
    AfterCapture fs inner owner outer slot l (inner' ++ owner.captureLocal name :: outer) where
  frames := ⟨inner', _, rfl, hgrown, Local.reverse_capture (Local.find?_of_newest h.newest)⟩
  kept hfollow := by
    rw [h.eq_append] at hfollow
    refine follow_of_prefix (List.forall₂_drop _ (List.rel_append ?_ (.cons ?_ ?_))) hfollow
    · exact hgrown.imp fun _ _ hgrows => hgrows.prefix_upvalues
    · exact List.prefix_rfl
    · exact List.forall₂_same.mpr fun _ _ => List.prefix_rfl

/-- A function that has no number left for a variable has all the numbers in use, for others. -/
theorem Numbered.eq_of_overflows {slot : Nat} {inner inner' : Frames β} (h : Numbered inner)
    (hoverflows : Overflows .byte slot inner inner') :
    ∃ inside full between between' upvalue, inner = inside ++ full :: between ∧
      inner' = inside ++ full :: between' ∧ Needs slot between' upvalue ∧
      upvalue ∉ full.upvalues ∧ full.upvalues.length = 256 := by
  obtain ⟨inside, full, between, between', upvalue, rfl, rfl, hneeds, hnew, hroom⟩ := hoverflows
  have hfull := (h full (List.mem_append_right _ List.mem_cons_self)).2
  have hover : ¬ full.upvalues.length + 1 ≤ 256 := fun hle => hroom (decide_eq_true hle)
  exact ⟨inside, full, between, between', upvalue, rfl, rfl, hneeds, hnew, by omega⟩

/-- A variable that no function but the innermost has as a local is not captured. Otherwise its owner
is the innermost of these functions. A local of it that cannot be read yet is an error. One that can
be read is captured by each function up to the innermost, whose number for it leads to the local and
is found again, unless one of them has all numbers in use for other variables. -/
theorem resolveUpvalue_of_built {fs : Frames β} (hbuilt : Built fs) (name : Symbol) :
    ((∀ f ∈ fs.tail, ∀ l ∈ f.locals, l.name ≠ name) →
      resolveUpvalue .byte name fs = (fs, .ok none)) ∧
    ((¬ ∀ f ∈ fs.tail, ∀ l ∈ f.locals, l.name ≠ name) →
      ∃ inner owner outer slot l, Owned name fs inner owner outer slot l ∧ slot < 256 ∧
        (l.depth = none →
          resolveUpvalue .byte name fs = (fs, .error .selfReferentialInitializer)) ∧
        (l.depth ≠ none → ∃ fs' answer, resolveUpvalue .byte name fs = (fs', answer) ∧
          AfterCapture fs inner owner outer slot l fs' ∧
          ((∃ i, answer = .ok (some i) ∧ i < 256 ∧
            follow fs' i = some (inner.length - 1, slot) ∧
            resolveUpvalue .byte name fs' = (fs', .ok (some i))) ∨
          (answer = .error .tooManyUpvalues ∧
            ∃ inside full between between' upvalue, inner = inside ++ full :: between ∧
              fs' = inside ++ full :: between' ++ owner.captureLocal name :: outer ∧
              Needs slot between' upvalue ∧ upvalue ∉ full.upvalues ∧
              full.upvalues.length = 256)))) := by
  refine ⟨resolveUpvalue_global, fun hlocal => ?_⟩
  obtain ⟨inner, owner, outer, slot, l, howned⟩ := exists_owned hlocal
  have hnumbered := hbuilt.numbered
  rw [howned.eq_append] at hnumbered
  obtain ⟨hinner, hrest⟩ := List.forall_mem_append.mp hnumbered
  have hslot : slot < 256 :=
    Nat.lt_of_lt_of_le (Local.lt_length_of_find? (Local.find?_of_newest howned.newest))
      (List.forall_mem_cons.mp hrest).1.1
  refine ⟨inner, owner, outer, slot, l, howned, hslot, howned.resolveUpvalue_uninitialized,
    fun hdepth => ?_⟩
  have hreadable := Option.isSome_iff_ne_none.mpr hdepth
  obtain ⟨inner', hgrown, ⟨index, hresolve, hthreaded⟩ | ⟨hresolve, hoverflows⟩⟩ :=
    howned.resolveUpvalue_cases hreadable
  · refine ⟨_, _, hresolve, .of_grown howned hgrown, .inl ⟨index, rfl, ?_, ?_, ?_⟩⟩
    · obtain ⟨f, hf, hlt⟩ := hthreaded.lt_length
      exact Nat.lt_of_lt_of_le hlt (Numbered.forall₂_grows hgrown hinner f (List.mem_of_head? hf)).2
    · rw [hthreaded.follow_eq, hgrown.length_eq]
    · exact howned.resolveUpvalue_again hreadable hgrown hthreaded
  · obtain ⟨inside, full, between, between', upvalue, hinside, rfl, hfull⟩ :=
      Numbered.eq_of_overflows hinner hoverflows
    exact ⟨_, _, hresolve, .of_grown howned hgrown,
      .inr ⟨rfl, inside, full, between, between', upvalue, hinside, rfl, hfull⟩⟩

/-- A script with a local, and a function in a function inside the scope of the local. -/
def nested : Frames UInt8 :=
  [.new .function (some ⟨7⟩) .anonymous, .new .function (some ⟨6⟩) .anonymous,
    { Frame.new .script none .anonymous with
      locals := [⟨⟨5⟩, some 1, false⟩, ⟨.anonymous, some 0, false⟩], scopeDepth := 1 }]

theorem nested_built : Built nested :=
  ⟨[.push .script none .anonymous, .setDepth 1, .addLocal ⟨5⟩, .markInitialized,
    .push .function (some ⟨6⟩) .anonymous, .push .function (some ⟨7⟩) .anonymous], rfl⟩

/-- The function inside captures the local of the script, and no variable of another name. -/
theorem resolveUpvalue_of_nested :
    resolveUpvalue .byte ⟨8⟩ nested = (nested, .ok none) ∧
    (∃ inner owner outer slot l, Owned ⟨5⟩ nested inner owner outer slot l ∧ slot < 256) ∧
    (resolveUpvalue .byte ⟨5⟩ nested).2 = .ok (some 0) := by
  refine ⟨(resolveUpvalue_of_built nested_built ⟨8⟩).1 (by decide), ?_, rfl⟩
  obtain ⟨inner, owner, outer, slot, l, howned, hslot, -⟩ :=
    (resolveUpvalue_of_built nested_built ⟨5⟩).2 (by decide)
  exact ⟨inner, owner, outer, slot, l, howned, hslot⟩

end Frames

end LoxCompiler
