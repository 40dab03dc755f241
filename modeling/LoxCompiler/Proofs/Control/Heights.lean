import LoxCompiler.Proofs.Control.Stack

/-! # The height at every step

Structured code that changes the height of the stack on all its paths alike has one height at each
of its steps: every way through the code finds it there. The steps are listed with their heights,
and each step leads to steps whose heights fit, or to the end of the code.
-/

namespace LoxCompiler

/-- Steps with the heights that the stack has before them. -/
abbrev Marks : Type := List (Nat × Step)

namespace Marks

/-- The steps without their heights. -/
def code (marks : Marks) : List Step := marks.map Prod.snd

/-- The offsets and heights of some steps. -/
def rows : Nat → Marks → List (Nat × Nat × Step)
  | _, [] => []
  | o, (k, s) :: marks => (o, k, s) :: rows (o + s.size) marks

variable (R : Nat → Nat → Prop)

/-- Some relation between offsets and heights holds of all steps. -/
def Hold : Nat → Marks → Prop
  | _, [] => True
  | o, (k, s) :: marks => R o k ∧ Hold (o + s.size) marks

end Marks

/-- A step at an offset finds enough on a stack of some height, and leads to offsets and heights
that are related. -/
structure Step.Sends (R : Nat → Nat → Prop) (level o k : Nat) (s : Step) : Prop where
  enough : s.opcode.takes s.arguments < k
  within : s.Within level k
  /-- Where control goes on after the step. -/
  next : s.isReturn = false → s.isPlain = true →
    ∃ k', R (o + s.size) k' ∧ k' + s.opcode.takes s.arguments = k + s.opcode.gives
  /-- Where a jump leads. -/
  jump : ∀ op distance, s = .jump op distance →
    R (Instruction.jumpTarget op o distance) k ∧ (op = .jumpIfFalse → R (o + 3) k)

namespace Marks

variable {R : Nat → Nat → Prop} {level o : Nat} {marks more : Marks}

variable (R level) in
/-- All steps find enough on the stack, and lead to offsets and heights that are related. -/
def Send : Nat → Marks → Prop
  | _, [] => True
  | o, (k, s) :: marks => s.Sends R level o k ∧ Send (o + s.size) marks

@[simp] theorem code_append : (marks ++ more).code = marks.code ++ more.code := List.map_append ..

@[simp] theorem code_cons (k : Nat) (s : Step) : code ((k, s) :: marks) = s :: marks.code := rfl

theorem hold_append : Hold R o (marks ++ more) ↔
    Hold R o marks ∧ Hold R (o + totalSize marks.code) more := by
  induction marks generalizing o with
  | nil => simp [Hold, code]
  | cons mark marks ih =>
      simp only [List.cons_append, Hold, ih, code, List.map_cons, totalSize_cons, Nat.add_assoc,
        and_assoc]

theorem send_append : Send R level o (marks ++ more) ↔
    Send R level o marks ∧ Send R level (o + totalSize marks.code) more := by
  induction marks generalizing o with
  | nil => simp [Send, code]
  | cons mark marks ih =>
      simp only [List.cons_append, Send, ih, code, List.map_cons, totalSize_cons, Nat.add_assoc,
        and_assoc]

end Marks

/-- Steps with heights lead from one height to another. Wherever they stand, if their offsets and
heights are related, and so are those of their end, they lead to such offsets and heights only. -/
def Marks.Follow (level h h' : Nat) (marks : Marks) : Prop :=
  ∀ R o, Hold R o marks → R (o + totalSize marks.code) h' → R o h ∧ Send R level o marks

namespace Step.Sends

variable {R : Nat → Nat → Prop} {level o k distance target : Nat}

/-- A return leads nowhere. -/
theorem ret (hk : 1 < k) : (Step.simple .ret).Sends R level o k where
  enough := hk
  within := trivial
  next hreturn _ := absurd hreturn (by decide)
  jump _ _ heq := by cases heq

/-- A jump leads somewhere, and nowhere else if it is not conditional. -/
theorem jumps {op : Opcode} (hk : op.takes 0 < k)
    (h : R (Instruction.jumpTarget op o distance) k ∧ (op = .jumpIfFalse → R (o + 3) k)) :
    (Step.jump op distance).Sends R level o k where
  enough := hk
  within := trivial
  next _ plain := (Bool.false_ne_true plain).elim
  jump op' distance' heq := by
    obtain ⟨rfl, rfl⟩ := Step.jump.inj heq
    exact h

/-- A jump ahead, over some number of cells. -/
theorem ahead (hk : 0 < k) (htarget : o + 3 + distance = target) (h : R target k) :
    (Step.jump .jump distance).Sends R level o k := by
  subst htarget
  exact jumps hk ⟨h, fun hop => absurd hop (by decide)⟩

/-- A conditional jump over some number of cells. -/
theorem test (hk : 1 < k) (htarget : o + 3 + distance = target) (h : R target k)
    (hnext : R (o + 3) k) : (Step.jump .jumpIfFalse distance).Sends R level o k := by
  subst htarget
  exact jumps hk ⟨h, fun _ => hnext⟩

/-- A jump back, over some number of cells with its own. -/
theorem back (hk : 0 < k) (htarget : o + 3 = target + distance) (h : R target k) :
    (Step.jump .loop distance).Sends R level o k := by
  refine jumps hk ⟨?_, fun hop => absurd hop (by decide)⟩
  rw [Instruction.jumpTarget, if_pos rfl, htarget, Nat.add_sub_cancel]
  exact h

end Step.Sends

/-! ## Parts with jumps around them

Where a part stands is known only of the whole, so it is followed for any relation. The parts are
taken from the last one to the first, as each needs the relation where it ends.
-/

namespace Marks.Follow

variable {level h h' m k l : Nat} {c y n b i : Marks}

theorem nil : Follow level h h [] := fun _ _ _ hend => ⟨hend, trivial⟩

theorem append (hb : b.Follow level h m) (hn : n.Follow level m h') :
    (b ++ n).Follow level h h' := by
  intro R o hold hend
  rw [code_append, totalSize_append, ← Nat.add_assoc] at hend
  obtain ⟨hold, hold'⟩ := hold_append.mp hold
  obtain ⟨hmiddle, hsend'⟩ := hn R _ hold' hend
  obtain ⟨henter, hsend⟩ := hb R o hold hmiddle
  exact ⟨henter, send_append.mpr ⟨hsend, hsend'⟩⟩

/-- A part that is skipped if a condition fails. -/
theorem when (hm : 1 < m) (hc : c.Follow level h m) (hy : y.Follow level m m) :
    Follow level h m (c ++ (m, .jump .jumpIfFalse (totalSize y.code)) :: y) := by
  intro R o hold hend
  simp only [code_append, code_cons, totalSize_append, totalSize_cons, Step.size,
    ← Nat.add_assoc] at hend
  obtain ⟨hold, hjump, hold'⟩ := hold_append.mp hold
  obtain ⟨hinside, hsend'⟩ := hy R _ hold' hend
  obtain ⟨henter, hsend⟩ := hc R o hold hjump
  exact ⟨henter, send_append.mpr ⟨hsend, .test hm rfl hend hinside, hsend'⟩⟩

/-- One of two parts, by a condition. -/
theorem choose (hm : 1 < m) (hpos : 0 < h') (hc : c.Follow level h m) (hy : y.Follow level m h')
    (hn : n.Follow level m h') :
    Follow level h h' (c ++ (m, .jump .jumpIfFalse (totalSize y.code + 3)) ::
      (y ++ (h', .jump .jump (totalSize n.code)) :: n)) := by
  intro R o hold hend
  simp only [code_append, code_cons, totalSize_append, totalSize_cons, Step.size,
    ← Nat.add_assoc] at hend
  obtain ⟨hold, htest, hrest⟩ := hold_append.mp hold
  obtain ⟨hold', hjump, hold''⟩ := hold_append.mp hrest
  obtain ⟨helse, hsend''⟩ := hn R _ hold'' hend
  obtain ⟨hthen, hsend'⟩ := hy R _ hold' hjump
  obtain ⟨henter, hsend⟩ := hc R o hold htest
  refine ⟨henter, send_append.mpr ⟨hsend, .test hm ?_ helse hthen,
    send_append.mpr ⟨hsend', .ahead hpos rfl hend, hsend''⟩⟩⟩
  simp only [Step.size]
  omega

/-- A part that is repeated while a condition holds. The jump back finds the height that the
condition starts with. -/
theorem whileTrue (hh : 0 < h) (hm : 1 < m) (hc : c.Follow level h m) (hy : y.Follow level m h)
    (hn : n.Follow level m h') :
    Follow level h h' (c ++ (m, .jump .jumpIfFalse (totalSize y.code + 3)) ::
      (y ++ (h, .jump .loop (totalSize c.code + 3 + totalSize y.code + 3)) :: n)) := by
  intro R o hold hend
  simp only [code_append, code_cons, totalSize_append, totalSize_cons, Step.size,
    ← Nat.add_assoc] at hend
  obtain ⟨hold, htest, hrest⟩ := hold_append.mp hold
  obtain ⟨hold', hjump, hold''⟩ := hold_append.mp hrest
  obtain ⟨helse, hsend''⟩ := hn R _ hold'' hend
  obtain ⟨hthen, hsend'⟩ := hy R _ hold' hjump
  obtain ⟨henter, hsend⟩ := hc R o hold htest
  refine ⟨henter, send_append.mpr ⟨hsend, .test hm ?_ helse hthen,
    send_append.mpr ⟨hsend', .back hh ?_ henter, hsend''⟩⟩⟩
  all_goals simp only [Step.size]; omega

/-- A loop with an increment. It stands before the body, so the body jumps back to it. -/
theorem counting (hh : 0 < h) (hm : 1 < m) (hk : 0 < k) (hl : 0 < l) (hc : c.Follow level h m)
    (hy : y.Follow level m k) (hb : b.Follow level k l) (hi : i.Follow level l h)
    (hn : n.Follow level m h') :
    Follow level h h' (c ++ (m, .jump .jumpIfFalse
        (totalSize y.code + 3 + totalSize i.code + 3 + totalSize b.code + 3)) ::
      (y ++ (k, .jump .jump (totalSize i.code + 3)) ::
        (i ++ (h, .jump .loop (totalSize c.code + 3 + totalSize y.code + 3 + totalSize i.code + 3)) ::
          (b ++ (l, .jump .loop (totalSize i.code + 3 + totalSize b.code + 3)) :: n)))) := by
  intro R o hold hend
  simp only [code_append, code_cons, totalSize_append, totalSize_cons, Step.size,
    ← Nat.add_assoc] at hend
  obtain ⟨hold, htest, hrest⟩ := hold_append.mp hold
  obtain ⟨holdYes, hskip, hrest⟩ := hold_append.mp hrest
  obtain ⟨holdIncrement, hback, hrest⟩ := hold_append.mp hrest
  obtain ⟨holdBody, hnext, holdNo⟩ := hold_append.mp hrest
  obtain ⟨hleft, hsendNo⟩ := hn R _ holdNo hend
  obtain ⟨hround, hsendBody⟩ := hb R _ holdBody hnext
  obtain ⟨hstep, hsendIncrement⟩ := hi R _ holdIncrement hback
  obtain ⟨hinside, hsendYes⟩ := hy R _ holdYes hskip
  obtain ⟨henter, hsend⟩ := hc R o hold htest
  refine ⟨henter, send_append.mpr ⟨hsend, .test hm ?_ hleft hinside,
    send_append.mpr ⟨hsendYes, .ahead hk ?_ hround,
      send_append.mpr ⟨hsendIncrement, .back hh ?_ henter,
        send_append.mpr ⟨hsendBody, .back hl ?_ hstep, hsendNo⟩⟩⟩⟩⟩
  all_goals simp only [Step.size]; omega

/-- A loop that is left by a return only. -/
theorem forever (hh : 0 < h) (hb : b.Follow level h h) :
    Follow level h h' (b ++ [(h, .jump .loop (totalSize b.code + 3))]) := by
  intro R o hold _
  obtain ⟨hold, hjump, -⟩ := hold_append.mp hold
  obtain ⟨henter, hsend⟩ := hb R o hold hjump
  refine ⟨henter, send_append.mpr ⟨hsend, .back hh ?_ henter, trivial⟩⟩
  omega

/-- Such a loop with an increment. -/
theorem stepping (hh : 0 < h) (hk : 0 < k) (hb : b.Follow level h k) (hi : i.Follow level k h) :
    Follow level h h' ((h, .jump .jump (totalSize i.code + 3)) ::
      (i ++ (h, .jump .loop (3 + totalSize i.code + 3)) ::
        (b ++ [(k, .jump .loop (totalSize i.code + 3 + totalSize b.code + 3))]))) := by
  intro R o hold _
  obtain ⟨henter, hrest⟩ := hold
  obtain ⟨holdIncrement, hback, hrest⟩ := hold_append.mp hrest
  obtain ⟨holdBody, hnext, -⟩ := hold_append.mp hrest
  obtain ⟨hround, hsendBody⟩ := hb R _ holdBody hnext
  obtain ⟨hstep, hsendIncrement⟩ := hi R _ holdIncrement hback
  refine ⟨henter, .ahead hh ?_ hround, send_append.mpr ⟨hsendIncrement,
    .back hh ?_ henter, send_append.mpr ⟨hsendBody, .back hk ?_ hstep, trivial⟩⟩⟩
  all_goals simp only [Step.size]; omega

end Marks.Follow

namespace Flow

theorem typed_pos {level : Nat} {f : Flow} {h h' : Nat} (hf : f.Typed level h h') (hh : 0 < h) :
    0 < h' := by
  induction f generalizing h h' with
  | skip =>
      rw [hf]
      exact hh
  | step s plain =>
      have hbalance := hf.balance
      have henough := hf.enough
      omega
  | seq first second ih ih' =>
      obtain ⟨m, hfirst, hsecond⟩ := hf
      exact ih' hsecond (ih hfirst hh)
  | when condition yes => exact Nat.lt_of_succ_lt hf.2.1
  | choose condition yes no ih ih' ih'' =>
      obtain ⟨m, -, hm, hyes, -⟩ := hf
      exact ih' hyes (Nat.lt_of_succ_lt hm)
  | whileTrue condition yes no ih ih' ih'' =>
      obtain ⟨m, -, hm, -, hno⟩ := hf
      exact ih'' hno (Nat.lt_of_succ_lt hm)
  | counting condition yes body increment no ih ihYes ihBody ihIncrement ihNo =>
      obtain ⟨m, k, l, -, hm, -, -, -, hno⟩ := hf
      exact ihNo hno (Nat.lt_of_succ_lt hm)
  | forever body =>
      rw [hf.2]
      exact hh
  | stepping body increment =>
      obtain ⟨k, -, -, rfl⟩ := hf
      exact hh

/-- Every step of structured code has a height. -/
theorem exists_marks {level : Nat} {f : Flow} {h h' : Nat} (hf : f.Typed level h h') (hh : 0 < h) :
    ∃ marks : Marks, marks.code = f.flat ∧ marks.Follow level h h' := by
  induction f generalizing h h' with
  | skip =>
      obtain rfl : h' = h := hf
      exact ⟨[], rfl, .nil⟩
  | step s plain =>
      refine ⟨[(h, s)], rfl, fun R o hold hend => ⟨hold.1, ⟨hf.enough, hf.within, ?_, ?_⟩, trivial⟩⟩
      · exact fun _ _ => ⟨h', hend, hf.balance⟩
      · rintro op distance rfl
        cases plain
  | seq first second ih ih' =>
      obtain ⟨m, hfirst, hsecond⟩ := hf
      obtain ⟨a, ha, hfollow⟩ := ih hfirst hh
      obtain ⟨b, hb, hfollow'⟩ := ih' hsecond (typed_pos hfirst hh)
      exact ⟨a ++ b, by rw [Marks.code_append, ha, hb, flat], hfollow.append hfollow'⟩
  | when condition yes ih ih' =>
      obtain ⟨hcondition, hm, hyes⟩ := hf
      obtain ⟨c, hc, hfollow⟩ := ih hcondition hh
      obtain ⟨y, hy, hfollow'⟩ := ih' hyes (Nat.lt_of_succ_lt hm)
      exact ⟨_, by simp [Marks.code, flat, ← hc, ← hy], .when hm hfollow hfollow'⟩
  | choose condition yes no ih ih' ih'' =>
      obtain ⟨m, hcondition, hm, hyes, hno⟩ := hf
      have hpos := Nat.lt_of_succ_lt hm
      obtain ⟨c, hc, hfollow⟩ := ih hcondition hh
      obtain ⟨y, hy, hfollow'⟩ := ih' hyes hpos
      obtain ⟨n, hn, hfollow''⟩ := ih'' hno hpos
      exact ⟨_, by simp [Marks.code, flat, ← hc, ← hy, ← hn],
        .choose hm (typed_pos hyes hpos) hfollow hfollow' hfollow''⟩
  | whileTrue condition yes no ih ih' ih'' =>
      obtain ⟨m, hcondition, hm, hyes, hno⟩ := hf
      have hpos := Nat.lt_of_succ_lt hm
      obtain ⟨c, hc, hfollow⟩ := ih hcondition hh
      obtain ⟨y, hy, hfollow'⟩ := ih' hyes hpos
      obtain ⟨n, hn, hfollow''⟩ := ih'' hno hpos
      exact ⟨_, by simp [Marks.code, flat, ← hc, ← hy, ← hn],
        .whileTrue hh hm hfollow hfollow' hfollow''⟩
  | counting condition yes body increment no ih ihYes ihBody ihIncrement ihNo =>
      obtain ⟨m, k, l, hcondition, hm, hyes, hbody, hincrement, hno⟩ := hf
      have hpos := Nat.lt_of_succ_lt hm
      have hkpos := typed_pos hyes hpos
      have hlpos := typed_pos hbody hkpos
      obtain ⟨c, hc, hfollow⟩ := ih hcondition hh
      obtain ⟨y, hy, hfollowYes⟩ := ihYes hyes hpos
      obtain ⟨i, hi, hfollowIncrement⟩ := ihIncrement hincrement hlpos
      obtain ⟨b, hb, hfollowBody⟩ := ihBody hbody hkpos
      obtain ⟨n, hn, hfollowNo⟩ := ihNo hno hpos
      exact ⟨_, by simp [Marks.code, flat, ← hc, ← hy, ← hi, ← hb, ← hn],
        .counting hh hm hkpos hlpos hfollow hfollowYes hfollowBody hfollowIncrement hfollowNo⟩
  | forever body ih =>
      obtain ⟨hbody, rfl⟩ := hf
      obtain ⟨b, hb, hfollow⟩ := ih hbody hh
      exact ⟨_, by simp [Marks.code, flat, ← hb], .forever hh hfollow⟩
  | stepping body increment ih ih' =>
      obtain ⟨k, hbody, hincrement, rfl⟩ := hf
      have hkpos := typed_pos hbody hh
      obtain ⟨b, hb, hfollow⟩ := ih hbody hh
      obtain ⟨i, hi, hfollow'⟩ := ih' hincrement hkpos
      exact ⟨_, by simp [Marks.code, flat, ← hb, ← hi], .stepping hh hkpos hfollow hfollow'⟩

end Flow

end LoxCompiler
