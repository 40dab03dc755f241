import LoxCompiler.Fault
import LoxCompiler.Frame.Basic

/-! # Frame stacks

The functions under construction, each inside the next: the innermost comes first and the
script last. A variable of an enclosing function is reached through all functions between,
each of which captures it from the next one out.
-/

namespace LoxCompiler

/-- The functions under construction, innermost first. -/
abbrev Frames (β : Type) := List (Frame β)

namespace Frames

variable {β : Type}

/-- The innermost function. -/
def innermost : Frames β → Except Fault (Frame β)
  | [] => .error .emptyFrameStack
  | frame :: _ => .ok frame

/-- Change the innermost function. -/
@[inline] def modifyInnermost (change : Frame β → Frame β) : Frames β → Except Fault (Frames β)
  | [] => .error .emptyFrameStack
  | frame :: outer => .ok (change frame :: outer)

/-- Take the innermost function off. -/
def pop : Frames β → Except Fault (Frame β × Frames β)
  | [] => .error .popOfEmptyFrameStack
  | frame :: outer => .ok (frame, outer)

/-- Let the innermost function capture a variable from the next one out. If it cannot, the
stack stays as it is. -/
def captureInnermost (limits : Limits) (frame : Frame β) (outer : Frames β)
    (upvalue : Upvalue) : Frames β × Except Diagnostic.Problem (Option Nat) :=
  match frame.addUpvalue limits upvalue with
  | .ok (frame, index) => (frame :: outer, .ok (some index))
  | .error problem => (frame :: outer, .error problem)

/-- Resolve a variable that is no local of the innermost function. The answer is the index of
the captured variable, or nothing if no enclosing function has a local of that name. The
function directly inside the owner captures the slot, and each function further in captures
what the one around it has captured. Changes made before a problem arose stay. -/
def resolveUpvalue (limits : Limits) (name : Symbol) :
    Frames β → Frames β × Except Diagnostic.Problem (Option Nat)
  | [] => ([], .ok none)
  | [frame] => ([frame], .ok none)
  | frame :: next :: outer =>
      match next.resolveLocal name with
      | some (slot, true) =>
          captureInnermost limits frame (next.captureLocal name :: outer) ⟨true, slot⟩
      | some (_, false) => (frame :: next :: outer, .error .selfReferentialInitializer)
      | none =>
          match resolveUpvalue limits name (next :: outer) with
          | (outer, .ok (some index)) => captureInnermost limits frame outer ⟨false, index⟩
          | (outer, answer) => (frame :: outer, answer)

/-- The indices of the variables that are captured in a change of the functions, outermost
function first. -/
def newUpvalues : Frames β → Frames β → List Nat
  | frame :: outer, frame' :: outer' =>
      newUpvalues outer outer' ++
        if frame.upvalues.length < frame'.upvalues.length then [frame.upvalues.length] else []
  | _, _ => []

end Frames

end LoxCompiler
