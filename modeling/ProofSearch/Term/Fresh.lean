import ProofSearch.Term.Judgment

/-! # Drawn names

Numbers drawn from a counter make names that have not been drawn before: the number `k` ends a
variable as `_k`, after an underscore, so that the digits after the last underscore tell the draw. -/

namespace ProofSearch

/-- The ending of the names of draw `k`. -/
def ending (k : Nat) : String := "_" ++ toString k

theorem ending_toList (k : Nat) : (ending k).toList = '_' :: (toString k).toList := by
  simp [ending, String.toList_append]

namespace Var

def drawn (stem : String) (k : Nat) : Var :=
  ⟨"$" ++ (stem ++ ending k), marked_sigil (by simp [String.toList_append, ending_toList])⟩

/-- The variable whose text goes on with `e`. -/
def tag (e : String) (v : Var) : Var := ⟨v.text ++ e, marked_append v.marked_text e⟩

end Var

namespace Term

/-- The text of the stem with the number after it; a symbol unless the stem starts a variable. -/
def drawnAtom (stem : String) (k : Nat) : Term := ofText (stem ++ toString k)

/-- Every variable tagged, everything else as it is. -/
def tag (e : String) (t : Term) : Term := t.subst fun v => var (v.tag e)

end Term

namespace Judgment

def tag (e : String) (j : Judgment) : Judgment := j.subst fun v => .var (v.tag e)

@[simp] theorem term_tag (e : String) (j : Judgment) : (j.tag e).term = j.term.tag e := rfl

end Judgment
end ProofSearch
