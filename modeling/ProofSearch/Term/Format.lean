import ProofSearch.Term.Basic

/-! # Written terms

Atoms stand for themselves; a tuple is written in parentheses with one space between its terms. -/

namespace ProofSearch.Term

def text : Term → Option String
  | var v => some v.text
  | sym s => some s.text
  | tuple _ => none

mutual
def format : Term → String
  | var v => v.text
  | sym s => s.text
  | tuple ts => "(" ++ formatAll ts ++ ")"
def formatAll : List Term → String
  | [] => ""
  | [t] => t.format
  | t :: u :: ts => t.format ++ " " ++ formatAll (u :: ts)
end

end ProofSearch.Term
