import ProofSearch.Rounds

/-! # Stores

A store is a named list of judgments in the order they came, with repetitions. It only grows. -/

namespace ProofSearch

structure Store where
  name : Datum := .text "kb"
  judgments : List Judgment := []

namespace Store

def ofTerms (name : Datum) (ts : List Term) : Except Fault Store :=
  (ts.mapM Judgment.check).map (Store.mk name)

def terms (s : Store) : List Term := s.judgments.map Judgment.term

/-- The same judgments, under the name given unless that is nothing. -/
def copy (s : Store) (name : Datum) : Store := if name.isNothing then s else { s with name }

def describe (s : Store) : String :=
  "KnowledgeStore(" ++ s.name.literal ++ ", " ++ toString s.judgments.length ++ " judgments)"

end Store
end ProofSearch
