import ProofSearch.Checks
import ProofSearch.Search.Note
import ProofSearch.Term.Parts

/-! # Environments and stored judgments

A query is matched against the stored judgments, each with its variables renamed by a number of its own,
and against the entries of the environment, which stand as they are: their variables belong to the
query that brought them. -/

namespace ProofSearch

structure Environment where
  entries : List Judgment := []

namespace Environment

def extend (env : Environment) (j : Judgment) : Environment := ⟨env.entries ++ [j]⟩

def ofTerms (ts : List Term) : Except Fault Environment := (ts.mapM Judgment.check).map Environment.mk

end Environment

namespace Search
variable {ν : Type}

/-- The ways to make `q` equal to each of the judgments, as they stand. -/
def matchAll (q : Term) (s : Subst) : List Judgment → Search ν Subst
  | [] => done
  | j :: js => (ofUnify (s.unify q j.term) one).append fun _ => matchAll q s js

/-- The ways to make `q` equal to each of the judgments, renamed one after the other. -/
def matchApart (q : Term) (s : Subst) : List Judgment → Search ν Subst
  | [] => done
  | j :: js => draw fun n =>
    (ofUnify (s.unify q (j.tag (ending n)).term) one).append fun _ => matchApart q s js

/-- Matches `q` against the judgments stored when the reader gets here. -/
def stored (q : Term) (s : Subst) : Search ν Subst := look (matchApart q s)

/-- Matches `q` against the store, then against the environment. -/
def known (env : Environment) (q : Term) (s : Subst) : Search ν Subst :=
  (stored q s).append fun _ => matchAll q s env.entries

/-- `q` as each of the substitutions makes it. -/
def instances (q : Term) (t : Search ν Subst) : Search ν Term :=
  t.bind fun s => ofOption (s.instantiate? q) one

end Search
end ProofSearch
