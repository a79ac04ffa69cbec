import ProofSearch.Subst.Basic
import ProofSearch.Term.Fresh

/-! # Canonical names

Variables renamed `$_0`, `$_1`, … by first appearance, so that terms that differ in the names of
variables alone become equal. The renaming is read along chains like every substitution: where the
term already holds one of these names, names can merge, or the renaming can have no end. -/

namespace ProofSearch.Term

def canonicalNames (t : Term) : Subst :=
  ⟨t.distinctVars.zipIdx.map fun (v, i) => (v, var (Var.drawn "" i))⟩

def canonical? (t : Term) : Option Term := t.canonicalNames.instantiate? t

/-- The two terms have the same canonical form. -/
def isVariant? (t u : Term) : Option Bool :=
  match t.canonical?, u.canonical? with
  | some c, some d => some (c = d)
  | _, _ => none

end ProofSearch.Term
