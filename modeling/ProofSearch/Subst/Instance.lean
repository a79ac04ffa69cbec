import ProofSearch.Subst.Basic

/-! # Instances

One-way matching: only the variables of the pattern are bound, and each binding is read once, not
along a chain. The variables of the other term are constants here, also where the names agree. -/

namespace ProofSearch.Subst

mutual
/-- The bindings of the pattern's variables that turn it into the term, added to those of `s`. -/
def instance? (s : Subst) : (pattern term : Term) → Option Subst
  | .var v, t =>
    match s.get? v with
    | none => some (s.bind v t)
    | some u => if u = t then some s else none
  | .sym c, .sym d => if c = d then some s else none
  | .tuple ps, .tuple ts => s.instanceAll? ps ts
  | _, _ => none
def instanceAll? (s : Subst) : (patterns terms : List Term) → Option Subst
  | [], [] => some s
  | p :: ps, t :: ts =>
    match s.instance? p t with
    | none => none
    | some r => r.instanceAll? ps ts
  | _, _ => none
end

end ProofSearch.Subst
