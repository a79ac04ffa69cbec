import ProofSearch.Subst.Basic

/-! # Unification

Two terms are made equal by binding variables, starting from the bindings there are. A variable is
never bound to a term that holds it. Each tuple entered adds one level; over a substitution without
cycles the levels stay below the square of what is written down, so the bound is never met there. -/

namespace ProofSearch

/-- Why two terms were not made equal. -/
inductive Refusal
  | clash
  | endless
deriving DecidableEq

namespace Subst

/-- Number of variables, symbols and tuples written in the bindings. -/
def size (s : Subst) : Nat := s.bindings.foldr (fun b n => b.2.size + 1 + n) 0

/-- Binds `v` to `t` unless `t` comes to hold `v`. -/
def assign (s : Subst) (v : Var) (t : Term) : Except Refusal Subst :=
  match s.instantiate? t with
  | none => .error .endless
  | some u => if u.contains (.var v) then .error .clash else .ok (s.bind v t)

def unifyWithin : Nat → Subst → Term → Term → Except Refusal Subst
  | 0, _, _, _ => .error .endless
  | n + 1, s, t, u =>
    match s.walk? t, s.walk? u with
    | some t, some u =>
      if t = u then .ok s else
        match t, u with
        | .var v, u => s.assign v u
        | t, .var w => s.assign w t
        | .tuple ts, .tuple us =>
          if ts.length = us.length then
            (ts.zip us).foldlM (fun s p => unifyWithin n s p.1 p.2) s
          else .error .clash
        | _, _ => .error .clash
    | _, _ => .error .endless

/-- The bindings that make `t` and `u` equal, added to those of `s`. -/
def unify (s : Subst) (t u : Term) : Except Refusal Subst :=
  let n := s.size + t.size + u.size
  unifyWithin ((n + 1) * (n + 1)) s t u

end Subst
end ProofSearch
