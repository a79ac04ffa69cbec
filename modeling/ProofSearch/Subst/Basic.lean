import ProofSearch.Term.Basic

/-! # Substitutions

A substitution binds variables to terms and is read along chains: the terms bound may hold bound
variables again. A chain that comes back to a variable has no end, so reading is a partial function.
A reading that visits more bindings than there are has visited one of them twice; that bounds it. -/

namespace ProofSearch

structure Subst where
  bindings : List (Var × Term) := []
deriving DecidableEq

namespace Subst

def empty : Subst := {}

def get? (s : Subst) (v : Var) : Option Term := s.bindings.lookup v

def bind (s : Subst) (v : Var) (t : Term) : Subst := ⟨(v, t) :: s.bindings⟩

def ofList (bs : List (Var × Term)) : Subst := bs.foldl (fun s b => s.bind b.1 b.2) empty

@[simp] theorem get?_empty (v : Var) : empty.get? v = none := rfl

theorem get?_bind (s : Subst) (v w : Var) (t : Term) :
    (s.bind v t).get? w = if w = v then some t else s.get? w := by
  by_cases h : w = v
  · subst h; simp [get?, bind]
  · simp [get?, bind, List.lookup_cons, h, beq_eq_false_iff_ne.mpr h]

@[simp] theorem get?_bind_self (s : Subst) (v : Var) (t : Term) : (s.bind v t).get? v = some t := by
  simp [get?_bind]

/-- What the variable stands for, with at most `n` bindings visited on the way to any place in it. -/
def resolveWithin (s : Subst) : Nat → Var → Option Term
  | 0, v => if (s.get? v).isSome then none else some (.var v)
  | n + 1, v =>
    match s.get? v with
    | none => some (.var v)
    | some t => t.subst? (s.resolveWithin n)

/-- What the variable stands for; `none` when it leads into a cycle. -/
def resolve? (s : Subst) (v : Var) : Option Term := s.resolveWithin s.bindings.length v

/-- The term with each variable resolved; `none` when one of them leads into a cycle. -/
def instantiate? (s : Subst) (t : Term) : Option Term := t.subst? s.resolve?

def walkWithin (s : Subst) : Nat → Term → Option Term
  | _, .sym c => some (.sym c)
  | _, .tuple ts => some (.tuple ts)
  | 0, .var v => if (s.get? v).isSome then none else some (.var v)
  | n + 1, .var v =>
    match s.get? v with
    | none => some (.var v)
    | some t => s.walkWithin n t

/-- Follows a variable from binding to binding to the end of its chain, without entering tuples. -/
def walk? (s : Subst) (t : Term) : Option Term := s.walkWithin s.bindings.length t

end Subst
end ProofSearch
