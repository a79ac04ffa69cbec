import ProofSearch.Term.Format
import ProofSearch.Term.Judgment

/-! # Layouts of proofs

A proof by rules is unwound into a head and its arguments, in order; its layout is a tree with the head's
text at the root and a part for each argument. An abstraction is laid out as its binder, with the body as
its one part; at the head of an application it is written out like any other tuple. -/

namespace ProofSearch

inductive Layout
  | node (head : String) (parts : List Layout)

namespace Layout

def head : Layout → String
  | node head _ => head

def parts : Layout → List Layout
  | node _ parts => parts

mutual
/-- A line for each node, two spaces further in for each level. -/
def lines (indent : Int) : Layout → List String
  | node head parts =>
    (String.ofList (List.replicate (2 * indent.toNat) ' ') ++ head) :: linesAll (indent + 1) parts
def linesAll (indent : Int) : List Layout → List String
  | [] => []
  | l :: ls => l.lines indent ++ linesAll indent ls
end

end Layout

namespace Term

/-- Unwinds applications; `args` are those met outside. -/
def spineOnto (args : List Term) : Term → Term × List Term
  | tuple [f, a] => f.spineOnto (a :: args)
  | t => (t, args)

/-- The head of an application and its arguments; anything else is its own head. -/
def spine (t : Term) : Term × List Term := t.spineOnto []

mutual
/-- The layout of an application whose outer arguments are laid out already. -/
def layoutOnto (args : List Layout) : Term → Layout
  | tuple [f, a] => layoutOnto (layout a :: args) f
  | t => .node t.format args
def layout : Term → Layout
  | tuple [f, a] => layoutOnto [layout a] f
  | tuple [sym s, x, body] =>
    if s = .lambda then .node ("λ " ++ x.format) [layout body]
    else .node (tuple [sym s, x, body]).format []
  | t => .node t.format []
end

mutual
/-- The proofs among the arguments along the spine of an application, before those in `rest`. -/
def argumentSteps (depth : Nat) (rest : List (Term × Nat)) : Term → List (Term × Nat)
  | tuple [f, a] => argumentSteps depth (outerSteps (depth + 1) a ++ rest) f
  | _ => rest
/-- The proof, then the proofs it is made of, each with its depth. -/
def outerSteps (depth : Nat) : Term → List (Term × Nat)
  | tuple [f, a] => (tuple [f, a], depth) :: argumentSteps depth (outerSteps (depth + 1) a) f
  | tuple [sym s, x, body] =>
    (tuple [sym s, x, body], depth) :: if s = .lambda then outerSteps (depth + 1) body else []
  | t => [(t, depth)]
end

/-- The proofs that the proof is made of, from the leaves up to the whole. -/
def steps (t : Term) : List (Term × Nat) := (outerSteps 0 t).reverse

/-- The atoms at the heads and leaves; `none` when a tuple that is neither an application nor an
abstraction stands there, which has no head to be named. -/
def heads? : Term → Option (List String)
  | var v => some [v.text]
  | sym s => some [s.text]
  | tuple [f, a] => f.heads?.bind fun hs => a.heads?.map (hs ++ ·)
  | tuple [sym s, _, body] => if s = .lambda then body.heads? else none
  | tuple _ => none

/-- The names that the proof rests on, each once, by first occurrence. -/
def axioms? (t : Term) : Option (List String) := t.heads?.map List.eraseDups

/-- The number of applications and abstractions. -/
def applications : Term → Nat
  | tuple [f, a] => f.applications + a.applications + 1
  | tuple [sym s, _, body] => if s = .lambda then body.applications + 1 else 0
  | _ => 0

end Term
end ProofSearch
