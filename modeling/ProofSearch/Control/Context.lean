import ProofSearch.Datum.Shape
import ProofSearch.Term.Judgment

/-! # Contexts

A context is nothing, a count of levels, a numeral built from `Z` by `S`, or any other term. Where a
search of its own is to decide about a query, the context stands next to the query in the goal of that
search. -/

namespace ProofSearch

namespace Sym

def zero : Sym := ⟨"Z", rfl⟩
def succ : Sym := ⟨"S", rfl⟩
def terminate : Sym := ⟨"Terminate", rfl⟩
def stop : Sym := ⟨"Stop", rfl⟩

end Sym

def Var.why : Var := ⟨"$why", rfl⟩

namespace Term

def numeral : Nat → Term
  | 0 => sym .zero
  | n + 1 => tuple [sym .succ, numeral n]

/-- What the numeral is the successor of; anything else counts down to zero. -/
def predecessor : Term → Term
  | tuple [sym s, t] => if s = .succ then t else sym .zero
  | _ => sym .zero

end Term

/-- A context of control: nothing, a count of levels, or a term. -/
inductive Level
  | none
  | count (n : Int)
  | term (t : Term)
deriving DecidableEq

namespace Level

def toDatum : Level → Datum
  | none => .null
  | count n => .int n
  | term t => t.toDatum

/-- The context within a term; one that is no term becomes a symbol that no written term has. -/
def toTerm : Level → Term
  | none => .ofText "\x00"
  | count n => .ofText ("\x00" ++ toString n)
  | term t => t

def predecessor : Level → Level
  | term t => term t.predecessor
  | _ => term (.sym .zero)

/-- The goal whose proof says that the query is not to be expanded. -/
def terminationGoal (q : Term) (x : Level) : Judgment :=
  ⟨.var .why, .tuple [.sym .terminate, q, x.toTerm]⟩

/-- The same goal as data, in which the context stands as it is. -/
def terminationData (q : Term) (x : Level) : Datum :=
  .tuple [.text Sym.colon.text, .text Var.why.text,
    .tuple [.text Sym.terminate.text, q.toDatum, x.toDatum]]

end Level

end ProofSearch
