import ProofSearch.Fault
import ProofSearch.Term.Judgment

/-! # Parts of a term by their place

Where a term is asked for its parts without being a judgment, any tuple has parts, and a text has its
characters. -/

namespace ProofSearch.Term

/-- The term at that place of a tuple; a text has its characters for terms. -/
def item (t : Term) (i : Nat) : Except Fault Term :=
  let found := match t with
    | tuple ts => ts[i]?
    | var v => v.text.toList[i]?.map fun c => ofText c.toString
    | sym s => s.text.toList[i]?.map fun c => ofText c.toString
  match found with
  | some u => .ok u
  | none => .error .outOfRange

/-- The proof and the statement of a query that is to be expanded: any triple will do, and a text of
three characters is one. -/
def halves : Term → Except Fault (Term × Term)
  | tuple [_, p, c] => .ok (p, c)
  | tuple ts => .error (if ts.length < 3 then .tooFewParts 3 ts.length else .tooManyParts 3)
  | var v => ofChars v.text.toList
  | sym s => ofChars s.text.toList
where
  ofChars : List Char → Except Fault (Term × Term)
    | [_, p, c] => .ok (ofText p.toString, ofText c.toString)
    | cs => .error (if cs.length < 3 then .tooFewParts 3 cs.length else .tooManyParts 3)

/-- The arrow that takes all but the last of the types one after the other and ends in the last. -/
def arrows? (types : List Term) : Except Fault Term :=
  match types.getLast? with
  | none => .error .noTypes
  | some conclusion => .ok (arrows types.dropLast conclusion)

end ProofSearch.Term
