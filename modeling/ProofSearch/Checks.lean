import ProofSearch.Fault
import ProofSearch.Term.Format
import ProofSearch.Term.Judgment

/-! # Checks

What is handed over for a search is checked piece by piece, and each piece has its own fault. -/

namespace ProofSearch

def Judgment.check (t : Term) : Except Fault Judgment :=
  match Judgment.ofTerm? t with
  | some j => .ok j
  | none => .error (.notJudgment t.format)

def checkDepth (d : Datum) : Except Fault Nat :=
  match d.count? with
  | some n => .ok n
  | none => .error (.badDepth d)

def checkRounds (r : Datum) : Except Fault Nat :=
  match r.count? with
  | some n => .ok n
  | none => .error (.badRounds r)

def checkQuery (q : Term) : Except Fault Judgment :=
  match Judgment.ofTerm? q with
  | some j => .ok j
  | none => .error (.queryNotJudgment q.format)

/-- The value is less than one, where it can be compared with a number. -/
def isBelowOne : Datum → Except Fault Bool
  | .int n => .ok (n < 1)
  | .bool b => .ok !b
  | .float f => .ok (f < 1)
  | _ => .error .mismatch

/-- One of the values is below one; those after it are not compared. -/
def anyBelowOne : List Datum → Except Fault Bool
  | [] => .ok false
  | a :: as =>
    match isBelowOne a with
    | .ok false => anyBelowOne as
    | r => r

/-- The value as a number of arguments; one below zero means none, and a fraction is no number of them. -/
def arity? : Datum → Option Nat
  | .int n => some n.toNat
  | .bool b => some (if b then 1 else 0)
  | _ => none

/-- The numbers of arguments that a search tries in turn. -/
structure Arities where
  counts : List Nat := [1]
  /-- Behind them comes a value that is no number of arguments, and a search that gets there fails. -/
  broken : Bool := false

/-- The values up to the first that is no number of arguments. -/
def Arities.ofData : List Datum → Arities
  | [] => ⟨[], false⟩
  | a :: as =>
    match arity? a with
    | none => ⟨[], true⟩
    | some n => { ofData as with counts := n :: (ofData as).counts }

/-- The numbers of arguments of a search that is checked: there are some, and none is below one. -/
def checkArities (as : List Datum) : Except Fault Arities :=
  match anyBelowOne as with
  | .error e => .error e
  | .ok low => if as.isEmpty || low then .error (.badArities as) else .ok (.ofData as)

end ProofSearch
