import ProofSearch.Store.Basic
import ProofSearch.Text.LowerCase

/-! # Domains

Small stores to search in, each with the query and the source of its usual run. -/

namespace ProofSearch

structure Domain where
  name : String
  store : Store
  query : Term
  source : Term
  depth : Nat
  rounds : Nat
  lambdaIntro : Bool := false
  description : String

namespace Domain

def atom (s : String) : Term := .ofText s

/-- The judgment that an atom proves a statement. -/
def fact (name : String) (statement : Term) : Judgment := ⟨atom name, statement⟩

/-- A premise implies a conclusion, as data. -/
def implies (premise conclusion : Term) : Term := .tuple [atom "==>", premise, conclusion]

def implication (name premise conclusion : Term) : Judgment := ⟨name, implies premise conclusion⟩

def modusPonens : Judgment :=
  fact "ModusPonens" (.arrows [implies (atom "$p") (atom "$q"), atom "$p"] (atom "$q"))

/-- The proof by modus ponens from a proof of an implication and one of its premise. -/
def detach (implication premise : Term) : Term := .applied (atom "ModusPonens") [implication, premise]

/-- An implication between neighbours in a chain is named by both in lower case. -/
def linkName (premise conclusion : Term) : Except Fault Term :=
  match premise.text, conclusion.text with
  | some p, some c => .ok (atom (Text.lowerCase p ++ Text.lowerCase c))
  | _, _ => .error .unsupported

def links : List Term → Except Fault (List Judgment)
  | p :: c :: ts =>
    match linkName p c with
    | .error e => .error e
    | .ok name => (links (c :: ts)).map (implication name p c :: ·)
  | _ => .ok []

/-- Implications from each statement to the next, a proof `base` of the first, and modus ponens. -/
def chain (statements : List Term) (base : Term) : Except Fault Store :=
  (links statements).map fun ls =>
    { name := .text "modus_ponens"
      judgments := ls ++ (statements.head?.map (Judgment.mk base)).toList ++ [modusPonens] }

def both (p q : Term) : Term := .tuple [atom "∧", p, q]

def conjunctionRules : List Judgment :=
  let p := atom "$p"
  let q := atom "$q"
  [fact "AndIntro" (.arrows [p, q] (both p q)),
    fact "AndElimLeft" (.arrows [both p q] p),
    fact "AndElimRight" (.arrows [both p q] q)]

/-- The rules of conjunction and the facts, or the usual fact when there are none. -/
def conjunctionWith (facts : List Term) : Except Fault Store :=
  let facts := if facts.isEmpty then [(fact "c" (both (atom "A") (atom "B"))).term] else facts
  Store.ofTerms (.text "conjunction") (conjunctionRules.map Judgment.term ++ facts)

def implicationChain : Domain where
  name := "modus_ponens"
  store :=
    { name := .text "modus_ponens"
      judgments :=
        [implication (atom "ab") (atom "A") (atom "B"), implication (atom "bc") (atom "B") (atom "C"),
          fact "a" (atom "A"), modusPonens] }
  query := (Judgment.mk (atom "$prf") (atom "C")).term
  source := (fact "a" (atom "A")).term
  depth := 3
  rounds := 1
  description := "Implication chain A ==> B ==> C with a : A and ModusPonens"

def conjunction : Domain where
  name := "conjunction"
  store :=
    { name := .text "conjunction"
      judgments := conjunctionRules ++ [fact "c" (both (atom "A") (atom "B"))] }
  query := (Judgment.mk (atom "$prf") (both (atom "B") (atom "A"))).term
  source := (fact "c" (both (atom "A") (atom "B"))).term
  depth := 3
  rounds := 1
  description := "AndIntro / AndElim: prove (∧ B A) from c : (∧ A B)"

def deduction : Domain where
  name := "deduction"
  store :=
    { name := .text "deduction"
      judgments :=
        [fact "f" (.arrows [atom "A"] (atom "B")), fact "g" (.arrows [atom "B"] (atom "C"))] }
  query := (Judgment.mk (atom "$prf") (.arrows [atom "A"] (atom "C"))).term
  source := (fact "f" (.arrows [atom "A"] (atom "B"))).term
  depth := 3
  rounds := 1
  lambdaIntro := true
  description := "Compose f : A -> B and g : B -> C by abstraction introduction"

def known : List Domain := [implicationChain, conjunction, deduction]

/-- The domain of that name; a list or a dictionary is no name. -/
def find (name : Datum) : Except Fault Domain :=
  match name with
  | .list _ | .dict _ => .error .mismatch
  | name =>
    let found := match name with
      | .text s => known.find? fun d : Domain => d.name = s
      | _ => none
    match found with
    | some d => .ok d
    | none => .error (.unknownDomain name ((known.map Domain.name).mergeSort fun a b => a ≤ b))

end Domain
end ProofSearch
