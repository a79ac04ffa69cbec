import ProofSearch.Proof.Graph
import ProofSearch.Store.Basic
import ProofSearch.Term.Canonical

/-! # Reports

What is printed about a store, a list of results and a proof, line by line. -/

namespace ProofSearch.Report

/-- Lines as they are printed. -/
def text (lines : List String) : String := String.join (lines.map (· ++ "\n"))

def rule : String := String.ofList (List.replicate 60 '=')

def store (s : Store) : List String :=
  ["\n" ++ rule, "Knowledge store " ++ s.name.literal ++ " (" ++ toString s.judgments.length ++ "):"] ++
    s.terms.map (fun t => "  " ++ t.format) ++ [rule]

/-- Counts the term, in its old place when it was there. -/
def count (t : Term) : List (Term × Nat) → List (Term × Nat)
  | [] => [(t, 1)]
  | (u, n) :: rest => if u = t then (u, n + 1) :: rest else (u, n) :: count t rest

/-- The different terms by first occurrence, each with the number of times it came. -/
def tally (ts : List Term) : List (Term × Nat) := ts.foldl (fun counts t => count t counts) []

/-- The results up to the names of their variables; `none` when one has no canonical form. -/
def results? (ts : List Term) (title : String) : Option (List String) :=
  (ts.mapM Term.canonical?).map fun forms =>
    let counts := tally forms
    ["\n" ++ rule,
      title ++ ": " ++ toString ts.length ++ " (" ++ toString counts.length ++ " distinct)",
      rule] ++
      if ts.isEmpty then ["  No proof found."]
      else counts.map fun (t, n) =>
        "  " ++ t.format ++ if 1 < n then "  x" ++ toString n else ""

/-- The proof of a judgment, up to the part that the item lacks when it is none, or to the names it
rests on when there is no end to them. -/
def proof (item : Term) : List String × Option Fault :=
  let top := ["\n" ++ rule]
  match item.item 2 with
  | .error e => (top, some e)
  | .ok statement =>
    let top := top ++ ["PROOF of " ++ statement.format, rule]
    match item.item 1 with
    | .error e => (top, some e)
    | .ok p =>
      let body := top ++ (p.layout.lines 0).map ("  " ++ ·) ++ [rule]
      match p.axioms? with
      | none => (body, some .endless)
      | some names =>
        let named := ", ".intercalate names
        (body ++ ["  " ++ toString p.applications ++ " applications, axioms: " ++
          if named = "" then "(none)" else named], none)

end ProofSearch.Report
