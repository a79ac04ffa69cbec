import ProofSearch.Proof.Layout
import ProofSearch.Term.Parts

/-! # Graphs of proofs

The layout of a proof as a graph in the DOT language: a box for each node of the layout, numbered in the
order of its lines, an edge from each part to what it is a part of, and the statement on top. -/

namespace ProofSearch

namespace Graph

inductive Mark
  | node (id : Nat) (label : String) (leaf : Bool)
  | edge (source target : Nat)
deriving DecidableEq

mutual
/-- The marks for a layout whose root gets the number `id`, and the number after its last. -/
def marks (id : Nat) : Layout → List Mark × Nat
  | .node head parts =>
    let (ms, next) := partMarks id (id + 1) parts
    (.node id head parts.isEmpty :: ms, next)
/-- The marks for the parts of node `whole`: each part's, then its edge. -/
def partMarks (whole next : Nat) : List Layout → List Mark × Nat
  | [] => ([], next)
  | l :: ls =>
    let (ms, after) := marks next l
    let (rest, last) := partMarks whole after ls
    (ms ++ .edge next whole :: rest, last)
end

/-- The text of a label: a quote is written after a backslash. -/
def escape (s : String) : String :=
  String.ofList (s.toList.flatMap fun c => if c = '"' then ['\\', '"'] else [c])

def Mark.line : Mark → String
  | node id label leaf =>
    "  n" ++ toString id ++ " [label=\"" ++ escape label ++ "\", fillcolor=" ++
      (if leaf then "lightgray" else "lightblue") ++ ", style=filled];"
  | edge source target => "  n" ++ toString source ++ " -> n" ++ toString target ++ ";"

def header : List String :=
  ["digraph proof \x7b", "  rankdir=BT;", "  node [shape=box, style=rounded];"]

def footer (statement : String) : List String :=
  ["  goal [label=\"" ++ escape statement ++ "\", shape=plaintext];", "  n1 -> goal;", "\x7d"]

/-- The lines of the file for a judgment, up to the part that the item lacks when it is none. -/
def lines (item : Term) : List String × Option Fault :=
  match item.item 1 with
  | .error e => (header, some e)
  | .ok proof =>
    let body := header ++ (marks 1 proof.layout).1.map Mark.line
    match item.item 2 with
    | .error e => (body, some e)
    | .ok statement => (body ++ footer statement.format, none)

end Graph
end ProofSearch
