import ProofSearch.Control.Stop

/-! # Rules of control

Controls put together from updates of the context and a test for where to stop: a search within a depth
counts down to zero, and a search decided by axioms counts a numeral down. -/

namespace ProofSearch

/-- How the next context comes from the query and the context. -/
inductive Update
  | decrement
  | predecessor
  | keep
  | statement
  | proof
  | append (s : String)
  | set (t : Term)

namespace Update

def run (u : Update) (q : Term) (x : Level) : Draws Level :=
  match u, x with
  | decrement, .count n => .ret (.count (n - 1))
  | decrement, _ => .raise .mismatch
  | predecessor, x => .ret x.predecessor
  | keep, x => .ret x
  | statement, _ => .ofExcept ((q.item 2).map .term)
  | proof, _ => .ofExcept ((q.item 1).map .term)
  | append s, .term t =>
    match t.text with
    | some r => .ret (.term (.ofText (r ++ s)))
    | none => .raise .mismatch
  | append _, _ => .raise .mismatch
  | set t, _ => .ret (.term t)

end Update

namespace Control

def ofRules (abs arg : Update) (stop : StopTest) (start : Level) : Control Level where
  abs := abs.run
  arg := arg.run
  stop := stop
  start := start
  level := Level.toDatum

/-- Stops where the count is spent, as a search within that depth does. -/
def ofDepth (depth : Nat) : Control Level :=
  { ofRules .decrement .decrement .exhausted (.count depth) with horizon := depth + 1 }

/-- Stops where the count is spent, and at statements of the shape. -/
def ofDepthAndShape (depth : Nat) (pattern : Term) (mode : Fit) : Control Level :=
  { ofRules .decrement .decrement (.any [.exhausted, .shaped pattern mode]) (.count depth) with
    horizon := depth + 1 }

/-- The axiom that a numeral at zero is spent. -/
def spent : Judgment :=
  ⟨.ofText "spent", .tuple [.sym .terminate, .ofText "$q", .sym .zero]⟩

/-- Stops where the axioms prove that the numeral is spent; other axioms than `spent` may prove it later
than at zero, or never. -/
def ofNumeral (depth : Nat) (axioms : List Judgment) : Control Level :=
  { ofRules .predecessor .predecessor (.proved axioms 0 fun q x => .ok (x.terminationGoal q))
      (.term (.numeral depth)) with
    horizon := max 1000 (depth + 1) }

end Control

/-- A control as a caller describes it. -/
inductive ControlRule
  | depth (depth : Datum)
  | shape (depth : Datum) (pattern : Term) (mode : Datum)
  | nested (depth : Datum) (axioms : Option (List Term))
  | parts (abs arg : Update) (stop : StopRule) (start : Level)

def ControlRule.control : ControlRule → Except Fault (Control Level)
  | depth d => (checkDepth d).map Control.ofDepth
  | shape d pattern mode => do
    let d ← checkDepth d
    let mode ← Fit.ofDatum mode
    return Control.ofDepthAndShape d pattern mode
  | nested d axioms => do
    let axioms ← match axioms with
      | none => .ok [Control.spent]
      | some ts => ts.mapM Judgment.check
    let d ← checkDepth d
    return Control.ofNumeral d axioms
  | parts abs arg stop start => stop.test.map fun p => Control.ofRules abs arg p start

end ProofSearch
