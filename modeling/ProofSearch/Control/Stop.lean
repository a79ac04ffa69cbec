import ProofSearch.Control.Basic
import ProofSearch.Control.Context
import ProofSearch.Subst.Instance

/-! # Where a search stops

Tests for a query in its context: the count is spent, the statement has a given shape, a search over a
store of axioms proves that the query is not to be expanded. A rule is a test as a caller describes it,
with its parts unchecked. -/

namespace ProofSearch

/-- How the shape of a statement is compared with a pattern: by unification, under which a statement
that is still open has every shape, or as an instance of it. -/
inductive Fit
  | unifiable
  | instanceOf
deriving DecidableEq

def Fit.ofDatum : Datum → Except Fault Fit
  | .text "unify" => .ok .unifiable
  | .text "instance" => .ok .instanceOf
  | m => .error (.badMode m)

/-- A test of a query in a context. -/
abbrev StopTest : Type := Term → Level → Draws Bool

namespace StopTest

def exhausted : StopTest
  | _, .count n => .ret (n ≤ 0)
  | _, _ => .raise .mismatch

/-- The statement of the query has the shape of the pattern, whose variables are its own. -/
def shaped (pattern : Term) (mode : Fit) : StopTest := fun q _ =>
  .bind (.ofExcept (q.item 2)) fun statement =>
    match mode with
    | .instanceOf => .ret (Subst.empty.instance? pattern statement).isSome
    | .unifiable => .draw fun n =>
      match Subst.empty.unify statement (pattern.tag (ending n)) with
      | .ok _ => .ret true
      | .error .clash => .ret false
      | .error .endless => .raise .endless

/-- One of the tests holds; those after it are not made. -/
def any : List StopTest → StopTest
  | [], _, _ => .ret false
  | p :: ps, q, x => (p q x).bind fun b => if b then .ret true else any ps q x

def longer (n : Int) : StopTest
  | _, .term (.tuple ts) => .ret (n ≤ ts.length)
  | _, .term t => .ret (n ≤ (t.text.getD "").length)
  | _, _ => .raise .mismatch

/-- A search over the axioms proves the goal. -/
def proved (axioms : List Judgment) (depth : Nat) (goal : Term → Level → Except Fault Judgment) :
    StopTest := fun q x =>
  .bind (.ofExcept (goal q x)) fun g =>
    .bind ((Backward.results {} depth {} g.term).firstOver axioms) fun r => .ret r.isSome

end StopTest

/-- A test as it is described. -/
inductive StopRule
  | exhausted
  | never
  | always
  | shaped (pattern : Term) (mode : Datum)
  | any (rules : List StopRule)
  | longer (n : Int)
  | contextIs (t : Term)
  | proved (axioms : List Term) (depth : Datum) (targetOnly : Bool)
deriving Inhabited

/-- The goal that asks about the statement alone. -/
def targetGoal (q : Term) (_ : Level) : Except Fault Judgment :=
  (q.item 2).map fun t => ⟨.var .why, .tuple [.sym .stop, t]⟩

mutual
/-- The test that the rule stands for, once its parts have been checked. -/
def StopRule.test : StopRule → Except Fault StopTest
  | .exhausted => .ok .exhausted
  | .never => .ok fun _ _ => .ret false
  | .always => .ok fun _ _ => .ret true
  | .shaped pattern mode => (Fit.ofDatum mode).map (StopTest.shaped pattern)
  | .any rules => (StopRule.tests rules).map StopTest.any
  | .longer n => .ok (.longer n)
  | .contextIs t => .ok fun _ x => .ret (x = .term t)
  | .proved axioms depth targetOnly =>
    match axioms.mapM Judgment.check with
    | .error e => .error e
    | .ok axioms =>
      (checkDepth depth).map fun d =>
        .proved axioms d (if targetOnly then targetGoal else fun q x => .ok (x.terminationGoal q))
def StopRule.tests : List StopRule → Except Fault (List StopTest)
  | [] => .ok []
  | r :: rs =>
    match r.test with
    | .error e => .error e
    | .ok p => (StopRule.tests rs).map (p :: ·)
end

end ProofSearch
