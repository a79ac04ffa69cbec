import ProofSearch.Control.Rules
import ProofSearch.Forward
import ProofSearch.Rounds
import ProofSearch.Search.Reading

/-! # Requests

A request names a search and holds what the caller handed over for it, unchecked. Opening it is a search
of its own: it checks what is checked at the call, runs what is run at the call, and gives one
alternative, the search to be read. Faults of the first kind refuse the request; whatever comes later is
met while reading. How it is read is up to the reader (`readWith`). -/

namespace ProofSearch

inductive Answer
  | term (t : Term)
  | subst (s : Subst)

structure Settings where
  env : List Term := []
  /-- Absent: one argument at a time. -/
  arities : Option (List Datum) := none
  lambdaIntro : Option Bool := none
  /-- Whether the progress of rounds is noted; absent where nothing was said about it. -/
  verbose : Option Bool := none
  traced : Bool := false

inductive Request
  | backward (depth : Datum) (query : Term)
  | forward (depth : Datum) (source : Term)
  | iterateBackward (depth rounds : Datum) (query : Term)
  | iterateForward (depth rounds : Datum) (source : Term)
  | proveWithLemmas (depth rounds : Datum) (query : Term)
  | lemmas (depth rounds : Datum) (pattern : Option Term)
  | solve (depth : Datum) (query : Term) (sub : Subst)
  | stored (query : Term) (sub : Subst)
  | instances (query : Term)
  | judgments
  | controlled (rule : ControlRule) (query : Term) (maxDepth : Option Datum) (recheck : Bool)
  | controlledSolve (rule : ControlRule) (query : Term) (sub : Subst) (maxDepth : Option Datum)
      (recheck : Bool)

/-- The judgment `$prf : $thm`, which every judgment is an instance of. -/
def openQuery : Term := (Judgment.mk (.ofText "$prf") (.ofText "$thm")).term

namespace Request
open Search

/-- A backward search with its arities and its environment checked. -/
def backwardOver (o : Settings) (depth : Nat) (q : Term) : Except Fault (Search Note Term) := do
  let arities ← checkArities (o.arities.getD [.int 1])
  let env ← Environment.ofTerms o.env
  return Backward.results ⟨arities, o.lambdaIntro.getD false, o.traced⟩ depth env q

/-- A search without rounds has no progress to be noted, and none to be kept quiet. -/
def checkRoundless (o : Settings) : Except Fault Unit :=
  if o.verbose.isSome then .error .mismatch else .ok ()

/-- A forward search has no arities and no abstraction to be set. -/
def forwardOver (o : Settings) (depth : Nat) (j : Judgment) : Except Fault (Search Note Term) := do
  let env ← Environment.ofTerms o.env
  return (Forward.chain { traced := o.traced } env depth j).map Judgment.term

def checkForward (o : Settings) : Except Fault Unit :=
  if o.arities.isSome || o.lambdaIntro.isSome then .error .mismatch else .ok ()

def laterTerms (t : Except Fault (Search Note Term)) : Search Note (Search Note Answer) :=
  ofExcept t fun t => one (t.map .term)

def backwardStep (o : Settings) (depth : Nat) (q : Term) : Search Note Term :=
  ofExcept (backwardOver o depth q) id

def forwardStep (o : Settings) (depth : Nat) (t : Term) : Search Note Term :=
  ofExcept (do checkForward o; let j ← checkQuery t; forwardOver o depth j) id

/-- The rounds of lemmas for a pattern, once their numbers have been checked. -/
def lemmaRounds (o : Settings) (depth rounds : Datum) (pattern : Term)
    (k : Nat → List Term → Search Note (Search Note Answer)) : Search Note (Search Note Answer) :=
  ofExcept (do let d ← checkDepth depth; let r ← checkRounds rounds; let _ ← checkQuery pattern; return (d, r))
    fun (d, r) => (Rounds.lemmas (backwardStep o d pattern) (o.verbose.getD false) r 1).bind (k d)

def rounds (o : Settings) (depth rounds : Datum) (item : Term)
    (step : Nat → Term → Search Note Term) : Search Note (Search Note Answer) :=
  laterTerms do
    let d ← checkDepth depth
    let r ← checkRounds rounds
    let _ ← checkQuery item
    return Rounds.iterate (step d) (o.verbose.getD false) r 1 item

def «open» (o : Settings) : Request → Search Note (Search Note Answer)
  | backward depth q => laterTerms do
    checkRoundless o
    let d ← checkDepth depth
    let _ ← checkQuery q
    backwardOver o d q
  | forward depth q => laterTerms do
    checkRoundless o
    checkForward o
    let d ← checkDepth depth
    let j ← checkQuery q
    forwardOver o d j
  | iterateBackward depth rs q => rounds o depth rs q (backwardStep o)
  | iterateForward depth rs q => rounds o depth rs q (forwardStep o)
  | proveWithLemmas depth rs q => ofExcept (checkQuery q) fun _ =>
    lemmaRounds o depth rs openQuery fun d _ => laterTerms (backwardOver o d q)
  | lemmas depth rs pattern => lemmaRounds o depth rs (pattern.getD openQuery) fun _ new =>
    one (ofList (new.map .term))
  | solve depth q s => laterSolutions do
    let env ← Environment.ofTerms o.env
    let arities := Arities.ofData (o.arities.getD [.int 1])
    return Backward.solveUnchecked ⟨arities, o.lambdaIntro.getD false, o.traced⟩ depth env q s
  | stored q s => one ((Search.stored q s).map .subst)
  | instances q => one ((Search.instances q (Search.stored q .empty)).map .term)
  | judgments => look fun js => one (ofList (js.map fun j => .term j.term))
  | controlled rule q maxDepth recheck => laterTerms do
    let c ← rule.control
    let _ ← checkQuery q
    let b ← match maxDepth with
      | none => .ok .unbounded
      | some d => (checkDepth d).map .depth
    let env ← Environment.ofTerms o.env
    return c.results ⟨recheck, o.traced⟩ env b q
  | controlledSolve rule q s maxDepth recheck => laterSolutions do
    let c ← rule.control
    return ofExcept (Environment.ofTerms o.env) fun env =>
      c.solutions ⟨recheck, o.traced⟩ env ((maxDepth.map .ofDatum).getD .unbounded) q s
where
  laterSolutions (t : Except Fault (Search Note Subst)) : Search Note (Search Note Answer) :=
    ofExcept t fun t => one (t.map .subst)

/-- Opens the request and hands what it gives to the reader, in the world that the opening has left. -/
def readWith (o : Settings) (reader : Search Note Answer → World → Reading Note Answer) (w : World)
    (r : Request) : Reading Note Answer :=
  let opened := (r.open o).read (some 1) w
  match opened.status, opened.results.toList with
  | .failed e, _ => ⟨#[], opened.notes, opened.world, .failed e⟩
  | _, t :: _ => (reader t opened.world).after opened.notes
  | _, [] => ⟨#[], opened.notes, opened.world, .ended⟩

/-- Opens the request and reads at most `limit` of its answers. -/
def read (o : Settings) (limit : Option Nat) (w : World) (r : Request) : Reading Note Answer :=
  r.readWith o (fun t => t.read limit) w

end Request
end ProofSearch
