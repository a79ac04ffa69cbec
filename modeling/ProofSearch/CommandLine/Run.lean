import ProofSearch.CommandLine.Options
import ProofSearch.Report
import ProofSearch.Request
import ProofSearch.Search.Reading
import ProofSearch.Store.Encoding

/-! # Runs of the command line

A run searches a domain or a loaded store, prints the results and the first proof, and writes the files
it was asked for. It stops where a fault occurs, with what was printed and written up to there. -/

namespace ProofSearch.CommandLine
open Search

/-- What a run has printed, the files it leaves, and the fault that stopped it. -/
structure Outcome where
  out : String := ""
  files : Directory := []
  fault : Option Fault := none

namespace Outcome

def print (r : Outcome) (lines : List String) : Outcome := { r with out := r.out ++ Report.text lines }

def fail (r : Outcome) (e : Fault) : Outcome := { r with fault := some e }

def failIf (r : Outcome) (e : Option Fault) : Outcome := { r with fault := e }

/-- Goes on unless a fault has stopped the run. -/
def next (r : Outcome) (k : Outcome → Outcome) : Outcome := if r.fault.isSome then r else k r

/-- Writes the text to the file that the path leads to. -/
def write (r : Outcome) (path text : String) : Outcome :=
  match r.files.write path text with
  | .ok files => { r with files }
  | .error e => r.fail e

end Outcome

/-- Writes the graph of the item, as far as it has one. -/
def exportGraph (item : Term) (path : String) (r : Outcome) : Outcome :=
  let (lines, fault) := Graph.lines item
  let r := (r.write path (Report.text lines)).next (·.failIf fault)
  r.next (·.print ["Graph exported to " ++ path])

def saveStore (s : Store) (path : String) (r : Outcome) : Outcome :=
  (r.write path s.toText).next (·.print ["Store saved to " ++ path])

namespace Options

def verbose (o : Options) : Bool := !o.quiet

def request (o : Options) : Request :=
  let depth := Datum.int o.depth
  let rounds := Datum.int o.rounds
  match o.mode with
  | some .backward => .backward depth o.domain.query
  | some .forward => .forward depth o.domain.source
  | some .iterateBackward => .iterateBackward depth rounds o.domain.query
  | some .iterateForward => .iterateForward depth rounds o.domain.source
  | some .lemmas => .proveWithLemmas depth rounds o.domain.query
  | some .controlled | none => .controlled (.depth depth) o.domain.query none false

/-- Only the backward searches abstract, and only in a domain that asks for it; only runs over rounds
have progress to be noted. -/
def settings (o : Options) : Settings where
  lambdaIntro :=
    match o.mode with
    | some .backward | some .iterateBackward | some .lemmas =>
      if o.domain.lambdaIntro then some true else none
    | _ => none
  verbose := if o.mode.any Mode.hasRounds then some o.verbose else none
  traced := o.trace

/-- The line above the results. -/
def title (o : Options) : String :=
  (o.mode.map Mode.name).getD "[]" ++ " at depth " ++ toString o.depth

/-- Whether the limit is reached with `n` results. A limit that is no number cannot be compared with one. -/
def enough (o : Options) (n : Nat) : Except Fault Bool :=
  match o.limit with
  | some limit => .ok (limit ≤ n)
  | none => .error .mismatch

end Options

/-- The terms among the answers. -/
def terms (answers : List Answer) : List Term :=
  answers.filterMap fun
    | .term t => some t
    | .subst _ => none

/-- Puts the next result behind those collected, and only then asks whether they are enough. -/
def collectOn (o : Options) (as : Array Answer) (ns : Array Note) (w : World) :
    Search Note Answer → Reading Note Answer
  | done => ⟨as, ns, w, .ended⟩
  | fail e => ⟨as, ns, w, .failed e⟩
  | give a k =>
    let as := as.push a
    match o.enough as.size with
    | .error e => ⟨as, ns, w, .failed e⟩
    | .ok true => ⟨as, ns, w, .paused k⟩
    | .ok false => collectOn o as ns w (k ())
  | draw k => collectOn o as ns { w with drawn := w.drawn + 1 } (k w.drawn)
  | look k => collectOn o as ns w (k w.judgments)
  | add j k => collectOn o as ns { w with judgments := w.judgments ++ [j] } (k ())
  | note n k => collectOn o as (ns.push n) w (k ())

/-- Opens the request and collects results until the options have enough of them. -/
def search (o : Options) (w : World) : Reading Note Answer :=
  o.request.readWith o.settings (fun t w => collectOn o #[] #[] w t) w

/-- Prints the first proof, and after rounds the store they have left. -/
def printProof (o : Options) (item : Term) (store : Store) (r : Outcome) : Outcome :=
  let (lines, fault) := Report.proof item
  ((r.print lines).failIf fault).next fun r =>
    match o.mode with
    | none => r.fail .unsupported
    | some m => if m.hasRounds then r.print (Report.store store) else r

/-- Prints the results and what goes with them, and writes the files asked for. -/
def conclude (o : Options) (collected : List Term) (store : Store) (r : Outcome) : Outcome :=
  let r := match Report.results? collected o.title with
    | none => r.fail .endless
    | some lines => r.print lines
  let r := match collected with
    | item :: _ =>
      let r := r.next fun r => if o.verbose then printProof o item store r else r
      r.next fun r => if o.dot = "" then r else exportGraph item o.dot r
    | [] => r
  r.next fun r => if o.save = "" then r else saveStore store o.save r

/-- The run on the store. -/
def runOn (o : Options) (store : Store) (r : Outcome) : Outcome :=
  let r :=
    if o.verbose then
      r.print (["Domain: " ++ o.domain.name ++ " -- " ++ o.domain.description] ++ Report.store store)
    else r
  let reading := search o { judgments := store.judgments }
  let r := r.print (reading.notes.toList.map Note.line)
  match reading.status with
  | .failed e => r.fail e
  | _ => conclude o (terms reading.results.toList) { store with judgments := reading.world.judgments } r

/-- The run among the files. -/
def run (o : Options) (files : Directory) : Outcome :=
  let start : Outcome := { files }
  if o.load = "" then runOn o o.domain.store start
  else
    match Store.load files o.load with
    | .error e => start.fail e
    | .ok store =>
      runOn o store (start.print
        ["Loaded store from " ++ o.load ++ " (" ++ toString store.judgments.length ++ " judgments)"])

end ProofSearch.CommandLine
