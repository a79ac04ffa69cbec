import ProofSearch.Term.Format
import ProofSearch.Term.Canonical
import ProofSearch.Subst.Unify
import ProofSearch.Subst.Instance
import ProofSearch.Datum.Basic
import ProofSearch.Text.Runs
import ProofSearch.Text.Case
import ProofSearch.Text.Printed
import ProofSearch.Text.LowerCase
import ProofSearch.Text.Numeral
import ProofSearch.Fault
import ProofSearch.Directory
import ProofSearch.Json.Reader
import ProofSearch.Json.Writer
import ProofSearch.Backward
import ProofSearch.Forward
import ProofSearch.Search.Draws
import ProofSearch.Search.Reading
import ProofSearch.Control.Basic
import ProofSearch.Control.Rules
import ProofSearch.Rounds
import ProofSearch.Proof.Layout
import ProofSearch.Request
import ProofSearch.Store.Basic
import ProofSearch.Store.Encoding
import ProofSearch.Domain.Basic
import ProofSearch.Proof.Graph
import ProofSearch.Report
import ProofSearch.CommandLine.Options
import ProofSearch.CommandLine.Run
import ProofSearch.Main
import ProofSearch.Datum.Shape
import ProofSearch.Proofs.Term.Subst
import ProofSearch.Proofs.Subst.Acyclic
import ProofSearch.Proofs.Subst.Unifier
import ProofSearch.Proofs.Subst.Levels
import ProofSearch.Proofs.Subst.MostGeneral
import ProofSearch.Proofs.Fresh
import ProofSearch.Proofs.Search.Always
import ProofSearch.Proofs.Derivable
import ProofSearch.Proofs.Backward.Soundness
import ProofSearch.Proofs.Backward.Completeness
import ProofSearch.Proofs.Search.AtMostOne
import ProofSearch.Proofs.Backward.Unique
import ProofSearch.Proofs.Control.Never
import ProofSearch.Proofs.Search.Ensures
import ProofSearch.Proofs.Rounds.Conservative
import ProofSearch.Proofs.Json.RoundTrip
import ProofSearch.Proofs.Store.Encoding
import ProofSearch.Proofs.Forward.Duality
import ProofSearch.Proofs.Forward.Monotone
import ProofSearch.Proofs.Subst.Rename
import ProofSearch.Proofs.Search.Simulation
import ProofSearch.Proofs.Control.Depth
import ProofSearch.Proofs.Redraw
import ProofSearch.Proofs.Search.Runs
import ProofSearch.Proofs.Search.Pairing
import ProofSearch.Proofs.Search.Embedding
import ProofSearch.Proofs.Backward.Monotone
import ProofSearch.Proofs.Control.Pruning
import ProofSearch.Proofs.Control.Nested
import ProofSearch.Proofs.Backward.Hypotheses
import ProofSearch.Proofs.Forward.Soundness
import ProofSearch.Proofs.Rounds.Founded
import ProofSearch.Proofs.Subst.Sorted
import ProofSearch.Proofs.Term.Scope
import ProofSearch.Proofs.Backward.Confined
import ProofSearch.Proofs.Search.Partial
import ProofSearch.Proofs.Search.Moments
import ProofSearch.Proofs.Subst.Overlap
import ProofSearch.Proofs.Rounds.Commit
import ProofSearch.Proofs.Rounds.Novel
import ProofSearch.Proofs.Rounds.Retained
import ProofSearch.Proofs.Rounds.Climb
import ProofSearch.Proofs.Subst.Instance
import ProofSearch.Proofs.Control.Shape
import ProofSearch.Proofs.Domain.Chain
import ProofSearch.Proofs.Domain.Reach
import ProofSearch.Proofs.Log.Call
import ProofSearch.Proofs.Log.Backward
import ProofSearch.Proofs.Log.Forward
import ProofSearch.Proofs.Log.Control
import ProofSearch.Proofs.Log.Nested
import ProofSearch.Proofs.Rounds.Greedy
import ProofSearch.Proofs.Backward.Again
import ProofSearch.Proofs.Rounds.Repeat
import ProofSearch.Proofs.Rounds.Stop
import ProofSearch.Proofs.FirstOccurrence
import ProofSearch.Proofs.Subst.Endless
import ProofSearch.Proofs.Term.Canonical
import ProofSearch.Proofs.Proof.Spine
import ProofSearch.Proofs.Proof.Steps
import ProofSearch.Proofs.Proof.Heads
import ProofSearch.Proofs.Proof.Graph
import ProofSearch.Proofs.Proof.Labels
import ProofSearch.Proofs.CommandLine.Limit
import ProofSearch.Proofs.Naming
import ProofSearch.Proofs.Term.Format
