import ProofSearch.Search.Basic
import ProofSearch.Subst.Unify
import ProofSearch.Term.Format

/-! # Notes of a search

A note is an event of the search, with the depth or the context it took place in, or a line of progress
of a run over rounds. -/

namespace ProofSearch

inductive Event
  | goal
  | hit
  | expand
  | prune
deriving DecidableEq

namespace Event

def name : Event → String
  | goal => "goal"
  | hit => "match"
  | expand => "expand"
  | prune => "prune"

def ofName? (s : String) : Option Event := [goal, hit, expand, prune].find? (·.name = s)

def mark : Event → String
  | goal => "?"
  | hit => "+"
  | expand => ">"
  | prune => "x"

end Event

inductive Note
  | event (e : Event) (level : Datum) (t : Term)
  | round (number : Nat) (item : Term) (count : Nat)
  | lemmaRound (number : Nat) (count : Nat)
  | added (item : Term)

/-- The line for an event, also for one with no mark of its own. -/
def eventLine (e : Option Event) (level : Datum) (t : Term) : String :=
  "  [" ++ level.plain ++ "] " ++ (e.map Event.mark).getD "-" ++ " " ++ t.format

def Note.line : Note → String
  | event e level t => eventLine e level t
  | round n item count =>
    "--- Round " ++ toString n ++ ": " ++ item.format ++ " -> " ++ toString count ++ " results ---"
  | lemmaRound n count => "--- Lemma round " ++ toString n ++ ": " ++ toString count ++ " results ---"
  | added item => "  [new] " ++ item.format

namespace Search
variable {α : Type}

/-- Notes an event about `q` as it stands under `s`. -/
def event (traced : Bool) (e : Event) (level : Datum) (s : Subst) (q : Term)
    (rest : Unit → Search Note α) : Search Note α :=
  ofOption (s.instantiate? q) fun t => noteIf traced (.event e level t) rest

/-- Goes on where two terms were made equal. -/
def ofUnify {ν : Type} : Except Refusal Subst → (Subst → Search ν α) → Search ν α
  | .ok s, k => k s
  | .error .clash, _ => done
  | .error .endless, _ => fail .endless

end Search
end ProofSearch
