import ProofSearch.Search.Basic

/-! # Reading a search

A reading starts from the judgments stored and the next number to be drawn, and leaves both as the
search has made them. It stops as soon as it has the number of alternatives it was asked for, so that
nothing beyond the last of them is run. -/

namespace ProofSearch

/-- The judgments stored, in the order they came, and how many numbers have been drawn. -/
structure World where
  judgments : List Judgment := []
  drawn : Nat := 0

namespace Search
variable {ν α : Type}

/-- How a reading left its search. -/
inductive Status (ν α : Type)
  | paused (rest : Unit → Search ν α)
  | ended
  | failed (e : Fault)

structure Reading (ν α : Type) where
  results : Array α
  notes : Array ν
  world : World
  status : Status ν α

/-- The reading with notes that were left before it. -/
def Reading.after (ns : Array ν) (r : Reading ν α) : Reading ν α := { r with notes := ns ++ r.notes }

/-- Reads on after the alternatives `as` and the notes `ns`: to the end, or until `more` further
alternatives have followed the next one. -/
def readOn (more : Option Nat) (as : Array α) (ns : Array ν) (w : World) : Search ν α → Reading ν α
  | done => ⟨as, ns, w, .ended⟩
  | fail e => ⟨as, ns, w, .failed e⟩
  | give a k =>
    match more with
    | none => (k ()).readOn none (as.push a) ns w
    | some 0 => ⟨as.push a, ns, w, .paused k⟩
    | some (n + 1) => (k ()).readOn (some n) (as.push a) ns w
  | draw k => (k w.drawn).readOn more as ns { w with drawn := w.drawn + 1 }
  | look k => (k w.judgments).readOn more as ns w
  | add j k => (k ()).readOn more as ns { w with judgments := w.judgments ++ [j] }
  | note n k => (k ()).readOn more as (ns.push n) w

/-- Reads at most `limit` alternatives, all of them when there is no limit. -/
def read (t : Search ν α) (limit : Option Nat) (w : World) : Reading ν α :=
  match limit with
  | none => t.readOn none #[] #[] w
  | some 0 => ⟨#[], #[], w, .paused fun _ => t⟩
  | some (n + 1) => t.readOn (some n) #[] #[] w

end Search
end ProofSearch
