import ProofSearch.Environment

/-! # Rounds

Searches at a small depth, one after the other, each of whose results are put into the store before the
next begins. A judgment goes in unless something stored already unifies with it. A round is run to its
end before anything of it is put in or given. -/

namespace ProofSearch

namespace Search
variable {ν : Type}

/-- Whether a stored judgment unifies with the item. -/
def holds (item : Term) : Search ν Bool := (stored item .empty).first.map Option.isSome

/-- Puts the item at the end of the store. -/
def insert (item : Term) : Search ν Unit :=
  ofExcept (Judgment.check item) fun j => add j fun _ => one ()

/-- Puts the items into the store up to the first that is no judgment. -/
def insertAll : List Term → Search ν Unit
  | [] => one ()
  | item :: items => (insert item).bind fun _ => insertAll items

/-- Puts the item into the store unless a stored judgment unifies with it; tells whether it did. -/
def insertIfAbsent (item : Term) : Search ν Bool :=
  (holds item).bind fun
    | true => one false
    | false => (insert item).map fun _ => true

end Search

namespace Rounds
open Search

/-- Puts each item into the store in turn, unless it is there; gives those put in. -/
def commit (verbose : Bool) : List Term → Search Note (List Term)
  | [] => one []
  | item :: items => (insertIfAbsent item).bind fun
    | true => noteIf verbose (.added item) fun _ => (commit verbose items).map (item :: ·)
    | false => commit verbose items

/-- Carries the item through the rounds: the results of a round are committed, and each of them is the
item of the next. -/
def iterate (step : Term → Search Note Term) (verbose : Bool) :
    (rounds number : Nat) → Term → Search Note Term
  | 0, _, item => one item
  | n + 1, number, item =>
    (step item).collapse.bind fun results =>
      noteIf verbose (.round number item results.length) fun _ =>
        (commit verbose results).bind fun _ =>
          (ofList results).bind (iterate step verbose n (number + 1))

/-- Commits the results of the search for some rounds, or until a round brings nothing new; gives what
was put in. -/
def lemmas (search : Search Note Term) (verbose : Bool) :
    (rounds number : Nat) → Search Note (List Term)
  | 0, _ => one []
  | n + 1, number =>
    search.collapse.bind fun results =>
      noteIf verbose (.lemmaRound number results.length) fun _ =>
        (commit verbose results).bind fun new =>
          if new.isEmpty then one []
          else (lemmas search verbose n (number + 1)).map (new ++ ·)

end Rounds
end ProofSearch
