import ProofSearch.Search.Basic

/-! # Computations that draw

What a control function may do: draw numbers, fail, and return a value. A search over judgments that do
not change is one, when only its first alternative is asked for. -/

namespace ProofSearch

inductive Draws (β : Type) : Type
  | ret (b : β)
  | raise (e : Fault)
  | draw (k : Nat → Draws β)

namespace Draws
variable {β γ : Type}

def bind : Draws β → (β → Draws γ) → Draws γ
  | ret b, f => f b
  | raise e, _ => raise e
  | draw k, f => draw fun n => (k n).bind f

instance : Monad Draws where
  pure := ret
  bind := bind

def ofExcept : Except Fault β → Draws β
  | .ok b => ret b
  | .error e => raise e

/-- The numbers drawn start at `n`; with the answer comes the next number. -/
def run : Draws β → (n : Nat) → Except Fault β × Nat
  | ret b, n => (.ok b, n)
  | raise e, n => (.error e, n)
  | draw k, n => (k n).run (n + 1)

theorem run_bind {d : Draws β} {f : β → Draws γ} {b : β} {m n : Nat} (h : d.run n = (.ok b, m)) :
    (d.bind f).run n = (f b).run m := by
  induction d generalizing n with
  | ret c => cases h; rfl
  | raise e => cases h
  | draw d ih => exact ih n h

end Draws

namespace Search
variable {ν α β : Type}

/-- Goes on with the value of the computation. -/
def ofDraws : Draws β → (β → Search ν α) → Search ν α
  | .ret b, k => k b
  | .raise e, _ => fail e
  | .draw d, k => draw fun n => ofDraws (d n) k

/-- The first alternative over the judgments `js`. -/
def firstOver (js : List Judgment) : Search ν α → Draws (Option α)
  | done => .ret none
  | fail e => .raise e
  | give a _ => .ret (some a)
  | draw k => .draw fun n => (k n).firstOver js
  | look k => (k js).firstOver js
  | add j k => (k ()).firstOver (js ++ [j])
  | note _ k => (k ()).firstOver js

end Search
end ProofSearch
