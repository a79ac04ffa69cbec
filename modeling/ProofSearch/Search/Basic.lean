import ProofSearch.Fault
import ProofSearch.Term.Fresh

/-! # Searches

A search gives its alternatives one at a time. On the way it can draw numbers, look at the judgments
stored, add one to them, and leave notes; nothing happens before the reader gets there. A search is a
well-founded tree of these acts: each path through it ends, and a part of it that has not been reached
is a function not yet called. Reading is in `ProofSearch.Search.Reading`. -/

namespace ProofSearch

inductive Search (ν α : Type) : Type
  | done
  | fail (e : Fault)
  | give (a : α) (rest : Unit → Search ν α)
  | draw (k : Nat → Search ν α)
  | look (k : List Judgment → Search ν α)
  | add (j : Judgment) (rest : Unit → Search ν α)
  | note (n : ν) (rest : Unit → Search ν α)

namespace Search
variable {ν α β : Type}

/-- The one alternative `a`. -/
def one (a : α) : Search ν α := give a fun _ => done

def append : Search ν α → (Unit → Search ν α) → Search ν α
  | done, r => r ()
  | fail e, _ => fail e
  | give a k, r => give a fun _ => (k ()).append r
  | draw k, r => draw fun n => (k n).append r
  | look k, r => look fun js => (k js).append r
  | add j k, r => add j fun _ => (k ()).append r
  | note n k, r => note n fun _ => (k ()).append r

/-- For each alternative, in order, those of `f`. -/
def bind : Search ν α → (α → Search ν β) → Search ν β
  | done, _ => done
  | fail e, _ => fail e
  | give a k, f => (f a).append fun _ => (k ()).bind f
  | draw k, f => draw fun n => (k n).bind f
  | look k, f => look fun js => (k js).bind f
  | add j k, f => add j fun _ => (k ()).bind f
  | note n k, f => note n fun _ => (k ()).bind f

def map (f : α → β) (t : Search ν α) : Search ν β := t.bind fun a => one (f a)

section
variable {γ : Type}

theorem append_done (t : Search ν α) : (t.append fun _ => done) = t := by
  induction t with
  | done => rfl
  | fail e => rfl
  | give a k ih => exact congrArg (give a) (funext fun u => ih u)
  | draw k ih => exact congrArg draw (funext fun n => ih n)
  | look k ih => exact congrArg look (funext fun js => ih js)
  | add j k ih => exact congrArg (add j) (funext fun u => ih u)
  | note n k ih => exact congrArg (note n) (funext fun u => ih u)

theorem append_assoc (t : Search ν α) (u v : Unit → Search ν α) :
    (t.append u).append v = t.append fun _ => (u ()).append v := by
  induction t with
  | done => rfl
  | fail e => rfl
  | give a k ih => exact congrArg (give a) (funext fun u => ih u)
  | draw k ih => exact congrArg draw (funext fun n => ih n)
  | look k ih => exact congrArg look (funext fun js => ih js)
  | add j k ih => exact congrArg (add j) (funext fun u => ih u)
  | note n k ih => exact congrArg (note n) (funext fun u => ih u)

theorem bind_append (t : Search ν α) (u : Unit → Search ν α) (f : α → Search ν β) :
    (t.append u).bind f = (t.bind f).append fun _ => (u ()).bind f := by
  induction t with
  | done => rfl
  | fail e => rfl
  | give a k ih =>
    show (f a).append _ = ((f a).append _).append _
    rw [append_assoc]
    exact congrArg _ (funext fun u => ih u)
  | draw k ih => exact congrArg draw (funext fun n => ih n)
  | look k ih => exact congrArg look (funext fun js => ih js)
  | add j k ih => exact congrArg (add j) (funext fun u => ih u)
  | note n k ih => exact congrArg (note n) (funext fun u => ih u)

theorem bind_assoc (t : Search ν α) (f : α → Search ν β) (g : β → Search ν γ) :
    (t.bind f).bind g = t.bind fun a => (f a).bind g := by
  induction t with
  | done => rfl
  | fail e => rfl
  | give a k ih =>
    show ((f a).append _).bind g = _
    rw [bind_append]
    exact congrArg _ (funext fun u => ih u)
  | draw k ih => exact congrArg draw (funext fun n => ih n)
  | look k ih => exact congrArg look (funext fun js => ih js)
  | add j k ih => exact congrArg (add j) (funext fun u => ih u)
  | note n k ih => exact congrArg (note n) (funext fun u => ih u)

@[simp] theorem one_bind (a : α) (f : α → Search ν β) : (one a).bind f = f a := append_done _

@[simp] theorem bind_one (t : Search ν α) : t.bind one = t := by
  induction t with
  | done => rfl
  | fail e => rfl
  | give a k ih => exact congrArg (give a) (funext fun u => ih u)
  | draw k ih => exact congrArg draw (funext fun n => ih n)
  | look k ih => exact congrArg look (funext fun js => ih js)
  | add j k ih => exact congrArg (add j) (funext fun u => ih u)
  | note n k ih => exact congrArg (note n) (funext fun u => ih u)

end

def ofList : List α → Search ν α
  | [] => done
  | a :: as => give a fun _ => ofList as

/-- The alternatives of the list, with a note for each as it is taken. -/
def counted : List α → Search Unit α
  | [] => done
  | a :: as => note () fun _ => give a fun _ => counted as

def ofExcept : Except Fault α → (α → Search ν β) → Search ν β
  | .ok a, k => k a
  | .error e, _ => fail e

def ofOption : Option α → (α → Search ν β) → Search ν β
  | some a, k => k a
  | none, _ => fail .endless

def noteIf (b : Bool) (n : ν) (rest : Unit → Search ν α) : Search ν α :=
  if b then note n rest else rest ()

def collapseInto (as : Array α) : Search ν α → Search ν (List α)
  | done => one as.toList
  | fail e => fail e
  | give a k => (k ()).collapseInto (as.push a)
  | draw k => draw fun n => (k n).collapseInto as
  | look k => look fun js => (k js).collapseInto as
  | add j k => add j fun _ => (k ()).collapseInto as
  | note n k => note n fun _ => (k ()).collapseInto as

/-- Runs to the end before it gives anything, then gives the list of all alternatives. -/
def collapse (t : Search ν α) : Search ν (List α) := t.collapseInto #[]

/-- The first alternative alone, or `none` when there is none; the rest is not run. -/
def first : Search ν α → Search ν (Option α)
  | done => one none
  | fail e => fail e
  | give a _ => one (some a)
  | draw k => draw fun n => (k n).first
  | look k => look fun js => (k js).first
  | add j k => add j fun _ => (k ()).first
  | note n k => note n fun _ => (k ()).first

def drawVar (stem : String) (k : Var → Search ν α) : Search ν α := draw fun n => k (Var.drawn stem n)

def drawVars (stem : String) : Nat → (List Var → Search ν α) → Search ν α
  | 0, k => k []
  | n + 1, k => drawVar stem fun v => drawVars stem n fun vs => k (v :: vs)

end Search
end ProofSearch
