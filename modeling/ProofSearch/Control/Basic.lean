import ProofSearch.Backward
import ProofSearch.Search.Draws

/-! # Controlled search

Backward search in which a context takes the place of the depth. Before a query is expanded, `stop` is
asked; the contexts of the two goals of an application come from `abs` and `arg`. What these functions
return steers the search and reaches no unification. A bound on the depth can be set on top. Matches are
given at every query; with `recheck` a match is dropped when `stop` holds of it. -/

namespace ProofSearch

structure Control (κ : Type) where
  /-- The context for the head of an application. -/
  abs : Term → κ → Draws κ
  /-- The context for its argument. -/
  arg : Term → κ → Draws κ
  stop : Term → κ → Draws Bool
  start : κ
  /-- How a context is shown in a note. -/
  level : κ → Datum
  /-- How many levels are followed where no bound is set: all that the control allows for, if that is
  known, and otherwise more than any search that ends goes through. -/
  horizon : Nat := 1000

namespace Control
open Search
variable {κ : Type}

structure Options where
  recheck : Bool := false
  traced : Bool := false

/-- The query is noted only where events are. -/
def goal (o : Options) (level : Datum) (q : Term) (s : Subst)
    (rest : Unit → Search Note Subst) : Search Note Subst :=
  if o.traced then event true .goal level s q rest else rest ()

/-- The ways the query is known, less those dropped. -/
def base (c : Control κ) (o : Options) (env : Environment) (x : κ) (q : Term) (s : Subst) :
    Search Note Subst :=
  (known env q s).bind fun r =>
    ofOption (r.instantiate? q) fun t =>
      let given := noteIf o.traced (.event .hit (c.level x) t) fun _ => one r
      if o.recheck then
        ofDraws (c.stop t x) fun stopped =>
          if stopped then noteIf o.traced (.event .prune (c.level x) t) fun _ => done else given
      else given

/-- The proofs that apply a head to an argument, where `stop` allows it. -/
def expand (c : Control κ) (o : Options) (prove : κ → Term → Subst → Search Note Subst) (x : κ)
    (q : Term) (s : Subst) : Search Note Subst :=
  ofExcept q.halves fun (proof, statement) =>
    drawVar "abs" fun abs => drawVar "arg" fun arg =>
      ofUnify (s.unify proof (.tuple [.var abs, .var arg])) fun s =>
        ofOption (s.instantiate? q) fun node =>
          ofDraws (c.stop node x) fun stopped =>
            if stopped then noteIf o.traced (.event .prune (c.level x) node) fun _ => done
            else noteIf o.traced (.event .expand (c.level x) node) fun _ =>
              ofDraws (c.abs node x) fun y => ofDraws (c.arg node x) fun z =>
                drawVar "prms" fun prms =>
                  (prove y (Judgment.mk (.var abs) (.arrow [.var prms] statement)).term s).bind
                    (prove z (Judgment.mk (.var arg) (.var prms)).term)

/-- The substitutions under which the query is proved, from `s` on, with at most `n` levels of
applications. Past the last level it gives what is known, and then ends with the fault if there is one. -/
def solve (c : Control κ) (o : Options) (past : Option Fault) (env : Environment) :
    Nat → κ → Term → Subst → Search Note Subst
  | 0, x, q, s => goal o (c.level x) q s fun _ =>
    (base c o env x q s).append fun _ =>
      match past with
      | none => done
      | some e => fail e
  | n + 1, x, q, s => goal o (c.level x) q s fun _ =>
    (base c o env x q s).append fun _ => expand c o (solve c o past env n) x q s

/-- A bound on the depth, on top of what the control does. -/
inductive Bound
  | depth (n : Nat)
  | unbounded
  /-- A value that is no number: the search fails where it would compare it with one. -/
  | broken

/-- A depth that need not be whole, or not even a number. -/
def Bound.ofDatum : Datum → Bound
  | .int n => depth n.toNat
  | .bool b => depth (if b then 1 else 0)
  | .float f => if f.isFinite || f < 0 then depth f.ceil.toUInt64.toNat else unbounded
  | _ => broken

/-- From the start of the control on, within the bound. -/
def solutions (c : Control κ) (o : Options) (env : Environment) (b : Bound) (q : Term) (s : Subst) :
    Search Note Subst :=
  match b with
  | .depth n => solve c o none env n c.start q s
  | .unbounded => solve c o (some .endless) env c.horizon c.start q s
  | .broken => solve c o (some .mismatch) env 0 c.start q s

def results (c : Control κ) (o : Options) (env : Environment) (b : Bound) (q : Term) :
    Search Note Term :=
  instances q (solutions c o env b q .empty)

end Control
end ProofSearch
