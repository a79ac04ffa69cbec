import ProofSearch.Environment

/-! # Backward search

The proofs of a query within a depth. A query is known when it matches the store or the environment. With
depth left its proof can be an application: its head is to be proved at an arrow and its arguments at the
premises, one level down. With `lambdaIntro` it can also be an abstraction: its body is to be proved one
level down, with the bound symbol in the environment. Every way is tried, the known ones first. -/

namespace ProofSearch

structure SearchOptions where
  arities : Arities := {}
  lambdaIntro : Bool := false
  traced : Bool := false

namespace Backward
open Search

/-- The ways the query is known. -/
def base (traced : Bool) (level : Datum) (env : Environment) (q : Term) (s : Subst) : Search Note Subst :=
  event traced .goal level s q fun _ =>
    (known env q s).bind fun r => event traced .hit level r q fun _ => one r

/-- Proves the goals one after the other, each under what the ones before it have bound. -/
def proveAll (prove : Term → Subst → Search Note Subst) : List Term → Subst → Search Note Subst
  | [], s => one s
  | g :: gs, s => (prove g s).bind (proveAll prove gs)

def goals (proofs premises : List Var) : List Term :=
  List.zipWith (fun a p => (Judgment.mk (.var a) (.var p)).term) proofs premises

/-- The proofs that apply a head to `arity` arguments. -/
def expand (prove : Term → Subst → Search Note Subst) (traced : Bool) (level : Datum) (q : Term)
    (s : Subst) (arity : Nat) : Search Note Subst :=
  ofExcept q.halves fun (proof, statement) =>
    drawVar "abs" fun abs => drawVars "arg" arity fun args =>
      ofUnify (s.unify proof (.tuple ((abs :: args).map .var))) fun s =>
        event traced .expand level s q fun _ =>
          drawVars "prms" arity fun prms =>
            (prove (Judgment.mk (.var abs) (.arrow (prms.map .var) statement)).term s).bind
              (proveAll prove (goals args prms))

/-- Binds `x` to a new symbol unless it stands for something already. -/
def nameBound (x : Var) (s : Subst) (k : Subst → Search Note Subst) : Search Note Subst :=
  ofOption (s.walk? (.var x)) fun
    | .var _ => draw fun n => ofUnify (s.unify (.var x) (.drawnAtom "x" n)) k
    | _ => k s

/-- The proofs that abstract over the premise of an arrow. -/
def introduce (prove : Environment → Term → Subst → Search Note Subst) (traced : Bool) (level : Datum)
    (env : Environment) (q : Term) (s : Subst) : Search Note Subst :=
  ofExcept q.halves fun (proof, statement) =>
    drawVar "x" fun x => drawVar "body" fun body => drawVar "a" fun a => drawVar "b" fun b =>
      ofUnify (s.unify proof (.abstraction (.var x) (.var body))) fun s =>
        ofUnify (s.unify statement (.arrow [.var a] (.var b))) fun s =>
          nameBound x s fun s =>
            event traced .expand level s q fun _ =>
              ofOption (s.instantiate? (.var x)) fun bound => ofOption (s.instantiate? (.var a)) fun premise =>
                prove (env.extend ⟨bound, premise⟩) (Judgment.mk (.var body) (.var b)).term s

/-- Fails at a value that is no number of arguments, after the query has been taken apart. -/
def breakOff (q : Term) : Search Note Subst :=
  ofExcept q.halves fun _ => drawVar "abs" fun _ => fail .mismatch

/-- The ways the query is known, then those in which it is proved with the goals `below` proves. -/
def ways (o : SearchOptions) (level : Datum) (below : Environment → Term → Subst → Search Note Subst)
    (env : Environment) (q : Term) (s : Subst) : Search Note Subst :=
  (base o.traced level env q s).append fun _ =>
    ((ofList o.arities.counts).bind (expand (below env) o.traced level q s)).append fun _ =>
      if o.arities.broken then breakOff q
      else if o.lambdaIntro then introduce below o.traced level env q s
      else done

/-- The substitutions under which the query is proved within the depth, from `s` on. -/
def solve (o : SearchOptions) : Nat → Environment → Term → Subst → Search Note Subst
  | 0, env, q, s => base o.traced (.int 0) env q s
  | d + 1, env, q, s => ways o (.int (d + 1)) (solve o d) env q s

/-- The same for a depth that need not be whole: one is taken off at each of `n` levels. -/
def solveFraction (o : SearchOptions) : Nat → Float → Environment → Term → Subst → Search Note Subst
  | 0, depth, env, q, s => base o.traced (.float depth) env q s
  | n + 1, depth, env, q, s => ways o (.float depth) (solveFraction o n (depth - 1)) env q s

/-- The same for a depth that has not been checked. What is no number cannot be compared with zero, which
is done once what is known has been given. -/
def solveUnchecked (o : SearchOptions) (depth : Datum) (env : Environment) (q : Term) (s : Subst) :
    Search Note Subst :=
  match depth with
  | .int (.ofNat d) => solve o d env q s
  | .int _ | .bool false => base o.traced depth env q s
  | .bool true => ways o depth (solve o 0) env q s
  | .float f => solveFraction o f.ceil.toUInt64.toNat f env q s
  | _ => (base o.traced depth env q s).append fun _ => fail .mismatch

/-- The query as each of its proofs within the depth makes it. -/
def results (o : SearchOptions) (depth : Nat) (env : Environment) (q : Term) : Search Note Term :=
  instances q (solve o depth env q .empty)

end Backward
end ProofSearch
