import ProofSearch.Backward

/-! # Forward search

What follows from a judgment taken as given: the judgment itself, and with depth left whatever one step
makes of it, each carried forward again one level down. A step uses the judgment as the argument of a
rule, as a rule, or as the first of two premises of a stored rule; what is missing is proved backward,
one level down. -/

namespace ProofSearch

/-- The judgment as it stands under `s`. -/
def Subst.judgment? (s : Subst) (j : Judgment) : Option Judgment :=
  match s.instantiate? j.proof, s.instantiate? j.statement with
  | some p, some c => some ⟨p, c⟩
  | _, _ => none

namespace Forward
open Search Backward

/-- The judgments that `goal` proved under `s` makes of `derived`. -/
def conclude (prove : Term → Subst → Search Note Subst) (goal derived : Judgment) (s : Subst) :
    Search Note Judgment :=
  (prove goal.term s).bind fun r => ofOption (r.judgment? derived) one

/-- The judgment is the argument of a rule. -/
def asArgument (prove : Term → Subst → Search Note Subst) (j : Judgment) : Search Note Judgment :=
  drawVar "abs" fun abs => drawVar "ccln" fun ccln =>
    conclude prove ⟨.var abs, .arrow [j.statement] (.var ccln)⟩
      ⟨.tuple [.var abs, j.proof], .var ccln⟩ .empty

/-- The judgment is a rule. -/
def asRule (prove : Term → Subst → Search Note Subst) (j : Judgment) : Search Note Judgment :=
  drawVar "prms" fun prms => drawVar "ccln" fun ccln =>
    ofUnify (Subst.empty.unify j.statement (.arrow [.var prms] (.var ccln))) fun s =>
      drawVar "arg" fun arg =>
        conclude prove ⟨.var arg, .var prms⟩ ⟨.tuple [j.proof, .var arg], .var ccln⟩ s

/-- The judgment is the first premise of a stored rule of two premises. -/
def asFirstPremise (prove : Term → Subst → Search Note Subst) (j : Judgment) : Search Note Judgment :=
  drawVar "ctor" fun ctor => drawVar "prms" fun second => drawVar "ccln" fun ccln =>
    let rule := Judgment.mk (.var ctor) (.arrows [j.statement, .var second] (.var ccln))
    (stored rule.term .empty).bind fun s =>
      drawVar "arg" fun arg =>
        conclude prove ⟨.var arg, .var second⟩
          ⟨.tuple [.tuple [.var ctor, j.proof], .var arg], .var ccln⟩ s

/-- What one step makes of the judgment. -/
def step (prove : Term → Subst → Search Note Subst) (j : Judgment) : Search Note Judgment :=
  (asArgument prove j).append fun _ => (asRule prove j).append fun _ => asFirstPremise prove j

def chain (o : SearchOptions) (env : Environment) : Nat → Judgment → Search Note Judgment
  | 0, j => one j
  | d + 1, j => give j fun _ =>
    noteIf o.traced (.event .expand (.int (d + 1)) j.term) fun _ =>
      (step (solve o d env) j).bind (chain o env d)

end Forward
end ProofSearch
