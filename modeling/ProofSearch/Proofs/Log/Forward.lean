import ProofSearch.Forward
import ProofSearch.Proofs.Log.Backward

/-!
# Forward search with a log

The judgment that a step is made from is the goal of a call, under no bindings, and so is the rule that is
looked for in the store. Once it has been given the search comes to it again, to make the step. Judgments made on
the way hold the names drawn for them, and the next step is made from these at a later counter
(`makes_chainLogged`).
-/

namespace ProofSearch.Forward
open Search Backward
variable {n : Nat} {env : Environment} {j goal derived : Judgment} {s : Subst} {traced : Bool}
variable {prove prove' : Term → Subst → Search Note Subst}
variable {below : Environment → Term → Subst → Search Note Subst}

/-- As `asRule`, with a log of the bindings. -/
def asRuleLogged (env : Environment) (prove : Term → Subst → Search Note Subst) (j : Judgment) :
    Search Note Judgment :=
  drawVar "prms" fun prms => drawVar "ccln" fun ccln =>
    unifyLogged ⟨env, j.term, .empty⟩ j.statement (.arrow [.var prms] (.var ccln)) fun s =>
      drawVar "arg" fun arg =>
        conclude prove ⟨.var arg, .var prms⟩ ⟨.tuple [j.proof, .var arg], .var ccln⟩ s

/-- As `asFirstPremise`, with a log of the rule it looks for. -/
def asFirstPremiseLogged (env : Environment) (prove : Term → Subst → Search Note Subst) (j : Judgment) :
    Search Note Judgment :=
  drawVar "ctor" fun ctor => drawVar "prms" fun second => drawVar "ccln" fun ccln =>
    let rule := Judgment.mk (.var ctor) (.arrows [j.statement, .var second] (.var ccln))
    log (.asked ⟨env, rule.term, .empty⟩) fun _ =>
      (storedLogged ⟨env, rule.term, .empty⟩).bind fun s =>
        drawVar "arg" fun arg =>
          conclude prove ⟨.var arg, .var second⟩
            ⟨.tuple [.tuple [.var ctor, j.proof], .var arg], .var ccln⟩ s

def stepLogged (env : Environment) (prove : Term → Subst → Search Note Subst) (j : Judgment) :
    Search Note Judgment :=
  (asArgument prove j).append fun _ =>
    (asRuleLogged env prove j).append fun _ => asFirstPremiseLogged env prove j

def chainLogged (o : SearchOptions) (env : Environment) : Nat → Judgment → Search Note Judgment
  | 0, j => log (.asked ⟨env, j.term, .empty⟩) fun _ => one j
  | d + 1, j => log (.asked ⟨env, j.term, .empty⟩) fun _ => give j fun _ =>
    log (.asked ⟨env, j.term, .empty⟩) fun _ =>
      noteIf o.traced (.event .expand (.int (d + 1)) j.term) fun _ =>
        (stepLogged env (solveLogged o d env) j).bind (chainLogged o env d)

/-! ### The program without the log -/

theorem filterNotes_conclude (h : ∀ g s, (prove g s).filterNotes Note.isOwn = prove' g s)
    (goal derived : Judgment) (s : Subst) :
    (conclude prove goal derived s).filterNotes Note.isOwn = conclude prove' goal derived s := by
  simp [conclude, h]

theorem filterNotes_stepLogged (h : ∀ g s, (prove g s).filterNotes Note.isOwn = prove' g s) (env : Environment)
    (j : Judgment) : (stepLogged env prove j).filterNotes Note.isOwn = step prove' j := by
  simp [stepLogged, step, asArgument, asRuleLogged, asRule, asFirstPremiseLogged, asFirstPremise,
    filterNotes_conclude h]

theorem filterNotes_chainLogged (o : SearchOptions) (env : Environment) (d : Nat) (j : Judgment) :
    (chainLogged o env d j).filterNotes Note.isOwn = chain o env d j := by
  induction d generalizing j with
  | zero => simp [chainLogged, chain]
  | succ d ih => simp [chainLogged, chain, filterNotes_stepLogged (filterNotes_solveLogged o d env), ih]

/-! ### What is settled -/

/-- What the search makes is settled from the counter on. -/
def Makes (traced : Bool) (t : Search Note Judgment) (n : Nat) : Prop :=
  ∀ past, t.Throughout (Logs traced) (fun m _ a => a.term.Settled m) n past

theorem makes_conclude (hp : KeepsAll traced below) (henv : env.Settled n) (hs : s.Settled n)
    (hgoal : goal.term.Settled n) (hderived : derived.term.Settled n) :
    Makes traced (conclude (below env) goal derived s) n := by
  refine fun past => (hp n ⟨env, goal.term, s⟩ ⟨henv, hgoal, hs⟩ past).bind fun m past' r hm hr => ?_
  refine .ofOption fun a ha => .one ?_
  obtain ⟨hproof, hstatement⟩ := Term.settled_judgment.1 (hderived.mono hm)
  unfold Subst.judgment? at ha
  split at ha
  · next p c hp hc =>
    cases ha
    exact Term.settled_judgment.2 ⟨hr.instantiate? hproof hp, hr.instantiate? hstatement hc⟩
  · cases ha

theorem makes_asArgument (hp : KeepsAll traced below) (henv : env.Settled n) (hj : j.term.Settled n) :
    Makes traced (asArgument (below env) j) n := by
  obtain ⟨hproof, hstatement⟩ := Term.settled_judgment.1 (hj.mono (show n ≤ n + 2 by omega))
  have habs := Var.settled_drawn "abs" (show n < n + 2 by omega)
  have hccln := Var.settled_drawn "ccln" (show n + 1 < n + 2 by omega)
  refine makes_conclude (n := n + 2) hp (henv.mono (by omega)) (Subst.settled_empty _) ?_ ?_
  · simp [Term.settled_judgment, Term.settled_arrow, habs, hccln, hstatement]
  · simp [Term.settled_judgment, habs, hccln, hproof]

theorem makes_asRuleLogged (hp : KeepsAll traced below) (henv : env.Settled n) (hj : j.term.Settled n) :
    Makes traced (asRuleLogged env (below env) j) n := by
  intro past
  obtain ⟨hproof, hstatement⟩ := Term.settled_judgment.1 hj
  have hprms := Var.settled_drawn "prms" (show n < n + 2 by omega)
  have hccln := Var.settled_drawn "ccln" (show n + 1 < n + 2 by omega)
  have harg := Var.settled_drawn "arg" (show n + 2 < n + 3 by omega)
  have hcall : (Call.mk env j.term .empty).Settled n := ⟨henv, hj, Subst.settled_empty n⟩
  have hle : n ≤ n + 2 := by omega
  refine throughout_unifyLogged (n := n + 2) (hcall.mono hle) (hstatement.mono hle) ?_ fun s _ hs => ?_
  · simp [Term.settled_arrow, hprms, hccln]
  refine makes_conclude (n := n + 3) hp (henv.mono (by omega)) (hs.mono (Nat.le_succ _)) ?_ ?_ _
  · simp [Term.settled_judgment, harg, hprms.mono (Nat.le_succ _)]
  · simp [Term.settled_judgment, harg, hccln.mono (Nat.le_succ _), hproof.mono (show n ≤ n + 3 by omega)]

theorem makes_asFirstPremiseLogged (hp : KeepsAll traced below) (henv : env.Settled n)
    (hj : j.term.Settled n) : Makes traced (asFirstPremiseLogged env (below env) j) n := by
  intro past
  obtain ⟨hproof, hstatement⟩ := Term.settled_judgment.1 (hj.mono (show n ≤ n + 3 by omega))
  have hctor := Var.settled_drawn "ctor" (show n < n + 3 by omega)
  have hsecond := Var.settled_drawn "prms" (show n + 1 < n + 3 by omega)
  have hccln := Var.settled_drawn "ccln" (show n + 2 < n + 3 by omega)
  let rule : Judgment := ⟨.var (Var.drawn "ctor" n),
    .arrows [j.statement, .var (Var.drawn "prms" (n + 1))] (.var (Var.drawn "ccln" (n + 2)))⟩
  have hrule : rule.term.Settled (n + 3) := by
    simp [rule, Term.arrows, Term.settled_judgment, Term.settled_arrow, hctor, hsecond, hccln, hstatement]
  have hcall : (Call.mk env rule.term .empty).Settled (n + 3) :=
    ⟨henv.mono (by omega), hrule, Subst.settled_empty _⟩
  refine ⟨.entry (e := .asked _) hcall, (keeps_storedLogged hcall _).bind fun m past' s hm hs => ?_⟩
  have harg := Var.settled_drawn "arg" (Nat.lt_succ_self m)
  have hm' : n + 3 ≤ m + 1 := hm.trans (Nat.le_succ m)
  refine makes_conclude (n := m + 1) hp (hcall.env.mono hm') (hs.1.mono (Nat.le_succ m)) ?_ ?_ past'
  · simp [Term.settled_judgment, harg, hsecond.mono hm']
  · simp [Term.settled_judgment, harg, hctor.mono hm', hccln.mono hm', hproof.mono hm']

theorem makes_stepLogged (hp : KeepsAll traced below) (henv : env.Settled n) (hj : j.term.Settled n) :
    Makes traced (stepLogged env (below env) j) n := fun past =>
  (makes_asArgument hp henv hj past).append fun _ past' hm =>
    (makes_asRuleLogged hp (henv.mono hm) (hj.mono hm) past').append fun _ past'' hi =>
      makes_asFirstPremiseLogged hp (henv.mono (hm.trans hi)) (hj.mono (hm.trans hi)) past''

theorem shows_empty (env : Environment) (t : Term) : (Call.mk env t .empty).Shows t := by
  have hvalue : Subst.empty.value = .var := funext fun v => Subst.value_of_get?_none (Subst.get?_empty v)
  rw [Call.Shows, Subst.acyclic_empty.instantiate?_eq, hvalue, Term.subst_id]

theorem makes_chainLogged (o : SearchOptions) (d : Nat) (henv : env.Settled n) (hj : j.term.Settled n) :
    Makes o.traced (chainLogged o env d j) n := by
  induction d generalizing j n with
  | zero => exact fun _ => ⟨.entry (e := .asked _) ⟨henv, hj, Subst.settled_empty n⟩, .one hj⟩
  | succ d ih =>
    have hcall : (Call.mk env j.term .empty).Settled n := ⟨henv, hj, Subst.settled_empty n⟩
    refine fun past => ⟨.entry (e := .asked _) hcall, hj, fun m past' hm => ?_⟩
    refine ⟨.entry (e := .asked _) (hcall.mono hm), .noteIf (fun htraced => ?_) fun past'' => ?_⟩
    · exact .event _ htraced ⟨_, .inl (Entry.stands_concat past' _), shows_empty env j.term⟩
    · refine (makes_stepLogged (keeps_solveLogged o d) (henv.mono hm) (hj.mono hm) past'').bind ?_
      exact fun _ past a hi ha => ih (henv.mono (hm.trans hi)) ha past

end ProofSearch.Forward
