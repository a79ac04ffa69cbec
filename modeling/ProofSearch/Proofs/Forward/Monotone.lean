import ProofSearch.Proofs.Backward.Monotone
import ProofSearch.Proofs.Forward.Duality

/-!
# Forward searches of more depth

A forward search of more depth does all that one of less depth does, and more at every level: its steps prove
what is missing by larger backward searches, so there are further judgments among those that a step makes, and
each of them is carried on further. A step of the smaller search is embedded in the step at the same place of
the larger one (`embeds_step`), whatever has been drawn in between, and so are the runs (`embeds_chain`). Read to
their ends, the results of the smaller search are those of the larger one in the same order, among others, up to
one renaming of the variables drawn (`read_chain_sublist`).
-/

namespace ProofSearch

/-- Where no symbols are drawn, every symbol keeps its name. -/
theorem Judgment.kept_of_variables (l : Pairing false) (j : Judgment) : j.Kept l := fun _ _ _ _ => rfl

namespace Forward
open Search Backward
variable {p : Placement} {o o' : SearchOptions} {js js' : List Judgment} {symbols : Bool}
variable {l : Pairing symbols} {s s' : Subst} {j j' goal goal' derived derived' : Judgment}
variable {env env' : Environment} {d d' n : Nat}

/-! ### One step -/

section
variable {prove prove' : Term → Subst → Search Note Subst}

theorem embeds_conclude (hp : Within p js js' l prove prove') (hgoal : Judgment.Image l goal goal')
    (hderived : Judgment.Image l derived derived') (hs : Subst.Image l s s') :
    Embeds p js js' Judgment.Image l (conclude prove goal derived s) (conclude prove' goal' derived' s') := by
  refine Embeds.bind (hp l goal goal' s s' (.refl l) hgoal hs) fun l' r r' hl hr => ?_
  rw [hr.acyclic.judgment?_eq, hr.acyclic'.judgment?_eq]
  have hderived := hderived.mono hl
  exact .one ⟨hr.subst_value hderived.proof, hr.subst_value hderived.statement⟩

theorem embeds_asArgument (hp : Within p js js' l prove prove') (hj : Judgment.Image l j j') :
    Embeds p js js' Judgment.Image l (asArgument prove j) (asArgument prove' j') := by
  refine .draw (.draw ?_)
  have hl := l.growsTo_draw.trans l.draw.growsTo_draw
  have habs := (Term.image_drawn l "abs" (by decide)).mono l.draw.growsTo_draw
  have hccln := Term.image_drawn l.draw "ccln" (by decide)
  have hproof := hj.proof.mono hl
  have hstatement := hj.statement.mono hl
  refine embeds_conclude (hp.mono hl) ⟨habs, ?_⟩ ⟨?_, hccln⟩ (Subst.image_empty _)
  · exact Term.image_arrow (.cons hstatement .nil) hccln
  · exact Term.image_tuple (.cons habs (.cons hproof .nil))

theorem embeds_asRule (hp : Within p js js' l prove prove') (hj : Judgment.Image l j j') :
    Embeds p js js' Judgment.Image l (asRule prove j) (asRule prove' j') := by
  refine .draw (.draw ?_)
  have hl := l.growsTo_draw.trans l.draw.growsTo_draw
  have hprms := (Term.image_drawn l "prms" (by decide)).mono l.draw.growsTo_draw
  have hccln := Term.image_drawn l.draw "ccln" (by decide)
  have harrow := Term.image_arrow (.cons hprms .nil) hccln
  refine .unify (Subst.image_empty _) (hj.statement.mono hl) harrow fun r r' hr => .draw ?_
  have hl' := l.draw.draw.growsTo_draw
  have harg := Term.image_drawn l.draw.draw "arg" (by decide)
  have hproof := hj.proof.mono (hl.trans hl')
  refine embeds_conclude (hp.mono (hl.trans hl')) ⟨harg, hprms.mono hl'⟩ ⟨?_, hccln.mono hl'⟩ (hr.mono hl')
  exact Term.image_tuple (.cons hproof (.cons harg .nil))

theorem embeds_asFirstPremise (hjs : p.Picks js js') (hkept : ∀ i ∈ js, i.Kept l)
    (hp : Within p js js' l prove prove') (hj : Judgment.Image l j j') :
    Embeds p js js' Judgment.Image l (asFirstPremise prove j) (asFirstPremise prove' j') := by
  refine .draw (.draw (.draw ?_))
  have hl₂ := l.draw.growsTo_draw.trans l.draw.draw.growsTo_draw
  have hl := l.growsTo_draw.trans hl₂
  have hctor := (Term.image_drawn l "ctor" (by decide)).mono hl₂
  have hsecond := (Term.image_drawn l.draw "prms" (by decide)).mono l.draw.draw.growsTo_draw
  have hccln := Term.image_drawn l.draw.draw "ccln" (by decide)
  have hinner := Term.image_arrow (.cons hsecond .nil) hccln
  have hrule : Judgment.Image l.draw.draw.draw ⟨_, _⟩ ⟨_, _⟩ :=
    ⟨hctor, Term.image_arrow (.cons (hj.statement.mono hl) .nil) hinner⟩
  have hstored : Embeds p js js' Subst.Image l.draw.draw.draw (matchApart _ .empty js : Search Note Subst)
      (matchApart _ .empty js') :=
    .matchApart (Subst.image_empty _) hrule.term hjs fun i hi => (hkept i hi).mono hl
  refine Embeds.bind (.look hstored) fun l₁ r r' hl₁ hr => .draw ?_
  -- the rule was found after some numbers of its own, and the argument is drawn behind them
  have hl₁' := hl₁.trans l₁.growsTo_draw
  have harg := Term.image_drawn l₁ "arg" (by decide)
  have hfirst := Term.image_tuple (.cons (hctor.mono hl₁') (.cons (hj.proof.mono (hl.trans hl₁')) .nil))
  refine embeds_conclude (hp.mono (hl.trans hl₁')) ⟨harg, hsecond.mono hl₁'⟩ ⟨?_, hccln.mono hl₁'⟩
    (hr.mono l₁.growsTo_draw)
  exact Term.image_tuple (.cons hfirst (.cons harg .nil))

theorem embeds_step (hjs : p.Picks js js') (hkept : ∀ i ∈ js, i.Kept l)
    (hp : Within p js js' l prove prove') (hj : Judgment.Image l j j') :
    Embeds p js js' Judgment.Image l (step prove j) (step prove' j') := by
  refine (embeds_asArgument hp hj).append fun l₁ hl₁ => ?_
  refine (embeds_asRule (hp.mono hl₁) (hj.mono hl₁)).append fun l₂ hl₂ => ?_
  have hl := hl₁.trans hl₂
  exact embeds_asFirstPremise hjs (fun i hi => (hkept i hi).mono hl) (hp.mono hl) (hj.mono hl)

end

/-! ### The run -/

/-- A run gives the judgment, and then carries on what one step makes of it. -/
theorem chain_succ (o : SearchOptions) (env : Environment) (d : Nat) (j : Judgment) :
    chain o env (d + 1) j = (one j).append fun _ =>
      noteIf o.traced (.event .expand (.int (d + 1)) j.term) fun _ =>
        (step (solve o d env) j).bind (chain o env d) := rfl

theorem embeds_chain (ho : o.Within p o') (hsymbols : o'.lambdaIntro = true → symbols = true)
    (hjs : p.Picks js js') (hd : d ≤ d') (hkept : ∀ i ∈ js, i.Kept l)
    (henv : Environment.Image l env env') (hj : Judgment.Image l j j') :
    Embeds p js js' Judgment.Image l (chain o env d j) (chain o' env' d' j') := by
  induction d generalizing d' l j j' with
  | zero =>
    cases d' with
    | zero => exact .one hj
    -- the smaller search is over with the judgment itself, and the larger one goes on behind it
    | succ d' =>
      rw [chain_succ]
      exact Embeds.append_right (.one hj)
  | succ d ih =>
    cases d' with
    | zero => exact absurd hd (Nat.not_succ_le_zero d)
    | succ d' =>
      have hd := Nat.le_of_succ_le_succ hd
      rw [chain_succ, chain_succ]
      refine Embeds.append (.one hj) fun l₁ hl₁ => ?_
      have hsolve : Within p js js' l₁ (solve o d env) (solve o' d' env') := by
        intro l₂ g g' s s' hl₂ hg hs
        have hl := hl₁.trans hl₂
        exact embeds_solve ho hsymbols (scopes_image hjs) hd hg
          ⟨fun i hi => (hkept i hi).mono hl, henv.mono hl⟩ hs
      have hstep := embeds_step hjs (fun i hi => (hkept i hi).mono hl₁) hsolve (hj.mono hl₁)
      refine .noteIf (hstep.bind fun l₂ i i' hl₂ hi => ?_)
      have hl := hl₁.trans hl₂
      exact ih hd (fun i hi => (hkept i hi).mono hl) (henv.mono hl) hi

theorem unfailing_chain (hone : 1 ∈ o.arities.counts) (hbroken : o.arities.broken = false) (env : Environment)
    (d : Nat) (j : Judgment) (n : Nat) : (chain o env d j).Unfailing js n := by
  have hF : o.arities.broken = true → False := fun h => by
    rw [hbroken] at h
    cases h
  exact (always_chain_of_all hF hone env d j n).unfailing

/-- With more depth a forward search gives what it gave with less, in the same order, among other results. It
draws other numbers: one renaming of the variables drawn makes the results the same. -/
theorem read_chain_sublist (traced traced' : Bool) (hd : d ≤ d') (env : Environment) (j : Judgment)
    (js : List Judgment) {k k' : Nat} (hk : n ≤ k) (hk' : n ≤ k') (hj : j.term.Settled n)
    (henv : env.Settled n) :
    let small := ((chain { traced } env d j).map Judgment.term).read none ⟨js, k⟩
    let large := ((chain { traced := traced' } env d' j).map Judgment.term).read none ⟨js, k'⟩
    small.status = .ended ∧ large.status = .ended ∧ ∃ ρ : Renaming, ρ.Spares false n ∧
      (small.results.toList.map (Term.rename ρ)).Sublist large.results.toList := by
  have hall : ∀ (b : Bool) (e m : Nat), ((chain { traced := b } env e j).map Judgment.term).Unfailing js m :=
    fun b e m => .bind ((unfailing_chain List.mem_cons_self rfl env e j m).mono fun _ _ _ _ => .one trivial)
  have hl := (Pairing.start false n).growsTo_raise hk hk'
  have hsyms : ∀ i : Judgment, i.term.SymsSettled false n := fun i c _ h => by cases h
  have hchain : Embeds .ordered js js Judgment.Image ((Pairing.start false n).raise hk hk')
      (chain { traced } env d j) (chain { traced := traced' } env d' j) :=
    embeds_chain ⟨.refl _ _, id, rfl, rfl⟩ id (.refl _ js) hd (fun i _ => i.kept_of_variables _)
      ((Environment.image_start henv fun i _ => hsyms i).mono hl) ((Judgment.image_start hj (hsyms j)).mono hl)
  let w : World := ⟨js, k⟩
  let w' : World := ⟨js, k'⟩
  have hterms : Embeds .ordered w.judgments w'.judgments Term.Image ((Pairing.start false n).raise hk hk')
      ((chain { traced } env d j).map Judgment.term) ((chain { traced := traced' } env d' j).map Judgment.term) :=
    hchain.bind fun _ _ _ _ hi => .one hi.term
  exact Embeds.read hk hk' (hall traced d k) (hall traced' d' k') hterms

/-- Of the eleven results four are those of the smaller search, whose `(f f) : (L (-> $t_6 (L $t_6)))` has the
variable `$t_19` there. -/
theorem read_chain_sublist_listing : listing.term.Settled 0 ∧ withB.Settled 0 ∧
    let small := ((chain { traced := false } withB 1 listing).map Judgment.term).read none ⟨[listing], 0⟩
    let large := ((chain { traced := true } withB 2 listing).map Judgment.term).read none ⟨[listing], 0⟩
    small.results.size = 4 ∧ large.results.size = 11 ∧
    ¬ small.results.toList.Sublist large.results.toList ∧ ∃ ρ : Renaming, ρ.Spares false 0 ∧
      (small.results.toList.map (Term.rename ρ)).Sublist large.results.toList := by
  have hj : listing.term.Settled 0 := Term.settled_of_underscore_notMem (by decide) 0
  have henv : withB.Settled 0 :=
    List.forall_mem_singleton.2 (Term.settled_of_underscore_notMem (by decide) 0)
  obtain ⟨-, -, hfound⟩ := read_chain_sublist false true (by decide : 1 ≤ 2) withB listing [listing]
    (Nat.le_refl 0) (Nat.le_refl 0) hj henv
  exact ⟨hj, henv, by decide +kernel, by decide +kernel, by decide +kernel, hfound⟩

end Forward
end ProofSearch
