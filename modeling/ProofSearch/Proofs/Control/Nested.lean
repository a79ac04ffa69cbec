import ProofSearch.Proofs.Control.Depth

/-!
# Depth decided by axioms

A numeral that is counted down, and an axiom that says of the numeral at zero that it is spent, steer a
search as a count does (`read_results_ofNumeral`). The search that decides about a query draws a number for
the axiom, and in its goal stands the query as it is, with its open variables, `$why` among them perhaps.
All the same the goal and the axiom are unified at zero and at no other numeral (`run_stop_ofNumeral`): the
variable of the axiom carries a number still to be drawn, and so is none of the query's.
-/

namespace ProofSearch
variable {js : List Judgment} {l : Link} {s s' : Subst} {g g' : Judgment} {env env' : Environment}
variable {t : Term} {d n k : Nat}

namespace Control
open Search
variable {recheck : Bool}

/-- One search over one judgment alone, in which nothing is applied. -/
theorem run_firstOver_results (g j : Judgment) (k : Nat) :
    ((Backward.results {} 0 {} g.term).firstOver [j]).run k =
      (.ok ((Subst.empty.unify g.term (j.tag (ending k)).term).toOption.map fun r => g.term.subst r.value),
        k + 1) := by
  rw [Backward.results, Backward.solve, Backward.base, event_eq Subst.acyclic_empty]
  show (firstOver [j] (instances g.term ((append (append (ofUnify (Subst.empty.unify g.term
    (j.tag (ending k)).term) one) fun _ => done) fun _ => done).bind
      fun r => event false .hit (.int 0) r g.term fun _ => one r))).run (k + 1) = _
  rw [append_done, append_done]
  cases h : Subst.empty.unify g.term (j.tag (ending k)).term with
  | ok r =>
    have hr := (Subst.unified_of_unify Subst.acyclic_empty h).acyclic
    rw [ofUnify, one_bind, event_eq hr, instances, noteIf, if_neg Bool.false_ne_true, one_bind,
      hr.instantiate?_eq]
    rfl
  | error x =>
    rw [Subst.unify_eq_clash Subst.acyclic_empty h]
    rfl

/-- The variable that stands for the query in the axiom `spent`. -/
def spentQuery : Var := ⟨"$q", rfl⟩

theorem tag_spent (e : String) :
    spent.tag e = ⟨.ofText "spent", .tuple [.sym .terminate, .var (spentQuery.tag e), .sym .zero]⟩ := rfl

/-- The goal and the axiom have a common instance at zero alone. -/
theorem exists_unify_spent (ht : t.Settled k) :
    (∃ r, Subst.empty.unify (Level.terminationGoal t (.term (.numeral n))).term
      (spent.tag (ending k)).term = .ok r) ↔ n = 0 := by
  constructor
  · rintro ⟨r, hr⟩
    have unified := Subst.unified_of_unify Subst.acyclic_empty hr
    have hsame := unified.subst_eq unified.acyclic.solvedBy_value
    cases n with
    | zero => rfl
    | succ n =>
      simp [tag_spent, Level.terminationGoal, Level.toTerm, Judgment.term, Term.numeral] at hsame
  · rintro rfl
    -- `$why` stands for the name of the axiom, also within the query, for which the axiom's variable stands
    let new := spentQuery.tag (ending k)
    have hne : ∀ v : Var, v.Settled k → v ≠ new := fun v hv he =>
      hv k (Nat.le_refl k) (he ▸ Var.ending_suffix_tag k spentQuery)
    let g (v : Var) : Term := if v = .why then .ofText "spent" else .var v
    let f := Function.update g new (t.subst g)
    have hold : ∀ v : Var, v.Settled k → f v = g v := fun v hv => Function.update_of_ne (hne v hv) _ g
    have hwhy : f .why = .ofText "spent" := hold .why (Var.settled_of_underscore_notMem (by decide) k)
    have hquery : f new = t.subst f :=
      (Function.update_self new _ g).trans (Term.subst_congr fun v hv => (hold v (ht v hv)).symm)
    have hproof : (Term.ofText "spent").subst f = .ofText "spent" := rfl
    refine Subst.exists_unify Subst.acyclic_empty (f := f) (fun v u hv => by cases hv) ?_
    simp [tag_spent, Level.terminationGoal, Level.toTerm, Judgment.term, Term.numeral, hwhy, hproof,
      ← hquery, new]

/-- The search over the axiom proves that the numeral is spent where it is zero. -/
theorem run_stop_ofNumeral (d n : Nat) (ht : t.Settled k) :
    (((ofNumeral d [spent]).stop t (.term (.numeral n))).run k).1 = .ok (decide (n = 0)) := by
  have hspent := exists_unify_spent (n := n) ht
  have hrun := run_firstOver_results (Level.terminationGoal t (.term (.numeral n))) spent k
  refine (congrArg Prod.fst (Draws.run_bind hrun)).trans (congrArg Except.ok ?_)
  rw [Option.isSome_map]
  cases hr : Subst.empty.unify (Level.terminationGoal t (.term (.numeral n))).term
    (spent.tag (ending k)).term with
  | ok r => exact (decide_eq_true (hspent.1 ⟨r, hr⟩)).symm
  | error x =>
    refine (decide_eq_false fun hn => ?_).symm
    obtain ⟨r, hok⟩ := hspent.2 hn
    rw [hr] at hok
    cases hok

/-! ### All levels -/

theorem agree_ofNumeral (d n : Nat) :
    Agree (ofDepth d) (ofNumeral d [spent]) (.count n) (.term (.numeral n)) (decide (n = 0)) where
  stop := stop_ofDepth d n
  stop' _ _ ht := run_stop_ofNumeral d n ht

theorem passes_ofNumeral (d n : Nat) (axioms : List Judgment) :
    (ofNumeral d axioms).Passes (.term (.numeral (n + 1))) (.term (.numeral n)) (.term (.numeral n)) :=
  ⟨fun _ => rfl, fun _ => rfl⟩

/-- The count and the numeral are spent after `n` levels, and so within any larger number of levels. -/
theorem sim_solve_ofNumeral (d n : Nat) {m m' : Nat} (hm : n < m) (hm' : n < m')
    (hs : Subst.Counterpart l s s') (hg : Judgment.Counterpart l g g')
    (henv : Environment.Counterpart l env env') :
    Sim js Subst.Counterpart l
      (solve (ofDepth d) { recheck } (some .endless) env m (.count n) g.term s)
      (solve (ofNumeral d [spent]) { recheck } (some .endless) env' m' (.term (.numeral n)) g'.term s') := by
  have hagree := agree_ofNumeral d n
  induction n generalizing l s s' g g' m m' with
  | zero =>
    obtain ⟨m, rfl⟩ := Nat.exists_eq_add_one.2 hm
    obtain ⟨m', rfl⟩ := Nat.exists_eq_add_one.2 hm'
    refine Sim.append (sim_base (fun _ => ⟨_, hagree⟩) hs hg.term henv) fun l' hl => ?_
    exact sim_expand hagree (fun h => by cases h) (hs.mono hl) (hg.mono hl)
  | succ n ih =>
    obtain ⟨m, rfl⟩ := Nat.exists_eq_add_one.2 (Nat.zero_lt_of_lt hm)
    obtain ⟨m', rfl⟩ := Nat.exists_eq_add_one.2 (Nat.zero_lt_of_lt hm')
    refine Sim.append (sim_base (fun _ => ⟨_, hagree⟩) hs hg.term henv) fun l' hl => ?_
    have below : Simulates js l'
        (solve (ofDepth d) { recheck } (some .endless) env m (.count n))
        (solve (ofNumeral d [spent]) { recheck } (some .endless) env' m' (.term (.numeral n))) :=
      fun l'' s s' g g' hl' hs hg => ih (Nat.lt_of_succ_lt_succ hm) (Nat.lt_of_succ_lt_succ hm') hs hg
        (henv.mono (hl.trans hl')) (agree_ofNumeral d n)
    refine sim_expand hagree (fun _ => ?_) (hs.mono hl) (hg.mono hl)
    exact ⟨_, _, _, _, passes_ofDepth d n, passes_ofNumeral d n [spent], below, below⟩

/-- The search that a numeral steers gives what the search that a count steers gives, one result for another:
one renaming of the variables drawn makes the results of one those of the other, and leaves every other
name as it is. -/
theorem read_results_ofNumeral (d : Nat) (recheck : Bool) (env : Environment) (g : Judgment)
    (js : List Judgment) {k k' : Nat} (hk : n ≤ k) (hk' : n ≤ k') (hg : g.term.Settled n)
    (henv : env.Settled n) :
    let counted := ((ofDepth d).results { recheck } env .unbounded g.term).read none ⟨js, k⟩
    let nested := ((ofNumeral d [spent]).results { recheck } env .unbounded g.term).read none ⟨js, k'⟩
    counted.status = .ended ∧ nested.status = .ended ∧ ∃ ρ : Renaming, (∀ c, ρ.sym c = c) ∧
      (∀ v, v.Settled n → ρ.var v = v) ∧ nested.results = counted.results.map (Term.rename ρ) := by
  have hl := (Link.start n).growsTo_raise hk hk'
  have hquery := (Judgment.counterpart_start hg).mono hl
  have hlevels : d < max 1000 (d + 1) := Nat.lt_of_lt_of_le (Nat.lt_succ_self d) (Nat.le_max_right ..)
  have hsolve : Sim js Subst.Counterpart ((Link.start n).raise hk hk')
      ((ofDepth d).solutions { recheck } env .unbounded g.term .empty)
      ((ofNumeral d [spent]).solutions { recheck } env .unbounded g.term .empty) :=
    sim_solve_ofNumeral d d (Nat.lt_succ_self d) hlevels (Subst.counterpart_empty _) hquery
      ((Environment.counterpart_start henv).mono hl)
  obtain ⟨hcounted, hnested, ρ, hρ, hmap⟩ := (hsolve.instances hquery.term).exists_rename
  exact ⟨hcounted, hnested, ρ, hρ.sym, fun v hv => hρ.var v v ⟨rfl, hv⟩, hmap⟩

/-- `$why : $c`. -/
def whatever : Judgment := ⟨.var .why, .ofText "$c"⟩

/-- The query has the variable in it that stands for the proof in the goals of the axiom. -/
theorem read_results_ofNumeral_whatever : whatever.term.Settled 0 ∧ withE.Settled 0 ∧
    let w : World := ⟨[Backward.listing, pairing], 0⟩
    let counted := ((ofDepth 1).results {} withE .unbounded whatever.term).read none w
    let nested := ((ofNumeral 1 [spent]).results {} withE .unbounded whatever.term).read none w
    counted.results.size = 11 ∧ nested.results ≠ counted.results ∧ ∃ ρ : Renaming,
      (∀ v, v.Settled 0 → ρ.var v = v) ∧ nested.results = counted.results.map (Term.rename ρ) := by
  have hg : whatever.term.Settled 0 := Term.settled_of_underscore_notMem (by decide) 0
  have henv : withE.Settled 0 :=
    List.forall_mem_singleton.2 (Term.settled_of_underscore_notMem (by decide) 0)
  obtain ⟨-, -, ρ, -, hfixed, hmap⟩ := read_results_ofNumeral 1 false withE whatever
    [Backward.listing, pairing] (Nat.le_refl 0) (Nat.le_refl 0) hg henv
  exact ⟨hg, henv, by decide +kernel, by decide +kernel, ρ, hfixed, hmap⟩

end Control
end ProofSearch
