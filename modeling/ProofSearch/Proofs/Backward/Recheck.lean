import ProofSearch.Proofs.Backward.Completeness
import ProofSearch.Proofs.Term.Variant

/-!
# Searching for a result again

A result with nothing open in its proof is found again by the search for it, in the same environment and
within the same depth (`read_results_recheck`). The environment stands there as it was written, while the
result was derived from it under the bindings that made the result; those bindings leave the result as it
is, so they are a solution for the second search to follow (`Finds`).
-/

namespace ProofSearch.Backward
open Search
variable {js : List Judgment} {o : SearchOptions} {d m n : Nat} {env : Environment} {q : Judgment}
variable {w : World} {f : Var → Term}

/-- A judgment is found up to the names of its variables if values that leave it as it is make the
environment one it is derivable from. -/
theorem exists_variant_of_instance (ha : o.arities.broken = false) (hq : q.term.Settled w.drawn)
    (henv : env.Settled w.drawn) (hfixed : o.lambdaIntro = true → q.proof.vars = [])
    (hf : q.subst f = q) (h : Derivable o w.judgments d (env.subst f) q) :
    ∃ t ∈ ((results o d env q.term).read none w).results, t.VariantOf q.term := by
  have hproof : Fixed o q.proof .empty := fun ho => by
    rw [Term.subst_eq_self (hfixed ho)]
    exact hfixed ho
  have hfind : (solve o d env q.term .empty).Gives w.judgments (Follows w.drawn f) w.drawn := by
    refine finds_solve_of_fixed ha d env q .empty w.drawn f Subst.acyclic_empty (Subst.settled_empty _)
      henv hq hproof (fun v t hv => by cases hv) ?_
    rw [hf]
    exact h
  have hproves : Proves o w.judgments d env (fun _ => False) (solve o d env) := proves_solve ha d env
  have hresults := gives_instances q.term hfind
    ((hproves q .empty w.drawn Subst.acyclic_empty).mono fun _ _ _ hr => hr.acyclic)
  obtain ⟨t, ht, m, r, ⟨g, hg, hsol⟩, hr, rfl⟩ := hresults.exists_mem_read
  have hterm : q.term.subst f = q.term := congrArg Judgment.term hf
  have hback : q.term = (q.term.subst r.value).subst g := by
    rw [hsol.subst_value hr, hg.subst_term hq, hterm]
  exact ⟨_, ht, Term.variantOf_of_instances rfl hback⟩

/-- A judgment that is derivable within the depth is found by the search for it, up to the names of its
variables. -/
theorem exists_variant_of_derivable (ho : o.lambdaIntro = false) (ha : o.arities.broken = false)
    (q : Judgment) (w : World) (hq : q.term.Settled w.drawn) (henv : env.Settled w.drawn)
    (h : Derivable o w.judgments d env q) :
    ∃ t ∈ ((results o d env q.term).read none w).results, t.VariantOf q.term := by
  refine exists_variant_of_instance (f := .var) ha hq henv (fun hon => ?_) (Judgment.subst_var q) ?_
  · rw [ho] at hon
    cases hon
  · rwa [Environment.subst_var]

/-- A result is found again from where the search for it has come to, up to the names of its variables,
when its proof has none, and every result is when no abstraction is asked for. All arities are to be numbers
and the variables of the query and of the environment are to end in none still to be drawn. -/
theorem read_results_recheck (ha : o.arities.broken = false) (d : Nat) (env : Environment) (q : Judgment)
    (w : World) (hq : q.term.Settled w.drawn) (henv : env.Settled w.drawn) (limit : Option Nat) :
    let reading := (results o d env q.term).read limit w
    ∀ t ∈ reading.results, ∃ r : Judgment, t = r.term ∧ ((o.lambdaIntro = true → r.proof.vars = []) →
      ∃ u ∈ ((results o d env t).read none reading.world).results, u.VariantOf t) := by
  intro reading t ht
  have hall : (results o d env q.term).Always w.judgments (fun _ => False) (fun m t =>
      ∃ r, r.Settled m ∧ Proved o w.judgments d env [q] .empty m r ∧ t = (q.subst r.value).term) w.drawn := by
    have hbroken : ¬ o.arities.broken = true := by simp [ha]
    refine (always_results_proved (fun hb => absurd hb hbroken) d env q w.drawn).mono fun m t hm ht => ?_
    obtain ⟨r, hr, rfl⟩ := ht
    exact ⟨r, hr.settled_end (hq.mono hm) (henv.mono hm), hr, rfl⟩
  have hread := hall.read limit
  obtain ⟨m, hm, r, hrset, hr, rfl⟩ := hread.of_mem ht
  refine ⟨q.subst r.value, rfl, fun hfixed => ?_⟩
  -- what the variables stand for is not changed by reading it once more
  have hself : (q.subst r.value).subst r.value = q.subst r.value := by
    rw [Judgment.subst_subst]
    exact congrArg q.subst (funext (hr.acyclic.solvedBy_value.value_subst hr.acyclic))
  have hresult : (q.subst r.value).term.Settled reading.world.drawn := by
    rw [Judgment.term_subst]
    exact (hrset.mono hm).subst_value hr.acyclic (hq.mono hread.drawn_le)
  refine exists_variant_of_instance ha hresult (henv.mono hread.drawn_le) hfixed hself ?_
  rw [hread.judgments]
  exact hr.derivable q (List.mem_singleton_self q)

/-- `$p : (-> $a $b)`. -/
def anyFunction : Judgment := ⟨.ofText "$p", .arrow [.ofText "$a"] (.ofText "$b")⟩

/-- The function that is constantly `a`, of a type with two variables left: one is the environment's, and
the second search finds it under another name. -/
theorem read_results_recheck_constant :
    ({ lambdaIntro := true } : SearchOptions).arities.broken = false ∧ anyFunction.term.Settled 0 ∧
      withA.Settled 0 ∧
      let reading := (results { lambdaIntro := true } 1 withA anyFunction.term).read none ⟨[listing], 0⟩
      let constant := Judgment.mk (.abstraction (.ofText "x10") (.ofText "a"))
        (.arrow [.ofText "$a_8"] (.ofText "$u"))
      constant.term ∈ reading.results ∧ ∃ u ∈ ((results { lambdaIntro := true } 1 withA constant.term).read none
        reading.world).results, u.VariantOf constant.term := by
  have hplain : ∀ t ∈ [anyFunction.term, .ofText "$u"], ∀ v ∈ t.vars, '_' ∉ v.text.toList := by decide
  have hq : anyFunction.term.Settled 0 := Term.settled_of_underscore_notMem (hplain _ (by simp)) 0
  have henv : withA.Settled 0 := List.forall_mem_singleton.2 (Term.settled_judgment.2
    ⟨Term.settled_sym _, Term.settled_of_underscore_notMem (hplain _ (by simp)) 0⟩)
  refine ⟨rfl, hq, henv, ?_⟩
  intro reading constant
  have hfound : constant.term ∈ reading.results := by decide +kernel
  have hagain := read_results_recheck (o := { lambdaIntro := true }) rfl 1 withA anyFunction ⟨[listing], 0⟩
    hq henv none constant.term hfound
  obtain ⟨r, hr, hground⟩ := hagain
  obtain rfl : constant = r := Judgment.term_injective hr
  exact ⟨hfound, hground fun _ => by decide⟩

end ProofSearch.Backward
