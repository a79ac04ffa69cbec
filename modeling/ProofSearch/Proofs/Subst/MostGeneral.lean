import ProofSearch.Proofs.Subst.Levels

/-!
# Most general unifiers

Over a substitution without cycles a unification always ends. It gives a substitution exactly when the
terms have a common instance among the solutions of the bindings there are, and then loses none of them
(`unify_mostGeneral`); what it adds are bindings of variables that were free and that reading the terms
comes to, and the result is again without cycles (`unify_terminates`).
-/

namespace ProofSearch.Subst
variable {s r : Subst} {t u : Term} {f : Var → Term}

theorem acyclic_empty : empty.Acyclic := by
  intro v h
  obtain ⟨w, ⟨t, ht, _⟩, _⟩ := Relation.TransGen.head'_iff.1 h
  cases ht

theorem SolvedBy.of_extends (h : r.SolvedBy f) (hr : r.Extends s) : s.SolvedBy f :=
  fun v t hv => h v t (hr v t hv)

/-! ### What `unify` answers -/

theorem outcome_unify (hs : s.Acyclic) (t u : Term) : Outcome s [(t, u)] (s.unify t u) :=
  outcome_unifyWithin _ hs t u

theorem unified_of_unify (hs : s.Acyclic) (h : s.unify t u = .ok r) : Unified s [(t, u)] r := by
  have out := outcome_unify hs t u
  rwa [h] at out

theorem unify_eq_clash (hs : s.Acyclic) {x : Refusal} (h : s.unify t u = .error x) : x = .clash := by
  cases x with
  | clash => rfl
  | endless => exact absurd h (unify_ne_endless hs t u)

theorem exists_unify (hs : s.Acyclic) (hf : s.SolvedBy f) (he : t.subst f = u.subst f) :
    ∃ r, s.unify t u = .ok r := by
  have out := outcome_unify hs t u
  match h : s.unify t u with
  | .ok r => exact ⟨r, rfl⟩
  | .error .clash =>
    rw [h] at out
    exact absurd (equates_singleton.2 he) (out f hf)
  | .error .endless => exact absurd h (unify_ne_endless hs t u)

namespace Unified

theorem subst_eq (h : Unified s [(t, u)] r) (hf : r.SolvedBy f) : t.subst f = u.subst f :=
  equates_singleton.1 ((h.solvedBy f).1 hf).2

theorem solvedBy_of_eq (h : Unified s [(t, u)] r) (hf : s.SolvedBy f) (he : t.subst f = u.subst f) :
    r.SolvedBy f :=
  (h.solvedBy f).2 ⟨hf, equates_singleton.2 he⟩

end Unified

/-! ### The two main statements -/

/-- Terms are unified exactly when some solution of the bindings makes them equal. The result makes
them equal, and every such solution solves the result and factors through it. -/
theorem unify_mostGeneral (hs : s.Acyclic) (t u : Term) :
    ((∃ r, s.unify t u = .ok r) ↔ ∃ f, s.SolvedBy f ∧ t.subst f = u.subst f) ∧
    (∀ x, s.unify t u = .error x → x = .clash) ∧
    ∀ r, s.unify t u = .ok r →
      (∃ c, r.instantiate? t = some c ∧ r.instantiate? u = some c) ∧
      ∀ f, s.SolvedBy f → t.subst f = u.subst f →
        r.SolvedBy f ∧ ∀ x, ∃ c, r.instantiate? x = some c ∧ c.subst f = x.subst f := by
  refine ⟨⟨?_, ?_⟩, fun x h => unify_eq_clash hs h, ?_⟩
  · rintro ⟨r, hr⟩
    have h := unified_of_unify hs hr
    have hsol := h.acyclic.solvedBy_value
    exact ⟨r.value, hsol.of_extends h.keeps, h.subst_eq hsol⟩
  · rintro ⟨f, hf, he⟩
    exact exists_unify hs hf he
  · intro r hr
    have h := unified_of_unify hs hr
    refine ⟨⟨t.subst r.value, h.acyclic.instantiate?_eq t, ?_⟩, fun f hf he => ?_⟩
    · rw [h.subst_eq h.acyclic.solvedBy_value]
      exact h.acyclic.instantiate?_eq u
    · have hsol := h.solvedBy_of_eq hf he
      exact ⟨hsol, fun x => ⟨_, h.acyclic.instantiate?_eq x, hsol.subst_value h.acyclic x⟩⟩

/-- `$x` bound to `(f $y)`, and `$y` to `$z`. -/
def chained : Subst :=
  (empty.bind ⟨"$y", rfl⟩ (.var ⟨"$z", rfl⟩)).bind ⟨"$x", rfl⟩
    (.tuple [.sym ⟨"f", rfl⟩, .var ⟨"$y", rfl⟩])

theorem acyclic_chained : chained.Acyclic := (acyclic_empty.bind rfl (by decide)).bind rfl (by decide)

/-- `($x $y)` and `($w a)` are unified along both chains; `$x` holds `$z` at the end of one. -/
theorem unify_mostGeneral_chained : chained.Acyclic ∧
    (∃ f, chained.SolvedBy f ∧
      (Term.tuple [.var ⟨"$x", rfl⟩, .var ⟨"$y", rfl⟩]).subst f =
        (Term.tuple [.var ⟨"$w", rfl⟩, .sym ⟨"a", rfl⟩]).subst f) ∧
    ¬ ∃ f, chained.SolvedBy f ∧ (Term.var ⟨"$x", rfl⟩).subst f = (Term.var ⟨"$z", rfl⟩).subst f := by
  have hr : chained.unify (.tuple [.var ⟨"$x", rfl⟩, .var ⟨"$y", rfl⟩])
      (.tuple [.var ⟨"$w", rfl⟩, .sym ⟨"a", rfl⟩]) =
      .ok ((chained.bind ⟨"$w", rfl⟩ (.tuple [.sym ⟨"f", rfl⟩, .var ⟨"$y", rfl⟩])).bind ⟨"$z", rfl⟩
        (.sym ⟨"a", rfl⟩)) := by decide
  have hc : chained.unify (.var ⟨"$x", rfl⟩) (.var ⟨"$z", rfl⟩) = .error .clash := by decide
  refine ⟨acyclic_chained, (unify_mostGeneral acyclic_chained _ _).1.1 ⟨_, hr⟩, fun h => ?_⟩
  obtain ⟨r, hr⟩ := (unify_mostGeneral acyclic_chained _ _).1.2 h
  rw [hc] at hr
  cases hr

/-- The recursion ends within the levels `unify` allows, so that more would change nothing. The result
keeps every binding, binds only variables that were free and are reached from the terms, and has no
cycle, so that walking and reading under it end as well. -/
theorem unify_terminates (hs : s.Acyclic) (t u : Term) :
    s.unify t u ≠ .error .endless ∧
    (∀ n, (s.size + t.size + u.size + 1) * (s.size + t.size + u.size + 1) ≤ n →
      unifyWithin n s t u = s.unify t u) ∧
    ∀ r, s.unify t u = .ok r →
      r.Extends s ∧
      (∀ v, s.get? v = none → (r.get? v).isSome → s.Reaches t (.var v) ∨ s.Reaches u (.var v)) ∧
      r.Acyclic ∧ ∀ x, (r.walk? x).isSome ∧ (r.instantiate? x).isSome := by
  have hne := unify_ne_endless hs t u
  refine ⟨hne, fun n hn => unifyWithin_eq_of_le hne hn, fun r hr => ?_⟩
  have h := unified_of_unify hs hr
  refine ⟨h.keeps, fun v hv hrv => ?_, h.acyclic, fun x => ⟨h.acyclic.isSome_walk? x, ?_⟩⟩
  · obtain ⟨x, hx⟩ := Option.isSome_iff_exists.1 hrv
    obtain ⟨e, he, hev⟩ := (h.added v x hv hx).1
    rw [List.mem_singleton.1 he] at hev
    exact hev
  · rw [h.acyclic.instantiate?_eq]; rfl

/-- `$z` is reached from `($x $y)` through both bindings, and bound. -/
theorem unify_terminates_chained : chained.Acyclic ∧ ∃ r,
    chained.unify (.tuple [.var ⟨"$x", rfl⟩, .var ⟨"$y", rfl⟩])
      (.tuple [.var ⟨"$w", rfl⟩, .sym ⟨"a", rfl⟩]) = .ok r ∧
    r.get? ⟨"$z", rfl⟩ = some (.sym ⟨"a", rfl⟩) ∧ r.Extends chained ∧ r.Acyclic := by
  have hr : chained.unify (.tuple [.var ⟨"$x", rfl⟩, .var ⟨"$y", rfl⟩])
      (.tuple [.var ⟨"$w", rfl⟩, .sym ⟨"a", rfl⟩]) =
      .ok ((chained.bind ⟨"$w", rfl⟩ (.tuple [.sym ⟨"f", rfl⟩, .var ⟨"$y", rfl⟩])).bind ⟨"$z", rfl⟩
        (.sym ⟨"a", rfl⟩)) := by decide
  obtain ⟨keeps, _, acyclic, _⟩ := (unify_terminates acyclic_chained _ _).2.2 _ hr
  exact ⟨acyclic_chained, _, hr, rfl, keeps, acyclic⟩

end ProofSearch.Subst
