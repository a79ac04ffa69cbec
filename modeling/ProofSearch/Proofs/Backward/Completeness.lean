import ProofSearch.Proofs.Backward.Soundness

/-!
# Completeness of the backward search

Whatever is derivable within the depth as an instance of the query is an instance of some result
(`results_complete`), where no abstraction is asked for. A derivation is followed through the search by
the solution that it comes from: the solution is kept on the names settled at the start and given the
values it needs on the names drawn since (`Variant`), one more solution of the bindings at every step.
-/

namespace ProofSearch.Backward
open Search
variable {ν : Type} {o : SearchOptions} {js : List Judgment} {d m n i : Nat} {v : Var} {t : Term}
variable {env : Environment} {q : Judgment} {s r : Subst} {f g g' : Var → Term}

/-- `g` is `f` on all names settled at `n`. -/
def Variant (n : Nat) (f g : Var → Term) : Prop := ∀ v : Var, v.Settled n → g v = f v

namespace Variant

theorem refl (n : Nat) (f : Var → Term) : Variant n f f := fun _ _ => rfl

theorem trans (h : Variant n f g) (h' : Variant m g g') (hm : n ≤ m) : Variant n f g' := fun v hv =>
  (h' v (hv.mono hm)).trans (h v hv)

theorem subst_term (h : Variant n f g) (ht : t.Settled n) : t.subst g = t.subst f :=
  Term.subst_congr fun v hv => h v (ht v hv)

theorem subst_judgment (h : Variant n f g) (hq : q.term.Settled n) : q.subst g = q.subst f :=
  Judgment.term_injective (h.subst_term hq)

theorem subst_environment (h : Variant n f g) (henv : env.Settled n) : env.subst g = env.subst f :=
  congrArg Environment.mk (List.map_congr_left fun j hj => h.subst_judgment (henv j hj))

theorem solvedBy (h : Variant n f g) (hs : s.Settled n) (hf : s.SolvedBy f) : s.SolvedBy g := fun v t hv => by
  obtain ⟨hv', ht⟩ := hs v t hv
  rw [h v (Term.settled_var.1 hv'), h.subst_term ht]
  exact hf v t hv

end Variant

/-! ### Values for drawn names -/

theorem exists_variant_tag (n : Nat) (f h : Var → Term) :
    ∃ g, Variant n f g ∧ ∀ v : Var, g (v.tag (ending n)) = h v := by
  classical
  refine ⟨fun v => if hv : ∃ u : Var, u.tag (ending n) = v then h hv.choose else f v, fun v hv => ?_,
    fun v => ?_⟩
  · refine dif_neg ?_
    rintro ⟨u, rfl⟩
    exact hv n (Nat.le_refl n) (Var.ending_suffix_tag n u)
  · have hex : ∃ u : Var, u.tag (ending n) = v.tag (ending n) := ⟨v, rfl⟩
    exact (dif_pos hex).trans (congrArg h (Var.tag_inj hex.choose_spec))

theorem exists_variant_drawn (stem : String) (n : Nat) (f : Var → Term) (t : Term) :
    ∃ g, Variant n f g ∧ g (Var.drawn stem n) = t := by
  refine ⟨fun v => if v = Var.drawn stem n then t else f v, fun v hv => if_neg ?_, if_pos rfl⟩
  rintro rfl
  exact hv n (Nat.le_refl n) (Var.ending_suffix_drawn stem n)

theorem exists_variant_drawnList (stem : String) (n : Nat) (f : Var → Term) (ts : List Term) :
    ∃ g, Variant n f g ∧ (Var.drawnList stem n ts.length).map g = ts := by
  induction ts generalizing n f with
  | nil => exact ⟨f, .refl n f, rfl⟩
  | cons t ts ih =>
    obtain ⟨g, hg, ht⟩ := exists_variant_drawn stem n f t
    obtain ⟨g', hg', hts⟩ := ih (n + 1) g
    refine ⟨g', hg.trans hg' (Nat.le_succ n), ?_⟩
    have hhead : g' (Var.drawn stem n) = t := (hg' _ (Var.settled_drawn stem (Nat.lt_succ_self n))).trans ht
    rw [List.length_cons, Var.drawnList, List.map_cons, hhead, hts]

/-- An alternative that goes with the solution `f` of what the search began with. -/
def Follows (n : Nat) (f : Var → Term) (_ : Nat) (r : Subst) : Prop := ∃ g, Variant n f g ∧ r.SolvedBy g

theorem Variant.follows (h : Variant n f g) (hm : n ≤ m) (hr : Follows m g i r) : Follows n f i r :=
  hr.imp fun _ hg => ⟨h.trans hg.1 hm, hg.2⟩

theorem gives_unify (hs : s.Acyclic) (hf : s.SolvedBy f) {t u : Term} (he : t.subst f = u.subst f)
    {P : Nat → Subst → Prop} {k : Subst → Search ν Subst}
    (h : ∀ r, s.Unified [(t, u)] r → r.SolvedBy f → (k r).Gives js P n) :
    (ofUnify (s.unify t u) k).Gives js P n := by
  obtain ⟨r, hr⟩ := Subst.exists_unify hs hf he
  have hu := Subst.unified_of_unify hs hr
  rw [hr]
  exact h r hu (hu.solvedBy_of_eq hf he)

/-! ### What is known -/

theorem gives_matchApart (hs : s.Acyclic) (hset : s.Settled n) (hq : q.term.Settled n) (hf : s.SolvedBy f)
    {is : List Judgment} {j : Judgment} (hj : j ∈ is) {h : Var → Term} (hjq : q.subst f = j.subst h)
    (hn : n ≤ i) : (matchApart q.term s is : Search ν Subst).Gives js (Follows n f) i := by
  induction is generalizing i with
  | nil => cases hj
  | cons j' is ih =>
    show Gives js _ (append _ _) (i + 1)
    rcases List.mem_cons.1 hj with rfl | hj
    · -- the names of draw `i` are this judgment's alone, so they can stand for whatever it needs
      obtain ⟨g, hg, htag⟩ := exists_variant_tag i f h
      have hg : Variant n f g := (Variant.refl n f).trans hg hn
      have he : q.term.subst g = (j.tag (ending i)).term.subst g := by
        rw [hg.subst_term hq, ← Judgment.term_subst, hjq, ← Judgment.term_subst, Judgment.tag,
          Judgment.subst_subst]
        exact congrArg (fun h => (j.subst h).term) (funext fun v => (htag v).symm)
      refine Gives.append_left (gives_unify hs (hg.solvedBy hset hf) he fun r _ hr => ?_)
      exact .one ⟨g, hg, hr⟩
    · refine Gives.append_right (always_unify hs fun r _ => .one trivial) ?_
      exact fun m hm => ih hj (by omega)

theorem gives_matchAll (hs : s.Acyclic) (hf : s.SolvedBy f) {is : List Judgment} {j : Judgment}
    (hj : j ∈ is) (hjq : q.subst f = j.subst f) :
    (matchAll q.term s is : Search ν Subst).Gives js (Follows n f) i := by
  induction is generalizing i with
  | nil => cases hj
  | cons j' is ih =>
    rcases List.mem_cons.1 hj with rfl | hj
    · have he : q.term.subst f = j.term.subst f := congrArg Judgment.term hjq
      exact Gives.append_left (gives_unify hs hf he fun r _ hr => .one ⟨f, .refl n f, hr⟩)
    · refine Gives.append_right (always_unify hs fun r _ => .one trivial) ?_
      exact fun m hm => ih hj

theorem gives_base (hs : s.Acyclic) (traced : Bool) (level : Datum)
    (h : (known env q.term s : Search Note Subst).Gives js (Follows n f) m) :
    (base traced level env q.term s).Gives js (Follows n f) m := by
  rw [base, event_eq hs, gives_noteIf]
  have hall : (known env q.term s : Search Note Subst).Always js (fun _ => False)
      (Proved {} js 0 env [q] s) m := always_known hs
  refine Gives.bind (h.and hall) (hall.mono fun i r _ hr => ?_) ?_
  · rw [event_eq hr.acyclic, Unfailing, always_noteIf]
    exact .one trivial
  · rintro i r _ ⟨hr, hf⟩
    rw [event_eq hr.acyclic, gives_noteIf]
    exact .one hf

/-- An instance of a stored judgment is found in the store, an entry of the environment behind it. -/
theorem gives_base_of_known (hs : s.Acyclic) (hset : s.Settled n) (hq : q.term.Settled n)
    (hf : s.SolvedBy f) (h : Known js (env.subst f) (q.subst f)) (traced : Bool) (level : Datum) :
    (base traced level env q.term s).Gives js (Follows n f) n := by
  refine gives_base hs traced level ?_
  show Gives js _ (append (matchApart q.term s js) _) n
  rcases h with ⟨j, hj, h, hjq⟩ | hj
  · exact Gives.append_left (gives_matchApart hs hset hq hf hj hjq (Nat.le_refl n))
  · obtain ⟨j, hj, hjq⟩ := List.mem_map.1 hj
    have hall : (matchApart q.term s js : Search Note Subst).Always js (fun _ => False)
        (Proved {} js 0 env [q] s) n := always_matchApart hs fun _ h => h
    exact Gives.append_right hall.unfailing fun m _ => gives_matchAll hs hf hj hjq.symm

/-! ### Applications -/

theorem map_subst_wanted (g : Var → Term) (proofs premises : List Var) :
    (wanted proofs premises).map (Judgment.subst g) =
      List.zipWith Judgment.mk (proofs.map g) (premises.map g) := by
  rw [wanted, List.map_zipWith, List.zipWith_map]
  rfl

theorem zipWith_proof_statement (gs : List Judgment) :
    List.zipWith Judgment.mk (gs.map Judgment.proof) (gs.map Judgment.statement) = gs := by
  induction gs with
  | nil => rfl
  | cons g gs ih => exact congrArg (g :: ·) ih

/-- Where abstraction is on, nothing is open in the term under `s`. -/
def Fixed (o : SearchOptions) (t : Term) (s : Subst) : Prop :=
  o.lambdaIntro = true → (t.subst s.value).vars = []

namespace Fixed
variable {u : Term} {ts : List Term}

theorem of_extends (h : Fixed o t s) (hs : s.Acyclic) (hr : r.Acyclic) (hext : r.Extends s) :
    Fixed o t r := fun ho => by
  have hsol : s.SolvedBy r.value := hr.solvedBy_value.of_extends hext
  rw [← hsol.subst_value hs, Term.subst_eq_self (h ho)]
  exact h ho

theorem of_unified (h : Fixed o t s) (hs : s.Acyclic) (hr : s.Unified [(t, u)] r) : Fixed o u r := by
  have ht := h.of_extends hs hr.acyclic hr.keeps
  unfold Fixed at ht ⊢
  rwa [hr.subst_eq hr.acyclic.solvedBy_value] at ht

theorem part (h : Fixed o (.tuple ts) s) (ht : t ∈ ts) : Fixed o t s := fun ho => by
  refine List.eq_nil_iff_forall_not_mem.2 fun v hv => ?_
  have hmem : v ∈ ((Term.tuple ts).subst s.value).vars := by
    rw [Term.subst_tuple]
    exact Term.mem_vars_tuple.2 ⟨_, List.mem_map_of_mem ht, hv⟩
  rw [h ho] at hmem
  cases hmem

end Fixed

/-- The search for a goal follows each solution under which the goal is derivable; where abstraction is on,
the proof has to be fixed, or bound variables would get other names than the derivation has. -/
def Finds (o : SearchOptions) (js : List Judgment) (d : Nat) (env : Environment)
    (prove : Term → Subst → Search Note Subst) : Prop :=
  ∀ (q : Judgment) (s : Subst) (n : Nat) (f : Var → Term), s.Acyclic → s.Settled n → env.Settled n →
    q.term.Settled n → Fixed o q.proof s → s.SolvedBy f → Derivable o js d (env.subst f) (q.subst f) →
    (prove q.term s).Gives js (Follows n f) n

theorem gives_proveAll {prove : Term → Subst → Search Note Subst}
    (hp : Proves o js d env (fun _ => False) prove)
    (hfind : Finds o js d env prove) (gs : List Judgment) (hs : s.Acyclic) (hset : s.Settled n)
    (henv : env.Settled n) (hgs : ∀ g ∈ gs, g.term.Settled n) (hfixed : ∀ g ∈ gs, Fixed o g.proof s)
    (hf : s.SolvedBy f) (hd : ∀ g ∈ gs, Derivable o js d (env.subst f) (g.subst f)) :
    (proveAll prove (gs.map Judgment.term) s).Gives js (Follows n f) n := by
  induction gs generalizing s n f with
  | nil => exact .one ⟨f, .refl n f, hf⟩
  | cons g gs ih =>
    obtain ⟨hg, hgs⟩ := List.forall_mem_cons.1 hgs
    obtain ⟨hfixedg, hfixed⟩ := List.forall_mem_cons.1 hfixed
    obtain ⟨hdg, hd⟩ := List.forall_mem_cons.1 hd
    have hhead := (hfind g s n f hs hset henv hg hfixedg hf hdg).and (hp g s n hs)
    refine Gives.bind hhead
      ((hp g s n hs).mono fun m r _ hr => (always_proveAll hp gs hr.acyclic).unfailing) ?_
    rintro m r hm ⟨hr, f', hf', hsol⟩
    have hrset : r.Settled m := hr.settled m (Nat.le_refl m) (hset.mono hm) (henv.mono hm)
      (by simpa using hg.mono hm)
    -- no name drawn for the first goal occurs in the others, so they are derivable as they were
    have hd' : ∀ g ∈ gs, Derivable o js d (env.subst f') (g.subst f') := fun g hg => by
      rw [hf'.subst_environment henv, hf'.subst_judgment (hgs g hg)]
      exact hd g hg
    have hfixed' : ∀ g ∈ gs, Fixed o g.proof r := fun g hg =>
      (hfixed g hg).of_extends hs hr.acyclic hr.keeps
    have htail := ih hr.acyclic hrset (henv.mono hm) (fun g hg => (hgs g hg).mono hm) hfixed' hsol hd'
    exact htail.mono fun i a _ ha => hf'.follows hm ha

/-- The names drawn for an application can stand for the parts of the one that is derived. -/
theorem exists_variant_application (n : Nat) (f : Var → Term) (head : Term) (gs : List Judgment) :
    ∃ g, Variant n f g ∧ g (Var.drawn "abs" n) = head ∧
      (Var.drawnList "arg" (n + 1) gs.length).map g = gs.map Judgment.proof ∧
      (Var.drawnList "prms" (n + 1 + gs.length) gs.length).map g = gs.map Judgment.statement := by
  obtain ⟨g₁, h₁, habs⟩ := exists_variant_drawn "abs" n f head
  obtain ⟨g₂, h₂, hargs⟩ := exists_variant_drawnList "arg" (n + 1) g₁ (gs.map Judgment.proof)
  obtain ⟨g₃, h₃, hprms⟩ :=
    exists_variant_drawnList "prms" (n + 1 + gs.length) g₂ (gs.map Judgment.statement)
  rw [List.length_map] at hargs hprms
  refine ⟨g₃, (h₁.trans h₂ (by omega)).trans h₃ (by omega), ?_, ?_, hprms⟩
  · calc g₃ (Var.drawn "abs" n) = g₂ (Var.drawn "abs" n) := h₃ _ (Var.settled_drawn "abs" (by omega))
      _ = g₁ (Var.drawn "abs" n) := h₂ _ (Var.settled_drawn "abs" (by omega))
      _ = head := habs
  · rw [← hargs]
    exact List.map_congr_left fun v hv => h₃ v (Var.settled_of_mem_drawnList hv (Nat.le_refl _))

theorem gives_expand {prove : Term → Subst → Search Note Subst}
    (hp : Proves o js d env (fun _ => False) prove)
    (hfind : Finds o js d env prove) (hs : s.Acyclic) (hset : s.Settled n) (henv : env.Settled n)
    (hq : q.term.Settled n) (hfixed : Fixed o q.proof s) (hf : s.SolvedBy f) {head : Term}
    {gs : List Judgment}
    (hproof : q.proof.subst f = .tuple (head :: gs.map Judgment.proof))
    (hhead : Derivable o js d (env.subst f) ⟨head, .arrow (gs.map Judgment.statement) (q.statement.subst f)⟩)
    (hgs : ∀ g ∈ gs, Derivable o js d (env.subst f) g) (traced : Bool) (level : Datum) :
    (expand prove traced level q.term s gs.length).Gives js (Follows n f) n := by
  obtain ⟨hqp, hqs⟩ := Term.settled_judgment.1 hq
  -- all names of the application get their values at once, those for the premises as well
  obtain ⟨g, hg, habs, hargs, hprms⟩ := exists_variant_application n f head gs
  show Gives js _ (drawVars "arg" gs.length _) (n + 1)
  rw [gives_drawVars]
  refine gives_unify hs (hg.solvedBy hset hf) ?_ fun s₁ h₁ hsol => ?_
  · rw [hg.subst_term hqp, hproof, ← habs, ← hargs]
    simp
  have hv := settled_drawn_application (Nat.le_refl (n + 1 + gs.length + gs.length))
  have hset₁ : s₁.Settled (n + 1 + gs.length + gs.length) :=
    h₁.settled (hset.mono (by omega))
      (List.forall_mem_singleton.2 ⟨hqp.mono (by omega), settled_head_args hv⟩)
  have hargs' : (wanted (Var.drawnList "arg" (n + 1) gs.length)
      (Var.drawnList "prms" (n + 1 + gs.length) gs.length)).map (Judgment.subst g) = gs := by
    rw [map_subst_wanted, hargs, hprms, zipWith_proof_statement]
  have hfixed₁ := hfixed.of_unified hs h₁
  rw [event_eq h₁.acyclic, gives_noteIf, gives_drawVars, goals_eq]
  rw [← hg.subst_environment henv] at hhead hgs
  have hall := gives_proveAll hp hfind _ h₁.acyclic hset₁ (henv.mono (by omega))
    (settled_subgoals hv (hqs.mono (by omega))) (List.forall_mem_cons.2 ⟨?_, fun i hi => ?_⟩) hsol
    (List.forall_mem_cons.2 ⟨?_, fun i hi => ?_⟩)
  · exact hall.mono fun i r _ hr => hg.follows (by omega) hr
  · exact hfixed₁.part List.mem_cons_self
  · obtain ⟨a, ha, p, _, rfl⟩ := mem_wanted hi
    exact hfixed₁.part (List.mem_cons_of_mem _ (List.mem_map_of_mem ha))
  · rw [Judgment.subst, Term.subst_arrow, hg.subst_term hqs, Term.subst_var, habs, List.map_map]
    simpa [Function.comp_def, hprms] using hhead
  · exact hgs _ (hargs' ▸ List.mem_map_of_mem hi)

/-! ### Abstractions -/

theorem exists_variant_abstraction (n : Nat) (f : Var → Term) (x body a b : Term) :
    ∃ g, Variant n f g ∧ g (Var.drawn "x" n) = x ∧ g (Var.drawn "body" (n + 1)) = body ∧
      g (Var.drawn "a" (n + 2)) = a ∧ g (Var.drawn "b" (n + 3)) = b := by
  obtain ⟨g₁, h₁, hx⟩ := exists_variant_drawn "x" n f x
  obtain ⟨g₂, h₂, hbody⟩ := exists_variant_drawn "body" (n + 1) g₁ body
  obtain ⟨g₃, h₃, ha⟩ := exists_variant_drawn "a" (n + 2) g₂ a
  obtain ⟨g₄, h₄, hb⟩ := exists_variant_drawn "b" (n + 3) g₃ b
  have h₃₄ := h₃.trans h₄ (Nat.le_succ _)
  have h₂₄ := h₂.trans h₃₄ (Nat.le_succ _)
  refine ⟨g₄, h₁.trans h₂₄ (Nat.le_succ _), ?_, ?_, ?_, hb⟩
  · rw [h₂₄ _ (Var.settled_drawn "x" (by omega)), hx]
  · rw [h₃₄ _ (Var.settled_drawn "body" (by omega)), hbody]
  · rw [h₄ _ (Var.settled_drawn "a" (by omega)), ha]

/-- What the bound variable stands for is no variable, so no symbol is drawn for it. -/
theorem nameBound_of_fixed (hs : s.Acyclic) {x : Var} (hx : (s.value x).vars = [])
    (k : Subst → Search Note Subst) : nameBound x s k = k s := by
  obtain ⟨t, ht⟩ := Option.isSome_iff_exists.1 (hs.isSome_walk? (.var x))
  rw [nameBound, ht]
  cases t with
  | var y =>
    have hy : s.value y = .var y := Subst.value_of_get?_none (Subst.get?_of_walkWithin ht)
    have hxy : s.value y = s.value x := hs.solvedBy_value.subst_walk? ht
    rw [← hxy, hy] at hx
    cases hx
  | sym c => rfl
  | tuple ts => rfl

/-- The body is searched for with the bound term in the environment, as it stands by then. -/
theorem gives_body {prove : Environment → Term → Subst → Search Note Subst}
    (hfind : ∀ env, Finds o js d env (prove env)) {x body a b : Var} (hs : s.Acyclic) (hset : s.Settled n)
    (henv : env.Settled n) (hv : ∀ v ∈ [x, body, a, b], v.Settled n) (hfixed : Fixed o (.var body) s)
    (hf : s.SolvedBy f) (hd : Derivable o js d ((env.subst f).extend ⟨f x, f a⟩) ⟨f body, f b⟩) :
    (prove (env.extend ⟨s.value x, s.value a⟩) (Judgment.mk (.var body) (.var b)).term s).Gives js
      (Follows n f) n := by
  have hentry : (Judgment.mk (s.value x) (s.value a)).term.Settled n := by
    rw [Term.settled_judgment]
    exact ⟨hset.subst_value hs (Term.settled_var.2 (hv x (by simp))),
      hset.subst_value hs (Term.settled_var.2 (hv a (by simp)))⟩
  have hgoal : (Judgment.mk (.var body) (.var b)).term.Settled n := by
    rw [Term.settled_judgment, Term.settled_var, Term.settled_var]
    exact ⟨hv body (by simp), hv b (by simp)⟩
  refine hfind _ _ s n f hs hset (henv.extend hentry) hgoal hfixed hf ?_
  -- under the solution that is followed, the new entry is the hypothesis of the derivation
  rw [Environment.subst_extend, Judgment.subst, hf.value_subst hs, hf.value_subst hs]
  exact hd

theorem gives_introduce {prove : Environment → Term → Subst → Search Note Subst}
    (hfind : ∀ env, Finds o js d env (prove env)) (ho : o.lambdaIntro = true) (hs : s.Acyclic)
    (hset : s.Settled n) (henv : env.Settled n) (hq : q.term.Settled n) (hfixed : Fixed o q.proof s)
    (hf : s.SolvedBy f) {x body a b : Term} (hproof : q.proof.subst f = .abstraction x body)
    (hstatement : q.statement.subst f = .arrow [a] b)
    (hbody : Derivable o js d ((env.subst f).extend ⟨x, a⟩) ⟨body, b⟩) (traced : Bool) (level : Datum) :
    (introduce prove traced level env q.term s).Gives js (Follows n f) n := by
  obtain ⟨hqp, hqs⟩ := Term.settled_judgment.1 hq
  obtain ⟨g, hg, hx, hbodyg, ha, hb⟩ := exists_variant_abstraction n f x body a b
  refine gives_unify (n := n + 4) hs (hg.solvedBy hset hf) ?_ fun s₁ h₁ hsol₁ => ?_
  · rw [hg.subst_term hqp, hproof, Term.subst_abstraction, Term.subst_var, Term.subst_var, hx, hbodyg]
  refine gives_unify h₁.acyclic hsol₁ ?_ fun s₂ h₂ hsol₂ => ?_
  · rw [hg.subst_term hqs, hstatement, Term.subst_arrow, List.map_singleton, Term.subst_var,
      Term.subst_var, ha, hb]
  have hfixed₂ := (hfixed.of_unified hs h₁).of_extends h₁.acyclic h₂.acyclic h₂.keeps
  have hvars := hfixed₂.part (t := .var (Var.drawn "x" n)) (by simp) ho
  rw [nameBound_of_fixed h₂.acyclic hvars, event_eq h₂.acyclic, gives_noteIf, h₂.acyclic.instantiate?_eq,
    h₂.acyclic.instantiate?_eq]
  have hv := settled_drawn_abstraction (Nat.le_refl (n + 4))
  have hset₂ := settled_abstraction_parts (hset.mono (by omega)) (hq.mono (by omega)) hv h₁ h₂
  rw [← hg.subst_environment henv, ← hx, ← ha, ← hbodyg, ← hb] at hbody
  have hfound := gives_body hfind h₂.acyclic hset₂ (henv.mono (Nat.le_add_right n 4)) hv
    (hfixed₂.part (by simp)) hsol₂ hbody
  exact hfound.mono fun i r _ hr => hg.follows (Nat.le_add_right n 4) hr

/-! ### The search -/

/-- Every solution under which the query is derivable is followed. -/
theorem finds_solve_of_fixed (ha : o.arities.broken = false) (d : Nat) (env : Environment) :
    Finds o js d env (solve o d env) := by
  induction d generalizing env with
  | zero =>
    intro q s n f hs hset henv hq _ hf h
    exact gives_base_of_known hs hset hq hf h.known o.traced _
  | succ d ih =>
    intro q s n f hs hset henv hq hfixed hf h
    have hexpand : ∀ (k m : Nat), k ∈ o.arities.counts →
        (expand (solve o d env) o.traced (.int (d + 1)) q.term s k).Unfailing js m := fun k m hk =>
      (always_expand (proves_solve ha d env) hs o.traced _ hk).unfailing
    show Gives js _ (append (base o.traced _ env q.term s) _) n
    rcases h.known_or_built with h | ⟨head, gs, hproof, hn, hhead, hgs⟩ | ⟨ho, x, body, a, b, hj, hbody⟩
    · exact Gives.append_left (gives_base_of_known hs hset hq hf h o.traced _)
    · refine Gives.append_right (always_base (o := o) (d := d) hs o.traced _).unfailing fun m hm => ?_
      refine Gives.append_left (Gives.ofList_bind hn (fun i hi => ?_) fun k hk i _ => hexpand k i hk)
      have hni := hm.trans hi
      have hexp := gives_expand (proves_solve ha d env) (ih env) hs (hset.mono hni) (henv.mono hni)
        (hq.mono hni) hfixed hf hproof hhead hgs o.traced (.int (d + 1))
      exact hexp.mono fun j r _ hr => (Variant.refl n f).follows hni hr
    · refine Gives.append_right (always_base (o := o) (d := d) hs o.traced _).unfailing fun m hm => ?_
      refine Gives.append_right (.ofList_bind fun k hk i _ => hexpand k i hk) fun i hi => ?_
      have hni := hm.trans hi
      obtain ⟨hproof, hstatement⟩ := Judgment.mk.inj hj
      have hintro := gives_introduce ih ho hs (hset.mono hni) (henv.mono hni) (hq.mono hni) hfixed hf hproof
        hstatement hbody o.traced (.int (d + 1))
      rw [if_neg (by rw [ha]; exact Bool.false_ne_true), if_pos ho]
      exact hintro.mono fun j r _ hr => (Variant.refl n f).follows hni hr

/-- Without abstraction there is nothing to be fixed. -/
theorem finds_solve (ho : o.lambdaIntro = false) (ha : o.arities.broken = false) (d : Nat)
    (env : Environment) (q : Judgment) (s : Subst) (n : Nat) (f : Var → Term) (hs : s.Acyclic)
    (hset : s.Settled n) (henv : env.Settled n) (hq : q.term.Settled n) (hf : s.SolvedBy f)
    (h : Derivable o js d (env.subst f) (q.subst f)) : (solve o d env q.term s).Gives js (Follows n f) n := by
  refine finds_solve_of_fixed ha d env q s n f hs hset henv hq (fun hon => ?_) hf h
  rw [ho] at hon
  cases hon

theorem gives_instances {P : Nat → Subst → Prop} {k : Search ν Subst} (t : Term) (h : k.Gives js P n)
    (hk : k.Always js (fun _ => False) (fun _ r => r.Acyclic) n) :
    (instances t k).Gives js (fun m u => ∃ r, P m r ∧ r.Acyclic ∧ u = t.subst r.value) n := by
  refine Gives.bind (h.and hk) (hk.mono fun m r _ hr => ?_) ?_
  · rw [hr.instantiate?_eq]
    exact .one trivial
  · rintro m r _ ⟨hr, hP⟩
    rw [hr.instantiate?_eq]
    exact .one ⟨r, hP, hr, rfl⟩

/-- As `results_complete`, of the search itself. -/
theorem gives_results (ho : o.lambdaIntro = false) (ha : o.arities.broken = false) (d : Nat)
    (henv : env.Settled n) (hq : q.term.Settled n) (h : Derivable o js d (env.subst f) (q.subst f)) :
    (results o d env q.term).Gives js (fun _ t => ∃ g, t.subst g = (q.subst f).term) n := by
  have hfind := finds_solve ho ha d env q .empty n f Subst.acyclic_empty (Subst.settled_empty n) henv hq
    (fun v t hv => by cases hv) h
  have hall : (solve o d env q.term .empty).Always js (fun _ => False) _ n :=
    proves_solve ha d env q .empty n Subst.acyclic_empty
  refine (gives_instances q.term hfind (hall.mono fun _ _ _ hr => hr.acyclic)).mono ?_
  rintro m t _ ⟨r, ⟨g, hg, hsol⟩, hr, rfl⟩
  exact ⟨g, (hsol.subst_value hr q.term).trans (hg.subst_term hq)⟩

/-- Every instance of the query that is derivable within the depth is an instance of a result, when all
arities are numbers and the variables of the query and of the environment end in none still to be drawn.
The judgments stored may use any variables. -/
theorem results_complete (ho : o.lambdaIntro = false) (ha : o.arities.broken = false) (d : Nat)
    (env : Environment) (q : Judgment) (w : World) (hq : q.term.Settled w.drawn)
    (henv : env.Settled w.drawn) (f : Var → Term)
    (h : Derivable o w.judgments d (env.subst f) (q.subst f)) :
    ∃ t ∈ ((results o d env q.term).read none w).results, ∃ g, t.subst g = (q.subst f).term := by
  have hfind : (solve o d env q.term .empty).Gives w.judgments (Follows w.drawn f) w.drawn :=
    finds_solve ho ha d env q .empty w.drawn f Subst.acyclic_empty (Subst.settled_empty _) henv hq
      (fun v t hv => by cases hv) h
  have hall : (solve o d env q.term .empty).Always w.judgments (fun _ => False) _ w.drawn :=
    proves_solve ha d env q .empty w.drawn Subst.acyclic_empty
  have hresults : (results o d env q.term).Gives w.judgments
      (fun _ t => ∃ g, t.subst g = (q.subst f).term) w.drawn := by
    refine Gives.bind (hfind.and hall) (hall.mono fun m r _ hr => ?_) ?_
    · rw [hr.acyclic.instantiate?_eq]
      exact .one trivial
    · rintro m r _ ⟨hr, g, hg, hsol⟩
      rw [hr.acyclic.instantiate?_eq]
      exact .one ⟨g, (hsol.subst_value hr.acyclic q.term).trans (hg.subst_term hq)⟩
  obtain ⟨t, ht, _, hg⟩ := hresults.exists_mem_read
  exact ⟨t, ht, hg⟩

/-- `$p : (L $u)`. -/
def someList : Judgment := ⟨.ofText "$p", .tuple [.ofText "L", .ofText "$u"]⟩

/-- The environment of `a : $u`. -/
def withA : Environment := ⟨[⟨.ofText "a", .ofText "$u"⟩]⟩

/-- `$p` stands for `(f a)`, any other variable for `A`. -/
def listOfA (v : Var) : Term :=
  if v.text = "$p" then .tuple [.ofText "f", .ofText "a"] else .ofText "A"

theorem derivable_listOfA : Derivable {} [listing] 1 (withA.subst listOfA) (someList.subst listOfA) := by
  have hhead : Derivable {} [listing] 0 (withA.subst listOfA) (listing.subst fun _ => .ofText "A") :=
    .stored _ List.mem_cons_self
  have hgoals : ∀ g ∈ [(⟨.ofText "a", .ofText "A"⟩ : Judgment)],
      Derivable {} [listing] 0 (withA.subst listOfA) g :=
    List.forall_mem_singleton.2 (.assumed List.mem_cons_self)
  exact .application List.mem_cons_self hhead hgoals

theorem results_complete_listOfA : someList.term.Settled 0 ∧ withA.Settled 0 ∧
    ∃ t ∈ ((results {} 1 withA someList.term).read none ⟨[listing], 0⟩).results,
      ∃ g, t.subst g = (someList.subst listOfA).term := by
  have hplain : ∀ t ∈ [someList.term, .ofText "$u"], ∀ v ∈ t.vars, '_' ∉ v.text.toList := by decide
  have hq : someList.term.Settled 0 := fun v hv =>
    Var.settled_of_underscore_notMem (hplain _ (by simp) v hv) 0
  have henv : withA.Settled 0 := List.forall_mem_singleton.2 (Term.settled_judgment.2
    ⟨Term.settled_sym _, fun v hv => Var.settled_of_underscore_notMem (hplain _ (by simp) v hv) 0⟩)
  exact ⟨hq, henv, results_complete rfl rfl 1 withA someList ⟨[listing], 0⟩ hq henv listOfA derivable_listOfA⟩

end ProofSearch.Backward
