import ProofSearch.Proofs.Control.Nested
import ProofSearch.Proofs.Control.Pruning
import ProofSearch.Proofs.Subst.Instance

/-!
# Stopping at a shape

A count can be combined with a pattern for statements that are not to be proved by applications. Where the
statement is to be an instance of the pattern fewer searches are cut short than where it is to unify with it,
for a match leads to a unification with the pattern renamed, whatever names the two share
(`stricter_unifiable`). So the results are found in one another's, and all of them among those of the count
alone (`read_results_ofDepthAndShape`).
-/

namespace ProofSearch

/-- A renamed term overlaps with no more than the term does. -/
theorem Term.Image.overlaps {l : Pairing false} {t t' u : Term} (h : Image l t t') (hu : t'.Overlaps u) :
    t.Overlaps u := by
  obtain ⟨π, hπ⟩ := l.exists_follows
  obtain ⟨f, g, he⟩ := hu
  rw [← h π hπ, rename_eq_subst fun _ => rfl, subst_subst] at he
  exact ⟨_, g, he⟩

namespace Control
open Search
variable {c c' : Control Level} {o : Options} {env : Environment} {g : Judgment} {s : Subst} {t p : Term}
variable {js : List Judgment} {mode : Fit} {d m n : Nat} {k : Int}

/-! ### Controls that count down -/

/-- The control counts from `d` down, and stops at every query where the count is spent. -/
structure Counts (c : Control Level) (d : Nat) : Prop where
  start : c.start = .count d
  horizon : c.horizon = d + 1
  stop : ∀ (j : Judgment) (n : Nat), (c.stop j.term (.count n)).Returns fun b => n = 0 → b = true
  passes : ∀ n : Nat, c.Passes (.count (n + 1 : Nat)) (.count n) (.count n)

theorem Counts.always_solve (hc : c.Counts d) (past : Option Fault) (n : Nat) {i : Nat} (hs : s.Acyclic) :
    (solve c o past env (n + 1) (.count n) g.term s).Always js (fun _ => False) (fun _ r => r.Acyclic) i := by
  induction n generalizing g s i with
  | zero =>
    rw [solve, goal_eq hs, always_noteIf]
    refine (always_base (fun j => hc.stop j 0) hs).append fun i _ => ?_
    exact always_expand (fun j => hc.stop j 0) (fun h => absurd (h rfl) Bool.false_ne_true) hs
  | succ n ih =>
    rw [solve, goal_eq hs, always_noteIf]
    refine (always_base (fun j => hc.stop j (n + 1)) hs).append fun i _ => ?_
    refine always_expand (fun j => hc.stop j (n + 1)) (fun _ => ⟨(· = .count n), ?_, ?_, ?_⟩) hs
    · exact fun j => (hc.passes n).abs j.term ▸ rfl
    · exact fun j => (hc.passes n).arg j.term ▸ rfl
    · rintro _ g s i rfl hs
      exact ih hs

theorem Counts.unfailing_results (hc : c.Counts d) (i : Nat) :
    (c.results o env .unbounded g.term).Unfailing js i := by
  show (instances g.term (solve c o (some .endless) env c.horizon c.start g.term .empty)).Unfailing js i
  rw [hc.start, hc.horizon]
  refine Always.bind ((hc.always_solve _ d Subst.acyclic_empty).mono fun i r _ hr => ?_)
  rw [hr.instantiate?_eq]
  exact .one trivial

/-- The same count on both sides. -/
def SameCount (x x' : Level) : Prop := ∃ k : Int, x = .count k ∧ x' = .count k

/-- Two controls that count down together, the first of them stricter, read to the end. -/
theorem read_results_stricter (hc : c.Counts d) (hc' : c'.Counts d) (h : c.Stricter c' SameCount)
    (o : Options) (env : Environment) (g : Judgment) (js : List Judgment) {i i' : Nat} (hi : n ≤ i)
    (hi' : n ≤ i') (hg : g.term.Settled n) (henv : env.Settled n) :
    let small := (c.results o env .unbounded g.term).read none ⟨js, i⟩
    let large := (c'.results o env .unbounded g.term).read none ⟨js, i'⟩
    small.status = .ended ∧ large.status = .ended ∧ ∃ ρ : Renaming, ρ.Spares false n ∧
      (small.results.toList.map (Term.rename ρ)).Sublist large.results.toList := by
  have hsyms : ∀ t : Term, t.SymsSettled false n := fun t c _ h => by cases h
  let l := Pairing.start false n
  have hl := l.growsTo_raise hi hi'
  have hquery := (Judgment.image_start hg (hsyms g.term)).mono hl
  refine Embeds.read (p := .ordered) hi hi' (hc.unfailing_results i) (hc'.unfailing_results i')
    (.instances ?_ hquery.term)
  rw [solutions, solutions, hc.start, hc'.start, hc.horizon, hc'.horizon]
  refine embeds_solve h id _ _ (d + 1) ⟨d, rfl, rfl⟩ (Subst.image_empty _) hquery (fun j hj => ?_) ?_
  · exact (Judgment.kept_start (hsyms j.term)).mono hl
  · exact (Environment.image_start henv fun j _ => hsyms j.term).mono hl

/-! ### Shapes -/

theorem Draws.bind_ite (d : Draws Bool) : (d.bind fun b => if b then .ret true else .ret false) = d := by
  induction d with
  | ret b => cases b <;> rfl
  | raise e => rfl
  | draw d ih => exact congrArg Draws.draw (funext ih)

theorem stop_ofDepthAndShape (d : Nat) (p : Term) (mode : Fit) (t : Term) (k : Int) :
    (ofDepthAndShape d p mode).stop t (.count k) =
      if k ≤ 0 then .ret true else StopTest.shaped p mode t (.count k) := by
  show (if decide (k ≤ 0) = true then Draws.ret true else (StopTest.shaped p mode t (.count k)).bind _) = _
  by_cases hk : k ≤ 0
  · rw [if_pos hk, if_pos (decide_eq_true hk)]
  · rw [if_neg hk, if_neg (by simpa using hk)]
    exact Draws.bind_ite _

theorem run_shaped_instanceOf (j : Judgment) (x : Level) (m : Nat) :
    ((StopTest.shaped p .instanceOf j.term x).run m).1 = .ok true ↔
      ∃ r, Subst.empty.instance? p j.statement = some r := by
  show Except.ok (Subst.empty.instance? p j.statement).isSome = Except.ok true ↔ _
  rw [Except.ok.injEq, Option.isSome_iff_exists]

theorem run_shaped_unifiable (j : Judgment) (x : Level) (m : Nat) :
    ((StopTest.shaped p .unifiable j.term x).run m).1 = .ok true ↔
      ∃ r, Subst.empty.unify j.statement (p.tag (ending m)) = .ok r := by
  have hitem : j.term.item 2 = .ok j.statement := rfl
  simp only [StopTest.shaped, hitem, Draws.ofExcept, Draws.bind, Draws.run]
  cases h : Subst.empty.unify j.statement (p.tag (ending m)) with
  | ok r => exact iff_of_true rfl ⟨r, rfl⟩
  | error x => cases x <;> exact iff_of_false (fun h => by cases h) fun ⟨_, h⟩ => by cases h

theorem counts_ofDepth (d : Nat) : (ofDepth d).Counts d where
  start := rfl
  horizon := rfl
  stop j n := by
    rw [stop_ofDepth]
    exact fun h => decide_eq_true h
  passes := passes_ofDepth d

theorem counts_ofDepthAndShape (d : Nat) (p : Term) (mode : Fit) : (ofDepthAndShape d p mode).Counts d where
  start := rfl
  horizon := rfl
  stop j n := by
    rw [stop_ofDepthAndShape]
    split
    · exact fun _ => rfl
    · next hn => exact (returns_shaped p mode j _).mono fun _ _ h => absurd (h ▸ Int.le_refl 0) hn
  passes n := ⟨(passes_ofDepth d n).abs, (passes_ofDepth d n).arg⟩

/-- Both contexts are one less. -/
theorem sameCount_decrement {t t' : Term} {x y x' y' : Level} {m m' : Nat} (hx : SameCount x x')
    (hy : ((Update.decrement.run t x).run m).1 = .ok y)
    (hy' : ((Update.decrement.run t' x').run m').1 = .ok y') : SameCount y y' := by
  obtain ⟨k, rfl, rfl⟩ := hx
  cases hy
  cases hy'
  exact ⟨k - 1, rfl, rfl⟩

/-- A match of the statement leads to a unification with the pattern renamed. -/
theorem stricter_unifiable (d : Nat) (p : Term) :
    (ofDepthAndShape d p .unifiable).Stricter (ofDepthAndShape d p .instanceOf) SameCount where
  stop := by
    rintro l g g' _ _ hg ⟨k, rfl, rfl⟩ h
    rw [stop_ofDepthAndShape] at h ⊢
    split
    · rfl
    · next hk =>
      rw [if_neg hk, run_shaped_instanceOf] at h
      obtain ⟨r, hr⟩ := h
      rw [run_shaped_unifiable]
      have hoverlap := hg.statement.overlaps (Subst.overlaps_of_instance? hr)
      exact (Term.exists_unify_tag_iff (hg.statement.tag_notMem (Nat.le_refl _))).2 hoverlap
  abs _ _ _ _ _ _ _ _ := sameCount_decrement
  arg _ _ _ _ _ _ _ _ := sameCount_decrement

/-- Where the count is spent, a pattern makes no difference. -/
theorem stricter_ofDepthAndShape (d : Nat) (p : Term) (mode : Fit) :
    (ofDepthAndShape d p mode).Stricter (ofDepth d) SameCount where
  stop := by
    rintro l g g' _ _ _ ⟨k, rfl, rfl⟩ h
    rw [stop_ofDepthAndShape, if_pos]
    · rfl
    · exact of_decide_eq_true (Except.ok.inj h)
  abs _ _ _ _ _ _ _ _ := sameCount_decrement
  arg _ _ _ _ _ _ _ _ := sameCount_decrement

/-- One result after the other, what is found where statements that unify with the pattern are cut off is found
where only its instances are, and that is found by the count alone, each time under one renaming of the
variables drawn. -/
theorem read_results_ofDepthAndShape (d : Nat) (pattern : Term) (o : Options) (env : Environment)
    (g : Judgment) (js : List Judgment) {i₁ i₂ i₃ : Nat} (h₁ : n ≤ i₁) (h₂ : n ≤ i₂) (h₃ : n ≤ i₃)
    (hg : g.term.Settled n) (henv : env.Settled n) :
    let unifiable := ((ofDepthAndShape d pattern .unifiable).results o env .unbounded g.term).read none ⟨js, i₁⟩
    let instances := ((ofDepthAndShape d pattern .instanceOf).results o env .unbounded g.term).read none ⟨js, i₂⟩
    let plain := ((ofDepth d).results o env .unbounded g.term).read none ⟨js, i₃⟩
    unifiable.status = .ended ∧ instances.status = .ended ∧ plain.status = .ended ∧
    (∃ ρ : Renaming, ρ.Spares false n ∧
      (unifiable.results.toList.map (Term.rename ρ)).Sublist instances.results.toList) ∧
    ∃ ρ : Renaming, ρ.Spares false n ∧
      (instances.results.toList.map (Term.rename ρ)).Sublist plain.results.toList := by
  have hcounts := counts_ofDepthAndShape d pattern
  obtain ⟨hended₁, hended₂, hfound⟩ := read_results_stricter (hcounts .unifiable) (hcounts .instanceOf)
    (stricter_unifiable d pattern) o env g js h₁ h₂ hg henv
  obtain ⟨-, hended₃, hfound'⟩ := read_results_stricter (hcounts .instanceOf) (counts_ofDepth d)
    (stricter_ofDepthAndShape d pattern .instanceOf) o env g js h₂ h₃ hg henv
  exact ⟨hended₁, hended₂, hended₃, hfound, hfound'⟩

/-- `(-> $u_3 $v)`, written with a name that a draw may come to. -/
def someArrow : Term := .arrow [.ofText "$u_3"] (.ofText "$v")

/-- Over `f : (-> $t (L $t))` and `a : A`, with `e : $u` assumed, two applications on top of each other make 25
judgments, 17 where no arrow is looked for by an application, and where nothing is looked for that may become an
arrow, there are the three known ones. -/
theorem read_results_ofDepthAndShape_someArrow : anything.term.Settled 0 ∧ withE.Settled 0 ∧
    let w : World := ⟨[Backward.listing, Backward.inA], 0⟩
    let unifiable := ((ofDepthAndShape 2 someArrow .unifiable).results {} withE .unbounded anything.term).read none w
    let instances := ((ofDepthAndShape 2 someArrow .instanceOf).results {} withE .unbounded anything.term).read none w
    let plain := ((ofDepth 2).results {} withE .unbounded anything.term).read none w
    unifiable.results.size = 3 ∧ instances.results.size = 17 ∧ plain.results.size = 25 ∧
    (∃ ρ : Renaming, ρ.Spares false 0 ∧
      (unifiable.results.toList.map (Term.rename ρ)).Sublist instances.results.toList) ∧
    ∃ ρ : Renaming, ρ.Spares false 0 ∧
      (instances.results.toList.map (Term.rename ρ)).Sublist plain.results.toList := by
  have hg : anything.term.Settled 0 := Term.settled_of_underscore_notMem (by decide) 0
  have henv : withE.Settled 0 :=
    List.forall_mem_singleton.2 (Term.settled_of_underscore_notMem (by decide) 0)
  have hle := Nat.le_refl 0
  obtain ⟨-, -, -, hfound, hfound'⟩ := read_results_ofDepthAndShape 2 someArrow {} withE anything
    [Backward.listing, Backward.inA] hle hle hle hg henv
  exact ⟨hg, henv, by decide +kernel, by decide +kernel, by decide +kernel, hfound, hfound'⟩

end Control
end ProofSearch
