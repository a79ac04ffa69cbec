import ProofSearch.Proofs.Backward.Again
import ProofSearch.Proofs.Rounds.Novel

/-!
# Committing what a search gives when it is made again

The results of a search that is made twice differ in the names drawn. What a variable is called makes no
difference to the store, but the name of a symbol does: an abstraction that is found again has a bound symbol of
its own (`read_commit_identity`). So of the second results some may go in behind the first, but none that has no
symbol drawn by the second search (`read_commit_repeated`).
-/

namespace ProofSearch.Rounds
open Search
variable {o : SearchOptions} {env : Environment} {q : Judgment} {w : World}

/-- When a search has been made twice before anything is put in, its results are the same but for the names
drawn. Once the first results are in, a commit of the second ones puts in such judgments only as hold a symbol
that the second search has drawn, and so none at all where bound variables get no symbols. -/
theorem read_commit_repeated (ha : o.arities.broken = false) (d : Nat) (verbose : Bool) (w : World)
    (hq : q.term.Settled w.drawn) (henv : env.Settled w.drawn)
    (hsyms : ∀ j ∈ q :: (env.entries ++ w.judgments), j.term.SymsSettled o.lambdaIntro w.drawn) :
    let once := (Backward.results o d env q.term).read none w
    let again := (Backward.results o d env q.term).read none once.world
    let first := (commit verbose once.results.toList).read none again.world
    let second := (commit verbose again.results.toList).read none first.world
    (once.status = .ended ∧ again.status = .ended ∧ first.status = .ended ∧ second.status = .ended) ∧
    (∃ ρ : Renaming, ρ.Spares o.lambdaIntro w.drawn ∧
      again.results.toList = once.results.toList.map (Term.rename ρ)) ∧
    ∃ new : List Judgment, second.results = #[new.map Judgment.term] ∧
      second.world.judgments = first.world.judgments ++ new ∧
      (∀ j ∈ new, ∃ i, once.world.drawn ≤ i ∧ i < again.world.drawn ∧ Sym.drawn i ∈ j.term.syms) ∧
      (o.lambdaIntro = false → new = []) := by
  intro once again first second
  obtain ⟨hgrows, hstore, items, hitems, hset⟩ := Backward.exists_read_results (w := w) ha d henv hq
  obtain ⟨hgrows', -, items', hitems', hset'⟩ := Backward.exists_read_results (w := once.world) ha d
    (henv.mono hgrows.drawn_le) (hq.mono hgrows.drawn_le)
  obtain ⟨hended, hended', ρ, hρ, hrenamed, hkept⟩ :=
    Backward.read_results_again ha d hstore (Nat.le_refl _) hgrows.drawn_le hq henv hsyms
  obtain ⟨-, hended₁, hgrows₁, hstore₁⟩ := read_commit_admitted (w := again.world) verbose fun j hj =>
    (hset j hj).mono hgrows'.drawn_le
  rw [← hitems] at hended₁ hgrows₁ hstore₁
  obtain ⟨hresults, hended₂, -, hstore₂⟩ := read_commit_admitted (w := first.world) verbose fun j hj =>
    (hset' j hj).mono hgrows₁.drawn_le
  rw [← hitems'] at hresults hended₂ hstore₂
  have hdrawn : ∀ j ∈ admitted first.world.judgments items', ∃ c ∈ j.term.syms, o.lambdaIntro = true ∧
      ∃ i, once.world.drawn ≤ i ∧ i < again.world.drawn ∧ c = Sym.drawn i := by
    intro j hj
    have hmem : j.term ∈ (items.map Judgment.term).map (Term.rename ρ) := by
      rw [← hitems, ← hrenamed, hitems']
      exact List.mem_map_of_mem ((admitted_sublist _ _).subset hj)
    obtain ⟨_, ht, hjt⟩ := List.mem_map.1 hmem
    obtain ⟨i, hi, rfl⟩ := List.mem_map.1 ht
    have hheld : i.HeldBy first.world.judgments := by
      rw [hstore₁]
      exact heldBy_append_admitted hi
    -- were all symbols of `i` left as they are, the store would hold `j` as well
    by_contra hnone
    refine (novel_admitted _ _).apart j hj ((Judgment.heldBy_rename_iff hjt.symm fun c hc => ?_).2 hheld)
    rcases hkept i.term (hitems ▸ ht) c hc with hsame | ⟨hl, m, hm, hm', hsym⟩
    · exact hsame
    · exact absurd ⟨_, hjt ▸ Term.sym_mem_syms_rename hc, hl, m, hm, hm', hsym⟩ hnone
  refine ⟨⟨hended, hended', hended₁, hended₂⟩, ⟨ρ, hρ, hrenamed⟩, _, hresults, hstore₂, fun j hj => ?_, ?_⟩
  · obtain ⟨_, hc, -, i, hi, hi', rfl⟩ := hdrawn j hj
    exact ⟨i, hi, hi', hc⟩
  · intro hl
    refine List.eq_nil_iff_forall_not_mem.2 fun j hj => ?_
    obtain ⟨_, -, hl', -⟩ := hdrawn j hj
    rw [hl] at hl'
    cases hl'

/-- Of the three functions from `A`, found twice over, `f` goes in neither time, and the two abstractions go in
both times. -/
theorem read_commit_repeated_fromA :
    let o : SearchOptions := { lambdaIntro := true }
    let q := Backward.fromA
    let w : World := ⟨[Backward.listing], 0⟩
    q.term.Settled 0 ∧ (∀ j ∈ q :: w.judgments, j.term.SymsSettled true 0) ∧
    let once := (Backward.results o 1 {} q.term).read none w
    let again := (Backward.results o 1 {} q.term).read none once.world
    let first := (commit false once.results.toList).read none again.world
    let second := (commit false again.results.toList).read none first.world
    again.results.size = 3 ∧ ∃ new : List Judgment, new.length = 2 ∧ second.results = #[new.map Judgment.term] ∧
      second.world.judgments = first.world.judgments ++ new ∧
      ∀ j ∈ new, ∃ i, once.world.drawn ≤ i ∧ i < again.world.drawn ∧ Sym.drawn i ∈ j.term.syms := by
  intro o q w
  have hq : q.term.Settled 0 := Term.settled_of_underscore_notMem (by decide) 0
  have hplain : ∀ j ∈ q :: w.judgments, ∀ c ∈ j.term.syms, c.text.toList.head? ≠ some 'x' := by decide
  have hsyms : ∀ j ∈ q :: w.judgments, j.term.SymsSettled true 0 := fun j hj =>
    Term.symsSettled_of_head_ne (hplain j hj) 0
  refine ⟨hq, hsyms, ?_⟩
  have henv : ({} : Environment).Settled 0 := fun _ h => absurd h List.not_mem_nil
  obtain ⟨-, -, new, hnew, hstore, hdrawn, -⟩ := read_commit_repeated (o := o) rfl 1 false w hq henv hsyms
  intro once again first second
  have hsize : again.results.size = 3 := by decide +kernel
  have hlen : second.results.map List.length = #[2] := by decide +kernel
  dsimp only [second, first, again, once] at hsize hlen ⊢
  rw [hnew] at hlen
  exact ⟨hsize, new, by simpa using hlen, hnew, hstore, hdrawn⟩

/-- The identity is found twice, and both times it goes in: its bound variable is `x7` first and then `x15`. -/
theorem read_commit_identity :
    let o : SearchOptions := { lambdaIntro := true }
    let onA : Term := .arrow [.ofText "A"] (.ofText "A")
    let q : Judgment := ⟨.ofText "$p", onA⟩
    let identity (x : String) : Judgment := ⟨.abstraction (.ofText x) (.ofText x), onA⟩
    o.arities.broken = false ∧ q.term.Settled 0 ∧ q.term.SymsSettled true 0 ∧
    let once := (Backward.results o 1 {} q.term).read none {}
    let again := (Backward.results o 1 {} q.term).read none once.world
    let first := (commit false once.results.toList).read none again.world
    let second := (commit false again.results.toList).read none first.world
    first.results = #[[(identity "x7").term]] ∧ second.results = #[[(identity "x15").term]] ∧
    second.world.judgments = [identity "x7", identity "x15"] := by
  have hplain : ∀ c ∈ (Judgment.mk (.ofText "$p") (.arrow [.ofText "A"] (.ofText "A"))).term.syms,
      c.text.toList.head? ≠ some 'x' := by decide
  refine ⟨rfl, Term.settled_of_underscore_notMem (by decide) 0, Term.symsSettled_of_head_ne hplain 0, ?_⟩
  decide +kernel

end ProofSearch.Rounds
