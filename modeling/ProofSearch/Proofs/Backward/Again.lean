import ProofSearch.Proofs.Backward.Monotone

/-!
# A search made again

The numbers drawn are all that one search leaves behind for the next. Made again over the same judgments, it gives
the same results one after the other, with other numbers in the names drawn (`read_results_again`). The symbols
among these names are of numbers that the search has drawn itself (`symsSettled_results`).
-/

namespace ProofSearch.Backward
open Search
variable {o : SearchOptions} {w w' : World} {env : Environment} {q : Judgment} {n : Nat}

/-- Read over the same judgments, the results of the first search have their images among those of the second. -/
theorem read_results_found (ha : o.arities.broken = false) (d : Nat) (hjs : w'.judgments = w.judgments)
    (hn : n ≤ w.drawn) (hn' : n ≤ w'.drawn) (hq : q.term.Settled n) (henv : env.Settled n)
    (hsyms : ∀ j ∈ q :: (env.entries ++ w.judgments), j.term.SymsSettled o.lambdaIntro n) :
    let once := (results o d env q.term).read none w
    let again := (results o d env q.term).read none w'
    once.status = .ended ∧ again.status = .ended ∧ ∃ (g : Pairing o.lambdaIntro) (us : List Term),
      ((Pairing.start o.lambdaIntro n).raise hn hn').GrowsTo g ∧ g.left = once.world.drawn ∧
      g.right = again.world.drawn ∧ List.Forall₂ (Term.Image g) once.results.toList us ∧
      us.Sublist again.results.toList := by
  obtain ⟨hsymsq, hsyms⟩ := List.forall_mem_cons.1 hsyms
  obtain ⟨hsymsenv, hsymsjs⟩ := List.forall_mem_append.1 hsyms
  have hpicks : Placement.ordered.Picks w.judgments w'.judgments := hjs ▸ .refl _ _
  have hscope := And.intro (fun j hj => Judgment.kept_start (hsymsjs j hj)) (Environment.image_start henv hsymsenv)
  exact Embeds.read_images hn hn' (unfailing_results ha d env q _) (unfailing_results ha d env q _)
    (embeds_results ⟨.refl _ _, id, ha, ha⟩ (Nat.le_refl d) hn hn' (scopes_image hpicks) hscope q hq hsymsq)

/-- Each result has its image in the same place, all under one pairing of the numbers that the two have drawn. -/
theorem read_results_images (ha : o.arities.broken = false) (d : Nat) (hjs : w'.judgments = w.judgments)
    (hn : n ≤ w.drawn) (hn' : n ≤ w'.drawn) (hq : q.term.Settled n) (henv : env.Settled n)
    (hsyms : ∀ j ∈ q :: (env.entries ++ w.judgments), j.term.SymsSettled o.lambdaIntro n) :
    let once := (results o d env q.term).read none w
    let again := (results o d env q.term).read none w'
    once.status = .ended ∧ again.status = .ended ∧ ∃ g : Pairing o.lambdaIntro,
      ((Pairing.start o.lambdaIntro n).raise hn hn').GrowsTo g ∧ g.left = once.world.drawn ∧
      g.right = again.world.drawn ∧ List.Forall₂ (Term.Image g) once.results.toList again.results.toList := by
  intro once again
  obtain ⟨hended, hended', g, us, hgrows, hleft, hright, himages, hus⟩ :=
    read_results_found ha d hjs hn hn' hq henv hsyms
  -- read the other way round, the second search gives no more than the first
  obtain ⟨-, -, _, us', -, -, -, himages', hus'⟩ :=
    read_results_found ha d hjs.symm hn' hn hq henv (hjs ▸ hsyms)
  have hle : again.results.toList.length ≤ us.length := by
    rw [List.Forall₂.length_eq himages', ← List.Forall₂.length_eq himages]
    exact List.Sublist.length_le hus'
  obtain rfl : us = again.results.toList := List.Sublist.eq_of_length_le hus hle
  exact ⟨hended, hended', g, hgrows, hleft, hright, himages⟩

/-- Made again, a search gives the same results in the same order, up to one renaming of the names drawn; the
symbols that this puts into the results are of numbers drawn the second time. -/
theorem read_results_again (ha : o.arities.broken = false) (d : Nat) (hjs : w'.judgments = w.judgments)
    (hn : n ≤ w.drawn) (hn' : n ≤ w'.drawn) (hq : q.term.Settled n) (henv : env.Settled n)
    (hsyms : ∀ j ∈ q :: (env.entries ++ w.judgments), j.term.SymsSettled o.lambdaIntro n) :
    let once := (results o d env q.term).read none w
    let again := (results o d env q.term).read none w'
    once.status = .ended ∧ again.status = .ended ∧ ∃ ρ : Renaming, ρ.Spares o.lambdaIntro n ∧
      again.results.toList = once.results.toList.map (Term.rename ρ) ∧
      ∀ t ∈ once.results.toList, ∀ c ∈ t.syms, ρ.sym c = c ∨
        o.lambdaIntro = true ∧ ∃ i, w'.drawn ≤ i ∧ i < again.world.drawn ∧ ρ.sym c = Sym.drawn i := by
  intro once again
  obtain ⟨hended, hended', g, hgrows, -, hright, himages⟩ := read_results_images ha d hjs hn hn' hq henv hsyms
  obtain ⟨π, hπ⟩ := g.exists_follows
  have hfixed : ∀ i, i < n → π i = i := fun i hi => hgrows.follows hπ i i ⟨rfl, hi⟩
  refine ⟨hended, hended', .redraw o.lambdaIntro π, Renaming.spares_redraw hfixed, ?_, fun t ht c hc => ?_⟩
  · refine Eq.symm ?_
    rw [← List.forall₂_eq_eq_eq, List.forall₂_map_left_iff]
    exact himages.imp fun _ _ himage => himage π hπ
  · obtain ⟨t', himage⟩ := Term.exists_of_forall₂ himages ht
    rcases himage.sym_redraw hπ hc with hsame | ⟨hsymbols, i, j, hpair, rfl, hsym⟩
    · exact .inl hsame
    · rcases hgrows.fresh i j hpair with ⟨rfl, -⟩ | ⟨-, hj⟩
      · exact .inl hsym
      · exact .inr ⟨hsymbols, j, hj, hright ▸ (g.bounded i j hpair).2, hsym⟩

/-- No result has a symbol that is still to be drawn. -/
theorem symsSettled_results (ha : o.arities.broken = false) (d : Nat) (hn : n ≤ w.drawn)
    (hq : q.term.Settled n) (henv : env.Settled n)
    (hsyms : ∀ j ∈ q :: (env.entries ++ w.judgments), j.term.SymsSettled o.lambdaIntro n) :
    let once := (results o d env q.term).read none w
    ∀ t ∈ once.results.toList, t.SymsSettled o.lambdaIntro once.world.drawn := by
  intro once t ht
  obtain ⟨-, -, g, -, hleft, -, himages⟩ := read_results_images ha d rfl hn hn hq henv hsyms
  obtain ⟨t', himage⟩ := Term.exists_of_forall₂ himages ht
  exact hleft ▸ himage.symsSettled

end ProofSearch.Backward
