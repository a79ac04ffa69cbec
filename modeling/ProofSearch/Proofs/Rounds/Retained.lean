import ProofSearch.Proofs.Backward.Monotone
import ProofSearch.Proofs.Rounds.Novel

/-!
# Rounds of lemmas lose no proof

The search behind rounds of lemmas is the plain one over a store that has grown. What has been put in carries
names drawn in the rounds, but stored judgments are renamed whenever they are read, so only the judgments that
were there before have to be free of the symbols still to be drawn: each of them is found again behind the
rounds, and what is added between the results are proofs by lemmas (`read_proveWithLemmas`).
-/

namespace ProofSearch

namespace Search
variable {ν α β : Type}

theorem readOn_map (f : α → β) (t : Search ν α) {as : Array α} {ns : Array ν} {w : World}
    (h : (t.readOn none as ns w).status = .ended) :
    ((t.map f).readOn none (as.map f) ns w).results = (t.readOn none as ns w).results.map f ∧
      ((t.map f).readOn none (as.map f) ns w).status = .ended := by
  induction t generalizing as ns w with
  | done => exact ⟨rfl, rfl⟩
  | fail e => cases h
  | give a k ih =>
    have hk : ((k ()).readOn none (as.push a) ns w).status = .ended := h
    replace hk := ih () hk
    rw [Array.map_push] at hk
    exact hk
  | draw k ih => exact ih _ h
  | look k ih => exact ih _ h
  | add j k ih => exact ih () h
  | note x k ih => exact ih () h

theorem read_map (f : α → β) {t : Search ν α} {w : World} (h : (t.read none w).status = .ended) :
    ((t.map f).read none w).results = (t.read none w).results.map f ∧
      ((t.map f).read none w).status = .ended := by
  have hread := readOn_map f t h
  rwa [Array.map_empty] at hread

end Search

def Answer.rename (ρ : Renaming) : Answer → Answer
  | term t => term (t.rename ρ)
  | subst s => subst (s.rename ρ)

namespace Request
open Search
variable {o : Settings} {q : Judgment} {d r n : Nat} {w : World}

theorem exists_backwardOver (ho : ∀ e, ¬ o.Faulty e) (d : Nat) (q : Term) :
    o.options.arities.broken = false ∧ ∃ env : Environment, env.entries = o.entries ∧
      backwardOver o d q = .ok (Backward.results o.options d env q) := by
  refine ⟨Bool.eq_false_iff.2 fun h => ho _ (.broken h), ?_⟩
  cases ht : backwardOver o d q with
  | error e => exact absurd (faulty_of_backwardOver ht) (ho e)
  | ok t =>
    obtain ⟨env, he, rfl⟩ := backwardOver_eq_ok ht
    exact ⟨env, he, rfl⟩

/-- Rounds of lemmas come to their end, and what is read behind them is the plain search. -/
theorem returns_proveWithLemmas (ho : ∀ e, ¬ o.Faulty e) (henv : ∀ j ∈ o.entries, j.term.Settled w.drawn)
    {t : Search Note Term} (ht : backwardOver o d q.term = .ok t) :
    (Request.open o (.proveWithLemmas (.int d) (.int r) q.term)).Returns (fun _ => False) (fun _ => True)
      (fun w' t' => w.GrowsTo w' ∧ t' = t.map .term) w := by
  rw [Request.open, checkQuery_term]
  refine returns_lemmaRounds (k := fun d _ => laterTerms (backwardOver o d q.term)) (fun _ _ _ _ => trivial)
    d r openPattern trivial (fun w' hw => ?_) fun w' new hw _ => ?_
  · have henv' : ∀ j ∈ o.entries, j.term.Settled w'.drawn := fun j hj => (henv j hj).mono hw.drawn_le
    exact (always_backwardStep_settled d henv' (settled_openPattern w'.drawn)).allow ho
  · rw [laterTerms, ht]
    exact .one ⟨hw, rfl⟩

theorem open_backward_eq (q : Judgment) {t : Search Note Term} (ht : backwardOver o d q.term = .ok t) :
    Request.open { o with verbose := none } (.backward (.int d) q.term) = one (t.map .term) := by
  show laterTerms (do let _ ← checkQuery q.term; backwardOver o d q.term) = _
  rw [checkQuery_term, ht]
  rfl

/-- Whatever the plain search proves is proved in the same order behind rounds of lemmas, among other results:
one renaming of the names drawn makes the results the same. -/
theorem read_proveWithLemmas (o : Settings) (ho : ∀ e, ¬ o.Faulty e) (d r : Nat) (q : Judgment)
    (js : List Judgment) {k k' : Nat} (hk : n ≤ k) (hk' : n ≤ k') (hq : q.term.Settled n)
    (henv : ∀ j ∈ o.entries, j.term.Settled n)
    (hsyms : ∀ j ∈ q :: (o.entries ++ js), j.term.SymsSettled o.options.lambdaIntro n) :
    let plain := (Request.open { o with verbose := none } (.backward (.int d) q.term)).read none ⟨js, k⟩
    let behind := (Request.open o (.proveWithLemmas (.int d) (.int r) q.term)).read none ⟨js, k'⟩
    plain.status = .ended ∧ behind.status = .ended ∧
    ∃ t t', plain.results = #[t] ∧ behind.results = #[t'] ∧
      let small := t.read none plain.world
      let large := t'.read none behind.world
      small.status = .ended ∧ large.status = .ended ∧ ∃ ρ : Renaming, ρ.Spares o.options.lambdaIntro n ∧
        (small.results.toList.map (Answer.rename ρ)).Sublist large.results.toList := by
  intro plain behind
  obtain ⟨hwhole, env, he, ht⟩ := exists_backwardOver ho d q.term
  have hplain : plain = ⟨#[(Backward.results o.options d env q.term).map .term], #[], ⟨js, k⟩, .ended⟩ :=
    congrArg (Search.read · none ⟨js, k⟩) (open_backward_eq q ht)
  obtain ⟨_, hbehind, hended, hgrows, rfl⟩ :=
    (returns_proveWithLemmas (w := ⟨js, k'⟩) (r := r) ho (fun j hj => (henv j hj).mono hk') ht).exists_read
  rw [hplain]
  refine ⟨rfl, hended, _, _, rfl, hbehind, ?_⟩
  have hpicks : Placement.ordered.Picks js behind.world.judgments := hgrows.isPrefix.sublist
  obtain ⟨hsmall, hlarge, ρ, hρ, hsub⟩ := Backward.read_results_picks (p := .ordered)
    ⟨.refl _ _, id, hwhole, hwhole⟩ (Nat.le_refl d) env q ⟨js, k⟩ behind.world hpicks hk
    (hk'.trans hgrows.drawn_le) hq (fun j hj => henv j (he ▸ hj)) (he ▸ hsyms)
  obtain ⟨hresults, hstatus⟩ := read_map Answer.term hsmall
  obtain ⟨hresults', hstatus'⟩ := read_map Answer.term hlarge
  refine ⟨hstatus, hstatus', ρ, hρ, ?_⟩
  rw [hresults, hresults', Array.toList_map, Array.toList_map, List.map_map]
  have hmap := List.Sublist.map Answer.term hsub
  rwa [List.map_map] at hmap

/-- Of the functions from `A` four are found at depth 1 where `a : A` is assumed, and 25 behind a round at that
depth: the four, and those that one more application makes of the judgments put in. -/
theorem read_proveWithLemmas_fromA :
    let o : Settings := { env := [Backward.inA.term], lambdaIntro := some true }
    let js := [Backward.listing]
    let q := Backward.fromA
    (∀ e, ¬ o.Faulty e) ∧ (∀ j ∈ q :: o.entries, j.term.Settled 0) ∧
    (∀ j ∈ q :: (o.entries ++ js), j.term.SymsSettled o.options.lambdaIntro 0) ∧
    let plain := (Request.open { o with verbose := none } (.backward (.int 1) q.term)).read none ⟨js, 0⟩
    let behind := (Request.open o (.proveWithLemmas (.int 1) (.int 1) q.term)).read none ⟨js, 0⟩
    ∃ t ∈ plain.results, ∃ t' ∈ behind.results,
      let small := t.read none plain.world
      let large := t'.read none behind.world
      small.results.size = 4 ∧ large.results.size = 25 ∧ ∃ ρ : Renaming, ρ.Spares true 0 ∧
        (small.results.toList.map (Answer.rename ρ)).Sublist large.results.toList := by
  intro o js q
  have ho : ∀ e, ¬ o.Faulty e := by
    rintro e (h | h | h) <;> cases h
  have hset : ∀ j ∈ q :: o.entries, j.term.Settled 0 := by
    have hplain : ∀ j ∈ q :: o.entries, ∀ x ∈ j.term.vars, '_' ∉ x.text.toList := by decide
    exact fun j hj => Term.settled_of_underscore_notMem (hplain j hj) 0
  have hsyms : ∀ j ∈ q :: (o.entries ++ js), j.term.SymsSettled o.options.lambdaIntro 0 := by
    have hplain : ∀ j ∈ q :: (o.entries ++ js), ∀ c ∈ j.term.syms, c.text.toList.head? ≠ some 'x' := by decide
    exact fun j hj => Term.symsSettled_of_head_ne (hplain j hj) 0
  obtain ⟨hq, henv⟩ := List.forall_mem_cons.1 hset
  refine ⟨ho, hset, hsyms, ?_⟩
  intro plain behind
  obtain ⟨-, -, t, t', ht, ht', -, -, hfound⟩ :=
    read_proveWithLemmas o ho 1 1 q js (Nat.le_refl 0) (Nat.le_refl 0) hq henv hsyms
  have hmem : t ∈ plain.results := ht ▸ Array.mem_singleton.2 rfl
  have hmem' : t' ∈ behind.results := ht' ▸ Array.mem_singleton.2 rfl
  have hsmall : ∀ t ∈ plain.results, (t.read none plain.world).results.size = 4 := by decide +kernel
  have hlarge : ∀ t ∈ behind.results, (t.read none behind.world).results.size = 25 := by decide +kernel
  exact ⟨t, hmem, t', hmem', hsmall t hmem, hlarge t' hmem', hfound⟩

end Request
end ProofSearch
