import ProofSearch.Proofs.Rounds.Commit

/-!
# A commit is greedy

Which items a commit puts in depends on their order, since overlapping is no equivalence: a judgment that
overlaps with two others keeps both out when it comes first, and is kept out itself when it comes last. But the
verdict on an item depends on nothing else, in particular not on the numbers with which the stored judgments are
renamed when the store is asked; so a commit that is made again puts in nothing (`read_commit`).
-/

namespace ProofSearch.Rounds
open Search

/-- A commit puts in, in the order of the items, each that overlaps with nothing stored before and with nothing
put in before it, and comes back with just those. The store then holds every item, and when the same items are
committed once more nothing goes in. -/
theorem read_commit (verbose : Bool) (w : World) (items : List Judgment)
    (hitems : ∀ j ∈ items, j.term.Settled w.drawn) :
    let new := admitted w.judgments items
    let first := (commit verbose (items.map Judgment.term)).read none w
    let again := (commit verbose (items.map Judgment.term)).read none first.world
    (first.results = #[new.map Judgment.term] ∧ first.status = .ended ∧
      first.world.judgments = w.judgments ++ new) ∧
    (∀ j ∈ items, let held := (holds j.term : Search Note Bool).read none first.world
      held.results = #[true] ∧ held.status = .ended) ∧
    again.results = #[[]] ∧ again.status = .ended ∧ again.world.judgments = first.world.judgments := by
  intro new first again
  obtain ⟨hresults, hended, hgrows, hstore⟩ := read_commit_admitted verbose hitems
  obtain ⟨hresults', hended', -, hstore'⟩ := read_commit_admitted (w := first.world) verbose fun j hj =>
    (hitems j hj).mono hgrows.drawn_le
  have hheld : ∀ j ∈ items, j.HeldBy first.world.judgments := fun j hj => by
    rw [hstore]
    exact heldBy_append_admitted hj
  have hnothing : admitted first.world.judgments items = [] := admitted_eq_nil_iff.2 hheld
  rw [hnothing] at hresults' hstore'
  refine ⟨⟨hresults, hended, hstore⟩, fun j hj => ?_, hresults', hended', hstore'.trans (List.append_nil _)⟩
  have hasked := returns_holds (ν := Note) (F := fun _ => False) (I := fun _ => True)
    ((hitems j hj).mono hgrows.drawn_le)
  obtain ⟨held, hresult, hend, -, hiff⟩ := hasked.exists_read
  rw [hiff.2 (hheld j hj)] at hresult
  exact ⟨hresult, hend⟩

/-- Of `a : A`, `$p : A` and `b : A`, committed in this order, the second is kept out by the first, and the third
goes in although the second overlaps with it. -/
theorem read_commit_between :
    let items : List Judgment := ["a", "$p", "b"].map fun p => ⟨.ofText p, .ofText "A"⟩
    let first := (commit true (items.map Judgment.term)).read none {}
    let again := (commit true (items.map Judgment.term)).read none first.world
    (∀ j ∈ items, j.term.Settled 0) ∧ admitted [] items = [items[0], items[2]] ∧
    first.results = #[[items[0].term, items[2].term]] ∧
    (∀ j ∈ items, ((holds j.term : Search Note Bool).read none first.world).results = #[true]) ∧
    again.results = #[[]] ∧ again.world.judgments = [items[0], items[2]] := by
  intro items first again
  have hplain : ∀ j ∈ items, ∀ x ∈ j.term.vars, '_' ∉ x.text.toList := by decide
  have hitems : ∀ j ∈ items, j.term.Settled 0 := fun j hj => Term.settled_of_underscore_notMem (hplain j hj) 0
  have hnew : admitted [] items = [items[0], items[2]] := by decide +kernel
  obtain ⟨⟨hresults, -, hstore⟩, hheld, hagain, -, hsame⟩ := read_commit true {} items hitems
  rw [hnew] at hresults hstore
  rw [hstore] at hsame
  dsimp only [again, first]
  exact ⟨hitems, hnew, hresults, fun j hj => (hheld j hj).1, hagain, hsame⟩

end ProofSearch.Rounds
