import ProofSearch.Proofs.Rounds.Retained

/-!
# How far rounds of lemmas come

A round puts in the judgments that are derivable within its depth, save those that overlap with one stored; and
what they overlap with may be anything. But a judgment without variables that is an instance of no other derivable
one is stored as it stands after the round (`Climb`). So whatever is one further with each such round is as far
as there are rounds in the end, also where some are not run because one before them brought nothing new
(`Rounds.returns_lemmas_climb`).
-/

namespace ProofSearch
variable {o : SearchOptions} {is js : List Judgment} {d : Nat} {i j : Judgment} {w : World} {F : Fault → Prop}
variable {I : List Judgment → Prop}

/-- A judgment without variables that is derivable within the height, and an instance of no other that is. -/
structure Rigid (o : SearchOptions) (js : List Judgment) (d : Nat) (j : Judgment) : Prop where
  derivable : Derivable o js d {} j
  ground : ∀ f, j.subst f = j
  alone : ∀ (i : Judgment) (f : Var → Term), Derivable o js d {} i → i.subst f = j → i = j

/-- Whatever overlaps with it is the judgment itself. -/
theorem Rigid.eq_of_overlaps (hj : Rigid o js d j) (hi : Derivable o js d {} i) (h : j.Overlaps i) : i = j := by
  obtain ⟨f, g, he⟩ := h
  have hig : i.subst g = j.subst f := Judgment.term_injective he.symm
  exact hj.alone i g hi (hig.trans (hj.ground f))

/-- What a round for all judgments does to the store. -/
structure Climb (o : SearchOptions) (d : Nat) (js js' : List Judgment) : Prop where
  kept : js ⊆ js'
  derivable : ∀ i ∈ js', Derivable o js d {} i
  rigid : ∀ j, Rigid o js d j → j ∈ js'

namespace Rounds
open Search
open Request (openPattern settled_openPattern)

/-- Every judgment is an instance of the pattern. -/
theorem exists_subst_openPattern (j : Judgment) : ∃ f, openPattern.subst f = j :=
  ⟨fun v => if v.text = "$prf" then j.proof else j.statement, rfl⟩

theorem always_results_openPattern (ha : o.arities.broken = false) (d n : Nat) :
    (Backward.results o d {} openPattern.term).Always js (fun _ => False)
      (fun m t => t.Judges fun i => i.term.Settled m ∧ Derivable o js d {} i) n := by
  have hproved : (Backward.results o d {} openPattern.term).Always js (fun _ => False) _ n :=
    Backward.always_results_proved (fun hb => absurd (ha.symm.trans hb) Bool.false_ne_true) d {} openPattern n
  refine hproved.mono fun m t hm ht => ?_
  obtain ⟨r, hr, rfl⟩ := ht
  have hrset := hr.settled_end (settled_openPattern m) fun _ h => absurd h List.not_mem_nil
  exact ⟨openPattern.subst r.value, rfl, hrset.subst_value hr.acyclic (settled_openPattern m),
    hr.derivable _ (List.mem_singleton_self _)⟩

/-- All that is derivable is found, as an instance of something that is derivable. -/
theorem returns_collapse_results (ho : o.lambdaIntro = false) (ha : o.arities.broken = false) :
    (Backward.results o d {} openPattern.term).collapse.Returns F I
      (fun w' ts => w'.judgments = w.judgments ∧
        (∀ t ∈ ts, t.Judges fun i => i.term.Settled w'.drawn ∧ Derivable o w.judgments d {} i) ∧
        ∀ j, Derivable o w.judgments d {} j → ∃ t ∈ ts, ∃ g, t.subst g = j.term) w := by
  have hall : (Backward.results o d {} openPattern.term).Always w.judgments (fun _ => False) _ w.drawn :=
    always_results_openPattern ha d w.drawn
  have hfound : ∀ j : { j // Derivable o w.judgments d {} j },
      (Backward.results o d {} openPattern.term).collapse.Returns F I
        (fun _ ts => ∃ t ∈ ts, ∃ _ : Nat, ∃ g, t.subst g = j.1.term) w := by
    rintro ⟨j, hj⟩
    obtain ⟨f, rfl⟩ := exists_subst_openPattern j
    have hgives := Backward.gives_results ho ha d (fun _ h => absurd h List.not_mem_nil)
      (settled_openPattern w.drawn) hj
    exact hgives.returns_collapse hall.unfailing
  refine (((hall.allow fun _ h => h.elim).returns_collapse).and_forall hfound).mono fun w' ts _ h => ?_
  obtain ⟨⟨hstore, hts⟩, hfound⟩ := h
  refine ⟨hstore, fun t ht => ?_, fun j hj => ?_⟩
  · obtain ⟨m, hm, h⟩ := hts t ht
    exact h.imp fun i hi => ⟨hi.1.mono hm, hi.2⟩
  · obtain ⟨t, ht, _, hg⟩ := hfound ⟨j, hj⟩
    exact ⟨t, ht, hg⟩

theorem returns_commit_climb (verbose : Bool) {items : List Term}
    (hitems : ∀ t ∈ items, t.Judges fun i => i.term.Settled w.drawn ∧ Derivable o w.judgments d {} i)
    (hfound : ∀ j, Derivable o w.judgments d {} j → ∃ t ∈ items, ∃ g, t.subst g = j.term) :
    (commit verbose items).Returns F (fun _ => True)
      (fun w' new => Climb o d w.judgments w'.judgments ∧ (new = [] → w'.judgments = w.judgments)) w := by
  have hheld : (commit verbose items).Returns F (fun _ => True) _ w :=
    returns_commit (fun _ _ _ _ => trivial) trivial verbose fun t ht => (hitems t ht).imp fun _ h => h.1
  have hderivable : (commit verbose items).Ensures F _ _ w :=
    ensures_commit (Q := Derivable o w.judgments d {}) (fun _ h => h) (fun _ => .of_mem) verbose fun t ht =>
      (hitems t ht).imp fun _ h => h.2
  refine (hheld.and_ensures hderivable).mono fun w' new _ h => ?_
  obtain ⟨⟨hadds, hheld⟩, hderivable, -⟩ := h
  refine ⟨⟨hadds.subset, hderivable, fun j hj => ?_⟩, fun hnew => ?_⟩
  · obtain ⟨t, ht, g, hg⟩ := hfound j hj.derivable
    obtain ⟨i, rfl, -, hi⟩ := hitems t ht
    obtain ⟨i', he, k, hk, hik⟩ := hheld _ ht
    obtain rfl : i = i' := Judgment.term_injective he
    obtain rfl : i = j := hj.alone i g hi (Judgment.term_injective hg)
    exact hj.eq_of_overlaps (hderivable k hk) hik ▸ hk
  · obtain ⟨added, hstore, -, hterms⟩ := hadds
    rw [hnew] at hterms
    rw [hstore, List.map_eq_nil_iff.1 hterms.symm, List.append_nil]

/-- What is one further with each round is as far as there are rounds. -/
theorem returns_lemmas_climb (ho : o.lambdaIntro = false) (ha : o.arities.broken = false)
    {R : Nat → List Judgment → Prop} (hR : ∀ n js js', R n js → Climb o d js js' → R (n + 1) js')
    (verbose : Bool) (r number n : Nat) (hw : R n w.judgments) :
    (lemmas (Backward.results o d {} openPattern.term) verbose r number).Returns F (fun _ => True)
      (fun w' _ => R (n + r) w'.judgments) w := by
  induction r generalizing number n w with
  | zero => exact .one hw
  | succ r ih =>
    refine (returns_collapse_results ho ha).bind fun w₁ results _ h => .noteIf ?_
    obtain ⟨hstore, hitems, hfound⟩ := h
    rw [← hstore] at hitems hfound hw
    refine (returns_commit_climb verbose hitems hfound).bind fun w₂ new _ h => ?_
    obtain ⟨hclimb, hnone⟩ := h
    show Returns F _ _ (if _ then _ else _) w₂
    split
    · next hempty =>
      -- a round like this one would bring nothing new again, as often as it were run
      have hsame := hnone (List.isEmpty_iff.1 hempty)
      rw [hsame] at hclimb
      have hstays : ∀ k, R (n + k) w₁.judgments := fun k => by
        induction k with
        | zero => exact hw
        | succ k ih => exact hR _ _ _ ih hclimb
      exact .one (hsame ▸ hstays (r + 1))
    · rw [Nat.add_comm r, ← Nat.add_assoc]
      exact (ih (number + 1) (n + 1) (hR n _ _ hw hclimb)).map fun _ _ _ h => h

end Rounds

namespace Request
open Search
variable {o : Settings}

/-- What is read behind the rounds is the plain search, over a store as far as there were rounds. -/
theorem returns_proveWithLemmas_climb (ho : ∀ e, ¬ o.Faulty e) (henv : o.env = [])
    (hl : o.options.lambdaIntro = false) {R : Nat → List Judgment → Prop}
    (hR : ∀ n js js', R n js → Climb o.options d js js' → R (n + 1) js') (r : Nat) (q : Judgment)
    (hw : R 0 w.judgments) :
    (Request.open o (.proveWithLemmas (.int d) (.int r) q.term)).Returns F (fun _ => True)
      (fun w' t => R r w'.judgments ∧ t = (Backward.results o.options d {} q.term).map .term) w := by
  have hover : ∀ q, o.options.arities.broken = false ∧
      backwardOver o d q = .ok (Backward.results o.options d {} q) := fun q => by
    obtain ⟨hbroken, env, he, hover⟩ := exists_backwardOver ho d q
    obtain rfl : env = {} := congrArg Environment.mk (he.trans (by rw [Settings.entries, henv]; rfl))
    exact ⟨hbroken, hover⟩
  have hstep : backwardStep o d openPattern.term = Backward.results o.options d {} openPattern.term := by
    rw [backwardStep, (hover _).2]
    rfl
  have hlemmas := Rounds.returns_lemmas_climb (F := F) hl (hover openQuery).1 hR (o.verbose.getD false) r 1 0 hw
  rw [← hstep, Nat.zero_add] at hlemmas
  rw [Request.open, checkQuery_term]
  show (lemmaRounds o (.int d) (.int r) openPattern.term fun d _ => laterTerms (backwardOver o d q.term)).Returns F
    _ _ w
  unfold lemmaRounds
  rw [checkQuery_term]
  refine hlemmas.bind fun w' _ _ h => ?_
  show (laterTerms (backwardOver o d q.term)).Returns F _ _ w'
  rw [laterTerms, (hover q.term).2]
  exact .one ⟨h, rfl⟩

end Request
end ProofSearch
