import ProofSearch.Proofs.Backward.Again
import ProofSearch.Proofs.Rounds.Novel
import ProofSearch.Proofs.Search.Fails

/-!
# Rounds of lemmas stop where nothing is new

A round that brings nothing new leaves behind the numbers it has drawn, and nothing else. The next one gives the
same results with other names drawn, and the store holds these as well, since no name in the store is one that is
still to be drawn (`Exhausted.again`). So no round behind it brings anything, and it is all one whether they are
run (`Request.read_lemmas_stop`).
-/

namespace ProofSearch
variable {o : SearchOptions} {env : Environment} {q : Judgment} {w w' : World} {d : Nat}

namespace Rounds
open Search

/-- One round: the results of the search are committed. -/
def round (search : Search Note Term) (verbose : Bool) (number : Nat) : Search Note (List Term) :=
  search.collapse.bind fun results =>
    noteIf verbose (.lemmaRound number results.length) fun _ => commit verbose results

/-- All of the rounds, whatever they bring; gives what was put in. -/
def everyRound (search : Search Note Term) (verbose : Bool) : (rounds number : Nat) → Search Note (List Term)
  | 0, _ => one []
  | n + 1, number =>
    (round search verbose number).bind fun new => (everyRound search verbose n (number + 1)).map (new ++ ·)

theorem lemmas_succ (search : Search Note Term) (verbose : Bool) (r number : Nat) :
    lemmas search verbose (r + 1) number = (round search verbose number).bind fun new =>
      if new.isEmpty then one [] else (lemmas search verbose r (number + 1)).map (new ++ ·) := by
  rw [round, bind_assoc]
  refine congrArg (Search.bind _) (funext fun results => ?_)
  cases verbose <;> rfl

end Rounds

open Search Rounds

/-- No name in the query, in the environment or in the store is one that is still to be drawn. -/
structure Clear (o : SearchOptions) (env : Environment) (q : Judgment) (w : World) : Prop where
  query : q.term.Settled w.drawn
  entries : env.Settled w.drawn
  syms : ∀ j ∈ q :: (env.entries ++ w.judgments), j.term.SymsSettled o.lambdaIntro w.drawn

theorem Clear.grow (h : Clear o env q w) (hw : w.drawn ≤ w'.drawn) {added : List Judgment}
    (hstore : w'.judgments = w.judgments ++ added)
    (hadded : ∀ j ∈ added, j.term.SymsSettled o.lambdaIntro w'.drawn) : Clear o env q w' where
  query := h.query.mono hw
  entries := h.entries.mono hw
  syms := by
    rw [hstore, ← List.append_assoc, ← List.cons_append]
    exact List.forall_mem_append.2 ⟨fun j hj => (h.syms j hj).mono hw, hadded⟩

/-- Whatever the search finds, the store holds it. -/
def Exhausted (o : SearchOptions) (d : Nat) (env : Environment) (q : Judgment) (w : World) : Prop :=
  ∀ t ∈ ((Backward.results o d env q.term).read none w).results.toList, t.Judges (·.HeldBy w.judgments)

/-- It stays so when numbers have been drawn. -/
theorem Exhausted.again (hx : Exhausted o d env q w) (ha : o.arities.broken = false) (h : Clear o env q w)
    (hjs : w'.judgments = w.judgments) (hn : w.drawn ≤ w'.drawn) : Exhausted o d env q w' := by
  intro t' ht'
  obtain ⟨-, -, items, hitems, -⟩ :=
    Backward.exists_read_results (w := w') ha d (h.entries.mono hn) (h.query.mono hn)
  obtain ⟨-, -, ρ, hρ, hrenamed, -⟩ :=
    Backward.read_results_again ha d hjs (Nat.le_refl _) hn h.query h.entries h.syms
  rw [hitems] at ht'
  obtain ⟨j, hj, rfl⟩ := List.mem_map.1 ht'
  rw [← hitems, hrenamed] at ht'
  obtain ⟨t, ht, hjt⟩ := List.mem_map.1 ht'
  obtain ⟨i, rfl, hi⟩ := hx t ht
  -- the search draws anew, but what is stored keeps its names
  have hkept : ∀ k ∈ w.judgments, ∀ c ∈ k.term.syms, ρ.sym c = c := fun k hk c hc =>
    hρ.sym c (h.syms k (List.mem_cons_of_mem q (List.mem_append_right _ hk)) c hc)
  exact ⟨j, rfl, hjs ▸ hi.rename hjt.symm hkept⟩

namespace Rounds
variable {F : Fault → Prop}

/-- A round puts in what it comes back with, which is nothing only if all was held before. -/
theorem returns_round (ha : o.arities.broken = false) (h : Clear o env q w) (d : Nat) (verbose : Bool)
    (number : Nat) : (round (Backward.results o d env q.term) verbose number).Returns F (fun _ => True)
      (fun w' new => (∃ added : List Judgment, new = added.map Judgment.term ∧
        w'.judgments = w.judgments ++ added) ∧ (new = [] ↔ Exhausted o d env q w) ∧ Clear o env q w') w := by
  obtain ⟨hgrows, hstore, items, hitems, hset⟩ := Backward.exists_read_results (w := w) ha d h.entries h.query
  have hsyms := Backward.symsSettled_results ha d (Nat.le_refl _) h.query h.entries h.syms
  dsimp only at hsyms
  refine (Backward.unfailing_results ha d env q w.drawn).returns_collapse.bind fun w₁ results _ h₁ => .noteIf ?_
  obtain ⟨rfl, rfl⟩ := h₁
  rw [hitems] at hsyms ⊢
  refine (returns_commit_admitted (fun _ _ _ _ => trivial) trivial verbose hset).mono fun w₂ new hw₂ hnew => ?_
  obtain ⟨rfl, hstore₂⟩ := hnew
  rw [hstore] at hstore₂ ⊢
  refine ⟨⟨_, rfl, hstore₂⟩, ?_, ?_⟩
  · rw [List.map_eq_nil_iff, admitted_eq_nil_iff, Exhausted, hitems, List.forall_mem_map]
    refine forall₂_congr fun j _ => ⟨fun hj => ⟨j, rfl, hj⟩, fun ⟨i, hi, hheld⟩ => ?_⟩
    rwa [Judgment.term_injective hi]
  · refine h.grow (hgrows.drawn_le.trans hw₂.drawn_le) hstore₂ fun j hj => ?_
    exact (hsyms _ (List.mem_map_of_mem ((admitted_sublist _ _).subset hj))).mono hw₂.drawn_le

/-- Where all is held, no round brings anything. -/
theorem returns_everyRound_of_exhausted (ha : o.arities.broken = false) (h : Clear o env q w)
    (hx : Exhausted o d env q w) (verbose : Bool) (r number : Nat) :
    (everyRound (Backward.results o d env q.term) verbose r number).Returns F (fun _ => True)
      (fun w' new => new = [] ∧ w'.judgments = w.judgments) w := by
  induction r generalizing number w with
  | zero => exact .one ⟨rfl, rfl⟩
  | succ r ih =>
    refine (returns_round ha h d verbose number).bind fun w₁ new hw₁ h₁ => ?_
    obtain ⟨⟨added, rfl, hstore⟩, hnone, hclear⟩ := h₁
    have hnew := hnone.2 hx
    rw [List.map_eq_nil_iff.1 hnew, List.append_nil] at hstore
    refine (ih hclear (hx.again ha h hstore hw₁.drawn_le) (number + 1)).map fun w₂ more _ h₂ => ?_
    rw [hnew, List.nil_append]
    exact ⟨h₂.1, h₂.2.trans hstore⟩

/-- With and without the stop, the rounds come back with the same and leave the same store. -/
theorem exists_returns_lemmas_everyRound (ha : o.arities.broken = false) (h : Clear o env q w) (verbose : Bool)
    (r number : Nat) : ∃ (new : List Term) (js : List Judgment),
      (lemmas (Backward.results o d env q.term) verbose r number).Returns (fun _ => False) (fun _ => True)
        (fun w' ts => ts = new ∧ w'.judgments = js) w ∧
      (everyRound (Backward.results o d env q.term) verbose r number).Returns (fun _ => False) (fun _ => True)
        (fun w' ts => ts = new ∧ w'.judgments = js) w := by
  induction r generalizing number w with
  | zero => exact ⟨[], w.judgments, .one ⟨rfl, rfl⟩, .one ⟨rfl, rfl⟩⟩
  | succ r ih =>
    obtain ⟨w₁, new, ⟨⟨added, hadded, hstore⟩, hnone, hclear⟩, hround⟩ :=
      (returns_round ha h d verbose number).exists_only
    rw [lemmas_succ]
    by_cases hnew : new = []
    · subst hnew
      rw [List.map_eq_nil_iff.1 hadded.symm, List.append_nil] at hstore
      refine ⟨[], w.judgments, hround.bind ?_, hround.bind ?_⟩
      · rintro _ _ _ ⟨rfl, rfl⟩
        exact .one ⟨rfl, hstore⟩
      · rintro w' _ hw' ⟨rfl, rfl⟩
        have hx := (hnone.1 rfl).again ha h hstore hw'.drawn_le
        refine (returns_everyRound_of_exhausted ha hclear hx verbose r (number + 1)).map fun w₂ more _ h₂ => ?_
        exact ⟨h₂.1, h₂.2.trans hstore⟩
    · obtain ⟨more, js, hlemmas, hevery⟩ := ih hclear (number + 1)
      refine ⟨new ++ more, js, hround.bind ?_, hround.bind ?_⟩
      · rintro _ _ _ ⟨rfl, rfl⟩
        rw [if_neg (by simpa using hnew)]
        exact hlemmas.map fun _ _ _ h₂ => ⟨congrArg _ h₂.1, h₂.2⟩
      · rintro _ _ _ ⟨rfl, rfl⟩
        exact hevery.map fun _ _ _ h₂ => ⟨congrArg _ h₂.1, h₂.2⟩

/-- Behind a round that has brought nothing no round brings anything. -/
theorem read_everyRound_of_nothing (ha : o.arities.broken = false) (h : Clear o env q w) {verbose : Bool}
    {number : Nat}
    (hnone : ((round (Backward.results o d env q.term) verbose number).read none w).results = #[[]])
    (r number' : Nat) (hjs : w'.judgments = w.judgments) (hn : w.drawn ≤ w'.drawn) :
    let more := (everyRound (Backward.results o d env q.term) verbose r number').read none w'
    more.results = #[[]] ∧ more.status = .ended ∧ more.world.judgments = w.judgments := by
  obtain ⟨new, hnew, -, -, hexhausted, -⟩ :=
    (returns_round (F := fun _ => False) ha h d verbose number).exists_read
  obtain rfl : new = [] := by simpa [hnew] using hnone
  have h' : Clear o env q w' :=
    h.grow hn (hjs.trans (List.append_nil _).symm) fun _ h => absurd h List.not_mem_nil
  have hx := (hexhausted.1 rfl).again ha h hjs hn
  obtain ⟨_, hresults, hended, rfl, hstore⟩ :=
    (returns_everyRound_of_exhausted ha h' hx verbose r number').exists_read
  exact ⟨hresults, hended, hstore.trans hjs⟩

/-- What is made of the list that rounds come back with is the same with and without the stop. -/
theorem read_map_of_clear {β : Type} (ha : o.arities.broken = false) (h : Clear o env q w) (verbose : Bool)
    (r number : Nat) (f : List Term → β) :
    let search := Backward.results o d env q.term
    (((lemmas search verbose r number).map f).read none w).Agrees
      (((everyRound search verbose r number).map f).read none w) := by
  obtain ⟨new, js, hlemmas, hevery⟩ := exists_returns_lemmas_everyRound ha h verbose r number
  exact (hlemmas.map fun _ _ _ => And.imp_left (congrArg f)).agrees
    (hevery.map fun _ _ _ => And.imp_left (congrArg f))

/-- Rounds whose search fails do so in the first of them, if there is one. -/
theorem read_map_of_fails {β : Type} {search : Search Note Term} {e : Fault}
    (h : ∀ js n, search.collapse.Fails (· = e) js n) (verbose : Bool) (r number : Nat) (f : List Term → β) :
    (((lemmas search verbose r number).map f).read none w).Agrees
      (((everyRound search verbose r number).map f).read none w) := by
  cases r with
  | zero => exact ⟨rfl, rfl, rfl⟩
  | succ r =>
    have hround : (round search verbose number).Fails (· = e) w.judgments w.drawn := (h _ _).bind _
    rw [lemmas_succ]
    exact ((hround.bind _).bind _).agrees ((hround.bind _).bind _)

end Rounds

/-! ### Requests -/

/-- With a value that is no number of arguments a search below the top has no run to its end. -/
theorem Backward.not_yields_results (hb : o.arities.broken = true) {js : List Judgment} {n m : Nat}
    {as : List (Given Term)} : ¬ (results o (d + 1) env q.term).Yields js n as m := by
  intro h
  obtain ⟨_, _, h, -, -⟩ := h.of_bind
  obtain ⟨_, _, _, -, h, -⟩ := h.of_append
  obtain ⟨_, _, _, -, h, -⟩ := h.of_append
  rw [if_pos hb] at h
  exact h

namespace Request

/-- Either the search fails whenever it is run to its end, always in the same way, or it is one that meets no
failure. -/
theorem backwardStep_cases (o : Settings) (d : Nat) (q : Judgment) :
    (∃ e, ∀ js n, (backwardStep o d q.term).collapse.Fails (· = e) js n) ∨
    ∃ (o' : SearchOptions) (env : Environment), o'.arities.broken = false ∧
      o'.lambdaIntro = o.options.lambdaIntro ∧ env.entries = o.entries ∧
      backwardStep o d q.term = Backward.results o' d env q.term := by
  unfold backwardStep
  cases ht : backwardOver o d q.term with
  | error e => exact .inl ⟨e, fun _ _ => rfl⟩
  | ok t =>
    obtain ⟨env, henv, rfl⟩ := backwardOver_eq_ok ht
    by_cases hb : o.options.arities.broken = true
    · cases d with
      -- at depth zero no application is tried, whatever the arities
      | zero => exact .inr ⟨{ o.options with arities := {} }, env, rfl, rfl, henv, rfl⟩
      | succ d =>
        refine .inl ⟨.mismatch, fun js n => ?_⟩
        have hall : (Backward.results o.options (d + 1) env q.term).Always js (· = .mismatch) _ n :=
          Backward.always_results_proved (F := (· = .mismatch)) (fun _ => rfl) (d + 1) env q n
        exact hall.fails_collapse fun _ _ => Backward.not_yields_results hb
    · exact .inr ⟨o.options, env, Bool.eq_false_iff.2 hb, rfl, henv, rfl⟩

theorem open_lemmas_eq (o : Settings) (d r : Nat) (pattern : Option Judgment) :
    Request.open o (.lemmas (.int d) (.int r) (pattern.map Judgment.term)) =
      (Rounds.lemmas (backwardStep o d (pattern.getD openPattern).term) (o.verbose.getD false) r 1).map
        fun new => ofList (new.map .term) := by
  have hpattern : (pattern.map Judgment.term).getD openQuery = (pattern.getD openPattern).term := by
    cases pattern <;> rfl
  rw [Request.open, hpattern]
  unfold lemmaRounds
  rw [checkQuery_term]
  rfl

/-- Where a round brings nothing, no round behind it would bring anything, as often as it were run. So rounds of
lemmas, which stop there, come back with the list that all the rounds come back with, leave the store as these
leave it, and fail where these fail. -/
theorem read_lemmas_stop (o : Settings) (d : Nat) (pattern : Option Judgment) (w : World)
    (hset : ∀ j ∈ pattern.getD openPattern :: o.entries, j.term.Settled w.drawn)
    (hsyms : ∀ j ∈ pattern.getD openPattern :: (o.entries ++ w.judgments),
      j.term.SymsSettled o.options.lambdaIntro w.drawn) :
    let search := backwardStep o d (pattern.getD openPattern).term
    let verbose := o.verbose.getD false
    (∀ number, ((Rounds.round search verbose number).read none w).results = #[[]] →
      ∀ (r number' : Nat) (w' : World), w'.judgments = w.judgments → w.drawn ≤ w'.drawn →
        let more := (Rounds.everyRound search verbose r number').read none w'
        more.results = #[[]] ∧ more.status = .ended ∧ more.world.judgments = w.judgments) ∧
    ∀ r : Nat,
      let stopped := (Request.open o (.lemmas (.int d) (.int r) (pattern.map Judgment.term))).read none w
      let full := ((Rounds.everyRound search verbose r 1).map fun new => ofList (new.map .term)).read none w
      stopped.Agrees full := by
  intro search verbose
  simp only [open_lemmas_eq]
  rcases backwardStep_cases o d (pattern.getD openPattern) with ⟨e, hfails⟩ | ⟨o', env, ha, hl, henv, hstep⟩
  · refine ⟨fun number hnone => ?_, fun r => Rounds.read_map_of_fails hfails verbose r 1 _⟩
    have hround : (Rounds.round search verbose number).Fails (· = e) w.judgments w.drawn := (hfails _ _).bind _
    rw [hround.exists_read.1] at hnone
    cases hnone
  · obtain ⟨hpattern, hentries⟩ := List.forall_mem_cons.1 hset
    rw [← henv] at hentries
    rw [← hl, ← henv] at hsyms
    have hclear : Clear o' env (pattern.getD openPattern) w := ⟨hpattern, hentries, hsyms⟩
    simp only [search, hstep]
    exact ⟨fun number hnone r number' w' => Rounds.read_everyRound_of_nothing ha hclear hnone r number',
      fun r => Rounds.read_map_of_clear ha hclear verbose r 1 _⟩

/-- From `g : (-> A (P $u))`, with `a : A` assumed, three rounds for `$p : (P $v)` put in `(g a) : (P $u_4)`, and
it is the first that does so. Over the store that they leave no round brings anything. -/
theorem read_lemmas_stop_applied :
    let o : Settings := { env := [Backward.inA.term], lambdaIntro := some true }
    let g : Judgment := ⟨.ofText "g", .arrow [.ofText "A"] (.tuple [.ofText "P", .ofText "$u"])⟩
    let made : Judgment := ⟨.tuple [.ofText "g", .ofText "a"], .tuple [.ofText "P", .ofText "$u_4"]⟩
    let q : Judgment := ⟨.ofText "$p", .tuple [.ofText "P", .ofText "$v"]⟩
    let search := backwardStep o 1 q.term
    (∀ j ∈ q :: o.entries, j.term.Settled 0) ∧
    (∀ j ∈ q :: (o.entries ++ [g, made]), j.term.SymsSettled true 0) ∧
    (let stopped := (Request.open o (.lemmas (.int 1) (.int 3) (some q.term))).read none ⟨[g], 0⟩
      let full := ((Rounds.everyRound search false 3 1).map fun new => ofList (new.map .term)).read none ⟨[g], 0⟩
      stopped.Agrees full ∧ full.world.judgments = [g, made] ∧ stopped.world.drawn < full.world.drawn) ∧
    ((Rounds.round search false 1).read none ⟨[g, made], 17⟩).results = #[[]] ∧
    ∀ (r number : Nat) (w' : World), w'.judgments = [g, made] → 17 ≤ w'.drawn →
      ((Rounds.everyRound search false r number).read none w').results = #[[]] := by
  intro o g made q search
  have hplain : ∀ j ∈ q :: o.entries, ∀ x ∈ j.term.vars, '_' ∉ x.text.toList := by decide
  have hset : ∀ j ∈ q :: o.entries, j.term.Settled 0 := fun j hj =>
    Term.settled_of_underscore_notMem (hplain j hj) 0
  have hsyms : ∀ j ∈ q :: (o.entries ++ [g, made]), j.term.SymsSettled true 0 := by
    have hplain : ∀ j ∈ q :: (o.entries ++ [g, made]), ∀ c ∈ j.term.syms,
        c.text.toList.head? ≠ some 'x' := by decide
    exact fun j hj => Term.symsSettled_of_head_ne (hplain j hj) 0
  have hfewer : q :: (o.entries ++ [g]) ⊆ q :: (o.entries ++ [g, made]) := by simp
  have hsame := (read_lemmas_stop o 1 (some q) ⟨[g], 0⟩ hset fun j hj => hsyms j (hfewer hj)).2 3
  have hnone : ((Rounds.round search false 1).read none ⟨[g, made], 17⟩).results = #[[]] := by decide +kernel
  have hrest := (read_lemmas_stop o 1 (some q) ⟨[g, made], 17⟩ (fun j hj => (hset j hj).mono (Nat.zero_le 17))
    fun j hj => (hsyms j hj).mono (Nat.zero_le 17)).1 1 hnone
  refine ⟨hset, hsyms, ?_, hnone, fun r number w' hjs hn => ?_⟩
  · simp only [search, o, Option.map_some, Option.getD_some, Option.getD_none, Int.cast_ofNat_Int]
      at hsame ⊢
    exact ⟨hsame, by decide +kernel, by decide +kernel⟩
  · exact (hrest r number w' hjs hn).1

end Request
end ProofSearch
