import ProofSearch.Proofs.Backward.Soundness
import ProofSearch.Proofs.Search.Returns
import ProofSearch.Request

/-!
# Rounds of lemmas are conservative

What is put into the store in rounds follows from the judgments that were there before the first, with
the entries of the environment as judgments stored: after `k` rounds at depth `d` it is derivable within
`k * d`. A round proves from the lemmas of the rounds before it, and each lemma is replaced by its own
derivation (`Derivable.cut`); so the store of a round decides how high its results are
(`ensures_lemmas`), and what is proved with all lemmas is one round higher still
(`lemmas_conservative`).
-/

namespace ProofSearch
variable {ν : Type} {F : Fault → Prop} {I : List Judgment → Prop} {Q : Judgment → Prop} {w : World}
variable {js : List Judgment} {j : Judgment} {m n : Nat}

/-- The term of a judgment that is as `Q` says. -/
def Term.Judges (Q : Judgment → Prop) (t : Term) : Prop := ∃ j : Judgment, t = j.term ∧ Q j

/-- The answer is the term of such a judgment. -/
def Answer.Judges (Q : Judgment → Prop) (a : Answer) : Prop := ∃ j : Judgment, a = .term j.term ∧ Q j

theorem Term.Judges.imp {Q' : Judgment → Prop} {t : Term} (h : t.Judges Q) (hQ : ∀ j, Q j → Q' j) :
    t.Judges Q' :=
  Exists.imp (fun j => And.imp_right (hQ j)) h

theorem Term.exists_map_term {ts : List Term} (h : ∀ t ∈ ts, t.Judges Q) :
    ∃ js : List Judgment, ts = js.map Judgment.term ∧ ∀ j ∈ js, Q j := by
  induction ts with
  | nil => exact ⟨[], rfl, fun _ h => absurd h List.not_mem_nil⟩
  | cons t ts ih =>
    obtain ⟨⟨j, rfl, hj⟩, hts⟩ := List.forall_mem_cons.1 h
    obtain ⟨js, rfl, hjs⟩ := ih hts
    exact ⟨j :: js, rfl, List.forall_mem_cons.2 ⟨hj, hjs⟩⟩

theorem Term.Judges.answer {t : Term} (h : t.Judges Q) : (Answer.term t).Judges Q :=
  Exists.imp (fun _ => And.imp_left (congrArg Answer.term)) h

@[simp] theorem Judgment.check_term (j : Judgment) : Judgment.check j.term = .ok j := by
  rw [check, ofTerm?_term]

/-! ### Putting judgments into the store -/

namespace Search

theorem ensures_holds (hI : I w.judgments) (j : Judgment) :
    (holds j.term : Search ν Bool).Ensures F I (fun w' _ => w'.judgments = w.judgments) w := by
  have hall : (stored j.term .empty : Search ν Subst).Always w.judgments F
      (Backward.Proved {} w.judgments 0 {} [j] .empty) w.drawn :=
    Backward.always_matchApart Subst.acyclic_empty fun _ h => h
  exact .map hI (hall.returns_first.ensures.mono fun _ _ _ h => h.1)

theorem ensures_insertIfAbsent (hI : ∀ js, (∀ i ∈ js, Q i) → I js) (hw : ∀ i ∈ w.judgments, Q i)
    (hj : Q j) :
    (insertIfAbsent j.term : Search ν Bool).Ensures F I (fun w' _ => ∀ i ∈ w'.judgments, Q i) w := by
  refine Ensures.bind (hI _ hw) ((ensures_holds (hI _ hw) j).mono fun w' held _ he hI' => ?_)
  cases held with
  | true => exact .one (he ▸ hw)
  | false =>
    have hadded : ∀ i ∈ w'.judgments ++ [j], Q i :=
      List.forall_mem_append.2 ⟨he ▸ hw, List.forall_mem_singleton.2 hj⟩
    refine Ensures.map hI' ?_
    rw [insert, Judgment.check_term]
    exact ⟨hI _ hadded, .one hadded⟩

end Search

namespace Rounds
open Search

theorem ensures_commit (hI : ∀ js, (∀ i ∈ js, Q i) → I js) (hw : ∀ i ∈ w.judgments, Q i) (verbose : Bool)
    {items : List Term} (hitems : ∀ t ∈ items, t.Judges Q) :
    (commit verbose items).Ensures F I
      (fun w' new => (∀ i ∈ w'.judgments, Q i) ∧ ∀ t ∈ new, t.Judges Q) w := by
  induction items generalizing w with
  | nil => exact .one ⟨hw, fun _ h => absurd h List.not_mem_nil⟩
  | cons item items ih =>
    obtain ⟨⟨j, rfl, hj⟩, hrest⟩ := List.forall_mem_cons.1 hitems
    refine Ensures.bind (hI _ hw) ((ensures_insertIfAbsent hI hw hj).mono fun w' put _ hw' _ => ?_)
    cases put with
    | true =>
      refine .noteIf (Ensures.map (hI _ hw') ((ih hw' hrest).mono fun w'' new _ h => ⟨h.1, ?_⟩))
      exact List.forall_mem_cons.2 ⟨⟨j, rfl, hj⟩, h.2⟩
    | false => exact ih hw' hrest

/-- In a round the results are committed, and then each of them is the item of the rounds to come. -/
theorem ensures_round {step : Term → Search Note Term} {p : Nat → Term → Prop} {H R : World → Term → Prop}
    {verbose : Bool} {r number : Nat} {item : Term} (hw : I w.judgments)
    (hitem : (step item).Always w.judgments F p w.drawn)
    (hcommit : ∀ (w₁ : World) (results : List Term), I w₁.judgments →
      (∀ t ∈ results, ∃ m ≤ w₁.drawn, p m t) →
      (commit verbose results).Ensures F I (fun w₂ _ => ∀ t ∈ results, H w₂ t) w₁)
    (hrest : ∀ (w₂ w' : World) (t : Term), w.GrowsTo w₂ → w₂.GrowsTo w' → H w₂ t → I w'.judgments →
      (iterate step verbose r (number + 1) t).Ensures F I R w') :
    (iterate step verbose (r + 1) number item).Ensures F I R w := by
  refine Ensures.bind hw (hitem.returns_collapse.ensures.mono fun w₁ results h₁ hresults hw₁ => ?_)
  have hcommit := hcommit w₁ results hw₁ hresults.2
  refine .noteIf (Ensures.bind hw₁ (hcommit.mono fun w₂ _ h₂ hheld hw₂ => ?_))
  refine .ofList_bind hw₂ fun t ht w₃ h₃ hw₃ => ?_
  exact hrest w₂ w₃ t (h₁.trans h₂) h₃ (hheld t ht) hw₃

/-- Where a search over judgments of a level gives judgments of the next, each round takes the store up
by one level at most. -/
theorem ensures_lemmas {Q : Nat → Judgment → Prop} (hQ : ∀ m n j, m ≤ n → Q m j → Q n j)
    {search : Search Note Term}
    (hsearch : ∀ (m : Nat) (w : World), (∀ i ∈ w.judgments, Q m i) →
      search.Always w.judgments F (fun _ t => t.Judges (Q (m + 1))) w.drawn)
    (verbose : Bool) (r number m : Nat) (hw : ∀ i ∈ w.judgments, Q m i) :
    (lemmas search verbose r number).Ensures F (fun js => ∀ i ∈ js, Q (m + r) i)
      (fun _ new => ∀ t ∈ new, t.Judges (Q (m + r))) w := by
  induction r generalizing number m w with
  | zero => exact .one fun _ h => absurd h List.not_mem_nil
  | succ r ih =>
    rw [← Nat.succ_add_eq_add_succ]
    have hI : ∀ js : List Judgment, (∀ i ∈ js, Q (m + 1) i) → ∀ i ∈ js, Q (m + 1 + r) i := fun js h i hi =>
      hQ _ _ i (Nat.le_add_right _ r) (h i hi)
    have hw' : ∀ i ∈ w.judgments, Q (m + 1) i := fun i hi => hQ _ _ i (Nat.le_succ m) (hw i hi)
    refine Ensures.bind (hI _ hw') ((hsearch m w hw).returns_collapse.ensures.mono fun w₁ results _ h₁ _ => ?_)
    obtain ⟨hstore, hresults⟩ := h₁
    rw [← hstore] at hw'
    refine .noteIf (Ensures.bind (hI _ hw') ((ensures_commit hI hw' verbose fun t ht =>
      (hresults t ht).elim fun _ h => h.2).mono fun w₂ new _ h₂ _ => ?_))
    obtain ⟨hw₂, hnew⟩ := h₂
    have hnew : ∀ t ∈ new, t.Judges (Q (m + 1 + r)) := fun t ht =>
      (hnew t ht).imp fun j => hQ _ _ j (Nat.le_add_right _ r)
    show Ensures F _ _ (if _ then _ else _) w₂
    split
    · exact .one fun _ h => absurd h List.not_mem_nil
    · refine Ensures.map (hI _ hw₂) ((ih (number + 1) (m + 1) hw₂).mono fun _ more _ hmore => ?_)
      exact List.forall_mem_append.2 ⟨hnew, hmore⟩

end Rounds

/-! ### Searches from derived judgments -/

/-- Where all judgments stored are derivable within `m` from others, and the environment is made of such,
the results are derivable from those within `m` and the depth. -/
theorem Backward.always_results {o : SearchOptions} {is : List Judgment} (d : Nat) {env : Environment}
    (q : Judgment) (hF : ∀ e, F e) (hjs : ∀ i ∈ js, Derivable o is m {} i)
    (henv : ∀ i ∈ env.entries, i ∈ is) :
    (results o d env q.term).Always js F (fun _ t => t.Judges (Derivable o is (m + d) {})) n := by
  refine (always_results_proved (fun _ => hF _) d env q n).mono fun i t _ ht => ?_
  obtain ⟨r, hr, rfl⟩ := ht
  exact ⟨q.subst r.value, rfl, (hr.derivable q (List.mem_singleton_self q)).cut_subst hjs henv⟩

/-! ### Requests -/

theorem checkArities_eq_ok {as : List Datum} {a : Arities} (h : checkArities as = .ok a) :
    a = .ofData as := by
  unfold checkArities at h
  split at h
  · cases h
  · split at h
    · cases h
    · exact (Except.ok.inj h).symm

@[simp] theorem checkQuery_term (j : Judgment) : checkQuery j.term = .ok j := by
  rw [checkQuery, Judgment.ofTerm?_term]

theorem eq_of_checkQuery {t : Term} (h : checkQuery t = .ok j) : t = j.term := by
  unfold checkQuery at h
  split at h
  · next i hi => cases h; exact Judgment.ofTerm?_eq_some_iff.1 hi
  · cases h

theorem Judgment.eq_filterMap_of_mapM_check {ts : List Term} (h : ts.mapM check = .ok js) :
    js = ts.filterMap ofTerm? := by
  induction ts generalizing js with
  | nil => exact (Except.ok.inj h).symm
  | cons t ts ih =>
    rw [List.mapM_cons] at h
    cases ht : ofTerm? t with
    | none =>
      have hcheck : check t = .error (.notJudgment t.format) := by rw [check, ht]
      rw [hcheck] at h
      cases h
    | some j =>
      have hcheck : check t = .ok j := by rw [check, ht]
      cases hts : ts.mapM check with
      | error e => rw [hcheck, hts] at h; cases h
      | ok is =>
        rw [hcheck, hts] at h
        cases h
        rw [List.filterMap_cons_some ht, ih hts]

/-- An environment is made of terms that all are judgments. -/
theorem Environment.entries_of_ofTerms {ts : List Term} {env : Environment} (h : ofTerms ts = .ok env) :
    env.entries = ts.filterMap Judgment.ofTerm? := by
  unfold ofTerms at h
  cases hts : ts.mapM Judgment.check with
  | error e => rw [hts] at h; cases h
  | ok js => rw [hts] at h; cases h; exact Judgment.eq_filterMap_of_mapM_check hts

namespace Settings

/-- The arities and the abstraction of the search that is asked for. -/
def options (o : Settings) : SearchOptions :=
  ⟨.ofData (o.arities.getD [.int 1]), o.lambdaIntro.getD false, o.traced⟩

/-- The entries of the environment. -/
def entries (o : Settings) : List Judgment := o.env.filterMap Judgment.ofTerm?

end Settings

namespace Request
open Search
variable {o : Settings}

theorem backwardOver_eq_ok {d : Nat} {q : Term} {t : Search Note Term}
    (h : backwardOver o d q = .ok t) :
    ∃ env : Environment, env.entries = o.entries ∧ t = Backward.results o.options d env q := by
  unfold backwardOver at h
  cases ha : checkArities (o.arities.getD [.int 1]) with
  | error e => rw [ha] at h; cases h
  | ok a =>
    cases henv : Environment.ofTerms o.env with
    | error e => rw [ha, henv] at h; cases h
    | ok env =>
      rw [ha, henv] at h
      cases h
      exact ⟨env, Environment.entries_of_ofTerms henv, by rw [checkArities_eq_ok ha]; rfl⟩

theorem always_backwardOver {is : List Judgment} {d : Nat} {q : Judgment} (hF : ∀ e, F e)
    (hjs : ∀ i ∈ js, Derivable o.options is m {} i) (henv : ∀ i ∈ o.entries, i ∈ is)
    {t : Search Note Term} (h : backwardOver o d q.term = .ok t) :
    t.Always js F (fun _ t => t.Judges (Derivable o.options is (m + d) {})) n := by
  obtain ⟨env, he, rfl⟩ := backwardOver_eq_ok h
  exact Backward.always_results d q hF hjs (he ▸ henv)

/-- Lemmas are put in within the height of their rounds, and what is done behind them meets a store
that holds nothing higher. -/
theorem ensures_lemmaRounds (d r : Nat) (pattern : Term) {P : World → Search Note Answer → Prop}
    {is : List Judgment} (hw : ∀ i ∈ w.judgments, i ∈ is) (henv : ∀ i ∈ o.entries, i ∈ is)
    {k : Nat → List Term → Search Note (Search Note Answer)}
    (hk : ∀ w' new, (∀ i ∈ w'.judgments, Derivable o.options is (r * d) {} i) →
      (∀ t ∈ new, t.Judges (Derivable o.options is (r * d) {})) →
      (k d new).Ensures (fun _ => True) (fun js => ∀ i ∈ js, Derivable o.options is (r * d) {} i) P w') :
    (lemmaRounds o (.int d) (.int r) pattern k).Ensures (fun _ => True)
      (fun js => ∀ i ∈ js, Derivable o.options is (r * d) {} i) P w := by
  let Q : Nat → Judgment → Prop := fun k => Derivable o.options is (k * d) {}
  have hQ : ∀ m n j, m ≤ n → Q m j → Q n j := fun m n j hm h => h.mono (Nat.mul_le_mul_right d hm)
  have hw₀ : ∀ i ∈ w.judgments, Q 0 i := fun i hi => .of_mem (hw i hi)
  unfold lemmaRounds
  cases hq : checkQuery pattern with
  | error e => trivial
  | ok q =>
    obtain rfl := eq_of_checkQuery hq
    have hsearch : ∀ (m : Nat) (w : World), (∀ i ∈ w.judgments, Q m i) →
        (backwardStep o d q.term).Always w.judgments (fun _ => True) (fun _ t => t.Judges (Q (m + 1)))
          w.drawn := by
      intro m w hw
      unfold backwardStep
      cases ht : backwardOver o d q.term with
      | error e => trivial
      | ok t =>
        have h := always_backwardOver (n := w.drawn) (fun _ => trivial) hw henv ht
        rwa [← Nat.succ_mul] at h
    have hlemmas := Rounds.ensures_lemmas hQ hsearch (o.verbose.getD false) r 1 0 hw₀
    rw [Nat.zero_add] at hlemmas
    exact Ensures.bind (fun i hi => hQ _ _ i (Nat.zero_le r) (hw₀ i hi))
      (hlemmas.mono fun w' new _ hnew hw' => hk w' new hw' hnew)

theorem always_map_answer {t : Search Note Term} (h : t.Always js F (fun _ t => t.Judges Q) n) :
    (t.map .term : Search Note Answer).Always js F (fun _ a => a.Judges Q) n :=
  .bind (h.mono fun _ _ _ ht => .one ht.answer)

theorem always_answers {new : List Term} (h : ∀ t ∈ new, t.Judges Q) :
    (ofList (new.map .term) : Search Note Answer).Always js F (fun _ a => a.Judges Q) n := by
  rw [← bind_one (ofList _)]
  refine .ofList_bind fun a ha _ _ => .one ?_
  obtain ⟨t, ht, rfl⟩ := List.mem_map.1 ha
  exact (h t ht).answer

section
variable {is : List Judgment} (hw : ∀ i ∈ w.judgments, i ∈ is) (henv : ∀ i ∈ o.entries, i ∈ is)
include hw henv

theorem ensures_open_lemmas (d r : Nat) (pattern : Option Term) :
    (Request.open o (.lemmas (.int d) (.int r) pattern)).Ensures (fun _ => True)
      (fun js => ∀ i ∈ js, Derivable o.options is (r * d) {} i)
      (fun _ t => ∀ js n, t.Always js (fun _ => True)
        (fun _ a => a.Judges (Derivable o.options is (r * d) {})) n) w :=
  ensures_lemmaRounds (k := fun _ new => one (ofList (new.map .term))) d r (pattern.getD openQuery)
    hw henv fun _ _ _ hnew => .one fun _ _ => always_answers hnew

/-- What is behind the rounds is read from a store that may have changed, but holds nothing higher. -/
theorem ensures_open_proveWithLemmas (d r : Nat) (q : Term) :
    (Request.open o (.proveWithLemmas (.int d) (.int r) q)).Ensures (fun _ => True)
      (fun js => ∀ i ∈ js, Derivable o.options is (r * d) {} i)
      (fun _ t => ∀ js n, (∀ i ∈ js, Derivable o.options is (r * d) {} i) →
        t.Always js (fun _ => True) (fun _ a => a.Judges (Derivable o.options is ((r + 1) * d) {})) n) w := by
  refine .ofExcept (fun _ _ => trivial) fun g hg => ?_
  obtain rfl := eq_of_checkQuery hg
  refine ensures_lemmaRounds d r openQuery hw henv fun _ _ _ _ => ?_
  refine .ofExcept (fun _ _ => trivial) fun u hu => .one fun js n hjs => always_map_answer ?_
  rw [Nat.succ_mul]
  exact always_backwardOver (fun _ => trivial) hjs henv hu

end

/-- However far they are read, rounds of lemmas put judgments into the store that are derivable from
those stored at the start, with the entries of the environment as further ones, within the depth for each
round; and what is proved behind the rounds is derivable from these within one depth more. -/
theorem lemmas_conservative (o : Settings) (d r : Nat) (w : World) :
    let given := w.judgments ++ o.entries
    (∀ (pattern : Option Term) (limit : Option Nat),
      let opened := (Request.open o (.lemmas (.int d) (.int r) pattern)).read limit w
      (∀ j ∈ opened.world.judgments, Derivable o.options given (r * d) {} j) ∧
      ∀ t ∈ opened.results, ∀ more v, ∀ a ∈ (t.read more v).results,
        a.Judges (Derivable o.options given (r * d) {})) ∧
    ∀ (q : Term) (limit : Option Nat),
      let opened := (Request.open o (.proveWithLemmas (.int d) (.int r) q)).read limit w
      (∀ j ∈ opened.world.judgments, Derivable o.options given (r * d) {} j) ∧
      ∀ t ∈ opened.results, ∀ more n, ∀ a ∈ (t.read more ⟨opened.world.judgments, n⟩).results,
        a.Judges (Derivable o.options given ((r + 1) * d) {}) := by
  intro given
  have hw : ∀ i ∈ w.judgments, i ∈ given := fun i hi => List.mem_append_left _ hi
  have henv : ∀ i ∈ o.entries, i ∈ given := fun i hi => List.mem_append_right _ hi
  have hw₀ : ∀ i ∈ w.judgments, Derivable o.options given (r * d) {} i := fun i hi => .of_mem (hw i hi)
  refine ⟨fun pattern limit => ?_, fun q limit => ?_⟩
  · obtain ⟨hstore, hopened⟩ := (ensures_open_lemmas hw henv d r pattern).read hw₀ limit
    refine ⟨hstore, fun t ht more v a ha => ?_⟩
    obtain ⟨_, hall⟩ := hopened t ht
    obtain ⟨_, h⟩ := (hall v.judgments v.drawn).of_mem_read ha
    exact h
  · obtain ⟨hstore, hopened⟩ := (ensures_open_proveWithLemmas hw henv d r q).read hw₀ limit
    refine ⟨hstore, fun t ht more n a ha => ?_⟩
    obtain ⟨_, hall⟩ := hopened t ht
    obtain ⟨_, h⟩ := Always.of_mem_read (w := ⟨_, n⟩) (hall _ n hstore) ha
    exact h

/-- A round over `f : (-> $t (L $t))` and `a : A` puts in `(f a) : (L A)` and `(f f)`, and the proof of
a list of lists that needs two applications is then found at depth 1. -/
example :
    let listOfLists := Judgment.mk (.ofText "$p") (.tuple [.ofText "L", .tuple [.ofText "L", .ofText "A"]])
    let opened := (Request.open {} (.proveWithLemmas (.int 1) (.int 1) listOfLists.term)).read none
      ⟨[Backward.listing, ⟨.ofText "a", .ofText "A"⟩], 0⟩
    opened.world.judgments.length = 4 ∧
      ∀ t ∈ opened.results, (t.read none opened.world).results.size = 1 := by
  decide +kernel

end Request
end ProofSearch
