import ProofSearch.Proofs.Forward.Soundness
import ProofSearch.Proofs.Rounds.Conservative

/-!
# Rounds put in nothing unfounded

A search carried through rounds reads in each branch what the branches before it have put into the store. So
no height is kept, as it is for rounds of lemmas: the invariant of the store is that each judgment has a
derivation from what was given at the start (`Founded`), of any height. A store is a list, so what is in it at
one moment is derivable within one height, from which the next search goes on (`exists_height`).
-/

namespace ProofSearch
variable {ν : Type} {F : Fault → Prop} {js is : List Judgment} {j : Judgment} {env : Environment}
variable {o : SearchOptions} {w : World} {n : Nat}

/-- The judgment is derivable within some height from the judgments given. -/
def Founded (o : SearchOptions) (is : List Judgment) (j : Judgment) : Prop := ∃ n, Derivable o is n {} j

namespace Founded

theorem of_mem (hj : j ∈ is) : Founded o is j := ⟨0, .of_mem hj⟩

theorem exists_height (h : ∀ i ∈ js, Founded o is i) : ∃ m, ∀ i ∈ js, Derivable o is m {} i := by
  induction js with
  | nil => exact ⟨0, fun _ hi => absurd hi List.not_mem_nil⟩
  | cons j js ih =>
    obtain ⟨⟨n, hj⟩, hjs⟩ := List.forall_mem_cons.1 h
    obtain ⟨m, hm⟩ := ih hjs
    refine ⟨max n m, List.forall_mem_cons.2 ⟨hj.mono (Nat.le_max_left n m), fun i hi => ?_⟩⟩
    exact (hm i hi).mono (Nat.le_max_right n m)

end Founded

/-! ### Rounds -/

namespace Rounds
open Search
variable {Q : Judgment → Prop} {step : Term → Search Note Term}

/-- A round whose search gives judgments of `Q` puts only such into the store, and each is the item of rounds
that may do so too. -/
theorem ensures_round_judges (verbose : Bool) (r number : Nat) (item : Term) (hw : ∀ i ∈ w.judgments, Q i)
    (hitem : (step item).Always w.judgments F (fun _ t => t.Judges Q) w.drawn)
    (hrest : ∀ (j : Judgment) (w' : World), Q j → (∀ i ∈ w'.judgments, Q i) →
      (iterate step verbose r (number + 1) j.term).Ensures F (fun js => ∀ i ∈ js, Q i)
        (fun _ t => t.Judges Q) w') :
    (iterate step verbose (r + 1) number item).Ensures F (fun js => ∀ i ∈ js, Q i)
      (fun _ t => t.Judges Q) w := by
  refine ensures_round (H := fun _ t => t.Judges Q) hw hitem (fun w₁ results hw₁ hresults => ?_) ?_
  · have hresults : ∀ t ∈ results, t.Judges Q := fun t ht => (hresults t ht).elim fun _ h => h.2
    exact (ensures_commit (fun _ h => h) hw₁ verbose hresults).mono fun _ _ _ _ => hresults
  · rintro _ w' _ _ _ ⟨j, rfl, hj⟩ hw'
    exact hrest j w' hj hw'

theorem ensures_iterate (hstep : ∀ (j : Judgment) (w : World), Q j → (∀ i ∈ w.judgments, Q i) →
      (step j.term).Always w.judgments F (fun _ t => t.Judges Q) w.drawn)
    (verbose : Bool) (r number : Nat) (hj : Q j) (hw : ∀ i ∈ w.judgments, Q i) :
    (iterate step verbose r number j.term).Ensures F (fun js => ∀ i ∈ js, Q i)
      (fun _ t => t.Judges Q) w := by
  induction r generalizing number j w with
  | zero => exact .one ⟨j, rfl, hj⟩
  | succ r ih =>
    refine ensures_round_judges verbose r number j.term hw (hstep j w hj hw) fun i w' hi hw' => ?_
    exact ih (number + 1) hi hw'

end Rounds

/-! ### Requests -/

namespace Request
open Search
variable {o : Settings}

theorem always_backwardStep (d : Nat) (q : Judgment) (hjs : ∀ i ∈ js, Founded o.options is i)
    (henv : ∀ i ∈ o.entries, i ∈ is) :
    (backwardStep o d q.term).Always js (fun _ => True) (fun _ t => t.Judges (Founded o.options is)) n := by
  obtain ⟨m, hm⟩ := Founded.exists_height hjs
  unfold backwardStep
  cases ht : backwardOver o d q.term with
  | error e => trivial
  | ok t =>
    refine (always_backwardOver (fun _ => trivial) hm henv ht).mono fun i t _ ht => ?_
    exact ht.imp fun j hj => ⟨m + d, hj⟩

theorem forwardOver_eq_ok {d : Nat} {t : Search Note Term} (h : forwardOver o d j = .ok t) :
    ∃ env : Environment, env.entries = o.entries ∧
      t = (Forward.chain { traced := o.traced } env d j).map Judgment.term := by
  unfold forwardOver at h
  cases henv : Environment.ofTerms o.env with
  | error e => rw [henv] at h; cases h
  | ok env =>
    rw [henv] at h
    cases h
    exact ⟨env, Environment.entries_of_ofTerms henv, rfl⟩

theorem always_forwardStep (d : Nat) (hjs : ∀ i ∈ js, Founded { traced := o.traced } is i)
    (henv : ∀ i ∈ o.entries, i ∈ is) (hj : Founded { traced := o.traced } is j) :
    (forwardStep o d j.term).Always js (fun _ => True)
      (fun _ t => t.Judges (Founded { traced := o.traced } is)) n := by
  obtain ⟨m, hm⟩ := Founded.exists_height hjs
  obtain ⟨k, hk⟩ := hj
  unfold forwardStep
  cases checkForward o with
  | error e => trivial
  | ok _ =>
    rw [checkQuery_term]
    show Always js _ _ (ofExcept (forwardOver o d j) id) n
    cases ht : forwardOver o d j with
    | error e => trivial
    | ok t =>
      obtain ⟨env, he, rfl⟩ := forwardOver_eq_ok ht
      have hchain := Forward.always_chain_made (F := fun _ => True) (n := n)
        (fun _ => trivial) (Reduces.of_derivable hm (he ▸ henv)) (fun _ h => absurd h List.not_mem_nil)
        List.mem_cons_self d hk (show k + 2 * d ≤ k + 2 * d + (m + 3 * d) by omega) (by omega)
      exact .bind (hchain.mono fun i a _ ha => .one ⟨a, rfl, _, ha.derivable⟩)

theorem eq_of_mem_rounds {d r : Nat} {item : Judgment} {step : Nat → Term → Search Note Term}
    {limit : Option Nat} {t : Search Note Answer}
    (ht : t ∈ ((rounds o (.int d) (.int r) item.term step).read limit w).results) :
    t = (Rounds.iterate (step d) (o.verbose.getD false) r 1 item.term).map .term := by
  have hall : (rounds o (.int d) (.int r) item.term step).Always w.judgments (fun _ => True)
      (fun _ t => t = (Rounds.iterate (step d) (o.verbose.getD false) r 1 item.term).map .term) w.drawn := by
    unfold rounds
    rw [checkQuery_term]
    exact .one rfl
  obtain ⟨_, h⟩ := hall.of_mem_read ht
  exact h

/-- What `p` makes sure of is said of the answers at every moment, and of the store whatever `p` says. -/
theorem consumed_answers {Q : Judgment → Prop} {p : Prop} {t : Search Note Term} {w' : World}
    {as : List Answer} (h : t.Ensures F (fun js => ∀ i ∈ js, Q i) (fun _ t => p → t.Judges Q) w)
    (hw : ∀ i ∈ w.judgments, Q i) (ht : (t.map Answer.term).Consumed w as w') :
    (∀ i ∈ w'.judgments, Q i) ∧ (p → ∀ a ∈ as, a.Judges Q) := by
  have hmap : (t.map Answer.term).Ensures F (fun js => ∀ i ∈ js, Q i) (fun _ a => p → a.Judges Q) w :=
    .map hw (h.mono fun _ _ _ ht hp => (ht hp).answer)
  obtain ⟨hstore, has⟩ := hmap.consumed hw ht
  exact ⟨hstore, fun hp a ha => (has a ha).elim fun _ h => h hp⟩

/-- At every moment of consuming a search that is carried through rounds, whatever is in the store is founded
on the judgments that were there at the start and the entries of the environment, and on the source where it
goes forward; and so is whatever the search has given, save a query that no round was asked for. -/
theorem iterate_founded (o : Settings) (d r : Nat) (q : Judgment) (limit : Option Nat) (w v v' : World)
    (t : Search Note Answer) (as : List Answer) (hv' : t.Consumed v as v') :
    (t ∈ ((Request.open o (.iterateBackward (.int d) (.int r) q.term)).read limit w).results →
      let given := v.judgments ++ o.entries
      (∀ j ∈ v'.judgments, Founded o.options given j) ∧
        (1 ≤ r → ∀ a ∈ as, a.Judges (Founded o.options given))) ∧
    (t ∈ ((Request.open o (.iterateForward (.int d) (.int r) q.term)).read limit w).results →
      let given := v.judgments ++ o.entries ++ [q]
      (∀ j ∈ v'.judgments, Founded { traced := o.traced } given j) ∧
        ∀ a ∈ as, a.Judges (Founded { traced := o.traced } given)) := by
  constructor
  · intro ht given
    obtain rfl := eq_of_mem_rounds ht
    have henv : ∀ i ∈ o.entries, i ∈ given := fun i hi => List.mem_append_right _ hi
    have hv : ∀ i ∈ v.judgments, Founded o.options given i := fun i hi =>
      .of_mem (List.mem_append_left _ hi)
    refine consumed_answers (F := fun _ => True) ?_ hv hv'
    cases r with
    | zero => exact .one fun hr => absurd hr (Nat.not_succ_le_zero 0)
    | succ r =>
      have hround := Rounds.ensures_round_judges (F := fun _ => True) (o.verbose.getD false) r 1 q.term hv
        (always_backwardStep d q hv henv) fun j w' hj hw' =>
          Rounds.ensures_iterate (fun j w _ hw => always_backwardStep d j hw henv) _ r 2 hj hw'
      exact hround.mono fun _ _ _ h _ => h
  · intro ht given
    obtain rfl := eq_of_mem_rounds ht
    have henv : ∀ i ∈ o.entries, i ∈ given := fun i hi =>
      List.mem_append_left _ (List.mem_append_right _ hi)
    have hv : ∀ i ∈ v.judgments, Founded { traced := o.traced } given i := fun i hi =>
      .of_mem (List.mem_append_left _ (List.mem_append_left _ hi))
    have hq : Founded { traced := o.traced } given q :=
      .of_mem (List.mem_append_right _ (List.mem_singleton_self q))
    have hrounds := Rounds.ensures_iterate (F := fun _ => True)
      (fun j w hj hw => always_forwardStep d hw henv hj) (o.verbose.getD false) r 1 hq hv
    obtain ⟨hstore, has⟩ := consumed_answers (p := True) (hrounds.mono fun _ _ _ h _ => h) hv hv'
    exact ⟨hstore, has trivial⟩

/-- Two rounds for the functions from `A`, by abstraction and with `a : A` assumed: when the first answer has
been taken, three results of the first round are in the store. -/
theorem iterate_founded_functions :
    let o : Settings := { env := [(Judgment.mk (.ofText "a") (.ofText "A")).term], lambdaIntro := some true }
    let v : World := ⟨[Backward.listing], 0⟩
    let given := v.judgments ++ o.entries
    ∃ t ∈ ((Request.open o (.iterateBackward (.int 1) (.int 2) Backward.fromA.term)).read none v).results,
      let reading := t.read (some 1) v
      t.Consumed v reading.results.toList reading.world ∧ reading.world.judgments.length = 4 ∧
        (∀ j ∈ reading.world.judgments, Founded o.options given j) ∧
        ∀ a ∈ reading.results.toList, a.Judges (Founded o.options given) := by
  intro o v given
  have found :
      ∃ t ∈ ((Request.open o (.iterateBackward (.int 1) (.int 2) Backward.fromA.term)).read none v).results,
        (t.read (some 1) v).world.judgments.length = 4 := by decide +kernel
  obtain ⟨t, ht, hlen⟩ := found
  have hmoment := consumed_read t (some 1) v
  obtain ⟨hstore, hgiven⟩ := (iterate_founded o 1 2 Backward.fromA none v v _ t _ hmoment).1 ht
  exact ⟨t, ht, hmoment, hlen, hstore, hgiven (by decide)⟩

end Request
end ProofSearch
