import ProofSearch.Proofs.Backward.Completeness
import ProofSearch.Proofs.Backward.Monotone
import ProofSearch.Proofs.Forward.Soundness
import ProofSearch.Proofs.Rounds.Commit
import ProofSearch.Proofs.Rounds.Founded
import ProofSearch.Proofs.Search.Moments

/-!
# Rounds keep the store free of overlaps

Whatever rounds put into the store comes behind what was there, and overlaps with nothing before it
(`Committed`). It is an invariant of the store alone, kept by each insertion (`KeptByCommits`), so it holds at
every moment, however a search that is carried through rounds goes from branch to branch and back. That the
results of a round are held when they are given rests on their names: they end in no number still to be drawn,
so the query of the store that decides about an insertion misses nothing and takes nothing for something else.
-/

namespace ProofSearch
variable {ν : Type} {F : Fault → Prop} {I : List Judgment → Prop} {w w' : World}
variable {js : List Judgment} {j : Judgment} {n : Nat}

namespace Rounds
open Search
variable {step : Term → Search Note Term}

/-- A round holds all its results when they are given, or carried on. -/
theorem ensures_round_held (hI : KeptByCommits I) (verbose : Bool) (r number : Nat) (item : Term)
    (hw : I w.judgments)
    (hitem : (step item).Always w.judgments F (fun m t => t.JudgesSettled m) w.drawn)
    (hrest : ∀ (j : Judgment) (w' : World), w.GrowsTo w' → j.term.Settled w'.drawn →
      j.HeldBy w'.judgments → I w'.judgments → (iterate step verbose r (number + 1) j.term).Ensures F I
        (fun w'' t => t.Judges (·.HeldBy w''.judgments)) w') :
    (iterate step verbose (r + 1) number item).Ensures F I
      (fun w' t => t.Judges (·.HeldBy w'.judgments)) w := by
  refine ensures_round (H := fun w t => t.Judges fun j => j.term.Settled w.drawn ∧ j.HeldBy w.judgments)
    hw hitem (fun w₁ results hw₁ hresults => ?_) ?_
  · have hsettled : ∀ t ∈ results, t.JudgesSettled w₁.drawn := fun t ht => by
      obtain ⟨m, hm, h⟩ := hresults t ht
      exact h.imp fun _ h => h.mono hm
    refine (returns_commit hI hw₁ verbose hsettled).ensures.mono fun w₂ _ h₂ hheld t ht => ?_
    obtain ⟨j, rfl, hj⟩ := hsettled t ht
    obtain ⟨i, hi, hheld⟩ := hheld.2 _ ht
    obtain rfl := Judgment.term_injective hi
    exact ⟨j, rfl, hj.mono h₂.drawn_le, hheld⟩
  · rintro w₂ w' _ h₂ h₃ ⟨j, rfl, hj, hheld⟩ hw'
    exact hrest j w' (h₂.trans h₃) (hj.mono h₃.drawn_le) (hheld.of_subset h₃.isPrefix.subset) hw'

theorem ensures_iterate_held (hI : KeptByCommits I)
    (hstep : ∀ (j : Judgment) (w' : World), w.GrowsTo w' → j.term.Settled w'.drawn →
      (step j.term).Always w'.judgments F (fun m t => t.JudgesSettled m) w'.drawn)
    (verbose : Bool) (r number : Nat) (hj : j.term.Settled w.drawn)
    (hheld : j.HeldBy w.judgments) (hw : I w.judgments) :
    (iterate step verbose r number j.term).Ensures F I
      (fun w' t => t.Judges (·.HeldBy w'.judgments)) w := by
  induction r generalizing number j w with
  | zero => exact .one ⟨j, rfl, hheld⟩
  | succ r ih =>
    refine ensures_round_held hI verbose r number j.term hw (hstep j w (.refl w) hj) ?_
    intro i w' hgrows hi hheld hw'
    exact ih (fun i w'' h => hstep i w'' (hgrows.trans h)) (number + 1) hi hheld hw'

end Rounds

theorem Backward.always_results_settled {o : SearchOptions} (hF : o.arities.broken = true → F .mismatch) (d : Nat)
    {env : Environment} (henv : env.Settled n) {q : Judgment} (hq : q.term.Settled n) :
    (results o d env q.term).Always js F (fun m t => t.JudgesSettled m) n := by
  refine (always_results_proved hF d env q n).mono fun m t hm h => ?_
  obtain ⟨r, hr, rfl⟩ := h
  have hrset := hr.settled_end (hq.mono hm) (henv.mono hm)
  exact ⟨q.subst r.value, rfl, hrset.subst_value hr.acyclic (hq.mono hm)⟩

/-- Read to its end the search leaves the store as it was, and gives judgments none of whose variables is still
to be drawn. -/
theorem Backward.exists_read_results {o : SearchOptions} (ha : o.arities.broken = false) (d : Nat)
    {env : Environment} (henv : env.Settled w.drawn) {q : Judgment} (hq : q.term.Settled w.drawn) :
    let reading := (results o d env q.term).read none w
    w.GrowsTo reading.world ∧ reading.world.judgments = w.judgments ∧ ∃ items : List Judgment,
      reading.results.toList = items.map Judgment.term ∧ ∀ j ∈ items, j.term.Settled reading.world.drawn := by
  intro reading
  have hall : (results o d env q.term).Always w.judgments (fun _ => False) _ w.drawn :=
    always_results_settled (fun hb => Bool.false_ne_true (ha.symm.trans hb)) d henv hq
  have hread := hall.read none
  have hjudges : ∀ t ∈ reading.results.toList, t.JudgesSettled reading.world.drawn := fun t ht => by
    obtain ⟨m, hm, h⟩ := hread.of_mem (Array.mem_toList_iff.1 ht)
    exact h.imp fun _ h => h.mono hm
  exact ⟨⟨hread.drawn_le, hread.judgments ▸ List.prefix_rfl⟩, hread.judgments, Term.exists_map_term hjudges⟩

/-! ### Requests -/

namespace Settings

/-- The faults of the settings in a backward search: in the arities, or in the environment. -/
inductive Faulty (o : Settings) : Fault → Prop
  | arities {e : Fault} (h : checkArities (o.arities.getD [.int 1]) = .error e) : Faulty o e
  | broken (h : o.options.arities.broken = true) : Faulty o .mismatch
  | environment {e : Fault} (h : Environment.ofTerms o.env = .error e) : Faulty o e

/-- Those in a forward search, which is not to be told what only a backward one has. -/
inductive FaultyForward (o : Settings) : Fault → Prop
  | backwardOnly {e : Fault} (h : Request.checkForward o = .error e) : FaultyForward o e
  | environment {e : Fault} (h : Environment.ofTerms o.env = .error e) : FaultyForward o e

end Settings

namespace Request
open Search
variable {o : Settings} {q : Judgment}

theorem faulty_of_backwardOver {d : Nat} {q : Term} {e : Fault} (h : backwardOver o d q = .error e) :
    o.Faulty e := by
  unfold backwardOver at h
  cases ha : checkArities (o.arities.getD [.int 1]) with
  | error e' =>
    rw [ha] at h
    cases h
    exact .arities ha
  | ok a =>
    cases henv : Environment.ofTerms o.env with
    | error e' =>
      rw [ha, henv] at h
      cases h
      exact .environment henv
    | ok env =>
      rw [ha, henv] at h
      cases h

theorem faultyForward_of_forwardOver {d : Nat} {e : Fault} (h : forwardOver o d j = .error e) : o.FaultyForward e := by
  unfold forwardOver at h
  cases henv : Environment.ofTerms o.env with
  | error e' =>
    rw [henv] at h
    cases h
    exact .environment henv
  | ok env =>
    rw [henv] at h
    cases h

theorem always_backwardStep_settled (d : Nat) (henv : ∀ i ∈ o.entries, i.term.Settled n)
    (hq : q.term.Settled n) :
    (backwardStep o d q.term).Always js o.Faulty (fun m t => t.JudgesSettled m) n := by
  unfold backwardStep
  cases ht : backwardOver o d q.term with
  | error e => exact faulty_of_backwardOver ht
  | ok t =>
    obtain ⟨env, he, rfl⟩ := backwardOver_eq_ok ht
    exact Backward.always_results_settled .broken d (fun i hi => henv i (he ▸ hi)) hq

theorem always_forwardStep_settled (d : Nat) (henv : ∀ i ∈ o.entries, i.term.Settled n)
    (hj : j.term.Settled n) :
    (forwardStep o d j.term).Always js o.FaultyForward (fun m t => t.JudgesSettled m) n := by
  unfold forwardStep
  cases hcheck : checkForward o with
  | error e => exact .backwardOnly hcheck
  | ok _ =>
    rw [checkQuery_term]
    show Always js _ _ (ofExcept (forwardOver o d j) id) n
    cases ht : forwardOver o d j with
    | error e => exact faultyForward_of_forwardOver ht
    | ok t =>
      obtain ⟨env, he, rfl⟩ := forwardOver_eq_ok ht
      have hset : env.Settled n := fun i hi => henv i (he ▸ hi)
      have hchain : (Forward.chain { traced := o.traced } env d j).Always js o.FaultyForward _ n :=
        Forward.always_chain_of_all (fun h => by cases h) List.mem_cons_self env d j n
      refine .bind (hchain.mono fun m a hm ha => .one ⟨a, rfl, ?_⟩)
      exact ha.settled m (Nat.le_refl m) (hset.mono hm) (hj.mono hm)

/-! ### Every moment -/

/-- The judgments `js'` are `js` with some behind them none of which was held when it was put in. -/
def NovelOver (js js' : List Judgment) : Prop := ∃ added, js' = js ++ added ∧ Novel js added

theorem keptByCommits_novelOver (js : List Judgment) : KeptByCommits (NovelOver js) := by
  rintro _ j ⟨added, rfl, hadded⟩ hj
  exact ⟨added ++ [j], List.append_assoc _ _ _, hadded.append (.singleton hj)⟩

theorem novelOver_self (js : List Judgment) : NovelOver js js := ⟨[], (List.append_nil js).symm, .nil js⟩

/-- With `added` put in, the store has them behind `js`, in the order they were put in, and held none of them
before; and if it is a failure that is left, it is one that `F` allows, and none of a commit. -/
structure Committed (F : Fault → Prop) (js added js' : List Judgment) {α : Type} (left : Search Note α) :
    Prop where
  judgments : js' = js ++ added
  novel : Novel js added
  fault : ∀ e, left = .fail e → F e

theorem Committed.of_ensures {α : Type} {P : World → α → Prop} {t u : Search Note α} {v v' : World}
    {as : List α} (h : t.Ensures F (NovelOver v.judgments) P v) (ht : t.ComesTo v as js u v') :
    Committed F v.judgments js v'.judgments u ∧ ∀ a ∈ as, ∃ w : World, w.GrowsTo v' ∧ P w a := by
  have hv := novelOver_self v.judgments
  obtain ⟨-, ⟨added, hstore, hadded⟩, has⟩ := h.comesTo hv ht
  obtain rfl : js = added := List.append_cancel_left (ht.judgments_eq.symm.trans hstore)
  exact ⟨⟨hstore, hadded, fun e he => h.of_fail hv (he ▸ ht)⟩, has⟩

/-- What has been given is held ever after. -/
theorem Committed.answers {p : Prop} {t : Search Note Term} {u : Search Note Answer} {v v' : World}
    {as : List Answer} (h : t.Ensures F (NovelOver v.judgments)
      (fun w t => p → t.Judges (·.HeldBy w.judgments)) v) (ht : (t.map .term).ComesTo v as js u v') :
    Committed F v.judgments js v'.judgments u ∧ (p → ∀ a ∈ as, a.Judges (·.HeldBy v'.judgments)) := by
  have hmap : (t.map Answer.term).Ensures F (NovelOver v.judgments)
      (fun w a => p → a.Judges (·.HeldBy w.judgments)) v :=
    .map (novelOver_self _) (h.mono fun _ _ _ ht hp => (ht hp).answer)
  obtain ⟨hcommitted, has⟩ := Committed.of_ensures hmap ht
  refine ⟨hcommitted, fun hp a ha => ?_⟩
  obtain ⟨w, hgrows, h⟩ := has a ha
  obtain ⟨j, rfl, hj⟩ := h hp
  exact ⟨j, rfl, hj.of_subset hgrows.isPrefix.subset⟩

theorem committed_rounds {step : Nat → Term → Search Note Term} {d r : Nat} {limit : Option Nat}
    {v v' : World} {t u : Search Note Answer} {as : List Answer} (hq : q.term.Settled v.drawn)
    (hstep : ∀ (j : Judgment) (w' : World), v.GrowsTo w' → j.term.Settled w'.drawn →
      (step d j.term).Always w'.judgments F (fun m t => t.JudgesSettled m) w'.drawn)
    (ht : t ∈ ((rounds o (.int d) (.int r) q.term step).read limit w).results)
    (hv : t.ComesTo v as js u v') :
    Committed F v.judgments js v'.judgments u ∧ (1 ≤ r → ∀ a ∈ as, a.Judges (·.HeldBy v'.judgments)) := by
  obtain rfl := eq_of_mem_rounds ht
  refine Committed.answers ?_ hv
  have hI := keptByCommits_novelOver v.judgments
  have hself := novelOver_self v.judgments
  cases r with
  | zero => exact .one fun hr => absurd hr (Nat.not_succ_le_zero 0)
  | succ r =>
    have hround := Rounds.ensures_round_held hI (o.verbose.getD false) r 1 q.term hself
      (hstep q v (.refl v) hq) fun j w' hgrows hj hheld hw' =>
        Rounds.ensures_iterate_held hI (fun i w'' h => hstep i w'' (hgrows.trans h)) _ r 2 hj hheld hw'
    exact hround.mono fun _ _ _ h _ => h

section
variable {v v' : World} {d r : Nat} {as : List (Search Note Answer)} {u : Search Note (Search Note Answer)}
variable (henv : ∀ w', v.GrowsTo w' → ∀ j ∈ o.entries, j.term.Settled w'.drawn)
include henv

theorem committed_lemmas {pattern : Option Judgment} (hp : ∀ p ∈ pattern, p.term.Settled v.drawn)
    (hv : (Request.open o (.lemmas (.int d) (.int r) (pattern.map Judgment.term))).ComesTo v as js u v') :
    Committed o.Faulty v.judgments js v'.judgments u ∧ ∀ t ∈ as, t = ofList (js.map fun j => .term j.term) := by
  have hopen : (pattern.map Judgment.term).getD openQuery = (pattern.getD openPattern).term := by
    cases pattern <;> rfl
  have hp' : (pattern.getD openPattern).term.Settled v.drawn := by
    cases pattern with
    | none => exact settled_openPattern _
    | some p => exact hp p rfl
  have hreturns : (Request.open o (.lemmas (.int d) (.int r) (pattern.map Judgment.term))).Returns o.Faulty
      (NovelOver v.judgments) (fun w t => ∃ new, v.Adds new w ∧ t = ofList (new.map .term)) v := by
    rw [Request.open, hopen]
    refine returns_lemmaRounds (keptByCommits_novelOver _) d r _ (novelOver_self _) (fun w' hw => ?_) ?_
    · exact always_backwardStep_settled d (henv w' hw) (hp'.mono hw.drawn_le)
    · exact fun w' new _ hadds => .one ⟨new, hadds, rfl⟩
  refine ⟨(Committed.of_ensures hreturns.ensures hv).1, fun t ht => ?_⟩
  obtain ⟨m, -, new, ⟨added, hstore, -, rfl⟩, rfl⟩ := hreturns.of_given hv ht
  obtain rfl : js = added := List.append_cancel_left (hv.judgments_eq.symm.trans hstore)
  rw [List.map_map]
  rfl

theorem committed_proveWithLemmas
    (hv : (Request.open o (.proveWithLemmas (.int d) (.int r) q.term)).ComesTo v as js u v') :
    Committed o.Faulty v.judgments js v'.judgments u ∧ ∀ t ∈ as, ∀ w bs more left w',
      t.ComesTo w bs more left w' → more = [] ∧ ∀ e, left = .fail e → o.Faulty e := by
  have hreturns : (Request.open o (.proveWithLemmas (.int d) (.int r) q.term)).Returns o.Faulty
      (NovelOver v.judgments) (fun _ t => ∀ is n, t.Always is o.Faulty (fun _ _ => True) n) v := by
    rw [Request.open, checkQuery_term]
    refine returns_lemmaRounds (k := fun d _ => laterTerms (backwardOver o d q.term))
      (keptByCommits_novelOver _) d r openPattern (novelOver_self _) (fun w' hw => ?_) fun w' new _ _ => ?_
    · exact always_backwardStep_settled d (henv w' hw) (settled_openPattern _)
    unfold laterTerms
    cases ht : backwardOver o d q.term with
    | error e => exact faulty_of_backwardOver ht
    | ok t =>
      obtain ⟨env, -, rfl⟩ := backwardOver_eq_ok ht
      refine .one fun is n => .bind ?_
      exact (Backward.always_results_proved .broken d env q n).mono fun _ _ _ _ => .one trivial
  obtain ⟨hcommitted, has⟩ := Committed.of_ensures hreturns.ensures hv
  refine ⟨hcommitted, fun t ht w bs more left w' hw => ?_⟩
  obtain ⟨_, -, hall⟩ := has t ht
  obtain ⟨hnone, hleft⟩ := (hall w.judgments w.drawn).comesTo hw
  refine ⟨hnone, fun e he => ?_⟩
  rwa [he] at hleft

end

/-- At every moment of a search that is carried through rounds the store is the one there was at the start,
with the judgments put in behind it, none of which overlaps with one before it; and it holds whatever the
search has given, save a query that no round was asked for. It is so at every moment of rounds of lemmas, which
come back with the judgments put in, and what is read behind them puts in no more. No failure is one of a
commit. -/
theorem open_committed (o : Settings) (d r : Nat) (q : Judgment) (v v' : World) (added : List Judgment)
    (hq : q.term.Settled v.drawn) (henv : ∀ j ∈ o.entries, j.term.Settled v.drawn) :
    (∀ t as u limit w,
      t ∈ ((Request.open o (.iterateBackward (.int d) (.int r) q.term)).read limit w).results →
      t.ComesTo v as added u v' → Committed o.Faulty v.judgments added v'.judgments u ∧
        (1 ≤ r → ∀ a ∈ as, a.Judges (·.HeldBy v'.judgments))) ∧
    (∀ t as u limit w,
      t ∈ ((Request.open o (.iterateForward (.int d) (.int r) q.term)).read limit w).results →
      t.ComesTo v as added u v' → Committed o.FaultyForward v.judgments added v'.judgments u ∧
        (1 ≤ r → ∀ a ∈ as, a.Judges (·.HeldBy v'.judgments))) ∧
    (∀ (pattern : Option Judgment) as u, (∀ p ∈ pattern, p.term.Settled v.drawn) →
      (Request.open o (.lemmas (.int d) (.int r) (pattern.map Judgment.term))).ComesTo v as added u v' →
      Committed o.Faulty v.judgments added v'.judgments u ∧
        ∀ t ∈ as, t = ofList (added.map fun j => .term j.term)) ∧
    ∀ as u, (Request.open o (.proveWithLemmas (.int d) (.int r) q.term)).ComesTo v as added u v' →
      Committed o.Faulty v.judgments added v'.judgments u ∧
        ∀ t ∈ as, ∀ w bs more left w', t.ComesTo w bs more left w' →
          more = [] ∧ ∀ e, left = .fail e → o.Faulty e := by
  have henv' : ∀ w' : World, v.GrowsTo w' → ∀ j ∈ o.entries, j.term.Settled w'.drawn := fun w' hw j hj =>
    (henv j hj).mono hw.drawn_le
  refine ⟨fun t as u limit w ht hv => ?_, fun t as u limit w ht hv => ?_, fun pattern as u hp hv => ?_,
    fun as u hv => ?_⟩
  · exact committed_rounds hq (fun j w' hw => always_backwardStep_settled d (henv' w' hw)) ht hv
  · exact committed_rounds hq (fun j w' hw => always_forwardStep_settled d (henv' w' hw)) ht hv
  · exact committed_lemmas henv' hp hv
  · exact committed_proveWithLemmas henv' hv

/-- Over `f : (-> $t (L $t))`, with `a : A` assumed. Two rounds for a list have put in the two lists of the
first when the first answer is taken; two rounds forward from `a : A` have put in three judgments in the end;
two rounds of lemmas put in four, and one round for all judgments three. -/
theorem open_committed_listing :
    let o : Settings := { env := [Backward.inA.term] }
    let v : World := ⟨[Backward.listing], 0⟩
    let q := Backward.someList
    (∀ j ∈ q :: Backward.inA :: o.entries, j.term.Settled v.drawn) ∧
    (∃ t ∈ ((Request.open o (.iterateBackward (.int 1) (.int 2) q.term)).read none v).results,
      let reading := t.read (some 1) v
      ∃ added left, t.ComesTo v reading.results.toList added left reading.world ∧
        reading.world.judgments.length = 3 ∧ Committed o.Faulty v.judgments added reading.world.judgments left ∧
        ∀ a ∈ reading.results.toList, a.Judges (·.HeldBy reading.world.judgments)) ∧
    (∃ t ∈ ((Request.open o (.iterateForward (.int 1) (.int 2) Backward.inA.term)).read none v).results,
      let reading := t.read none v
      ∃ added left, t.ComesTo v reading.results.toList added left reading.world ∧
        reading.world.judgments.length = 4 ∧ Committed o.FaultyForward v.judgments added reading.world.judgments left ∧
        ∀ a ∈ reading.results.toList, a.Judges (·.HeldBy reading.world.judgments)) ∧
    (let opened := (Request.open o (.lemmas (.int 1) (.int 2) (some q.term))).read none v
      ∃ added left, (Request.open o (.lemmas (.int 1) (.int 2) (some q.term))).ComesTo v
          opened.results.toList added left opened.world ∧ opened.world.judgments.length = 5 ∧
        Committed o.Faulty v.judgments added opened.world.judgments left ∧
        ∀ t ∈ opened.results.toList, t = ofList (added.map fun j => .term j.term)) ∧
    let opened := (Request.open o (.proveWithLemmas (.int 1) (.int 1) q.term)).read none v
    ∃ added left, (Request.open o (.proveWithLemmas (.int 1) (.int 1) q.term)).ComesTo v
        opened.results.toList added left opened.world ∧ opened.world.judgments.length = 4 ∧
      Committed o.Faulty v.judgments added opened.world.judgments left ∧
      ∀ t ∈ opened.results.toList, ∀ w bs more left w', t.ComesTo w bs more left w' →
        more = [] ∧ ∀ e, left = .fail e → o.Faulty e := by
  intro o v q
  have hset : ∀ j ∈ q :: Backward.inA :: o.entries, j.term.Settled v.drawn := by
    have hplain : ∀ j ∈ q :: Backward.inA :: o.entries, ∀ x ∈ j.term.vars, '_' ∉ x.text.toList := by decide
    exact fun j hj => Term.settled_of_underscore_notMem (hplain j hj) 0
  obtain ⟨hq, ha, henv⟩ := List.forall_mem_cons.1 hset |>.imp id List.forall_mem_cons.1
  refine ⟨hset, ?_, ?_, ?_, ?_⟩
  · have found : ∃ t ∈ ((Request.open o (.iterateBackward (.int 1) (.int 2) q.term)).read none v).results,
        (t.read (some 1) v).world.judgments.length = 3 := by decide +kernel
    obtain ⟨t, ht, hlen⟩ := found
    obtain ⟨added, left, hv⟩ := (consumed_read t (some 1) v).exists_comesTo
    obtain ⟨hcommitted, hheld⟩ := (open_committed o 1 2 q v _ added hq henv).1 t _ left none v ht hv
    exact ⟨t, ht, added, left, hv, hlen, hcommitted, hheld (by decide)⟩
  · have found :
        ∃ t ∈ ((Request.open o (.iterateForward (.int 1) (.int 2) Backward.inA.term)).read none v).results,
        (t.read none v).world.judgments.length = 4 := by decide +kernel
    obtain ⟨t, ht, hlen⟩ := found
    obtain ⟨added, left, hv⟩ := (consumed_read t none v).exists_comesTo
    obtain ⟨hcommitted, hheld⟩ :=
      (open_committed o 1 2 Backward.inA v _ added ha henv).2.1 t _ left none v ht hv
    exact ⟨t, ht, added, left, hv, hlen, hcommitted, hheld (by decide)⟩
  · have hlen : ((Request.open o (.lemmas (.int 1) (.int 2) (some q.term))).read none v).world.judgments.length
        = 5 := by decide +kernel
    obtain ⟨added, left, hv⟩ :=
      (consumed_read (Request.open o (.lemmas (.int 1) (.int 2) (some q.term))) none v).exists_comesTo
    have hmoment := (open_committed o 1 2 q v _ added hq henv).2.2.1 (some q) _ left
      (fun p hp => Option.mem_some.1 hp ▸ hq) hv
    exact ⟨added, left, hv, hlen, hmoment⟩
  · have hlen : ((Request.open o (.proveWithLemmas (.int 1) (.int 1) q.term)).read none v).world.judgments.length
        = 4 := by decide +kernel
    obtain ⟨added, left, hv⟩ :=
      (consumed_read (Request.open o (.proveWithLemmas (.int 1) (.int 1) q.term)) none v).exists_comesTo
    exact ⟨added, left, hv, hlen, (open_committed o 1 1 q v _ added hq henv).2.2.2 _ left hv⟩

end Request
end ProofSearch
