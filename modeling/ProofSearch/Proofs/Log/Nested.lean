import ProofSearch.Proofs.Log.Control

/-!
# Nested searches with a log

Where a control asks axioms, the query and its context stand in the goal of a search of its own, which draws
from the same counter; so the contexts must bring in no name still to be drawn (`Control.Nests`). Numerals never
do, nor do contexts that updates make of settled queries (`nests_ofRules`). Taken together, a search of any
kind begun at a settled call comes only to calls that are settled at the counter of that moment, and makes goals
equal only to judgments that have no variable in common with the call; the log that says so tells of every event of
the search (`Call.fresh_throughout`).
-/

namespace ProofSearch
open Search
variable {m n : Nat} {q t : Term} {x y : Level}

theorem Draws.le_of_run {β : Type} {d : Draws β} {b : β} (h : d.run n = (.ok b, m)) : n ≤ m := by
  induction d generalizing n with
  | ret c =>
    cases h
    exact Nat.le_refl _
  | raise e => cases h
  | draw d ih => exact (Nat.le_succ n).trans (ih n h)

namespace StopTest
variable {goal : Term → Level → Except Fault Judgment}

/-- As `proved`, with the log of the search over the axioms. -/
def provedLogged (axioms : List Judgment) (depth : Nat) (goal : Term → Level → Except Fault Judgment)
    (q : Term) (x : Level) : Search Note Bool :=
  ofExcept (goal q x) fun g =>
    ((instances g.term (Backward.solveLogged {} depth {} g.term .empty)).firstNoted axioms).map Option.isSome

theorem filterNotes_provedLogged (axioms : List Judgment) (depth : Nat) (q : Term) (x : Level) :
    (provedLogged axioms depth goal q x).filterNotes Note.isOwn = ofDraws (proved axioms depth goal q x) one := by
  unfold provedLogged proved
  cases goal q x with
  | error e => rfl
  | ok g =>
    -- the search over the axioms has no notes of its own to be kept
    have hlogged : (instances g.term (Backward.solveLogged {} depth {} g.term .empty)).filterNotes Note.isOwn =
        (Backward.results {} depth {} g.term).filterNotes fun _ => false := by
      simp [instances, Backward.results, Backward.filterNotes_solveLogged, Backward.filterNotes_solve_untraced]
    show (Search.bind (firstNoted axioms _) _).filterNotes _ = ofDraws (Draws.bind (firstOver axioms _) _) one
    rw [filterNotes_bind, filterNotes_firstNoted, hlogged, firstNoted_filterNotes_false, ofDraws_bind]
    exact ofDraws_one_bind _ _

/-- The search over the axioms begins at a settled call where its goal is settled. -/
theorem throughout_provedLogged (axioms : List Judgment) (depth : Nat) (past : List Note)
    (hgoal : ∀ g, goal q x = .ok g → g.term.Settled n) :
    (provedLogged axioms depth goal q x).Throughout (Logs false) (fun _ past' _ => Entries past past') n past := by
  refine .ofExcept fun g hg => ?_
  have hcall : (Call.mk {} g.term .empty).Settled n :=
    ⟨fun _ h => absurd h List.not_mem_nil, hgoal g hg, Subst.settled_empty n⟩
  have hproof : (instances g.term (Backward.solveLogged {} depth {} g.term .empty)).Throughout (Logs false)
      (fun _ _ _ => True) n past :=
    (Backward.keeps_solveLogged {} depth n _ hcall past).bind fun _ _ _ _ _ =>
      .ofOption fun _ _ => .one trivial
  exact (hproof.firstNoted (fun _ _ _ => Logs.isOwn_eq_false) axioms).bind fun _ _ _ _ hentries => .one hentries

end StopTest

/-! ### Contexts -/

theorem Term.settled_numeral (d n : Nat) : (Term.numeral d).Settled n := by
  induction d with
  | zero => exact settled_sym _
  | succ d ih => simp [numeral, ih]

namespace Level

theorem settled_toTerm_count (i : Int) (n : Nat) : (count i).toTerm.Settled n := by
  have hi : ¬ marked ("\x00" ++ toString i) = true := by simp [marked]
  rw [toTerm, Term.ofText, dif_neg hi]
  exact Term.settled_sym _

theorem settled_toTerm_predecessor (h : x.toTerm.Settled n) : x.predecessor.toTerm.Settled n := by
  cases x with
  | none => exact Term.settled_sym _
  | count i => exact Term.settled_sym _
  | term t =>
    show t.predecessor.Settled n
    unfold Term.predecessor
    split
    · split
      · exact Term.settled_tuple.1 h _ (by simp)
      · exact Term.settled_sym _
    · exact Term.settled_sym _

theorem settled_terminationGoal (hq : q.Settled n) (hx : x.toTerm.Settled n) :
    (x.terminationGoal q).term.Settled n := by
  have hwhy : Var.why.Settled n := Var.settled_of_underscore_notMem (by decide) n
  simp [terminationGoal, Term.settled_judgment, hwhy, hq, hx]

end Level

theorem settled_targetGoal {g : Judgment} (hq : q.Settled n) (h : targetGoal q x = .ok g) :
    g.term.Settled n := by
  have hwhy : Var.why.Settled n := Var.settled_of_underscore_notMem (by decide) n
  unfold targetGoal at h
  cases ht : q.item 2 with
  | error e =>
    rw [ht] at h
    cases h
  | ok t =>
    rw [ht] at h
    cases h
    simp [Term.settled_judgment, hwhy, hq.item ht]

namespace Update
variable {u : Update} {k : Nat}

/-- What the update brings in itself is settled. -/
def Settled (n : Nat) : Update → Prop
  | append s => ∀ r : String, (Term.ofText (r ++ s)).Settled n
  | set t => t.Settled n
  | decrement | predecessor | keep | statement | proof => True

theorem Settled.run (hu : u.Settled n) (hm : n ≤ m) (ht : t.Settled m) (hx : x.toTerm.Settled m)
    (h : (u.run t x).run m = (.ok y, k)) : y.toTerm.Settled k := by
  have part : ∀ i, (Draws.ofExcept ((t.item i).map Level.term)).run m = (.ok y, k) → y.toTerm.Settled k := by
    intro i hi
    cases hp : t.item i with
    | error e =>
      rw [hp] at hi
      cases hi
    | ok p =>
      rw [hp] at hi
      cases hi
      exact ht.item hp
  cases u with
  | decrement =>
    cases x with
    | count i =>
      cases h
      exact Level.settled_toTerm_count _ _
    | none => cases h
    | term t => cases h
  | predecessor =>
    cases h
    exact Level.settled_toTerm_predecessor hx
  | keep =>
    cases h
    exact hx
  | statement => exact part 2 h
  | proof => exact part 1 h
  | append s =>
    cases x with
    | none => cases h
    | count i => cases h
    | term t =>
      simp only [Update.run] at h
      cases hr : t.text with
      | none =>
        rw [hr] at h
        cases h
      | some r =>
        rw [hr] at h
        cases h
        exact (hu r).mono hm
  | set t =>
    cases h
    exact Term.Settled.mono hu hm

end Update

namespace Control
variable {c : Control Level} {axioms : List Judgment} {depth : Nat}
variable {goal : Term → Level → Except Fault Judgment}

/-- The test is a search over the axioms, and from the number `n` on the contexts bring no name into its goal
that is still to be drawn. -/
structure Nests (c : Control Level) (axioms : List Judgment) (depth : Nat)
    (goal : Term → Level → Except Fault Judgment) (n : Nat) : Prop where
  stop : c.stop = StopTest.proved axioms depth goal
  goal : ∀ m t x g, t.Settled m → x.toTerm.Settled m → goal t x = .ok g → g.term.Settled m
  start : c.start.toTerm.Settled n
  abs : ∀ m t x y k, n ≤ m → t.Settled m → x.toTerm.Settled m → (c.abs t x).run m = (.ok y, k) →
    y.toTerm.Settled k
  arg : ∀ m t x y k, n ≤ m → t.Settled m → x.toTerm.Settled m → (c.arg t x).run m = (.ok y, k) →
    y.toTerm.Settled k

theorem Nests.steady (h : c.Nests axioms depth goal n) :
    Steady c (StopTest.provedLogged axioms depth goal) fun m x => n ≤ m ∧ x.toTerm.Settled m where
  mono _ _ _ hm hx := ⟨hx.1.trans hm, hx.2.mono hm⟩
  abs m t x y k ht hx hy := ⟨hx.1.trans (Draws.le_of_run hy), h.abs m t x y k hx.1 ht hx.2 hy⟩
  arg m t x y k ht hx hy := ⟨hx.1.trans (Draws.le_of_run hy), h.arg m t x y k hx.1 ht hx.2 hy⟩
  ask m t x past ht hx := StopTest.throughout_provedLogged axioms depth past fun g => h.goal m t x g ht hx.2

theorem Nests.filterNotes (h : c.Nests axioms depth goal n) (t : Term) (x : Level) :
    (StopTest.provedLogged axioms depth goal t x).filterNotes Note.isOwn = c.plain t x := by
  rw [StopTest.filterNotes_provedLogged, plain, h.stop]

/-- Updates make settled contexts of settled ones. -/
theorem nests_ofRules {abs arg : Update} {start : Level} (habs : abs.Settled n) (harg : arg.Settled n)
    (hstart : start.toTerm.Settled n) (axioms : List Judgment) (depth : Nat) (targetOnly : Bool) :
    let goal := if targetOnly then targetGoal else fun q x => .ok (x.terminationGoal q)
    (ofRules abs arg (.proved axioms depth goal) start).Nests axioms depth goal n where
  stop := rfl
  goal m t x g ht hx hg := by
    cases targetOnly with
    | true => exact settled_targetGoal (x := x) ht hg
    | false =>
      cases hg
      exact Level.settled_terminationGoal ht hx
  start := hstart
  abs m t x y k hm ht hx hy := habs.run hm ht hx hy
  arg m t x y k hm ht hx hy := harg.run hm ht hx hy

theorem nests_ofNumeral (d : Nat) (axioms : List Judgment) (n : Nat) :
    (ofNumeral d axioms).Nests axioms 0 (fun q x => .ok (x.terminationGoal q)) n :=
  have hrules := @nests_ofRules n .predecessor .predecessor (.term (.numeral d)) trivial trivial
    (Term.settled_numeral d n) axioms 0 false
  ⟨hrules.stop, hrules.goal, hrules.start, hrules.abs, hrules.arg⟩

end Control

/-! ### Every search -/

/-- However it is searched from a settled call, the search is one with a log, but for the entries of the log. These
tell of every event that the search notes, and at every moment the call is settled, and the judgment that is tried
has no variable in common with it. -/
theorem Call.fresh_throughout {c : Call} {w : World} (hc : c.Settled w.drawn) :
    (∀ (o : SearchOptions) (depth : Datum), FreshLog (fun n r => r.Settled n) w
      (Backward.solveUnchecked o depth c.env c.goal c.sub)
      (Backward.solveUncheckedLogged o depth c.env c.goal c.sub)) ∧
    (∀ (o : SearchOptions) (d : Nat) (j : Judgment), c.goal = j.term →
      FreshLog (fun n a => a.term.Settled n) w (Forward.chain o c.env d j)
        (Forward.chainLogged o c.env d j)) ∧
    (∀ (κ : Type) (k : Control κ) (o : Control.Options) (b : Control.Bound),
      FreshLog (fun n r => r.Settled n) w (k.solutions o c.env b c.goal c.sub)
        (k.solutionsLogged k.plain o b c)) ∧
    (∀ (k : Control Level) (axioms : List Judgment) (depth : Nat)
      (goal : Term → Level → Except Fault Judgment) (o : Control.Options) (b : Control.Bound),
      k.Nests axioms depth goal w.drawn → FreshLog (fun n r => r.Settled n) w
        (k.solutions o c.env b c.goal c.sub)
        (k.solutionsLogged (StopTest.provedLogged axioms depth goal) o b c)) ∧
    (∀ (d : Nat) (axioms : List Judgment) (o : Control.Options) (b : Control.Bound),
      let k := Control.ofNumeral d axioms
      FreshLog (fun n r => r.Settled n) w (k.solutions o c.env b c.goal c.sub)
        (k.solutionsLogged (StopTest.provedLogged axioms 0 fun q x => .ok (x.terminationGoal q)) o b c)) := by
  have nested : ∀ (k : Control Level) (axioms : List Judgment) (depth : Nat)
      (goal : Term → Level → Except Fault Judgment) (o : Control.Options) (b : Control.Bound),
      k.Nests axioms depth goal w.drawn → FreshLog (fun n r => r.Settled n) w
        (k.solutions o c.env b c.goal c.sub)
        (k.solutionsLogged (StopTest.provedLogged axioms depth goal) o b c) := by
    intro k axioms depth goal o b h
    have hkeeps := Control.keeps_solutionsLogged (o := o) h.steady b hc ⟨Nat.le_refl _, h.start⟩
    exact (hkeeps []).freshLog (Control.filterNotes_solutionsLogged h.filterNotes o b c)
  refine ⟨fun o depth => ?_, fun o d j hj => ?_, fun κ k o b => ?_, nested, fun d axioms o b => ?_⟩
  · have hkeeps := Backward.keeps_solveUncheckedLogged o depth _ c hc
    exact (hkeeps []).freshLog (Backward.filterNotes_solveUncheckedLogged o depth c.env c.goal c.sub)
  · have hmakes := Forward.makes_chainLogged o d hc.env (hj ▸ hc.goal)
    exact (hmakes []).freshLog (Forward.filterNotes_chainLogged o c.env d j)
  · have hask : ∀ t x, (k.plain t x).filterNotes Note.isOwn = k.plain t x := fun t x => by simp [Control.plain]
    have hkeeps := Control.keeps_solutionsLogged (o := o) (Control.steady_plain k) b hc trivial
    exact (hkeeps []).freshLog (Control.filterNotes_solutionsLogged hask o b c)
  · exact nested _ axioms 0 _ o b (Control.nests_ofNumeral d axioms w.drawn)

/-- A rule that was put into the store with names of draws. -/
def Judgment.withDrawnNames : Judgment :=
  ⟨.tuple [.ofText "mp", .var (.drawn "p" 5)], .arrow [.var (.drawn "p" 5)] (.var (.drawn "q" 6))⟩

/-- A call with names of the first five draws in its goal, its environment and its substitution. -/
def Call.ofDrawnNames : Call where
  env := ⟨[⟨.ofText "h", .var (.drawn "e" 4)⟩]⟩
  goal := (Judgment.mk (.var (.drawn "prf" 2)) (.var (.drawn "x" 4))).term
  sub := Subst.empty.bind (.drawn "y" 3) (.var (.drawn "x" 4))

/-- The next number to be drawn is one that a stored rule has in its names. The search notes 18 events, and leaves 37
entries besides. -/
theorem Call.fresh_throughout_ofDrawnNames : ofDrawnNames.Settled 5 ∧
    let w : World := ⟨[.withDrawnNames, ⟨.ofText "a", .ofText "A"⟩], 5⟩
    let k := Control.ofNumeral 1 [Control.spent]
    let ask := StopTest.provedLogged [Control.spent] 0 fun q x => .ok (x.terminationGoal q)
    let o : Control.Options := { traced := true }
    let t := k.solutionsLogged ask o .unbounded ofDrawnNames
    let reading := t.read none w
    FreshLog (fun n r => r.Settled n) w
      (k.solutions o ofDrawnNames.env .unbounded ofDrawnNames.goal ofDrawnNames.sub) t ∧
    reading.results.size = 8 ∧ (reading.notes.toList.filter Note.isOwn).length = 18 ∧
    (reading.notes.toList.filter fun x => !x.isOwn).length = 37 := by
  have hx := Var.settled_drawn "x" (show 4 < 5 by decide)
  have hc : ofDrawnNames.Settled 5 := by
    refine ⟨List.forall_mem_singleton.2 ?_, ?_, ?_⟩
    · exact Term.settled_judgment.2 ⟨Term.settled_sym _, Term.settled_var.2 (Var.settled_drawn "e" (by decide))⟩
    · exact Term.settled_judgment.2
        ⟨Term.settled_var.2 (Var.settled_drawn "prf" (by decide)), Term.settled_var.2 hx⟩
    · exact (Subst.settled_empty 5).bind (Var.settled_drawn "y" (by decide)) (Term.settled_var.2 hx)
  refine ⟨hc, ?_, by decide +kernel, by decide +kernel, by decide +kernel⟩
  exact (fresh_throughout (w := ⟨_, 5⟩) hc).2.2.2.2 1 [Control.spent] { traced := true } .unbounded

end ProofSearch
