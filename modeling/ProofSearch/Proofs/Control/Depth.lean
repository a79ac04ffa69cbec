import ProofSearch.Proofs.Control.Never
import ProofSearch.Proofs.Search.Simulation

/-!
# Depth as a control

A search that a count steers gives what the search within that depth gives, one result for another
(`read_results_ofDepth`). The two are not one program: where the count is spent, the controlled search
still draws two numbers and takes the query apart before it stops, so from there on the same names carry
other numbers. The search within the depth is that of a control that never stops, under a bound on the
levels (`solve_eq_backward`); against it the count is run level by level (`sim_solve`).
-/

namespace ProofSearch
variable {js : List Judgment} {l : Link} {s s' : Subst} {q q' : Term} {env env' : Environment}

namespace Control
open Search
variable {κ κ' : Type} {c : Control κ} {c' : Control κ'} {g g' : Judgment}

/-! ### One level -/

/-- In their contexts the two controls stop both, or both do not, whatever they are asked about. The second
may draw numbers before it answers. -/
structure Agree (c : Control κ) (c' : Control κ') (x : κ) (x' : κ') (stopped : Bool) : Prop where
  stop : ∀ t, c.stop t x = .ret stopped
  stop' : ∀ t n, t.Settled n → ((c'.stop t x').run n).1 = .ok stopped

/-- The contexts of the goals of a query in the context `x`, whatever the query is. -/
structure Passes (c : Control κ) (x y z : κ) : Prop where
  abs : ∀ t, c.abs t x = .ret y
  arg : ∀ t, c.arg t x = .ret z

variable {x y z : κ} {x' y' z' : κ'} {stopped recheck : Bool}

theorem Agree.sim (h : Agree c c' x x' stopped) {t t' : Term} (ht : Term.Counterpart l t t')
    {k k' : Bool → Search Note Subst}
    (hk : ∀ l', l.GrowsTo l' → Sim js Subst.Counterpart l' (k stopped) (k' stopped)) :
    Sim js Subst.Counterpart l (ofDraws (c.stop t x) k) (ofDraws (c'.stop t' x') k') := by
  rw [h.stop]
  exact .ofDraws (h.stop' t' l.right ht.settled) hk

theorem sim_base (h : recheck = true → ∃ stopped, Agree c c' x x' stopped) (hs : Subst.Counterpart l s s')
    (hq : Term.Counterpart l q q') (henv : Environment.Counterpart l env env') :
    Sim js Subst.Counterpart l (base c { recheck } env x q s) (base c' { recheck } env' x' q' s') := by
  refine Sim.bind (.known hs hq henv) fun l' r r' hl hr => ?_
  rw [hr.acyclic.instantiate?_eq, hr.acyclic'.instantiate?_eq]
  cases recheck with
  | false => exact .one hr
  | true =>
    obtain ⟨stopped, hstop⟩ := h rfl
    refine hstop.sim (hr.subst_value (hq.mono hl)) fun l'' hl' => ?_
    cases stopped with
    | false => exact .one (hr.mono hl')
    | true => exact .done

/-- The two ways to prove a goal, once the link `l` has been reached. -/
def Simulates (js : List Judgment) (l : Link) (prove prove' : Term → Subst → Search Note Subst) : Prop :=
  ∀ l' s s' g g', l.GrowsTo l' → Subst.Counterpart l' s s' → Judgment.Counterpart l' g g' →
    Sim js Subst.Counterpart l' (prove g.term s) (prove' g'.term s')

/-- Both searches take the query apart. Where they do not stop then, the ways to prove the goals are to be
the same. -/
theorem sim_expand (h : Agree c c' x x' stopped) {prove : κ → Term → Subst → Search Note Subst}
    {prove' : κ' → Term → Subst → Search Note Subst}
    (hnext : stopped = false → ∃ y z y' z', c.Passes x y z ∧ c'.Passes x' y' z' ∧
      Simulates js l (prove y) (prove' y') ∧ Simulates js l (prove z) (prove' z'))
    (hs : Subst.Counterpart l s s') (hg : Judgment.Counterpart l g g') :
    Sim js Subst.Counterpart l (expand c { recheck } prove x g.term s)
      (expand c' { recheck } prove' x' g'.term s') := by
  have hl := l.growsTo_draw.trans l.draw.growsTo_draw
  have habs := (Term.counterpart_var (l.pairs_drawn "abs" (by decide))).mono l.draw.growsTo_draw
  have harg := Term.counterpart_var (l.draw.pairs_drawn "arg" (by decide))
  have happ := Term.counterpart_tuple (.cons habs (.cons harg .nil))
  refine .draw (.draw (.unify (hs.mono hl) (hg.proof.mono hl) happ fun r r' hr => ?_))
  rw [hr.acyclic.instantiate?_eq, hr.acyclic'.instantiate?_eq]
  refine h.sim (hr.subst_value (hg.term.mono hl)) fun l₁ h₁ => ?_
  cases stopped with
  | true => exact .done
  | false =>
    obtain ⟨y, z, y', z', hc, hc', hhead, harguments⟩ := hnext rfl
    simp only [noteIf, hc.abs, hc.arg, hc'.abs, hc'.arg, ofDraws, Bool.false_eq_true, if_false]
    have hgrown := h₁.trans l₁.growsTo_draw
    have hprms := Term.counterpart_var (l₁.pairs_drawn "prms" (by decide))
    have hstatement := hg.statement.mono (hl.trans hgrown)
    have harrow := Term.counterpart_arrow (.cons hprms .nil) hstatement
    refine .draw (Sim.bind (hhead _ _ _ ⟨_, _⟩ ⟨_, _⟩ (hl.trans hgrown) (hr.mono hgrown)
      ⟨habs.mono hgrown, harrow⟩) fun l₂ r r' h₂ hr => ?_)
    exact harguments _ _ _ ⟨_, _⟩ ⟨_, _⟩ ((hl.trans hgrown).trans h₂) hr
      ⟨harg.mono (hgrown.trans h₂), hprms.mono h₂⟩

/-- A search that has nothing more to give goes with one that is about to stop. -/
theorem sim_done_expand {x' : κ'} (hc' : ∀ t, c'.stop t x' = .ret true)
    {prove' : κ' → Term → Subst → Search Note Subst} (hs' : s'.Acyclic) :
    Sim js Subst.Counterpart l done (expand c' {} prove' x' g'.term s') := by
  refine .drawRight (.drawRight (.done_unify hs' fun r' hr' => ?_))
  rw [hr'.instantiate?_eq]
  simp only [ofOption, hc', ofDraws]
  exact .done

/-! ### All levels -/

/-- A control that never stops, and has one context. -/
def never : Control Unit where
  abs _ _ := .ret ()
  arg _ _ := .ret ()
  stop _ _ := .ret false
  start := ()
  level _ := .null

theorem passes_never : never.Passes () () () := ⟨fun _ => rfl, fun _ => rfl⟩

theorem stop_ofDepth (d n : Nat) (t : Term) : (ofDepth d).stop t (.count n) = .ret (decide (n = 0)) := by
  show Draws.ret (decide ((n : Int) ≤ 0)) = _
  rw [decide_eq_decide.2 (by omega : (n : Int) ≤ 0 ↔ n = 0)]

theorem passes_ofDepth (d n : Nat) :
    (ofDepth d).Passes (.count (n + 1 : Nat)) (.count n) (.count n) := by
  have hnext : ((n + 1 : Nat) : Int) - 1 = n := by omega
  have hdecrement : ∀ t, Update.decrement.run t (.count (n + 1 : Nat)) = .ret (.count n) := fun t =>
    congrArg (fun k => Draws.ret (Level.count k)) hnext
  exact ⟨hdecrement, hdecrement⟩

theorem agree_never_ofDepth (d n : Nat) : Agree never (ofDepth d) () (.count (n + 1 : Nat)) false where
  stop _ := rfl
  stop' t _ _ := by
    rw [stop_ofDepth]
    rfl

/-- The count `n` is spent after `n` levels, and the search goes into one more to find that out. -/
theorem sim_solve (d n : Nat) (hs : Subst.Counterpart l s s') (hg : Judgment.Counterpart l g g')
    (henv : Environment.Counterpart l env env') :
    Sim js Subst.Counterpart l (solve never {} none env n () g.term s)
      (solve (ofDepth d) {} (some .endless) env' (n + 1) (.count n) g'.term s') := by
  induction n generalizing l s s' g g' with
  | zero =>
    exact Sim.append (sim_base (fun h => by cases h) hs hg.term henv) fun l' hl =>
      sim_done_expand (stop_ofDepth d 0) hs.acyclic'
  | succ n ih =>
    refine Sim.append (sim_base (fun h => by cases h) hs hg.term henv) fun l' hl => ?_
    have below : Simulates js l' (solve never {} none env n ())
        (solve (ofDepth d) {} (some .endless) env' (n + 1) (.count n)) := fun l'' _ _ _ _ hl' hs hg =>
      ih hs hg (henv.mono (hl.trans hl'))
    refine sim_expand (agree_never_ofDepth d n) (fun _ => ?_) (hs.mono hl) (hg.mono hl)
    exact ⟨(), (), _, _, passes_never, passes_ofDepth d n, below, below⟩

/-- Where no variable of the query or of the environment ends in a number still to be drawn, the search
that a count steers gives as many results as the search within that depth, in the same order: each is
the other's under one renaming of the variables drawn, which leaves every other name as it is. -/
theorem read_results_ofDepth (d : Nat) (env : Environment) (g : Judgment) (js : List Judgment)
    {n k k' : Nat} (hk : n ≤ k) (hk' : n ≤ k') (hg : g.term.Settled n) (henv : env.Settled n) :
    let plain := (Backward.results {} d env g.term).read none ⟨js, k⟩
    let counted := ((ofDepth d).results {} env .unbounded g.term).read none ⟨js, k'⟩
    counted.status = .ended ∧ plain.status = .ended ∧ ∃ ρ : Renaming, (∀ c, ρ.sym c = c) ∧
      (∀ v, v.Settled n → ρ.var v = v) ∧ counted.results = plain.results.map (Term.rename ρ) := by
  have hl := (Link.start n).growsTo_raise hk hk'
  have hquery := (Judgment.counterpart_start hg).mono hl
  have hsolve : Sim js Subst.Counterpart ((Link.start n).raise hk hk')
      (Backward.solve {} d env g.term .empty)
      (solve (ofDepth d) {} (some .endless) env (d + 1) (.count d) g.term .empty) := by
    rw [← solve_eq_backward (c := never) (fun _ _ => rfl) (fun _ _ => ⟨(), rfl⟩) (fun _ _ => ⟨(), rfl⟩)
      false d () g.term Subst.acyclic_empty]
    exact sim_solve d d (Subst.counterpart_empty _) hquery ((Environment.counterpart_start henv).mono hl)
  obtain ⟨hplain, hcounted, ρ, hρ, hmap⟩ := (hsolve.instances hquery.term).exists_rename
  exact ⟨hcounted, hplain, ρ, hρ.sym, fun v hv => hρ.var v v ⟨rfl, hv⟩, hmap⟩

/-- `$p : $c`. -/
def anything : Judgment := ⟨.ofText "$p", .ofText "$c"⟩

/-- `g : (-> $s (P $s))`. -/
def pairing : Judgment := ⟨.ofText "g", .arrow [.ofText "$s"] (.tuple [.ofText "P", .ofText "$s"])⟩

/-- The environment of `e : $u`. -/
def withE : Environment := ⟨[⟨.ofText "e", .ofText "$u"⟩]⟩

/-- What `g` is applied to comes with other numbers, since those for the arguments of `f` that are not
looked for have been drawn before. -/
theorem read_results_ofDepth_pairing : anything.term.Settled 0 ∧ withE.Settled 0 ∧
    let w : World := ⟨[Backward.listing, pairing], 0⟩
    let counted := ((ofDepth 1).results {} withE .unbounded anything.term).read none w
    let plain := (Backward.results {} 1 withE anything.term).read none w
    plain.results.size = 11 ∧ counted.results ≠ plain.results ∧ ∃ ρ : Renaming,
      (∀ v, v.Settled 0 → ρ.var v = v) ∧ counted.results = plain.results.map (Term.rename ρ) := by
  have hg : anything.term.Settled 0 := Term.settled_of_underscore_notMem (by decide) 0
  have henv : withE.Settled 0 :=
    List.forall_mem_singleton.2 (Term.settled_of_underscore_notMem (by decide) 0)
  obtain ⟨-, -, ρ, -, hfixed, hmap⟩ := read_results_ofDepth 1 withE anything
    [Backward.listing, pairing] (Nat.le_refl 0) (Nat.le_refl 0) hg henv
  exact ⟨hg, henv, by decide +kernel, by decide +kernel, ρ, hfixed, hmap⟩

end Control
end ProofSearch
