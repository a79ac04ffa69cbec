import ProofSearch.Proofs.Backward.Completeness
import ProofSearch.Proofs.Backward.Monotone
import ProofSearch.Proofs.Control.Depth

/-!
# Controls that prune

Whatever a control does it can only leave results out. The numbers that its functions draw and the queries
at which it stops change the names that the search goes on with, and nothing else: where one control stops
wherever another does (`Control.Stricter`), its search is embedded in that of the other, level by level
(`embeds_solve`). So its results are found in their order among those of the backward search within the bound,
which never stops (`read_results_prunes`). Of the functions only this is asked, that they return where the
search asks them (`Control.Returns`).
-/

namespace ProofSearch

/-- Whatever numbers are drawn, the computation returns a value as `P` says. -/
def Draws.Returns {β : Type} (P : β → Prop) : Draws β → Prop
  | ret b => P b
  | raise _ => False
  | draw k => ∀ n, (k n).Returns P

theorem Draws.Returns.mono {β : Type} {P Q : β → Prop} {d : Draws β} (h : d.Returns P)
    (hP : ∀ b, P b → Q b) : d.Returns Q := by
  induction d with
  | ret b => exact hP b h
  | raise e => exact h
  | draw k ih => exact fun n => ih n (h n)

theorem Search.Always.ofDraws {ν α β : Type} {js : List Judgment} {F : Fault → Prop} {P : Nat → α → Prop}
    {Q : β → Prop} {d : Draws β} {k : β → Search ν α} {n : Nat} (hd : d.Returns Q)
    (h : ∀ b m, n ≤ m → Q b → (k b).Always js F P m) : (Search.ofDraws d k).Always js F P n := by
  induction d generalizing n with
  | ret b => exact h b n (Nat.le_refl n) hd
  | raise e => exact hd.elim
  | draw d ih => exact ih n (hd n) fun b m hm => h b m ((Nat.le_succ n).trans hm)

namespace Control
open Search
variable {κ κ' : Type} {c : Control κ} {c' : Control κ'} {I : κ → Prop} {X : κ → κ' → Prop} {o o' : Options}
variable {js : List Judgment} {p : Placement} {l : Pairing false} {s s' : Subst} {g g' : Judgment}
variable {env env' : Environment} {x : κ} {x' : κ'} {m n : Nat}

/-- Asked about a judgment in a context that `I` allows, the functions of the control return, and the
contexts they return are allowed as well. -/
structure Returns (c : Control κ) (I : κ → Prop) : Prop where
  stop : ∀ (j : Judgment) (x : κ), I x → (c.stop j.term x).Returns fun _ => True
  abs : ∀ (j : Judgment) (x : κ), I x → (c.abs j.term x).Returns I
  arg : ∀ (j : Judgment) (x : κ), I x → (c.arg j.term x).Returns I

theorem goal_eq (hs : s.Acyclic) (level : Datum) (q : Term) (rest : Unit → Search Note Subst) :
    goal o level q s rest = noteIf o.traced (.event .goal level (q.subst s.value)) rest := by
  rw [goal, event_eq hs]
  cases o.traced <;> rfl

/-! ### No failure is met -/

theorem always_base {P : Bool → Prop} (hstop : ∀ j : Judgment, (c.stop j.term x).Returns P)
    (hs : s.Acyclic) :
    (base c o env x g.term s).Always js (fun _ => False) (fun _ r => r.Acyclic) n := by
  refine Always.bind ((Backward.always_known (o := {}) (d := 0) hs).mono fun m r _ hr => ?_)
  have given : ∀ i, (noteIf o.traced (Note.event .hit (c.level x) (g.term.subst r.value)) fun _ =>
      one r).Always js (fun _ => False) (fun _ r => r.Acyclic) i := fun i =>
    (always_noteIf ..).2 (.one hr.acyclic)
  rw [hr.acyclic.instantiate?_eq]
  show Always _ _ _ (if _ then _ else _) _
  split
  · rw [← Judgment.term_subst]
    refine .ofDraws (hstop _) fun stopped i _ _ => ?_
    split
    · exact (always_noteIf ..).2 trivial
    · exact given i
  · exact given m

/-- Where the search goes on, the contexts of the goals are such that they are proved without failure. -/
theorem always_expand {P : Bool → Prop} (hstop : ∀ j : Judgment, (c.stop j.term x).Returns P)
    {prove : κ → Term → Subst → Search Note Subst}
    (hnext : P false → ∃ J : κ → Prop, (∀ j : Judgment, (c.abs j.term x).Returns J) ∧
      (∀ j : Judgment, (c.arg j.term x).Returns J) ∧
      ∀ (y : κ) (g : Judgment) (s : Subst) (n : Nat), J y → s.Acyclic →
        (prove y g.term s).Always js (fun _ => False) (fun _ r => r.Acyclic) n)
    (hs : s.Acyclic) :
    (expand c o prove x g.term s).Always js (fun _ => False) (fun _ r => r.Acyclic) n := by
  refine Backward.always_unify (n := n + 2) hs fun r hr => ?_
  rw [hr.acyclic.instantiate?_eq, ← Judgment.term_subst]
  refine .ofDraws (hstop _) fun stopped i _ hstopped => ?_
  cases stopped with
  | true =>
    rw [if_pos rfl]
    exact (always_noteIf ..).2 trivial
  | false =>
    obtain ⟨J, habs, harg, hp⟩ := hnext hstopped
    rw [if_neg Bool.false_ne_true]
    refine (always_noteIf ..).2 (.ofDraws (habs _) fun y i _ hy => .ofDraws (harg _) fun z i _ hz => ?_)
    exact Always.bind (n := i + 1) ((hp y ⟨_, _⟩ r _ hy hr.acyclic).mono fun m' r' _ hr' =>
      hp z ⟨_, _⟩ r' m' hz hr')

theorem always_solve (hc : c.Returns I) (m : Nat) (hx : I x) (hs : s.Acyclic) :
    (solve c o none env m x g.term s).Always js (fun _ => False) (fun _ r => r.Acyclic) n := by
  have hstop : ∀ x, I x → ∀ j : Judgment, (c.stop j.term x).Returns fun _ => True := fun x hx j =>
    hc.stop j x hx
  induction m generalizing x g s n with
  | zero =>
    rw [solve, goal_eq hs, always_noteIf, append_done]
    exact always_base (hstop x hx) hs
  | succ m ih =>
    rw [solve, goal_eq hs, always_noteIf]
    refine (always_base (hstop x hx) hs).append fun i _ => always_expand (hstop x hx) (fun _ => ?_) hs
    exact ⟨I, fun j => hc.abs j x hx, fun j => hc.arg j x hx, fun x g s n hx hs => ih hx hs⟩

/-! ### The search of a control that stops less -/

/-- Asked about a judgment and its image in contexts related by `X`, the first control stops if the second one
does, and the contexts they return are related as well. -/
structure Stricter (c : Control κ) (c' : Control κ') (X : κ → κ' → Prop) : Prop where
  stop : ∀ (l : Pairing false) (g g' : Judgment) (x : κ) (x' : κ'), Judgment.Image l g g' → X x x' →
    ((c'.stop g'.term x').run l.right).1 = .ok true → ((c.stop g.term x).run l.left).1 = .ok true
  abs : ∀ (t t' : Term) (x y : κ) (x' y' : κ') (m m' : Nat), X x x' → ((c.abs t x).run m).1 = .ok y →
    ((c'.abs t' x').run m').1 = .ok y' → X y y'
  arg : ∀ (t t' : Term) (x y : κ) (x' y' : κ') (m m' : Nat), X x x' → ((c.arg t x).run m).1 = .ok y →
    ((c'.arg t' x').run m').1 = .ok y' → X y y'

/-- Where both are asked, the first search gives up or both go on. -/
theorem Stricter.embeds_stop (h : c.Stricter c' X) (hx : X x x') (hg : Judgment.Image l g g')
    {k k' : Bool → Search Note Subst}
    (hstopped : ∀ (l' : Pairing false) (t' : Search Note Subst), Embeds p js js Subst.Image l' (k true) t')
    (hk : ∀ l', l.GrowsTo l' → Embeds p js js Subst.Image l' (k false) (k' false)) :
    Embeds p js js Subst.Image l (ofDraws (c.stop g.term x) k) (ofDraws (c'.stop g'.term x') k') := by
  refine .ofDraws_both fun l' stopped stopped' hl hs hs' => ?_
  cases stopped with
  | true => exact hstopped l' _
  | false =>
    cases stopped' with
    | true => exact absurd ((h.stop l g g' x x' hg hx hs').symm.trans hs) (by simp)
    | false => exact hk l' hl

theorem embeds_base (h : c.Stricter c' X) (ho : o'.recheck = true → o.recheck = true) (hx : X x x')
    (hs : Subst.Image l s s') (hg : Judgment.Image l g g') (hjs : ∀ j ∈ js, j.Kept l)
    (henv : Environment.Image l env env') :
    Embeds p js js Subst.Image l (base c o env x g.term s) (base c' o' env' x' g'.term s') := by
  refine Embeds.bind (.known (.refl p js) hjs hs hg.term henv) fun l' r r' hl hr => ?_
  have given : ∀ l'', l'.GrowsTo l'' → Embeds p js js Subst.Image l''
      (noteIf o.traced (Note.event .hit (c.level x) (g.term.subst r.value)) fun _ => one r)
      (noteIf o'.traced (Note.event .hit (c'.level x') (g'.term.subst r'.value)) fun _ => one r') :=
    fun l'' hl => .noteIf (.one (hr.mono hl))
  rw [hr.acyclic.instantiate?_eq, hr.acyclic'.instantiate?_eq]
  show Embeds _ _ _ _ _ (if _ then _ else _) (if _ then _ else _)
  by_cases hrecheck : o'.recheck = true
  · rw [if_pos (ho hrecheck), if_pos hrecheck, ← Judgment.term_subst, ← Judgment.term_subst]
    have hnode : Judgment.Image l' (g.subst r.value) (g'.subst r'.value) :=
      ⟨hr.subst_value (hg.proof.mono hl), hr.subst_value (hg.statement.mono hl)⟩
    exact h.embeds_stop hx hnode (fun _ _ => .givenUp) given
  · rw [if_neg hrecheck]
    split
    · refine .ofDraws fun l'' stopped hl => ?_
      split
      · exact .givenUp
      · exact given l'' hl
    · exact given l' (.refl l')

theorem embeds_expand (h : c.Stricter c' X) (hx : X x x') {prove : κ → Term → Subst → Search Note Subst}
    {prove' : κ' → Term → Subst → Search Note Subst}
    (hp : ∀ y y', X y y' → Backward.Within p js js l (prove y) (prove' y')) (hs : Subst.Image l s s')
    (hg : Judgment.Image l g g') :
    Embeds p js js Subst.Image l (expand c o prove x g.term s) (expand c' o' prove' x' g'.term s') := by
  have hl := l.growsTo_draw.trans l.draw.growsTo_draw
  have habs := (Term.image_drawn l "abs" (by decide)).mono l.draw.growsTo_draw
  have harg := Term.image_drawn l.draw "arg" (by decide)
  have happ := Term.image_tuple (.cons habs (.cons harg .nil))
  refine .draw (.draw (.unify (hs.mono hl) (hg.proof.mono hl) happ fun r r' hr => ?_))
  rw [hr.acyclic.instantiate?_eq, hr.acyclic'.instantiate?_eq]
  have hnode : Judgment.Image l.draw.draw (g.subst r.value) (g'.subst r'.value) :=
    ⟨hr.subst_value (hg.proof.mono hl), hr.subst_value (hg.statement.mono hl)⟩
  refine h.embeds_stop hx hnode (fun _ _ => .givenUp) fun l₁ h₁ => ?_
  simp only [Bool.false_eq_true, if_false]
  -- the contexts `y` and `z` steer what is proved of the goals, but are in none of them
  refine .noteIf (.ofDraws_both fun l₂ y y' h₂ hy hy' => .ofDraws_both fun l₃ z z' h₃ hz hz' => .draw ?_)
  have hgrown := (h₁.trans (h₂.trans h₃)).trans l₃.growsTo_draw
  have hprms := Term.image_drawn l₃ "prms" (by decide)
  have hstatement := hg.statement.mono (hl.trans hgrown)
  have harrow := Term.image_arrow (.cons hprms .nil) hstatement
  refine Embeds.bind (hp y y' (h.abs _ _ _ _ _ _ _ _ hx hy hy') _ ⟨_, _⟩ ⟨_, _⟩ r r' (hl.trans hgrown)
    ⟨habs.mono hgrown, harrow⟩ (hr.mono hgrown)) fun l₄ r r' h₄ hr => ?_
  exact hp z z' (h.arg _ _ _ _ _ _ _ _ hx hz hz') l₄ ⟨_, _⟩ ⟨_, _⟩ r r' ((hl.trans hgrown).trans h₄)
    ⟨harg.mono (hgrown.trans h₄), hprms.mono h₄⟩ hr

/-- Within the same number of levels, what the stricter control lets through is found among what is proved
under the other. -/
theorem embeds_solve (h : c.Stricter c' X) (ho : o'.recheck = true → o.recheck = true)
    (past past' : Option Fault) (m : Nat) (hx : X x x') (hs : Subst.Image l s s')
    (hg : Judgment.Image l g g') (hjs : ∀ j ∈ js, j.Kept l) (henv : Environment.Image l env env') :
    Embeds p js js Subst.Image l (solve c o past env m x g.term s)
      (solve c' o' past' env' m x' g'.term s') := by
  induction m generalizing l x x' s s' g g' with
  | zero =>
    unfold solve
    rw [goal_eq hs.acyclic, goal_eq hs.acyclic']
    refine .noteIf (Embeds.append (embeds_base h ho hx hs hg hjs henv) fun l' _ => ?_)
    cases past with
    | none => exact .nil
    | some e => exact fun _ _ _ _ has => has.elim
  | succ m ih =>
    rw [solve, solve, goal_eq hs.acyclic, goal_eq hs.acyclic']
    refine .noteIf (Embeds.append (embeds_base h ho hx hs hg hjs henv) fun l' hl => ?_)
    refine embeds_expand h hx (fun y y' hy l'' g g' s s' hl' hg hs => ?_) (hs.mono hl) (hg.mono hl)
    have hgrown := hl.trans hl'
    exact ih hy hs hg (fun j hj => (hjs j hj).mono hgrown) (henv.mono hgrown)

/-- A control that never stops is none that another has to follow. -/
theorem stricter_never (c : Control κ) : c.Stricter never fun _ _ => True where
  stop _ _ _ _ _ _ _ h := by cases h
  abs _ _ _ _ _ _ _ _ _ _ _ := trivial
  arg _ _ _ _ _ _ _ _ _ _ _ := trivial

/-- However the functions of the control steer the search, one renaming of the variables drawn takes its
results, in their order, to results of the backward search within the bound. -/
theorem read_results_prunes (hc : c.Returns I) (hstart : I c.start) (o : Options) (m : Nat)
    (env : Environment) (g : Judgment) (js : List Judgment) {k k' : Nat} (hk : n ≤ k) (hk' : n ≤ k')
    (hg : g.term.Settled n) (henv : env.Settled n) :
    let steered := (c.results o env (.depth m) g.term).read none ⟨js, k⟩
    let plain := (Backward.results {} m env g.term).read none ⟨js, k'⟩
    steered.status = .ended ∧ plain.status = .ended ∧ ∃ ρ : Renaming, ρ.Spares false n ∧
      (steered.results.toList.map (Term.rename ρ)).Sublist plain.results.toList := by
  have hsyms : ∀ t : Term, t.SymsSettled false n := fun t c _ h => by cases h
  let l := Pairing.start false n
  have hl := l.growsTo_raise hk hk'
  have hquery := (Judgment.image_start hg (hsyms g.term)).mono hl
  have hsteered : (c.results o env (.depth m) g.term).Unfailing js k := by
    refine Always.bind ((always_solve hc m hstart Subst.acyclic_empty).mono fun i r _ hr => ?_)
    rw [hr.instantiate?_eq]
    exact .one trivial
  refine Embeds.read (p := .ordered) hk hk' hsteered
    (Backward.unfailing_results rfl m env g k') (.instances ?_ hquery.term)
  rw [← solve_eq_backward (c := never) (fun _ _ => rfl) (fun _ _ => ⟨(), rfl⟩) (fun _ _ => ⟨(), rfl⟩)
    false m () g.term Subst.acyclic_empty]
  refine embeds_solve (stricter_never c) (fun h => by cases h) none none m trivial (Subst.image_empty _)
    hquery (fun j hj => ?_) ?_
  · exact (Judgment.kept_start (hsyms j.term)).mono hl
  · exact (Environment.image_start henv fun j _ => hsyms j.term).mono hl

theorem returns_shaped (pattern : Term) (mode : Fit) (j : Judgment) (x : Level) :
    (StopTest.shaped pattern mode j.term x).Returns fun _ => True := by
  cases mode with
  | instanceOf => trivial
  | unifiable =>
    intro n
    match h : Subst.empty.unify j.statement (pattern.tag (ending n)) with
    | .ok r => simp [h, Draws.Returns]
    | .error .clash => simp [h, Draws.Returns]
    | .error .endless => exact absurd h (Subst.unify_ne_endless Subst.acyclic_empty _ _)

/-- Stops at what may become an arrow, and draws a number each time it is asked. -/
def noArrows : Control Level :=
  .ofRules .statement .keep (.shaped (.arrow [.ofText "$x"] (.ofText "$y")) .unifiable) .none

theorem returns_noArrows : noArrows.Returns fun _ => True where
  stop j x _ := returns_shaped (.arrow [.ofText "$x"] (.ofText "$y")) .unifiable j x
  abs _ _ _ := trivial
  arg _ _ _ := trivial

/-- Of the four lists two are left, and one of these has another name in it. -/
theorem read_results_prunes_noArrows :
    noArrows.Returns (fun _ => True) ∧ Backward.someList.term.Settled 0 ∧
    let w : World := ⟨[Backward.listing, Backward.inA], 0⟩
    let steered := (noArrows.results {} {} (.depth 2) Backward.someList.term).read none w
    let plain := (Backward.results {} 2 {} Backward.someList.term).read none w
    steered.results.size = 2 ∧ plain.results.size = 4 ∧
    ¬ steered.results.toList.Sublist plain.results.toList ∧ ∃ ρ : Renaming, ρ.Spares false 0 ∧
      (steered.results.toList.map (Term.rename ρ)).Sublist plain.results.toList := by
  have hg : Backward.someList.term.Settled 0 := Term.settled_of_underscore_notMem (by decide) 0
  obtain ⟨-, -, hfound⟩ := read_results_prunes returns_noArrows trivial {} 2 {} Backward.someList
    [Backward.listing, Backward.inA] (Nat.le_refl 0) (Nat.le_refl 0) hg fun j hj => by cases hj
  exact ⟨returns_noArrows, hg, by decide +kernel, by decide +kernel, by decide +kernel, hfound⟩

end Control
end ProofSearch
