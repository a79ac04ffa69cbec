import ProofSearch.Proofs.Backward.Soundness
import ProofSearch.Proofs.Search.Embedding

/-!
# Searches that try more

More depth, more arities, abstraction and more judgments stored only add alternatives to a backward search:
each function of the search is embedded in the one that tries more (`embeds_solve`), level by level, whatever
was bound on the way. So the results of the smaller search are found among those of the larger one, up to one
renaming of the names drawn: in their order when what is tried keeps its order (`read_results_sublist`), and
in some order when the judgments stored are put in another one (`read_results_subperm`).
-/

namespace ProofSearch

/-- Whatever a search under `o` tries, one under `o'` tries as well. -/
structure SearchOptions.Within (p : Placement) (o o' : SearchOptions) : Prop where
  counts : p.Picks o.arities.counts o'.arities.counts
  lambdaIntro : o.lambdaIntro = true → o'.lambdaIntro = true
  whole : o.arities.broken = false
  whole' : o'.arities.broken = false

namespace Backward
open Search
variable {p : Placement} {o o' : SearchOptions} {js js' : List Judgment} {symbols : Bool}
variable {l : Pairing symbols} {s s' : Subst} {q q' : Judgment} {env env' : Environment} {d d' n : Nat}
variable {traced traced' : Bool} {level level' : Datum}

/-- Environments related by `E` stay so, also when what goes with each other is moved into both, and what is
known in the first is known in the second. -/
structure Scopes (p : Placement) (js js' : List Judgment)
    (E : Pairing symbols → Environment → Environment → Prop) : Prop where
  mono : ∀ l l' env env', E l env env' → l.GrowsTo l' → E l' env env'
  extend : ∀ l env env' j j', E l env env' → Judgment.Image l j j' → E l (env.extend j) (env'.extend j')
  known : ∀ l env env' q q' s s', E l env env' → Term.Image l q q' → Subst.Image l s s' →
    Embeds p js js' Subst.Image l (known env q s : Search Note Subst) (known env' q' s')

theorem scopes_image (hjs : p.Picks js js') : Scopes p js js' fun (l : Pairing symbols) env env' =>
    (∀ j ∈ js, j.Kept l) ∧ Environment.Image l env env' where
  mono _ _ _ _ h hl := ⟨fun j hj => (h.1 j hj).mono hl, h.2.mono hl⟩
  extend _ _ _ _ _ h hj := ⟨h.1, h.2.extend hj⟩
  known _ _ _ _ _ _ _ h hq hs := .known hjs h.1 hs hq h.2

variable {E : Pairing symbols → Environment → Environment → Prop}

theorem embeds_base (hE : Scopes p js js' E) (hs : Subst.Image l s s') (hq : Judgment.Image l q q')
    (henv : E l env env') :
    Embeds p js js' Subst.Image l (base traced level env q.term s)
      (base traced' level' env' q'.term s') := by
  rw [base, base, event_eq hs.acyclic, event_eq hs.acyclic']
  refine .noteIf (Embeds.bind (hE.known l _ _ _ _ _ _ henv hq.term hs) fun l' r r' _ hr => ?_)
  rw [event_eq hr.acyclic, event_eq hr.acyclic']
  exact .noteIf (.one hr)

/-! ### Applications -/

/-- Whatever has been drawn since `l`, proving a goal is embedded in proving its image. -/
def Within (p : Placement) (js js' : List Judgment) (l : Pairing symbols)
    (prove prove' : Term → Subst → Search Note Subst) : Prop :=
  ∀ l' g g' s s', l.GrowsTo l' → Judgment.Image l' g g' → Subst.Image l' s s' →
    Embeds p js js' Subst.Image l' (prove g.term s) (prove' g'.term s')

theorem Within.mono {prove prove' : Term → Subst → Search Note Subst} {l' : Pairing symbols}
    (h : Within p js js' l prove prove') (hl : l.GrowsTo l') : Within p js js' l' prove prove' :=
  fun l'' g g' s s' hl' => h l'' g g' s s' (hl.trans hl')

theorem embeds_proveAll {prove prove' : Term → Subst → Search Note Subst}
    (hp : Within p js js' l prove prove') {gs gs' : List Judgment}
    (hgs : List.Forall₂ (Judgment.Image l) gs gs') (hs : Subst.Image l s s') :
    Embeds p js js' Subst.Image l (proveAll prove (gs.map Judgment.term) s)
      (proveAll prove' (gs'.map Judgment.term) s') := by
  induction gs generalizing l s s' gs' with
  | nil =>
    cases hgs
    exact .one hs
  | cons g gs ih =>
    cases hgs with
    | cons hg hgs =>
      refine Embeds.bind (hp l _ _ s s' (.refl l) hg hs) fun l' r r' hl hr => ?_
      exact ih (hp.mono hl) (hgs.imp fun _ _ h => h.mono hl) hr

theorem image_wanted {as as' ps ps' : List Var}
    (has : List.Forall₂ (fun v v' => Term.Image l (.var v) (.var v')) as as')
    (hps : List.Forall₂ (fun v v' => Term.Image l (.var v) (.var v')) ps ps') :
    List.Forall₂ (Judgment.Image l) (wanted as ps) (wanted as' ps') := by
  induction has generalizing ps ps' with
  | nil => exact .nil
  | cons ha _ ih =>
    cases hps with
    | nil => exact .nil
    | cons hp hps => exact .cons ⟨ha, hp⟩ (ih hps)

theorem embeds_expand {prove prove' : Term → Subst → Search Note Subst}
    (hp : Within p js js' l prove prove') (hq : Judgment.Image l q q') (hs : Subst.Image l s s') (k : Nat) :
    Embeds p js js' Subst.Image l (expand prove traced level q.term s k)
      (expand prove' traced' level' q'.term s' k) := by
  refine .draw (.drawVars (by decide) k fun l₁ args args' hl₁ hargs => ?_)
  have habs := (Term.image_drawn l "abs" (by decide)).mono hl₁
  replace hl₁ := l.growsTo_draw.trans hl₁
  have happ := Term.image_tuple (.cons habs (Term.image_vars hargs))
  refine .unify (hs.mono hl₁) (hq.proof.mono hl₁) happ fun r r' hr => ?_
  rw [event_eq hr.acyclic, event_eq hr.acyclic']
  refine .noteIf (.drawVars (by decide) k fun l₂ prms prms' hl₂ hprms => ?_)
  have hstatement := hq.statement.mono (hl₁.trans hl₂)
  have hhead := Term.image_arrow (Term.image_vars hprms) hstatement
  rw [goals_eq, goals_eq]
  refine Embeds.bind (hp l₂ ⟨_, _⟩ ⟨_, _⟩ r r' (hl₁.trans hl₂) ⟨habs.mono hl₂, hhead⟩ (hr.mono hl₂)) ?_
  intro l₃ r r' hl₃ hr
  refine embeds_proveAll (hp.mono ((hl₁.trans hl₂).trans hl₃)) (image_wanted ?_ ?_) hr
  · exact hargs.imp fun _ _ h => h.mono (hl₂.trans hl₃)
  · exact hprms.imp fun _ _ h => h.mono hl₃

/-! ### Abstractions -/

theorem embeds_nameBound {l : Pairing true} {x x' : Var} (hx : Term.Image l (.var x) (.var x'))
    (hs : Subst.Image l s s') {k k' : Subst → Search Note Subst}
    (h : ∀ l' r r', l.GrowsTo l' → Subst.Image l' r r' → Embeds p js js' Subst.Image l' (k r) (k' r')) :
    Embeds p js js' Subst.Image l (nameBound x s k) (nameBound x' s' k') := by
  obtain ⟨t, ht⟩ := Option.isSome_iff_exists.1 (hs.acyclic.isSome_walk? (.var x))
  obtain ⟨t', ht', himage⟩ := hs.walk? hx ht
  obtain ⟨π, hπ⟩ := l.exists_follows
  obtain rfl := himage π hπ
  rw [nameBound, nameBound, ht, ht']
  cases t with
  | var y =>
    have hl := l.growsTo_draw
    exact .draw (.unify (hs.mono hl) (hx.mono hl) (Term.image_drawnAtom l) fun r r' => h _ r r' hl)
  | sym c => exact h l s s' (.refl l) hs
  | tuple ts =>
    rw [Term.rename_tuple]
    exact h l s s' (.refl l) hs

theorem embeds_introduce {l : Pairing true} {E : Pairing true → Environment → Environment → Prop}
    (hE : Scopes p js js' E) {prove prove' : Environment → Term → Subst → Search Note Subst}
    (hp : ∀ l' env env', l.GrowsTo l' → E l' env env' → Within p js js' l' (prove env) (prove' env'))
    (hq : Judgment.Image l q q') (henv : E l env env') (hs : Subst.Image l s s') :
    Embeds p js js' Subst.Image l (introduce prove traced level env q.term s)
      (introduce prove' traced' level' env' q'.term s') := by
  refine .draw (.draw (.draw (.draw ?_)))
  have hbody := (Term.image_drawn l.draw "body" (by decide)).mono
    (l.draw.draw.growsTo_draw.trans (Pairing.growsTo_draw _))
  have hx := (Term.image_drawn l "x" (by decide)).mono
    (l.draw.growsTo_draw.trans (l.draw.draw.growsTo_draw.trans (Pairing.growsTo_draw _)))
  have ha := (Term.image_drawn l.draw.draw "a" (by decide)).mono (Pairing.growsTo_draw _)
  have hb := Term.image_drawn l.draw.draw.draw "b" (by decide)
  have hl := l.growsTo_draw.trans
    (l.draw.growsTo_draw.trans (l.draw.draw.growsTo_draw.trans (Pairing.growsTo_draw _)))
  refine .unify (hs.mono hl) (hq.proof.mono hl) (Term.image_abstraction hx hbody) fun s₁ s₁' h₁ => ?_
  refine .unify h₁ (hq.statement.mono hl) (Term.image_arrow (.cons ha .nil) hb) fun s₂ s₂' h₂ => ?_
  -- a symbol may be drawn on both sides; the scope is extended by images only
  refine embeds_nameBound hx h₂ fun l₁ r r' hl₁ hr => ?_
  rw [event_eq hr.acyclic, event_eq hr.acyclic']
  refine .noteIf (.instantiate hr (hx.mono hl₁) fun bound bound' hbound => ?_)
  refine .instantiate hr (ha.mono hl₁) fun premise premise' hpremise => ?_
  have hscope : E l₁ (env.extend ⟨bound, premise⟩) (env'.extend ⟨bound', premise'⟩) :=
    hE.extend l₁ _ _ _ _ (hE.mono l l₁ _ _ henv (hl.trans hl₁)) ⟨hbound, hpremise⟩
  exact hp l₁ _ _ (hl.trans hl₁) hscope l₁ ⟨_, _⟩ ⟨_, _⟩ r r' (.refl l₁) ⟨hbody.mono hl₁, hb.mono hl₁⟩ hr

/-! ### The search -/

/-- One level of the search, over searches for its goals that are embedded. -/
theorem embeds_ways {below below' : Environment → Term → Subst → Search Note Subst}
    (ho : o.Within p o') (hsymbols : o'.lambdaIntro = true → symbols = true) (hE : Scopes p js js' E)
    (hp : ∀ l' env env', l.GrowsTo l' → E l' env env' → Within p js js' l' (below env) (below' env'))
    (hq : Judgment.Image l q q') (henv : E l env env') (hs : Subst.Image l s s') :
    Embeds p js js' Subst.Image l (ways o level below env q.term s)
      (ways o' level' below' env' q'.term s') := by
  refine Embeds.append (embeds_base hE hs hq henv) fun l₁ hl₁ => ?_
  refine Embeds.append ?_ fun l₂ hl₂ => ?_
  · refine Embeds.bind (R := fun _ k k' => k = k') (.ofList (fun _ _ _ _ h => h) ?_ ho.counts) ?_
    · exact List.forall₂_same.2 fun _ _ => rfl
    · rintro l₂ k _ hl₂ rfl
      have hl := hl₁.trans hl₂
      exact embeds_expand (hp l₂ env env' hl (hE.mono l l₂ _ _ henv hl)) (hq.mono hl) (hs.mono hl) k
  · replace hl₂ := hl₁.trans hl₂
    simp only [ho.whole, ho.whole', Bool.false_eq_true, if_false]
    split
    · next hintro =>
      have hintro' := ho.lambdaIntro hintro
      obtain rfl := hsymbols hintro'
      rw [if_pos hintro']
      refine embeds_introduce hE (fun l' env env' hl => ?_) (hq.mono hl₂) ?_ (hs.mono hl₂)
      · exact hp l' env env' (hl₂.trans hl)
      · exact hE.mono l _ _ _ henv hl₂
    · exact .nil

/-- A search within the smaller depth, of a goal, in an environment, is embedded in one within the larger
depth, of the image of the goal, in an environment that goes with it. -/
theorem embeds_solve (ho : o.Within p o') (hsymbols : o'.lambdaIntro = true → symbols = true)
    (hE : Scopes p js js' E) (hd : d ≤ d') (hq : Judgment.Image l q q') (henv : E l env env')
    (hs : Subst.Image l s s') :
    Embeds p js js' Subst.Image l (solve o d env q.term s) (solve o' d' env' q'.term s') := by
  induction d generalizing d' l env env' q q' s s' with
  | zero =>
    cases d' with
    | zero => exact embeds_base hE hs hq henv
    -- here the smaller search has come to its end, and the larger one goes on
    | succ d' => exact .append_right (embeds_base hE hs hq henv)
  | succ d ih =>
    cases d' with
    | zero => exact absurd hd (Nat.not_succ_le_zero d)
    | succ d' =>
      refine embeds_ways ho hsymbols hE (fun l₁ env env' _ henv => ?_) hq henv hs
      intro l₂ g g' s s' hl₂ hg hs
      exact ih (Nat.le_of_succ_le_succ hd) hg (hE.mono l₁ l₂ _ _ henv hl₂) hs

theorem unfailing_results (ha : o.arities.broken = false) (d : Nat) (env : Environment) (q : Judgment)
    (n : Nat) : (results o d env q.term).Unfailing js n := by
  refine Always.bind ((proves_solve ha d env q .empty n Subst.acyclic_empty).mono fun m r _ hr => ?_)
  rw [hr.acyclic.instantiate?_eq]
  exact .one trivial

/-- Both searches of the query, in environments that go together at the start. -/
theorem embeds_results (ho : o.Within p o') (hd : d ≤ d') {k k' : Nat} (hk : n ≤ k) (hk' : n ≤ k')
    {E : Pairing o'.lambdaIntro → Environment → Environment → Prop} (hE : Scopes p js js' E)
    (henv : E (.start o'.lambdaIntro n) env env') (q : Judgment) (hq : q.term.Settled n)
    (hsyms : q.term.SymsSettled o'.lambdaIntro n) :
    Embeds p js js' Term.Image ((Pairing.start o'.lambdaIntro n).raise hk hk') (results o d env q.term)
      (results o' d' env' q.term) := by
  have hl := (Pairing.start o'.lambdaIntro n).growsTo_raise hk hk'
  have hquery := (Judgment.image_start hq hsyms).mono hl
  refine .instances (embeds_solve ho id hE hd hquery ?_ (Subst.image_empty _)) hquery.term
  exact hE.mono _ _ _ _ henv hl

/-- Read to their ends, they differ by one renaming. -/
theorem read_results_of_scopes (ho : o.Within p o') (hd : d ≤ d') {w w' : World} (hn : n ≤ w.drawn)
    (hn' : n ≤ w'.drawn) {E : Pairing o'.lambdaIntro → Environment → Environment → Prop}
    (hE : Scopes p w.judgments w'.judgments E) (henv : E (.start o'.lambdaIntro n) env env')
    (q : Judgment) (hq : q.term.Settled n) (hsyms : q.term.SymsSettled o'.lambdaIntro n) :
    let small := (results o d env q.term).read none w
    let large := (results o' d' env' q.term).read none w'
    small.status = .ended ∧ large.status = .ended ∧ ∃ ρ : Renaming, ρ.Spares o'.lambdaIntro n ∧
      p.Picks (small.results.toList.map (Term.rename ρ)) large.results.toList :=
  Embeds.read hn hn' (unfailing_results ho.whole d env q _) (unfailing_results ho.whole' d' env' q _)
    (embeds_results ho hd hn hn' hE henv q hq hsyms)

/-- One environment, over some judgments and over more of them. -/
theorem read_results_picks (ho : o.Within p o') (hd : d ≤ d') (env : Environment) (q : Judgment)
    (w w' : World) (hjs : p.Picks w.judgments w'.judgments) (hn : n ≤ w.drawn) (hn' : n ≤ w'.drawn)
    (hq : q.term.Settled n) (henv : env.Settled n)
    (hsyms : ∀ j ∈ q :: (env.entries ++ w.judgments), j.term.SymsSettled o'.lambdaIntro n) :
    let small := (results o d env q.term).read none w
    let large := (results o' d' env q.term).read none w'
    small.status = .ended ∧ large.status = .ended ∧ ∃ ρ : Renaming, ρ.Spares o'.lambdaIntro n ∧
      p.Picks (small.results.toList.map (Term.rename ρ)) large.results.toList := by
  obtain ⟨hsymsq, hsyms⟩ := List.forall_mem_cons.1 hsyms
  obtain ⟨hsymsenv, hsymsjs⟩ := List.forall_mem_append.1 hsyms
  refine read_results_of_scopes ho hd hn hn' (scopes_image hjs) ⟨fun j hj => ?_, ?_⟩ q hq hsymsq
  · exact Judgment.kept_start (hsymsjs j hj)
  · exact Environment.image_start henv hsymsenv

/-- With more depth, more arities, or abstraction, the search gives what it gave without, in the same order,
among other results. It draws other numbers: one renaming of the variables drawn, and of the symbols drawn
where bound variables have symbols, makes the results the same. -/
theorem read_results_sublist (o o' : SearchOptions) (hd : d ≤ d')
    (hcounts : o.arities.counts.Sublist o'.arities.counts)
    (hintro : o.lambdaIntro = true → o'.lambdaIntro = true) (ho : o.arities.broken = false)
    (ho' : o'.arities.broken = false) (env : Environment) (q : Judgment) (js : List Judgment) {k k' : Nat}
    (hk : n ≤ k) (hk' : n ≤ k') (hq : q.term.Settled n) (henv : env.Settled n)
    (hsyms : ∀ j ∈ q :: (env.entries ++ js), j.term.SymsSettled o'.lambdaIntro n) :
    let small := (results o d env q.term).read none ⟨js, k⟩
    let large := (results o' d' env q.term).read none ⟨js, k'⟩
    small.status = .ended ∧ large.status = .ended ∧ ∃ ρ : Renaming, ρ.Spares o'.lambdaIntro n ∧
      (small.results.toList.map (Term.rename ρ)).Sublist large.results.toList :=
  read_results_picks (p := .ordered) ⟨hcounts, hintro, ho, ho'⟩ hd env q ⟨js, k⟩ ⟨js, k'⟩ (.refl _ js)
    hk hk' hq henv hsyms

/-- Of the fifteen results three are those of the smaller search, which called the bound variable `x9`. -/
theorem read_results_sublist_fromA : fromA.term.Settled 0 ∧
    (∀ j ∈ [fromA, listing], j.term.SymsSettled true 0) ∧
    let small := (results { lambdaIntro := true } 1 {} fromA.term).read none ⟨[listing], 0⟩
    let large := (results { arities := { counts := [2, 1] }, lambdaIntro := true } 2 {} fromA.term).read none
      ⟨[listing], 0⟩
    small.results.size = 3 ∧ large.results.size = 15 ∧
    ¬ small.results.toList.Sublist large.results.toList ∧ ∃ ρ : Renaming, ρ.Spares true 0 ∧
      (small.results.toList.map (Term.rename ρ)).Sublist large.results.toList := by
  have hq : fromA.term.Settled 0 := Term.settled_of_underscore_notMem (by decide) 0
  have hplain : ∀ j ∈ [fromA, listing], ∀ c ∈ j.term.syms, c.text.toList.head? ≠ some 'x' := by decide
  have hsyms : ∀ j ∈ [fromA, listing], j.term.SymsSettled true 0 := fun j hj =>
    Term.symsSettled_of_head_ne (hplain j hj) 0
  obtain ⟨-, -, hfound⟩ := read_results_sublist { lambdaIntro := true }
    { arities := { counts := [2, 1] }, lambdaIntro := true } (by decide : 1 ≤ 2) (by decide) id rfl rfl {}
    fromA [listing] (Nat.le_refl 0) (Nat.le_refl 0) hq (fun j hj => by cases hj) hsyms
  exact ⟨hq, hsyms, by decide +kernel, by decide +kernel, by decide +kernel, hfound⟩

/-- The judgments stored may be put in another order, with others among them: up to one renaming of the names
drawn, every result has a place of its own among those found then, and these are no others when only the
order has changed. -/
theorem read_results_subperm (ho : o.arities.broken = false) (d : Nat) (env : Environment) (q : Judgment)
    (hjs : js.Subperm js') {k k' : Nat} (hk : n ≤ k) (hk' : n ≤ k') (hq : q.term.Settled n)
    (henv : env.Settled n) (hsyms : ∀ j ∈ q :: (env.entries ++ js'), j.term.SymsSettled o.lambdaIntro n) :
    let small := (results o d env q.term).read none ⟨js, k⟩
    let large := (results o d env q.term).read none ⟨js', k'⟩
    small.status = .ended ∧ large.status = .ended ∧ ∃ ρ : Renaming, ρ.Spares o.lambdaIntro n ∧
      (small.results.toList.map (Term.rename ρ)).Subperm large.results.toList ∧
      (js.Perm js' → (small.results.toList.map (Term.rename ρ)).Perm large.results.toList) := by
  intro small large
  have hwithin : o.Within .scattered o := ⟨.refl _ _, id, ho, ho⟩
  have hsyms' : ∀ j ∈ q :: (env.entries ++ js), j.term.SymsSettled o.lambdaIntro n := fun j hj =>
    hsyms j (((List.subperm_append_left (q :: env.entries)).2 hjs).subset hj)
  obtain ⟨hsmall, hlarge, ρ, hρ, hpicks⟩ := read_results_picks hwithin (Nat.le_refl d) env q ⟨js, k⟩
    ⟨js', k'⟩ hjs hk hk' hq henv hsyms'
  refine ⟨hsmall, hlarge, ρ, hρ, hpicks, fun hperm => ?_⟩
  -- read the other way round, the larger store gives no more
  obtain ⟨-, -, ρ', -, hpicks'⟩ := read_results_picks hwithin (Nat.le_refl d) env q ⟨js', k'⟩ ⟨js, k⟩
    hperm.symm.subperm hk' hk hq henv hsyms
  have hle : large.results.toList.length ≤ (small.results.toList.map (Term.rename ρ)).length := by
    simpa only [List.length_map] using List.Subperm.length_le hpicks'
  exact List.Subperm.perm_of_length_le hpicks hle

/-- `a : A`. -/
def inA : Judgment := ⟨.ofText "a", .ofText "A"⟩

/-- `g : $s`. -/
def inAny : Judgment := ⟨.ofText "g", .ofText "$s"⟩

/-- Of the nine results four are those of the smaller store, in which `f` comes before `a`. -/
theorem read_results_subperm_fromA : [listing, inA].Subperm [inA, inAny, listing] ∧ fromA.term.Settled 0 ∧
    (∀ j ∈ [fromA, inA, inAny, listing], j.term.SymsSettled true 0) ∧
    let small := (results { lambdaIntro := true } 1 {} fromA.term).read none ⟨[listing, inA], 0⟩
    let large := (results { lambdaIntro := true } 1 {} fromA.term).read none ⟨[inA, inAny, listing], 0⟩
    small.results.size = 4 ∧ large.results.size = 9 ∧ ∃ ρ : Renaming, ρ.Spares true 0 ∧
      (small.results.toList.map (Term.rename ρ)).Subperm large.results.toList := by
  have hjs : [listing, inA].Subperm [inA, inAny, listing] :=
    ⟨[inA, listing], .swap listing inA [], by decide⟩
  have hq : fromA.term.Settled 0 := Term.settled_of_underscore_notMem (by decide) 0
  have hplain : ∀ j ∈ [fromA, inA, inAny, listing], ∀ c ∈ j.term.syms, c.text.toList.head? ≠ some 'x' := by
    decide
  have hsyms : ∀ j ∈ [fromA, inA, inAny, listing], j.term.SymsSettled true 0 := fun j hj =>
    Term.symsSettled_of_head_ne (hplain j hj) 0
  obtain ⟨-, -, ρ, hρ, hfound, -⟩ := read_results_subperm (o := { lambdaIntro := true }) rfl 1 {} fromA hjs
    (Nat.le_refl 0) (Nat.le_refl 0) hq (fun j hj => by cases hj) hsyms
  exact ⟨hjs, hq, hsyms, by decide +kernel, by decide +kernel, ρ, hρ, hfound⟩

end Backward
end ProofSearch
