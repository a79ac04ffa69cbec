import ProofSearch.Proofs.Derivable
import ProofSearch.Proofs.Fresh
import ProofSearch.Proofs.Search.Always
import ProofSearch.Proofs.Subst.MostGeneral

/-!
# Soundness of the backward search

Whatever substitution a backward search gives, the query as it stands under that substitution is
derivable within the depth, from the judgments stored and the environment as it stands there as well
(`solve_sound`). The search passes a substitution from goal to goal, so the invariant (`Proved`) is about
goals already proved and about all bindings still to come: derivations are closed under substitution.
Names play no part in it; where the names at the start are settled, those at the end are, too.
-/

namespace ProofSearch.Backward
open Search
variable {ν : Type} {o : SearchOptions} {js : List Judgment} {F : Fault → Prop} {d m n i : Nat}
variable {env : Environment} {q g : Judgment} {gs : List Judgment} {s r : Subst}

/-- `r` proves the goals on top of `s`, within the depth, at the counter `m`. -/
structure Proved (o : SearchOptions) (js : List Judgment) (d : Nat) (env : Environment)
    (gs : List Judgment) (s : Subst) (m : Nat) (r : Subst) : Prop where
  keeps : r.Extends s
  acyclic : r.Acyclic
  derivable : ∀ g ∈ gs, Derivable o js d (env.subst r.value) (g.subst r.value)
  settled : ∀ i, m ≤ i → s.Settled i → env.Settled i → (∀ g ∈ gs, g.term.Settled i) → r.Settled i

namespace Proved

theorem settled_end (h : Proved o js d env [q] .empty m r) (hq : q.term.Settled m) (henv : env.Settled m) :
    r.Settled m :=
  h.settled m (Nat.le_refl m) (Subst.settled_empty m) henv (List.forall_mem_singleton.2 hq)

theorem solvedBy (h : Proved o js d env gs s m r) : s.SolvedBy r.value :=
  h.acyclic.solvedBy_value.of_extends h.keeps

theorem nil (hs : s.Acyclic) (m : Nat) : Proved o js d env [] s m s where
  keeps := fun _ _ h => h
  acyclic := hs
  derivable := fun _ h => absurd h List.not_mem_nil
  settled := fun _ _ h _ _ => h

theorem cons {r' : Subst} (h : Proved o js d env [g] s m r) (h' : Proved o js d env gs r n r')
    (hm : m ≤ n) : Proved o js d env (g :: gs) s n r' where
  keeps := fun v t hv => h'.keeps v t (h.keeps v t hv)
  acyclic := h'.acyclic
  derivable := List.forall_mem_cons.2
    ⟨(h.derivable g (List.mem_singleton_self g)).of_extends h.acyclic h'.acyclic h'.keeps, h'.derivable⟩
  settled := fun i hi hs henv hgs => by
    obtain ⟨hg, hgs⟩ := List.forall_mem_cons.1 hgs
    exact h'.settled i hi (h.settled i (hm.trans hi) hs henv (by simpa using hg)) henv hgs

/-- The goal becomes what is derivable at the end. -/
theorem of_unified {t u : Term} (h : s.Unified [(t, u)] r)
    (hd : Derivable o js d (env.subst r.value) (q.subst r.value))
    (hset : ∀ i, m ≤ i → env.Settled i → q.term.Settled i → t.Settled i ∧ u.Settled i) :
    Proved o js d env [q] s m r where
  keeps := h.keeps
  acyclic := h.acyclic
  derivable := by simpa using hd
  settled := fun i hi hs henv hq => h.settled hs (by simpa using hset i hi henv (by simpa using hq))

end Proved

/-- Whatever `prove` gives proves the goal. -/
def Proves (o : SearchOptions) (js : List Judgment) (d : Nat) (env : Environment) (F : Fault → Prop)
    (prove : Term → Subst → Search Note Subst) : Prop :=
  ∀ (g : Judgment) (s : Subst) (n : Nat), s.Acyclic →
    (prove g.term s).Always js F (Proved o js d env [g] s) n

theorem always_unify {α : Type} (hs : s.Acyclic) {t u : Term} {P : Nat → α → Prop}
    {k : Subst → Search ν α} (h : ∀ r, s.Unified [(t, u)] r → (k r).Always js F P n) :
    (ofUnify (s.unify t u) k).Always js F P n :=
  .ofUnify (Subst.unify_ne_endless hs t u) fun r hr => h r (Subst.unified_of_unify hs hr)

/-! ### What is known -/

/-- What is unified with a renamed judgment becomes an instance of that judgment. -/
theorem exists_eq_subst_of_unified {j : Judgment} {suffix : String}
    (h : s.Unified [(q.term, (j.tag suffix).term)] r) : ∃ f, q.subst r.value = j.subst f := by
  have hjr : q.subst r.value = (j.tag suffix).subst r.value :=
    Judgment.term_injective (h.subst_eq h.acyclic.solvedBy_value)
  rw [hjr, Judgment.tag, Judgment.subst_subst]
  exact ⟨_, rfl⟩

theorem always_matchApart (hs : s.Acyclic) {is : List Judgment} (hi : ∀ j ∈ is, j ∈ js) :
    (matchApart q.term s is : Search ν Subst).Always js F (Proved o js d env [q] s) n := by
  induction is generalizing n with
  | nil => trivial
  | cons j is ih =>
    obtain ⟨hj, hi⟩ := List.forall_mem_cons.1 hi
    refine Always.append (n := n + 1) (always_unify hs fun r hr => .one ?_) fun m _ => ih hi
    refine Proved.of_unified hr ?_ fun i hi _ hq => ⟨hq, ?_⟩
    · obtain ⟨f, hf⟩ := exists_eq_subst_of_unified hr
      exact hf ▸ .stored f hj
    · rw [Judgment.term_tag]
      exact j.term.settled_tag hi

theorem always_matchAll (hs : s.Acyclic) {is : List Judgment} (hi : ∀ j ∈ is, j ∈ env.entries) :
    (matchAll q.term s is : Search ν Subst).Always js F (Proved o js d env [q] s) n := by
  induction is generalizing n with
  | nil => trivial
  | cons j is ih =>
    obtain ⟨hj, hi⟩ := List.forall_mem_cons.1 hi
    refine Always.append (always_unify hs fun r hr => .one ?_) fun m _ => ih hi
    refine Proved.of_unified hr ?_ fun i _ henv hq => ⟨hq, henv j hj⟩
    have hjr : q.subst r.value = j.subst r.value :=
      Judgment.term_injective (hr.subst_eq hr.acyclic.solvedBy_value)
    rw [hjr]
    exact .assumed (List.mem_map_of_mem hj)

theorem always_known (hs : s.Acyclic) :
    (known env q.term s : Search ν Subst).Always js F (Proved o js d env [q] s) n :=
  Always.append (t := (stored q.term s : Search ν Subst)) (always_matchApart hs fun _ h => h) fun _ _ =>
    always_matchAll hs fun _ h => h

theorem always_base (hs : s.Acyclic) (traced : Bool) (level : Datum) :
    (base traced level env q.term s).Always js F (Proved o js d env [q] s) n := by
  rw [base, event_eq hs, always_noteIf]
  refine Always.bind ((always_known (o := o) (d := d) hs).mono fun m r _ hr => ?_)
  rw [event_eq hr.acyclic, always_noteIf]
  exact .one hr

/-! ### Applications -/

/-- The goals that the variables `proofs` prove the variables `premises`. -/
def wanted (proofs premises : List Var) : List Judgment :=
  List.zipWith (fun a p => ⟨.var a, .var p⟩) proofs premises

theorem goals_eq (proofs premises : List Var) :
    goals proofs premises = (wanted proofs premises).map Judgment.term := by
  rw [goals, wanted, List.map_zipWith]

theorem map_proof_wanted {proofs premises : List Var} (h : proofs.length = premises.length) :
    (wanted proofs premises).map Judgment.proof = proofs.map .var := by
  induction proofs generalizing premises with
  | nil => rfl
  | cons a proofs ih =>
    cases premises with
    | nil => cases h
    | cons p premises => exact congrArg _ (ih (Nat.succ.inj h))

theorem map_statement_wanted {proofs premises : List Var} (h : proofs.length = premises.length) :
    (wanted proofs premises).map Judgment.statement = premises.map .var := by
  induction proofs generalizing premises with
  | nil => cases premises with
    | nil => rfl
    | cons p premises => cases h
  | cons a proofs ih =>
    cases premises with
    | nil => cases h
    | cons p premises => exact congrArg _ (ih (Nat.succ.inj h))

theorem mem_wanted {proofs premises : List Var} (h : g ∈ wanted proofs premises) :
    ∃ a ∈ proofs, ∃ p ∈ premises, g = ⟨.var a, .var p⟩ := by
  induction proofs generalizing premises with
  | nil => cases h
  | cons a proofs ih =>
    cases premises with
    | nil => cases h
    | cons p premises =>
      rcases List.mem_cons.1 h with rfl | h
      · exact ⟨a, List.mem_cons_self, p, List.mem_cons_self, rfl⟩
      · obtain ⟨b, hb, r, hr, rfl⟩ := ih h
        exact ⟨b, List.mem_cons_of_mem a hb, r, List.mem_cons_of_mem p hr, rfl⟩

/-- The head's goal and the arguments' goals are settled where what they are made of is. -/
theorem settled_subgoals {abs : Var} {args prms : List Var} {statement : Term}
    (hv : ∀ v ∈ abs :: (args ++ prms), v.Settled i) (hs : statement.Settled i) :
    ∀ g ∈ ⟨.var abs, .arrow (prms.map .var) statement⟩ :: wanted args prms, g.term.Settled i := by
  obtain ⟨habs, hv⟩ := List.forall_mem_cons.1 hv
  obtain ⟨hargs, hprms⟩ := List.forall_mem_append.1 hv
  refine List.forall_mem_cons.2 ⟨?_, fun g hg => ?_⟩
  · rw [Term.settled_judgment, Term.settled_var, Term.settled_arrow]
    exact ⟨habs, by simpa using hprms, hs⟩
  · obtain ⟨a, ha, p, hp, rfl⟩ := mem_wanted hg
    simpa [Term.settled_judgment] using ⟨hargs a ha, hprms p hp⟩

theorem settled_head_args {abs : Var} {args prms : List Var}
    (hv : ∀ v ∈ abs :: (args ++ prms), v.Settled i) :
    (Term.tuple ((abs :: args).map .var)).Settled i := by
  simp only [Term.settled_tuple, List.forall_mem_map, Term.settled_var]
  intro v h
  exact hv v (by simpa using (List.mem_cons.1 h).imp id .inl)

theorem settled_drawn_application {k : Nat} (hi : n + 1 + k + k ≤ i) :
    ∀ v ∈ Var.drawn "abs" n :: (Var.drawnList "arg" (n + 1) k ++ Var.drawnList "prms" (n + 1 + k) k),
      v.Settled i := by
  rw [List.forall_mem_cons, List.forall_mem_append]
  exact ⟨Var.settled_drawn "abs" (by omega), fun v hv => Var.settled_of_mem_drawnList hv (by omega),
    fun v hv => Var.settled_of_mem_drawnList hv (by omega)⟩

theorem always_proveAll {prove : Term → Subst → Search Note Subst}
    (hp : Proves o js d env F prove)
    (gs : List Judgment) (hs : s.Acyclic) :
    (proveAll prove (gs.map Judgment.term) s).Always js F (Proved o js d env gs s) n := by
  induction gs generalizing s n with
  | nil => exact .one (.nil hs n)
  | cons g gs ih =>
    refine Always.bind ((hp g s n hs).mono fun m r _ hr => ?_)
    exact (ih hr.acyclic).mono fun m' r' hm hr' => hr.cons hr' hm

/-- A head proved at an arrow, and its arguments at the premises, prove the query they were drawn for. -/
theorem Proved.application {proof statement : Term} {s₁ : Subst} {abs : Var} {args prms : List Var}
    (hlen : args.length = prms.length) (hk : args.length ∈ o.arities.counts)
    (hv : ∀ i, m ≤ i → ∀ v ∈ abs :: (args ++ prms), v.Settled i)
    (h₁ : s.Unified [(proof, .tuple ((abs :: args).map .var))] s₁)
    (h : Proved o js d env (⟨.var abs, .arrow (prms.map .var) statement⟩ :: wanted args prms) s₁ m r) :
    Proved o js (d + 1) env [⟨proof, statement⟩] s m r := by
  refine ⟨fun v t hv => h.keeps v t (h₁.keeps v t hv), h.acyclic, ?_, fun i hi hs henv hq => ?_⟩
  · obtain ⟨hhead, hgoals⟩ := List.forall_mem_cons.1 h.derivable
    -- at the end the query's proof is what the head and the arguments have become
    have hproof : proof.subst r.value = .tuple (r.value abs ::
        ((wanted args prms).map (Judgment.subst r.value)).map Judgment.proof) := by
      rw [Judgment.map_proof_subst, map_proof_wanted hlen]
      simpa using h₁.subst_eq h.solvedBy
    have happ : Derivable o js (d + 1) (env.subst r.value) ⟨.tuple (r.value abs ::
        ((wanted args prms).map (Judgment.subst r.value)).map Judgment.proof),
        statement.subst r.value⟩ := by
      refine .application ?_ ?_ fun g hg => ?_
      · rwa [List.length_map, wanted, List.length_zipWith, ← hlen, Nat.min_self]
      · rw [Judgment.map_statement_subst, map_statement_wanted hlen, ← Term.subst_arrow]
        exact hhead
      · obtain ⟨g', hg', rfl⟩ := List.mem_map.1 hg
        exact hgoals g' hg'
    rw [← hproof] at happ
    exact fun g hg => List.mem_singleton.1 hg ▸ happ
  · obtain ⟨hproof, hstatement⟩ := Term.settled_judgment.1 (hq _ (List.mem_singleton_self _))
    have hset₁ := h₁.settled hs (List.forall_mem_singleton.2 ⟨hproof, settled_head_args (hv i hi)⟩)
    exact h.settled i hi hset₁ henv (settled_subgoals (hv i hi) hstatement)

/-- Whatever it gives proves the query, by an application. -/
theorem always_expand_tuple {prove : Term → Subst → Search Note Subst}
    (hp : Proves o js d env F prove)
    (hs : s.Acyclic) (traced : Bool) (level : Datum) {k : Nat} (hk : k ∈ o.arities.counts) :
    (expand prove traced level q.term s k).Always js F
      (fun m r => Proved o js (d + 1) env [q] s m r ∧ ∃ ts, q.proof.subst r.value = .tuple ts) n := by
  show Always js F _ (drawVars "arg" k _) (n + 1)
  rw [always_drawVars]
  refine always_unify hs fun s₁ h₁ => ?_
  rw [event_eq h₁.acyclic, always_noteIf, always_drawVars, goals_eq]
  refine Always.bind ((hp _ s₁ _ h₁.acyclic).mono fun m r₁ hm hr₁ => ?_)
  refine (always_proveAll hp _ hr₁.acyclic).mono fun m' r hm' hr => ?_
  have hall := hr₁.cons hr hm'
  refine ⟨Proved.application ?_ ?_ (fun i hi => settled_drawn_application (by omega)) h₁ hall, _,
    (h₁.subst_eq hall.solvedBy).trans (Term.subst_tuple _ _)⟩
  · rw [Var.length_drawnList, Var.length_drawnList]
  · rwa [Var.length_drawnList]

theorem always_expand {prove : Term → Subst → Search Note Subst}
    (hp : Proves o js d env F prove)
    (hs : s.Acyclic) (traced : Bool) (level : Datum) {k : Nat} (hk : k ∈ o.arities.counts) :
    (expand prove traced level q.term s k).Always js F (Proved o js (d + 1) env [q] s) n :=
  (always_expand_tuple hp hs traced level hk).mono fun _ _ _ h => h.1

/-! ### Abstractions -/

/-- The bound variable stands for something, or is bound to a symbol. -/
theorem always_nameBound (hs : s.Acyclic) {x : Var} {P : Nat → Subst → Prop}
    {k : Subst → Search Note Subst} (h : ∀ r m, n ≤ m → r.Extends s → r.Acyclic →
      (∀ i, s.Settled i → x.Settled i → r.Settled i) → (k r).Always js F P m) :
    (nameBound x s k).Always js F P n := by
  have old : ∀ m, n ≤ m → (k s).Always js F P m := fun m hm =>
    h s m hm (fun _ _ h => h) hs fun _ h _ => h
  obtain ⟨t, ht⟩ := Option.isSome_iff_exists.1 (hs.isSome_walk? (.var x))
  rw [nameBound, ht]
  cases t with
  | var y =>
    refine always_unify (n := n + 1) hs fun r hr => h r _ (Nat.le_succ n) hr.keeps hr.acyclic ?_
    exact fun i hs hx => hr.settled hs
      (by simpa using ⟨hx, Term.settled_drawnAtom (c := 'x') (by decide) rfl i n⟩)
  | sym c => exact old n (Nat.le_refl n)
  | tuple ts => exact old n (Nat.le_refl n)

theorem settled_drawn_abstraction (hi : n + 4 ≤ i) :
    ∀ v ∈ [Var.drawn "x" n, Var.drawn "body" (n + 1), Var.drawn "a" (n + 2), Var.drawn "b" (n + 3)],
      v.Settled i := by
  simp only [List.forall_mem_cons, List.not_mem_nil, IsEmpty.forall_iff, implies_true, and_true]
  exact ⟨Var.settled_drawn "x" (by omega), Var.settled_drawn "body" (by omega),
    Var.settled_drawn "a" (by omega), Var.settled_drawn "b" (by omega)⟩

/-- What takes an abstraction's query apart is settled where the query and the drawn variables are. -/
theorem settled_abstraction_parts {s₁ s₂ : Subst} {x body a b : Var} (hs : s.Settled i)
    (hq : q.term.Settled i) (hv : ∀ v ∈ [x, body, a, b], v.Settled i)
    (h₁ : s.Unified [(q.proof, .abstraction (.var x) (.var body))] s₁)
    (h₂ : s₁.Unified [(q.statement, .arrow [.var a] (.var b))] s₂) : s₂.Settled i := by
  obtain ⟨hproof, hstatement⟩ := Term.settled_judgment.1 hq
  simp only [List.forall_mem_cons, List.not_mem_nil, IsEmpty.forall_iff, implies_true, and_true] at hv
  obtain ⟨hx, hbody, ha, hb⟩ := hv
  have hset₁ : s₁.Settled i := h₁.settled hs (by simpa [Term.settled_abstraction] using ⟨hproof, hx, hbody⟩)
  exact h₂.settled hset₁ (by simpa [Term.settled_arrow] using ⟨hstatement, ha, hb⟩)

/-- A body proved with the bound term in the environment proves the abstraction. -/
theorem Proved.abstraction {proof statement : Term} {s₁ s₂ s₃ : Subst} {x body a b : Var}
    (ho : o.lambdaIntro = true) (hx : ∀ i, m ≤ i → ∀ v ∈ [x, body, a, b], v.Settled i)
    (h₁ : s.Unified [(proof, .abstraction (.var x) (.var body))] s₁)
    (h₂ : s₁.Unified [(statement, .arrow [.var a] (.var b))] s₂)
    (h₃ : s₃.Extends s₂) (hs₃ : s₃.Acyclic) (hset : ∀ i, s₂.Settled i → x.Settled i → s₃.Settled i)
    (h : Proved o js d (env.extend ⟨s₃.value x, s₃.value a⟩) [⟨.var body, .var b⟩] s₃ m r) :
    Proved o js (d + 1) env [⟨proof, statement⟩] s m r := by
  have keeps₂ : r.Extends s₂ := fun v t hv => h.keeps v t (h₃ v t hv)
  have keeps₁ : r.Extends s₁ := fun v t hv => keeps₂ v t (h₂.keeps v t hv)
  refine ⟨fun v t hv => keeps₁ v t (h₁.keeps v t hv), h.acyclic, ?_, fun i hi hs henv hq => ?_⟩
  · have hproof := h₁.subst_eq (h.acyclic.solvedBy_value.of_extends keeps₁)
    have hstatement := h₂.subst_eq (h.acyclic.solvedBy_value.of_extends keeps₂)
    have hbody := h.derivable _ (List.mem_singleton_self _)
    rw [Environment.subst_extend, Judgment.subst, h.solvedBy.value_subst hs₃,
      h.solvedBy.value_subst hs₃] at hbody
    have habs := Derivable.abstraction ho hbody
    rw [Term.subst_abstraction] at hproof
    rw [Term.subst_arrow] at hstatement
    intro g hg
    rw [List.mem_singleton.1 hg, Judgment.subst, hproof, hstatement]
    exact habs
  · have hset₂ := settled_abstraction_parts hs (hq _ (List.mem_singleton_self _)) (hx i hi) h₁ h₂
    have hvx := hx i hi x (by simp)
    have hvbody := hx i hi body (by simp)
    have hva := hx i hi a (by simp)
    have hvb := hx i hi b (by simp)
    have hset₃ := hset i hset₂ hvx
    refine h.settled i hi hset₃ (henv.extend ?_) (by simpa [Term.settled_judgment] using ⟨hvbody, hvb⟩)
    rw [Term.settled_judgment]
    exact ⟨hset₃.subst_value hs₃ (Term.settled_var.2 hvx), hset₃.subst_value hs₃ (Term.settled_var.2 hva)⟩

theorem always_introduce {prove : Environment → Term → Subst → Search Note Subst}
    (hp : ∀ env, Proves o js d env F (prove env))
    (ho : o.lambdaIntro = true) (hs : s.Acyclic) (traced : Bool) (level : Datum) :
    (introduce prove traced level env q.term s).Always js F (Proved o js (d + 1) env [q] s) n := by
  refine always_unify (n := n + 4) hs fun s₁ h₁ => always_unify h₁.acyclic fun s₂ h₂ => ?_
  refine always_nameBound h₂.acyclic fun s₃ m hm h₃ hs₃ hset => ?_
  rw [event_eq hs₃, always_noteIf, hs₃.instantiate?_eq, hs₃.instantiate?_eq]
  refine (hp _ _ s₃ m hs₃).mono fun m' r hm' hr => ?_
  exact Proved.abstraction ho (fun i hi => settled_drawn_abstraction (by omega)) h₁ h₂ h₃ hs₃ hset hr

/-! ### The search -/

theorem always_ways {below : Environment → Term → Subst → Search Note Subst}
    (hp : ∀ env, Proves o js d env F (below env))
    (hF : o.arities.broken = true → F .mismatch) (hs : s.Acyclic) (level : Datum) :
    (ways o level below env q.term s).Always js F (Proved o js (d + 1) env [q] s) n := by
  refine (always_base hs o.traced level).append fun m _ => ?_
  refine Always.append (.ofList_bind fun k hk i _ => always_expand (hp env) hs o.traced level hk) ?_
  intro i _
  split
  · next hb => exact hF hb
  · split
    · next ho => exact always_introduce hp ho hs o.traced level
    · trivial

theorem always_solve (hF : o.arities.broken = true → F .mismatch) (d : Nat) (env : Environment)
    (q : Judgment) (hs : s.Acyclic) (n : Nat) :
    (solve o d env q.term s).Always js F (Proved o js d env [q] s) n := by
  induction d generalizing env q s n with
  | zero => exact always_base hs o.traced _
  | succ d ih => exact always_ways (fun env g s n hs => ih env g hs n) hF hs _

/-- Where all arities are numbers the search meets no failure. -/
theorem proves_solve (ha : o.arities.broken = false) (d : Nat) (env : Environment) :
    Proves o js d env (fun _ => False) (solve o d env) := fun g s n hs =>
  always_solve (fun hb => by rw [ha] at hb; cases hb) d env g hs n

/-- Each result is the query as a substitution that proves it makes it. -/
theorem always_results_proved (hF : o.arities.broken = true → F .mismatch) (d : Nat) (env : Environment)
    (q : Judgment) (n : Nat) :
    (results o d env q.term).Always js F
      (fun m t => ∃ r, Proved o js d env [q] .empty m r ∧ t = (q.subst r.value).term) n := by
  refine Always.bind ((always_solve hF d env q Subst.acyclic_empty n).mono fun m r _ hr => ?_)
  rw [hr.acyclic.instantiate?_eq]
  exact .one ⟨r, hr, rfl⟩

/-- Every substitution that a reading of the search gives keeps the bindings it began with, has no
cycle, and makes the query derivable within the depth. -/
theorem solve_sound (o : SearchOptions) (d : Nat) (env : Environment) (q : Judgment) (hs : s.Acyclic)
    (w : World) (limit : Option Nat) (hr : r ∈ ((solve o d env q.term s).read limit w).results) :
    r.Extends s ∧ r.Acyclic ∧ (∀ t, r.instantiate? t = some (t.subst r.value)) ∧
      Derivable o w.judgments d (env.subst r.value) (q.subst r.value) := by
  have hall : (solve o d env q.term s).Always w.judgments (fun _ => True) _ w.drawn :=
    always_solve (fun _ => trivial) d env q hs w.drawn
  obtain ⟨m, h⟩ := hall.of_mem_read hr
  exact ⟨h.keeps, h.acyclic, h.acyclic.instantiate?_eq, h.derivable q (List.mem_singleton_self q)⟩

/-- `f : (-> $t (L $t))`. -/
def listing : Judgment :=
  ⟨.ofText "f", .arrow [.ofText "$t"] (.tuple [.ofText "L", .ofText "$t"])⟩

/-- `$p : (-> A $c)`. -/
def fromA : Judgment := ⟨.ofText "$p", .arrow [.ofText "A"] (.ofText "$c")⟩

theorem solve_sound_fromA :
    Subst.empty.Acyclic ∧
      ∃ r ∈ ((solve { lambdaIntro := true } 1 {} fromA.term .empty).read none ⟨[listing], 0⟩).results,
      r.instantiate? fromA.term = some (Judgment.mk (.abstraction (.ofText "x9") (.ofText "x9"))
        (.arrow [.ofText "A"] (.ofText "A"))).term ∧
      Derivable { lambdaIntro := true } [listing] 1 (Environment.subst r.value {}) (fromA.subst r.value) := by
  have found :
      ∃ r ∈ ((solve { lambdaIntro := true } 1 {} fromA.term .empty).read none ⟨[listing], 0⟩).results,
      r.instantiate? fromA.term = some (Judgment.mk (.abstraction (.ofText "x9") (.ofText "x9"))
        (.arrow [.ofText "A"] (.ofText "A"))).term := by decide +kernel
  obtain ⟨r, hr, he⟩ := found
  exact ⟨Subst.acyclic_empty, r, hr, he, (solve_sound _ 1 {} fromA Subst.acyclic_empty _ none hr).2.2.2⟩

end ProofSearch.Backward
