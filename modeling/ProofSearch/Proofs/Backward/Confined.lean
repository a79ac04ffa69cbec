import ProofSearch.Proofs.Backward.Soundness
import ProofSearch.Proofs.Subst.Sorted
import ProofSearch.Proofs.Term.Scope

/-!
# Hypotheses stay with their abstractions

A query that leaves its proof open is searched by goals whose proofs are variables not yet bound. Such a
variable is bound to a stored proof or a hypothesis, to an application of new proof variables, or to an
abstraction over a symbol that is drawn for it. So a proof is put together from closed parts (`Scoped`):
what is free in it was in scope at its goal, and it binds symbols of the draws made for that goal. Statements
have variables of their own (`Sorted`), so none of this depends on how they are made equal. The invariant is
what a search for some goals does to the proof variables (`Confined`): it binds those of the goals, and leaves
the others to the goals that are still to be proved.
-/

namespace ProofSearch.Backward
open Search
variable {o : SearchOptions} {js : List Judgment} {F : Fault → Prop} {d i m n : Nat} {v : Var} {t : Term}
variable {env : Environment} {q g : Judgment} {gs : List Judgment} {s s₁ r : Subst} {K K' : Set Var}
variable {C : Set Sym} {vs : List Var}

/-- A proof without variables and abstractions, of symbols in `C`. -/
structure Plain (C : Set Sym) (t : Term) : Prop where
  vars : t.vars = []
  lambda : Sym.lambda ∉ t.syms
  syms : ∀ c ∈ t.syms, c ∈ C

theorem Plain.mono {C' : Set Sym} (h : Plain C t) (hC : C ⊆ C') : Plain C' t :=
  ⟨h.vars, h.lambda, fun c hc => hC (h.syms c hc)⟩

theorem Plain.closed (h : Plain C t) (n m : Nat) : Term.Scoped C n m [t] :=
  .of_plain h.vars h.lambda h.syms n m

theorem plain_drawn (C : Set Sym) (k : Nat) : Plain (insert (Sym.drawn k) C) (.sym (.drawn k)) where
  vars := rfl
  lambda := by
    rw [Term.syms_sym, List.mem_singleton]
    exact (Sym.drawn_ne_lambda k).symm
  syms := by
    intro c hc
    rw [List.mem_singleton.1 hc]
    exact Set.mem_insert _ C

/-- The goals ask for proofs by variables of `K`, each by one of its own that is not bound yet. No statement
has a variable of `K`, and what is known has plain proofs. -/
structure Ready (js : List Judgment) (C : Set Sym) (K : Set Var) (env : Environment) (gs : List Judgment)
    (s : Subst) (n : Nat) : Prop where
  acyclic : s.Acyclic
  settled : s.Settled n
  sorted : s.Sorted K
  names : ∀ v ∈ K, v.Settled n
  stored : ∀ j ∈ js, Plain C j.proof
  entries : ∀ j ∈ env.entries, Plain C j.proof ∧ j.statement.Avoids K
  env_settled : env.Settled n
  goals : ∀ g ∈ gs, g.term.Settled n ∧ g.statement.Avoids K ∧ ∃ v ∈ K, g.proof = .var v ∧ s.get? v = none
  apart : (gs.map Judgment.proof).Nodup

/-- The goals have got closed proofs, of symbols in scope and of draws from `n` on and below `m`, and the
proof variables that were not theirs are as they were. `K'` are the proof variables there are by then. -/
structure Confined (C : Set Sym) (K : Set Var) (n : Nat) (gs : List Judgment) (s : Subst) (K' : Set Var)
    (m : Nat) (r : Subst) : Prop where
  names : ∀ v ∈ K', v.Settled m
  agree : ∀ v : Var, v.Settled n → (v ∈ K' ↔ v ∈ K)
  sorted : r.Sorted K'
  open_of_open : ∀ v ∈ K, s.get? v = none → .var v ∉ gs.map Judgment.proof → r.get? v = none
  closed : Term.Scoped C n m (gs.map fun g => g.proof.subst r.value)

/-- The search confines the proofs of its goals. -/
def Confines (o : SearchOptions) (js : List Judgment) (d : Nat) (env : Environment) (F : Fault → Prop)
    (prove : Term → Subst → Search Note Subst) : Prop :=
  ∀ (C : Set Sym) (K : Set Var) (q : Judgment) (s : Subst) (n : Nat), Ready js C K env [q] s n →
    (prove q.term s).Always js F
      (fun m r => Proved o js d env [q] s m r ∧ ∃ K', Confined C K n [q] s K' m r) n

/-! ### One goal after the other -/

namespace Ready

theorem proof_eq (h : Ready js C K env [q] s n) : ∃ v ∈ K, q.proof = .var v ∧ s.get? v = none :=
  (h.goals q (List.mem_singleton_self q)).2.2

theorem query_settled (h : Ready js C K env [q] s n) : q.term.Settled n :=
  (h.goals q (List.mem_singleton_self q)).1

theorem statement_avoids (h : Ready js C K env [q] s n) : q.statement.Avoids K :=
  (h.goals q (List.mem_singleton_self q)).2.1

theorem head (h : Ready js C K env (g :: gs) s n) : Ready js C K env [g] s n :=
  { h with
    goals := List.forall_mem_singleton.2 (h.goals g List.mem_cons_self)
    apart := List.nodup_singleton _ }

theorem mono (h : Ready js C K env gs s n) (hm : n ≤ m) : Ready js C K env gs s m :=
  { h with
    settled := h.settled.mono hm
    names := fun v hv => (h.names v hv).mono hm
    env_settled := h.env_settled.mono hm
    goals := fun g hg => (h.goals g hg).imp_left fun hset => hset.mono hm }

/-- The goals behind the first one are ready when it has been proved. -/
theorem rest (h : Ready js C K env (g :: gs) s n) (hr : Proved o js d env [g] s m r)
    (hc : Confined C K n [g] s K' m r) (hm : n ≤ m) : Ready js C K' env gs r m where
  acyclic := hr.acyclic
  settled := hr.settled m (Nat.le_refl m) (h.settled.mono hm) (h.env_settled.mono hm)
    (List.forall_mem_singleton.2 ((h.goals g List.mem_cons_self).1.mono hm))
  sorted := hc.sorted
  names := hc.names
  stored := h.stored
  entries := fun j hj =>
    ⟨(h.entries j hj).1, (h.entries j hj).2.of_agree (Term.settled_judgment.1 (h.env_settled j hj)).2 hc.agree⟩
  env_settled := h.env_settled.mono hm
  goals := by
    intro g' hg'
    obtain ⟨hset, havoids, v, hv, hproof, hopen⟩ := h.goals g' (List.mem_cons_of_mem g hg')
    refine ⟨hset.mono hm, havoids.of_agree (Term.settled_judgment.1 hset).2 hc.agree, v, ?_, hproof, ?_⟩
    · exact (hc.agree v (h.names v hv)).2 hv
    · refine hc.open_of_open v hv hopen fun hmem => ?_
      have hapart := (List.nodup_cons.1 h.apart).1
      rw [List.map_singleton, List.mem_singleton, ← hproof] at hmem
      exact hapart (hmem ▸ List.mem_map_of_mem hg')
  apart := (List.nodup_cons.1 h.apart).2

end Ready

namespace Confined

theorem nil (h : Ready js C K env [] s n) : Confined C K n [] s K n s where
  names := h.names
  agree := fun _ _ => Iff.rfl
  sorted := h.sorted
  open_of_open := fun _ _ hv _ => hv
  closed := .nil C n n

/-- Draws may have been made before the search for the goals. -/
theorem of_later (h : Confined C K i gs s K' m r) (hn : n ≤ i) : Confined C K n gs s K' m r :=
  { h with
    agree := fun v hv => h.agree v (hv.mono hn)
    closed := h.closed.mono hn (Nat.le_refl m) }

theorem cons {K'' : Set Var} {r' : Subst} (hK : ∀ v ∈ K, v.Settled n) (h : Confined C K n [g] s K' i r)
    (h' : Confined C K' i gs r K'' m r') (hr : r.Acyclic) (hsol : r.SolvedBy r'.value) (hn : n ≤ i)
    (hm : i ≤ m) : Confined C K n (g :: gs) s K'' m r' where
  names := h'.names
  agree := fun v hv => (h'.agree v (hv.mono hn)).trans (h.agree v hv)
  sorted := h'.sorted
  open_of_open := by
    intro v hv hopen hgs
    rw [List.map_cons, List.mem_cons, not_or] at hgs
    have hmid := h.open_of_open v hv hopen (by simpa using hgs.1)
    exact h'.open_of_open v ((h.agree v (hK v hv)).2 hv) hmid hgs.2
  closed := by
    -- the first proof has no variable left, so it is not changed any more
    have hclosed : (g.proof.subst r.value).vars = [] := h.closed.vars _ (by simp)
    have hsame : g.proof.subst r'.value = g.proof.subst r.value := by
      rw [← hsol.subst_value hr, Term.subst_eq_self hclosed]
    rw [List.map_cons, hsame]
    exact h.closed.append h'.closed hn hm

end Confined

theorem always_proveAll_confined {prove : Term → Subst → Search Note Subst}
    (hp : Proves o js d env F prove) (hc : Confines o js d env F prove) (gs : List Judgment)
    (h : Ready js C K env gs s n) :
    (proveAll prove (gs.map Judgment.term) s).Always js F
      (fun m r => ∃ K', Confined C K n gs s K' m r) n := by
  induction gs generalizing K s n with
  | nil => exact .one ⟨K, .nil h⟩
  | cons g gs ih =>
    refine Always.bind ((hc C K g s n h.head).mono fun i r hi hr => ?_)
    obtain ⟨hr, K₁, hK₁⟩ := hr
    have hrest := (ih (h.rest hr hK₁ hi)).and (always_proveAll hp gs hr.acyclic (n := i))
    refine hrest.mono fun m r' hm hr' => ?_
    obtain ⟨⟨K₂, hK₂⟩, hr'⟩ := hr'
    exact ⟨K₂, hK₁.cons h.names hK₂ hr.acyclic hr'.solvedBy hi hm⟩

/-! ### What is known -/

theorem Confined.of_known (h : Ready js C K env [q] s n) (hv : v ∈ K) (hq : q.proof = .var v)
    (hopen : s.get? v = none) {j : Judgment} (hj : Plain C j.proof) (hjs : j.statement.Avoids K)
    (hr : (s.bind v j.proof).Unified [(q.statement, j.statement)] r) (hm : n ≤ m) :
    Confined C K n [q] s K m r := by
  have hsorted : (s.bind v j.proof).Sorted K := h.sorted.bind hv (by simp [hj.vars])
  have havoid : ∀ e ∈ [(q.statement, j.statement)], e.1.Avoids K ∧ e.2.Avoids K :=
    List.forall_mem_singleton.2 ⟨h.statement_avoids, hjs⟩
  have hproof : q.proof.subst r.value = j.proof := by
    have hget := hsorted.get?_unified hr havoid hv
    rw [Subst.get?_bind_self] at hget
    rw [hq, Term.subst_var, hr.acyclic.value_of_get? hget, Term.subst_eq_self hj.vars]
  refine ⟨fun u hu => (h.names u hu).mono hm, fun _ _ => Iff.rfl, hsorted.unified hr havoid, ?_, ?_⟩
  · intro u hu hnone hne
    have huv : u ≠ v := by
      rintro rfl
      exact hne (by simp [hq])
    rw [hsorted.get?_unified hr havoid hu, Subst.get?_bind, if_neg huv]
    exact hnone
  · rw [List.map_singleton, hproof]
    exact hj.closed n m

theorem always_unify_known (h : Ready js C K env [q] s n) {j : Judgment} (hj : Plain C j.proof)
    (hjs : j.statement.Avoids K) (hm : n ≤ m) :
    (ofUnify (s.unify q.term j.term) one : Search Note Subst).Always js F
      (fun m r => ∃ K', Confined C K n [q] s K' m r) m := by
  refine .ofUnify (Subst.unify_ne_endless h.acyclic _ _) fun r hr => .one ⟨K, ?_⟩
  obtain ⟨v, hv, hq, hopen⟩ := h.proof_eq
  obtain ⟨k, s₁, hs₁, hr⟩ := Subst.exists_halves_of_unify h.acyclic hr
  have hground : ∀ w, j.proof ≠ .var w := by
    intro w hw
    have hvars := hj.vars
    rw [hw] at hvars
    cases hvars
  rw [hq] at hs₁
  obtain rfl := Subst.eq_bind_of_unifyWithin hopen hground hs₁
  exact .of_known h hv hq hopen hj hjs hr hm

theorem always_matchApart_confined (h : Ready js C K env [q] s n) {is : List Judgment}
    (his : ∀ j ∈ is, Plain C j.proof) (hm : n ≤ m) :
    (matchApart q.term s is : Search Note Subst).Always js F
      (fun m r => ∃ K', Confined C K n [q] s K' m r) m := by
  induction is generalizing m with
  | nil => trivial
  | cons j is ih =>
    obtain ⟨hj, his⟩ := List.forall_mem_cons.1 his
    have hm' : n ≤ m + 1 := hm.trans (Nat.le_succ m)
    have hproof : (j.tag (ending m)).proof = j.proof := Term.subst_eq_self hj.vars _
    have hstatement : (j.tag (ending m)).statement.Avoids K := by
      intro w hw hwK
      obtain ⟨u, _, hu⟩ := Term.mem_vars_subst.1 hw
      rw [Term.vars_var, List.mem_singleton] at hu
      rw [hu] at hwK
      exact h.names _ hwK m hm (Var.ending_suffix_tag m u)
    refine Always.append (n := m + 1) (always_unify_known h ?_ hstatement hm') fun i hi => ih his (hm'.trans hi)
    rw [hproof]
    exact hj

theorem always_matchAll_confined (h : Ready js C K env [q] s n) {is : List Judgment}
    (his : ∀ j ∈ is, Plain C j.proof ∧ j.statement.Avoids K) (hm : n ≤ m) :
    (matchAll q.term s is : Search Note Subst).Always js F
      (fun m r => ∃ K', Confined C K n [q] s K' m r) m := by
  induction is generalizing m with
  | nil => trivial
  | cons j is ih =>
    obtain ⟨hj, his⟩ := List.forall_mem_cons.1 his
    exact Always.append (always_unify_known h hj.1 hj.2 hm) fun i hi => ih his (hm.trans hi)

theorem always_base_confined (h : Ready js C K env [q] s n) (traced : Bool) (level : Datum) (hm : n ≤ m) :
    (base traced level env q.term s).Always js F (fun m r => ∃ K', Confined C K n [q] s K' m r) m := by
  have hknown : (known env q.term s : Search Note Subst).Always js F
      (fun m r => ∃ K', Confined C K n [q] s K' m r) m :=
    Always.append (t := (stored q.term s : Search Note Subst)) (always_matchApart_confined h h.stored hm)
      fun i hi => always_matchAll_confined h h.entries (hm.trans hi)
  have hproved : (known env q.term s : Search Note Subst).Always js F (Proved {} js 0 env [q] s) m :=
    always_known h.acyclic
  rw [base, event_eq h.acyclic, always_noteIf]
  refine Always.bind ((hknown.and hproved).mono fun i r _ hr => ?_)
  rw [event_eq hr.2.acyclic, always_noteIf]
  exact .one hr.1

/-! ### Names drawn for a goal -/

/-- The variables of the list along with those of `K`. -/
def addVars (K : Set Var) (vs : List Var) : Set Var := {w | w ∈ K ∨ w ∈ vs}

theorem agree_addVars (hvs : ∀ w ∈ vs, ¬ w.Settled n) (u : Var) (hu : u.Settled n) :
    u ∈ addVars K vs ↔ u ∈ K := by
  constructor
  · rintro (hK | hw)
    · exact hK
    · exact absurd hu (hvs u hw)
  · exact Or.inl

namespace Ready

theorem sorted_bind (h : Ready js C K env [q] s n) (hv : v ∈ K) (hvs : ∀ w ∈ vs, ¬ w.Settled n)
    (ht : ∀ w ∈ t.vars, w ∈ vs) : (s.bind v t).Sorted (addVars K vs) := by
  have hs : s.Sorted (addVars K vs) := h.sorted.congr h.settled (agree_addVars hvs)
  exact hs.bind (.inl hv) fun w hw => .inr (ht w hw)

theorem get?_bind_of_drawn (h : Ready js C K env [q] s n) (hv : v ∈ K) {w : Var} (hw : ¬ w.Settled n)
    (t : Term) : (s.bind v t).get? w = none := by
  have hwv : w ≠ v := by
    rintro rfl
    exact hw (h.names w hv)
  rw [Subst.get?_bind, if_neg hwv]
  cases hget : s.get? w with
  | none => rfl
  | some u => exact absurd (Term.settled_var.1 (h.settled w u hget).1) hw

theorem entries_addVars (h : Ready js C K env [q] s n) (hvs : ∀ w ∈ vs, ¬ w.Settled n) :
    ∀ j ∈ env.entries, Plain C j.proof ∧ j.statement.Avoids (addVars K vs) := fun j hj =>
  ⟨(h.entries j hj).1,
    (h.entries j hj).2.of_agree (Term.settled_judgment.1 (h.env_settled j hj)).2 (agree_addVars hvs)⟩

theorem names_addVars (h : Ready js C K env [q] s n) (hn : n ≤ i) (hvs : ∀ w ∈ vs, w.Settled i) :
    ∀ w ∈ addVars K vs, w.Settled i := by
  rintro w (hK | hw)
  · exact (h.names w hK).mono hn
  · exact hvs w hw

end Ready

/-- What is done for goals that were made for a query is done for the query. -/
theorem Confined.of_subgoals {C' : Set Sym} (h : Ready js C K env [q] s n) (hq : q.proof = .var v)
    (hvs : ∀ w ∈ vs, ¬ w.Settled n) (hn : n ≤ i)
    (hsub : Confined C' (addVars K vs) i gs s₁ K' m r)
    (hopen : ∀ u ∈ K, s.get? u = none → u ≠ v → s₁.get? u = none)
    (hgs : ∀ t ∈ gs.map Judgment.proof, ∃ w ∈ vs, t = .var w)
    (hclosed : Term.Scoped C n m [q.proof.subst r.value]) : Confined C K n [q] s K' m r where
  names := hsub.names
  agree := fun u hu => (hsub.agree u (hu.mono hn)).trans (agree_addVars hvs u hu)
  sorted := hsub.sorted
  open_of_open := by
    intro u hu hnone hne
    have huv : u ≠ v := by
      rintro rfl
      exact hne (by simp [hq])
    refine hsub.open_of_open u (.inl hu) (hopen u hu hnone huv) fun hmem => ?_
    obtain ⟨w, hw, he⟩ := hgs _ hmem
    cases he
    exact hvs u hw (h.names u hu)
  closed := hclosed

/-! ### Applications -/

/-- The names an application draws for its proof: no others are drawn before those of its premises. -/
theorem new_application (n k : Nat) : ∀ w ∈ Var.drawn "abs" n :: Var.drawnList "arg" (n + 1) k,
    ¬ w.Settled n ∧ w.Settled (n + 1 + k) := by
  refine List.forall_mem_cons.2 ⟨⟨?_, ?_⟩, fun w hw => ⟨?_, ?_⟩⟩
  · exact Var.not_settled_drawn "abs" (Nat.le_refl n)
  · exact Var.settled_drawn "abs" (by omega)
  · exact Var.not_settled_of_mem_drawnList hw (Nat.le_succ n)
  · exact Var.settled_of_mem_drawnList hw (Nat.le_refl _)

theorem nodup_application (n k : Nat) : (Var.drawn "abs" n :: Var.drawnList "arg" (n + 1) k).Nodup := by
  refine List.nodup_cons.2 ⟨fun hmem => ?_, Var.nodup_drawnList "arg" (n + 1) k⟩
  exact Var.not_settled_of_mem_drawnList hmem (Nat.le_refl _) (Var.settled_drawn "abs" (Nat.lt_succ_self n))

theorem map_proof_subgoals (abs : Var) {args prms : List Var} (statement : Term)
    (hlen : args.length = prms.length) :
    (⟨.var abs, statement⟩ :: wanted args prms).map Judgment.proof = (abs :: args).map .var :=
  congrArg (Term.var abs :: ·) (map_proof_wanted hlen)

/-- The goals of an application, once the proof of the query has been bound to it. -/
theorem Ready.application {abs : Var} {args prms : List Var} (h : Ready js C K env [q] s n) (hv : v ∈ K)
    (hvs : ∀ w ∈ abs :: args, ¬ w.Settled n) (hnodup : (abs :: args).Nodup)
    (hprms : ∀ p ∈ prms, p ∉ addVars K (abs :: args)) (hlen : args.length = prms.length)
    (hnames : ∀ w ∈ abs :: (args ++ prms), w.Settled i) (hn : n ≤ i)
    (hacyclic : (s.bind v (.tuple ((abs :: args).map .var))).Acyclic)
    (hset : (s.bind v (.tuple ((abs :: args).map .var))).Settled i) :
    Ready js C (addVars K (abs :: args)) env
      (⟨.var abs, .arrow (prms.map .var) q.statement⟩ :: wanted args prms)
      (s.bind v (.tuple ((abs :: args).map .var))) i where
  acyclic := hacyclic
  settled := hset
  sorted := h.sorted_bind hv hvs fun w hw => by simpa using hw
  names := h.names_addVars hn fun w hw => hnames w (by simpa using (List.mem_cons.1 hw).imp id .inl)
  stored := h.stored
  entries := h.entries_addVars hvs
  env_settled := h.env_settled.mono hn
  goals := by
    have hqs := (Term.settled_judgment.1 h.query_settled).2
    have hgs := settled_subgoals hnames (hqs.mono hn)
    have hopen : ∀ w ∈ abs :: args, w ∈ addVars K (abs :: args) ∧
        (s.bind v (.tuple ((abs :: args).map .var))).get? w = none := fun w hw =>
      ⟨.inr hw, h.get?_bind_of_drawn hv (hvs w hw) _⟩
    intro g hg
    refine ⟨hgs g hg, ?_⟩
    rcases List.mem_cons.1 hg with rfl | hg
    · refine ⟨Term.Avoids.arrow ?_ (h.statement_avoids.of_agree hqs (agree_addVars hvs)), abs,
        (hopen abs List.mem_cons_self).1, rfl, (hopen abs List.mem_cons_self).2⟩
      intro p hp
      obtain ⟨w, hw, rfl⟩ := List.mem_map.1 hp
      exact Term.avoids_var.2 (hprms w hw)
    · obtain ⟨a, ha, p, hp, rfl⟩ := mem_wanted hg
      have ha := hopen a (List.mem_cons_of_mem abs ha)
      exact ⟨Term.avoids_var.2 (hprms p hp), a, ha.1, rfl, ha.2⟩
  apart := by
    rw [map_proof_subgoals _ _ hlen]
    exact hnodup.map fun a b hab => Term.var.inj hab

/-- The proof of the query is the application of the proofs of its goals. -/
theorem Proved.scoped_application {abs : Var} {args prms : List Var} {statement : Term}
    (hlen : args.length = prms.length) (hq : q.proof = .var v)
    (hr : Proved o js d env (⟨.var abs, statement⟩ :: wanted args prms)
      (s.bind v (.tuple ((abs :: args).map .var))) m r)
    (hgs : Term.Scoped C n m
      ((⟨.var abs, statement⟩ :: wanted args prms).map fun g => g.proof.subst r.value)) :
    Term.Scoped C n m [q.proof.subst r.value] := by
  have hproofs : ((⟨.var abs, statement⟩ :: wanted args prms).map fun g => g.proof.subst r.value) =
      r.value abs :: args.map r.value := by
    have hmap := congrArg (List.map (Term.subst r.value)) (map_proof_subgoals abs statement hlen)
    rw [List.map_map, List.map_map] at hmap
    exact hmap
  have hproof : q.proof.subst r.value = .tuple (r.value abs :: args.map r.value) := by
    rw [hq, Term.subst_var, hr.acyclic.value_of_get? (hr.keeps v _ (Subst.get?_bind_self s v _)),
      Term.subst_tuple, List.map_map]
    rfl
  rw [hproof]
  rw [hproofs] at hgs
  exact hgs.application

theorem always_expand_confined {prove : Term → Subst → Search Note Subst}
    (hp : Proves o js d env F prove) (hc : Confines o js d env F prove) (h : Ready js C K env [q] s n)
    (traced : Bool) (level : Datum) (k : Nat) :
    (expand prove traced level q.term s k).Always js F (fun m r => ∃ K', Confined C K n [q] s K' m r) n := by
  obtain ⟨v, hv, hq, hopen⟩ := h.proof_eq
  have hnames := settled_drawn_application (Nat.le_refl (n + 1 + k + k))
  have hnew := new_application n k
  have hprms : ∀ p ∈ Var.drawnList "prms" (n + 1 + k) k,
      p ∉ addVars K (Var.drawn "abs" n :: Var.drawnList "arg" (n + 1) k) := fun p hp hmem =>
    Var.not_settled_of_mem_drawnList hp (Nat.le_refl _)
      (h.names_addVars (by omega) (fun w hw => (hnew w hw).2) p hmem)
  have hlen : (Var.drawnList "arg" (n + 1) k).length = (Var.drawnList "prms" (n + 1 + k) k).length := by simp
  show Always js F _ (drawVars "arg" k _) (n + 1)
  rw [always_drawVars]
  refine .ofUnify (Subst.unify_ne_endless h.acyclic _ _) fun s₁ hs₁ => ?_
  have h₁ := Subst.unified_of_unify h.acyclic hs₁
  have hset : s₁.Settled (n + 1 + k + k) := by
    refine h₁.settled (h.settled.mono (by omega)) (List.forall_mem_singleton.2 ⟨?_, settled_head_args hnames⟩)
    exact (Term.settled_judgment.1 h.query_settled).1.mono (by omega)
  rw [hq] at hs₁
  obtain rfl := Subst.eq_bind_of_unify hopen (fun _ => Term.noConfusion) hs₁
  rw [event_eq h₁.acyclic, always_noteIf, always_drawVars, goals_eq]
  have hready := h.application hv (fun w hw => (hnew w hw).1) (nodup_application n k) hprms hlen hnames
    (by omega) h₁.acyclic hset
  have hall := (always_proveAll_confined hp hc _ hready).and (always_proveAll hp _ h₁.acyclic)
  refine hall.mono fun m r hm hr => ?_
  obtain ⟨⟨K', hK'⟩, hr⟩ := hr
  refine ⟨K', .of_subgoals h hq (fun w hw => (hnew w hw).1) (by omega) hK' ?_ ?_ ?_⟩
  · intro u hu hnone huv
    rw [Subst.get?_bind, if_neg huv]
    exact hnone
  · intro t ht
    rw [map_proof_subgoals _ _ hlen] at ht
    obtain ⟨w, hw, rfl⟩ := List.mem_map.1 ht
    exact ⟨w, hw, rfl⟩
  · exact (Proved.scoped_application hlen hq hr hK'.closed).mono (by omega) (Nat.le_refl m)

/-! ### Abstractions -/

/-- The names an abstraction draws for its proof, and those it draws for its statement. -/
theorem new_abstraction (n : Nat) : ∀ w ∈ [Var.drawn "x" n, Var.drawn "body" (n + 1)],
    ¬ w.Settled n ∧ w.Settled (n + 2) := by
  refine List.forall_mem_cons.2 ⟨⟨?_, ?_⟩, List.forall_mem_singleton.2 ⟨?_, ?_⟩⟩
  · exact Var.not_settled_drawn "x" (Nat.le_refl n)
  · exact Var.settled_drawn "x" (by omega)
  · exact Var.not_settled_drawn "body" (Nat.le_succ n)
  · exact Var.settled_drawn "body" (by omega)

theorem new_premise (n : Nat) : ∀ w ∈ [Var.drawn "a" (n + 2), Var.drawn "b" (n + 3)], ¬ w.Settled (n + 2) :=
  List.forall_mem_cons.2 ⟨Var.not_settled_drawn "a" (Nat.le_refl _),
    List.forall_mem_singleton.2 (Var.not_settled_drawn "b" (by omega))⟩

section
variable {x body a b : Var} {s₂ : Subst} {k : Nat}

/-- What a statement is made equal to does not touch the proof variables. -/
theorem Ready.get?_abstraction (h : Ready js C K env [q] s n) (hv : v ∈ K)
    (hvs : ∀ w ∈ [x, body], ¬ w.Settled n) (hab : ∀ w ∈ [a, b], w ∉ addVars K [x, body])
    (h₂ : (s.bind v (.abstraction (.var x) (.var body))).Unified
      [(q.statement, .arrow [.var a] (.var b))] s₂) :
    s₂.Sorted (addVars K [x, body]) ∧ ∀ u ∈ addVars K [x, body],
      s₂.get? u = (s.bind v (.abstraction (.var x) (.var body))).get? u := by
  have hsorted := h.sorted_bind (t := .abstraction (.var x) (.var body)) hv hvs fun w hw => by
    simpa [Term.abstraction] using hw
  have hqs := (Term.settled_judgment.1 h.query_settled).2
  have havoid : ∀ e ∈ [(q.statement, Term.arrow [.var a] (.var b))],
      e.1.Avoids (addVars K [x, body]) ∧ e.2.Avoids (addVars K [x, body]) := by
    refine List.forall_mem_singleton.2 ⟨h.statement_avoids.of_agree hqs (agree_addVars hvs), .arrow ?_ ?_⟩
    · exact List.forall_mem_singleton.2 (Term.avoids_var.2 (hab a (by simp)))
    · exact Term.avoids_var.2 (hab b (by simp))
  exact ⟨hsorted.unified h₂ havoid, fun u hu => hsorted.get?_unified h₂ havoid hu⟩

/-- The goal of an abstraction's body, in scope of the symbol that has been drawn for it. -/
theorem Ready.abstraction (h : Ready js C K env [q] s n) (hv : v ∈ K)
    (hvs : ∀ w ∈ [x, body], ¬ w.Settled n) (hxb : body ≠ x)
    (hab : ∀ w ∈ [a, b], w ∉ addVars K [x, body]) (hnames : ∀ w ∈ [x, body, a, b], w.Settled i)
    (hn : n ≤ i)
    (h₂ : (s.bind v (.abstraction (.var x) (.var body))).Unified
      [(q.statement, .arrow [.var a] (.var b))] s₂)
    (h₃ : s₂.Unified [(.var x, .sym (.drawn k))] (s₂.bind x (.sym (.drawn k))))
    (hset : (s₂.bind x (.sym (.drawn k))).Settled i) :
    Ready js (insert (.drawn k) C) (addVars K [x, body])
      (env.extend ⟨(s₂.bind x (.sym (.drawn k))).value x, (s₂.bind x (.sym (.drawn k))).value a⟩)
      [⟨.var body, .var b⟩] (s₂.bind x (.sym (.drawn k))) i := by
  obtain ⟨hsorted, hget⟩ := h.get?_abstraction hv hvs hab h₂
  have hsorted₃ : (s₂.bind x (.sym (.drawn k))).Sorted (addVars K [x, body]) :=
    hsorted.bind (.inr (by simp)) (by simp)
  have hbound : (s₂.bind x (.sym (.drawn k))).value x = .sym (.drawn k) :=
    h₃.acyclic.value_of_get? (Subst.get?_bind_self s₂ x _)
  have hpremise := hsorted₃.subst_value h₃.acyclic (Term.avoids_var.2 (hab a (by simp)))
  exact {
    acyclic := h₃.acyclic
    settled := hset
    sorted := hsorted₃
    names := h.names_addVars hn fun w hw => hnames w (by simp at hw ⊢; tauto)
    stored := fun j hj => (h.stored j hj).mono (Set.subset_insert _ C)
    entries := by
      refine List.forall_mem_append.2 ⟨fun j hj => ?_, List.forall_mem_singleton.2 ⟨?_, hpremise⟩⟩
      · exact (h.entries_addVars hvs j hj).imp_left fun hplain => hplain.mono (Set.subset_insert _ C)
      · rw [hbound]
        exact plain_drawn C k
    env_settled := by
      refine (h.env_settled.mono hn).extend (Term.settled_judgment.2 ⟨?_, ?_⟩)
      · exact hset.subst_value h₃.acyclic (Term.settled_var.2 (hnames x (by simp)))
      · exact hset.subst_value h₃.acyclic (Term.settled_var.2 (hnames a (by simp)))
    goals := by
      refine List.forall_mem_singleton.2 ⟨?_, Term.avoids_var.2 (hab b (by simp)), body, .inr (by simp), rfl, ?_⟩
      · rw [Term.settled_judgment, Term.settled_var, Term.settled_var]
        exact ⟨hnames body (by simp), hnames b (by simp)⟩
      · rw [Subst.get?_bind, if_neg hxb, hget body (.inr (by simp))]
        exact h.get?_bind_of_drawn hv (hvs body (by simp)) _
    apart := List.nodup_singleton _ }

/-- The proof of the query is the abstraction of the proof of the body, over the symbol drawn last. -/
theorem Proved.scoped_abstraction {statement : Term} (hq : q.proof = .var v) (hvx : v ≠ x)
    (hbody : s₂.get? v = some (.abstraction (.var x) (.var body)))
    (hr : Proved o js d env [⟨.var body, statement⟩] (s₂.bind x (.sym (.drawn k))) m r)
    (hn : n ≤ k) (hm : k + 1 ≤ m)
    (hgoal : Term.Scoped (insert (.drawn k) C) (k + 1) m [(Term.var body).subst r.value]) :
    Term.Scoped C n m [q.proof.subst r.value] := by
  have hx : r.value x = .sym (.drawn k) :=
    hr.acyclic.value_of_get? (hr.keeps x _ (Subst.get?_bind_self s₂ x _))
  have hv : r.value v = .abstraction (.sym (.drawn k)) ((Term.var body).subst r.value) := by
    have hget : (s₂.bind x (.sym (.drawn k))).get? v = some (.abstraction (.var x) (.var body)) := by
      rw [Subst.get?_bind, if_neg hvx, hbody]
    rw [hr.acyclic.value_of_get? (hr.keeps v _ hget), Term.subst_abstraction, Term.subst_var, hx]
  rw [hq, Term.subst_var, hv]
  exact hgoal.abstraction hn (Nat.lt_succ_self k) hm

end

theorem always_introduce_confined {prove : Environment → Term → Subst → Search Note Subst}
    (hc : ∀ env, Confines o js d env F (prove env)) (h : Ready js C K env [q] s n) (traced : Bool)
    (level : Datum) :
    (introduce prove traced level env q.term s).Always js F
      (fun m r => ∃ K', Confined C K n [q] s K' m r) n := by
  obtain ⟨v, hv, hq, hopen⟩ := h.proof_eq
  have hnames := settled_drawn_abstraction (Nat.le_refl (n + 4))
  have hvs := new_abstraction n
  have hab : ∀ w ∈ [Var.drawn "a" (n + 2), Var.drawn "b" (n + 3)],
      w ∉ addVars K [Var.drawn "x" n, Var.drawn "body" (n + 1)] := fun w hw hmem =>
    new_premise n w hw (h.names_addVars (by omega) (fun w hw => (hvs w hw).2) w hmem)
  have hxb : Var.drawn "body" (n + 1) ≠ Var.drawn "x" n := fun he =>
    Var.not_settled_drawn "body" (Nat.le_refl (n + 1)) (he ▸ Var.settled_drawn "x" (Nat.lt_succ_self n))
  refine .ofUnify (n := n + 4) (Subst.unify_ne_endless h.acyclic _ _) fun s₁ hs₁ => ?_
  have h₁ := Subst.unified_of_unify h.acyclic hs₁
  rw [hq] at hs₁
  obtain rfl := Subst.eq_bind_of_unify hopen (fun _ => Term.noConfusion) hs₁
  refine always_unify h₁.acyclic fun s₂ h₂ => ?_
  obtain ⟨_, hget⟩ := h.get?_abstraction hv (fun w hw => (hvs w hw).1) hab h₂
  have hx : s₂.get? (Var.drawn "x" n) = none := by
    rw [hget _ (.inr (by simp))]
    exact h.get?_bind_of_drawn hv (hvs _ (by simp)).1 _
  have hset := settled_abstraction_parts (h.settled.mono (Nat.le_add_right n 4))
    (h.query_settled.mono (Nat.le_add_right n 4)) hnames h₁ h₂
  -- the bound variable stands for nothing yet, so a symbol is drawn for it
  rw [nameBound, Subst.walk?_var hx]
  refine .ofUnify (n := n + 5) (Subst.unify_ne_endless h₂.acyclic _ _) fun s₃ hs₃ => ?_
  rw [Term.drawnAtom_x] at hs₃
  have h₃ := Subst.unified_of_unify h₂.acyclic hs₃
  obtain rfl := Subst.eq_bind_of_unify hx (fun _ => Term.noConfusion) hs₃
  have hset₃ := h₃.settled (hset.mono (Nat.le_succ _)) (List.forall_mem_singleton.2
    ⟨Term.settled_var.2 (Var.settled_drawn "x" (show n < n + 5 by omega)), Term.settled_sym _⟩)
  rw [event_eq h₃.acyclic, always_noteIf, h₃.acyclic.instantiate?_eq, h₃.acyclic.instantiate?_eq]
  have hready := h.abstraction hv (fun w hw => (hvs w hw).1) hxb hab
    (fun w hw => (hnames w hw).mono (Nat.le_succ _)) (by omega) h₂ h₃ hset₃
  refine (hc _ _ _ _ _ _ hready).mono fun m r hm hr => ?_
  obtain ⟨hr, K', hK'⟩ := hr
  refine ⟨K', .of_subgoals h hq (fun w hw => (hvs w hw).1) (by omega) hK' ?_ ?_ ?_⟩
  · intro u hu hnone huv
    have hux : u ≠ Var.drawn "x" n := fun he => (hvs _ (by simp)).1 (he ▸ h.names u hu)
    rw [Subst.get?_bind, if_neg hux, hget u (.inl hu), Subst.get?_bind, if_neg huv]
    exact hnone
  · simp
  · have hvx : v ≠ Var.drawn "x" n := fun he => (hvs _ (by simp)).1 (he ▸ h.names v hv)
    have hbody := hget v (.inl hv)
    rw [Subst.get?_bind_self] at hbody
    exact Proved.scoped_abstraction hq hvx hbody hr (Nat.le_add_right n 4) hm hK'.closed

/-! ### The search -/

theorem confines_solve (o : SearchOptions) (hF : o.arities.broken = true → F .mismatch) (d : Nat)
    (env : Environment) : Confines o js d env F (solve o d env) := by
  induction d generalizing env with
  | zero =>
    intro C K q s n h
    have hproved : (solve o 0 env q.term s).Always js F (Proved o js 0 env [q] s) n :=
      always_solve hF 0 env q h.acyclic n
    exact hproved.and (always_base_confined h o.traced _ (Nat.le_refl n))
  | succ d ih =>
    intro C K q s n h
    have hp : ∀ env, Proves o js d env F (solve o d env) := fun env g s n hs =>
      always_solve hF d env g hs n
    have hproved : (solve o (d + 1) env q.term s).Always js F (Proved o js (d + 1) env [q] s) n :=
      always_solve hF (d + 1) env q h.acyclic n
    refine hproved.and ?_
    show Always js F _ (append (base o.traced _ env q.term s) _) n
    refine (always_base_confined h o.traced _ (Nat.le_refl n)).append fun m hm => ?_
    refine Always.append (.ofList_bind fun k _ i hi => ?_) fun i hi => ?_
    · have hexpand := always_expand_confined (hp env) (ih env) (h.mono (hm.trans hi)) o.traced (.int (d + 1)) k
      exact hexpand.mono fun _ _ _ hr => hr.imp fun _ hK => hK.of_later (hm.trans hi)
    · split
      · next hb => exact hF hb
      · split
        · have hintro := always_introduce_confined ih (h.mono (hm.trans hi)) o.traced (.int (d + 1))
          exact hintro.mono fun _ _ _ hr => hr.imp fun _ hK => hK.of_later (hm.trans hi)
        · trivial

/-- What a query with an open proof brings with it. -/
theorem ready_start {v : Var} {statement : Term} (hjs : ∀ j ∈ js, Plain C j.proof)
    (hentries : ∀ j ∈ env.entries, Plain C j.proof ∧ v ∉ j.statement.vars) (hv : v ∉ statement.vars)
    (hq : (Judgment.mk (.var v) statement).term.Settled n) (henv : env.Settled n) :
    Ready js C {v} env [⟨.var v, statement⟩] .empty n where
  acyclic := Subst.acyclic_empty
  settled := Subst.settled_empty n
  sorted := Subst.sorted_empty _
  names := by
    rintro w rfl
    exact Term.settled_var.1 (Term.settled_judgment.1 hq).1
  stored := hjs
  entries := by
    intro j hj
    refine ⟨(hentries j hj).1, ?_⟩
    rintro w hw rfl
    exact (hentries j hj).2 hw
  env_settled := henv
  goals := by
    refine List.forall_mem_singleton.2 ⟨hq, ?_, v, rfl, rfl, rfl⟩
    rintro w hw rfl
    exact hv hw
  apart := List.nodup_singleton _

/-- A query that leaves its proof open gets closed proofs only, when nothing known has abstractions in its
proof. What is free in such a proof stands in the proof of something known; the abstractions of one proof
bind symbols drawn for them, each another one; and such a symbol stands in the body of its abstraction and
nowhere else. -/
theorem read_results_closed (o : SearchOptions) (d : Nat) (env : Environment) (v : Var) (statement : Term)
    (w : World) (hplain : ∀ j ∈ w.judgments ++ env.entries, j.proof.vars = [] ∧ .lambda ∉ j.proof.syms)
    (hsyms : ∀ j ∈ w.judgments ++ env.entries, ∀ c ∈ j.proof.syms, c.Settled w.drawn)
    (hv : v ∉ statement.vars) (hventries : ∀ j ∈ env.entries, v ∉ j.statement.vars)
    (hq : (Judgment.mk (.var v) statement).term.Settled w.drawn) (henv : env.Settled w.drawn)
    (limit : Option Nat) :
    ∀ t ∈ ((results o d env (Judgment.mk (.var v) statement).term).read limit w).results,
      ∃ j : Judgment, t = j.term ∧ j.proof.vars = [] ∧
        (∀ c ∈ j.proof.freeSyms, ∃ i ∈ w.judgments ++ env.entries, c ∈ i.proof.syms) ∧
        j.proof.binders.Nodup ∧ (∀ b ∈ j.proof.binders, ∃ k, w.drawn ≤ k ∧ b = .sym (.drawn k)) ∧
        ∀ k, w.drawn ≤ k → .drawn k ∉ j.proof.freeSyms ∧
          ∀ body, j.proof.contains (.abstraction (.sym (.drawn k)) body) = true →
            j.proof.syms.count (.drawn k) = body.syms.count (.drawn k) + 1 := by
  let scope : Set Sym := {c | ∃ i ∈ w.judgments ++ env.entries, c ∈ i.proof.syms}
  have hknown : ∀ j ∈ w.judgments ++ env.entries, Plain scope j.proof := fun j hj =>
    ⟨(hplain j hj).1, (hplain j hj).2, fun c hc => ⟨j, hj, hc⟩⟩
  have hready : Ready w.judgments scope {v} env [⟨.var v, statement⟩] .empty w.drawn :=
    ready_start (fun j hj => hknown j (List.mem_append_left _ hj))
      (fun j hj => ⟨hknown j (List.mem_append_right _ hj), hventries j hj⟩) hv hq henv
  have hsolve := confines_solve o (F := fun _ => True) (fun _ => trivial) d env scope {v} _ _ _ hready
  have hall : (results o d env (Judgment.mk (.var v) statement).term).Always w.judgments (fun _ => True)
      (fun m t => ∃ j : Judgment, t = j.term ∧ Term.Scoped scope w.drawn m [j.proof]) w.drawn := by
    refine Always.bind (hsolve.mono fun m r _ hr => ?_)
    obtain ⟨hr, K', hK'⟩ := hr
    rw [hr.acyclic.instantiate?_eq]
    exact .one ⟨Judgment.subst r.value ⟨.var v, statement⟩, rfl, hK'.closed⟩
  intro t ht
  obtain ⟨m, j, rfl, hclosed⟩ := hall.of_mem_read ht
  have hfree := hclosed.free j.proof (List.mem_singleton_self _)
  have hnodup := hclosed.nodup
  have hdrawn := hclosed.drawn
  rw [List.flatMap_singleton] at hnodup hdrawn
  refine ⟨j, rfl, hclosed.vars j.proof (List.mem_singleton_self _), hfree, hnodup, fun b hb => ?_, fun k hk => ?_⟩
  · obtain ⟨k, hk, _, rfl⟩ := hdrawn b hb
    exact ⟨k, hk, rfl⟩
  · have hnotfree : .drawn k ∉ j.proof.freeSyms := by
      intro hmem
      obtain ⟨i, hi, hc⟩ := hfree _ hmem
      exact hsyms i hi _ hc k hk rfl
    have hbinds : j.proof.BindsSyms := fun b hb => (hdrawn b hb).elim fun k h => ⟨_, h.2.2⟩
    exact ⟨hnotfree, fun body hin =>
      Term.count_syms_eq hbinds hnodup (Sym.drawn_ne_lambda k) hnotfree hin⟩

/-- `(-> A (-> B $c))`. -/
def curried : Term := .arrow [.ofText "A"] (.arrow [.ofText "B"] (.ofText "$c"))

/-- The function that is constantly a constant function: both of its symbols are drawn, and the outer one
stands below the inner one. -/
theorem read_results_closed_constant :
    let known : List Judgment := [listing, ⟨.ofText "a", .ofText "A"⟩]
    let reading := (results { lambdaIntro := true } 2 ⟨[⟨.ofText "a", .ofText "A"⟩]⟩
      (Judgment.mk (.var ⟨"$p", rfl⟩) curried).term).read none ⟨[listing], 0⟩
    let constant := Term.abstraction (.ofText "x30") (.abstraction (.ofText "x40") (.ofText "x30"))
    (∀ j ∈ known, j.proof.vars = [] ∧ .lambda ∉ j.proof.syms) ∧
      (∀ j ∈ known, ∀ c ∈ j.proof.syms, c.Settled 0) ∧
      ∃ t ∈ reading.results, ∃ j : Judgment, t = j.term ∧ j.proof = constant ∧ j.proof.binders.Nodup ∧
        (∀ c ∈ j.proof.freeSyms, ∃ i ∈ known, c ∈ i.proof.syms) ∧
        ∀ k, 0 ≤ k → .drawn k ∉ j.proof.freeSyms := by
  intro known reading constant
  have hplain : ∀ j ∈ known, j.proof.vars = [] ∧ .lambda ∉ j.proof.syms := by decide
  have hheads : ∀ j ∈ known, ∀ c ∈ j.proof.syms, c.text.toList.head? ≠ some 'x' := by decide
  have hsyms : ∀ j ∈ known, ∀ c ∈ j.proof.syms, c.Settled 0 := fun j hj c hc =>
    Sym.settled_of_head_ne (hheads j hj c hc) 0
  have hq : (Judgment.mk (.var ⟨"$p", rfl⟩) curried).term.Settled 0 :=
    Term.settled_of_underscore_notMem (by decide) 0
  have henv : Environment.Settled 0 ⟨[⟨.ofText "a", .ofText "A"⟩]⟩ :=
    List.forall_mem_singleton.2 (Term.settled_of_underscore_notMem (by decide) 0)
  have found : ∃ t ∈ reading.results, ∃ j ∈ Judgment.ofTerm? t, j.proof = constant := by decide +kernel
  obtain ⟨t, ht, j, hj, hproof⟩ := found
  obtain rfl := Judgment.ofTerm?_eq_some_iff.1 hj
  have hclosed := read_results_closed { lambdaIntro := true } 2 ⟨[⟨.ofText "a", .ofText "A"⟩]⟩
    ⟨"$p", rfl⟩ curried ⟨[listing], 0⟩ hplain hsyms (by decide) (by decide) hq henv none j.term ht
  obtain ⟨i, hi, _, hfree, hnodup, _, hdrawn⟩ := hclosed
  obtain rfl := Judgment.term_injective hi
  exact ⟨hplain, hsyms, _, ht, _, rfl, hproof, hnodup, hfree, fun k hk => (hdrawn k hk).1⟩

end ProofSearch.Backward
