import ProofSearch.Forward
import ProofSearch.Proofs.Backward.Soundness

/-!
# Soundness of the forward search

What a forward search makes of a judgment is derivable if the judgment is. A step applies one rule or two:
to the judgment, and to what is proved backward one level down. So from a judgment derived within `k` it
makes one derived within `k + 2`, or one above the level it proves at (`always_step`), and `d` steps stay
within `k + 2 * d` or `3 * d` above what is stored (`always_chain_made`). Derivations may be from other
judgments than those stored, and from hypotheses that no step binds (`Reduces`): where the environment is
open each step binds it anew.
-/

namespace ProofSearch
variable {o : SearchOptions} {js is : List Judgment} {F : Fault → Prop} {d e k m n : Nat}
variable {env hyps : Environment} {j a b : Judgment} {s r : Subst} {f : Var → Term}

theorem Subst.Acyclic.judgment?_eq (hs : s.Acyclic) (j : Judgment) :
    s.judgment? j = some (j.subst s.value) := by
  rw [judgment?, hs.instantiate?_eq, hs.instantiate?_eq]
  rfl

namespace Derivable

theorem apply {head statement : Term} {a : Judgment} (hone : 1 ∈ o.arities.counts)
    (hhead : Derivable o js n env ⟨head, .arrow [a.statement] statement⟩) (ha : Derivable o js n env a) :
    Derivable o js (n + 1) env ⟨.tuple [head, a.proof], statement⟩ :=
  @application o js n env head statement [a] hone hhead (List.forall_mem_singleton.2 ha)

theorem subst_of_ground (h : Derivable o js n env j) (henv : env.Ground) (f : Var → Term) :
    Derivable o js n env (j.subst f) := by
  have hf := h.subst f
  rwa [henv.subst_eq] at hf

end Derivable

/-- What follows from the judgments stored, with the environment under any bindings, follows from `is` and
`hyps` within a height that is `e` greater. -/
def Reduces (o : SearchOptions) (js : List Judgment) (env : Environment) (is : List Judgment)
    (hyps : Environment) (e : Nat) : Prop :=
  ∀ (n : Nat) (f : Var → Term) (a : Judgment), Derivable o js n (env.subst f) a →
    Derivable o is (e + n) hyps a

namespace Reduces

theorem of_ground (henv : env.Ground) : Reduces o js env js env 0 := by
  intro n f a h
  rw [henv.subst_eq] at h
  exact h.mono (Nat.le_add_left n 0)

theorem of_derivable (hjs : ∀ i ∈ js, Derivable o is e {} i) (henv : ∀ i ∈ env.entries, i ∈ is) :
    Reduces o js env is {} e := fun _ _ _ h => h.cut_subst hjs henv

end Reduces

namespace Forward
open Search Backward

/-- What has been made of `j` is derivable within the height, and settled from the counter on where `j` and
the environment of the search are. -/
structure Made (o : SearchOptions) (is : List Judgment) (hyps env : Environment) (k : Nat) (j : Judgment)
    (n : Nat) (a : Judgment) : Prop where
  derivable : Derivable o is k hyps a
  settled : ∀ i, n ≤ i → env.Settled i → j.term.Settled i → a.term.Settled i

theorem Made.self (h : Derivable o is k hyps j) (n : Nat) : Made o is hyps env k j n j :=
  ⟨h, fun _ _ _ hj => hj⟩

theorem Made.trans (h : Made o is hyps env k j m a) (h' : Made o is hyps env e a n b) (hm : m ≤ n) :
    Made o is hyps env e j n b :=
  ⟨h'.derivable, fun i hi henv hj => h'.settled i hi henv (h.settled i (hm.trans hi) henv hj)⟩

/-! ### One step -/

section
variable {prove : Term → Subst → Search Note Subst} (hp : Proves o js d env F prove)
variable (hred : Reduces o js env is hyps e) (hhyps : hyps.Ground) (hone : 1 ∈ o.arities.counts)
include hp hred

/-- What is concluded when the goal is proved is derivable if it follows from the goal, whatever is
bound. -/
theorem always_conclude {goal derived : Judgment} (hs : s.Acyclic)
    (hset : ∀ i, n ≤ i → env.Settled i → j.term.Settled i → s.Settled i)
    (hgoal : ∀ i, n ≤ i → env.Settled i → j.term.Settled i → goal.term.Settled i)
    (hderived : ∀ i, n ≤ i → env.Settled i → j.term.Settled i → derived.term.Settled i)
    (h : ∀ r : Subst, r.Extends s → r.Acyclic → Derivable o is (e + d) hyps (goal.subst r.value) →
      Derivable o is k hyps (derived.subst r.value)) :
    (conclude prove goal derived s).Always js F (Made o is hyps env k j) n := by
  refine Always.bind ((hp goal s n hs).mono fun m r hm hr => ?_)
  rw [hr.acyclic.judgment?_eq]
  have hproved := hred d r.value _ (hr.derivable goal (List.mem_singleton_self goal))
  refine .one ⟨h r hr.keeps hr.acyclic hproved, fun i hi henv hj => ?_⟩
  have hni := hm.trans hi
  have hrset := hr.settled i hi (hset i hni henv hj) henv
    (List.forall_mem_singleton.2 (hgoal i hni henv hj))
  exact hrset.subst_value hr.acyclic (hderived i hni henv hj)

include hhyps hone

theorem always_asArgument (hj : Derivable o is k hyps j) (hd : e + d ≤ k + 1) :
    (asArgument prove j).Always js F (Made o is hyps env (k + 2) j) n := by
  have hnames : ∀ i, n + 2 ≤ i → (Var.drawn "abs" n).Settled i ∧ (Var.drawn "ccln" (n + 1)).Settled i :=
    fun i hi => ⟨Var.settled_drawn "abs" (by omega), Var.settled_drawn "ccln" (by omega)⟩
  refine always_conclude (n := n + 2) hp hred Subst.acyclic_empty ?_ ?_ ?_ ?_
  · exact fun i _ _ _ => Subst.settled_empty i
  · intro i hi _ hj
    obtain ⟨hproof, hstatement⟩ := Term.settled_judgment.1 hj
    simp [Term.settled_judgment, Term.settled_arrow, hnames i hi, hstatement]
  · intro i hi _ hj
    obtain ⟨hproof, hstatement⟩ := Term.settled_judgment.1 hj
    simp [Term.settled_judgment, hnames i hi, hproof]
  · intro r _ _ hrule
    have harg := (hj.subst_of_ground hhyps r.value).mono (Nat.le_succ k)
    rw [Judgment.subst, Term.subst_arrow] at hrule
    simpa [Judgment.subst] using Derivable.apply hone (hrule.mono hd) harg

theorem always_asRule (hj : Derivable o is k hyps j) (hd : e + d ≤ k + 1) :
    (asRule prove j).Always js F (Made o is hyps env (k + 2) j) n := by
  have hnames : ∀ i, n + 3 ≤ i → (Var.drawn "prms" n).Settled i ∧ (Var.drawn "ccln" (n + 1)).Settled i ∧
      (Var.drawn "arg" (n + 2)).Settled i := fun i hi =>
    ⟨Var.settled_drawn "prms" (by omega), Var.settled_drawn "ccln" (by omega), Var.settled_drawn "arg" (by omega)⟩
  refine always_unify (n := n + 2) Subst.acyclic_empty fun s hs => ?_
  refine always_conclude (n := n + 3) hp hred hs.acyclic ?_ ?_ ?_ ?_
  · intro i hi _ hj
    obtain ⟨hproof, hstatement⟩ := Term.settled_judgment.1 hj
    refine hs.settled (Subst.settled_empty i) ?_
    simp [Term.settled_arrow, hstatement, hnames i hi]
  · intro i hi _ _
    simp [Term.settled_judgment, hnames i hi]
  · intro i hi _ hj
    obtain ⟨hproof, hstatement⟩ := Term.settled_judgment.1 hj
    simp [Term.settled_judgment, hproof, hnames i hi]
  · intro r hr hacyclic hgoal
    have hrule := (hj.subst_of_ground hhyps r.value).mono (Nat.le_succ k)
    -- under all that is bound, the statement is the arrow it was made equal to
    rw [Judgment.subst, hs.subst_eq (hacyclic.solvedBy_value.of_extends hr), Term.subst_arrow] at hrule
    simpa [Judgment.subst] using Derivable.apply hone hrule (hgoal.mono hd)

theorem always_asFirstPremise (hj : Derivable o is k hyps j) (he : e ≤ k) (hd : e + d ≤ k + 1) :
    (asFirstPremise prove j).Always js F (Made o is hyps env (k + 2) j) n := by
  have hnames : ∀ i, n + 3 ≤ i → (Var.drawn "ctor" n).Settled i ∧ (Var.drawn "prms" (n + 1)).Settled i ∧
      (Var.drawn "ccln" (n + 2)).Settled i := fun i hi =>
    ⟨Var.settled_drawn "ctor" (by omega), Var.settled_drawn "prms" (by omega), Var.settled_drawn "ccln" (by omega)⟩
  let rule : Judgment := ⟨.var (Var.drawn "ctor" n),
    .arrow [j.statement] (.arrow [.var (Var.drawn "prms" (n + 1))] (.var (Var.drawn "ccln" (n + 2))))⟩
  have hstored : (stored rule.term .empty : Search Note Subst).Always js F
      (Proved o js 0 env [rule] .empty) (n + 3) := always_matchApart Subst.acyclic_empty fun _ h => h
  refine Always.bind (n := n + 3) (hstored.mono fun m s hm hs => ?_)
  have harg : ∀ i, m + 1 ≤ i → (Var.drawn "arg" m).Settled i := fun i hi => Var.settled_drawn "arg" hi
  refine always_conclude (n := m + 1) hp hred hs.acyclic ?_ ?_ ?_ ?_
  · intro i hi henv hj
    obtain ⟨hproof, hstatement⟩ := Term.settled_judgment.1 hj
    refine hs.settled i (by omega) (Subst.settled_empty i) henv (List.forall_mem_singleton.2 ?_)
    simp [rule, Term.settled_judgment, Term.settled_arrow, hstatement, hnames i (by omega)]
  · intro i hi _ _
    simp [Term.settled_judgment, harg i hi, hnames i (by omega)]
  · intro i hi _ hj
    obtain ⟨hproof, hstatement⟩ := Term.settled_judgment.1 hj
    simp [Term.settled_judgment, harg i hi, hproof, hnames i (by omega)]
  · intro r hr hacyclic hgoal
    have hderived := (hs.derivable rule (List.mem_singleton_self rule)).of_extends hs.acyclic hacyclic hr
    have hrule : Derivable o is k hyps (rule.subst r.value) := (hred 0 r.value _ hderived).mono he
    rw [Judgment.subst, Term.subst_arrow] at hrule
    -- the rule takes the judgment first, and is then a rule for what the goal proves
    have hfirst := Derivable.apply hone hrule (hj.subst_of_ground hhyps r.value)
    rw [Term.subst_arrow] at hfirst
    simpa [rule, Judgment.subst] using Derivable.apply hone hfirst (hgoal.mono hd)

theorem always_step (hj : Derivable o is k hyps j) (he : e ≤ k) (hd : e + d ≤ k + 1) :
    (step prove j).Always js F (Made o is hyps env (k + 2) j) n :=
  (always_asArgument hp hred hhyps hone hj hd).append fun _ _ =>
    (always_asRule hp hred hhyps hone hj hd).append fun _ _ =>
      always_asFirstPremise hp hred hhyps hone hj he hd

end

/-! ### The run -/

/-- A judgment derived within `k` is at most `2 * d` higher after `d` steps, unless what is proved for
the first of them is higher than it is. -/
theorem always_chain_made (hF : o.arities.broken = true → F .mismatch)
    (hred : Reduces o js env is hyps e) (hhyps : hyps.Ground) (hone : 1 ∈ o.arities.counts) {bound : Nat}
    (d : Nat) (hj : Derivable o is k hyps j) (hk : k + 2 * d ≤ bound) (hd : e + 3 * d ≤ bound) :
    (chain o env d j).Always js F (Made o is hyps env bound j) n := by
  induction d generalizing j k n with
  | zero => exact .one (.self (hj.mono (by omega)) n)
  | succ d ih =>
    refine ⟨.self (hj.mono (by omega)) n, fun m _ => (always_noteIf _ _ _).2 ?_⟩
    have hsolve : Proves o js d env F (solve o d env) := fun g s i hs => always_solve hF d env g hs i
    have hmax : Derivable o is (max k (max e (e + d - 1))) hyps j := hj.mono (Nat.le_max_left _ _)
    have hstep := always_step (n := m) hsolve hred hhyps hone hmax (by omega) (by omega)
    refine Always.bind (hstep.mono fun i a _ ha => ?_)
    exact (ih ha.derivable (by omega) (by omega)).mono fun i' b hi hb => ha.trans hb hi

/-- What a run makes is derivable from the judgments stored, the entries of the environment and the judgment
it starts from. -/
theorem always_chain_of_all (hF : o.arities.broken = true → F .mismatch) (hone : 1 ∈ o.arities.counts)
    (env : Environment) (d : Nat) (j : Judgment) (n : Nat) :
    (chain o env d j).Always js F (Made o (js ++ env.entries ++ [j]) {} env (3 * d) j) n := by
  have hred : Reduces o js env (js ++ env.entries ++ [j]) {} 0 := .of_derivable
    (fun i hi => .of_mem (List.mem_append_left _ (List.mem_append_left _ hi)))
    fun i hi => List.mem_append_left _ (List.mem_append_right _ hi)
  have hj : Derivable o (js ++ env.entries ++ [j]) 0 {} j :=
    .of_mem (List.mem_append_right _ (List.mem_singleton_self j))
  exact always_chain_made hF hred (fun _ h => absurd h List.not_mem_nil) hone d hj (by omega) (by omega)

end Forward
end ProofSearch
