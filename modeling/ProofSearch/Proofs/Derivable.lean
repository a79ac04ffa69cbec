import ProofSearch.Backward
import ProofSearch.Proofs.Subst.Acyclic

/-!
# Derivations

What follows from stored judgments and hypotheses by the rules a backward search tries, within a height.
A stored judgment holds in every instance, a hypothesis as it stands. Derivations are closed under
substitution (`Derivable.subst`), hypotheses included; so what was derived under some bindings stays
derived under all that are made later (`Derivable.of_extends`). A judgment that was derived may be stored
in turn: what follows with its help follows without it, and the heights add up (`Derivable.cut`).
-/

namespace ProofSearch
variable {f g : Var → Term} {r s : Subst} {n : Nat} {env : Environment} {j : Judgment}

theorem Term.subst_arrow (f : Var → Term) (premises : List Term) (conclusion : Term) :
    (arrow premises conclusion).subst f = arrow (premises.map (subst f)) (conclusion.subst f) := by
  simp [arrow]

theorem Term.subst_abstraction (f : Var → Term) (x body : Term) :
    (abstraction x body).subst f = abstraction (x.subst f) (body.subst f) := by
  simp [abstraction]

namespace Judgment

theorem subst_subst (f g : Var → Term) (j : Judgment) :
    (j.subst f).subst g = j.subst fun v => (f v).subst g := by
  simp only [subst, Term.subst_subst]

@[simp] theorem subst_var (j : Judgment) : j.subst .var = j := by simp [subst]

theorem subst_eq_self (h : j.term.vars = []) (f : Var → Term) : j.subst f = j :=
  term_injective (Term.subst_eq_self h f)

theorem map_proof_subst (f : Var → Term) (gs : List Judgment) :
    (gs.map (subst f)).map proof = (gs.map proof).map (Term.subst f) := by simp [subst]

theorem map_statement_subst (f : Var → Term) (gs : List Judgment) :
    (gs.map (subst f)).map statement = (gs.map statement).map (Term.subst f) := by simp [subst]

end Judgment

namespace Environment

def subst (f : Var → Term) (env : Environment) : Environment := ⟨env.entries.map (Judgment.subst f)⟩

theorem subst_subst (f g : Var → Term) (env : Environment) :
    (env.subst f).subst g = env.subst fun v => (f v).subst g := by
  simp only [subst, List.map_map]
  exact congrArg mk (List.map_congr_left fun j _ => Judgment.subst_subst f g j)

@[simp] theorem subst_var (env : Environment) : env.subst .var = env := by
  have entries : env.entries.map (Judgment.subst .var) = env.entries :=
    (List.map_congr_left fun j _ => Judgment.subst_var j).trans (List.map_id _)
  rw [subst, entries]

theorem subst_extend (f : Var → Term) (env : Environment) (j : Judgment) :
    (env.extend j).subst f = (env.subst f).extend (j.subst f) := by
  simp [subst, extend]

/-- No entry has a variable. -/
def Ground (env : Environment) : Prop := ∀ j ∈ env.entries, j.term.vars = []

theorem Ground.subst_eq (h : env.Ground) (f : Var → Term) : env.subst f = env := by
  have entry : ∀ j ∈ env.entries, j.subst f = j := fun j hj => Judgment.subst_eq_self (h j hj) f
  exact congrArg mk ((List.map_congr_left entry).trans (List.map_id _))

end Environment

/-- The judgment follows from the judgments stored and the hypotheses, with at most `n` applications and
abstractions one above the other. -/
inductive Derivable (o : SearchOptions) (js : List Judgment) : Nat → Environment → Judgment → Prop
  | stored {n : Nat} {env : Environment} {j : Judgment} (f : Var → Term) (hj : j ∈ js) :
      Derivable o js n env (j.subst f)
  | assumed {n : Nat} {env : Environment} {j : Judgment} (hj : j ∈ env.entries) : Derivable o js n env j
  | application {n : Nat} {env : Environment} {head statement : Term} {goals : List Judgment}
      (hn : goals.length ∈ o.arities.counts)
      (hhead : Derivable o js n env ⟨head, .arrow (goals.map Judgment.statement) statement⟩)
      (hgoals : ∀ g ∈ goals, Derivable o js n env g) :
      Derivable o js (n + 1) env ⟨.tuple (head :: goals.map Judgment.proof), statement⟩
  | abstraction {n : Nat} {env : Environment} {x body a b : Term} (ho : o.lambdaIntro = true)
      (hbody : Derivable o js n (env.extend ⟨x, a⟩) ⟨body, b⟩) :
      Derivable o js (n + 1) env ⟨.abstraction x body, .arrow [a] b⟩

/-- The judgment is an instance of a stored one or a hypothesis. -/
def Known (js : List Judgment) (env : Environment) (j : Judgment) : Prop :=
  (∃ i ∈ js, ∃ f, j = i.subst f) ∨ j ∈ env.entries

namespace Derivable
variable {o : SearchOptions} {js : List Judgment}

theorem of_mem (hj : j ∈ js) : Derivable o js n env j := by
  have h : Derivable o js n env (j.subst .var) := stored .var hj
  rwa [Judgment.subst_var] at h

theorem known (d : Derivable o js 0 env j) : Known js env j := by
  cases d with
  | stored f hj => exact .inl ⟨_, hj, f, rfl⟩
  | assumed hj => exact .inr hj

/-- Within a height above zero a judgment is known, or an application, or an abstraction. -/
theorem known_or_built (d : Derivable o js (n + 1) env j) :
    Known js env j ∨
    (∃ (head : Term) (gs : List Judgment),
      j.proof = .tuple (head :: gs.map Judgment.proof) ∧ gs.length ∈ o.arities.counts ∧
      Derivable o js n env ⟨head, .arrow (gs.map Judgment.statement) j.statement⟩ ∧
      ∀ g ∈ gs, Derivable o js n env g) ∨
    o.lambdaIntro = true ∧ ∃ x body a b : Term, j = ⟨.abstraction x body, .arrow [a] b⟩ ∧
      Derivable o js n (env.extend ⟨x, a⟩) ⟨body, b⟩ := by
  cases d with
  | stored f hj => exact .inl (.inl ⟨_, hj, f, rfl⟩)
  | assumed hj => exact .inl (.inr hj)
  | application hn hhead hgoals => exact .inr (.inl ⟨_, _, rfl, hn, hhead, hgoals⟩)
  | abstraction ho hbody => exact .inr (.inr ⟨ho, _, _, _, _, rfl, hbody⟩)

theorem subst (g : Var → Term) (d : Derivable o js n env j) :
    Derivable o js n (env.subst g) (j.subst g) := by
  induction d with
  | @stored n env j f hj => rw [Judgment.subst_subst]; exact stored _ hj
  | assumed hj => exact assumed (List.mem_map_of_mem hj)
  | @application n env head statement goals hn _ _ ihhead ihgoals =>
    have happ : Derivable o js (n + 1) (env.subst g) ⟨.tuple (head.subst g ::
        (goals.map (Judgment.subst g)).map Judgment.proof), statement.subst g⟩ := by
      refine application (by rwa [List.length_map]) ?_ fun i hi => ?_
      · rw [Judgment.map_statement_subst, ← Term.subst_arrow]; exact ihhead
      · obtain ⟨g', hg', rfl⟩ := List.mem_map.1 hi
        exact ihgoals g' hg'
    rw [Judgment.map_proof_subst, ← List.map_cons, ← Term.subst_tuple] at happ
    exact happ
  | @abstraction n env x body a b ho _ ih =>
    rw [Environment.subst_extend] at ih
    have habs := abstraction ho ih
    rw [← Term.subst_abstraction] at habs
    rw [Judgment.subst, Term.subst_arrow]
    exact habs

/-- Bindings made later keep what was derived before. -/
theorem of_extends (hs : s.Acyclic) (hr : r.Acyclic) (h : r.Extends s)
    (d : Derivable o js n (env.subst s.value) (j.subst s.value)) :
    Derivable o js n (env.subst r.value) (j.subst r.value) := by
  have hsol : s.SolvedBy r.value := fun v t hv => hr.solvedBy_value v t (h v t hv)
  have hvalue : (fun v => (s.value v).subst r.value) = r.value := funext fun v => hsol.value_subst hs v
  have := d.subst r.value
  rwa [Environment.subst_subst, Judgment.subst_subst, hvalue] at this

/-! ### Stored judgments that were derived -/

theorem mono {m : Nat} (d : Derivable o js n env j) (hm : n ≤ m) : Derivable o js m env j := by
  induction d generalizing m with
  | stored f hj => exact stored f hj
  | assumed hj => exact assumed hj
  | application hn _ _ ihhead ihgoals =>
    obtain ⟨m, rfl⟩ := Nat.exists_eq_add_one.2 (Nat.lt_of_lt_of_le (Nat.succ_pos _) hm)
    have hm := Nat.le_of_succ_le_succ hm
    exact application hn (ihhead hm) fun g hg => ihgoals g hg hm
  | abstraction ho _ ih =>
    obtain ⟨m, rfl⟩ := Nat.exists_eq_add_one.2 (Nat.lt_of_lt_of_le (Nat.succ_pos _) hm)
    exact abstraction ho (ih (Nat.le_of_succ_le_succ hm))

theorem weaken {env' : Environment} (d : Derivable o js n env j)
    (h : ∀ i ∈ env.entries, i ∈ env'.entries) : Derivable o js n env' j := by
  induction d generalizing env' with
  | stored f hj => exact stored f hj
  | assumed hj => exact assumed (h _ hj)
  | application hn _ _ ihhead ihgoals => exact application hn (ihhead h) fun g hg => ihgoals g hg h
  | abstraction ho _ ih =>
    refine abstraction ho (ih fun i hi => ?_)
    rcases List.mem_append.1 hi with hi | hi
    · exact List.mem_append_left _ (h i hi)
    · exact List.mem_append_right _ hi

/-- Judgments stored may be replaced by their derivations from others, and hypotheses as well: a
derivation that ends in no hypothesis holds in every instance and under all hypotheses. -/
theorem cut {is : List Judgment} {m : Nat} {env' : Environment} (d : Derivable o js n env j)
    (hjs : ∀ i ∈ js, Derivable o is m {} i)
    (henv : ∀ i ∈ env.entries, i ∈ env'.entries ∨ Derivable o is m {} i) :
    Derivable o is (m + n) env' j := by
  have closed : ∀ {n env' i}, Derivable o is m {} i → Derivable o is (m + n) env' i := fun d =>
    (d.weaken fun _ h => absurd h List.not_mem_nil).mono (Nat.le_add_right m _)
  induction d generalizing env' with
  | stored f hj => exact closed ((hjs _ hj).subst f)
  | assumed hj => exact (henv _ hj).elim assumed closed
  | application hn _ _ ihhead ihgoals =>
    exact application hn (ihhead henv) fun g hg => ihgoals g hg henv
  | @abstraction n env x body a b ho _ ih =>
    refine abstraction ho (ih fun i hi => ?_)
    rcases List.mem_append.1 hi with hi | hi
    · exact (henv i hi).imp_left (List.mem_append_left _)
    · exact .inl (List.mem_append_right _ hi)

/-- Bindings of a search do not matter to hypotheses that come from stored judgments. -/
theorem cut_subst {is : List Judgment} {m : Nat} (d : Derivable o js n (env.subst f) j)
    (hjs : ∀ i ∈ js, Derivable o is m {} i) (henv : ∀ i ∈ env.entries, i ∈ is) :
    Derivable o is (m + n) {} j := by
  refine d.cut hjs fun i hi => .inr ?_
  obtain ⟨h, hh, rfl⟩ := List.mem_map.1 hi
  exact .stored f (henv h hh)

end Derivable
end ProofSearch
