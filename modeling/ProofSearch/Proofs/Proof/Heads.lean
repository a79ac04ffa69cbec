import ProofSearch.Proofs.Backward.Completeness
import ProofSearch.Proofs.FirstOccurrence
import ProofSearch.Proofs.Proof.Spine

/-!
# Names a proof rests on

A walk over a proof enters the body of an abstraction, and the head of a spine before its arguments; a head
that is a name is noted. A head that is neither a name nor an abstraction is its own head again, so the walk
has no end there (`Walk`). It ends just where no such head is met, and the names found are the names met, by
first occurrence. Proofs that a search puts together from symbols by applying one to another have symbols for
heads, and a walk over them ends with names of what is stored and assumed (`axioms?_ends`).
-/

namespace ProofSearch

namespace Term
variable {t f a x body h : Term} {n : String} {ns : List String}

/-- The heads met in a proof, from left to right: those in the body of an abstraction; otherwise the head of
the spine, those in it where it is an abstraction, and those in the arguments. -/
def metHeads (t : Term) : List Term :=
  match _ : t.abstraction? with
  | some (_, body) => body.metHeads
  | none =>
    t.spine.1 ::
      ((match _ : t.spine.1.abstraction? with
        | some (_, body) => body.metHeads
        | none => []) ++
      t.spine.2.attach.flatMap fun a => a.1.metHeads)
termination_by t.size
decreasing_by
  · exact size_body_lt (by assumption)
  · exact (size_body_lt (by assumption)).trans_le (size_spine_fst_le t)
  · exact size_lt_of_mem_spine a.2

/-- A name or an abstraction. -/
def Nameable (h : Term) : Prop := h.text.isSome ∨ h.abstraction?.isSome

/-- The walk over the proof ends, having noted the names in order. -/
inductive Walk : Term → List String → Prop
  | abstraction {t x body : Term} {ns : List String} (ht : t.abstraction? = some (x, body))
      (hbody : Walk body ns) : Walk t ns
  | name {t : Term} {n : String} (names : Term → List String) (hn : t.spine.1.text = some n)
      (hargs : ∀ a ∈ t.spine.2, Walk a (names a)) : Walk t (n :: t.spine.2.flatMap names)
  | head {t : Term} {ns : List String} (names : Term → List String) (ht : t.abstraction? = none)
      (hn : t.spine.1.text = none) (hhead : Walk t.spine.1 ns)
      (hargs : ∀ a ∈ t.spine.2, Walk a (names a)) : Walk t (ns ++ t.spine.2.flatMap names)

theorem text_of_abstraction? (h : t.abstraction? = some (x, body)) : t.text = none :=
  eq_abstraction_of_abstraction? h ▸ rfl

/-! ### The heads met -/

theorem metHeads_of_abstraction? (ht : t.abstraction? = some (x, body)) : t.metHeads = body.metHeads := by
  rw [metHeads]
  split
  · next h => rw [ht] at h; cases h; rfl
  · next h => rw [ht] at h; cases h

theorem metHeads_of_spine (ht : t.abstraction? = none) :
    t.metHeads = t.spine.1 :: ((if t.spine.1.abstraction?.isSome then t.spine.1.metHeads else []) ++
      t.spine.2.flatMap metHeads) := by
  rw [metHeads]
  split
  · next h => rw [ht] at h; cases h
  · rw [List.flatMap_subtype (g := metHeads) fun _ _ => rfl, List.unattach_attach]
    split
    · next h => rw [h, ← metHeads_of_abstraction? h]; rfl
    · next h => rw [h]; rfl

/-- Where an abstraction is applied, it is met as a head itself. -/
theorem metHeads_application (f a : Term) : (tuple [f, a]).metHeads =
    (if f.abstraction?.isSome then [f] else []) ++ (f.metHeads ++ a.metHeads) := by
  rw [metHeads_of_spine (abstraction?_application f a), spine_application]
  cases hf : f.abstraction? with
  | none => rw [metHeads_of_spine hf]; simp [List.flatMap_append]
  | some p => rw [spine_of_abstraction? hf, hf]; simp

theorem metHeads_of_head (happ : ∀ f a, t = tuple [f, a] → False) (ht : t.abstraction? = none) :
    t.metHeads = [t] := by
  rw [metHeads_of_spine ht, spine_head happ, ht]
  rfl

/-! ### The names found -/

/-- Every head met is a name or an abstraction, and these are the names. -/
def Finds (t : Term) (ns : List String) : Prop :=
  (∀ h ∈ t.metHeads, h.Nameable) ∧ t.metHeads.filterMap text = ns

theorem finds_of_abstraction? (ht : t.abstraction? = some (x, body)) : t.Finds ns ↔ body.Finds ns := by
  rw [Finds, metHeads_of_abstraction? ht, ← Finds]

theorem finds_of_head (happ : ∀ f a, t = tuple [f, a] → False) (ht : t.abstraction? = none) :
    t.Finds ns ↔ ∃ n, t.text = some n ∧ ns = [n] := by
  rw [Finds, metHeads_of_head happ ht, List.forall_mem_singleton, Nameable, ht]
  cases hn : t.text with
  | none => simp
  | some n =>
    rw [List.filterMap_cons_some hn, List.filterMap_nil]
    simp [eq_comm]

theorem finds_application :
    (tuple [f, a]).Finds ns ↔ ∃ hs ms, f.Finds hs ∧ a.Finds ms ∧ ns = hs ++ ms := by
  have hhead : (∀ h ∈ if f.abstraction?.isSome then [f] else [], h.Nameable) ∧
      (if f.abstraction?.isSome then [f] else []).filterMap text = [] := by
    cases hf : f.abstraction? with
    | none => simp
    | some p =>
      rw [Option.isSome_some, if_pos rfl]
      exact ⟨List.forall_mem_singleton.2 (.inr (by rw [hf]; rfl)),
        List.filterMap_cons_none (text_of_abstraction? hf)⟩
  rw [Finds, metHeads_application, List.forall_mem_append, List.forall_mem_append, and_iff_right hhead.1,
    List.filterMap_append, List.filterMap_append, hhead.2, List.nil_append]
  constructor
  · rintro ⟨⟨hf, ha⟩, rfl⟩
    exact ⟨_, _, ⟨hf, rfl⟩, ⟨ha, rfl⟩, rfl⟩
  · rintro ⟨_, _, ⟨hf, rfl⟩, ⟨ha, rfl⟩, rfl⟩
    exact ⟨⟨hf, ha⟩, rfl⟩

/-- A proof's names are those of the head of its spine, then those of the arguments. -/
theorem finds_spine : t.Finds ns ↔ ∃ (hs : List String) (names : Term → List String),
    t.spine.1.Finds hs ∧ (∀ a ∈ t.spine.2, a.Finds (names a)) ∧ ns = hs ++ t.spine.2.flatMap names := by
  induction t using induction_spine generalizing ns with
  | application f a ih =>
    rw [finds_application, spine_application]
    constructor
    · rintro ⟨_, ms, hf, ha, rfl⟩
      obtain ⟨hs, names, hhead, hargs, rfl⟩ := ih.1 hf
      refine ⟨hs, fun b => b.metHeads.filterMap text, hhead, ?_, ?_⟩
      · exact List.forall_mem_append.2 ⟨fun b hb => ⟨(hargs b hb).1, rfl⟩,
          List.forall_mem_singleton.2 ⟨ha.1, rfl⟩⟩
      · rw [List.flatMap_append, List.flatMap_singleton, ha.2, List.append_assoc]
        exact congrArg (fun l => hs ++ (l ++ ms)) (List.flatMap_congr fun b hb => (hargs b hb).2.symm)
    · rintro ⟨hs, names, hhead, hargs, rfl⟩
      obtain ⟨hargs, ha⟩ := List.forall_mem_append.1 hargs
      refine ⟨_, _, ih.2 ⟨hs, names, hhead, hargs, rfl⟩, ha a (List.mem_singleton_self a), ?_⟩
      rw [List.flatMap_append, List.flatMap_singleton, List.append_assoc]
  | head t ht =>
    rw [spine_head ht]
    simp

theorem heads?_eq_some_iff : t.heads? = some ns ↔ t.Finds ns := by
  induction t using heads?.induct generalizing ns with
  | case1 v => rw [finds_of_head (by simp) rfl]; simp [heads?, text, eq_comm]
  | case2 c => rw [finds_of_head (by simp) rfl]; simp [heads?, text, eq_comm]
  | case3 f a ihf iha =>
    rw [finds_application]
    simp only [heads?, Option.bind_eq_some_iff, Option.map_eq_some_iff, ihf, iha]
    constructor
    · rintro ⟨hs, hf, ms, ha, rfl⟩
      exact ⟨hs, ms, hf, ha, rfl⟩
    · rintro ⟨hs, ms, hf, ha, rfl⟩
      exact ⟨hs, hf, ms, ha, rfl⟩
  | case4 x body ih =>
    rw [← abstraction, finds_of_abstraction? (abstraction?_abstraction x body), ← ih, abstraction, heads?,
      if_pos rfl]
  | case5 c x body hc =>
    rw [finds_of_head (by simp) (by simp [abstraction?, hc]), heads?, if_neg hc]
    simp [text]
  | case6 ts happ habs =>
    have ht : (tuple ts).abstraction? = none := by
      rw [Option.eq_none_iff_forall_not_mem]
      rintro ⟨x, body⟩ h
      exact habs _ _ _ (tuple.inj (eq_abstraction_of_abstraction? h))
    rw [finds_of_head (fun f a h => happ f a (tuple.inj h)) ht, heads?]
    · simp [text]
    · exact happ
    · exact habs

/-! ### Where the walk ends -/

theorem finds_of_walk (h : t.Walk ns) : t.Finds ns := by
  induction h with
  | abstraction ht _ ih => exact (finds_of_abstraction? ht).2 ih
  | @name t n names hn _ ih =>
    have hhead : t.spine.1.abstraction? = none := by
      refine Option.eq_none_iff_forall_not_mem.2 fun p h => ?_
      rw [text_of_abstraction? h] at hn
      cases hn
    exact finds_spine.2 ⟨[n], names, (finds_of_head (spine_fst_ne t) hhead).2 ⟨n, hn, rfl⟩, ih, rfl⟩
  | @head t ns names _ _ _ _ ihhead ih => exact finds_spine.2 ⟨ns, names, ihhead, ih, rfl⟩

theorem walk_of_finds (h : t.Finds ns) : t.Walk ns := by
  induction hsize : t.size using Nat.strong_induction_on generalizing t ns with
  | _ k ih =>
    subst hsize
    cases ht : t.abstraction? with
    | some p => exact .abstraction ht (ih _ (size_body_lt ht) ((finds_of_abstraction? ht).1 h) rfl)
    | none =>
      obtain ⟨hs, names, hhead, hargs, rfl⟩ := finds_spine.1 h
      have args : ∀ a ∈ t.spine.2, a.Walk (names a) := fun a ha =>
        ih a.size (size_lt_of_mem_spine ha) (hargs a ha) rfl
      cases hh : t.spine.1.abstraction? with
      | none =>
        obtain ⟨n, hn, rfl⟩ := (finds_of_head (spine_fst_ne t) hh).1 hhead
        exact .name names hn args
      | some p =>
        have hne : t.spine.1 ≠ t := fun he => by rw [he, ht] at hh; cases hh
        exact .head names ht (text_of_abstraction? hh) (ih _ (size_spine_fst_lt hne) hhead rfl) args

theorem axioms?_eq_some_iff : t.axioms? = some ns ↔ ∃ hs, t.Finds hs ∧ hs.eraseDups = ns := by
  simp only [axioms?, Option.map_eq_some_iff, heads?_eq_some_iff]

theorem isSome_axioms? : t.axioms?.isSome ↔ ∀ h ∈ t.metHeads, h.Nameable := by
  rw [Option.isSome_iff_exists]
  constructor
  · rintro ⟨ns, h⟩
    obtain ⟨hs, hfinds, -⟩ := axioms?_eq_some_iff.1 h
    exact hfinds.1
  · exact fun h => ⟨_, axioms?_eq_some_iff.2 ⟨_, ⟨h, rfl⟩, rfl⟩⟩

/-- The head of the spine is a triple that binds nothing. -/
example : (tuple [tuple [ofText "f", ofText "a", ofText "b"], ofText "c"]).axioms? = none := by decide

theorem mem_of_axioms? (h : t.axioms? = some ns) : n ∈ ns ↔ ∃ h ∈ t.metHeads, h.text = some n := by
  obtain ⟨_, ⟨-, rfl⟩, rfl⟩ := axioms?_eq_some_iff.1 h
  rw [List.mem_eraseDups, List.mem_filterMap]

end Term

/-! ### Names of what is stored and assumed -/

/-- The bindings of a result leave the proofs of the entries as they are. -/
theorem exists_sym_of_subst {js : List Judgment} {env : Environment} (f : Var → Term)
    (h : ∀ j ∈ js ++ env.entries, ∃ c, j.proof = .sym c) : ∀ i ∈ js ++ (env.subst f).entries,
    ∃ c, i.proof = .sym c ∧ ∃ j ∈ js ++ env.entries, j.proof.text = some c.text := by
  intro i hi
  rcases List.mem_append.1 hi with hi | hi
  · obtain ⟨c, hc⟩ := h i (List.mem_append_left _ hi)
    exact ⟨c, hc, i, List.mem_append_left _ hi, by rw [hc]; rfl⟩
  · obtain ⟨j, hj, rfl⟩ := List.mem_map.1 hi
    obtain ⟨c, hc⟩ := h j (List.mem_append_right _ hj)
    exact ⟨c, by rw [Judgment.subst, hc]; rfl, j, List.mem_append_right _ hj, by rw [hc]; rfl⟩

/-- Proofs by applying one thing to one other are put together from the symbols that are known. -/
theorem Derivable.exists_finds {o : SearchOptions} {js : List Judgment} {d : Nat} {env : Environment}
    {j : Judgment} {K : String → Prop} (hlambda : o.lambdaIntro = false) (hcounts : o.arities.counts = [1])
    (hknown : ∀ i ∈ js ++ env.entries, ∃ c, i.proof = .sym c ∧ K c.text) (h : Derivable o js d env j) :
    ∃ ns, j.proof.Finds ns ∧ ∀ n ∈ ns, K n := by
  have hsym : ∀ {p : Term} {c : Sym}, p = .sym c → K c.text → ∃ ns, p.Finds ns ∧ ∀ n ∈ ns, K n := by
    rintro _ c rfl hc
    exact ⟨[c.text], (Term.finds_of_head (by simp) rfl).2 ⟨c.text, rfl, rfl⟩, List.forall_mem_singleton.2 hc⟩
  induction h with
  | stored f hj =>
    obtain ⟨c, hp, hc⟩ := hknown _ (List.mem_append_left _ hj)
    refine hsym (c := c) ?_ hc
    rw [Judgment.subst, hp]
    rfl
  | assumed hj =>
    obtain ⟨c, hp, hc⟩ := hknown _ (List.mem_append_right _ hj)
    exact hsym hp hc
  | @application _ _ head _ goals hn _ _ ihhead ihgoals =>
    rw [hcounts, List.mem_singleton] at hn
    obtain ⟨g, rfl⟩ := List.length_eq_one_iff.1 hn
    obtain ⟨hs, hhead, hhs⟩ := ihhead hknown
    obtain ⟨ms, hgoal, hms⟩ := ihgoals g (List.mem_singleton_self g) hknown
    exact ⟨hs ++ ms, Term.finds_application.2 ⟨hs, ms, hhead, hgoal, rfl⟩,
      List.forall_mem_append.2 ⟨hhs, hms⟩⟩
  | abstraction ho => rw [hlambda] at ho; cases ho

namespace Term

/-- The names of a proof are those its walk notes; there are some just if every head met is a name or an
abstraction, and then they are the names met, each once and by first occurrence. That is so for every result
of a search that applies one thing to one other, when all that is stored and assumed is proved by symbols, and
the names are among these symbols. The query may be any judgment, and may share variables with the environment
or with what is still to be drawn. -/
theorem axioms?_ends :
    (∀ (p : Term) names, p.axioms? = some names ↔ ∃ ns, p.Walk ns ∧ ns.eraseDups = names) ∧
    (∀ p : Term, p.axioms?.isSome ↔ ∀ h ∈ p.metHeads, h.text.isSome ∨ h.abstraction?.isSome) ∧
    (∀ (p : Term) names, p.axioms? = some names → names.Nodup ∧
      (∀ n, n ∈ names ↔ ∃ h ∈ p.metHeads, h.text = some n) ∧
      names.Pairwise fun m n => (p.metHeads.filterMap text).idxOf m < (p.metHeads.filterMap text).idxOf n) ∧
    ∀ (traced : Bool) (d : Nat) (env : Environment) (q : Judgment) (w : World) (limit : Option Nat),
      (∀ j ∈ w.judgments ++ env.entries, ∃ c, j.proof = .sym c) →
      ∀ t ∈ ((Backward.results { traced := traced } d env q.term).read limit w).results,
        ∃ r : Judgment, t = r.term ∧ ∃ names, r.proof.axioms? = some names ∧
          ∀ n ∈ names, ∃ j ∈ w.judgments ++ env.entries, j.proof.text = some n := by
  refine ⟨fun p names => ?_, fun p => isSome_axioms?,
    fun p names h => ⟨?_, fun n => mem_of_axioms? h, ?_⟩, ?_⟩
  · rw [axioms?_eq_some_iff]
    exact exists_congr fun ns => and_congr_left fun _ => ⟨walk_of_finds, finds_of_walk⟩
  · obtain ⟨_, ⟨-, rfl⟩, rfl⟩ := axioms?_eq_some_iff.1 h
    exact nodup_eraseDups _
  · obtain ⟨_, ⟨-, rfl⟩, rfl⟩ := axioms?_eq_some_iff.1 h
    exact pairwise_eraseDups _
  · intro traced d env q w limit hsyms t ht
    have hall : (Backward.results { traced := traced } d env q.term).Always w.judgments (fun _ => False) _
        w.drawn := Backward.always_results_proved (by simp) d env q w.drawn
    obtain ⟨m, r, hr, rfl⟩ := hall.of_mem_read ht
    have hknown := exists_sym_of_subst r.value hsyms
    obtain ⟨ns, hfinds, hns⟩ := (hr.derivable q (List.mem_singleton_self q)).exists_finds
      (K := fun n => ∃ j ∈ w.judgments ++ env.entries, j.proof.text = some n) rfl rfl hknown
    exact ⟨_, rfl, ns.eraseDups, axioms?_eq_some_iff.2 ⟨ns, hfinds, rfl⟩,
      fun n hn => hns n (List.mem_eraseDups.1 hn)⟩

/-- The only list that is found in a store of `f` and an environment of `a` is by `(f a)`. -/
theorem axioms?_ends_listing :
    let known : List Judgment := [Backward.listing] ++ Backward.withA.entries
    let reading :=
      (Backward.results {} 1 Backward.withA Backward.someList.term).read none ⟨[Backward.listing], 0⟩
    (∀ j ∈ known, ∃ c, j.proof = .sym c) ∧ ∃ t ∈ reading.results, ∃ r : Judgment, t = r.term ∧
      r.proof = tuple [ofText "f", ofText "a"] ∧ r.proof.axioms? = some ["f", "a"] ∧
      ∀ n ∈ ["f", "a"], ∃ j ∈ known, j.proof.text = some n := by
  intro known reading
  have hsyms : ∀ j ∈ known, ∃ c, j.proof = .sym c := List.forall_mem_cons.2
    ⟨⟨_, rfl⟩, List.forall_mem_singleton.2 ⟨_, rfl⟩⟩
  have found : ∃ t ∈ reading.results, ∃ r ∈ Judgment.ofTerm? t, r.proof = tuple [ofText "f", ofText "a"] := by
    decide +kernel
  obtain ⟨t, ht, r, hr, hproof⟩ := found
  obtain rfl := Judgment.ofTerm?_eq_some_iff.1 hr
  obtain ⟨i, hi, names, hnames, hknown⟩ := axioms?_ends.2.2.2 false 1 Backward.withA Backward.someList
    ⟨[Backward.listing], 0⟩ none hsyms r.term ht
  obtain rfl := Judgment.term_injective hi
  have heq : r.proof.axioms? = some ["f", "a"] := by rw [hproof]; decide
  obtain rfl := Option.some.inj (hnames.symm.trans heq)
  exact ⟨hsyms, _, ht, r, rfl, hproof, heq, hknown⟩

end Term
end ProofSearch
