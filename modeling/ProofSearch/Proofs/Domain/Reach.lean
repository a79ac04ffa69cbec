import ProofSearch.Proofs.Backward.Unique
import ProofSearch.Proofs.Domain.Chain
import ProofSearch.Proofs.Rounds.Climb
import ProofSearch.Proofs.Search.Partial

/-!
# How far along a chain rounds of lemmas prove

Each round at a depth `d` takes the store of a chain up by `d`: before it, all that follows within `n * d` is stored
and nothing else (`Chain.Stage`), and what follows within `(n + 1) * d` is after it, since of all that is found only
the instances of modus ponens can overlap with anything else. So the last statement is proved behind `r` rounds just
when its one proof is no higher than `(r + 1) * d` (`read_behind_lemmas`). Without rounds that proof is found in one
way: down the chain each goal is matched by one stored judgment alone, or by none (`sole_statement`).
-/

namespace ProofSearch.Chain
open Domain Search Backward
variable {c : Chain} {d h k n : Nat} {i j : Judgment} {js js' : List Judgment}

/-! ### One proof at most -/

theorem Follows.of_known (hj : Known c.judgments {} j) : c.Follows 0 j := by
  rcases hj with ⟨i, hi, f, rfl⟩ | hj
  · exact (of_mem hi).subst f
  · exact absurd hj List.not_mem_nil

theorem Follows.of_derivable_judgments (hj : Derivable {} c.judgments d {} j) : c.Follows d j := by
  have h := of_derivable (h := 0) (fun _ => of_mem) rfl hj
  rwa [Nat.zero_add] at h

theorem nodup_judgments (c : Chain) : c.judgments.Nodup := by
  have hlinks : ((List.range c.length).map c.link).Nodup := by
    refine List.Nodup.map_on (fun i hi k hk he => ?_) List.nodup_range
    have hpremises := (Follows.implies_inj (congrArg Judgment.statement he)).1
    exact c.distinct i (List.mem_range.1 hi).le k (List.mem_range.1 hk).le (Term.sym.inj hpremises)
  have hothers : [c.step 0, modusPonens].Nodup := by
    refine List.nodup_cons.2 ⟨fun hmem => ?_, List.nodup_singleton _⟩
    cases congrArg Judgment.statement (List.mem_singleton.1 hmem)
  refine hlinks.append hothers fun j hj hj' => ?_
  obtain ⟨k, -, rfl⟩ := List.mem_map.1 hj
  rcases List.mem_pair.1 hj' with he | he
  · cases congrArg Judgment.statement he
  · exact Follows.implies_ne_arrow _ _ _ _ (congrArg Judgment.statement he)

/-- An arrow to an arrow to a statement is proved by modus ponens alone. -/
theorem sole_arrow_arrow (c : Chain) (k : Nat) :
    Sole c.judgments fun j => ∃ x y, j.statement = .arrow [y] (.arrow [x] (.sym (c.statement k))) := by
  refine sole_of_stored modusPonens c.nodup_judgments ?_ ?_
  · rintro j ⟨x, y, hj⟩ i hi f rfl
    rcases mem_judgments.1 hi with ⟨k', hk', rfl⟩ | rfl | rfl
    · rw [subst_link hk'] at hj
      exact absurd hj (Follows.implies_ne_arrow _ _ _ _)
    · cases hj
    · rfl
  · rintro d j ts ⟨x, y, hj⟩ hd hts
    rcases (Follows.of_derivable_judgments hd).of_arrow hj with ⟨p, q, rfl, -⟩ | ⟨k', -, -, -, -, hy⟩
    · obtain ⟨a, ha⟩ := exists_atom_eq (s := "ModusPonens") (by decide)
      cases ha.symm.trans hts
    · cases hy

/-- An implication of a statement is proved by the link to it alone. -/
theorem sole_implies (hk : k < c.length) :
    Sole c.judgments fun j => ∃ x, j.statement = implies x (.sym (c.statement (k + 1))) := by
  refine sole_of_stored (c.link k) c.nodup_judgments ?_ ?_
  · rintro j ⟨x, hj⟩ i hi f rfl
    rcases mem_judgments.1 hi with ⟨k', hk', rfl⟩ | rfl | rfl
    · rw [subst_link hk'] at hj
      have hconclusions := (Follows.implies_inj hj).2
      obtain rfl : k' = k := Nat.succ.inj (c.distinct _ hk' _ hk (Term.sym.inj hconclusions))
      rfl
    · cases hj
    · rw [modusPonens_eq, subst_rule] at hj
      exact absurd hj.symm (Follows.implies_ne_arrow _ _ _ _)
  · rintro d j ts ⟨x, hj⟩ hd hts
    obtain ⟨k', hk', rfl, -⟩ := (Follows.of_derivable_judgments hd).of_implies hj
    obtain ⟨a, ha⟩ : ∃ a : Sym, c.name k' = .sym a := exists_atom_eq (marked_name hk')
    rw [proof_link, ha] at hts
    cases hts

/-- An arrow to a statement is proved by applying modus ponens to the link to it. -/
theorem sole_arrow (hk : k < c.length) :
    Sole c.judgments fun j => ∃ x, j.statement = .arrow [x] (.sym (c.statement (k + 1))) := by
  refine sole_of_application ?_ (c.sole_arrow_arrow (k + 1)) (sole_implies hk) ?_ ?_
  · rintro j ⟨x, hj⟩ hknown
    rcases (Follows.of_known hknown).of_arrow hj with ⟨p, q, -, -, hy⟩ | ⟨k', -, -, hpos, -⟩
    · cases hy
    · exact Nat.lt_irrefl 0 hpos
  · rintro j head y ⟨x, hj⟩
    exact ⟨x, y, by rw [hj]⟩
  · rintro d j head y arg ⟨x, hj⟩ hd
    rw [hj] at hd
    rcases (Follows.of_derivable_judgments hd).of_arrow rfl with ⟨p, q, -, hy, he⟩ | ⟨k', -, -, -, -, he⟩
    · obtain ⟨rfl, rfl⟩ := Follows.arrow_inj he
      exact ⟨x, hy⟩
    · cases he

/-- A statement of the chain is proved in one way at most, within whatever depth. -/
theorem sole_statement (hk : k ≤ c.length) : Sole c.judgments fun j => j.statement = .sym (c.statement k) := by
  induction k with
  | zero =>
    refine sole_of_stored (c.step 0) c.nodup_judgments ?_ ?_
    · rintro j hj i hi f rfl
      rcases mem_judgments.1 hi with ⟨k', hk', rfl⟩ | rfl | rfl
      · rw [subst_link hk'] at hj
        cases hj
      · rfl
      · cases hj
    · rintro d j ts hj hd hts
      obtain ⟨rfl, -⟩ := (Follows.of_derivable_judgments hd).of_statement hk hj
      cases hts
  | succ k ih =>
    -- the head is an arrow to the statement, so what it is applied to proves the statement before
    refine sole_of_application ?_ (sole_arrow hk) (ih (Nat.le_of_lt hk)) ?_ ?_
    · intro j hj hknown
      obtain ⟨-, hheight⟩ := (Follows.of_known hknown).of_statement hk hj
      omega
    · intro j head x hj
      exact ⟨x, by rw [hj]⟩
    · intro d j head x arg hj hd
      rw [hj] at hd
      rcases (Follows.of_derivable_judgments hd).of_arrow rfl with ⟨p, q, -, -, he⟩ | ⟨k', hk', -, -, hx, he⟩
      · cases he
      · obtain rfl : k' = k := Nat.succ.inj (c.distinct _ hk' _ hk (Term.sym.inj he.symm))
        exact hx

/-! ### The store along the rounds -/

/-- An instance of it is it, unless that is an instance of modus ponens. -/
theorem Follows.eq_of_subst (hi : c.Follows h i) (hj : ∀ p q, j ≠ Chain.rule p q) {f : Var → Term}
    (he : i.subst f = j) : i = j := by
  cases hi with
  | rule p q => exact absurd (he.symm.trans (subst_rule p q f)) (hj _ _)
  | link hk => rwa [subst_link hk] at he
  | half hk => rwa [subst_half hk] at he
  | step hk _ => rwa [subst_step hk] at he

theorem half_ne_rule (c : Chain) (k : Nat) (p q : Term) : c.half k ≠ rule p q := fun he => by
  obtain ⟨a, ha⟩ := exists_atom_eq (s := "ModusPonens") (by decide)
  cases (congrArg Judgment.proof he).trans ha

theorem step_ne_rule (c : Chain) (k : Nat) (p q : Term) : c.step k ≠ rule p q := fun he => by
  cases congrArg Judgment.statement he

/-- The store after `n` rounds at the depth. -/
structure Stage (c : Chain) (d n : Nat) (js : List Judgment) : Prop where
  reached : c.Reached (n * d) js
  follows : ∀ j ∈ js, c.Follows (n * d) j
  start : n = 0 → js = c.judgments

namespace Stage

theorem zero (c : Chain) (d : Nat) : c.Stage d 0 c.judgments where
  reached := by
    rw [Nat.zero_mul]
    exact .zero (List.Subset.refl _)
  follows _ := .of_mem
  start _ := rfl

theorem derivable (hjs : c.Stage d n js) (hj : Derivable {} js d {} j) : c.Follows ((n + 1) * d) j := by
  rw [Nat.succ_mul]
  exact .of_derivable hjs.follows rfl hj

theorem rigid (hjs : c.Stage d n js) (hj : Derivable {} js d {} j) (hground : ∀ f, j.subst f = j)
    (hrule : ∀ p q, j ≠ rule p q) : Rigid {} js d j where
  derivable := hj
  ground := hground
  alone _ _ hi := (hjs.derivable hi).eq_of_subst hrule

theorem succ (hjs : c.Stage d n js) (hclimb : Climb {} d js js') : c.Stage d (n + 1) js' where
  reached := by
    rw [Nat.succ_mul]
    refine ⟨fun j hj => hclimb.kept (hjs.reached.given hj), fun k hk hh => ?_, fun k hk hh => ?_⟩
    · have hhalf := hjs.reached.derivable_half hk hh
      exact hclimb.rigid _ (hjs.rigid hhalf (subst_half hk) (c.half_ne_rule k))
    · have hstep := hjs.reached.derivable_step hk hh
      exact hclimb.rigid _ (hjs.rigid hstep (subst_step hk) (c.step_ne_rule k))
  follows j hj := hjs.derivable (hclimb.derivable j hj)
  start hn := absurd hn (Nat.succ_ne_zero n)

end Stage

/-! ### The last statement -/

/-- Some proof of the last statement. -/
def goal (c : Chain) : Judgment := ⟨atom "$prf", .sym (c.statement c.length)⟩

/-- The one proof of the last statement. -/
def last (c : Chain) : Judgment := c.step c.length

theorem settled_goal (c : Chain) (m : Nat) : c.goal.term.Settled m := by
  have hproof : (atom "$prf").Settled m := Term.settled_of_underscore_notMem (by decide) m
  exact Term.settled_judgment.2 ⟨hproof, Term.settled_sym _⟩

theorem Stage.read_results (hjs : c.Stage d n js) (hc : 0 < c.length) (m : Nat) :
    let reading := (results {} d {} c.goal.term).read none ⟨js, m⟩
    reading.status = .ended ∧ (reading.results ≠ #[] ↔ c.length + 1 ≤ (n + 1) * d) ∧
      ∀ t ∈ reading.results, t = c.last.term := by
  intro reading
  have hproved : (results {} d {} c.goal.term).Always js (fun _ => False) _ m :=
    always_results_proved nofun d {} c.goal m
  have hall : ∀ t ∈ reading.results, t = c.last.term ∧ c.length + 1 ≤ (n + 1) * d := fun t ht => by
    obtain ⟨_, r, hr, rfl⟩ := Always.of_mem_read (w := ⟨js, m⟩) hproved ht
    have hfollows := hjs.derivable (hr.derivable c.goal (List.mem_singleton_self _))
    obtain ⟨he, hheight⟩ := hfollows.of_statement (Nat.le_refl _) rfl
    exact ⟨congrArg Judgment.term he, hheight.resolve_left (Nat.ne_of_gt hc)⟩
  refine ⟨Unfailing.status_read (w := ⟨js, m⟩) hproved.unfailing, ⟨fun hne => ?_, fun hheight => ?_⟩,
    fun t ht => (hall t ht).1⟩
  · obtain ⟨t, ht⟩ := Array.exists_mem_of_ne_empty _ hne
    exact (hall t ht).2
  · rw [Nat.succ_mul] at hheight
    have hlast : Derivable {} js d {} (c.goal.subst fun _ => c.last.proof) :=
      hjs.reached.derivable_step (Nat.le_refl _) hheight
    have hgives := gives_results rfl rfl d (fun _ h => absurd h List.not_mem_nil) (c.settled_goal m) hlast
    obtain ⟨t, ht, -⟩ := Gives.exists_mem_read (w := ⟨js, m⟩) hgives
    exact Array.ne_empty_of_mem ht

/-- Over the chain itself the last statement is proved once if the depth is enough, and not at all else. -/
theorem read_results_judgments (c : Chain) (hc : 0 < c.length) (d m : Nat) :
    ((results {} d {} c.goal.term).read none ⟨c.judgments, m⟩).results =
      if c.length + 1 ≤ d then #[c.last.term] else #[] := by
  obtain ⟨-, hne, hall⟩ := (Stage.zero c d).read_results hc m
  rw [Nat.zero_add, Nat.one_mul] at hne
  have hone : (results {} d {} c.goal.term).AtMostOne c.judgments m :=
    (sole_statement (Nat.le_refl _)).results fun _ _ _ => rfl
  have hsize := AtMostOne.size_results_le (w := ⟨c.judgments, m⟩) hone
  split
  · next hd =>
    have hpos := Array.size_pos_iff.2 (hne.2 hd)
    obtain ⟨t, ht⟩ := Array.size_eq_one_iff.1 (Nat.le_antisymm hsize hpos)
    rw [ht, hall t (ht ▸ Array.mem_singleton.2 rfl)]
  · next hd => exact Classical.not_not.1 fun h => hd (hne.1 h)

/-- What is read of a request that comes to the search for the last statement, over a store that is `n` rounds on. -/
theorem Stage.read_request {r : Request} {w : World} (hc : 0 < c.length)
    (hr : (r.open {}).Returns (fun _ => False) (fun _ => True)
      (fun w' t => c.Stage d n w'.judgments ∧ t = (results {} d {} c.goal.term).map .term) w) :
    let reading := r.read {} none w
    reading.status = .ended ∧ (reading.results ≠ #[] ↔ c.length + 1 ≤ (n + 1) * d) ∧
      (∀ a ∈ reading.results, a = .term c.last.term) ∧
      (n = 0 → reading.results = if c.length + 1 ≤ d then #[.term c.last.term] else #[]) := by
  obtain ⟨_, ns, w', ⟨hstage, rfl⟩, hread⟩ := Request.exists_read_of_returns hr
  rw [hread none]
  obtain ⟨hended, hne, hall⟩ := hstage.read_results hc w'.drawn
  obtain ⟨hresults, hstatus⟩ := read_map Answer.term hended
  refine ⟨hstatus, ?_, fun a ha => ?_, fun hn => ?_⟩
  · rw [← hne, not_iff_not]
    exact (congrArg (· = #[]) hresults).to_iff.trans Array.map_eq_empty_iff
  · obtain ⟨t, ht, rfl⟩ := Array.mem_map.1 (hresults ▸ ha)
    exact congrArg Answer.term (hall t ht)
  · have hexact := c.read_results_judgments hc d w'.drawn
    rw [← hstage.start hn] at hexact
    refine hresults.trans ?_
    rw [hexact]
    split <;> simp

/-- A chain of `n` links is stored as its links, the base and modus ponens. Behind `r` rounds of lemmas at depth
`d` its last statement has a proof just when `n + 1` is at most `(r + 1) * d`, and all the results are the one by
modus ponens along the whole chain. Without rounds, and so in the plain search, it is found once when `n + 1` is at
most `d`, and not at all else. -/
theorem read_behind_lemmas (c : Chain) (hc : 0 < c.length) (d r drawn : Nat) :
    ∃ store : Store, chain c.statements (.sym c.base) = .ok store ∧ store.judgments = c.judgments ∧
      let query := (Judgment.mk (.ofText "$prf") (.sym (c.statement c.length))).term
      let proved := Answer.term (Judgment.mk (c.proof c.length) (.sym (c.statement c.length))).term
      let behind := (Request.proveWithLemmas (.int d) (.int r) query).read {} none ⟨store.judgments, drawn⟩
      let plain := (Request.backward (.int d) query).read {} none ⟨store.judgments, drawn⟩
      behind.status = .ended ∧ (behind.results ≠ #[] ↔ c.length + 1 ≤ (r + 1) * d) ∧
      (∀ a ∈ behind.results, a = proved) ∧
      (r = 0 → behind.results = if c.length + 1 ≤ d then #[proved] else #[]) ∧
      plain.status = .ended ∧ plain.results = if c.length + 1 ≤ d then #[proved] else #[] := by
  refine ⟨_, c.chain_statements, rfl, ?_⟩
  intro query proved behind plain
  have hfaultless : ∀ e, ¬ ({} : Settings).Faulty e := by
    rintro e (h | h | h) <;> cases h
  have hbehind := Stage.read_request hc (Request.returns_proveWithLemmas_climb (w := ⟨c.judgments, drawn⟩)
    hfaultless rfl rfl (fun _ _ _ h hclimb => Stage.succ h hclimb) r c.goal (.zero c d))
  have hopen : Request.open {} (.backward (.int d) query) = one ((results {} d {} c.goal.term).map .term) :=
    Request.open_backward_eq (o := {}) c.goal rfl
  have hplain := Stage.read_request (r := .backward (.int d) query) (w := ⟨c.judgments, drawn⟩) hc
    (by rw [hopen]; exact .one ⟨.zero c d, rfl⟩)
  exact ⟨hbehind.1, hbehind.2.1, hbehind.2.2.1, hbehind.2.2.2, hplain.1, hplain.2.2.2 rfl⟩

/-- The chain of `A`, `B` and `C`, with a proof `a` of `A`. -/
def abc : Chain where
  length := 2
  statement k := if k = 0 then ⟨"A", by decide⟩ else if k = 1 then ⟨"B", by decide⟩ else ⟨"C", by decide⟩
  base := ⟨"a", by decide⟩
  distinct := by decide
  unmarked := by decide

/-- Two rounds at depth 1 are enough for it, and the proof is found with the lemmas that they put in. -/
theorem read_behind_lemmas_abc : 0 < abc.length ∧
    ∃ store : Store, chain [atom "A", atom "B", atom "C"] (atom "a") = .ok store ∧
      let query := (Judgment.mk (.ofText "$prf") (.ofText "C")).term
      let behind := (Request.proveWithLemmas (.int 1) (.int 2) query).read {} none ⟨store.judgments, 0⟩
      let proof := detach (atom "bc") (detach (atom "ab") (atom "a"))
      behind.results ≠ #[] ∧ ∀ a ∈ behind.results, a = .term (Judgment.mk proof (.ofText "C")).term := by
  have hstatements : abc.statements = [atom "A", atom "B", atom "C"] := by decide +kernel
  have hbase : Term.sym abc.base = atom "a" := by decide +kernel
  have hlast : Term.sym (abc.statement abc.length) = .ofText "C" := by decide +kernel
  have hproof : abc.proof abc.length = detach (atom "bc") (detach (atom "ab") (atom "a")) := by decide +kernel
  have hpos : 0 < abc.length := by decide
  obtain ⟨store, hstore, -, -, hne, hall, -⟩ := read_behind_lemmas abc hpos 1 2 0
  rw [hstatements, hbase] at hstore
  rw [hlast] at hne hall
  rw [hproof] at hall
  exact ⟨hpos, store, hstore, hne.2 (by decide), hall⟩

end ProofSearch.Chain
