import ProofSearch.Proofs.Fresh
import ProofSearch.Proofs.Subst.MostGeneral
import ProofSearch.Proofs.Subst.Rename
import ProofSearch.Proofs.Term.Variant
import ProofSearch.Search.Draws
import ProofSearch.Search.Note
import ProofSearch.Search.Reading

/-!
# Searches that draw different numbers

Two searches over the same judgments may do the same and yet differ in the names they draw, when one of
them draws numbers that the other has no use for. A `Link` keeps the two counters, and the pairs of
variables that stand for each other: names drawn on both sides at once make new pairs, names drawn on one
side alone make none. What one side holds is the `Counterpart` of what the other holds when every renaming
along the pairs takes it there. Since unification does not depend on names, counterparts are unified to
counterparts (`Sim.unify`), and two searches that go step by step (`Sim`) give counterparts one by one
(`Sim.read`).
-/

namespace ProofSearch

/-- The counters of two searches, and the pairs of variables that stand for each other. -/
structure Link where
  left : Nat
  right : Nat
  pairs : Var → Var → Prop
  settled : ∀ v w, pairs v w → v.Settled left ∧ w.Settled right
  unique : ∀ v w v' w', pairs v w → pairs v' w' → (v = v' ↔ w = w')

namespace Link

/-- Numbers have been drawn and pairs added, and nothing else has changed. -/
structure GrowsTo (l l' : Link) : Prop where
  left_le : l.left ≤ l'.left
  right_le : l.right ≤ l'.right
  pairs : ∀ v w, l.pairs v w → l'.pairs v w

namespace GrowsTo
variable {l l' l'' : Link}

theorem refl (l : Link) : l.GrowsTo l := ⟨Nat.le_refl _, Nat.le_refl _, fun _ _ h => h⟩

theorem trans (h : l.GrowsTo l') (h' : l'.GrowsTo l'') : l.GrowsTo l'' :=
  ⟨h.left_le.trans h'.left_le, h.right_le.trans h'.right_le, fun v w hv => h'.pairs v w (h.pairs v w hv)⟩

end GrowsTo

/-- Both searches begin at `n`, with the same names. -/
def start (n : Nat) : Link where
  left := n
  right := n
  pairs v w := v = w ∧ v.Settled n
  settled := by
    rintro v w ⟨rfl, hv⟩
    exact ⟨hv, hv⟩
  unique := by
    rintro v w v' w' ⟨rfl, -⟩ ⟨rfl, -⟩
    exact Iff.rfl

/-- Each search has drawn numbers of its own. -/
def raise (l : Link) {m m' : Nat} (hm : l.left ≤ m) (hm' : l.right ≤ m') : Link where
  left := m
  right := m'
  pairs := l.pairs
  settled v w h := (l.settled v w h).imp (·.mono hm) (·.mono hm')
  unique := l.unique

/-- A variable of a pair ends in no number still to be drawn. -/
theorem ne_tag (l : Link) {v w : Var} (h : l.pairs v w) (u : Var) :
    v ≠ u.tag (ending l.left) ∧ w ≠ u.tag (ending l.right) := by
  obtain ⟨hv, hw⟩ := l.settled v w h
  constructor
  · rintro rfl
    exact hv _ (Nat.le_refl _) (Var.ending_suffix_tag _ u)
  · rintro rfl
    exact hw _ (Nat.le_refl _) (Var.ending_suffix_tag _ u)

/-- Both searches have drawn their next number; the names made with it stand for each other. -/
def draw (l : Link) : Link where
  left := l.left + 1
  right := l.right + 1
  pairs v w := l.pairs v w ∨ ∃ u : Var, v = u.tag (ending l.left) ∧ w = u.tag (ending l.right)
  settled := by
    rintro v w (h | ⟨u, rfl, rfl⟩)
    · exact (l.settled v w h).imp (·.mono (Nat.le_succ _)) (·.mono (Nat.le_succ _))
    · exact ⟨u.settled_tag (Nat.lt_succ_self _), u.settled_tag (Nat.lt_succ_self _)⟩
  unique := by
    rintro v w v' w' (h | ⟨u, rfl, rfl⟩) (h' | ⟨u', rfl, rfl⟩)
    · exact l.unique v w v' w' h h'
    · exact iff_of_false (l.ne_tag h u').1 (l.ne_tag h u').2
    · exact iff_of_false (l.ne_tag h' u).1.symm (l.ne_tag h' u).2.symm
    · exact ⟨fun h => by rw [Var.tag_inj h], fun h => by rw [Var.tag_inj h]⟩

/-- The second search has drawn its next number, and the first has not. -/
def drawRight (l : Link) : Link where
  left := l.left
  right := l.right + 1
  pairs := l.pairs
  settled v w h := (l.settled v w h).imp_right (·.mono (Nat.le_succ _))
  unique := l.unique

theorem growsTo_raise (l : Link) {m m' : Nat} (hm : l.left ≤ m) (hm' : l.right ≤ m') :
    l.GrowsTo (l.raise hm hm') :=
  ⟨hm, hm', fun _ _ h => h⟩

theorem growsTo_draw (l : Link) : l.GrowsTo l.draw := ⟨Nat.le_succ _, Nat.le_succ _, fun _ _ => .inl⟩

theorem growsTo_drawRight (l : Link) : l.GrowsTo l.drawRight :=
  ⟨Nat.le_refl _, Nat.le_succ _, fun _ _ h => h⟩

theorem pairs_drawn (l : Link) (stem : String) (h : stem.toList ≠ []) :
    l.draw.pairs (Var.drawn stem l.left) (Var.drawn stem l.right) := by
  refine .inr ⟨⟨"$" ++ stem, marked_sigil h⟩, ?_, ?_⟩ <;> simp [Var.drawn, Var.tag, String.append_assoc]

end Link

/-! ### Counterparts -/

/-- The renaming takes each variable to the one it stands for, and leaves the symbols. -/
structure Renaming.Follows (ρ : Renaming) (l : Link) : Prop where
  sym : ∀ c, ρ.sym c = c
  var : ∀ v w, l.pairs v w → ρ.var v = w

theorem Renaming.Follows.of_growsTo {ρ : Renaming} {l l' : Link} (h : ρ.Follows l') (hl : l.GrowsTo l') :
    ρ.Follows l :=
  ⟨h.sym, fun v w hv => h.var v w (hl.pairs v w hv)⟩

theorem Link.exists_follows (l : Link) : ∃ ρ : Renaming, ρ.Follows l := by
  classical
  -- a variable that is in no pair goes where no variable of a pair can be
  let f (v : Var) : Var := if h : ∃ w, l.pairs v w then h.choose else v.tag (ending l.right)
  have paired : ∀ v w, l.pairs v w → f v = w := fun v w h => by
    have hex : ∃ w, l.pairs v w := ⟨w, h⟩
    exact (dif_pos hex).trans ((l.unique v _ v w hex.choose_spec h).1 rfl)
  have alone : ∀ v, (¬ ∃ w, l.pairs v w) → f v = v.tag (ending l.right) := fun v h => dif_neg h
  have hf : Function.Injective f := by
    intro v v' h
    by_cases hv : ∃ w, l.pairs v w
    · obtain ⟨w, hw⟩ := hv
      rw [paired v w hw] at h
      by_cases hv' : ∃ w, l.pairs v' w
      · obtain ⟨w', hw'⟩ := hv'
        rw [paired v' w' hw'] at h
        exact (l.unique v w v' w' hw hw').2 h
      · rw [alone v' hv'] at h
        exact absurd h (l.ne_tag hw v').2
    · rw [alone v hv] at h
      by_cases hv' : ∃ w, l.pairs v' w
      · obtain ⟨w', hw'⟩ := hv'
        rw [paired v' w' hw'] at h
        exact absurd h.symm (l.ne_tag hw' v).2
      · rw [alone v' hv'] at h
        exact Var.tag_inj h
  exact ⟨⟨f, id, hf, fun _ _ h => h⟩, fun _ => rfl, paired⟩

variable {l l' : Link} {s s' : Subst} {t t' u u' : Term} {j j' : Judgment} {v w : Var}

def Term.Counterpart (l : Link) (t t' : Term) : Prop := ∀ ρ : Renaming, ρ.Follows l → t.rename ρ = t'

structure Judgment.Counterpart (l : Link) (j j' : Judgment) : Prop where
  proof : Term.Counterpart l j.proof j'.proof
  statement : Term.Counterpart l j.statement j'.statement

/-- Neither substitution has a cycle, and the names of one are those that the other's stand for. -/
structure Subst.Counterpart (l : Link) (s s' : Subst) : Prop where
  acyclic : s.Acyclic
  acyclic' : s'.Acyclic
  rename : ∀ ρ : Renaming, ρ.Follows l → s.rename ρ = s'

def Environment.Counterpart (l : Link) (env env' : Environment) : Prop :=
  List.Forall₂ (Judgment.Counterpart l) env.entries env'.entries

namespace Term

theorem Counterpart.mono (h : Counterpart l t t') (hl : l.GrowsTo l') : Counterpart l' t t' :=
  fun ρ hρ => h ρ (hρ.of_growsTo hl)

theorem counterpart_var (h : l.pairs v w) : Counterpart l (var v) (var w) :=
  fun _ hρ => congrArg var (hρ.var v w h)

theorem counterpart_sym (l : Link) (c : Sym) : Counterpart l (sym c) (sym c) :=
  fun _ hρ => congrArg sym (hρ.sym c)

theorem counterpart_tuple {ts ts' : List Term} (h : List.Forall₂ (Counterpart l) ts ts') :
    Counterpart l (tuple ts) (tuple ts') := fun ρ hρ => by
  rw [rename_tuple]
  congr 1
  induction h with
  | nil => rfl
  | cons ht _ ih => rw [List.map_cons, ht ρ hρ, ih]

theorem counterpart_arrow {ps ps' : List Term} (h : List.Forall₂ (Counterpart l) ps ps')
    (ht : Counterpart l t t') : Counterpart l (arrow ps t) (arrow ps' t') :=
  counterpart_tuple (List.rel_append (.cons (counterpart_sym l _) h) (.cons ht .nil))

theorem counterpart_tag (l : Link) (t : Term) :
    Counterpart l.draw (t.tag (ending l.left)) (t.tag (ending l.right)) := fun _ hρ =>
  rename_subst hρ.sym fun v _ => congrArg var (hρ.var _ _ (.inr ⟨v, rfl, rfl⟩))

theorem counterpart_start {n : Nat} (ht : t.Settled n) : Counterpart (.start n) t t := fun ρ hρ => by
  have h := rename_subst (f := .var) (g := .var) hρ.sym fun v hv => congrArg var (hρ.var v v ⟨rfl, ht v hv⟩)
  rwa [subst_id] at h

/-- All variables of a term that has a counterpart are paired, since what follows the pairs may take any
other variable elsewhere. -/
theorem Counterpart.paired (h : Counterpart l t t') (hv : v ∈ t.vars) : ∃ w, l.pairs v w := by
  by_contra halone
  obtain ⟨ρ, hρ⟩ := l.exists_follows
  let new := (ρ.var v).tag (ending l.right)
  have hne : ρ.var v ≠ new := (Var.tag_ne (ρ.var v) l.right).symm
  let ρ' : Renaming := { ρ with
    var := fun x => Equiv.swap (ρ.var v) new (ρ.var x)
    var_injective := (Equiv.swap (ρ.var v) new).injective.comp ρ.var_injective }
  have hρ' : ρ'.Follows l := by
    refine ⟨hρ.sym, fun x y hxy => ?_⟩
    show Equiv.swap (ρ.var v) new (ρ.var x) = y
    rw [hρ.var x y hxy]
    refine Equiv.swap_apply_of_ne_of_ne (fun hy => halone ⟨y, ?_⟩) (l.ne_tag hxy _).2
    rwa [← ρ.var_injective ((hρ.var x y hxy).trans hy)]
  have hsame := (h ρ hρ).trans (h ρ' hρ').symm
  rw [rename_eq_subst hρ.sym, rename_eq_subst hρ'.sym] at hsame
  refine hne ((var.inj (eq_of_subst_eq hsame v hv)).trans ?_)
  exact Equiv.swap_apply_left _ _

theorem Counterpart.settled (h : Counterpart l t t') : t'.Settled l.right := by
  obtain ⟨ρ, hρ⟩ := l.exists_follows
  rw [← h ρ hρ, rename_eq_subst hρ.sym]
  intro w hw
  obtain ⟨v, hv, hw⟩ := mem_vars_subst.1 hw
  obtain ⟨w', hpair⟩ := h.paired hv
  rw [vars_var, List.mem_singleton, hρ.var v w' hpair] at hw
  exact hw ▸ (l.settled v w' hpair).2

end Term

namespace Judgment

theorem Counterpart.mono (h : Counterpart l j j') (hl : l.GrowsTo l') : Counterpart l' j j' :=
  ⟨h.proof.mono hl, h.statement.mono hl⟩

theorem Counterpart.term (h : Counterpart l j j') : Term.Counterpart l j.term j'.term :=
  Term.counterpart_tuple (.cons (Term.counterpart_sym l _) (.cons h.proof (.cons h.statement .nil)))

theorem counterpart_tag (l : Link) (j : Judgment) :
    Counterpart l.draw (j.tag (ending l.left)) (j.tag (ending l.right)) :=
  ⟨Term.counterpart_tag l j.proof, Term.counterpart_tag l j.statement⟩

theorem counterpart_start {n : Nat} (hj : j.term.Settled n) : Counterpart (.start n) j j :=
  let ⟨hproof, hstatement⟩ := Term.settled_judgment.1 hj
  ⟨Term.counterpart_start hproof, Term.counterpart_start hstatement⟩

end Judgment

namespace Subst

theorem Counterpart.mono (h : Counterpart l s s') (hl : l.GrowsTo l') : Counterpart l' s s' :=
  ⟨h.acyclic, h.acyclic', fun ρ hρ => h.rename ρ (hρ.of_growsTo hl)⟩

theorem counterpart_empty (l : Link) : Counterpart l empty empty :=
  ⟨acyclic_empty, acyclic_empty, fun _ _ => rfl⟩

theorem Counterpart.subst_value (hs : Counterpart l s s') (ht : Term.Counterpart l t t') :
    Term.Counterpart l (t.subst s.value) (t'.subst s'.value) := fun ρ hρ => by
  have h := instantiate?_rename ρ s t
  rw [hs.rename ρ hρ, ht ρ hρ, hs.acyclic.instantiate?_eq, hs.acyclic'.instantiate?_eq] at h
  exact (Option.some.inj h).symm

end Subst

namespace Environment

theorem Counterpart.mono {env env' : Environment} (h : Counterpart l env env') (hl : l.GrowsTo l') :
    Counterpart l' env env' :=
  List.Forall₂.imp (fun _ _ h => h.mono hl) h

theorem counterpart_start {n : Nat} {env : Environment} (henv : env.Settled n) :
    Counterpart (.start n) env env :=
  List.forall₂_same.2 fun j hj => Judgment.counterpart_start (henv j hj)

end Environment

/-! ### Simulations -/

namespace Search
variable {ν α β γ δ : Type} {js : List Judgment}

/-- The two searches give alternatives that are as `R` says, one by one, where `R` knows the link that has
been reached; the second may draw on its own. Whoever takes an alternative of each may draw as well, on
both sides or on one. -/
inductive Sim (js : List Judgment) (R : Link → α → β → Prop) : Link → Search ν α → Search ν β → Prop
  | done {l : Link} : Sim js R l .done .done
  | give {l : Link} {a : α} {b : β} {k : Unit → Search ν α} {k' : Unit → Search ν β} (h : R l a b)
      (rest : ∀ l', l.GrowsTo l' → Sim js R l' (k ()) (k' ())) : Sim js R l (.give a k) (.give b k')
  | draw {l : Link} {k : Nat → Search ν α} {k' : Nat → Search ν β}
      (h : Sim js R l.draw (k l.left) (k' l.right)) : Sim js R l (.draw k) (.draw k')
  | drawRight {l : Link} {t : Search ν α} {k' : Nat → Search ν β}
      (h : Sim js R l.drawRight t (k' l.right)) : Sim js R l t (.draw k')
  | look {l : Link} {k : List Judgment → Search ν α} {k' : List Judgment → Search ν β}
      (h : Sim js R l (k js) (k' js)) : Sim js R l (.look k) (.look k')

namespace Sim
variable {R : Link → α → β → Prop}

theorem one {a : α} {b : β} (h : R l a b) : Sim js R l (one a : Search ν α) (one b) :=
  .give h fun _ _ => .done

theorem append {t : Search ν α} {t' : Search ν β} {u : Unit → Search ν α} {u' : Unit → Search ν β}
    (h : Sim js R l t t') (hu : ∀ l', l.GrowsTo l' → Sim js R l' (u ()) (u' ())) :
    Sim js R l (t.append u) (t'.append u') := by
  induction h with
  | @done l => exact hu l (.refl l)
  | give hR _ ih => exact .give hR fun l' hl => ih l' hl fun l'' hl' => hu l'' (hl.trans hl')
  | @draw l _ _ _ ih => exact .draw (ih fun l' hl => hu l' (l.growsTo_draw.trans hl))
  | @drawRight l _ _ _ ih => exact .drawRight (ih fun l' hl => hu l' (l.growsTo_drawRight.trans hl))
  | look _ ih => exact .look (ih hu)

theorem bind {S : Link → γ → δ → Prop} {t : Search ν α} {t' : Search ν β} {f : α → Search ν γ}
    {f' : β → Search ν δ} (h : Sim js R l t t')
    (hf : ∀ l' a b, l.GrowsTo l' → R l' a b → Sim js S l' (f a) (f' b)) :
    Sim js S l (t.bind f) (t'.bind f') := by
  induction h with
  | done => exact .done
  | @give l a b k k' hR _ ih =>
    exact (hf l a b (.refl l) hR).append fun l' hl => ih l' hl fun l'' c d hl' => hf l'' c d (hl.trans hl')
  | @draw l _ _ _ ih => exact .draw (ih fun l' a b hl => hf l' a b (l.growsTo_draw.trans hl))
  | @drawRight l _ _ _ ih => exact .drawRight (ih fun l' a b hl => hf l' a b (l.growsTo_drawRight.trans hl))
  | look _ ih => exact .look (ih hf)

/-- What is unified with counterparts is unified, and the results are counterparts. -/
theorem unify (hs : Subst.Counterpart l s s') (ht : Term.Counterpart l t t') (hu : Term.Counterpart l u u')
    {k : Subst → Search ν α} {k' : Subst → Search ν β}
    (h : ∀ r r', Subst.Counterpart l r r' → Sim js R l (k r) (k' r')) :
    Sim js R l (ofUnify (s.unify t u) k) (ofUnify (s'.unify t' u') k') := by
  have renamed : ∀ ρ : Renaming, ρ.Follows l → s'.unify t' u' = (s.unify t u).map (Subst.rename ρ) :=
    fun ρ hρ => by rw [← hs.rename ρ hρ, ← ht ρ hρ, ← hu ρ hρ, Subst.unify_rename]
  obtain ⟨ρ, hρ⟩ := l.exists_follows
  match hr : s.unify t u with
  | .ok r =>
    rw [hr] at renamed
    have hr' : s'.unify t' u' = .ok (r.rename ρ) := renamed ρ hρ
    rw [hr']
    refine h r _ ⟨(Subst.unified_of_unify hs.acyclic hr).acyclic,
      (Subst.unified_of_unify hs.acyclic' hr').acyclic, fun ρ' hρ' => ?_⟩
    exact Except.ok.inj ((renamed ρ' hρ').symm.trans hr')
  | .error .clash =>
    rw [hr] at renamed
    rw [renamed ρ hρ]
    exact .done
  | .error .endless => exact absurd hr (Subst.unify_ne_endless hs.acyclic t u)

theorem done_unify (hs' : s'.Acyclic) {k' : Subst → Search ν β}
    (h : ∀ r', r'.Acyclic → Sim js R l Search.done (k' r')) :
    Sim js R l Search.done (ofUnify (s'.unify t' u') k') := by
  match hr : s'.unify t' u' with
  | .ok r' => exact h r' (Subst.unified_of_unify hs' hr).acyclic
  | .error .clash => exact .done
  | .error .endless => exact absurd hr (Subst.unify_ne_endless hs' t' u')

/-- The second search draws what the first has no use for. -/
theorem ofDraws {d : Draws γ} {c : γ} {t : Search ν α} {k' : γ → Search ν β}
    (hd : (d.run l.right).1 = .ok c) (h : ∀ l', l.GrowsTo l' → Sim js R l' t (k' c)) :
    Sim js R l t (Search.ofDraws d k') := by
  induction d generalizing l with
  | ret c' => exact Except.ok.inj hd ▸ h l (.refl l)
  | raise e => cases hd
  | draw d ih => exact .drawRight (ih l.right hd fun l' hl => h l' (l.growsTo_drawRight.trans hl))

/-! ### What is known -/

theorem matchApart (hs : Subst.Counterpart l s s') (hq : Term.Counterpart l q q') (is : List Judgment) :
    Sim js Subst.Counterpart l (matchApart q s is : Search ν Subst) (matchApart q' s' is) := by
  induction is generalizing l with
  | nil => exact .done
  | cons j is ih =>
    have hl := l.growsTo_draw
    have here : Sim js Subst.Counterpart l.draw
        (ofUnify (s.unify q (j.tag (ending l.left)).term) Search.one : Search ν Subst)
        (ofUnify (s'.unify q' (j.tag (ending l.right)).term) Search.one) :=
      .unify (hs.mono hl) (hq.mono hl) (Judgment.counterpart_tag l j).term fun r r' hr => .one hr
    exact .draw (here.append fun l' hl' => ih (hs.mono (hl.trans hl')) (hq.mono (hl.trans hl')))

theorem matchAll (hs : Subst.Counterpart l s s') (hq : Term.Counterpart l q q') {is is' : List Judgment}
    (h : List.Forall₂ (Judgment.Counterpart l) is is') :
    Sim js Subst.Counterpart l (matchAll q s is : Search ν Subst) (matchAll q' s' is') := by
  induction is generalizing l is' with
  | nil => cases h; exact .done
  | cons j is ih =>
    cases h with
    | @cons _ j' _ is' hj h =>
      have here : Sim js Subst.Counterpart l (ofUnify (s.unify q j.term) Search.one : Search ν Subst)
          (ofUnify (s'.unify q' j'.term) Search.one) :=
        .unify hs hq hj.term fun r r' hr => .one hr
      exact here.append fun l' hl => ih (hs.mono hl) (hq.mono hl) (h.imp fun _ _ hj => hj.mono hl)

theorem known (hs : Subst.Counterpart l s s') (hq : Term.Counterpart l q q')
    (henv : Environment.Counterpart l env env') :
    Sim js Subst.Counterpart l (known env q s : Search ν Subst) (known env' q' s') := by
  have hstored : Sim js Subst.Counterpart l (stored q s : Search ν Subst) (stored q' s') :=
    .look (matchApart hs hq js)
  exact hstored.append fun _ hl => matchAll (hs.mono hl) (hq.mono hl) (henv.mono hl)

/-! ### Readings -/

/-- Read to their ends, the searches have given as many alternatives, and these are as `R` says. -/
theorem readOn (hR : ∀ l l' a b, l.GrowsTo l' → R l a b → R l' a b) {t : Search ν α} {t' : Search ν β}
    (h : Sim js R l t t') {as : Array α} {bs : Array β} (hs : List.Forall₂ (R l) as.toList bs.toList)
    (ns : Array ν) :
    let reading := t.readOn none as ns ⟨js, l.left⟩
    let reading' := t'.readOn none bs ns ⟨js, l.right⟩
    ∃ l', l.GrowsTo l' ∧ List.Forall₂ (R l') reading.results.toList reading'.results.toList ∧
      reading.status = .ended ∧ reading'.status = .ended := by
  induction h generalizing as bs ns with
  | @done l => exact ⟨l, .refl l, hs, rfl, rfl⟩
  | @give l a b k k' hab _ ih =>
    refine ih l (.refl l) ?_ ns
    rw [Array.toList_push, Array.toList_push]
    exact List.rel_append hs (.cons hab .nil)
  | @draw l k k' _ ih =>
    obtain ⟨l', hl, h⟩ := ih (hs.imp fun a b => hR l _ a b l.growsTo_draw) ns
    exact ⟨l', l.growsTo_draw.trans hl, h⟩
  | @drawRight l t k' _ ih =>
    obtain ⟨l', hl, h⟩ := ih (hs.imp fun a b => hR l _ a b l.growsTo_drawRight) ns
    exact ⟨l', l.growsTo_drawRight.trans hl, h⟩
  | look _ ih => exact ih hs ns

theorem read (hR : ∀ l l' a b, l.GrowsTo l' → R l a b → R l' a b) {t : Search ν α} {t' : Search ν β}
    (h : Sim js R l t t') :
    let reading := t.read none ⟨js, l.left⟩
    let reading' := t'.read none ⟨js, l.right⟩
    ∃ l', l.GrowsTo l' ∧ List.Forall₂ (R l') reading.results.toList reading'.results.toList ∧
      reading.status = .ended ∧ reading'.status = .ended :=
  h.readOn hR .nil #[]

theorem instances {t t' : Search ν Subst} (h : Sim js Subst.Counterpart l t t')
    (hq : Term.Counterpart l q q') : Sim js Term.Counterpart l (instances q t) (instances q' t') :=
  h.bind fun l' r r' hl hr => by
    rw [hr.acyclic.instantiate?_eq, hr.acyclic'.instantiate?_eq]
    exact .one (hr.subst_value (hq.mono hl))

/-- Read to their ends, the searches give terms that one renaming along the pairs takes to each other. -/
theorem exists_rename {t t' : Search ν Term} (h : Sim js Term.Counterpart l t t') :
    let reading := t.read none ⟨js, l.left⟩
    let reading' := t'.read none ⟨js, l.right⟩
    reading.status = .ended ∧ reading'.status = .ended ∧ ∃ ρ : Renaming, ρ.Follows l ∧
      reading'.results = reading.results.map (Term.rename ρ) := by
  intro reading reading'
  obtain ⟨l', hl, hall, hended, hended'⟩ := h.read fun _ _ _ _ hl ht => ht.mono hl
  obtain ⟨ρ, hρ⟩ := l'.exists_follows
  have hmap : List.Forall₂ (· = ·) (reading.results.toList.map (Term.rename ρ)) reading'.results.toList :=
    List.forall₂_map_left_iff.2 (hall.imp fun _ _ h => h ρ hρ)
  rw [List.forall₂_eq_eq_eq] at hmap
  refine ⟨hended, hended', ρ, hρ.of_growsTo hl, Array.toList_inj.1 ?_⟩
  rw [Array.toList_map, hmap]

end Sim
end Search
end ProofSearch
