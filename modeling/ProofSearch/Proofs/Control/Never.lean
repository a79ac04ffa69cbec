import ProofSearch.Control.Rules
import ProofSearch.Proofs.Backward.Soundness

/-!
# Controls that never stop

Under a bound on the levels a control that never stops leaves the search as it is without a control: the
two are one program, draw by draw, whatever names they meet (`solve_eq_backward`). They differ in what
they read out on the way; every substitution they come to is without cycles (`all_solve`), so that reading
it out never fails, and this is all that is asked of the bindings the search begins with.
-/

namespace ProofSearch
namespace Search
variable {ν α β : Type} {P Q : α → Prop}

/-- Every alternative is as `P` says, whatever numbers are drawn and whatever judgments are seen. -/
def All (P : α → Prop) : Search ν α → Prop
  | done => True
  | fail _ => True
  | give a k => P a ∧ (k ()).All P
  | draw k => ∀ n, (k n).All P
  | look k => ∀ js, (k js).All P
  | add _ k => (k ()).All P
  | note _ k => (k ()).All P

namespace All

theorem append {t : Search ν α} {u : Unit → Search ν α} (h : t.All P) (hu : (u ()).All P) :
    (t.append u).All P := by
  induction t with
  | done => exact hu
  | fail e => trivial
  | give a k ih => exact ⟨h.1, ih () h.2⟩
  | draw k ih => exact fun n => ih n (h n)
  | look k ih => exact fun js => ih js (h js)
  | add j k ih => exact ih () h
  | note x k ih => exact ih () h

theorem bind {R : β → Prop} {t : Search ν α} {f : α → Search ν β} (h : t.All P)
    (hf : ∀ a, P a → (f a).All R) : (t.bind f).All R := by
  induction t with
  | done => trivial
  | fail e => trivial
  | give a k ih => exact (hf a h.1).append (ih () h.2)
  | draw k ih => exact fun n => ih n (h n)
  | look k ih => exact fun js => ih js (h js)
  | add j k ih => exact ih () h
  | note x k ih => exact ih () h

theorem one {a : α} (h : P a) : (one a : Search ν α).All P := ⟨h, trivial⟩

theorem ofOption {x : Option β} {k : β → Search ν α} (h : ∀ b, (k b).All P) :
    (Search.ofOption x k).All P := by
  cases x with
  | none => trivial
  | some b => exact h b

theorem noteIf {b : Bool} {x : ν} {k : Unit → Search ν α} (h : (k ()).All P) :
    (Search.noteIf b x k).All P := by cases b <;> exact h

theorem ofDraws {d : Draws β} {k : β → Search ν α} (h : ∀ b, (k b).All P) :
    (Search.ofDraws d k).All P := by
  induction d with
  | ret b => exact h b
  | raise e => trivial
  | draw d ih => exact fun n => ih n

end All

/-- What follows the alternatives matters only where there are such alternatives. -/
theorem bind_congr {t : Search ν α} {f g : α → Search ν β} (h : t.All P) (hfg : ∀ a, P a → f a = g a) :
    t.bind f = t.bind g := by
  induction t with
  | done => rfl
  | fail e => rfl
  | give a k ih =>
    show (f a).append _ = (g a).append _
    rw [hfg a h.1, ih () h.2]
  | draw k ih => exact congrArg draw (funext fun n => ih n (h n))
  | look k ih => exact congrArg look (funext fun js => ih js (h js))
  | add j k ih => exact congrArg (add j) (funext fun _ => ih () h)
  | note x k ih => exact congrArg (note x) (funext fun _ => ih () h)

theorem all_unify {s : Subst} (hs : s.Acyclic) {t u : Term} {k : Subst → Search ν α}
    (h : ∀ r, r.Acyclic → (k r).All P) : (ofUnify (s.unify t u) k).All P := by
  cases hr : s.unify t u with
  | ok r => exact h r (Subst.unified_of_unify hs hr).acyclic
  | error x => cases x <;> trivial

theorem ofUnify_congr {s : Subst} (hs : s.Acyclic) {t u : Term} {k k' : Subst → Search ν α}
    (h : ∀ r, r.Acyclic → k r = k' r) : ofUnify (s.unify t u) k = ofUnify (s.unify t u) k' := by
  cases hr : s.unify t u with
  | ok r => exact h r (Subst.unified_of_unify hs hr).acyclic
  | error x => cases x <;> rfl

end Search

namespace Control
open Search
variable {κ : Type} {c : Control κ} {o : Options} {past : Option Fault} {env : Environment}
variable {s : Subst} {q : Term} {x : κ}

/-! ### No cycle is ever met -/

theorem all_matchAll (hs : s.Acyclic) (js : List Judgment) :
    (matchAll q s js : Search Note Subst).All Subst.Acyclic := by
  induction js with
  | nil => trivial
  | cons j js ih => exact (all_unify hs fun r hr => .one hr).append ih

theorem all_matchApart (hs : s.Acyclic) (js : List Judgment) :
    (matchApart q s js : Search Note Subst).All Subst.Acyclic := by
  induction js with
  | nil => trivial
  | cons j js ih => exact fun n => (all_unify hs fun r hr => .one hr).append ih

theorem all_known (hs : s.Acyclic) : (known env q s : Search Note Subst).All Subst.Acyclic :=
  All.append (t := (stored q s : Search Note Subst)) (fun js => all_matchApart hs js) (all_matchAll hs _)

theorem all_base (hs : s.Acyclic) : (base c o env x q s).All Subst.Acyclic := by
  have given : ∀ r : Subst, r.Acyclic → ∀ t,
      (noteIf o.traced (Note.event .hit (c.level x) t) fun _ => one r).All Subst.Acyclic :=
    fun r hr t => .noteIf (.one hr)
  refine (all_known hs).bind fun r hr => .ofOption fun t => ?_
  show (if _ then _ else _ : Search Note Subst).All _
  split
  · refine .ofDraws fun stopped => ?_
    split
    · exact .noteIf trivial
    · exact given r hr t
  · exact given r hr t

theorem all_expand {prove : κ → Term → Subst → Search Note Subst}
    (hp : ∀ x q s, s.Acyclic → (prove x q s).All Subst.Acyclic) (hs : s.Acyclic) :
    (expand c o prove x q s).All Subst.Acyclic := by
  unfold expand
  cases q.halves with
  | error e => trivial
  | ok pc =>
    intro m n
    refine all_unify hs fun r hr => .ofOption fun node => .ofDraws fun stopped => ?_
    split
    · exact .noteIf trivial
    · refine .noteIf (.ofDraws fun y => .ofDraws fun z k => ?_)
      exact (hp y _ r hr).bind fun r' hr' => hp z _ r' hr'

/-- Whatever the control does, the substitutions it lets through have no cycle. -/
theorem all_solve (n : Nat) (x : κ) (q : Term) (hs : s.Acyclic) :
    (solve c o past env n x q s).All Subst.Acyclic := by
  have noted : ∀ (x : κ) (q : Term) (s : Subst) (rest : Unit → Search Note Subst),
      (rest ()).All Subst.Acyclic → (goal o (c.level x) q s rest).All Subst.Acyclic := by
    intro x q s rest h
    unfold goal
    split
    · exact .ofOption fun t => .noteIf h
    · exact h
  induction n generalizing x q s with
  | zero =>
    refine noted x q s _ ((all_base hs).append ?_)
    cases past <;> trivial
  | succ n ih => exact noted x q s _ ((all_base hs).append (all_expand (fun x q s hs => ih x q hs) hs))

/-! ### The two searches are one -/

theorem base_eq_backward (hstop : ∀ t x, c.stop t x = .ret false) (recheck : Bool) (level : Datum)
    (hs : s.Acyclic) : base c { recheck } env x q s = Backward.base false level env q s := by
  have kept : ∀ r : Subst, (ofOption (r.instantiate? q) fun t =>
      if recheck then
        ofDraws (c.stop t x) fun stopped =>
          if stopped then noteIf false (.event .prune (c.level x) t) fun _ => done
          else noteIf false (.event .hit (c.level x) t) fun _ => one r
      else noteIf false (.event .hit (c.level x) t) fun _ => one r) =
      event false .hit level r q fun _ => (one r : Search Note Subst) := by
    intro r
    refine congrArg (ofOption (r.instantiate? q)) (funext fun t => ?_)
    rw [hstop]
    cases recheck <;> rfl
  rw [Backward.base, event_eq hs]
  exact congrArg (bind (known env q s)) (funext kept)

theorem expand_eq_backward (hstop : ∀ t x, c.stop t x = .ret false)
    (habs : ∀ t x, ∃ y, c.abs t x = .ret y) (harg : ∀ t x, ∃ y, c.arg t x = .ret y) (recheck : Bool)
    (level : Datum) {prove : κ → Term → Subst → Search Note Subst}
    {prove' : Term → Subst → Search Note Subst}
    (hp : ∀ x q s, s.Acyclic → prove x q s = prove' q s)
    (hall : ∀ x q s, s.Acyclic → (prove x q s).All Subst.Acyclic) (hs : s.Acyclic) :
    expand c { recheck } prove x q s = Backward.expand prove' false level q s 1 := by
  unfold expand Backward.expand
  refine congrArg (ofExcept q.halves) (funext fun pc => ?_)
  refine congrArg draw (funext fun m => congrArg draw (funext fun n => ?_))
  refine ofUnify_congr hs fun r hr => ?_
  obtain ⟨y, hy⟩ := habs (q.subst r.value) x
  obtain ⟨z, hz⟩ := harg (q.subst r.value) x
  rw [hr.instantiate?_eq, event_eq hr]
  simp only [ofOption, hstop, ofDraws, hy, hz]
  refine congrArg draw (funext fun k => ?_)
  let prms := Var.drawn "prms" k
  let head := Judgment.mk (.var (Var.drawn "abs" m)) (.arrow [.var prms] pc.2)
  let argument := Judgment.mk (.var (Var.drawn "arg" n)) (.var prms)
  show (prove y head.term r).bind (prove z argument.term) =
    (prove' head.term r).bind fun r' => (prove' argument.term r').bind one
  rw [← hp y _ r hr]
  refine bind_congr (hall y _ r hr) fun r' hr' => ?_
  rw [hp z _ r' hr', bind_one]

/-- With a bound on the levels and a control that never stops, and draws nothing when it updates its
contexts, the controlled search is the backward search within that depth. -/
theorem solve_eq_backward (hstop : ∀ t x, c.stop t x = .ret false)
    (habs : ∀ t x, ∃ y, c.abs t x = .ret y) (harg : ∀ t x, ∃ y, c.arg t x = .ret y) (recheck : Bool)
    (d : Nat) (x : κ) (q : Term) (hs : s.Acyclic) :
    solve c { recheck } none env d x q s = Backward.solve {} d env q s := by
  induction d generalizing x q s with
  | zero =>
    show (base c { recheck } env x q s).append (fun _ => done) = Backward.base false _ env q s
    rw [append_done, base_eq_backward hstop recheck _ hs]
  | succ d ih =>
    have hall : ∀ x q s, s.Acyclic → (solve c { recheck } none env d x q s).All Subst.Acyclic :=
      fun x q s hs => all_solve d x q hs
    have below : ∀ x q s, s.Acyclic →
        solve c { recheck } none env d x q s = Backward.solve {} d env q s := fun x q s hs => ih x q hs
    show (base c { recheck } env x q s).append _ = _
    rw [base_eq_backward hstop recheck (.int (d + 1)) hs]
    refine congrArg (append _) (funext fun _ => ?_)
    rw [expand_eq_backward hstop habs harg recheck (.int (d + 1)) below hall hs]
    -- one arity alone, and no abstraction after it
    show _ = append (append _ fun _ => done) fun _ => done
    rw [append_done, append_done]

/-- However far it is read and wherever it begins, the search of a control that never stops gives what
the backward search within the bound gives: the same substitutions with the same names in them, and the
counter left at the same number. Nothing is asked of the names. -/
theorem read_solutions_of_never (hstop : ∀ t x, c.stop t x = .ret false)
    (habs : ∀ t x, ∃ y, c.abs t x = .ret y) (harg : ∀ t x, ∃ y, c.arg t x = .ret y) (recheck : Bool)
    (d : Nat) (env : Environment) (q : Term) (hs : s.Acyclic) (limit : Option Nat) (w : World) :
    (c.solutions { recheck } env (.depth d) q s).read limit w =
      (Backward.solve {} d env q s).read limit w := by
  rw [solutions, solve_eq_backward hstop habs harg recheck d c.start q hs]

/-- Goes on at every query, and counts a numeral down for the arguments. -/
def heedless : Control Level :=
  .ofRules .keep .predecessor (fun _ _ => .ret false) (.term (.numeral 2))

/-- `$p : (L $prms_6)`, which holds a name that is drawn for a premise on the way. -/
def clashing : Judgment := ⟨.ofText "$p", .tuple [.ofText "L", .ofText "$prms_6"]⟩

/-- Of the five proofs there are the clash leaves four, with the control and without. -/
theorem read_solutions_of_never_clashing : Subst.chained.Acyclic ∧
    let w : World := ⟨[Backward.listing, ⟨.ofText "a", .ofText "A"⟩,
      ⟨.ofText "g", .arrow [.ofText "B"] (.tuple [.ofText "L", .ofText "C"])⟩,
      ⟨.ofText "b", .ofText "B"⟩], 0⟩
    (heedless.solutions { recheck := true } {} (.depth 1) clashing.term Subst.chained).read none w =
      (Backward.solve {} 1 {} clashing.term Subst.chained).read none w ∧
    ((Backward.solve {} 1 {} clashing.term Subst.chained).read none w).results.size = 4 :=
  ⟨Subst.acyclic_chained,
    read_solutions_of_never (fun _ _ => rfl) (fun _ _ => ⟨_, rfl⟩) (fun _ _ => ⟨_, rfl⟩) true 1 {}
      clashing.term Subst.acyclic_chained none _,
    by decide +kernel⟩

end Control
end ProofSearch
