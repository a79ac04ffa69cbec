import ProofSearch.Proofs.Backward.Soundness
import ProofSearch.Proofs.Log.Call

/-!
# Backward search with a log

The same program, except that it leaves an entry where it comes to a call, where it binds and where it tries a
stored judgment (`filterNotes_solveLogged`, `filterNotes_solveUncheckedLogged`). If the calls one level down keep
what is settled, so does the level above (`keeps_stepLogged`): what it hands down is made of what it was handed and
of names it has drawn before. Neither the names stored nor cycles among the bindings matter. An event comes right
behind the entry that tells of it.
-/

namespace ProofSearch.Backward
open Search
variable {o : SearchOptions} {level : Datum} {n i : Nat} {c : Call} {env : Environment} {q : Term} {s : Subst}
variable {prove : Term → Subst → Search Note Subst} {below : Environment → Term → Subst → Search Note Subst}
variable {past : List Note} {traced : Bool}

def baseLogged (traced : Bool) (level : Datum) (c : Call) : Search Note Subst :=
  event traced .goal level c.sub c.goal fun _ =>
    (knownLogged c).bind fun r => event traced .hit level r c.goal fun _ => one r

def expandLogged (prove : Term → Subst → Search Note Subst) (traced : Bool) (level : Datum) (c : Call)
    (arity : Nat) : Search Note Subst :=
  ofExcept c.goal.halves fun (proof, statement) =>
    drawVar "abs" fun abs => drawVars "arg" arity fun args =>
      unifyLogged c proof (.tuple ((abs :: args).map .var)) fun s =>
        event traced .expand level s c.goal fun _ =>
          drawVars "prms" arity fun prms =>
            (prove (Judgment.mk (.var abs) (.arrow (prms.map .var) statement)).term s).bind
              (proveAll prove (goals args prms))

def nameBoundLogged (x : Var) (c : Call) (k : Subst → Search Note Subst) : Search Note Subst :=
  ofOption (c.sub.walk? (.var x)) fun
    | .var _ => draw fun n => unifyLogged c (.var x) (.drawnAtom "x" n) k
    | _ => k c.sub

def introduceLogged (prove : Environment → Term → Subst → Search Note Subst) (traced : Bool) (level : Datum)
    (c : Call) : Search Note Subst :=
  ofExcept c.goal.halves fun (proof, statement) =>
    drawVar "x" fun x => drawVar "body" fun body => drawVar "a" fun a => drawVar "b" fun b =>
      unifyLogged c proof (.abstraction (.var x) (.var body)) fun s =>
        unifyLogged ⟨c.env, c.goal, s⟩ statement (.arrow [.var a] (.var b)) fun s =>
          nameBoundLogged x ⟨c.env, c.goal, s⟩ fun s =>
            event traced .expand level s c.goal fun _ =>
              ofOption (s.instantiate? (.var x)) fun bound => ofOption (s.instantiate? (.var a)) fun premise =>
                prove (c.env.extend ⟨bound, premise⟩) (Judgment.mk (.var body) (.var b)).term s

/-- The ways that need a level, in turn. -/
def deeperLogged (o : SearchOptions) (level : Datum)
    (below : Environment → Term → Subst → Search Note Subst) (c : Call) : Search Note Subst :=
  ((ofList o.arities.counts).bind (expandLogged (below c.env) o.traced level c)).append fun _ =>
    if o.arities.broken then breakOff c.goal
    else if o.lambdaIntro then introduceLogged below o.traced level c
    else done

/-- The last level of a search. -/
def lastLogged (o : SearchOptions) (level : Datum) (env : Environment) (q : Term) (s : Subst) :
    Search Note Subst :=
  log (.asked ⟨env, q, s⟩) fun _ => baseLogged o.traced level ⟨env, q, s⟩

/-- A level with others below it. -/
def stepLogged (o : SearchOptions) (level : Datum)
    (below : Environment → Term → Subst → Search Note Subst) (env : Environment) (q : Term) (s : Subst) :
    Search Note Subst :=
  log (.asked ⟨env, q, s⟩) fun _ =>
    (baseLogged o.traced level ⟨env, q, s⟩).append fun _ => deeperLogged o level below ⟨env, q, s⟩

def solveLogged (o : SearchOptions) : Nat → Environment → Term → Subst → Search Note Subst
  | 0 => lastLogged o (.int 0)
  | d + 1 => stepLogged o (.int (d + 1)) (solveLogged o d)

def solveFractionLogged (o : SearchOptions) : Nat → Float → Environment → Term → Subst → Search Note Subst
  | 0, depth => lastLogged o (.float depth)
  | n + 1, depth => stepLogged o (.float depth) (solveFractionLogged o n (depth - 1))

def solveUncheckedLogged (o : SearchOptions) (depth : Datum) (env : Environment) (q : Term) (s : Subst) :
    Search Note Subst :=
  match depth with
  | .int (.ofNat d) => solveLogged o d env q s
  | .int _ | .bool false => lastLogged o depth env q s
  | .bool true => stepLogged o depth (solveLogged o 0) env q s
  | .float f => solveFractionLogged o f.ceil.toUInt64.toNat f env q s
  | _ => (lastLogged o depth env q s).append fun _ => fail .mismatch

/-! ### The program without the log -/

@[simp] theorem filterNotes_baseLogged (traced : Bool) (level : Datum) (c : Call) :
    (baseLogged traced level c).filterNotes Note.isOwn = base traced level c.env c.goal c.sub := by
  simp [baseLogged, base, event]

theorem filterNotes_proveAll {prove' : Term → Subst → Search Note Subst} {p : Note → Bool}
    (h : ∀ g s, (prove g s).filterNotes p = prove' g s) (gs : List Term) (s : Subst) :
    (proveAll prove gs s).filterNotes p = proveAll prove' gs s := by
  induction gs generalizing s with
  | nil => rfl
  | cons g gs ih => simp [proveAll, h, ih]

theorem filterNotes_expandLogged {prove' : Term → Subst → Search Note Subst}
    (h : ∀ g s, (prove g s).filterNotes Note.isOwn = prove' g s) (traced : Bool) (level : Datum) (c : Call)
    (arity : Nat) : (expandLogged prove traced level c arity).filterNotes Note.isOwn =
      expand prove' traced level c.goal c.sub arity := by
  simp [expandLogged, expand, event, h, filterNotes_proveAll h]

theorem filterNotes_nameBoundLogged (x : Var) (c : Call) {k k' : Subst → Search Note Subst}
    (h : ∀ r, (k r).filterNotes Note.isOwn = k' r) :
    (nameBoundLogged x c k).filterNotes Note.isOwn = nameBound x c.sub k' := by
  rw [nameBoundLogged, nameBound, filterNotes_ofOption]
  refine congrArg _ (funext fun t => ?_)
  cases t <;> simp [h]

theorem filterNotes_introduceLogged {below' : Environment → Term → Subst → Search Note Subst}
    (h : ∀ env g s, (below env g s).filterNotes Note.isOwn = below' env g s) (traced : Bool) (level : Datum)
    (c : Call) : (introduceLogged below traced level c).filterNotes Note.isOwn =
      introduce below' traced level c.env c.goal c.sub := by
  simp only [introduceLogged, introduce, filterNotes_ofExcept, filterNotes_drawVar, filterNotes_unifyLogged]
  have named : ∀ (x body a b : Var) (s : Subst), (nameBoundLogged x ⟨c.env, c.goal, s⟩ fun s =>
      event traced .expand level s c.goal fun _ => ofOption (s.instantiate? (.var x)) fun bound =>
        ofOption (s.instantiate? (.var a)) fun premise =>
          below (c.env.extend ⟨bound, premise⟩) (Judgment.mk (.var body) (.var b)).term s).filterNotes
            Note.isOwn =
      nameBound x s fun s => event traced .expand level s c.goal fun _ =>
        ofOption (s.instantiate? (.var x)) fun bound => ofOption (s.instantiate? (.var a)) fun premise =>
          below' (c.env.extend ⟨bound, premise⟩) (Judgment.mk (.var body) (.var b)).term s :=
    fun x body a b s => filterNotes_nameBoundLogged x ⟨c.env, c.goal, s⟩ fun r => by
      simp [event, h]
  simp only [named]

theorem filterNotes_deeperLogged {below' : Environment → Term → Subst → Search Note Subst}
    (h : ∀ env g s, (below env g s).filterNotes Note.isOwn = below' env g s) (o : SearchOptions)
    (level : Datum) (c : Call) :
    ((baseLogged o.traced level c).append fun _ => deeperLogged o level below c).filterNotes Note.isOwn =
      ways o level below' c.env c.goal c.sub := by
  have hbreak : (breakOff c.goal).filterNotes Note.isOwn = breakOff c.goal := by simp [breakOff]
  unfold deeperLogged ways
  simp only [filterNotes_append, filterNotes_bind, filterNotes_ofList, filterNotes_baseLogged,
    filterNotes_expandLogged (h c.env)]
  split
  · rw [hbreak]
  · split
    · rw [filterNotes_introduceLogged h]
    · rfl

theorem filterNotes_stepLogged {below' : Environment → Term → Subst → Search Note Subst}
    (h : ∀ env g s, (below env g s).filterNotes Note.isOwn = below' env g s) (o : SearchOptions)
    (level : Datum) (env : Environment) (q : Term) (s : Subst) :
    (stepLogged o level below env q s).filterNotes Note.isOwn = ways o level below' env q s :=
  (filterNotes_log _ _).trans (filterNotes_deeperLogged h o level ⟨env, q, s⟩)

theorem filterNotes_lastLogged (o : SearchOptions) (level : Datum) (env : Environment) (q : Term) (s : Subst) :
    (lastLogged o level env q s).filterNotes Note.isOwn = base o.traced level env q s := by
  simp [lastLogged]

theorem filterNotes_solveLogged (o : SearchOptions) (d : Nat) (env : Environment) (q : Term) (s : Subst) :
    (solveLogged o d env q s).filterNotes Note.isOwn = solve o d env q s := by
  induction d generalizing env q s with
  | zero => exact filterNotes_lastLogged o _ env q s
  | succ d ih => exact filterNotes_stepLogged ih o _ env q s

theorem filterNotes_solveFractionLogged (o : SearchOptions) (n : Nat) (depth : Float) (env : Environment)
    (q : Term) (s : Subst) :
    (solveFractionLogged o n depth env q s).filterNotes Note.isOwn = solveFraction o n depth env q s := by
  induction n generalizing depth env q s with
  | zero => exact filterNotes_lastLogged o _ env q s
  | succ n ih => exact filterNotes_stepLogged (ih (depth - 1)) o _ env q s

theorem filterNotes_solveUncheckedLogged (o : SearchOptions) (depth : Datum) (env : Environment) (q : Term)
    (s : Subst) :
    (solveUncheckedLogged o depth env q s).filterNotes Note.isOwn = solveUnchecked o depth env q s := by
  have other : ((lastLogged o depth env q s).append fun _ => fail .mismatch).filterNotes Note.isOwn =
      (base o.traced depth env q s).append fun _ => fail .mismatch := by
    rw [filterNotes_append, filterNotes_lastLogged]
    rfl
  match depth with
  | .int (.ofNat d) => exact filterNotes_solveLogged o d env q s
  | .int (.negSucc d) => exact filterNotes_lastLogged o _ env q s
  | .bool false => exact filterNotes_lastLogged o _ env q s
  | .bool true => exact filterNotes_stepLogged (filterNotes_solveLogged o 0) o _ env q s
  | .float f => exact filterNotes_solveFractionLogged o _ f env q s
  | .null | .text _ | .list _ | .tuple _ | .dict _ => exact other

theorem filterNotes_expand_untraced (h : ∀ g s, (prove g s).filterNotes (fun _ => false) = prove g s)
    (level : Datum) (q : Term) (s : Subst) (arity : Nat) :
    (expand prove false level q s arity).filterNotes (fun _ => false) = expand prove false level q s arity := by
  simp [expand, event, h, filterNotes_proveAll h]

/-- The search by applications to one argument leaves no note at all. -/
theorem filterNotes_solve_untraced (d : Nat) (env : Environment) (q : Term) (s : Subst) :
    (solve {} d env q s).filterNotes (fun _ => false) = solve {} d env q s := by
  induction d generalizing env q s with
  | zero => simp [solve, base, event]
  | succ d ih => simp [solve, ways, base, event, filterNotes_expand_untraced (ih env)]

/-! ### What is settled -/

/-- Whatever settled call the program is run for keeps what is settled. -/
def KeepsAll (traced : Bool) (below : Environment → Term → Subst → Search Note Subst) : Prop :=
  ∀ (n : Nat) (c : Call), c.Settled n → (below c.env c.goal c.sub).Keeps traced n

/-- The goal is noted right behind the entry for its call, and a match right behind that for its bindings. -/
theorem keeps_baseLogged (h : c.Settled n) (hasked : (Entry.asked c).Stands past) (level : Datum) :
    (baseLogged traced level c).Throughout (Logs traced) (fun m _ r => r.Settled m) n past := by
  refine Throughout.event (fun t ht => ⟨c, hasked, ht⟩) fun past' => ?_
  refine (keeps_knownLogged h past').bind fun m past'' r _ hr => ?_
  exact Throughout.event (fun t ht => ⟨c, r, hr.2, ht⟩) fun _ => .one hr.1

theorem keeps_proveAll (hp : KeepsAll traced below) {gs : List Judgment} (henv : env.Settled n)
    (hs : s.Settled n) (hgs : ∀ g ∈ gs, g.term.Settled n) :
    (proveAll (below env) (gs.map Judgment.term) s).Keeps traced n := by
  induction gs generalizing s n with
  | nil => exact fun _ => .one hs
  | cons g gs ih =>
    obtain ⟨hg, hgs⟩ := List.forall_mem_cons.1 hgs
    refine fun past => (hp n ⟨env, g.term, s⟩ ⟨henv, hg, hs⟩ past).bind fun m past' r hm hr => ?_
    exact ih (henv.mono hm) hr (fun g hmem => (hgs g hmem).mono hm) past'

theorem settled_drawn_head (n k : Nat) :
    (Term.tuple ((Var.drawn "abs" n :: Var.drawnList "arg" (n + 1) k).map .var)).Settled (n + 1 + k) := by
  rw [Term.settled_tuple, List.forall_mem_map]
  intro v hv
  rw [Term.settled_var]
  rcases List.mem_cons.1 hv with rfl | hv
  · exact Var.settled_drawn "abs" (by omega)
  · exact Var.settled_of_mem_drawnList hv (Nat.le_refl _)

theorem keeps_expandLogged (hp : KeepsAll traced below) (h : c.Settled n) (level : Datum) (k : Nat) :
    (expandLogged (below c.env) traced level c k).Keeps traced n := by
  refine fun past => .ofExcept fun ⟨proof, statement⟩ hhalves => ?_
  obtain ⟨hproof, hstatement⟩ := h.goal.halves hhalves
  show Throughout _ _ (drawVars "arg" k _) (n + 1) past
  have hle : n ≤ n + 1 + k := by omega
  refine Throughout.drawVars (throughout_unifyLogged (h.mono hle) (hproof.mono hle) (settled_drawn_head n k) ?_)
  intro r _ hr
  have hbound := Entry.stands_concat past (.bound (c.under r))
  refine Throughout.event (fun t ht => ⟨c.under r, .inr hbound, ht⟩) fun past' => Throughout.drawVars ?_
  have hle' : n ≤ n + 1 + k + k := by omega
  have hgoals := settled_subgoals (settled_drawn_application (Nat.le_refl (n + 1 + k + k)))
    (hstatement.mono hle')
  obtain ⟨hhead, hargs⟩ := List.forall_mem_cons.1 hgoals
  rw [goals_eq]
  have hcall : (Call.mk c.env _ r).Settled (n + 1 + k + k) :=
    ⟨h.env.mono hle', hhead, hr.mono (Nat.le_add_right _ k)⟩
  refine (hp _ _ hcall past').bind fun m past'' r' hm hr' => ?_
  exact keeps_proveAll hp (h.env.mono (hle'.trans hm)) hr' (fun g hg => (hargs g hg).mono hm) past''

/-- Whether the symbol is made or not, the last entry is one for the bindings there are then. -/
theorem keeps_nameBoundLogged {x : Var} {k : Subst → Search Note Subst} (h : c.Settled n) (hx : x.Settled n)
    (hbound : (Entry.bound c).Stands past)
    (hk : ∀ (m : Nat) (past' : List Note) (r : Subst), n ≤ m → r.Settled m →
      (Entry.bound (c.under r)).Stands past' →
      (k r).Throughout (Logs traced) (fun m _ r => r.Settled m) m past') :
    (nameBoundLogged x c k).Throughout (Logs traced) (fun m _ r => r.Settled m) n past := by
  refine .ofOption fun t _ => ?_
  split
  · have hsym : (Term.drawnAtom "x" n).Settled (n + 1) :=
      Term.settled_drawnAtom (c := 'x') (by decide) rfl (n + 1) n
    have hnext := Nat.le_succ n
    refine throughout_unifyLogged (n := n + 1) (h.mono hnext) ?_ hsym fun r _ hr =>
      hk (n + 1) _ r hnext hr (Entry.stands_concat past _)
    exact Term.settled_var.2 (hx.mono hnext)
  · exact hk n past c.sub (Nat.le_refl n) h.sub hbound

theorem keeps_introduceLogged (hp : KeepsAll traced below) (h : c.Settled n) (level : Datum) :
    (introduceLogged below traced level c).Keeps traced n := by
  refine fun past => .ofExcept fun ⟨proof, statement⟩ hhalves => ?_
  obtain ⟨hproof, hstatement⟩ := h.goal.halves hhalves
  have hnames := settled_drawn_abstraction (Nat.le_refl (n + 4))
  simp only [List.forall_mem_cons, List.not_mem_nil, IsEmpty.forall_iff, implies_true, and_true] at hnames
  obtain ⟨hx, hbody, ha, hb⟩ := hnames
  have hc := h.mono (show n ≤ n + 4 by omega)
  refine throughout_unifyLogged (n := n + 4) hc (hproof.mono (by omega)) ?_ fun r _ hr => ?_
  · simp [Term.settled_abstraction, hx, hbody]
  refine throughout_unifyLogged ⟨hc.env, hc.goal, hr⟩ (hstatement.mono (by omega)) ?_ fun r' _ hr' => ?_
  · simp [Term.settled_arrow, ha, hb]
  refine keeps_nameBoundLogged ⟨hc.env, hc.goal, hr'⟩ hx (Entry.stands_concat _ _) ?_
  intro m past' r'' hm hr'' hbound
  refine Throughout.event (fun t ht => ⟨_, .inr hbound, ht⟩) fun past'' => ?_
  refine .ofOption fun bound hbound => .ofOption fun premise hpremise => ?_
  -- the entry that is added is what the two variables stand for
  have hbound := hr''.instantiate? (Term.settled_var.2 (hx.mono hm)) hbound
  have hpremise := hr''.instantiate? (Term.settled_var.2 (ha.mono hm)) hpremise
  refine hp m ⟨_, _, r''⟩ ⟨(hc.env.mono hm).extend ?_, ?_, hr''⟩ past''
  · exact Term.settled_judgment.2 ⟨hbound, hpremise⟩
  · exact Term.settled_judgment.2 ⟨Term.settled_var.2 (hbody.mono hm), Term.settled_var.2 (hb.mono hm)⟩

theorem keeps_breakOff (q : Term) : (breakOff q).Keeps traced n := fun _ => .ofExcept fun _ _ => trivial

theorem keeps_deeperLogged (hp : KeepsAll o.traced below) (h : c.Settled n) (level : Datum) :
    (deeperLogged o level below c).Keeps o.traced n := by
  refine fun past => Throughout.append (Throughout.ofList_bind fun k _ m past' hm => ?_) fun m past' hm => ?_
  · exact keeps_expandLogged hp (h.mono hm) level k past'
  · split
    · exact keeps_breakOff c.goal past'
    · split
      · exact keeps_introduceLogged hp (h.mono hm) level past'
      · trivial

theorem keeps_lastLogged (o : SearchOptions) (level : Datum) : KeepsAll o.traced (lastLogged o level) :=
  fun _ c h past =>
    ⟨.entry (e := .asked c) h, keeps_baseLogged h (Entry.stands_concat past (.asked c)) level⟩

theorem keeps_stepLogged (hp : KeepsAll o.traced below) (level : Datum) :
    KeepsAll o.traced (stepLogged o level below) := fun _ c h past => by
  refine ⟨.entry (e := .asked c) h, Throughout.append ?_ fun _ past' hm => ?_⟩
  · exact keeps_baseLogged h (Entry.stands_concat past (.asked c)) level
  · exact keeps_deeperLogged hp (h.mono hm) level past'

theorem keeps_solveLogged (o : SearchOptions) (d : Nat) : KeepsAll o.traced (solveLogged o d) := by
  induction d with
  | zero => exact keeps_lastLogged o _
  | succ d ih => exact keeps_stepLogged ih _

theorem keeps_solveFractionLogged (o : SearchOptions) (n : Nat) (depth : Float) :
    KeepsAll o.traced (solveFractionLogged o n depth) := by
  induction n generalizing depth with
  | zero => exact keeps_lastLogged o _
  | succ n ih => exact keeps_stepLogged (ih (depth - 1)) _

theorem keeps_solveUncheckedLogged (o : SearchOptions) (depth : Datum) :
    KeepsAll o.traced (solveUncheckedLogged o depth) := by
  intro n c h
  unfold solveUncheckedLogged
  split
  · exact keeps_solveLogged o _ n c h
  · exact keeps_lastLogged o _ n c h
  · exact keeps_lastLogged o _ n c h
  · exact keeps_stepLogged (keeps_solveLogged o 0) _ n c h
  · exact keeps_solveFractionLogged o _ _ n c h
  · exact fun past => (keeps_lastLogged o _ n c h past).append fun _ _ _ => trivial

end ProofSearch.Backward
