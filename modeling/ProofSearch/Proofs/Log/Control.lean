import ProofSearch.Control.Rules
import ProofSearch.Proofs.Log.Forward

/-!
# Controlled search with a log

The program is the one without a log, with a place left for how the test is asked: as a computation that only
draws (`plain`), or as a search with a log of its own, which notes no events. What control functions return reaches
no unification, so the control may return what it likes; only where contexts get into the goals of such a search
they are to be kept as an invariant says (`Steady`).
-/

namespace ProofSearch

namespace Control
open Search Backward
variable {κ : Type} {c : Control κ} {ask : Term → κ → Search Note Bool} {K : Nat → κ → Prop} {o : Options}
variable {last : Option Fault} {env : Environment} {call : Call} {d n : Nat} {x : κ} {past : List Note}
variable {prove prove' : κ → Term → Subst → Search Note Subst}

/-- The test is asked without a log. -/
def plain (c : Control κ) (t : Term) (x : κ) : Search Note Bool := ofDraws (c.stop t x) one

def baseLogged (c : Control κ) (ask : Term → κ → Search Note Bool) (o : Options) (x : κ) (call : Call) :
    Search Note Subst :=
  (knownLogged call).bind fun r =>
    ofOption (r.instantiate? call.goal) fun t =>
      let given := noteIf o.traced (.event .hit (c.level x) t) fun _ => one r
      if o.recheck then
        (ask t x).bind fun stopped =>
          if stopped then noteIf o.traced (.event .prune (c.level x) t) fun _ => done else given
      else given

def expandLogged (c : Control κ) (ask : Term → κ → Search Note Bool) (o : Options)
    (prove : κ → Term → Subst → Search Note Subst) (x : κ) (call : Call) : Search Note Subst :=
  ofExcept call.goal.halves fun (proof, statement) =>
    drawVar "abs" fun abs => drawVar "arg" fun arg =>
      unifyLogged call proof (.tuple [.var abs, .var arg]) fun s =>
        ofOption (s.instantiate? call.goal) fun node =>
          (ask node x).bind fun stopped =>
            if stopped then noteIf o.traced (.event .prune (c.level x) node) fun _ => done
            else noteIf o.traced (.event .expand (c.level x) node) fun _ =>
              ofDraws (c.abs node x) fun y => ofDraws (c.arg node x) fun z =>
                drawVar "prms" fun prms =>
                  (prove y (Judgment.mk (.var abs) (.arrow [.var prms] statement)).term s).bind
                    (prove z (Judgment.mk (.var arg) (.var prms)).term)

def solveLogged (c : Control κ) (ask : Term → κ → Search Note Bool) (o : Options) (last : Option Fault)
    (env : Environment) : Nat → κ → Term → Subst → Search Note Subst
  | 0, x, q, s => log (.asked ⟨env, q, s⟩) fun _ => goal o (c.level x) q s fun _ =>
    (baseLogged c ask o x ⟨env, q, s⟩).append fun _ =>
      match last with
      | none => done
      | some e => fail e
  | n + 1, x, q, s => log (.asked ⟨env, q, s⟩) fun _ => goal o (c.level x) q s fun _ =>
    (baseLogged c ask o x ⟨env, q, s⟩).append fun _ =>
      expandLogged c ask o (solveLogged c ask o last env n) x ⟨env, q, s⟩

def solutionsLogged (c : Control κ) (ask : Term → κ → Search Note Bool) (o : Options) (b : Bound) (call : Call) :
    Search Note Subst :=
  match b with
  | .depth n => solveLogged c ask o none call.env n c.start call.goal call.sub
  | .unbounded => solveLogged c ask o (some .endless) call.env c.horizon c.start call.goal call.sub
  | .broken => solveLogged c ask o (some .mismatch) call.env 0 c.start call.goal call.sub

/-! ### The program without the log -/

theorem filterNotes_goal (o : Options) (level : Datum) (q : Term) (s : Subst) {k k' : Unit → Search Note Subst}
    (h : (k ()).filterNotes Note.isOwn = k' ()) :
    (goal o level q s k).filterNotes Note.isOwn = goal o level q s k' := by
  unfold goal
  split
  · simp [event, h]
  · exact h

section
variable (hask : ∀ t x, (ask t x).filterNotes Note.isOwn = c.plain t x)
include hask

theorem filterNotes_ask_bind {α : Type} (t : Term) (x : κ) (k : Bool → Search Note α) :
    ((ask t x).bind k).filterNotes Note.isOwn =
      ofDraws (c.stop t x) fun stopped => (k stopped).filterNotes Note.isOwn := by
  rw [filterNotes_bind, hask]
  exact ofDraws_one_bind _ _

theorem filterNotes_baseLogged (o : Options) (x : κ) (call : Call) :
    (baseLogged c ask o x call).filterNotes Note.isOwn = base c o call.env x call.goal call.sub := by
  unfold baseLogged base
  rw [filterNotes_bind, filterNotes_knownLogged]
  refine congrArg _ (funext fun r => ?_)
  rw [filterNotes_ofOption]
  refine congrArg _ (funext fun t => ?_)
  dsimp only
  split
  · rw [filterNotes_ask_bind hask]
    simp only [apply_ite (filterNotes Note.isOwn), filterNotes_noteIf, Note.isOwn_event, Bool.and_true,
      filterNotes_done, filterNotes_one]
  · simp

theorem filterNotes_expandLogged (h : ∀ x g s, (prove x g s).filterNotes Note.isOwn = prove' x g s) (o : Options)
    (x : κ) (call : Call) : (expandLogged c ask o prove x call).filterNotes Note.isOwn =
      expand c o prove' x call.goal call.sub := by
  unfold expandLogged expand
  simp only [filterNotes_ofExcept, filterNotes_drawVar, filterNotes_unifyLogged, filterNotes_ofOption,
    filterNotes_ask_bind hask, filterNotes_ofDraws, filterNotes_noteIf, filterNotes_bind, filterNotes_done, h,
    Note.isOwn_event, Bool.and_true, apply_ite (filterNotes Note.isOwn)]

theorem filterNotes_solveLogged (o : Options) (last : Option Fault) (env : Environment) (n : Nat) (x : κ)
    (q : Term) (s : Subst) :
    (solveLogged c ask o last env n x q s).filterNotes Note.isOwn = solve c o last env n x q s := by
  induction n generalizing x q s with
  | zero =>
    refine (filterNotes_log _ _).trans (filterNotes_goal o _ q s ?_)
    cases last <;> simp [filterNotes_baseLogged hask]
  | succ n ih =>
    refine (filterNotes_log _ _).trans (filterNotes_goal o _ q s ?_)
    simp only [filterNotes_append, filterNotes_baseLogged hask, filterNotes_expandLogged hask ih]

theorem filterNotes_solutionsLogged (o : Options) (b : Bound) (call : Call) :
    (solutionsLogged c ask o b call).filterNotes Note.isOwn = solutions c o call.env b call.goal call.sub := by
  cases b <;> exact filterNotes_solveLogged hask o _ call.env _ c.start call.goal call.sub

end

/-! ### What is settled -/

/-- At settled queries the contexts stay as `K` says, and where the test is asked there are fresh entries and nothing
else. -/
structure Steady (c : Control κ) (ask : Term → κ → Search Note Bool) (K : Nat → κ → Prop) : Prop where
  mono : ∀ m n x, m ≤ n → K m x → K n x
  abs : ∀ n t x y m, t.Settled n → K n x → (c.abs t x).run n = (.ok y, m) → K m y
  arg : ∀ n t x y m, t.Settled n → K n x → (c.arg t x).run n = (.ok y, m) → K m y
  ask : ∀ n t x past, t.Settled n → K n x →
    (ask t x).Throughout (Logs false) (fun _ past' _ => Entries past past') n past

theorem steady_plain (c : Control κ) : Steady c c.plain fun _ _ => True where
  mono _ _ _ _ _ := trivial
  abs _ _ _ _ _ _ _ _ := trivial
  arg _ _ _ _ _ _ _ _ := trivial
  ask _ _ _ past _ _ := .ofDraws fun _ _ _ _ => .one (.refl past)

/-- The goal is noted right behind the entry for its call. -/
theorem throughout_goal (call : Call) {level : Datum} {k : Unit → Search Note Subst} {P : Nat → List Note → Subst → Prop}
    (hasked : (Entry.asked call).Stands past) (h : ∀ past', (k ()).Throughout (Logs o.traced) P n past') :
    (goal o level call.goal call.sub k).Throughout (Logs o.traced) P n past := by
  unfold goal
  split
  · next htraced =>
    rw [htraced] at h ⊢
    exact Throughout.event (fun t ht => ⟨call, hasked, ht⟩) h
  · exact h past

section
variable (hc : Steady c ask K)
include hc

theorem Steady.throughout_ask {traced : Bool} {t : Term} (ht : t.Settled n) (hx : K n x) :
    (ask t x).Throughout (Logs traced) (fun _ past' _ => Entries past past') n past :=
  (hc.ask n t x past ht hx).imp (fun _ _ _ => Logs.mono) fun _ _ _ h => h

theorem keeps_baseLogged (h : call.Settled n) (hx : K n x) : (baseLogged c ask o x call).Keeps o.traced n := by
  refine fun past => (keeps_knownLogged h past).bind fun m past' r hm hr => .ofOption fun t ht => ?_
  obtain ⟨hr, hmatched⟩ := hr
  have given : ∀ i past'', m ≤ i → Entries past' past'' →
      (noteIf o.traced (.event .hit (c.level x) t) fun _ => one r : Search Note Subst).Throughout
        (Logs o.traced) (fun m _ r => r.Settled m) i past'' := fun i past'' hi hp =>
    .noteIf (fun htraced => .event _ htraced ⟨call, r, hmatched.mono hp, ht⟩) fun _ => .one (hr.mono hi)
  dsimp only
  split
  · have hset := hr.instantiate? (h.goal.mono hm) ht
    refine (hc.throughout_ask hset (hc.mono n m x hm hx)).bind fun i past'' stopped hi hp => ?_
    split
    · have hbound := hmatched.bound.mono hp
      exact .noteIf (fun htraced => .event _ htraced ⟨call.under r, hbound, ht⟩) fun _ => trivial
    · exact given i past'' hi hp
  · exact given m past' (Nat.le_refl m) (.refl past')

theorem keeps_expandLogged
    (hp : ∀ n x g s, (Call.mk call.env g s).Settled n → K n x → (prove x g s).Keeps o.traced n)
    (h : call.Settled n) (hx : K n x) : (expandLogged c ask o prove x call).Keeps o.traced n := by
  refine fun past => .ofExcept fun ⟨proof, statement⟩ hhalves => ?_
  obtain ⟨hproof, hstatement⟩ := h.goal.halves hhalves
  have habs := Var.settled_drawn "abs" (show n < n + 2 by omega)
  have harg := Var.settled_drawn "arg" (show n + 1 < n + 2 by omega)
  have hle : n ≤ n + 2 := by omega
  refine throughout_unifyLogged (n := n + 2) (h.mono hle) (hproof.mono hle) ?_ fun r _ hr => ?_
  · simp [habs, harg]
  refine .ofOption fun node hnode => ?_
  have hset := hr.instantiate? (h.goal.mono hle) hnode
  have hx := hc.mono _ _ x hle hx
  refine (hc.throughout_ask hset hx).bind fun m past' stopped hm hentries => ?_
  have hbound := (Entry.stands_concat past (.bound (call.under r))).mono hentries
  split
  · exact .noteIf (fun htraced => .event _ htraced ⟨call.under r, hbound, hnode⟩) fun _ => trivial
  refine .noteIf (fun htraced => .event _ htraced ⟨call.under r, .inr hbound, hnode⟩) fun past'' => ?_
  refine .ofDraws fun y i hi hy => .ofDraws fun z k hk hz => ?_
  have hxm := hc.mono _ m x hm hx
  have hy := hc.abs m node x y i (hset.mono hm) hxm hy
  have hz := hc.arg i node x z k (hset.mono (hm.trans hi)) (hc.mono m i x hi hxm) hz
  -- the two goals are proved one after the other, at counters behind the last draw
  have hle' : n + 2 ≤ k + 1 := by omega
  have hprms := Var.settled_drawn "prms" (Nat.lt_succ_self k)
  have henv := h.env.mono (hle.trans hle')
  refine Throughout.bind (n := k + 1) (hp _ y _ r ⟨henv, ?_, hr.mono hle'⟩ ?_ past'') fun l next r' hl hr' => ?_
  · simp [Term.settled_judgment, Term.settled_arrow, habs.mono hle', hprms,
      hstatement.mono (hle.trans hle')]
  · exact hc.mono i (k + 1) y (by omega) hy
  · refine hp l z _ r' ⟨henv.mono hl, ?_, hr'⟩ (hc.mono k l z (by omega) hz) next
    simp [Term.settled_judgment, harg.mono (hle'.trans hl), hprms.mono hl]

theorem keeps_solveLogged (d : Nat) {q : Term} {s : Subst} (h : (Call.mk env q s).Settled n) (hx : K n x) :
    (solveLogged c ask o last env d x q s).Keeps o.traced n := by
  intro past
  have hasked := Entry.stands_concat past (.asked ⟨env, q, s⟩)
  induction d generalizing q s x n past with
  | zero =>
    refine ⟨.entry (e := .asked _) h, throughout_goal ⟨env, q, s⟩ hasked fun past' => ?_⟩
    refine (keeps_baseLogged hc h hx past').append fun _ _ _ => ?_
    cases last <;> trivial
  | succ d ih =>
    refine ⟨.entry (e := .asked _) h, throughout_goal ⟨env, q, s⟩ hasked fun past' => ?_⟩
    refine (keeps_baseLogged hc h hx past').append fun m past'' hm => ?_
    refine keeps_expandLogged hc (fun n x g s h hx past => ?_) (h.mono hm) (hc.mono n m x hm hx) past''
    exact ih h hx past (Entry.stands_concat past _)

theorem keeps_solutionsLogged (b : Bound) (h : call.Settled n) (hx : K n c.start) :
    (solutionsLogged c ask o b call).Keeps o.traced n := by
  cases b <;> exact keeps_solveLogged hc _ h hx

end
end Control
end ProofSearch
