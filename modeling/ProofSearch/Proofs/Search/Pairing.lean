import ProofSearch.Environment
import ProofSearch.Proofs.Redraw
import ProofSearch.Proofs.Subst.MostGeneral
import ProofSearch.Proofs.Subst.Rename

/-!
# Numbers drawn at the same step

Two searches that do not do the same draw different numbers at the same step. A `Pairing` keeps the two
counters and those numbers that stand for each other, one to one. What one search holds is the image of
what the other holds when every permutation that follows the pairing takes it there. Steps done on both sides
keep images, whatever numbers have been drawn on one side alone.
-/

namespace ProofSearch
open Equiv (Perm)
variable {symbols : Bool}

/-- The counters of two searches, and the numbers drawn that stand for each other. -/
structure Pairing (symbols : Bool) where
  left : Nat
  right : Nat
  pairs : Nat → Nat → Prop
  bounded : ∀ i j, pairs i j → i < left ∧ j < right
  unique : ∀ i j i' j', pairs i j → pairs i' j' → (i = i' ↔ j = j')

namespace Pairing
variable {l l' l'' : Pairing symbols}

/-- The permutation puts each number into the place of the one it stands for. -/
def Follows (l : Pairing symbols) (π : Perm Nat) : Prop := ∀ i j, l.pairs i j → π i = j

def PartOf (l l' : Pairing symbols) : Prop := ∀ i j, l.pairs i j → l'.pairs i j

/-- Numbers have been drawn, and nothing else has changed. -/
structure GrowsTo (l l' : Pairing symbols) : Prop where
  left_le : l.left ≤ l'.left
  right_le : l.right ≤ l'.right
  partOf : l.PartOf l'
  fresh : ∀ i j, l'.pairs i j → l.pairs i j ∨ l.left ≤ i ∧ l.right ≤ j

theorem PartOf.follows (h : l.PartOf l') {π : Perm Nat} (hπ : l'.Follows π) : l.Follows π :=
  fun i j hi => hπ i j (h i j hi)

namespace GrowsTo

theorem refl (l : Pairing symbols) : l.GrowsTo l :=
  ⟨Nat.le_refl _, Nat.le_refl _, fun _ _ h => h, fun _ _ => .inl⟩

theorem trans (h : l.GrowsTo l') (h' : l'.GrowsTo l'') : l.GrowsTo l'' where
  left_le := h.left_le.trans h'.left_le
  right_le := h.right_le.trans h'.right_le
  partOf i j hi := h'.partOf i j (h.partOf i j hi)
  fresh i j hi := (h'.fresh i j hi).elim (h.fresh i j) fun hn =>
    .inr (hn.imp h.left_le.trans h.right_le.trans)

theorem follows (h : l.GrowsTo l') {π : Perm Nat} (hπ : l'.Follows π) : l.Follows π := h.partOf.follows hπ

end GrowsTo

/-- Each number below `n` stands for itself. -/
def start (symbols : Bool) (n : Nat) : Pairing symbols where
  left := n
  right := n
  pairs i j := i = j ∧ i < n
  bounded := by
    rintro i j ⟨rfl, hi⟩
    exact ⟨hi, hi⟩
  unique := by
    rintro i j i' j' ⟨rfl, -⟩ ⟨rfl, -⟩
    exact Iff.rfl

/-- Each search has drawn numbers of its own. -/
def raise (l : Pairing symbols) {m m' : Nat} (hm : l.left ≤ m) (hm' : l.right ≤ m') : Pairing symbols where
  left := m
  right := m'
  pairs := l.pairs
  bounded i j h := (l.bounded i j h).imp (·.trans_le hm) (·.trans_le hm')
  unique := l.unique

/-- Both searches have drawn their next number, and the two stand for each other. -/
def draw (l : Pairing symbols) : Pairing symbols where
  left := l.left + 1
  right := l.right + 1
  pairs i j := l.pairs i j ∨ i = l.left ∧ j = l.right
  bounded := by
    rintro i j (h | ⟨rfl, rfl⟩)
    · exact (l.bounded i j h).imp Nat.lt_succ_of_lt Nat.lt_succ_of_lt
    · exact ⟨Nat.lt_succ_self _, Nat.lt_succ_self _⟩
  unique := by
    rintro i j i' j' (h | ⟨rfl, rfl⟩) (h' | ⟨rfl, rfl⟩)
    · exact l.unique i j i' j' h h'
    · exact iff_of_false (l.bounded i j h).1.ne (l.bounded i j h).2.ne
    · exact iff_of_false (l.bounded i' j' h').1.ne' (l.bounded i' j' h').2.ne'
    · exact iff_of_true rfl rfl

/-- The pairs of both, at the counters of the first. -/
def join (g h : Pairing symbols) (hleft : h.left ≤ g.left) (hright : h.right ≤ g.right)
    (hunique : ∀ i j i' j', g.pairs i j → h.pairs i' j' → (i = i' ↔ j = j')) : Pairing symbols where
  left := g.left
  right := g.right
  pairs i j := g.pairs i j ∨ h.pairs i j
  bounded := by
    rintro i j (hi | hi)
    · exact g.bounded i j hi
    · exact (h.bounded i j hi).imp (·.trans_le hleft) (·.trans_le hright)
  unique := by
    rintro i j i' j' (hi | hi) (hi' | hi')
    · exact g.unique i j i' j' hi hi'
    · exact hunique i j i' j' hi hi'
    · rw [eq_comm, eq_comm (a := j)]
      exact hunique i' j' i j hi' hi
    · exact h.unique i j i' j' hi hi'

theorem growsTo_raise (l : Pairing symbols) {m m' : Nat} (hm : l.left ≤ m) (hm' : l.right ≤ m') :
    l.GrowsTo (l.raise hm hm') :=
  ⟨hm, hm', fun _ _ h => h, fun _ _ => .inl⟩

theorem growsTo_draw (l : Pairing symbols) : l.GrowsTo l.draw where
  left_le := Nat.le_succ _
  right_le := Nat.le_succ _
  partOf _ _ := .inl
  fresh := by
    rintro i j (h | ⟨rfl, rfl⟩)
    · exact .inl h
    · exact .inr ⟨Nat.le_refl _, Nat.le_refl _⟩

theorem follows_draw {π : Perm Nat} (h : l.draw.Follows π) : π l.left = l.right :=
  h _ _ (.inr ⟨rfl, rfl⟩)

theorem exists_follows (l : Pairing symbols) : ∃ π : Perm Nat, l.Follows π := by
  -- one number after the other: a swap puts `m` right and leaves those below, as pairs are one to one
  have upTo : ∀ m, ∃ π : Perm Nat, ∀ i j, l.pairs i j → i < m → π i = j := by
    intro m
    induction m with
    | zero => exact ⟨1, fun i j _ hi => absurd hi (Nat.not_lt_zero i)⟩
    | succ m ih =>
      obtain ⟨π, hπ⟩ := ih
      by_cases hm : ∃ k, l.pairs m k
      · obtain ⟨k, hk⟩ := hm
        refine ⟨Equiv.swap (π m) k * π, fun i j h hi => ?_⟩
        rcases Nat.lt_succ_iff_lt_or_eq.1 hi with hi | rfl
        · rw [Perm.mul_apply, Equiv.swap_apply_of_ne_of_ne]
          · exact hπ i j h hi
          · exact fun he => hi.ne (π.injective he)
          · exact fun he => hi.ne ((l.unique i j m k h hk).2 (hπ i j h hi ▸ he))
        · rw [Perm.mul_apply, Equiv.swap_apply_left]
          exact (l.unique i k i j hk h).1 rfl
      · refine ⟨π, fun i j h hi => ?_⟩
        rcases Nat.lt_succ_iff_lt_or_eq.1 hi with hi | rfl
        · exact hπ i j h hi
        · exact absurd ⟨j, h⟩ hm
  obtain ⟨π, hπ⟩ := upTo l.left
  exact ⟨π, fun i j h => hπ i j h (l.bounded i j h).1⟩

/-- Nothing is said of a number that stands for none. -/
theorem exists_follows_ne (l : Pairing symbols) {k : Nat} (hk : ∀ j, ¬ l.pairs k j) :
    ∃ π π' : Perm Nat, l.Follows π ∧ l.Follows π' ∧ π k ≠ π' k := by
  obtain ⟨π, hπ⟩ := l.exists_follows
  let m := max l.right (π k + 1)
  have hm : π k ≠ m := by omega
  refine ⟨π, Equiv.swap (π k) m * π, hπ, fun i j hi => ?_, ?_⟩
  · have hright := (l.bounded i j hi).2
    rw [Perm.mul_apply, hπ i j hi, Equiv.swap_apply_of_ne_of_ne]
    · rintro rfl
      exact hk _ (π.injective (hπ i _ hi) ▸ hi)
    · omega
  · rwa [Perm.mul_apply, Equiv.swap_apply_left]

end Pairing

/-! ### Images -/

variable {l l' : Pairing symbols} {s s' : Subst} {t t' u u' q q' : Term} {j j' : Judgment} {n : Nat}
variable {env env' : Environment}

def Term.Image (l : Pairing symbols) (t t' : Term) : Prop :=
  ∀ π, l.Follows π → t.rename (.redraw symbols π) = t'

structure Judgment.Image (l : Pairing symbols) (j j' : Judgment) : Prop where
  proof : Term.Image l j.proof j'.proof
  statement : Term.Image l j.statement j'.statement

/-- Neither substitution has a cycle, and one is the other with the numbers that stand for its own. -/
structure Subst.Image (l : Pairing symbols) (s s' : Subst) : Prop where
  acyclic : s.Acyclic
  acyclic' : s'.Acyclic
  rename : ∀ π, l.Follows π → s.rename (.redraw symbols π) = s'

def Environment.Image (l : Pairing symbols) (env env' : Environment) : Prop :=
  List.Forall₂ (Judgment.Image l) env.entries env'.entries

/-- The symbol keeps its name, whatever permutation follows the pairing. -/
def Sym.Kept (l : Pairing symbols) (c : Sym) : Prop :=
  ∀ π, l.Follows π → (Renaming.redraw symbols π).sym c = c

/-- Every symbol in the judgment keeps its name. -/
def Judgment.Kept (l : Pairing symbols) (j : Judgment) : Prop := ∀ c ∈ j.term.syms, c.Kept l

namespace Sym

theorem kept_of_ne (l : Pairing symbols) {c : Sym} (h : ∀ k, c ≠ drawn k) : c.Kept l := fun π _ => by
  cases symbols with
  | false => rfl
  | true => exact redraw_of_ne π h

theorem kept_of_head_ne (l : Pairing symbols) {c : Sym} (h : c.text.toList.head? ≠ some 'x') : c.Kept l :=
  kept_of_ne l fun k hk => settled_of_head_ne h k k (Nat.le_refl k) (congrArg Sym.text hk)

end Sym

namespace Term

theorem Image.mono (h : Image l t t') (hl : l.GrowsTo l') : Image l' t t' := fun π hπ =>
  h π (hl.follows hπ)

theorem image_sym {c : Sym} (h : c.Kept l) : Image l (sym c) (sym c) := fun π hπ => congrArg sym (h π hπ)

theorem image_tuple {ts ts' : List Term} (h : List.Forall₂ (Image l) ts ts') :
    Image l (tuple ts) (tuple ts') := fun π hπ => by
  rw [rename_tuple]
  congr 1
  induction h with
  | nil => rfl
  | cons ht _ ih => rw [List.map_cons, ht π hπ, ih]

theorem image_vars {vs vs' : List Var} (h : List.Forall₂ (fun v v' => Image l (var v) (var v')) vs vs') :
    List.Forall₂ (Image l) (vs.map var) (vs'.map var) :=
  List.forall₂_map_left_iff.2 (List.forall₂_map_right_iff.2 h)

theorem image_arrow {ps ps' : List Term} (h : List.Forall₂ (Image l) ps ps') (ht : Image l t t') :
    Image l (arrow ps t) (arrow ps' t') :=
  image_tuple (List.rel_append (.cons (image_sym (Sym.kept_of_head_ne l (by decide))) h) (.cons ht .nil))

theorem image_abstraction (ht : Image l t t') (hu : Image l u u') :
    Image l (abstraction t u) (abstraction t' u') :=
  image_tuple (.cons (image_sym (Sym.kept_of_head_ne l (by decide))) (.cons ht (.cons hu .nil)))

theorem image_drawn (l : Pairing symbols) (stem : String) (h : stem.toList ≠ []) :
    Image l.draw (var (Var.drawn stem l.left)) (var (Var.drawn stem l.right)) := fun π hπ => by
  rw [rename_var, ← Pairing.follows_draw hπ]
  exact congrArg var (Var.redraw_drawn π h _)

theorem image_drawnAtom (l : Pairing true) :
    Image l.draw (drawnAtom "x" l.left) (drawnAtom "x" l.right) := fun π hπ => by
  rw [drawnAtom_x, drawnAtom_x, ← Pairing.follows_draw hπ]
  exact congrArg sym (Sym.redraw_drawn π _)

/-- No variable of a term that has an image ends in a number still to be drawn, since nothing is said of what
goes into the place of that. -/
theorem Image.tag_notMem (h : Image l t t') {k : Nat} (hk : l.left ≤ k) (v : Var) :
    v.tag (ending k) ∉ t.vars := by
  intro hv
  obtain ⟨π, π', hπ, hπ', hne⟩ := l.exists_follows_ne fun j hj => Nat.not_le_of_lt (l.bounded k j hj).1 hk
  have hsame := var_eq_of_rename_eq ((h π hπ).trans (h π' hπ').symm) _ hv
  have htag : v.tag (ending (π k)) = v.tag (ending (π' k)) := by
    rw [← Var.redraw_tag, ← Var.redraw_tag]
    exact hsame
  have hpair : (v, π k) = (v, π' k) := Var.tagging.injective htag
  exact hne (congrArg Prod.snd hpair)

/-- For the same reason the drawn symbols of such a term are those of numbers that stand for others. -/
theorem Image.exists_pair {l : Pairing true} (h : Image l t t') {k : Nat} (hk : Sym.drawn k ∈ t.syms) :
    ∃ j, l.pairs k j := by
  by_contra hnone
  obtain ⟨π, π', hπ, hπ', hne⟩ := l.exists_follows_ne fun j hj => hnone ⟨j, hj⟩
  have hsame := sym_eq_of_rename_eq ((h π hπ).trans (h π' hπ').symm) _ hk
  have hdrawn : Sym.drawn (π k) = Sym.drawn (π' k) := by
    rw [← Sym.redraw_drawn, ← Sym.redraw_drawn]
    exact hsame
  exact hne (Sym.drawn_injective hdrawn)

/-- A symbol of such a term keeps its name, or it gets that of the number that its own stands for. -/
theorem Image.sym_redraw (h : Image l t t') {π : Perm Nat} (hπ : l.Follows π) {c : Sym} (hc : c ∈ t.syms) :
    (Renaming.redraw symbols π).sym c = c ∨ symbols = true ∧ ∃ i j, l.pairs i j ∧ c = Sym.drawn i ∧
      (Renaming.redraw symbols π).sym c = Sym.drawn j := by
  cases symbols with
  | false => exact .inl rfl
  | true =>
    by_cases hdrawn : ∃ i, c = Sym.drawn i
    · obtain ⟨i, rfl⟩ := hdrawn
      obtain ⟨j, hj⟩ := h.exists_pair hc
      exact .inr ⟨rfl, i, j, hj, rfl, (Sym.redraw_drawn π i).trans (congrArg Sym.drawn (hπ i j hj))⟩
    · exact .inl (Sym.redraw_of_ne π fun i hi => hdrawn ⟨i, hi⟩)

theorem Image.symsSettled (h : Image l t t') : t.SymsSettled symbols l.left := by
  rintro c hc rfl k hk htext
  obtain rfl := Sym.eq_drawn_of_text htext
  obtain ⟨j, hj⟩ := h.exists_pair hc
  exact Nat.not_le_of_lt (l.bounded k j hj).1 hk

theorem image_start (hvars : t.Settled n) (hsyms : t.SymsSettled symbols n) :
    Image (.start symbols n) t t := fun _ hπ =>
  rename_redraw_eq_self hvars hsyms fun i hi => hπ i i ⟨rfl, hi⟩

end Term

namespace Judgment

theorem Image.mono (h : Image l j j') (hl : l.GrowsTo l') : Image l' j j' :=
  ⟨h.proof.mono hl, h.statement.mono hl⟩

theorem Image.term (h : Image l j j') : Term.Image l j.term j'.term :=
  Term.image_tuple (.cons (Term.image_sym (Sym.kept_of_head_ne l (by decide)))
    (.cons h.proof (.cons h.statement .nil)))

theorem Kept.mono (h : j.Kept l) (hl : l.GrowsTo l') : j.Kept l' := fun c hc π hπ =>
  h c hc π (hl.follows hπ)

theorem image_tag (h : j.Kept l) :
    Term.Image l.draw (j.tag (ending l.left)).term (j.tag (ending l.right)).term := fun π hπ => by
  refine Term.rename_subst_of_syms (fun c hc => h c hc π (l.growsTo_draw.follows hπ)) fun v _ => ?_
  rw [← Pairing.follows_draw hπ]
  exact congrArg Term.var (Var.redraw_tag π v _)

theorem kept_start (h : j.term.SymsSettled symbols n) : j.Kept (.start symbols n) := fun c hc _ hπ =>
  (Renaming.spares_redraw fun i hi => hπ i i ⟨rfl, hi⟩).sym c (h c hc)

theorem image_start (hvars : j.term.Settled n) (hsyms : j.term.SymsSettled symbols n) :
    Image (.start symbols n) j j := by
  obtain ⟨hproof, hstatement⟩ := Term.settled_judgment.1 hvars
  have part : ∀ t ∈ [.sym .colon, j.proof, j.statement], t.SymsSettled symbols n := fun t ht c hc =>
    hsyms c (Term.mem_syms_tuple.2 ⟨t, ht, hc⟩)
  exact ⟨Term.image_start hproof (part _ (by simp)), Term.image_start hstatement (part _ (by simp))⟩

end Judgment

namespace Subst

theorem Image.mono (h : Image l s s') (hl : l.GrowsTo l') : Image l' s s' :=
  ⟨h.acyclic, h.acyclic', fun π hπ => h.rename π (hl.follows hπ)⟩

theorem image_empty (l : Pairing symbols) : Image l empty empty :=
  ⟨acyclic_empty, acyclic_empty, fun _ _ => rfl⟩

theorem Image.subst_value (hs : Image l s s') (ht : Term.Image l t t') :
    Term.Image l (t.subst s.value) (t'.subst s'.value) := fun π hπ => by
  have h := instantiate?_rename (.redraw symbols π) s t
  rw [hs.rename π hπ, ht π hπ, hs.acyclic.instantiate?_eq, hs.acyclic'.instantiate?_eq] at h
  exact (Option.some.inj h).symm

/-- A walk ends in a variable on both sides or on neither. -/
theorem Image.walk? (hs : Image l s s') (ht : Term.Image l t t') (hu : s.walk? t = some u) :
    ∃ u', s'.walk? t' = some u' ∧ Term.Image l u u' := by
  have walked : ∀ π, l.Follows π → s'.walk? t' = some (u.rename (.redraw symbols π)) := fun π hπ => by
    rw [← hs.rename π hπ, ← ht π hπ, walk?_rename, hu]
    rfl
  obtain ⟨π, hπ⟩ := l.exists_follows
  exact ⟨_, walked π hπ, fun π' hπ' => Option.some.inj ((walked π' hπ').symm.trans (walked π hπ))⟩

end Subst

namespace Environment

theorem Image.mono (h : Image l env env') (hl : l.GrowsTo l') : Image l' env env' :=
  List.Forall₂.imp (fun _ _ h => h.mono hl) h

theorem Image.extend (h : Image l env env') (hj : Judgment.Image l j j') :
    Image l (env.extend j) (env'.extend j') :=
  List.rel_append h (.cons hj .nil)

theorem image_start (hvars : env.Settled n) (hsyms : ∀ j ∈ env.entries, j.term.SymsSettled symbols n) :
    Image (.start symbols n) env env :=
  List.forall₂_same.2 fun j hj => Judgment.image_start (hvars j hj) (hsyms j hj)

end Environment

end ProofSearch
