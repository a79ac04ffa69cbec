import Mathlib.Data.List.Induction
import Mathlib.Data.List.Nodup

/-!
# Entries by first occurrence

The variables of a term and the names a proof rests on are listed each once, by first occurrence. One entry
more, at the end, is put in where it is new (`eraseDups_concat`); so the list is in the order of the first
occurrences (`pairwise_eraseDups`), and renaming the entries one to one renames what is kept
(`eraseDups_map`).
-/

namespace ProofSearch
variable {α β : Type} [BEq α] [LawfulBEq α] [BEq β] [LawfulBEq β]

theorem eraseDups_concat (l : List α) (a : α) :
    (l ++ [a]).eraseDups = if a ∈ l then l.eraseDups else l.eraseDups ++ [a] := by
  rw [List.eraseDups_append]
  by_cases ha : a ∈ l
  · simp [List.removeAll, ha]
  · simp [List.removeAll, ha, List.eraseDups_cons]

theorem pairwise_eraseDups (l : List α) : l.eraseDups.Pairwise fun a b => l.idxOf a < l.idxOf b := by
  induction l using List.reverseRecOn with
  | nil => exact .nil
  | append_singleton l c ih =>
    have hl : l.eraseDups.Pairwise fun a b => (l ++ [c]).idxOf a < (l ++ [c]).idxOf b := by
      refine ih.imp_of_mem fun ha hb hab => ?_
      rw [List.mem_eraseDups] at ha hb
      rwa [List.idxOf_append_of_mem ha, List.idxOf_append_of_mem hb]
    rw [eraseDups_concat]
    split
    · exact hl
    · next hc =>
      refine List.pairwise_append.2 ⟨hl, List.pairwise_singleton _ c, fun a ha b hb => ?_⟩
      obtain rfl := List.mem_singleton.1 hb
      rw [List.mem_eraseDups] at ha
      rw [List.idxOf_append_of_mem ha, List.idxOf_append, if_neg hc]
      exact Nat.lt_add_left _ (List.idxOf_lt_length_of_mem ha)

theorem nodup_eraseDups (l : List α) : l.eraseDups.Nodup := by
  refine List.Pairwise.imp (fun {a b} hab => ?_) (pairwise_eraseDups l)
  rintro rfl
  exact Nat.lt_irrefl _ hab

theorem eraseDups_map {f : α → β} {l : List α} (hf : ∀ a ∈ l, ∀ b ∈ l, f a = f b → a = b) :
    (l.map f).eraseDups = l.eraseDups.map f := by
  induction l using List.reverseRecOn with
  | nil => rfl
  | append_singleton l c ih =>
    have hl : (l.map f).eraseDups = l.eraseDups.map f := ih fun a ha b hb =>
      hf a (List.mem_append_left _ ha) b (List.mem_append_left _ hb)
    have hc : f c ∈ l.map f ↔ c ∈ l := by
      refine ⟨fun h => ?_, List.mem_map_of_mem⟩
      obtain ⟨a, ha, he⟩ := List.mem_map.1 h
      exact hf a (List.mem_append_left _ ha) c (by simp) he ▸ ha
    rw [List.map_append, List.map_singleton, eraseDups_concat, eraseDups_concat, hl, if_congr hc rfl rfl,
      apply_ite (List.map f), List.map_append, List.map_singleton]

end ProofSearch
