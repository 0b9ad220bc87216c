import Mathlib.Data.List.Basic

namespace Lib.Split

variable {α : Type} {p : α → Bool}

/-- A piece of a split has no separator in it, and nothing that was not there before. -/
theorem mem_piece {xs piece : List α} (h : piece ∈ xs.splitOnP p) {a : α} (ha : a ∈ piece) :
    p a = false ∧ a ∈ xs := by
  induction xs generalizing piece with
  | nil =>
    rw [List.splitOnP_nil, List.mem_singleton] at h
    rw [h] at ha
    cases ha
  | cons x xs ih =>
    obtain ⟨hd, tl, hsplit⟩ := List.exists_cons_of_ne_nil (List.splitOnP_ne_nil p xs)
    rw [hsplit] at ih
    rw [List.splitOnP_cons_eq_if_modifyHead, hsplit] at h
    have later : piece ∈ hd :: tl → p a = false ∧ a ∈ x :: xs := by
      intro hm
      obtain ⟨hp, hin⟩ := ih hm ha
      exact ⟨hp, List.mem_cons_of_mem x hin⟩
    split at h
    · rcases List.mem_cons.mp h with rfl | h
      · cases ha
      · exact later h
    · next hx =>
      rw [List.modifyHead_cons] at h
      rcases List.mem_cons.mp h with rfl | h
      · rcases List.mem_cons.mp ha with rfl | ha
        · exact ⟨by simpa using hx, List.mem_cons_self⟩
        · obtain ⟨hp, hin⟩ := ih List.mem_cons_self ha
          exact ⟨hp, List.mem_cons_of_mem x hin⟩
      · exact later (List.mem_cons_of_mem hd h)

/-- Splitting loses the separators and nothing else. -/
theorem exists_piece_iff {a : α} (ha : p a = false) (xs : List α) :
    (∃ piece ∈ xs.splitOnP p, a ∈ piece) ↔ a ∈ xs := by
  constructor
  · intro hex
    obtain ⟨piece, hpiece, hm⟩ := hex
    exact (mem_piece hpiece hm).2
  · intro hm
    induction xs with
    | nil => cases hm
    | cons x xs ih =>
      obtain ⟨hd, tl, hsplit⟩ := List.exists_cons_of_ne_nil (List.splitOnP_ne_nil p xs)
      rw [List.splitOnP_cons_eq_if_modifyHead, hsplit]
      rw [hsplit] at ih
      split
      · next hx =>
        rcases List.mem_cons.mp hm with rfl | hm
        · rw [ha] at hx
          cases hx
        · obtain ⟨piece, hpiece, hin⟩ := ih hm
          exact ⟨piece, List.mem_cons_of_mem [] hpiece, hin⟩
      · rcases List.mem_cons.mp hm with rfl | hm
        · exact ⟨a :: hd, List.mem_cons_self, List.mem_cons_self⟩
        · obtain ⟨piece, hpiece, hin⟩ := ih hm
          rcases List.mem_cons.mp hpiece with rfl | hpiece
          · exact ⟨x :: piece, List.mem_cons_self, List.mem_cons_of_mem x hin⟩
          · exact ⟨piece, List.mem_cons_of_mem (x :: hd) hpiece, hin⟩

/-- What has no separator in it stays in front of the first piece. -/
theorem splitOnP_append {pre : List α} (h : ∀ a ∈ pre, p a = false) (xs : List α) :
    (pre ++ xs).splitOnP p = (xs.splitOnP p).modifyHead (pre ++ ·) := by
  induction pre with
  | nil =>
    rw [List.nil_append]
    cases xs.splitOnP p <;> rfl
  | cons x pre ih =>
    have hx : ¬ p x = true := by simp [h x List.mem_cons_self]
    rw [List.cons_append, List.splitOnP_cons_eq_if_modifyHead, if_neg hx,
      ih (fun a ha => h a (List.mem_cons_of_mem x ha)), List.modifyHead_modifyHead]
    rfl

theorem mem_intercalate {sep : List α} {parts : List (List α)} {a : α}
    (h : a ∈ sep.intercalate parts) : a ∈ sep ∨ ∃ part ∈ parts, a ∈ part := by
  induction parts with
  | nil => cases h
  | cons x parts ih =>
    cases parts with
    | nil =>
      rw [List.intercalate_singleton] at h
      exact .inr ⟨x, List.mem_cons_self, h⟩
    | cons y parts =>
      rw [List.intercalate_cons_cons, List.append_assoc, List.mem_append, List.mem_append] at h
      rcases h with h | h | h
      · exact .inr ⟨x, List.mem_cons_self, h⟩
      · exact .inl h
      · rcases ih h with h | ⟨part, hp, h⟩
        · exact .inl h
        · exact .inr ⟨part, List.mem_cons_of_mem x hp, h⟩

end Lib.Split
