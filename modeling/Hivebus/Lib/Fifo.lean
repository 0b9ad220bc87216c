import Mathlib.Data.List.InsertIdx

namespace Lib.Fifo

/-- What can happen to a queue on its way: an entry is lost, or arrives twice. Entries
never overtake each other. -/
inductive Mishap where
  | lose (i : Nat)
  | double (i : Nat)

def suffer (xs : List α) : Mishap → List α
  | .lose i => xs.eraseIdx i
  | .double i => xs.take (i + 1) ++ xs.drop i

theorem suffer_map (f : α → β) (xs : List α) (m : Mishap) :
    suffer (xs.map f) m = (suffer xs m).map f := by
  cases m with
  | lose i => exact List.eraseIdx_map ..
  | double i => simp only [suffer, List.map_append, List.map_take, List.map_drop]

theorem mem_of_mem_suffer {x : α} {xs : List α} {m : Mishap} (h : x ∈ suffer xs m) : x ∈ xs := by
  cases m with
  | lose i => exact List.mem_of_mem_eraseIdx h
  | double i =>
    rcases List.mem_append.mp h with h | h
    · exact List.mem_of_mem_take h
    · exact List.mem_of_mem_drop h

theorem suffer_pairwise {R : α → α → Prop} (hr : ∀ x, R x x) {xs : List α} (h : xs.Pairwise R)
    (m : Mishap) : (suffer xs m).Pairwise R := by
  cases m with
  | lose i => exact h.sublist (List.eraseIdx_sublist xs i)
  | double i =>
    rw [suffer, List.pairwise_append]
    refine ⟨h.sublist (List.take_sublist _ _), h.sublist (List.drop_sublist _ _), ?_⟩
    intro a ha b hb
    obtain ⟨p, hp, rfl⟩ := List.mem_take_iff_getElem.mp ha
    obtain ⟨q, hq, rfl⟩ := List.mem_drop_iff_getElem.mp hb
    rcases Nat.lt_or_ge p (i + q) with hlt | hge
    · exact List.pairwise_iff_getElem.mp h p (i + q) _ _ hlt
    · have he : p = i + q := by omega
      subst he
      exact hr _

/-- Numbers in order between two bounds. -/
structure Window (lo hi : Nat) (xs : List Nat) : Prop where
  sorted : xs.Pairwise (· ≤ ·)
  within : ∀ x ∈ xs, lo ≤ x ∧ x ≤ hi

namespace Window

theorem nil (lo hi : Nat) : Window lo hi [] := ⟨.nil, fun _ h => nomatch h⟩

theorem suffer {lo hi : Nat} {xs : List Nat} (h : Window lo hi xs) (m : Mishap) :
    Window lo hi (Fifo.suffer xs m) :=
  ⟨suffer_pairwise Nat.le_refl h.sorted m, fun x hx => h.within x (mem_of_mem_suffer hx)⟩

theorem widen {lo hi hi' : Nat} {xs : List Nat} (h : Window lo hi xs) (hle : hi ≤ hi') :
    Window lo hi' xs :=
  ⟨h.sorted, fun x hx => ⟨(h.within x hx).1, Nat.le_trans (h.within x hx).2 hle⟩⟩

/-- What is sent last is the newest. -/
theorem push {lo hi : Nat} {xs : List Nat} (h : Window lo hi xs) (hle : lo ≤ hi) :
    Window lo hi (xs ++ [hi]) := by
  constructor
  · rw [List.pairwise_append]
    refine ⟨h.sorted, List.pairwise_singleton _ _, ?_⟩
    intro a ha b hb
    rw [List.mem_singleton.mp hb]
    exact (h.within a ha).2
  · intro x hx
    rcases List.mem_append.mp hx with hx | hx
    · exact h.within x hx
    · rw [List.mem_singleton.mp hx]
      exact ⟨hle, Nat.le_refl _⟩

/-- Once an entry has arrived nothing older follows. -/
theorem tail {lo hi x : Nat} {xs : List Nat} (h : Window lo hi (x :: xs)) : Window x hi xs := by
  have hs := List.pairwise_cons.mp h.sorted
  exact ⟨hs.2, fun y hy => ⟨hs.1 y hy, (h.within y (List.mem_cons_of_mem _ hy)).2⟩⟩

theorem lower {lo lo' hi : Nat} {xs : List Nat} (h : Window lo hi xs) (hle : lo' ≤ lo) :
    Window lo' hi xs :=
  ⟨h.sorted, fun x hx => ⟨Nat.le_trans hle (h.within x hx).1, (h.within x hx).2⟩⟩

end Window

end Lib.Fifo
