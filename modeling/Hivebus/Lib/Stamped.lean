import Mathlib.Data.List.Induction
import Mathlib.Data.List.Perm.Basic

namespace Lib

/-- A value with the stamp it was issued under, or nothing known yet. -/
abbrev Stamped (ι α : Type) := Option (ι × α)

namespace Stamped

variable {ι α : Type} [LE ι] [DecidableLE ι]

/-- The newer of two stamped values. At equal stamps the second one wins, so this is
a maximum only up to ties. -/
def join : Stamped ι α → Stamped ι α → Stamped ι α
  | v, none => v
  | none, some w => some w
  | some v, some w => if v.1 ≤ w.1 then some w else some v

/-- `i` is not below the stamp of `v`. -/
def Below (v : Stamped ι α) (i : ι) : Prop := ∀ w, v = some w → w.1 ≤ i

@[simp] theorem join_none_right (v : Stamped ι α) : join v none = v := by
  cases v <;> rfl

@[simp] theorem join_none_left (v : Stamped ι α) : join none v = v := by
  cases v <;> rfl

theorem join_some (v w : ι × α) :
    join (some v) (some w) = if v.1 ≤ w.1 then some w else some v := rfl

/-- Where two verdicts carry one stamp, and that stamp is not below what is known,
they carry one value. -/
def Agree (v p q : Stamped ι α) : Prop :=
  ∀ i a b, p = some (i, a) → q = some (i, b) → Below v i → a = b

/-- A verdict not older than what is known replaces it. -/
theorem join_of_below {v : Stamped ι α} {w : ι × α} (h : Below v w.1) : join v (some w) = some w := by
  cases v with
  | none => rfl
  | some x => simp [join, h x rfl]

theorem join_of_not_below {v : Stamped ι α} {w : ι × α} (h : ¬ Below v w.1) :
    join v (some w) = v := by
  cases v with
  | none => exact absurd (fun _ hx => nomatch hx) h
  | some x =>
    have hx : ¬ x.1 ≤ w.1 := by
      intro hle
      exact h (fun y hy => by cases hy; exact hle)
    simp [join, hx]

/-- The verdicts with the newest stamp, unless what is known is newer still, carry one
value. -/
def NewestAgree (v : Stamped ι α) (ps : List (Stamped ι α)) : Prop :=
  ∀ i a b, some (i, a) ∈ ps → some (i, b) ∈ ps → Below v i → (∀ p ∈ ps, Below p i) → a = b

variable [Std.IsLinearOrder ι]

theorem join_assoc (u v w : Stamped ι α) : join (join u v) w = join u (join v w) := by
  cases u with
  | none => simp
  | some x =>
    cases v with
    | none => simp
    | some y =>
      cases w with
      | none => simp
      | some z =>
        simp only [join]
        by_cases hxy : x.1 ≤ y.1 <;> by_cases hyz : y.1 ≤ z.1 <;> simp only [hxy, hyz, ↓reduceIte]
        · have hxz : x.1 ≤ z.1 := Std.le_trans hxy hyz
          simp [hxz]
        · have hxz : ¬ x.1 ≤ z.1 := by grind
          simp [hxz]

theorem below_join {u v : Stamped ι α} {i : ι} : Below (join u v) i ↔ Below u i ∧ Below v i := by
  cases u with
  | none => simp [Below]
  | some x =>
    cases v with
    | none => simp [Below]
    | some y =>
      simp only [Below, join, Option.some.injEq, forall_eq']
      split
      · next h =>
        simp only [Option.some.injEq, forall_eq']
        exact ⟨fun hy => ⟨Std.le_trans h hy, hy⟩, fun hy => hy.2⟩
      · next h =>
        simp only [Option.some.injEq, forall_eq']
        exact ⟨fun hx => ⟨hx, by grind⟩, fun hx => hx.1⟩

/-- A list of verdicts is one verdict. -/
theorem foldl_join (v : Stamped ι α) (ps : List (Stamped ι α)) :
    ps.foldl join v = join v (ps.foldl join none) := by
  induction ps generalizing v with
  | nil => simp
  | cons p ps ih =>
    rw [List.foldl_cons, List.foldl_cons, ih (join v p), ih (join none p), join_none_left, join_assoc]

/-- Either no verdict of the list reaches what is known, or one of them is the result
and none is newer. -/
theorem foldl_join_cases (v : Stamped ι α) (ps : List (Stamped ι α)) :
    (ps.foldl join v = v ∧ ∀ w, some w ∈ ps → ¬ Below v w.1) ∨
    (∃ w, some w ∈ ps ∧ ps.foldl join v = some w ∧ Below v w.1 ∧ ∀ p ∈ ps, Below p w.1) := by
  induction ps generalizing v with
  | nil => exact .inl ⟨rfl, by simp⟩
  | cons p ps ih =>
    cases p with
    | none =>
      rcases ih v with ⟨he, hn⟩ | ⟨w, hm, he, hv, hb⟩
      · exact .inl ⟨by simpa using he, by simpa using hn⟩
      · refine .inr ⟨w, by simp [hm], by simpa using he, hv, ?_⟩
        intro q hq
        rcases List.mem_cons.mp hq with rfl | hq
        · exact fun _ hx => nomatch hx
        · exact hb q hq
    | some x =>
      simp only [List.foldl_cons]
      by_cases hx : Below v x.1
      · rw [join_of_below hx]
        rcases ih (some x) with ⟨he, hn⟩ | ⟨w, hm, he, hw, hb⟩
        · refine .inr ⟨x, by simp, he, hx, ?_⟩
          intro q hq
          rcases List.mem_cons.mp hq with rfl | hq
          · intro y hy
            cases hy
            exact Std.le_refl _
          · intro y hy
            have hny := hn y (hy ▸ hq)
            have : ¬ x.1 ≤ y.1 := fun hle => hny (fun z hz => by cases hz; exact hle)
            grind
        · refine .inr ⟨w, by simp [hm], he, ?_, ?_⟩
          · intro y hy
            exact Std.le_trans (hx y hy) (hw x rfl)
          · intro q hq
            rcases List.mem_cons.mp hq with rfl | hq
            · exact hw
            · exact hb q hq
      · rw [join_of_not_below hx]
        rcases ih v with ⟨he, hn⟩ | ⟨w, hm, he, hv, hb⟩
        · refine .inl ⟨he, ?_⟩
          intro w hw
          rcases List.mem_cons.mp hw with hw | hw
          · cases hw
            exact hx
          · exact hn w hw
        · refine .inr ⟨w, by simp [hm], he, hv, ?_⟩
          intro q hq
          rcases List.mem_cons.mp hq with rfl | hq
          · intro y hy
            cases hy
            have : ∃ z, v = some z ∧ ¬ z.1 ≤ x.1 := by
              simpa [Below] using hx
            obtain ⟨z, hz, hzx⟩ := this
            have := hv z hz
            grind
          · exact hb q hq

/-- The result has a stamp that what is known or a verdict has, and none of them has a newer
one. -/
theorem foldl_join_newest {v : Stamped ι α} {ps : List (Stamped ι α)} {w : ι × α}
    (h : ps.foldl join v = some w) :
    (v = some w ∨ some w ∈ ps) ∧ Below v w.1 ∧ ∀ p ∈ ps, Below p w.1 := by
  rcases foldl_join_cases v ps with ⟨he, hn⟩ | ⟨x, hm, he, hv, hb⟩
  · rw [he] at h
    refine ⟨.inl h, ?_, ?_⟩
    · intro y hy
      rw [h] at hy
      cases hy
      exact Std.le_refl _
    · intro p hp y hy
      have hny := hn y (hy ▸ hp)
      have : ¬ w.1 ≤ y.1 := by
        intro hle
        apply hny
        intro z hz
        rw [h] at hz
        cases hz
        exact hle
      grind
  · rw [he] at h
    cases h
    exact ⟨.inr hm, hv, hb⟩

/-- Of the verdicts with the stamp of the result it is the last; without one it is what was
known. -/
theorem foldl_join_last [DecidableEq ι] {v : Stamped ι α} {ps : List (Stamped ι α)} {w : ι × α}
    (h : ps.foldl join v = some w) :
    (ps.filter (fun p => p.map Prod.fst = some w.1)).getLast?.getD v = some w := by
  induction ps using List.reverseRecOn with
  | nil => exact h
  | append_singleton ps p ih =>
    rw [List.foldl_append, List.foldl_cons, List.foldl_nil] at h
    rw [List.filter_append]
    cases p with
    | none =>
      rw [join_none_right] at h
      simpa using ih h
    | some x =>
      by_cases hx : Below (ps.foldl join v) x.1
      · rw [join_of_below hx] at h
        cases h
        simp
      · rw [join_of_not_below hx] at h
        have hne : x.1 ≠ w.1 := by
          intro he
          apply hx
          intro y hy
          rw [h] at hy
          cases hy
          exact he ▸ Std.le_refl _
        simpa [hne] using ih h

/-- Hearing a verdict again changes nothing. -/
theorem join_join_self (v p : Stamped ι α) : join (join v p) p = join v p := by
  have hp : join p p = p := by
    cases p with
    | none => rfl
    | some x => simp [join_some, Std.le_refl]
  rw [join_assoc, hp]

/-- Every order of the verdicts gives one result if and only if the newest of them
agree. -/
theorem foldl_join_perm_iff (v : Stamped ι α) (ps : List (Stamped ι α)) :
    (∀ qs : List (Stamped ι α), qs.Perm ps → qs.foldl join v = ps.foldl join v) ↔
      NewestAgree v ps := by
  constructor
  · intro h i a b ha hb hv hp
    have last : ∀ c, some (i, c) ∈ ps → ps.foldl join v = some (i, c) := by
      intro c hc
      obtain ⟨l, r, he⟩ := List.append_of_mem hc
      have hperm : (l ++ r ++ [some (i, c)]).Perm ps := by
        rw [he, List.append_assoc]
        exact (List.perm_append_comm).append_left l
      have hb : Below ((l ++ r).foldl join v) i := by
        rcases foldl_join_cases v (l ++ r) with ⟨hf, _⟩ | ⟨w, hm, hf, _, _⟩
        · rw [hf]
          exact hv
        · rw [hf]
          exact hp (some w) (hperm.mem_iff.mp (List.mem_append_left _ hm))
      rw [← h _ hperm, List.foldl_append]
      exact join_of_below (w := (i, c)) hb
    have := (last a ha).symm.trans (last b hb)
    simpa using this
  · intro h qs hq
    rcases foldl_join_cases v qs with ⟨he, hn⟩ | ⟨w, hm, he, hv, hb⟩
    · rcases foldl_join_cases v ps with ⟨he', _⟩ | ⟨w', hm', _, hv', _⟩
      · rw [he, he']
      · exact absurd hv' (hn w' (hq.mem_iff.mpr hm'))
    · rcases foldl_join_cases v ps with ⟨_, hn'⟩ | ⟨w', hm', he', hv', hb'⟩
      · exact absurd hv (hn' w (hq.mem_iff.mp hm))
      · have hle : w.1 ≤ w'.1 := hb' (some w) (hq.mem_iff.mp hm) w rfl
        have hge : w'.1 ≤ w.1 := hb (some w') (hq.mem_iff.mpr hm') w' rfl
        have hs : w.1 = w'.1 := Std.le_antisymm hle hge
        obtain ⟨i, a⟩ := w
        obtain ⟨j, b⟩ := w'
        cases hs
        rw [he, he', h i a b (hq.mem_iff.mp hm) hm' hv hb']

/-- Two verdicts may be taken in either order exactly when they do not tie. -/
theorem join_comm_iff (v p q : Stamped ι α) :
    join (join v p) q = join (join v q) p ↔ Agree v p q := by
  constructor
  · intro h i a b hp hq hv
    subst hp hq
    have hb : ∀ c, Below (join v (some (i, c))) i := fun c =>
      below_join.mpr ⟨hv, fun w hw => by cases hw; exact Std.le_refl _⟩
    rw [join_of_below (w := (i, b)) (hb a), join_of_below (w := (i, a)) (hb b)] at h
    simpa using h.symm
  · intro h
    cases p with
    | none => simp
    | some x =>
      cases q with
      | none => simp
      | some y =>
        obtain ⟨i, a⟩ := x
        obtain ⟨j, b⟩ := y
        rw [join_assoc, join_assoc]
        by_cases hij : i = j
        · subst hij
          simp only [join_some, Std.le_refl, ↓reduceIte]
          by_cases hv : Below v i
          · rw [h i a b rfl rfl hv]
          · rw [join_of_not_below (w := (i, b)) hv, join_of_not_below (w := (i, a)) hv]
        · congr 1
          simp only [join_some]
          by_cases hle : i ≤ j
          · have hn : ¬ j ≤ i := fun hge => hij (Std.le_antisymm hle hge)
            simp [hle, hn]
          · have hn : j ≤ i := by grind
            simp [hle, hn]

end Stamped

end Lib
