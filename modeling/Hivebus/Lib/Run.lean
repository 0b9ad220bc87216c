import Mathlib.Data.List.Basic

namespace Lib.Run

variable {σ ε : Type} {step : σ → ε → σ}

/-- The state a machine is in after a list of events. -/
def exec (step : σ → ε → σ) (s : σ) (es : List ε) : σ := es.foldl step s

/-- Each event of the run meets `P` in the state it is taken from. -/
def Along (step : σ → ε → σ) (P : σ → ε → Prop) (s : σ) (es : List ε) : Prop :=
  ∀ pre e post, es = pre ++ e :: post → P (exec step s pre) e

/-- Every state the run passes through, its first and last included, meets `Q`. -/
def Throughout (step : σ → ε → σ) (Q : σ → Prop) (s : σ) (es : List ε) : Prop :=
  ∀ pre post, es = pre ++ post → Q (exec step s pre)

@[simp] theorem exec_nil (s : σ) : exec step s [] = s := rfl

@[simp] theorem exec_cons (s : σ) (e : ε) (es : List ε) :
    exec step s (e :: es) = exec step (step s e) es := rfl

@[simp] theorem exec_append (s : σ) (es fs : List ε) :
    exec step s (es ++ fs) = exec step (exec step s es) fs := List.foldl_append

/-- A view of the state that steps as another machine does runs as that machine. -/
theorem exec_hom {τ : Type} {step' : τ → ε → τ} (view : σ → τ)
    (h : ∀ s e, view (step s e) = step' (view s) e) (s : σ) (es : List ε) :
    view (exec step s es) = exec step' (view s) es :=
  (List.foldl_hom view (fun s e => (h s e).symm)).symm

theorem along_nil (P : σ → ε → Prop) (s : σ) : Along step P s [] := by
  intro pre e post h
  simp at h

theorem along_cons {P : σ → ε → Prop} {s : σ} {e : ε} {es : List ε} :
    Along step P s (e :: es) ↔ P s e ∧ Along step P (step s e) es := by
  constructor
  · intro h
    refine ⟨h [] e es rfl, ?_⟩
    intro pre f post he
    exact h (e :: pre) f post (by rw [he]; rfl)
  · intro both pre f post he
    obtain ⟨hp, ht⟩ := both
    cases pre with
    | nil => cases he; exact hp
    | cons g pre =>
      cases he
      exact ht pre f post rfl

theorem throughout_nil {Q : σ → Prop} {s : σ} : Throughout step Q s [] ↔ Q s := by
  constructor
  · intro h
    exact h [] [] rfl
  · intro h pre post he
    obtain ⟨rfl, rfl⟩ := List.append_eq_nil_iff.mp he.symm
    exact h

theorem throughout_cons {Q : σ → Prop} {s : σ} {e : ε} {es : List ε} :
    Throughout step Q s (e :: es) ↔ Q s ∧ Throughout step Q (step s e) es := by
  constructor
  · intro h
    refine ⟨h [] (e :: es) rfl, ?_⟩
    intro pre post he
    exact h (e :: pre) post (by rw [he]; rfl)
  · intro both pre post he
    obtain ⟨hq, ht⟩ := both
    cases pre with
    | nil => exact hq
    | cons g pre =>
      cases he
      exact ht pre post rfl

/-- A run stays in `Q` for one more event when the event leads into it. -/
theorem throughout_concat {Q : σ → Prop} {s : σ} {es : List ε} {e : ε}
    (h : Throughout step Q s es) (he : Q (exec step s (es ++ [e]))) :
    Throughout step Q s (es ++ [e]) := by
  intro pre post hp
  rcases List.append_eq_append_iff.mp hp.symm with ⟨as, hes, _⟩ | ⟨as, hpre, hlast⟩
  · exact h pre as hes
  · cases as with
    | nil =>
      rw [List.append_nil] at hpre
      rw [hpre]
      exact h es [] (List.append_nil es).symm
    | cons a as =>
      obtain ⟨rfl, ht⟩ := List.cons.inj hlast
      obtain ⟨rfl, _⟩ := List.append_eq_nil_iff.mp ht.symm
      rw [hpre]
      exact he

theorem along_segment {P : σ → ε → Prop} {s : σ} {pre seg post : List ε}
    (h : Along step P s (pre ++ seg ++ post)) : Along step P (exec step s pre) seg := by
  intro a e b he
  rw [← exec_append]
  exact h (pre ++ a) e (b ++ post) (by simp [he])

/-- What holds at the start and survives every event holds after every run. -/
theorem exec_invariant {I : σ → Prop} (h : ∀ s e, I s → I (step s e)) {s : σ}
    (h0 : I s) (es : List ε) : I (exec step s es) := by
  induction es generalizing s with
  | nil => exact h0
  | cons e es ih => exact ih (h s e h0)

/-- The rule for an invariant that survives the events of one kind, on a run of such events. -/
theorem exec_invariant_of_all {I : σ → Prop} {C : ε → Prop} (h : ∀ s e, I s → C e → I (step s e))
    {s : σ} (h0 : I s) {es : List ε} (hc : ∀ e ∈ es, C e) : I (exec step s es) := by
  induction es generalizing s with
  | nil => exact h0
  | cons e es ih =>
    obtain ⟨he, hes⟩ := List.forall_mem_cons.mp hc
    exact ih (h s e h0 he) hes

/-- The rule for an invariant that speaks of what has happened so far. -/
theorem exec_history {I : List ε → σ → Prop} {s : σ} (h0 : I [] s)
    (h : ∀ es e, I es (exec step s es) → I (es ++ [e]) (step (exec step s es) e)) (es : List ε) :
    I es (exec step s es) := by
  have go : ∀ post pre, I pre (exec step s pre) → I (pre ++ post) (exec step s (pre ++ post)) := by
    intro post
    induction post with
    | nil => exact fun pre hp => by rwa [List.append_nil]
    | cons e post ih =>
      intro pre hp
      have he := ih (pre ++ [e]) (by rw [exec_append]; exact h pre e hp)
      rwa [List.append_assoc] at he
  exact go es [] h0

/-- The same rule for an invariant that only survives events meeting `C`. -/
theorem throughout_of_along {I : σ → Prop} {C : σ → ε → Prop}
    (h : ∀ s e, I s → C s e → I (step s e)) {s : σ} (h0 : I s) {es : List ε}
    (hc : Along step C s es) : Throughout step I s es := by
  induction es generalizing s with
  | nil => exact throughout_nil.mpr h0
  | cons e es ih =>
    obtain ⟨he, ht⟩ := along_cons.mp hc
    exact throughout_cons.mpr ⟨h0, ih (h s e h0 he) ht⟩

/-- When `C` says exactly which events keep the invariant, a run stays inside it
if and only if all its events meet `C`. -/
theorem throughout_iff_along {I : σ → Prop} {C : σ → ε → Prop}
    (h : ∀ s e, I s → (I (step s e) ↔ C s e)) {s : σ} (h0 : I s) (es : List ε) :
    Throughout step I s es ↔ Along step C s es := by
  refine ⟨?_, throughout_of_along (fun s e hs hc => (h s e hs).mpr hc) h0⟩
  intro ht
  induction es generalizing s with
  | nil => exact along_nil C s
  | cons e es ih =>
    obtain ⟨_, ht⟩ := throughout_cons.mp ht
    have hnext : I (step s e) := ht [] es rfl
    exact along_cons.mpr ⟨(h s e h0).mp hnext, ih hnext ht⟩

/-- How many events of a run meet a test in the state they are taken from. -/
def count (step : σ → ε → σ) (p : σ → ε → Bool) : σ → List ε → Nat
  | _, [] => 0
  | s, e :: es => (p s e).toNat + count step p (step s e) es

/-- A measure that never grows and that the counted events lower bounds their number. -/
theorem count_add_le {p : σ → ε → Bool} {I : σ → Prop} {m : σ → Nat}
    (hinv : ∀ s e, I s → I (step s e)) (h : ∀ s e, I s → (p s e).toNat + m (step s e) ≤ m s)
    {s : σ} (h0 : I s) (es : List ε) : count step p s es + m (exec step s es) ≤ m s := by
  induction es generalizing s with
  | nil => exact Nat.le_of_eq (Nat.zero_add _)
  | cons e es ih =>
    have hs := h s e h0
    have hrest := ih (hinv s e h0)
    rw [count, exec_cons]
    omega

/-- A register that an event overwrites or leaves alone holds what was written into it last. -/
theorem exec_last_write {V : Type} (get : σ → V) {write : ε → Option V}
    (h : ∀ s e, get (step s e) = (write e).getD (get s)) (s : σ) (es : List ε) :
    get (exec step s es) = ((es.filterMap write).getLast?).getD (get s) := by
  induction es generalizing s with
  | nil => rfl
  | cons e es ih =>
    rw [exec_cons, ih, h]
    cases hw : write e with
    | none => rw [List.filterMap_cons_none hw, Option.getD_none]
    | some v =>
      rw [List.filterMap_cons_some hw, Option.getD_some, List.getLast?_cons, Option.getD_some]

/-- A log that an event adds to or leaves alone holds what was added, in order. -/
theorem exec_log {V : Type} (log : σ → List V) {entry : ε → Option V}
    (h : ∀ s e, log (step s e) = log s ++ (entry e).toList) (s : σ) (es : List ε) :
    log (exec step s es) = log s ++ es.filterMap entry := by
  induction es generalizing s with
  | nil => exact (List.append_nil _).symm
  | cons e es ih =>
    rw [exec_cons, ih, h, List.append_assoc]
    cases he : entry e with
    | none => rw [List.filterMap_cons_none he, Option.toList_none, List.nil_append]
    | some v => rw [List.filterMap_cons_some he, Option.toList_some, List.singleton_append]

/-- Two step properties that agree at every event of a run hold along it together. -/
theorem along_congr {P C : σ → ε → Prop} {s : σ} {es : List ε}
    (h : ∀ pre e post, es = pre ++ e :: post → (P (exec step s pre) e ↔ C (exec step s pre) e)) :
    Along step P s es ↔ Along step C s es := by
  constructor
  · intro ha pre e post he
    exact (h pre e post he).mp (ha pre e post he)
  · intro ha pre e post he
    exact (h pre e post he).mpr (ha pre e post he)

end Lib.Run
