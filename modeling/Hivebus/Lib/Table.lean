import Mathlib.Data.List.AList

namespace Lib

/-- A finite map with one value a key. The order of its entries carries no
meaning: whoever lists them takes an `Order`. -/
abbrev Table (K V : Type) := AList (fun _ : K => V)

namespace Table

variable {K V : Type}

def pairs (m : Table K V) : List (K × V) := m.entries.map (fun e => (e.1, e.2))

/-- Any listing of the entries, as a hash map that promises no order gives one. -/
structure Order (K V : Type) where
  list : Table K V → List (K × V)
  perm : ∀ m, (list m).Perm m.pairs

def Order.values (ord : Order K V) (m : Table K V) : List V := (ord.list m).map Prod.snd

/-- The listing that keeps the order of insertion, newest first. -/
def Order.newest : Order K V := ⟨pairs, fun _ => .refl _⟩

/-- Keeps the entries that satisfy the test. -/
def retain (p : K → V → Bool) (m : Table K V) : Table K V :=
  ⟨m.entries.filter (fun e => p e.1 e.2), m.keys_nodup.sublist (List.filter_sublist.map _)⟩

/-- Rewrites every value in place. -/
def mapValues (f : V → V) (m : Table K V) : Table K V :=
  ⟨m.entries.map (fun e => ⟨e.1, f e.2⟩), by
    have h : (m.entries.map (fun e => (⟨e.1, f e.2⟩ : Sigma (fun _ : K => V)))).keys = m.keys := by
      simp [List.keys, AList.keys, Function.comp_def]
    rw [List.NodupKeys, h]
    exact m.keys_nodup⟩

theorem pairs_mapValues (f : V → V) (m : Table K V) :
    (m.mapValues f).pairs = m.pairs.map (fun p => (p.1, f p.2)) := by
  simp [pairs, mapValues, List.map_map, Function.comp_def]

/-- Keeping what is there anyway changes nothing. -/
theorem retain_eq_self {p : K → V → Bool} {m : Table K V}
    (h : ∀ e ∈ m.pairs, p e.1 e.2 = true) : m.retain p = m := by
  apply AList.ext
  apply List.filter_eq_self.mpr
  intro e he
  exact h (e.1, e.2) (List.mem_map.mpr ⟨e, he, rfl⟩)

theorem mapValues_eq_self {f : V → V} {m : Table K V} (h : ∀ e ∈ m.pairs, f e.2 = e.2) :
    m.mapValues f = m := by
  apply AList.ext
  have hmap : ∀ e ∈ m.entries, (⟨e.1, f e.2⟩ : Sigma (fun _ : K => V)) = e := by
    intro e he
    rw [h (e.1, e.2) (List.mem_map.mpr ⟨e, he, rfl⟩)]
  exact (List.map_congr_left hmap).trans (List.map_id _)

theorem pairs_keys (m : Table K V) : m.pairs.map Prod.fst = m.keys := by
  simp [pairs, AList.keys, List.keys, List.map_map, Function.comp_def]

theorem Order.keys_nodup (ord : Order K V) (m : Table K V) : ((ord.list m).map Prod.fst).Nodup := by
  rw [((ord.perm m).map Prod.fst).nodup_iff, pairs_keys]
  exact m.keys_nodup

variable [DecidableEq K]

/-- The value under a key if there is one, the default otherwise, then `f`. -/
def upsert (k : K) (d : V) (f : V → V) (m : Table K V) : Table K V :=
  m.insert k (f ((m.lookup k).getD d))

/-- Rewrites the value under a key; an absent key stays absent. -/
def modify (k : K) (f : V → V) (m : Table K V) : Table K V :=
  match m.lookup k with
  | some v => m.insert k (f v)
  | none => m

theorem mem_pairs {m : Table K V} {k : K} {v : V} :
    (k, v) ∈ m.pairs ↔ m.lookup k = some v := by
  rw [← Option.mem_def, AList.mem_lookup_iff]
  constructor
  · intro h
    obtain ⟨⟨k', v'⟩, he, hp⟩ := List.mem_map.mp h
    cases hp
    exact he
  · intro h
    exact List.mem_map.mpr ⟨⟨k, v⟩, h, rfl⟩

theorem Order.mem_list (ord : Order K V) {m : Table K V} {k : K} {v : V} :
    (k, v) ∈ ord.list m ↔ m.lookup k = some v :=
  (ord.perm m).mem_iff.trans mem_pairs

theorem Order.mem_values (ord : Order K V) {m : Table K V} {v : V} :
    v ∈ ord.values m ↔ ∃ k, m.lookup k = some v := by
  constructor
  · intro h
    obtain ⟨⟨k, w⟩, hm, rfl⟩ := List.mem_map.mp h
    exact ⟨k, ord.mem_list.mp hm⟩
  · intro hex
    obtain ⟨k, h⟩ := hex
    exact List.mem_map.mpr ⟨(k, v), ord.mem_list.mpr h, rfl⟩

@[simp] theorem lookup_retain (p : K → V → Bool) (m : Table K V) (k : K) :
    (m.retain p).lookup k = (m.lookup k).filter (p k) := by
  apply Option.ext
  intro v
  rw [← Option.mem_def, AList.mem_lookup_iff, Option.filter_eq_some_iff, ← Option.mem_def,
    AList.mem_lookup_iff]
  simp [retain]

@[simp] theorem lookup_mapValues (f : V → V) (m : Table K V) (k : K) :
    (m.mapValues f).lookup k = (m.lookup k).map f := by
  apply Option.ext
  intro v
  rw [← Option.mem_def, AList.mem_lookup_iff, Option.map_eq_some_iff]
  simp only [← Option.mem_def, AList.mem_lookup_iff, mapValues, List.mem_map]
  constructor
  · intro hex
    obtain ⟨⟨k', w⟩, hm, he⟩ := hex
    cases he
    exact ⟨w, hm, rfl⟩
  · intro hex
    obtain ⟨w, hm, rfl⟩ := hex
    exact ⟨⟨k, w⟩, hm, rfl⟩

theorem lookup_insert_if (m : Table K V) (k j : K) (v : V) :
    (m.insert k v).lookup j = if j = k then some v else m.lookup j := by
  split
  · next h => rw [h, AList.lookup_insert]
  · next h => exact AList.lookup_insert_ne h

@[simp] theorem lookup_upsert (m : Table K V) (k j : K) (d : V) (f : V → V) :
    (m.upsert k d f).lookup j = if j = k then some (f ((m.lookup j).getD d)) else m.lookup j := by
  rw [upsert, lookup_insert_if]
  split
  · next h => rw [h]
  · rfl

@[simp] theorem lookup_modify (m : Table K V) (k j : K) (f : V → V) :
    (m.modify k f).lookup j = if j = k then (m.lookup j).map f else m.lookup j := by
  cases h : m.lookup k with
  | some v =>
    simp only [modify, h, lookup_insert_if]
    split
    · next he => rw [he, h, Option.map_some]
    · rfl
  | none =>
    simp only [modify, h]
    split
    · next he => rw [he, h, Option.map_none]
    · rfl

/-- Pairs with different keys, inserted one after the other, are all in the table, and what was
there under other keys. -/
theorem lookup_foldl_insert {l : List (K × V)} (hl : (l.map Prod.fst).Nodup) (m : Table K V) {k : K}
    {v : V} : (l.foldl (fun m p => m.insert p.1 p.2) m).lookup k = some v ↔
      (k, v) ∈ l ∨ k ∉ l.map Prod.fst ∧ m.lookup k = some v := by
  induction l generalizing m with
  | nil => simp
  | cons p l ih =>
    obtain ⟨j, w⟩ := p
    rw [List.map_cons, List.nodup_cons] at hl
    rw [List.foldl_cons, ih hl.2, lookup_insert_if]
    by_cases hk : k = j
    · subst hk
      have hno : (k, v) ∉ l := fun hm => hl.1 (List.mem_map.mpr ⟨_, hm, rfl⟩)
      simp only [hno, hl.1, ↓reduceIte, Option.some.injEq, List.mem_cons, Prod.mk.injEq, true_and,
        not_false_eq_true, List.map_cons, not_true_eq_false, or_false, false_or, false_and]
      exact eq_comm
    · simp [hk]

end Table

end Lib
