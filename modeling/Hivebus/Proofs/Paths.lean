import Hivebus.Lib.Split
import Hivebus.Pxeboot.Boot

namespace Hivebus.Proofs.Paths
open Lib Pxeboot

/-- What stands between the slashes of a path, where anything does. -/
def segments (path : List Char) : List (List Char) :=
  (path.splitOn '/').filter (fun s => !s.isEmpty)

/-- A piece of a path that is the name of something in a directory. -/
structure IsName (s : List Char) : Prop where
  nonempty : s ≠ []
  slash : '/' ∉ s
  dot : s ≠ ['.']
  dots : s ≠ ['.', '.']

theorem splitOn_piece {path s : List Char} (h : s ∈ path.splitOn '/') : '/' ∉ s := by
  intro hm
  have hp := (Split.mem_piece h hm).1
  simp at hp

theorem segments_name {s : List Char} (h : IsName s) : segments s = [s] := by
  rw [segments, List.splitOn_eq_singleton h.slash]
  simp [h.nonempty]

theorem segments_slash (path s : List Char) :
    segments (path ++ '/' :: s) = segments path ++ segments s := by
  rw [segments, List.splitOn_append_cons_self, List.filter_append]
  rfl

theorem head?_name {s : List Char} (h : IsName s) : s.head? ≠ some '/' := by
  intro hh
  exact h.slash (List.mem_of_head? hh)

/-- A name is never absolute, so what is in the buffer stays there. -/
theorem push_name {s : List Char} (h : IsName s) (buf : String) :
    (pathPush buf (String.ofList s)).toList =
      if buf.toList.getLast?.any (fun c => c ≠ '/') then buf.toList ++ '/' :: s
      else buf.toList ++ s := by
  have hs : (String.ofList s).toList = s := String.toList_ofList
  rw [pathPush, hs, if_neg (head?_name h)]
  split
  · rw [String.toList_append, String.toList_append, hs, List.append_assoc]
    rfl
  · rw [String.toList_append, hs]

theorem prefix_push {s : List Char} (h : IsName s) (buf : String) :
    buf.toList <+: (pathPush buf (String.ofList s)).toList := by
  rw [push_name h]
  split
  · exact List.prefix_append _ _
  · exact List.prefix_append _ _

theorem segments_push {s : List Char} (h : IsName s) (buf : String) :
    segments (pathPush buf (String.ofList s)).toList = segments buf.toList ++ [s] := by
  rw [push_name h]
  split
  · rw [segments_slash, segments_name h]
  · next hlast =>
    cases hl : buf.toList.getLast? with
    | none =>
      rw [List.getLast?_eq_none_iff.mp hl, List.nil_append, segments_name h]
      rfl
    | some c =>
      have hc : c = '/' := by
        simpa [hl] using hlast
      obtain ⟨pre, hpre⟩ := List.getLast?_eq_some_iff.mp hl
      have hempty : segments [] = [] := rfl
      rw [hpre, hc, List.append_assoc, List.singleton_append, segments_slash, segments_slash,
        segments_name h, hempty, List.append_nil]

/-- The component in front of the names: the root, or a dot. -/
def front (path : String) : List Component :=
  if path.toList.head? = some '/' then [.rootDir]
  else if (segments path.toList).head? = some ['.'] then [.curDir]
  else []

theorem front_cases (path : String) :
    front path = [.rootDir] ∨ front path = [.curDir] ∨ front path = [] := by
  unfold front
  split
  · exact .inl rfl
  · split
    · exact .inr (.inl rfl)
    · exact .inr (.inr rfl)

def component (s : List Char) : Component := if s = ['.', '.'] then .parentDir else .normal s

theorem components_eq (path : String) :
    components path =
      front path ++ ((segments path.toList).filter (fun s => s ≠ ['.'])).map component := rfl

/-- A path that has no segment is empty or absolute. -/
theorem absolute_of_no_segments {path : List Char} (hne : path ≠ []) (h : segments path = []) :
    path.head? = some '/' := by
  obtain ⟨c, cs, rfl⟩ := List.exists_cons_of_ne_nil hne
  by_cases hc : c = '/'
  · rw [hc]
    rfl
  · exfalso
    obtain ⟨hd, tl, hsplit⟩ := List.exists_cons_of_ne_nil (List.splitOnP_ne_nil (· == '/') cs)
    rw [segments, List.splitOn_eq_splitOnP, List.splitOnP_cons_eq_if_modifyHead, hsplit,
      if_neg (by simpa using hc)] at h
    simp at h

theorem front_push {s : List Char} (h : IsName s) (buf : String) :
    front (pathPush buf (String.ofList s)) = front buf := by
  have hsegs := segments_push h buf
  by_cases hb : buf.toList = []
  · have hpush : (pathPush buf (String.ofList s)).toList = s := by
      rw [push_name h, hb]
      rfl
    rw [hpush] at hsegs
    have hdot : ¬ (segments s).head? = some ['.'] := by
      rw [segments_name h]
      intro hd
      exact h.dot (Option.some.inj hd)
    simp only [front, hpush, if_neg (head?_name h), if_neg hdot, hb]
    rfl
  · have hhead : (pathPush buf (String.ofList s)).toList.head? = buf.toList.head? := by
      obtain ⟨rest, hrest⟩ := prefix_push h buf
      rw [← hrest, List.head?_append_of_ne_nil _ hb]
    simp only [front, hhead, hsegs]
    split
    · rfl
    · next habs =>
      have hne : segments buf.toList ≠ [] := by
        intro hnil
        exact habs (absolute_of_no_segments hb hnil)
      rw [List.head?_append_of_ne_nil _ hne]

/-- Pushing a name adds it as the last component. -/
theorem components_push {s : List Char} (h : IsName s) (buf : String) :
    components (pathPush buf (String.ofList s)) = components buf ++ [.normal s] := by
  have hcomp : component s = .normal s := if_neg h.dots
  have hkeep : [s].filter (fun s => s ≠ ['.']) = [s] := by simp [h.dot]
  rw [components_eq, components_eq, front_push h, segments_push h, List.filter_append, hkeep,
    List.map_append, List.map_singleton, hcomp, List.append_assoc]

/-- What the components of a path call a name is one. -/
theorem isName_of_mem {path : String} {s : List Char} (h : .normal s ∈ components path) :
    IsName s := by
  rw [components_eq] at h
  rcases List.mem_append.mp h with hf | hm
  · exfalso
    rcases front_cases path with hc | hc | hc <;> simp [hc] at hf
  · obtain ⟨t, ht, hcomp⟩ := List.mem_map.mp hm
    obtain ⟨hseg, hdot⟩ := List.mem_filter.mp ht
    obtain ⟨hsplit, hempty⟩ := List.mem_filter.mp hseg
    by_cases hdots : t = ['.', '.']
    · rw [component, if_pos hdots] at hcomp
      cases hcomp
    · rw [component, if_neg hdots] at hcomp
      cases hcomp
      exact ⟨by simpa using hempty, splitOn_piece hsplit, by simpa using hdot, hdots⟩

def isNormal : Component → Bool
  | .normal _ => true
  | .rootDir | .curDir | .parentDir => false

/-- The loop of `sanitize_tftp_path` on the text of a path and on its components. -/
def pushAll (root : String) (cs : List Component) : Option String :=
  cs.foldlM (fun path component =>
    match component with
    | .normal segment => some (pathPush path (String.ofList segment))
    | .curDir => some path
    | .parentDir | .rootDir => none) root

def appendAll (root cs : List Component) : Option (List Component) :=
  cs.foldlM (fun path component =>
    match component with
    | .normal segment => some (path ++ [.normal segment])
    | .curDir => some path
    | .parentDir | .rootDir => none) root

theorem appendAll_eq (root cs : List Component) :
    appendAll root cs =
      if .rootDir ∈ cs ∨ .parentDir ∈ cs then none else some (root ++ cs.filter isNormal) := by
  induction cs generalizing root with
  | nil => simp [appendAll]
  | cons c cs ih =>
    cases c with
    | rootDir => simp [appendAll]
    | parentDir => simp [appendAll]
    | curDir =>
      have hstep : appendAll root (.curDir :: cs) = appendAll root cs := rfl
      have hfilter : (Component.curDir :: cs).filter isNormal = cs.filter isNormal := rfl
      rw [hstep, ih, hfilter]
      simp
    | normal s =>
      have hstep : appendAll root (.normal s :: cs) = appendAll (root ++ [.normal s]) cs := rfl
      have hfilter : (Component.normal s :: cs).filter isNormal =
          .normal s :: cs.filter isNormal := rfl
      rw [hstep, ih, hfilter]
      simp

/-- Pushing names onto the text does to its components what appending them does. -/
theorem pushAll_components {cs : List Component} (hn : ∀ s, .normal s ∈ cs → IsName s)
    (root : String) : (pushAll root cs).map components = appendAll (components root) cs := by
  induction cs generalizing root with
  | nil => rfl
  | cons c cs ih =>
    have ih := ih (fun s hs => hn s (List.mem_cons_of_mem c hs))
    cases c with
    | rootDir => rfl
    | parentDir => rfl
    | curDir => exact ih root
    | normal s =>
      have hname := hn s List.mem_cons_self
      have hstep : appendAll (components root) (.normal s :: cs) =
          appendAll (components root ++ [.normal s]) cs := rfl
      rw [hstep, ← components_push hname]
      exact ih (pathPush root (String.ofList s))

theorem prefix_pushAll {cs : List Component} (hn : ∀ s, .normal s ∈ cs → IsName s)
    {root p : String} (h : pushAll root cs = some p) : root.toList <+: p.toList := by
  induction cs generalizing root with
  | nil =>
    cases h
    exact List.prefix_rfl
  | cons c cs ih =>
    have hrest : ∀ s, .normal s ∈ cs → IsName s := fun s hs => hn s (List.mem_cons_of_mem c hs)
    cases c with
    | rootDir => cases h
    | parentDir => cases h
    | curDir => exact ih hrest h
    | normal s => exact (prefix_push (hn s List.mem_cons_self) root).trans (ih hrest h)

/-- The path on components that the rest of the model works with is the path the server
builds. -/
theorem sanitize_components (root requested : String) :
    (sanitizeTftpPathBuf root requested).map components =
      sanitizeTftpPath (components root) requested :=
  pushAll_components (fun _ hs => isName_of_mem hs) root

theorem rootDir_mem_components (path : String) :
    .rootDir ∈ components path ↔ path.toList.head? = some '/' := by
  have hnames : Component.rootDir ∉
      ((segments path.toList).filter (fun s => s ≠ ['.'])).map component := by
    intro hm
    obtain ⟨s, _, hs⟩ := List.mem_map.mp hm
    unfold component at hs
    split at hs <;> cases hs
  rw [components_eq, List.mem_append, or_iff_left hnames, front]
  split
  · next h => simp [h]
  · next h =>
    split
    · simp [h]
    · simp [h]

/-- A request gets a path exactly when it is relative and never goes up. The path then has
the components of the root and behind them the names of the request, and its text starts
with that of the root. -/
theorem sanitize_confines (root requested : String) :
    ((∃ p, sanitizeTftpPathBuf root requested = some p) ↔
      requested.toList.head? ≠ some '/' ∧ .parentDir ∉ components requested) ∧
    ∀ p, sanitizeTftpPathBuf root requested = some p →
      components p = components root ++ (components requested).filter isNormal ∧
        root.toList <+: p.toList := by
  have hmap := (sanitize_components root requested).trans (appendAll_eq _ _)
  constructor
  · rw [ne_eq, ← rootDir_mem_components, ← not_or, ← Option.isSome_iff_exists,
      ← Option.isSome_map, hmap]
    split
    · next h => simp [h]
    · next h => simp [h]
  · intro p hp
    rw [hp, Option.map_some] at hmap
    split at hmap
    · cases hmap
    · exact ⟨Option.some.inj hmap, prefix_pushAll (fun _ hs => isName_of_mem hs) hp⟩

end Hivebus.Proofs.Paths
