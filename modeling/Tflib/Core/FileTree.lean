import Mathlib.Data.List.MinMax
import Mathlib.Data.List.Nodup

/-! # File trees

A finite tree of files, symbolic links and directories, given by the place of each
node: the names that lead to it from the root. Every node has its directory in the
tree, so that a tree without it cannot be built. What a change leaves alone is said
by what is found at the places.
-/

namespace Tflib.Core

universe u

inductive NodeKind
  | file
  | symlink
  | dir
  deriving DecidableEq, Repr

structure TreeEntry (ν : Type u) where
  loc : List ν
  kind : NodeKind
  deriving DecidableEq, Repr

/-- The nodes below the root, which is a directory itself; `ok` holds of every name. -/
structure FileTree (ν : Type u) (ok : ν → Prop) where
  entries : List (TreeEntry ν)
  named : ∀ e ∈ entries, ∀ n ∈ e.loc, ok n
  rooted : ∀ e ∈ entries, e.loc ≠ []
  unique : (entries.map TreeEntry.loc).Nodup
  parents : ∀ e ∈ entries, e.loc.dropLast = [] ∨ ⟨e.loc.dropLast, .dir⟩ ∈ entries

namespace FileTree

variable {ν : Type u} {ok : ν → Prop}

/-- A place has one node at most. -/
theorem entry_unique (t : FileTree ν ok) {d e : TreeEntry ν} (hd : d ∈ t.entries)
    (he : e ∈ t.entries) (h : d.loc = e.loc) : d = e :=
  List.inj_on_of_nodup_map t.unique hd he h

section

variable [DecidableEq ν]

/-- What is at a place. -/
def kindAt (t : FileTree ν ok) (loc : List ν) : Option NodeKind :=
  if loc = [] then some .dir else (t.entries.find? (·.loc = loc)).map TreeEntry.kind

/-- The names in the directory at a place. -/
def children (t : FileTree ν ok) (loc : List ν) : List ν :=
  (t.entries.map TreeEntry.loc).filterMap fun l => if l.dropLast = loc then l.getLast? else none

theorem kindAt_nil (t : FileTree ν ok) : t.kindAt [] = some .dir := if_pos rfl

theorem kindAt_eq_some {t : FileTree ν ok} {loc : List ν} (hne : loc ≠ []) {k : NodeKind} :
    t.kindAt loc = some k ↔ ⟨loc, k⟩ ∈ t.entries := by
  rw [kindAt, if_neg hne, Option.map_eq_some_iff]
  constructor
  · rintro ⟨e, hfind, rfl⟩
    have hloc : e.loc = loc := by simpa using List.find?_some hfind
    rw [← hloc]
    exact List.mem_of_find?_eq_some hfind
  · intro hmem
    cases hfind : t.entries.find? (·.loc = loc) with
    | none =>
        have hno := List.find?_eq_none.mp hfind _ hmem
        simp at hno
    | some e =>
        have hloc : e.loc = loc := by simpa using List.find?_some hfind
        have hsame := t.entry_unique (List.mem_of_find?_eq_some hfind) hmem hloc
        exact ⟨e, rfl, by rw [hsame]⟩

/-- Every node stands in a directory. -/
theorem parent_dir {t : FileTree ν ok} {loc : List ν} {n : ν} {k : NodeKind}
    (h : t.kindAt (loc ++ [n]) = some k) : t.kindAt loc = some .dir := by
  have hmem := (kindAt_eq_some (List.append_ne_nil_of_right_ne_nil loc (List.cons_ne_nil n []))).mp h
  by_cases hloc : loc = []
  · rw [hloc]
    exact t.kindAt_nil
  · rw [kindAt_eq_some hloc]
    have hparent := t.parents _ hmem
    simp only [List.dropLast_concat] at hparent
    exact hparent.resolve_left hloc

/-- What is above a node is a directory, at any distance. -/
theorem above_dir {t : FileTree ν ok} {loc rest : List ν} {k : NodeKind} (hne : rest ≠ [])
    (h : t.kindAt (loc ++ rest) = some k) : t.kindAt loc = some .dir := by
  induction rest using List.reverseRecOn generalizing k with
  | nil => exact absurd rfl hne
  | append_singleton rest n ih =>
      rw [← List.append_assoc] at h
      have hparent := parent_dir h
      by_cases hrest : rest = []
      · rwa [hrest, List.append_nil] at hparent
      · exact ih hrest hparent

/-- The names are what the places in a directory end with. -/
theorem split_iff {loc l : List ν} {n : ν} :
    (if l.dropLast = loc then l.getLast? else none) = some n ↔ l = loc ++ [n] := by
  constructor
  · intro h
    split at h
    · rename_i hloc
      rw [← hloc]
      exact (List.dropLast_append_getLast? n h).symm
    · cases h
  · rintro rfl
    simp

theorem mem_children {t : FileTree ν ok} {loc : List ν} {n : ν} :
    n ∈ t.children loc ↔ ∃ k, t.kindAt (loc ++ [n]) = some k := by
  have hne : loc ++ [n] ≠ [] := List.append_ne_nil_of_right_ne_nil loc (List.cons_ne_nil n [])
  simp only [kindAt_eq_some hne, children, List.mem_filterMap, split_iff, exists_eq_right,
    List.mem_map]
  constructor
  · rintro ⟨e, he, hloc⟩
    exact ⟨e.kind, hloc ▸ he⟩
  · rintro ⟨k, hmem⟩
    exact ⟨_, hmem, rfl⟩

theorem children_nodup (t : FileTree ν ok) (loc : List ν) : (t.children loc).Nodup := by
  refine List.Nodup.filterMap (fun l l' n hn hn' => ?_) t.unique
  rw [split_iff.mp hn, split_iff.mp hn']

theorem named_child {t : FileTree ν ok} {loc : List ν} {n : ν} (h : n ∈ t.children loc) : ok n := by
  obtain ⟨k, hk⟩ := mem_children.mp h
  have hmem := (kindAt_eq_some (List.append_ne_nil_of_right_ne_nil loc (List.cons_ne_nil n []))).mp hk
  exact t.named _ hmem n (List.mem_append_right loc List.mem_cons_self)

/-- Only a directory has something in it. -/
theorem children_eq_nil {t : FileTree ν ok} {loc : List ν} (h : t.kindAt loc ≠ some .dir) :
    t.children loc = [] := by
  rw [List.eq_nil_iff_forall_not_mem]
  intro n hn
  obtain ⟨k, hk⟩ := mem_children.mp hn
  exact h (parent_dir hk)

/-- Nothing is below a place that holds nothing, or an empty directory. -/
theorem below_none {t : FileTree ν ok} {loc : List ν} (h : t.children loc = []) {rest : List ν}
    (hne : rest ≠ []) : t.kindAt (loc ++ rest) = none := by
  obtain ⟨n, rest, rfl⟩ := List.exists_cons_of_ne_nil hne
  rw [Option.eq_none_iff_forall_ne_some]
  intro k hk
  have hchild : ∃ k, t.kindAt (loc ++ [n]) = some k := by
    by_cases hrest : rest = []
    · exact ⟨k, hrest ▸ hk⟩
    · rw [List.append_cons] at hk
      exact ⟨.dir, above_dir hrest hk⟩
  have hmem := mem_children.mpr hchild
  rw [h] at hmem
  exact List.not_mem_nil hmem

/-! ## Removing a leaf -/

/-- The tree without the node at `loc`, which has nothing below it. -/
def remove (t : FileTree ν ok) (loc : List ν) (leaf : t.children loc = []) : FileTree ν ok where
  entries := t.entries.filter (·.loc ≠ loc)
  named e he := t.named e (List.mem_filter.mp he).1
  rooted e he := t.rooted e (List.mem_filter.mp he).1
  unique := (List.filter_sublist.map TreeEntry.loc).nodup t.unique
  parents e he := by
    obtain ⟨hmem, -⟩ := List.mem_filter.mp he
    refine (t.parents e hmem).imp id fun hparent => List.mem_filter.mpr ⟨hparent, ?_⟩
    refine decide_eq_true fun hloc => ?_
    have hchild : e.loc.getLast (t.rooted e hmem) ∈ t.children loc := by
      rw [mem_children, ← hloc, List.dropLast_concat_getLast]
      exact ⟨e.kind, (kindAt_eq_some (t.rooted e hmem)).mpr hmem⟩
    rw [leaf] at hchild
    exact List.not_mem_nil hchild

theorem kindAt_remove {t : FileTree ν ok} {loc : List ν} (leaf : t.children loc = [])
    (hne : loc ≠ []) (l : List ν) :
    (t.remove loc leaf).kindAt l = if l = loc then none else t.kindAt l := by
  by_cases hl : l = []
  · subst hl
    rw [kindAt_nil, kindAt_nil, if_neg (Ne.symm hne)]
  refine Option.ext fun k => ?_
  rw [kindAt_eq_some hl]
  by_cases hloc : l = loc
  · rw [if_pos hloc]
    exact iff_of_false (fun hmem => of_decide_eq_true (List.mem_filter.mp hmem).2 hloc) nofun
  · rw [if_neg hloc, kindAt_eq_some hl]
    simp [remove, hloc]

/-! ## What a change takes away -/

/-- The tree `u` is `t` without some of the nodes at `loc` and below. -/
structure Prunes (loc : List ν) (t u : FileTree ν ok) : Prop where
  outside : ∀ l, ¬ loc <+: l → u.kindAt l = t.kindAt l
  only : ∀ l k, u.kindAt l = some k → t.kindAt l = some k

theorem Prunes.refl (loc : List ν) (t : FileTree ν ok) : Prunes loc t t := ⟨fun _ _ => rfl, fun _ _ h => h⟩

theorem Prunes.trans {loc : List ν} {t u v : FileTree ν ok} (h : Prunes loc t u)
    (h' : Prunes loc u v) : Prunes loc t v :=
  ⟨fun l hl => (h'.outside l hl).trans (h.outside l hl), fun l k hk => h.only l k (h'.only l k hk)⟩

/-- What is taken from a part is taken from the whole. -/
theorem Prunes.of_prefix {loc sub : List ν} {t u : FileTree ν ok} (h : Prunes sub t u)
    (hsub : loc <+: sub) : Prunes loc t u :=
  ⟨fun l hl => h.outside l fun hpre => hl (hsub.trans hpre), h.only⟩

theorem prunes_remove {t : FileTree ν ok} {loc : List ν} (leaf : t.children loc = [])
    (hne : loc ≠ []) : Prunes loc t (t.remove loc leaf) := by
  refine ⟨fun l hl => ?_, fun l k hk => ?_⟩
  · rw [kindAt_remove leaf hne, if_neg]
    rintro rfl
    exact hl (List.prefix_refl l)
  · rw [kindAt_remove leaf hne] at hk
    split at hk
    · cases hk
    · exact hk

/-- Nothing is left at `loc` or below. -/
def Gone (t : FileTree ν ok) (loc : List ν) : Prop := ∀ l, loc <+: l → t.kindAt l = none

theorem gone_remove {t : FileTree ν ok} {loc : List ν} (leaf : t.children loc = [])
    (hne : loc ≠ []) : (t.remove loc leaf).Gone loc := by
  rintro l ⟨rest, rfl⟩
  rw [kindAt_remove leaf hne]
  split
  · rfl
  · rename_i hrest
    exact below_none leaf fun h => hrest (by rw [h, List.append_nil])

theorem not_gone {t : FileTree ν ok} {loc : List ν} {k : NodeKind} (h : t.kindAt loc = some k) :
    ¬ t.Gone loc := by
  intro hgone
  rw [hgone loc (List.prefix_refl loc)] at h
  cases h

end

/-- The length of the longest place. -/
def height (t : FileTree ν ok) : Nat := (t.entries.map (·.loc.length)).foldr max 0

theorem length_le_height [DecidableEq ν] {t : FileTree ν ok} {l : List ν} {k : NodeKind}
    (h : t.kindAt l = some k) : l.length ≤ t.height := by
  by_cases hl : l = []
  · rw [hl]
    exact Nat.zero_le _
  · have hmem := (kindAt_eq_some hl).mp h
    have hlen : l.length ∈ t.entries.map (·.loc.length) := List.mem_map_of_mem hmem
    exact List.le_max_of_le' 0 hlen (Nat.le_refl _)

end FileTree

end Tflib.Core
