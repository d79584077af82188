import Tflib.Core.Bytes
import Tflib.Core.FileTree

/-! # `tf_removelink`

The recursion of `tf_file.c` over a file tree. A system call resolves its path name by
name from the root of the tree; one that would have to go through a symbolic link
ends the run with a fault of its own, since where links lead is not part of the
tree. Which calls the system refuses is decided call by call.
-/

namespace Tflib.File

open Tflib.Core

/-- `MYPATHCHR` -/
def pathChr : UInt8 := 47

/-- `MYCDIRSTR` and `MYPDIRSTR` -/
def cdirStr : Bytes := [46]

def pdirStr : Bytes := [46, 46]

/-- The names a directory entry can have. -/
def IsName (n : Bytes) : Prop := n ≠ [] ∧ pathChr ∉ n ∧ 0 ∉ n ∧ n ≠ cdirStr ∧ n ≠ pdirStr

instance (n : Bytes) : Decidable (IsName n) := inferInstanceAs (Decidable (_ ∧ _))

abbrev Volume := FileTree Bytes IsName

/-- The names in a path, whatever number of slashes separates them. -/
def comps (path : Bytes) : List Bytes := (path.splitOn pathChr).filter (· ≠ [])

/-- `path[0] != '\0' && path[strlen(path)-1] == MYPATHCHR` -/
def hasTail (path : Bytes) : Bool := path.getLast? == some pathChr

/-- Why a run stops without a result: the recursion goes deeper than its fuel, or a call follows a
symbolic link. -/
inductive Fault
  | fuel
  | followed
  deriving DecidableEq, Repr

/-! ## The system calls -/

/-- What is behind the names `todo` in the directory at `done`; the last of them is not followed. -/
def walk (t : Volume) (done : List Bytes) : List Bytes → Except Fault (Option NodeKind)
  | [] => .ok (t.kindAt done)
  | n :: todo =>
      if todo = [] then .ok (t.kindAt (done ++ [n]))
      else
        match t.kindAt (done ++ [n]) with
        | some .dir => walk t (done ++ [n]) todo
        | some .symlink => .error .followed
        | _ => .ok none

/-- What a path leads to, a symbolic link at its end included. The empty path leads nowhere. -/
def locate (t : Volume) (path : Bytes) : Except Fault (Option NodeKind) :=
  if path = [] then .ok none else walk t [] (comps path)

/-- The mode of the node, or none for -1. A slash at the end asks for a directory, and what it
finds is resolved. -/
def lstat (path : Bytes) (refused : Bool) (t : Volume) : Except Fault (Option NodeKind × Volume) :=
  if refused then .ok (none, t)
  else do
    let kind ← locate t path
    match kind, hasTail path with
    | some .symlink, true => .error .followed
    | some .file, true => .ok (none, t)
    | kind, _ => .ok (kind, t)

/-- Whether the call returned 0. A directory is no link to remove, and nothing else has a slash
behind it. -/
def unlink (path : Bytes) (refused : Bool) (t : Volume) : Except Fault (Bool × Volume) :=
  if refused then .ok (false, t)
  else do
    let kind ← locate t path
    if h : kind.isSome ∧ hasTail path = false ∧ t.kindAt (comps path) ≠ some .dir then
      .ok (true, t.remove (comps path) (FileTree.children_eq_nil h.2.2))
    else .ok (false, t)

/-- The names in the directory, those of itself and of the one above it included; none for NULL. A
link at the end of the path is followed here. -/
def opendir (path : Bytes) (refused : Bool) (t : Volume) :
    Except Fault (Option (List Bytes) × Volume) :=
  if refused then .ok (none, t)
  else do
    let kind ← locate t path
    match kind with
    | some .dir => .ok (some (cdirStr :: pdirStr :: t.children (comps path)), t)
    | some .symlink => .error .followed
    | _ => .ok (none, t)

/-- Whether the call returned 0: the directory must be empty, and it is not the root. -/
def rmdir (path : Bytes) (refused : Bool) (t : Volume) : Except Fault (Bool × Volume) :=
  if refused then .ok (false, t)
  else do
    let kind ← locate t path
    if h : kind = some .dir ∧ comps path ≠ [] ∧ t.children (comps path) = [] then
      .ok (true, t.remove (comps path) h.2.2)
    else .ok (false, t)

/-- The tree, and the number of calls so far. -/
structure Host where
  tree : Volume
  calls : Nat

/-- The next call, which the system may refuse. -/
def Host.call {α : Type} (refuse : Nat → Bool) (h : Host)
    (op : Bool → Volume → Except Fault (α × Volume)) : Except Fault (α × Host) := do
  let (out, tree) ← op (refuse h.calls) h.tree
  .ok (out, ⟨tree, h.calls + 1⟩)

/-! ## The functions -/

def tfReaddir (refuse : Nat → Bool) (path : Bytes) (h : Host) :
    Except Fault (Option (List Bytes) × Host) := do
  let (list, h) ← h.call refuse (opendir path)
  .ok (list.map fun names => names.filter fun n => n ≠ cdirStr ∧ n ≠ pdirStr, h)

/-- `tf_sprintf("%s%s", path, elem)` or `tf_sprintf("%s%c%s", path, MYPATHCHR, elem)`. -/
def childPath (path elem : Bytes) : Bytes :=
  if hasTail path then path ++ elem else path ++ pathChr :: elem

def tfRemovelink (refuse : Nat → Bool) : Nat → Bytes → Host → Except Fault (Bool × Host)
  | 0, _, _ => .error .fuel
  | fuel + 1, path, h => do
      let (sbuf, h) ← h.call refuse (lstat path)
      match sbuf with
      | none => .ok (false, h)
      | some mode =>
          let (done, h) ← h.call refuse (unlink path)
          if done then .ok (true, h)
          else if mode ≠ .dir then .ok (false, h)
          else
            let (list, h) ← tfReaddir refuse path h
            match list with
            | none => .ok (false, h)
            | some list =>
                let h ← list.foldlM (fun h elem =>
                  if cdirStr = elem ∨ pdirStr = elem then .ok h
                  else do
                    let (_, h) ← tfRemovelink refuse fuel (childPath path elem) h
                    .ok h) h
                h.call refuse (rmdir path)

/-! ## Paths -/

theorem comps_append (front : Bytes) {elem : Bytes} (h : IsName elem) :
    comps (front ++ pathChr :: elem) = comps front ++ [elem] := by
  rw [comps, List.splitOn_append_cons_self, List.filter_append, List.splitOn_eq_singleton h.2.1,
    List.filter_cons_of_pos (by simpa using h.1), List.filter_nil, comps]

theorem comps_concat (front : Bytes) : comps (front ++ [pathChr]) = comps front := by
  rw [comps, List.splitOn_append_cons_self, List.filter_append, List.splitOn_nil,
    List.filter_cons_of_neg (by simp), List.filter_nil, List.append_nil, comps]

theorem hasTail_iff {path : Bytes} : hasTail path = true ↔ ∃ front, path = front ++ [pathChr] := by
  rw [hasTail, beq_iff_eq, List.getLast?_eq_some_iff]

/-- With or without a slash at its end, a path leads to the names in its directory. -/
theorem comps_childPath (path : Bytes) {elem : Bytes} (h : IsName elem) :
    comps (childPath path elem) = comps path ++ [elem] := by
  rw [childPath]
  split
  · rename_i htail
    obtain ⟨front, rfl⟩ := hasTail_iff.mp htail
    rw [comps_concat, List.append_assoc, List.singleton_append, comps_append front h]
  · exact comps_append path h

theorem hasTail_childPath (path : Bytes) {elem : Bytes} (h : IsName elem) :
    hasTail (childPath path elem) = false := by
  rw [Bool.eq_false_iff, Ne, hasTail, beq_iff_eq]
  intro hlast
  have hmem : ∀ front : Bytes, (front ++ elem).getLast? = some pathChr → pathChr ∈ elem := by
    intro front hfront
    rw [List.getLast?_append_of_ne_nil _ h.1] at hfront
    exact List.mem_of_getLast? hfront
  rw [childPath] at hlast
  split at hlast
  · exact h.2.1 (hmem _ hlast)
  · rw [List.append_cons] at hlast
    exact h.2.1 (hmem _ hlast)

theorem childPath_ne_nil (path : Bytes) {elem : Bytes} (h : IsName elem) :
    childPath path elem ≠ [] := by
  rw [childPath]
  split
  · exact List.append_ne_nil_of_right_ne_nil _ h.1
  · exact List.append_ne_nil_of_right_ne_nil _ (List.cons_ne_nil _ _)

/-! ## Calls on a path to a node -/

/-- The names above a node are those of directories. -/
theorem walk_found {t : Volume} {done todo : List Bytes} {k : NodeKind}
    (h : t.kindAt (done ++ todo) = some k) : walk t done todo = .ok (some k) := by
  induction todo generalizing done with
  | nil =>
      rw [List.append_nil] at h
      rw [walk, h]
  | cons n todo ih =>
      rw [walk]
      by_cases htodo : todo = []
      · rw [if_pos htodo, ← h, htodo]
      · rw [List.append_cons] at h
        rw [if_neg htodo, FileTree.above_dir htodo h]
        exact ih h

section

variable {t : Volume} {path : Bytes} {k : NodeKind}

theorem locate_found (hne : path ≠ []) (h : t.kindAt (comps path) = some k) :
    locate t path = .ok (some k) := by
  rw [locate, if_neg hne]
  exact walk_found h

theorem lstat_found (hne : path ≠ []) (h : t.kindAt (comps path) = some k)
    (plain : k = .symlink → hasTail path = false) (refused : Bool) :
    ∃ out, lstat path refused t = .ok (out, t) ∧ (out = none ∨ out = some k) := by
  rw [lstat]
  split
  · exact ⟨none, rfl, .inl rfl⟩
  · rw [locate_found hne h]
    cases k with
    | symlink =>
        rw [plain rfl]
        exact ⟨_, rfl, .inr rfl⟩
    | dir => exact ⟨_, rfl, .inr rfl⟩
    | file =>
        cases hasTail path with
        | true => exact ⟨_, rfl, .inl rfl⟩
        | false => exact ⟨_, rfl, .inr rfl⟩

theorem unlink_found (hne : path ≠ []) (h : t.kindAt (comps path) = some k) (refused : Bool) :
    ∃ done u, unlink path refused t = .ok (done, u) ∧
      (done = true ∧ FileTree.Prunes (comps path) t u ∧ u.Gone (comps path) ∨
        done = false ∧ u = t) := by
  rw [unlink]
  split
  · exact ⟨false, t, rfl, .inr ⟨rfl, rfl⟩⟩
  · rw [locate_found hne h]
    by_cases hleaf : (some k).isSome ∧ hasTail path = false ∧ t.kindAt (comps path) ≠ some .dir
    · have hroot : comps path ≠ [] := by
        intro hroot
        rw [hroot] at hleaf
        exact hleaf.2.2 t.kindAt_nil
      have hnil := FileTree.children_eq_nil hleaf.2.2
      exact ⟨true, t.remove (comps path) hnil, dif_pos hleaf,
        .inl ⟨rfl, FileTree.prunes_remove hnil hroot, FileTree.gone_remove hnil hroot⟩⟩
    · exact ⟨false, t, dif_neg hleaf, .inr ⟨rfl, rfl⟩⟩

theorem rmdir_found (hne : path ≠ []) (h : t.kindAt (comps path) = some .dir) (refused : Bool) :
    ∃ done u, rmdir path refused t = .ok (done, u) ∧
      (done = true ∧ FileTree.Prunes (comps path) t u ∧ u.Gone (comps path) ∨
        done = false ∧ u = t) := by
  rw [rmdir]
  split
  · exact ⟨false, t, rfl, .inr ⟨rfl, rfl⟩⟩
  · rw [locate_found hne h]
    by_cases hleaf : some NodeKind.dir = some .dir ∧ comps path ≠ [] ∧ t.children (comps path) = []
    · exact ⟨true, t.remove (comps path) hleaf.2.2, dif_pos hleaf,
        .inl ⟨rfl, FileTree.prunes_remove hleaf.2.2 hleaf.2.1,
          FileTree.gone_remove hleaf.2.2 hleaf.2.1⟩⟩
    · exact ⟨false, t, dif_neg hleaf, .inr ⟨rfl, rfl⟩⟩

end

/-- The names of a directory, all of them and no others. -/
theorem tfReaddir_found {refuse : Nat → Bool} {path : Bytes} {h : Host} (hne : path ≠ [])
    (hdir : h.tree.kindAt (comps path) = some .dir) :
    ∃ out n, tfReaddir refuse path h = .ok (out, ⟨h.tree, n⟩) ∧
      ∀ names, out = some names → names = h.tree.children (comps path) := by
  rw [tfReaddir, Host.call, opendir]
  cases refuse h.calls with
  | true => exact ⟨none, _, rfl, nofun⟩
  | false =>
      simp only [Bool.false_eq_true, if_false, locate_found hne hdir]
      refine ⟨_, _, rfl, ?_⟩
      rintro names ⟨⟩
      have hkeep : ∀ n ∈ h.tree.children (comps path), decide (n ≠ cdirStr ∧ n ≠ pdirStr) = true :=
        fun n hn => decide_eq_true (FileTree.named_child hn).2.2.2
      change List.filter _ (cdirStr :: pdirStr :: h.tree.children (comps path)) = _
      rw [List.filter_cons_of_neg (by simp), List.filter_cons_of_neg (by simp),
        List.filter_eq_self.mpr hkeep]

/-! ## The recursion -/

@[simp] theorem ok_bind {α β : Type} (a : α) (f : α → Except Fault β) :
    (Except.ok a >>= f) = f a := rfl

/-- What a call of `tf_removelink` does: it returns, takes nodes away at its path and below only, and
says whether all of these are gone. -/
def Removes (refuse : Nat → Bool) (fuel : Nat) (path : Bytes) (h : Host) : Prop :=
  ∃ ret h', tfRemovelink refuse fuel path h = .ok (ret, h') ∧
    FileTree.Prunes (comps path) h.tree h'.tree ∧ (ret = true ↔ h'.tree.Gone (comps path))

/-- The recursion goes no deeper below `loc` than `fuel`. -/
def Within (t : Volume) (loc : List Bytes) (fuel : Nat) : Prop :=
  ∀ l k, t.kindAt l = some k → l.length < loc.length + fuel

/-- One round of the loop over the names of a directory. -/
def removeChild (refuse : Nat → Bool) (fuel : Nat) (path : Bytes) (h : Host) (elem : Bytes) :
    Except Fault Host :=
  if cdirStr = elem ∨ pdirStr = elem then .ok h
  else do
    let (_, h) ← tfRemovelink refuse fuel (childPath path elem) h
    .ok h

section

variable {refuse : Nat → Bool} {fuel : Nat} {path : Bytes}

/-- The loop takes nodes away below the directory, and leaves the directory. -/
theorem removeChildren_prunes
    (ih : ∀ {path : Bytes} {h : Host} {k : NodeKind}, path ≠ [] →
      h.tree.kindAt (comps path) = some k → (k = .symlink → hasTail path = false) →
      Within h.tree (comps path) fuel → Removes refuse fuel path h)
    {names : List Bytes} {h : Host} (distinct : names.Nodup)
    (hdir : h.tree.kindAt (comps path) = some .dir)
    (there : ∀ n ∈ names, IsName n ∧ ∃ k, h.tree.kindAt (comps path ++ [n]) = some k)
    (within : Within h.tree (comps path) (fuel + 1)) :
    ∃ h', names.foldlM (removeChild refuse fuel path) h = .ok h' ∧
      FileTree.Prunes (comps path) h.tree h'.tree ∧
      h'.tree.kindAt (comps path) = some .dir := by
  induction names generalizing h with
  | nil => exact ⟨h, rfl, .refl _ _, hdir⟩
  | cons n names ihn =>
      obtain ⟨hname, k, hk⟩ := there n List.mem_cons_self
      have hcomps := comps_childPath path hname
      obtain ⟨ret, h₁, hrun, hprunes, -⟩ := ih (h := h) (childPath_ne_nil path hname)
        (by rw [hcomps]; exact hk) (fun _ => hasTail_childPath path hname) (by
          intro l k hl
          have hlt := within l k hl
          rw [hcomps, List.length_append, List.length_singleton]
          omega)
      rw [hcomps] at hprunes
      have hround : removeChild refuse fuel path h n = .ok h₁ := by
        rw [removeChild, if_neg (fun hdot => hdot.elim (Ne.symm hname.2.2.2.1) (Ne.symm hname.2.2.2.2)),
          hrun]
        rfl
      have hdir₁ : h₁.tree.kindAt (comps path) = some .dir := by
        rw [hprunes.outside _ fun hpre => ?_, hdir]
        have hlen := hpre.length_le
        rw [List.length_append, List.length_singleton] at hlen
        omega
      obtain ⟨hfresh, hrest⟩ := List.nodup_cons.mp distinct
      obtain ⟨h₂, hloop, hprunes₂, hdir₂⟩ := ihn hrest hdir₁ (by
        intro m hm
        obtain ⟨hmname, k, hmk⟩ := there m (List.mem_cons_of_mem n hm)
        refine ⟨hmname, k, ?_⟩
        rw [hprunes.outside _ fun hpre => ?_, hmk]
        have hsame := hpre.eq_of_length (by simp)
        have heq : n = m := by simpa using hsame
        exact hfresh (heq ▸ hm)) (fun l k hl => within l k (hprunes.only l k hl))
      have hpart := hprunes.of_prefix (List.prefix_append (comps path) [n])
      refine ⟨h₂, ?_, hpart.trans hprunes₂, hdir₂⟩
      rw [List.foldlM_cons, hround]
      exact hloop

/-- One call, given that the calls on what is in the directory do what they should. -/
theorem tfRemovelink_succ
    (ih : ∀ {path : Bytes} {h : Host} {k : NodeKind}, path ≠ [] →
      h.tree.kindAt (comps path) = some k → (k = .symlink → hasTail path = false) →
      Within h.tree (comps path) fuel → Removes refuse fuel path h)
    {h : Host} {k : NodeKind} (hne : path ≠ []) (hk : h.tree.kindAt (comps path) = some k)
    (plain : k = .symlink → hasTail path = false)
    (within : Within h.tree (comps path) (fuel + 1)) : Removes refuse (fuel + 1) path h := by
  obtain ⟨sbuf, hlstat, hsbuf⟩ := lstat_found hne hk plain (refuse h.calls)
  rcases hsbuf with rfl | rfl
  · refine ⟨false, ⟨h.tree, h.calls + 1⟩, ?_, .refl _ _, iff_of_false nofun (FileTree.not_gone hk)⟩
    simp only [tfRemovelink, Host.call, hlstat, ok_bind]
  obtain ⟨done, t₁, hunlink, hdone⟩ := unlink_found hne hk (refuse (h.calls + 1))
  rcases hdone with ⟨rfl, hprunes, hgone⟩ | ⟨rfl, rfl⟩
  · refine ⟨true, ⟨t₁, h.calls + 1 + 1⟩, ?_, hprunes, iff_of_true rfl hgone⟩
    simp only [tfRemovelink, Host.call, hlstat, hunlink, ok_bind, if_true]
  by_cases hdir : k = .dir
  · subst hdir
    obtain ⟨out, n, hreaddir, hout⟩ := @tfReaddir_found refuse _ ⟨h.tree, h.calls + 1 + 1⟩ hne hk
    cases out with
    | none =>
        refine ⟨false, ⟨h.tree, n⟩, ?_, .refl _ _, iff_of_false nofun (FileTree.not_gone hk)⟩
        simp only [tfRemovelink, Host.call, hlstat, hunlink, ok_bind, Bool.false_eq_true, if_false,
          ne_eq, not_true_eq_false, hreaddir]
    | some names =>
        obtain rfl := hout names rfl
        obtain ⟨h₂, hloop, hprunes, hdir₂⟩ := removeChildren_prunes ih (h := ⟨h.tree, n⟩)
          (h.tree.children_nodup (comps path)) hk
          (fun m hm => ⟨FileTree.named_child hm, FileTree.mem_children.mp hm⟩) within
        obtain ⟨done, u, hrmdir, hdone⟩ := rmdir_found hne hdir₂ (refuse h₂.calls)
        have hrun : tfRemovelink refuse (fuel + 1) path h = .ok (done, ⟨u, h₂.calls + 1⟩) := by
          unfold removeChild at hloop
          simp only [tfRemovelink, Host.call, hlstat, hunlink, ok_bind, Bool.false_eq_true,
            if_false, ne_eq, not_true_eq_false, hreaddir, hloop, hrmdir]
        refine ⟨done, ⟨u, h₂.calls + 1⟩, hrun, ?_⟩
        rcases hdone with ⟨rfl, hprunes₂, hgone⟩ | ⟨rfl, rfl⟩
        · exact ⟨hprunes.trans hprunes₂, iff_of_true rfl hgone⟩
        · exact ⟨hprunes, iff_of_false nofun (FileTree.not_gone hdir₂)⟩
  · refine ⟨false, ⟨h.tree, h.calls + 1 + 1⟩, ?_, .refl _ _,
      iff_of_false nofun (FileTree.not_gone hk)⟩
    simp only [tfRemovelink, Host.call, hlstat, hunlink, ok_bind, Bool.false_eq_true, if_false,
      ne_eq, hdir, not_false_eq_true, if_true]

/-- Enough fuel for the nodes below makes every call do what it should. -/
theorem tfRemovelink_removes (refuse : Nat → Bool) {fuel : Nat} {path : Bytes} {h : Host}
    {k : NodeKind} (hne : path ≠ []) (hk : h.tree.kindAt (comps path) = some k)
    (plain : k = .symlink → hasTail path = false) (within : Within h.tree (comps path) fuel) :
    Removes refuse fuel path h := by
  induction fuel generalizing path h k with
  | zero => exact absurd (within _ k hk) (Nat.lt_irrefl _)
  | succ fuel ih => exact tfRemovelink_succ ih hne hk plain within

end

/-- Whatever calls are refused, `tf_removelink` returns, follows no link, takes away nothing that is
not at its path or below, and returns true exactly when all of that is gone. -/
theorem tfRemovelink_gone (refuse : Nat → Bool) (t : Volume) (path : Bytes) {k : NodeKind}
    (node : t.kindAt (comps path) = some k) (plain : k = .symlink → hasTail path = false)
    {fuel : Nat} (deep : t.height < fuel) : Removes refuse fuel path ⟨t, 0⟩ := by
  by_cases hne : path = []
  · subst hne
    refine ⟨false, ⟨t, 1⟩, ?_, .refl _ _, iff_of_false nofun (FileTree.not_gone node)⟩
    obtain ⟨fuel, rfl⟩ := Nat.exists_eq_succ_of_ne_zero (Nat.ne_of_gt (Nat.zero_lt_of_lt deep))
    have hlstat : lstat [] (refuse 0) t = .ok (none, t) := by
      rw [lstat]
      split <;> rfl
    simp only [tfRemovelink, Host.call, hlstat, ok_bind]
  · refine tfRemovelink_removes refuse hne node plain fun l k hl => ?_
    have hlen : l.length ≤ t.height := FileTree.length_le_height hl
    omega

/-- A directory `a` with a file `b` and a link `c` in it, and a file `d` beside it. -/
def smallVolume : Volume where
  entries := [⟨[[97]], .dir⟩, ⟨[[97], [98]], .file⟩, ⟨[[97], [99]], .symlink⟩, ⟨[[100]], .file⟩]
  named := by decide
  rooted := by decide
  unique := by decide
  parents := by decide

/-- `a/`, where the system refuses to remove the file: what is left of it is the file in its directory. -/
theorem tfRemovelink_gone_small : smallVolume.kindAt (comps [97, 47]) = some .dir ∧
    smallVolume.height < 3 ∧ Removes (fun n => n = 4) 3 [97, 47] ⟨smallVolume, 0⟩ :=
  ⟨by decide, by decide, tfRemovelink_gone _ _ _ (by decide : smallVolume.kindAt _ = some .dir) nofun
    (by decide)⟩

end Tflib.File
