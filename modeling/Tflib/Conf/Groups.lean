import Tflib.Conf.File
import Mathlib.Data.List.Dedup

/-! # The names of sections

A name of `MAX_FILENAME_LEN` bytes or more is cut when it is stored and then has no
zero in its array. The names that fit are found again, each in one group.
-/

namespace Tflib.Conf

open Tflib.Core Tflib.Util

/-- What the groups of a file are meant to be. -/
structure WellFiled (lines : List CString) (cfg : CfgState) : Prop where
  terminated : ∀ g ∈ cfg.groups, g.name.length = maxFilenameLen ∧ 0 ∈ g.name
  inside : ∀ name, cfgFindGroup cfg.groups name ≠ none
  found : ∀ line ∈ lines, ∀ name, sectionOf line = some name →
    ∃ g, cfgFindGroup cfg.groups name = some (some g)
  once : cfg.groups.length = ((lines.filterMap sectionOf).map folded).dedup.length

/-! ## Stored names -/

theorem nameField_length (m : CString) : (nameField m).length = maxFilenameLen := by
  rw [nameField, List.length_append, List.length_take, List.length_replicate]
  omega

theorem nameField_terminated {m : CString} (h : m.val.length < maxFilenameLen) : 0 ∈ nameField m := by
  refine List.mem_append_right _ (List.mem_replicate.mpr ⟨?_, rfl⟩)
  omega

theorem groupsFrom_length (n : Nat) (names : List CString) :
    (groupsFrom n names).length = names.length := by
  rw [groupsFrom, List.length_map, List.length_zipIdx]

theorem mem_groupsFrom {n : Nat} {names : List CString} {g : CfgGroup} (h : g ∈ groupsFrom n names) :
    ∃ m ∈ names, g.name = nameField m := by
  obtain ⟨⟨m, i⟩, hm, rfl⟩ := List.mem_map.mp h
  exact ⟨m, List.fst_mem_of_mem_zipIdx hm, rfl⟩

/-! ## Names that are found -/

/-- A name is equal to what is longer only. -/
theorem tfStricmp_zero {a name : Bytes} (hzero : 0 ∉ name) (h : tfStricmp a (name ++ [0]) = some 0) :
    name.length < a.length := by
  induction a generalizing name with
  | nil => cases h
  | cons x a ih =>
      cases name with
      | nil => exact Nat.succ_pos _
      | cons d name =>
          have hd : d ≠ 0 := (List.ne_of_not_mem_cons hzero).symm
          rw [List.cons_append, tfStricmp] at h
          by_cases hx : x ≠ 0
          · rw [if_pos hx, if_neg hd] at h
            split at h
            · rename_i hne
              rw [Option.some.injEq] at h
              exact absurd (UInt8.toNat_inj.mp (by omega)) hne
            · exact Nat.succ_lt_succ (ih (List.not_mem_of_not_mem_cons hzero) h)
          · rw [if_neg hx, if_neg hd] at h
            cases h

theorem cfgFindGroup_some {groups : List CfgGroup} {name : CString} {g : CfgGroup}
    (h : cfgFindGroup groups name = some (some g)) :
    g ∈ groups ∧ tfStricmp g.name name.bytes = some 0 := by
  induction groups with
  | nil => cases h
  | cons first groups ih =>
      rw [cfgFindGroup, Option.bind_eq_bind, Option.bind_eq_some_iff] at h
      obtain ⟨r, hr, hrest⟩ := h
      split at hrest
      · rename_i hsame
        cases hrest
        exact ⟨List.mem_cons_self, hsame ▸ hr⟩
      · obtain ⟨hmem, hcmp⟩ := ih hrest
        exact ⟨List.mem_cons_of_mem first hmem, hcmp⟩

/-- A name that is found is shorter than its array. -/
theorem WellFiled.nameFits {lines : List CString} {cfg : CfgState} (h : WellFiled lines cfg)
    {line : CString} (hline : line ∈ lines) : NameFits line := by
  intro name hname
  have hsection : sectionOf line = some name := by rw [sectionOf, hname]
  obtain ⟨g, hfind⟩ := h.found line hline name hsection
  obtain ⟨hmem, hcmp⟩ := cfgFindGroup_some hfind
  have hlen := tfStricmp_zero name.2 hcmp
  rwa [(h.terminated g hmem).1] at hlen

/-- The sections are kept as they should be where every name fits. -/
theorem wellFiled_iff (lines : List CString) :
    (∃ cfg, cfgCreate lines = some cfg ∧ WellFiled lines cfg) ↔ ∀ line ∈ lines, NameFits line := by
  constructor
  · rintro ⟨cfg, -, hfiled⟩ line hline
    exact hfiled.nameFits hline
  · intro fits
    obtain ⟨cfg, names, hcreate, hholds, hnames⟩ := CfgState.holds_start.lines fits
    refine ⟨cfg, hcreate, ?_, ?_, ?_, ?_⟩
    · intro g hg
      rw [hholds.groups] at hg
      obtain ⟨m, hm, hname⟩ := mem_groupsFrom hg
      rw [hname]
      exact ⟨nameField_length m, nameField_terminated (hholds.fits m hm)⟩
    · intro name
      rw [hholds.groups]
      rcases cfgFindGroup_from hholds.fits 0 name with ⟨i, m, -, -, hfind⟩ | ⟨-, hfind⟩
      · rw [hfind]
        exact Option.some_ne_none _
      · rw [hfind]
        exact Option.some_ne_none _
    · intro line hline name hsection
      have hopened : folded name ∈ names.map folded :=
        (hnames _).mpr (.inl (List.mem_map_of_mem (List.mem_filterMap.mpr ⟨line, hline, hsection⟩)))
      rw [hholds.groups]
      rcases cfgFindGroup_from hholds.fits 0 name with ⟨i, m, -, -, hfind⟩ | ⟨hnone, -⟩
      · exact ⟨_, hfind⟩
      · exact absurd hopened hnone
    · have hperm : (names.map folded).Perm ((lines.filterMap sectionOf).map folded).dedup := by
        rw [List.perm_ext_iff_of_nodup hholds.distinct (List.nodup_dedup _)]
        intro c
        rw [hnames, List.mem_dedup]
        exact or_iff_left List.not_mem_nil
      rw [hholds.groups, groupsFrom_length, ← hperm.length_eq, List.length_map]

/-- A name of 128 bytes in brackets. -/
def longHeader : CString :=
  ⟨'['.toUInt8 :: (List.replicate maxFilenameLen 'a'.toUInt8 ++ [']'.toUInt8]), by
    intro h
    simp only [List.mem_cons, List.mem_append, List.mem_replicate] at h
    revert h
    decide⟩

theorem longHeader_lost : ¬ ∃ cfg, cfgCreate [longHeader] = some cfg ∧ WellFiled [longHeader] cfg := by
  rintro ⟨cfg, -, hfiled⟩
  have hname : parseLine longHeader =
      some ⟨⟨List.replicate maxFilenameLen 'a'.toUInt8,
        fun h => absurd (List.eq_of_mem_replicate h) (by decide)⟩, none⟩ := by decide +kernel
  have hfits := hfiled.nameFits (List.mem_singleton_self longHeader) _ hname
  rw [List.length_replicate] at hfits
  exact Nat.lt_irrefl _ hfits

end Tflib.Conf
