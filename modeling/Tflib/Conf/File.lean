import Tflib.Conf.ParseLine
import Mathlib.Data.List.Nodup
import Mathlib.Logic.Function.Basic

/-! # Configuration files

`cfg_create`, `cfg_find_group` and `cfg_get_string` of `tf_conf_file.c`. Lists of
structures are lists of their values. A group is copied into the list of groups and
goes on being used; its copies share one list of pairs, which is named by an address.
-/

namespace Tflib.Conf

open Tflib.Core Tflib.Util

/-- `MAX_FILENAME_LEN` -/
def maxFilenameLen : Nat := 128

/-- `CFG_GROUP_ST`: the array `name`, and the address of the list `pairs`. -/
structure CfgGroup where
  name : Bytes
  pairs : Nat
  deriving DecidableEq

/-- The lists of groups and of pairs, and the current group. -/
structure CfgState where
  groups : List CfgGroup
  heap : List (List KeyVal)
  group : Option CfgGroup
  deriving DecidableEq

/-- The array after `memset` and `memcpy`. -/
def nameField (key : CString) : Bytes :=
  key.val.take maxFilenameLen ++ List.replicate (maxFilenameLen - key.val.length) 0

/-- The inner `none` is NULL. -/
def cfgFindGroup (groups : List CfgGroup) (name : CString) : Option (Option CfgGroup) :=
  match groups with
  | [] => some none
  | group :: groups => do
      let r ← tfStricmp group.name name.bytes
      if r = 0 then some (some group) else cfgFindGroup groups name

/-- One round of the loop of `cfg_create`. -/
def cfgLine (s : CfgState) (line : CString) : Option CfgState :=
  match parseLine line with
  | none => some s
  | some ⟨key, none⟩ => do
      let found ← cfgFindGroup s.groups key
      match found with
      | some group => some { s with group := some group }
      | none =>
          let group := ⟨nameField key, s.heap.length⟩
          some ⟨s.groups ++ [group], s.heap ++ [[]], some group⟩
  | some ⟨key, some value⟩ =>
      match s.group with
      | none => some s
      | some group => some { s with heap := s.heap.modify group.pairs (· ++ [⟨key, some value⟩]) }

def cfgCreate (lines : List CString) : Option CfgState := lines.foldlM cfgLine ⟨[], [], none⟩

def findPair (pairs : List KeyVal) (key : CString) : Option (Option KeyVal) :=
  match pairs with
  | [] => some none
  | kv :: pairs => do
      let r ← memcmp kv.key.bytes key.bytes (max kv.key.val.length key.val.length)
      if r = 0 then some (some kv) else findPair pairs key

def cfgGetKv (heap : List (List KeyVal)) (group : Option CfgGroup) (key : CString) :
    Option (Option KeyVal) :=
  match group with
  | none => some none
  | some group => do
      let pairs ← heap[group.pairs]?
      findPair pairs key

/-- The value or `dft`, which may be NULL. -/
def cfgGetString (heap : List (List KeyVal)) (group : Option CfgGroup) (key : CString)
    (dft : Option CString) : Option (Option CString) := do
  let kv ← cfgGetKv heap group key
  match kv with
  | some kv => kv.value.map some
  | none => some dft

/-! ## Documents -/

/-- What the lines so far say: the current section, and the pairs of every section in file order.
The case of its letters does not tell a section from another. -/
structure Doc where
  current : Option Bytes
  pairs : Bytes → List (CString × CString)

def Doc.start : Doc := ⟨none, fun _ => []⟩

/-- One more pair in a section. -/
def Doc.add (doc : Doc) (c : Bytes) (key value : CString) : Doc :=
  ⟨doc.current, Function.update doc.pairs c (doc.pairs c ++ [(key, value)])⟩

theorem Doc.add_self (doc : Doc) (c : Bytes) (key value : CString) :
    (doc.add c key value).pairs c = doc.pairs c ++ [(key, value)] := Function.update_self _ _ _

theorem Doc.add_of_ne (doc : Doc) {c d : Bytes} (h : d ≠ c) (key value : CString) :
    (doc.add c key value).pairs d = doc.pairs d := Function.update_of_ne h _ _

def Doc.line (doc : Doc) (line : CString) : Doc :=
  match parseLine line with
  | none => doc
  | some ⟨name, none⟩ => { doc with current := some (folded name) }
  | some ⟨key, some value⟩ =>
      match doc.current with
      | none => doc
      | some c => doc.add c key value

/-! ## The lines refine a document -/

/-- The groups of the sections with these first names. -/
def groupsFrom (n : Nat) (names : List CString) : List CfgGroup :=
  (names.zipIdx n).map fun m => ⟨nameField m.1, m.2⟩

def keyVals (pairs : List (CString × CString)) : List KeyVal := pairs.map fun kv => ⟨kv.1, some kv.2⟩

/-- The current group is the one of the current section. -/
def Current (names : List CString) (group : Option CfgGroup) (current : Option Bytes) : Prop :=
  (group = none ∧ current = none) ∨
    ∃ i m, names[i]? = some m ∧ group = some ⟨nameField m, i⟩ ∧ current = some (folded m)

/-- Every section has one group, under the name it was first opened with. -/
structure CfgState.Holds (s : CfgState) (doc : Doc) (names : List CString) : Prop where
  fits : ∀ m ∈ names, m.val.length < maxFilenameLen
  groups : s.groups = groupsFrom 0 names
  heap : s.heap = names.map fun m => keyVals (doc.pairs (folded m))
  distinct : (names.map folded).Nodup
  absent : ∀ c, c ∉ names.map folded → doc.pairs c = []
  current : Current names s.group doc.current

theorem CfgState.holds_start : CfgState.Holds ⟨[], [], none⟩ .start [] where
  fits _ hm := absurd hm List.not_mem_nil
  groups := rfl
  heap := rfl
  distinct := List.nodup_nil
  absent _ _ := rfl
  current := .inl ⟨rfl, rfl⟩

/-- A name that fits is followed by a zero in its array. -/
theorem tfStricmp_nameField {m : CString} (hm : m.val.length < maxFilenameLen) (g : CString) :
    ∃ r, tfStricmp (nameField m) g.bytes = some r ∧ (r = 0 ↔ folded m = folded g) := by
  obtain ⟨n, hn⟩ : ∃ n, maxFilenameLen - m.val.length = n + 1 :=
    ⟨maxFilenameLen - m.val.length - 1, by omega⟩
  have hfield : nameField m = m.val ++ 0 :: List.replicate n 0 := by
    rw [nameField, List.take_of_length_le (Nat.le_of_lt hm), hn, List.replicate_succ]
  rw [hfield]
  exact tfStricmp_spec m.2 g.2 _ _

/-- The group that is found is the one of the section with that name, if there is one. -/
theorem cfgFindGroup_from {names : List CString} (fits : ∀ m ∈ names, m.val.length < maxFilenameLen)
    (n : Nat) (g : CString) :
    (∃ i m, names[i]? = some m ∧ folded m = folded g ∧
      cfgFindGroup (groupsFrom n names) g = some (some ⟨nameField m, n + i⟩)) ∨
    (folded g ∉ names.map folded ∧ cfgFindGroup (groupsFrom n names) g = some none) := by
  induction names generalizing n with
  | nil => exact .inr ⟨List.not_mem_nil, rfl⟩
  | cons m names ih =>
      obtain ⟨r, hr, hzero⟩ := tfStricmp_nameField (fits m List.mem_cons_self) g
      have hstep : cfgFindGroup (groupsFrom n (m :: names)) g =
          if r = 0 then some (some ⟨nameField m, n⟩) else cfgFindGroup (groupsFrom (n + 1) names) g := by
        rw [groupsFrom, List.zipIdx_cons, List.map_cons, cfgFindGroup, hr]
        rfl
      by_cases hsame : folded m = folded g
      · exact .inl ⟨0, m, rfl, hsame, by rw [hstep, if_pos (hzero.mpr hsame)]; rfl⟩
      · rw [hstep, if_neg fun h => hsame (hzero.mp h)]
        rcases ih (fun x hx => fits x (List.mem_cons_of_mem m hx)) (n + 1) with
          ⟨i, x, hx, hfold, hfind⟩ | ⟨hnone, hfind⟩
        · refine .inl ⟨i + 1, x, hx, hfold, ?_⟩
          rw [hfind, Nat.add_right_comm]
          rfl
        · refine .inr ⟨?_, hfind⟩
          rw [List.map_cons, List.mem_cons, not_or]
          exact ⟨fun h => hsame h.symm, hnone⟩

/-- The names of sections at different places are different. -/
theorem place_unique {names : List CString} (h : (names.map folded).Nodup) {i j : Nat} {m n : CString}
    (hi : names[i]? = some m) (hj : names[j]? = some n) (hsame : folded m = folded n) : i = j := by
  have hfi : (names.map folded)[i]? = some (folded m) := by rw [List.getElem?_map, hi]; rfl
  have hfj : (names.map folded)[j]? = some (folded m) := by rw [List.getElem?_map, hj, hsame]; rfl
  have hlt := (List.getElem?_eq_some_iff.mp hfi).1
  exact (List.getElem?_inj hlt h).mp (hfi.trans hfj.symm)

def sectionOf (line : CString) : Option CString :=
  match parseLine line with
  | some ⟨name, none⟩ => some name
  | _ => none

/-- A line's section name fits in the array. -/
def NameFits (line : CString) : Prop :=
  ∀ name, parseLine line = some ⟨name, none⟩ → name.val.length < maxFilenameLen

instance (line : CString) : Decidable (NameFits line) :=
  match hline : parseLine line with
  | none => isTrue fun name h => by rw [hline] at h; contradiction
  | some ⟨_, some _⟩ => isTrue fun name h => by rw [hline] at h; cases h
  | some ⟨key, none⟩ =>
      decidable_of_iff (key.val.length < maxFilenameLen)
        ⟨fun hlt name h => by rw [hline] at h; cases h; exact hlt, fun h => h key hline⟩

theorem CfgState.Holds.openSection {s : CfgState} {doc : Doc} {names : List CString}
    (h : s.Holds doc names) {line name : CString} (hline : parseLine line = some ⟨name, none⟩)
    (fits : name.val.length < maxFilenameLen) :
    ∃ s' names', cfgLine s line = some s' ∧ s'.Holds { doc with current := some (folded name) } names' ∧
      ∀ c, c ∈ names'.map folded ↔ c = folded name ∨ c ∈ names.map folded := by
  have hfind := cfgFindGroup_from h.fits 0 name
  rw [← h.groups] at hfind
  rcases hfind with ⟨i, m, hm, hfold, hfind⟩ | ⟨hnone, hfind⟩
  · refine ⟨{ s with group := some ⟨nameField m, i⟩ }, names, ?_, ?_, fun c => ?_⟩
    · simp only [cfgLine, hline, hfind, Nat.zero_add, Option.bind_eq_bind, Option.bind_some]
    · exact ⟨h.fits, h.groups, h.heap, h.distinct, h.absent, .inr ⟨i, m, hm, rfl, by rw [hfold]⟩⟩
    · have hmem : folded name ∈ names.map folded := hfold ▸ List.mem_map_of_mem (List.mem_of_getElem? hm)
      exact ⟨.inr, fun hc => hc.elim (fun hsame => hsame ▸ hmem) id⟩
  · have hlen : s.heap.length = names.length := by rw [h.heap, List.length_map]
    refine ⟨⟨s.groups ++ [⟨nameField name, s.heap.length⟩], s.heap ++ [[]],
      some ⟨nameField name, s.heap.length⟩⟩, names ++ [name], ?_, ⟨?_, ?_, ?_, ?_, ?_, ?_⟩, fun c => ?_⟩
    · simp only [cfgLine, hline, hfind, Option.bind_eq_bind, Option.bind_some]
    · intro m hm
      rcases List.mem_append.mp hm with hm | hm
      · exact h.fits m hm
      · rw [List.mem_singleton.mp hm]
        exact fits
    · rw [groupsFrom, List.zipIdx_append, List.map_append, ← groupsFrom, ← h.groups, hlen, Nat.zero_add]
      rfl
    · have hempty := h.absent _ hnone
      rw [List.map_append, ← h.heap, List.map_singleton, hempty]
      rfl
    · rw [List.map_append, List.nodup_append]
      refine ⟨h.distinct, List.nodup_singleton _, fun a ha b hb => ?_⟩
      rw [List.map_singleton, List.mem_singleton] at hb
      intro hab
      rw [hab, hb] at ha
      exact hnone ha
    · intro c hc
      rw [List.map_append, List.mem_append, not_or] at hc
      exact h.absent c hc.1
    · refine .inr ⟨names.length, name, ?_, by rw [hlen], rfl⟩
      rw [List.getElem?_append_right (Nat.le_refl _), Nat.sub_self]
      rfl
    · rw [List.map_append, List.mem_append, List.map_singleton, List.mem_singleton, or_comm]

theorem keyVals_append (pairs : List (CString × CString)) (key value : CString) :
    keyVals (pairs ++ [(key, value)]) = keyVals pairs ++ [⟨key, some value⟩] := by
  rw [keyVals, List.map_append]
  rfl

/-- A pair goes to the list of the current group, whichever of its copies is at hand. -/
theorem CfgState.Holds.addPair {s : CfgState} {doc : Doc} {names : List CString}
    (h : s.Holds doc names) {i : Nat} {m : CString} (hm : names[i]? = some m)
    (hcurrent : doc.current = some (folded m)) (hgroup : s.group = some ⟨nameField m, i⟩)
    (key value : CString) :
    CfgState.Holds ⟨s.groups, s.heap.modify i (· ++ [⟨key, some value⟩]), s.group⟩
      (doc.add (folded m) key value) names where
  fits := h.fits
  groups := h.groups
  heap := by
    change s.heap.modify i _ = _
    rw [h.heap]
    apply List.ext_getElem?
    intro j
    rw [List.getElem?_modify, List.getElem?_map, List.getElem?_map]
    cases hn : names[j]? with
    | none => rfl
    | some n =>
        simp only [Option.map_some, Option.map_eq_map]
        by_cases hij : i = j
        · subst hij
          rw [hm] at hn
          cases hn
          rw [if_pos rfl, doc.add_self, keyVals_append]
        · have hne : folded n ≠ folded m := fun hsame => hij (place_unique h.distinct hm hn hsame.symm)
          rw [if_neg hij, doc.add_of_ne hne]
  distinct := h.distinct
  absent c hc := by
    have hne : c ≠ folded m := by
      intro hsame
      exact hc (hsame ▸ List.mem_map_of_mem (List.mem_of_getElem? hm))
    rw [doc.add_of_ne hne]
    exact h.absent c hc
  current := .inr ⟨i, m, hm, hgroup, hcurrent⟩

/-- One line, which has a section name or leaves the names alone. -/
theorem CfgState.Holds.line {s : CfgState} {doc : Doc} {names : List CString} (h : s.Holds doc names)
    (line : CString) (fits : NameFits line) :
    ∃ s' names', cfgLine s line = some s' ∧ s'.Holds (doc.line line) names' ∧
      ∀ c, c ∈ names'.map folded ↔ (sectionOf line).map folded = some c ∨ c ∈ names.map folded := by
  unfold Doc.line sectionOf
  have hsame : ∀ c, c ∈ names.map folded ↔
      (none : Option CString).map folded = some c ∨ c ∈ names.map folded :=
    fun c => ⟨.inr, fun h => h.resolve_left fun hnone => nomatch hnone⟩
  match hline : parseLine line with
  | none =>
      refine ⟨s, names, ?_, h, hsame⟩
      simp only [cfgLine, hline]
  | some ⟨name, none⟩ =>
      obtain ⟨s', names', hstep, hholds, hmem⟩ := h.openSection hline (fits name hline)
      refine ⟨s', names', hstep, hholds, fun c => ?_⟩
      rw [hmem, Option.map_some, Option.some.injEq, eq_comm]
  | some ⟨key, some value⟩ =>
      rcases h.current with ⟨hgroup, hcurrent⟩ | ⟨i, m, hm, hgroup, hcurrent⟩
      · refine ⟨s, names, ?_, ?_, hsame⟩
        · simp only [cfgLine, hline, hgroup]
        · simp only [hcurrent]
          exact h
      · refine ⟨⟨s.groups, s.heap.modify i (· ++ [⟨key, some value⟩]), s.group⟩, names, ?_, ?_, hsame⟩
        · simp only [cfgLine, hline, hgroup]
        · simp only [hcurrent]
          exact h.addPair hm hcurrent hgroup key value

/-- All lines, by induction on them. -/
theorem CfgState.Holds.lines {s : CfgState} {doc : Doc} {names : List CString} (h : s.Holds doc names)
    {lines : List CString} (fits : ∀ line ∈ lines, NameFits line) :
    ∃ s' names', lines.foldlM cfgLine s = some s' ∧ s'.Holds (lines.foldl Doc.line doc) names' ∧
      ∀ c, c ∈ names'.map folded ↔ c ∈ (lines.filterMap sectionOf).map folded ∨ c ∈ names.map folded := by
  induction lines generalizing s doc names with
  | nil => exact ⟨s, names, rfl, h, fun c => ⟨.inr, fun hc => hc.resolve_left List.not_mem_nil⟩⟩
  | cons line lines ih =>
      obtain ⟨t, mid, hline, ht, hmid⟩ := h.line line (fits line List.mem_cons_self)
      obtain ⟨s', names', hlines, hs', hnames⟩ := ih ht fun x hx => fits x (List.mem_cons_of_mem line hx)
      refine ⟨s', names', ?_, hs', fun c => ?_⟩
      · rw [List.foldlM_cons, hline]
        exact hlines
      · rw [hnames, hmid, ← or_assoc]
        cases hsection : sectionOf line with
        | none =>
            rw [List.filterMap_cons_none hsection, Option.map_none]
            simp
        | some name =>
            rw [List.filterMap_cons_some hsection, List.map_cons, List.mem_cons, Option.map_some,
              Option.some.injEq, or_comm (a := c ∈ _), eq_comm]

/-! ## Lookups -/

/-- The first pair with exactly this key. -/
def lookup (pairs : List (CString × CString)) (key : CString) : Option CString :=
  (pairs.find? fun kv => kv.1 = key).map Prod.snd

theorem findPair_keyVals (pairs : List (CString × CString)) (key : CString) :
    findPair (keyVals pairs) key =
      some ((pairs.find? fun kv => kv.1 = key).map fun kv => ⟨kv.1, some kv.2⟩) := by
  induction pairs with
  | nil => rfl
  | cons kv pairs ih =>
      obtain ⟨r, hr, hzero⟩ := memcmp_spec kv.1.2 key.2 [] []
      have hstep : findPair (keyVals (kv :: pairs)) key =
          if r = 0 then some (some ⟨kv.1, some kv.2⟩) else findPair (keyVals pairs) key := by
        change (memcmp kv.1.bytes key.bytes (max kv.1.val.length key.val.length) >>= fun r =>
          if r = 0 then _ else _) = _
        rw [CString.bytes, CString.bytes, hr]
        rfl
      rw [hstep, List.find?_cons]
      by_cases hsame : kv.1 = key
      · rw [if_pos (hzero.mpr (congrArg Subtype.val hsame))]
        simp only [hsame, decide_true, Option.map_some]
      · rw [if_neg fun h => hsame (Subtype.ext (hzero.mp h)), ih]
        simp only [hsame, decide_false]

/-- What is looked up in a group is what the document says of its section. -/
theorem CfgState.Holds.lookup {s : CfgState} {doc : Doc} {names : List CString} (h : s.Holds doc names)
    (g key : CString) (dft : Option CString) :
    ∃ group, cfgFindGroup s.groups g = some group ∧
      cfgGetString s.heap group key dft =
        some ((lookup (doc.pairs (folded g)) key).elim dft some) := by
  have hfind := cfgFindGroup_from h.fits 0 g
  rw [← h.groups] at hfind
  rcases hfind with ⟨i, m, hm, hfold, hfind⟩ | ⟨hnone, hfind⟩
  · refine ⟨_, hfind, ?_⟩
    have hheap : s.heap[0 + i]? = some (keyVals (doc.pairs (folded m))) := by
      rw [h.heap, Nat.zero_add, List.getElem?_map, hm]
      rfl
    simp only [cfgGetString, cfgGetKv, hheap, findPair_keyVals, hfold, Option.bind_eq_bind,
      Option.bind_some, Conf.lookup]
    cases (doc.pairs (folded g)).find? fun kv => kv.1 = key with
    | none => rfl
    | some kv => rfl
  · refine ⟨none, hfind, ?_⟩
    rw [h.absent _ hnone]
    rfl

/-! ## Which line answers -/

/-- The name on the most recent section line. -/
def lastSection (lines : List CString) : Option CString := (lines.filterMap sectionOf).getLast?

/-- Line `i` is a pair with the key `key` and the value `value`, in a section with this folded name. -/
def Answers (lines : List CString) (c : Bytes) (key : CString) (i : Nat) (value : CString) : Prop :=
  lines[i]?.bind parseLine = some ⟨key, some value⟩ ∧ (lastSection (lines.take i)).map folded = some c

/-- `value` stands on the first line that answers, and there is one exactly if it is not `none`. -/
def FirstAnswer (lines : List CString) (c : Bytes) (key : CString) : Option CString → Prop
  | none => ∀ i value, ¬ Answers lines c key i value
  | some value => ∃ i, Answers lines c key i value ∧ ∀ j other, Answers lines c key j other → i ≤ j

theorem lastSection_append (lines : List CString) (line : CString) :
    lastSection (lines ++ [line]) = (sectionOf line).or (lastSection lines) := by
  rw [lastSection, List.filterMap_append]
  cases h : sectionOf line with
  | none =>
      rw [List.filterMap_cons_none h, List.filterMap_nil, List.append_nil]
      rfl
  | some name =>
      rw [List.filterMap_cons_some h, List.filterMap_nil, List.getLast?_append]
      rfl

/-- One more line answers at its own place, and leaves the answers before it alone. -/
theorem answers_append {lines : List CString} {line : CString} {c : Bytes} {key value : CString} {i : Nat} :
    Answers (lines ++ [line]) c key i value ↔
      Answers lines c key i value ∨ (i = lines.length ∧ parseLine line = some ⟨key, some value⟩ ∧
        (lastSection lines).map folded = some c) := by
  unfold Answers
  rcases Nat.lt_trichotomy i lines.length with hlt | rfl | hgt
  · rw [List.getElem?_append_left hlt, List.take_append_of_le_length (Nat.le_of_lt hlt)]
    constructor
    · exact .inl
    · rintro (h | ⟨heq, -⟩)
      · exact h
      · omega
  · have hself : (lines ++ [line])[lines.length]? = some line := by
      rw [List.getElem?_append_right (Nat.le_refl _), Nat.sub_self]
      rfl
    rw [hself, List.take_left, List.getElem?_eq_none (Nat.le_refl _)]
    constructor
    · exact fun h => .inr ⟨rfl, h⟩
    · rintro (⟨h, -⟩ | ⟨-, h⟩)
      · contradiction
      · exact h
  · have hnone : (lines ++ [line])[i]? = none := by
      rw [List.getElem?_eq_none]
      rw [List.length_append, List.length_singleton]
      omega
    rw [hnone, List.getElem?_eq_none (Nat.le_of_lt hgt)]
    constructor
    · rintro ⟨h, -⟩
      contradiction
    · rintro (⟨h, -⟩ | ⟨heq, -⟩)
      · contradiction
      · omega

theorem Answers.lt {lines : List CString} {c : Bytes} {key value : CString} {i : Nat}
    (h : Answers lines c key i value) : i < lines.length := by
  by_contra hge
  have hpair := h.1
  rw [List.getElem?_eq_none (by omega)] at hpair
  contradiction

/-- A line that answers nothing new. -/
theorem FirstAnswer.append_same {lines : List CString} {line : CString} {c : Bytes} {key : CString}
    {r : Option CString} (h : FirstAnswer lines c key r)
    (hline : ∀ value, parseLine line = some ⟨key, some value⟩ → (lastSection lines).map folded ≠ some c) :
    FirstAnswer (lines ++ [line]) c key r := by
  have hiff : ∀ i value, Answers (lines ++ [line]) c key i value ↔ Answers lines c key i value := by
    intro i value
    rw [answers_append, or_iff_left]
    rintro ⟨-, hpair, hsection⟩
    exact hline value hpair hsection
  cases r with
  | none => exact fun i value hans => h i value ((hiff i value).mp hans)
  | some value =>
      obtain ⟨i, hans, hfirst⟩ := h
      exact ⟨i, (hiff i value).mpr hans, fun j other hj => hfirst j other ((hiff j other).mp hj)⟩

/-- A line that answers. It is the first one where no line answered before. -/
theorem FirstAnswer.append_new {lines : List CString} {line : CString} {c : Bytes} {key value : CString}
    {r : Option CString} (h : FirstAnswer lines c key r)
    (hline : parseLine line = some ⟨key, some value⟩) (hsection : (lastSection lines).map folded = some c) :
    FirstAnswer (lines ++ [line]) c key (r.or (some value)) := by
  cases r with
  | none =>
      refine ⟨lines.length, answers_append.mpr (.inr ⟨rfl, hline, hsection⟩), fun j other hj => ?_⟩
      rcases answers_append.mp hj with hold | ⟨rfl, -⟩
      · exact absurd hold (h j other)
      · exact Nat.le_refl _
  | some first =>
      obtain ⟨i, hans, hfirst⟩ := h
      refine ⟨i, answers_append.mpr (.inl hans), fun j other hj => ?_⟩
      rcases answers_append.mp hj with hold | ⟨rfl, -⟩
      · exact hfirst j other hold
      · exact Nat.le_of_lt hans.lt

theorem lookup_append (pairs : List (CString × CString)) (key other value : CString) :
    lookup (pairs ++ [(other, value)]) key =
      (lookup pairs key).or (if other = key then some value else none) := by
  rw [lookup, List.find?_append, lookup]
  cases pairs.find? fun kv => kv.1 = key with
  | some kv => rfl
  | none =>
      rw [Option.none_or, Option.map_none, Option.none_or]
      by_cases h : other = key
      · simp [h]
      · simp [h]

/-- The document knows the current section and, for every key, the first line that answers. -/
theorem doc_answers (lines : List CString) :
    (lines.foldl Doc.line .start).current = (lastSection lines).map folded ∧
      ∀ c key, FirstAnswer lines c key (lookup ((lines.foldl Doc.line .start).pairs c) key) := by
  induction lines using List.reverseRecOn with
  | nil => exact ⟨rfl, fun c key i value hans => absurd hans.lt (Nat.not_lt_zero i)⟩
  | append_singleton lines line ih =>
      obtain ⟨hcurrent, hpairs⟩ := ih
      rw [List.foldl_append, List.foldl_cons, List.foldl_nil, lastSection_append]
      generalize lines.foldl Doc.line .start = doc at hcurrent hpairs ⊢
      unfold Doc.line sectionOf
      match hline : parseLine line with
      | none =>
          refine ⟨hcurrent, fun c key => (hpairs c key).append_same fun value hpair => ?_⟩
          rw [hline] at hpair
          contradiction
      | some ⟨name, none⟩ =>
          refine ⟨rfl, fun c key => (hpairs c key).append_same fun value hpair => ?_⟩
          rw [hline] at hpair
          cases hpair
      | some ⟨other, some value⟩ =>
          cases hdoc : doc.current with
          | none =>
              simp only [hdoc]
              refine ⟨hdoc ▸ hcurrent, fun c key => (hpairs c key).append_same fun v hpair hsection => ?_⟩
              rw [← hcurrent, hdoc] at hsection
              contradiction
          | some c =>
              rw [hdoc] at hcurrent
              refine ⟨hdoc.trans hcurrent, fun d key => ?_⟩
              change FirstAnswer _ d key (lookup ((doc.add c other value).pairs d) key)
              by_cases hd : d = c
              · subst hd
                rw [doc.add_self, lookup_append]
                by_cases hkey : other = key
                · subst hkey
                  rw [if_pos rfl]
                  exact (hpairs d other).append_new hline hcurrent.symm
                · rw [if_neg hkey, Option.or_none]
                  refine (hpairs d key).append_same fun v hpair => ?_
                  rw [hline] at hpair
                  cases hpair
                  exact absurd rfl hkey
              · rw [doc.add_of_ne hd]
                refine (hpairs d key).append_same fun v _ hsection => ?_
                rw [← hcurrent] at hsection
                cases hsection
                exact hd rfl

/-- A section that is opened again in other letters. -/
def reopened : List CString :=
  [⟨"a = 0".toList.map Char.toUInt8, by decide⟩, ⟨"[Main]".toList.map Char.toUInt8, by decide⟩,
    ⟨"a = 1 # one".toList.map Char.toUInt8, by decide⟩, ⟨"group other".toList.map Char.toUInt8, by decide⟩,
    ⟨"b = 2".toList.map Char.toUInt8, by decide⟩, ⟨"[MAIN]".toList.map Char.toUInt8, by decide⟩,
    ⟨"b: 3".toList.map Char.toUInt8, by decide⟩]

end Tflib.Conf
