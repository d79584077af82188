import Mathlib.Data.List.DropRight
import Mathlib.Data.List.TakeWhile

/-! # Trimming lists

A list is trimmed by a predicate: the elements at its ends that satisfy it are
dropped. Dropping as many elements as satisfy the predicate anywhere is not the
same; it is where they all stand in front.
-/

namespace Tflib.Core

universe u

variable {α : Type u} (p : α → Bool)

/-- The list without the elements at its ends that satisfy `p`. -/
def trim (xs : List α) : List α := (xs.dropWhile p).rdropWhile p

variable {p}

theorem dropWhile_of_head {xs : List α} (h : ∀ x ∈ xs.head?, p x = false) : xs.dropWhile p = xs := by
  cases xs with
  | nil => rfl
  | cons x xs => exact List.dropWhile_cons_of_neg (by simp [h x rfl])

theorem rdropWhile_of_last {xs : List α} (h : ∀ x ∈ xs.getLast?, p x = false) :
    xs.rdropWhile p = xs := by
  rw [List.rdropWhile_eq_self_iff]
  intro hne
  simp [h _ (List.getLast?_eq_getLast_of_ne_nil hne)]

theorem head_dropWhile (xs : List α) : ∀ x ∈ (xs.dropWhile p).head?, p x = false := by
  intro x hx
  have hhead := List.head?_dropWhile_not p xs
  rw [Option.mem_def.mp hx] at hhead
  simpa using hhead

theorem last_rdropWhile (xs : List α) : ∀ x ∈ (xs.rdropWhile p).getLast?, p x = false := by
  intro x hx
  rw [List.rdropWhile, List.getLast?_reverse] at hx
  exact head_dropWhile _ x hx

theorem trim_last (xs : List α) : ∀ x ∈ (trim p xs).getLast?, p x = false := last_rdropWhile _

theorem trim_head (xs : List α) : ∀ x ∈ (trim p xs).head?, p x = false := by
  intro x hx
  obtain ⟨rest, hrest⟩ := List.rdropWhile_prefix p (xs.dropWhile p)
  apply head_dropWhile xs x
  rw [← hrest, Option.mem_def, List.head?_append, ← trim, Option.mem_def.mp hx]
  rfl

theorem trim_trim (xs : List α) : trim p (trim p xs) = trim p xs := by
  conv_lhs => rw [trim, dropWhile_of_head (trim_head xs)]
  exact rdropWhile_of_last (trim_last xs)

/-- What does not satisfy the predicate is kept. -/
theorem filter_trim {q : α → Bool} (h : ∀ x, p x = true → q x = false) (xs : List α) :
    (trim p xs).filter q = xs.filter q := by
  have hnone : ∀ ys : List α, (∀ y ∈ ys, p y = true) → ys.filter q = [] := fun ys hys =>
    List.filter_eq_nil_iff.mpr fun y hy => by simp [h y (hys y hy)]
  have hfront := hnone (xs.takeWhile p) fun x hx => List.mem_takeWhile_imp hx
  have hback := hnone ((xs.dropWhile p).rtakeWhile p) fun x hx => List.mem_rtakeWhile_imp hx
  conv_rhs => rw [← List.takeWhile_append_dropWhile (p := p) (l := xs), List.filter_append, hfront,
    List.nil_append, ← List.rdropWhile_append_rtakeWhile (p := p) (l := xs.dropWhile p),
    List.filter_append, hback, List.append_nil]
  rfl

theorem dropWhile_append_front {lead xs : List α} (hlead : ∀ x ∈ lead, p x = true) :
    (lead ++ xs).dropWhile p = xs.dropWhile p := List.dropWhile_append_of_pos hlead

/-- A run of elements that satisfy `p` ends where the next one does not. -/
theorem run_append {run rest : List α} (hrun : ∀ x ∈ run, p x = true)
    (hstop : ∀ x ∈ rest.head?, p x = false) :
    (run ++ rest).takeWhile p = run ∧ (run ++ rest).dropWhile p = rest := by
  rw [List.takeWhile_append_of_pos hrun, dropWhile_append_front hrun, dropWhile_of_head hstop]
  refine ⟨?_, rfl⟩
  cases rest with
  | nil => rw [List.takeWhile_nil, List.append_nil]
  | cons x rest => rw [List.takeWhile_cons_of_neg (by simp [hstop x rfl]), List.append_nil]

theorem rdropWhile_append_back {xs trail : List α} (htrail : ∀ x ∈ trail, p x = true) :
    (xs ++ trail).rdropWhile p = xs.rdropWhile p := by
  rw [List.rdropWhile, List.reverse_append,
    List.dropWhile_append_of_pos fun x hx => htrail x (List.mem_reverse.mp hx), ← List.rdropWhile]

/-- A list that neither begins nor ends with `p` is what is left when it is trimmed. -/
theorem trim_append {lead core trail : List α} (hlead : ∀ x ∈ lead, p x = true)
    (htrail : ∀ x ∈ trail, p x = true) (hhead : ∀ x ∈ core.head?, p x = false)
    (hlast : ∀ x ∈ core.getLast?, p x = false) : trim p (lead ++ (core ++ trail)) = core := by
  rw [trim, dropWhile_append_front hlead]
  cases core with
  | nil =>
      rw [List.nil_append, List.dropWhile_eq_nil_iff.mpr htrail]
      rfl
  | cons x core =>
      have hfront : ∀ y ∈ (x :: core ++ trail).head?, p y = false := hhead
      rw [dropWhile_of_head hfront, rdropWhile_append_back htrail, rdropWhile_of_last hlast]

/-- A prefix that does not have the first element behind a list lies in the list. -/
theorem prefix_of_append {word xs ys : List α} (h : word <+: xs ++ ys)
    (hnext : ∀ y ∈ ys.head?, y ∉ word) : word <+: xs := by
  rcases List.prefix_or_prefix_of_prefix h (List.prefix_append xs ys) with hin | ⟨rest, rfl⟩
  · exact hin
  · have hrest : rest <+: ys := (List.prefix_append_right_inj xs).mp h
    cases rest with
    | nil => exact ⟨[], by rw [List.append_nil, List.append_nil]⟩
    | cons y rest =>
        obtain ⟨behind, rfl⟩ := hrest
        exact absurd (List.mem_append_right xs List.mem_cons_self) (hnext y rfl)

/-! ## Dropping by count -/

section Count

variable (q : α → Bool)

theorem length_drop_countP (xs : List α) :
    (xs.drop (xs.countP q)).length = xs.countP fun x => !q x := by
  have hsplit := List.length_eq_countP_add_countP q (l := xs)
  have hnot : xs.countP (fun x => decide (¬ q x = true)) = xs.countP fun x => !q x := by
    congr 1
    funext x
    cases q x <;> rfl
  rw [List.length_drop]
  omega

theorem drop_countP (xs : List α) :
    xs.drop (xs.countP q) = (xs.dropWhile q).drop ((xs.dropWhile q).countP q) := by
  have hfront : (xs.takeWhile q).countP q = (xs.takeWhile q).length :=
    List.countP_eq_length.mpr fun x hx => List.mem_takeWhile_imp hx
  conv_lhs => rw [← List.takeWhile_append_dropWhile (p := q) (l := xs)]
  rw [List.countP_append, hfront, ← List.drop_drop, List.drop_left]

/-- Dropping by count drops the elements in front where none stands behind them. -/
theorem drop_countP_eq_dropWhile_iff (xs : List α) :
    xs.drop (xs.countP q) = xs.dropWhile q ↔ ∀ x ∈ xs.dropWhile q, q x = false := by
  rw [drop_countP]
  generalize xs.dropWhile q = mid
  have hnone : (∀ x ∈ mid, q x = false) ↔ mid.countP q = 0 := by
    rw [List.countP_eq_zero]
    simp
  rw [hnone]
  constructor
  · intro h
    have hle := List.countP_le_length (p := q) (l := mid)
    have hlength := congrArg List.length h
    rw [List.length_drop] at hlength
    omega
  · intro h
    rw [h, List.drop_zero]

/-- It trims the list where none stands behind those in front. -/
theorem drop_countP_eq_trim_iff (xs : List α) :
    xs.drop (xs.countP q) = trim q xs ↔ ∀ x ∈ xs.dropWhile q, q x = false := by
  constructor
  · intro h
    have hhead := head_dropWhile (p := q) xs
    rw [drop_countP, trim] at h
    generalize xs.dropWhile q = mid at h hhead ⊢
    have hsplit := List.rdropWhile_append_rtakeWhile (p := q) (l := mid)
    have htrail : ∀ x ∈ mid.rtakeWhile q, q x = true := fun x hx => List.mem_rtakeWhile_imp hx
    generalize mid.rdropWhile q = core at h hsplit
    generalize mid.rtakeWhile q = trail at htrail hsplit
    subst hsplit
    -- what is kept are as many elements as do not satisfy `q`, so all of them do not
    have hkept := length_drop_countP q (core ++ trail)
    have hnone : trail.countP (fun x => !q x) = 0 :=
      List.countP_eq_zero.mpr fun x hx => by simp [htrail x hx]
    rw [h, List.countP_append, hnone, Nat.add_zero] at hkept
    have hcore : ∀ x ∈ core, q x = false := fun x hx => by
      simpa using List.countP_eq_length.mp hkept.symm x hx
    have hzero : core.countP q = 0 := List.countP_eq_zero.mpr fun x hx => by simp [hcore x hx]
    rw [List.countP_append, hzero, Nat.zero_add, List.countP_eq_length.mpr htrail] at h
    rcases List.eq_nil_or_concat trail with rfl | ⟨front, last, rfl⟩
    · rwa [List.append_nil]
    · rw [List.concat_eq_append] at h htrail hhead
      have hlast : q last = true := htrail last (List.mem_append_right _ (List.mem_singleton_self _))
      have hne : core ≠ [] := by
        rintro rfl
        cases front with
        | nil => simp [hhead last rfl] at hlast
        | cons x front => simp [hhead x rfl] at htrail
      have hend := congrArg List.getLast? h
      have hpos := List.length_pos_iff.mpr hne
      rw [List.getLast?_drop, if_neg (by rw [List.length_append]; omega), ← List.append_assoc,
        List.getLast?_concat] at hend
      rw [hcore last (List.mem_of_getLast? hend.symm)] at hlast
      cases hlast
  · intro hnone
    rw [(drop_countP_eq_dropWhile_iff q xs).mpr hnone, trim, rdropWhile_of_last]
    exact fun x hx => hnone x (List.mem_of_getLast? hx)

end Count

end Tflib.Core
