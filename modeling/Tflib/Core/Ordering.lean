import Mathlib.Data.List.Sort

/-! # Sorting and searching with a comparison function

What the C library promises for `qsort` and `bsearch`. A comparison reads memory
that its arguments point to, so it may fault; the promises are about arrays on
which it does not, and on which it is consistent.
-/

namespace Tflib.Core

variable {α : Type}

/-- A comparison whose signs are those of a total preorder. -/
structure Consistent (c : α → α → Int) : Prop where
  flip : ∀ a b, 0 < c a b ↔ c b a < 0
  trans : ∀ a b d, c a b ≤ 0 → c b d ≤ 0 → c a d ≤ 0

namespace Consistent

variable {c : α → α → Int}

theorem nonpos_iff (h : Consistent c) (a b : α) : c a b ≤ 0 ↔ 0 ≤ c b a := by
  have hflip := h.flip a b
  omega

theorem total (h : Consistent c) (a b : α) : c a b ≤ 0 ∨ c b a ≤ 0 := by
  have hflip := h.flip a b
  omega

/-- Along a sorted array a key's comparisons go from positive over zero to negative. -/
theorem signs (h : Consistent c) (key : α) {xs : List α} (hsorted : xs.Pairwise fun a b => c a b ≤ 0) :
    xs.Pairwise fun a b => (c key a ≤ 0 → c key b ≤ 0) ∧ (c key a < 0 → c key b < 0) := by
  refine hsorted.imp fun {a b} hab => ⟨fun hkey => h.trans key a b hkey hab, fun hkey => ?_⟩
  refine Int.not_le.mp fun hge => ?_
  have hback := h.trans a b key hab ((h.nonpos_iff b key).mpr hge)
  exact absurd ((h.nonpos_iff a key).mp hback) (Int.not_le.mpr hkey)

end Consistent

/-! ## Lexicographic comparison -/

/-- Elements are compared one after the other; a proper prefix is smaller. -/
def lexical (c : α → α → Int) : List α → List α → Int
  | [], [] => 0
  | [], _ :: _ => -1
  | _ :: _, [] => 1
  | a :: as, b :: bs => if c a b = 0 then lexical c as bs else c a b

variable {c : α → α → Int}

theorem lexical_cons (a b : α) (as bs : List α) :
    lexical c (a :: as) (b :: bs) = if c a b = 0 then lexical c as bs else c a b := rfl

theorem Consistent.lexical_flip (h : Consistent c) (as bs : List α) :
    0 < lexical c as bs ↔ lexical c bs as < 0 := by
  induction as generalizing bs with
  | nil => cases bs <;> simp [lexical]
  | cons a as ih =>
      cases bs with
      | nil => simp [lexical]
      | cons b bs =>
          have hflip := h.flip a b
          have hback := h.flip b a
          have hrest := ih bs
          rw [lexical_cons, lexical_cons]
          split <;> split <;> omega

theorem Consistent.lexical_trans (h : Consistent c) (as bs ds : List α)
    (hab : lexical c as bs ≤ 0) (hbd : lexical c bs ds ≤ 0) : lexical c as ds ≤ 0 := by
  induction as generalizing bs ds with
  | nil => cases ds <;> simp [lexical]
  | cons a as ih =>
      cases bs with
      | nil => simp [lexical] at hab
      | cons b bs =>
          cases ds with
          | nil => simp [lexical] at hbd
          | cons d ds =>
              have htrans := h.trans a b d
              have hback := h.trans d a b
              have hforth := h.trans b d a
              have hdb := h.flip b d
              have hbd' := h.flip d b
              have had := h.flip a d
              have hda := h.flip d a
              have hba := h.flip a b
              have hab' := h.flip b a
              have hrest := ih bs ds
              rw [lexical_cons] at hab hbd ⊢
              split at hab <;> split at hbd <;> split <;> omega

/-- Comparing lists element by element is as consistent as comparing their elements. -/
theorem Consistent.lexical (h : Consistent c) : Consistent (lexical c) where
  flip := h.lexical_flip
  trans := h.lexical_trans

theorem lexical_eq_zero (hzero : ∀ a b, c a b = 0 ↔ a = b) {as bs : List α} :
    lexical c as bs = 0 ↔ as = bs := by
  induction as generalizing bs with
  | nil => cases bs <;> simp [lexical]
  | cons a as ih =>
      cases bs with
      | nil => simp [lexical]
      | cons b bs =>
          rw [lexical_cons, List.cons.injEq, ← hzero a b, ← ih]
          split <;> simp_all

/-- The order of the lists is the lexicographic one. -/
theorem lexical_neg [LT α] (hzero : ∀ a b, c a b = 0 ↔ a = b) (hlt : ∀ a b, c a b < 0 ↔ a < b)
    {as bs : List α} : lexical c as bs < 0 ↔ as < bs := by
  induction as generalizing bs with
  | nil => cases bs <;> simp [lexical]
  | cons a as ih =>
      cases bs with
      | nil => simp [lexical]
      | cons b bs =>
          have hsame := hzero a b
          rw [lexical_cons, List.cons_lt_cons_iff, ← hlt a b, ← ih, ← hzero a b]
          split <;> omega

/-- The two functions of the C library, with what they promise. `none` is a fault
of the comparison, and the inner `none` of `bsearch` is NULL. -/
structure SortLib where
  qsort : {α : Type} → (α → α → Option Int) → List α → Option (List α)
  bsearch : {α : Type} → (α → α → Option Int) → α → List α → Option (Option Nat)
  sorts : ∀ {α : Type} (cmp : α → α → Option Int) (c : α → α → Int) (xs : List α), Consistent c →
    (∀ a ∈ xs, ∀ b ∈ xs, cmp a b = some (c a b)) →
    ∃ ys, qsort cmp xs = some ys ∧ ys.Perm xs ∧ ys.Pairwise fun a b => c a b ≤ 0
  finds : ∀ {α : Type} (cmp : α → α → Option Int) (key : α) (c : α → Int) (xs : List α),
    (∀ x ∈ xs, cmp key x = some (c x)) →
    (xs.Pairwise fun a b => (c a ≤ 0 → c b ≤ 0) ∧ (c a < 0 → c b < 0)) →
    ∃ r, bsearch cmp key xs = some r ∧ (r = none → ∀ x ∈ xs, c x ≠ 0) ∧
      ∀ i, r = some i → ∃ x, xs[i]? = some x ∧ c x = 0

/-! ## A library that keeps the promises -/

def insertBy (cmp : α → α → Option Int) (x : α) : List α → Option (List α)
  | [] => some [x]
  | y :: ys => do
      let r ← cmp x y
      if r ≤ 0 then some (x :: y :: ys)
      else do
        let zs ← insertBy cmp x ys
        some (y :: zs)

def sortBy (cmp : α → α → Option Int) : List α → Option (List α)
  | [] => some []
  | x :: xs => do
      let ys ← sortBy cmp xs
      insertBy cmp x ys

theorem insertBy_eq {cmp : α → α → Option Int} {c : α → α → Int} {x : α} {ys : List α}
    (h : ∀ y ∈ ys, cmp x y = some (c x y)) :
    insertBy cmp x ys = some (ys.orderedInsert (fun a b => c a b ≤ 0) x) := by
  induction ys with
  | nil => rfl
  | cons y ys ih =>
      have hrest := ih fun z hz => h z (List.mem_cons_of_mem y hz)
      rw [insertBy, h y List.mem_cons_self, List.orderedInsert_cons]
      by_cases hle : c x y ≤ 0
      · simp [hle]
      · simp [hle, hrest]

theorem sortBy_eq {cmp : α → α → Option Int} {c : α → α → Int} {xs : List α}
    (h : ∀ a ∈ xs, ∀ b ∈ xs, cmp a b = some (c a b)) :
    sortBy cmp xs = some (xs.insertionSort fun a b => c a b ≤ 0) := by
  induction xs with
  | nil => rfl
  | cons x xs ih =>
      have hrest := ih fun a ha b hb => h a (List.mem_cons_of_mem x ha) b (List.mem_cons_of_mem x hb)
      rw [sortBy, hrest, List.insertionSort_cons]
      refine insertBy_eq fun y hy => h x List.mem_cons_self y (List.mem_cons_of_mem x ?_)
      exact (List.mem_insertionSort _).mp hy

/-- Halving the window from `lo` to `hi`, without the latter. -/
def searchBetween (cmp : α → Option Int) (xs : List α) (lo hi : Nat) : Option (Option Nat) :=
  if lo < hi then
    let mid := (lo + hi) / 2
    match xs[mid]?.bind cmp with
    | none => none
    | some r =>
        if r < 0 then searchBetween cmp xs lo mid
        else if 0 < r then searchBetween cmp xs (mid + 1) hi
        else some (some mid)
  else some none
termination_by hi - lo

/-- Where signs fall along the array, what holds at `i` holds from `i` on. -/
theorem signs_from {c : α → Int} {xs : List α}
    (hsigns : xs.Pairwise fun a b => (c a ≤ 0 → c b ≤ 0) ∧ (c a < 0 → c b < 0)) {i j : Nat} {x y : α}
    (hi : xs[i]? = some x) (hj : xs[j]? = some y) (hij : i ≤ j) :
    (c x ≤ 0 → c y ≤ 0) ∧ (c x < 0 → c y < 0) := by
  obtain ⟨hi', rfl⟩ := List.getElem?_eq_some_iff.mp hi
  obtain ⟨hj', rfl⟩ := List.getElem?_eq_some_iff.mp hj
  rcases Nat.lt_or_eq_of_le hij with hlt | rfl
  · exact List.pairwise_iff_getElem.mp hsigns i j hi' hj' hlt
  · exact ⟨id, id⟩

theorem searchBetween_finds {cmp : α → Option Int} {c : α → Int} {xs : List α}
    (hcmp : ∀ x ∈ xs, cmp x = some (c x))
    (hsigns : xs.Pairwise fun a b => (c a ≤ 0 → c b ≤ 0) ∧ (c a < 0 → c b < 0))
    (lo hi : Nat) (hhi : hi ≤ xs.length) :
    ∃ r, searchBetween cmp xs lo hi = some r ∧
      (r = none → ∀ i x, lo ≤ i → i < hi → xs[i]? = some x → c x ≠ 0) ∧
      ∀ i, r = some i → ∃ x, xs[i]? = some x ∧ c x = 0 := by
  -- what is read in the middle of the window
  have hread : ∀ {mid : Nat}, mid < xs.length → ∃ m, xs[mid]? = some m ∧
      xs[mid]?.bind cmp = some (c m) := by
    intro mid hmid
    have hm := List.getElem?_eq_getElem hmid
    refine ⟨xs[mid], hm, ?_⟩
    rw [hm, Option.bind_some, hcmp _ (List.getElem_mem hmid)]
  fun_induction searchBetween cmp xs lo hi with
  | case1 lo hi hlt mid hnone =>
      obtain ⟨m, -, hbind⟩ := hread (show mid < xs.length by omega)
      rw [hnone] at hbind
      contradiction
  | case2 lo hi hlt mid r hsome hneg ih =>
      obtain ⟨m, hm, hbind⟩ := hread (show mid < xs.length by omega)
      obtain rfl : r = c m := Option.some.inj (hsome.symm.trans hbind)
      obtain ⟨out, hout, habsent, hfound⟩ := ih (by omega)
      refine ⟨out, hout, fun h i x hlo hi' hx => ?_, hfound⟩
      by_cases hmid : i < mid
      · exact habsent h i x hlo hmid hx
      · have hbelow := (signs_from hsigns hm hx (by omega)).2 hneg
        omega
  | case3 lo hi hlt mid r hsome hneg hpos ih =>
      obtain ⟨m, hm, hbind⟩ := hread (show mid < xs.length by omega)
      obtain rfl : r = c m := Option.some.inj (hsome.symm.trans hbind)
      obtain ⟨out, hout, habsent, hfound⟩ := ih hhi
      refine ⟨out, hout, fun h i x hlo hi' hx => ?_, hfound⟩
      by_cases hmid : mid < i
      · exact habsent h i x hmid hi' hx
      · have habove := (signs_from hsigns hx hm (by omega)).1
        omega
  | case4 lo hi hlt mid r hsome hneg hpos =>
      obtain ⟨m, hm, hbind⟩ := hread (show mid < xs.length by omega)
      obtain rfl : r = c m := Option.some.inj (hsome.symm.trans hbind)
      refine ⟨some mid, rfl, (fun h => nomatch h), fun i hi' => ?_⟩
      obtain rfl := Option.some.inj hi'
      exact ⟨m, hm, by omega⟩
  | case5 lo hi hle =>
      refine ⟨none, rfl, fun _ i x hlo hi' => ?_, fun i h => nomatch h⟩
      omega

/-- Insertion sort and binary search. -/
def referenceLib : SortLib where
  qsort := sortBy
  bsearch cmp key xs := searchBetween (cmp key) xs 0 xs.length
  sorts {α} cmp c xs hc hcmp := by
    have htotal : Std.Total fun a b : α => c a b ≤ 0 := ⟨hc.total⟩
    have htrans : IsTrans α fun a b => c a b ≤ 0 := ⟨hc.trans⟩
    refine ⟨_, sortBy_eq hcmp, List.perm_insertionSort _ _, List.pairwise_insertionSort _ _⟩
  finds cmp key c xs hcmp hsigns := by
    obtain ⟨r, hr, habsent, hfound⟩ := searchBetween_finds hcmp hsigns 0 xs.length (Nat.le_refl _)
    refine ⟨r, hr, fun h x hx => ?_, hfound⟩
    obtain ⟨i, hi⟩ := List.mem_iff_getElem?.mp hx
    obtain ⟨hlt, -⟩ := List.getElem?_eq_some_iff.mp hi
    exact habsent h i x (Nat.zero_le i) hlt hi

end Tflib.Core
