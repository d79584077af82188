import Mathlib.Data.Set.Card
import Mathlib.Data.Fintype.Card
import Tflib.Core.Machine

/-! # A ledger of slots, descriptors and connections

Slots of a fixed table lend themselves to descriptors, a descriptor stands for
one connection, and a watch list routes descriptor events back to slots. The
ledger says what has to agree between these views and which elementary actions
keep them in agreement. Nothing here knows how an implementation stores them.
-/

namespace Tflib.Core

universe u v w

@[ext] structure Ledger (ι : Type u) (δ : Type v) (κ : Type w) where
  /-- the descriptor a slot holds, if the slot is in use -/
  owner : ι → Option δ
  /-- the connection behind an open descriptor -/
  conn : δ → Option κ
  /-- the slot that is told about events on a descriptor -/
  watch : δ → Option ι
  /-- the implementation's own count of slots in use -/
  count : Nat

namespace Ledger

variable {ι : Type u} {δ : Type v} {κ : Type w}

/-! ## Balance -/

/-- The slots in use. -/
def used [Fintype ι] (L : Ledger ι δ κ) : Finset ι :=
  Finset.univ.filter fun i => (L.owner i).isSome

/-- The three views agree, and the count is right. -/
structure Balanced [Fintype ι] (L : Ledger ι δ κ) : Prop where
  isOpen : ∀ i d, L.owner i = some d → L.conn d ≠ none
  watched : ∀ i d, L.watch d = some i ↔ L.owner i = some d
  counted : L.count = L.used.card

theorem mem_used [Fintype ι] {L : Ledger ι δ κ} {i : ι} : i ∈ L.used ↔ (L.owner i).isSome := by
  simp [used]

theorem Balanced.owner_injective [Fintype ι] {L : Ledger ι δ κ} (h : L.Balanced) {i j : ι} {d : δ}
    (hi : L.owner i = some d) (hj : L.owner j = some d) : i = j := by
  have wi := (h.watched i d).mpr hi
  rw [(h.watched j d).mpr hj] at wi
  exact (Option.some.inj wi).symm

theorem Balanced.watch_eq_none [Fintype ι] {L : Ledger ι δ κ} (h : L.Balanced) {d : δ}
    (hd : L.conn d = none) : L.watch d = none := by
  cases hw : L.watch d with
  | none => rfl
  | some i => exact absurd hd (h.isOpen i d ((h.watched i d).mp hw))

/-- Every open descriptor belongs to a slot. -/
def Tight (L : Ledger ι δ κ) : Prop := ∀ d, L.conn d ≠ none → ∃ i, L.owner i = some d

/-- In a tight balanced ledger there are as many open descriptors as slots in use. -/
theorem Tight.ncard_open [Fintype ι] {L : Ledger ι δ κ} (b : L.Balanced) (h : L.Tight) :
    Set.ncard {d | L.conn d ≠ none} = L.used.card := by
  have himage : some '' {d | L.conn d ≠ none} = L.owner '' (L.used : Set ι) := by
    ext o
    simp only [Set.mem_image, Set.mem_ofPred_eq, Finset.mem_coe, mem_used]
    constructor
    · rintro ⟨d, hd, rfl⟩
      obtain ⟨i, hi⟩ := h d hd
      exact ⟨i, by simp [hi], hi⟩
    · rintro ⟨i, hi, rfl⟩
      obtain ⟨d, hd⟩ := Option.isSome_iff_exists.mp hi
      exact ⟨d, b.isOpen i d hd, hd.symm⟩
  have hinj : Set.InjOn L.owner (L.used : Set ι) := by
    intro i hi j _ hij
    obtain ⟨d, hd⟩ := Option.isSome_iff_exists.mp (mem_used.mp (Finset.mem_coe.mp hi))
    exact b.owner_injective hd (hij ▸ hd)
  calc Set.ncard {d | L.conn d ≠ none}
      = Set.ncard (some '' {d | L.conn d ≠ none}) :=
        (Set.ncard_image_of_injective _ (Option.some_injective δ)).symm
    _ = Set.ncard (L.owner '' (L.used : Set ι)) := by rw [himage]
    _ = Set.ncard (L.used : Set ι) := hinj.ncard_image
    _ = L.used.card := Set.ncard_coe_finset L.used

/-- Whoever remembers slot `i` for connection `k` still finds `k` behind it, as
long as the slot is in use at all. -/
def Faithful (L : Ledger ι δ κ) (pending : List (κ × ι)) : Prop :=
  ∀ p ∈ pending, ∀ d, L.owner p.2 = some d → L.conn d = some p.1

theorem used_assign [Fintype ι] [DecidableEq ι] (L : Ledger ι δ κ) (i : ι) (d : δ) :
    (Finset.univ.filter fun j => (Function.update L.owner i (some d) j).isSome) =
      insert i L.used := by
  ext j
  by_cases hj : j = i
  · simp [hj]
  · simp [hj, mem_used]

theorem used_release [Fintype ι] [DecidableEq ι] (L : Ledger ι δ κ) (i : ι) :
    (Finset.univ.filter fun j => (Function.update L.owner i none j).isSome) =
      L.used.erase i := by
  ext j
  by_cases hj : j = i
  · simp [hj]
  · simp [hj, mem_used]

/-! ## Actions -/

inductive Action (ι : Type u) (δ : Type v) (κ : Type w)
  | assign (i : ι) (d : δ) (k : κ)
  | release (i : ι)
  | strand (d : δ) (k : κ)

variable [DecidableEq ι] [DecidableEq δ]

/-- `assign` opens a descriptor for a connection and gives it to a slot,
`release` closes a slot's descriptor, `strand` opens one that no slot gets. -/
def act (L : Ledger ι δ κ) : Action ι δ κ → Ledger ι δ κ
  | .assign i d k =>
      { owner := Function.update L.owner i (some d)
        conn := Function.update L.conn d (some k)
        watch := Function.update L.watch d (some i)
        count := L.count + 1 }
  | .release i =>
      match L.owner i with
      | none => L
      | some d =>
          { owner := Function.update L.owner i none
            conn := Function.update L.conn d none
            watch := Function.update L.watch d none
            count := L.count - 1 }
  | .strand d k => { L with conn := Function.update L.conn d (some k) }

def Admits (L : Ledger ι δ κ) : Action ι δ κ → Prop
  | .assign i d _ => L.owner i = none ∧ L.conn d = none
  | .release i => L.owner i ≠ none
  | .strand d _ => L.conn d = none

def machine (ι : Type u) (δ : Type v) (κ : Type w) [DecidableEq ι] [DecidableEq δ] :
    Machine (Ledger ι δ κ) (Action ι δ κ) where
  step := act
  admits := Admits

/-! ## What the actions preserve -/

theorem Balanced.assign [Fintype ι] {L : Ledger ι δ κ} (h : L.Balanced) {i : ι} {d : δ} {k : κ}
    (hi : L.owner i = none) (hd : L.conn d = none) : (L.act (.assign i d k)).Balanced where
  isOpen j e hj := by
    simp only [act, Function.update_apply] at hj ⊢
    split at hj
    · simp_all
    · have := h.isOpen j e hj
      split <;> simp_all
  watched j e := by
    have fresh : L.owner j ≠ some d := fun hj => h.isOpen j d hj hd
    by_cases he : e = d
    · subst he
      by_cases hj : j = i
      · simp [act, hj]
      · simp [act, hj, fresh, Ne.symm hj]
    · by_cases hj : j = i
      · subst hj
        simp [act, he, Ne.symm he, h.watched, hi]
      · simp [act, he, hj, h.watched]
  counted := by
    have hn : i ∉ L.used := by simp [mem_used, hi]
    rw [used, act, used_assign, Finset.card_insert_of_notMem hn, h.counted]

theorem Balanced.release [Fintype ι] {L : Ledger ι δ κ} (h : L.Balanced) {i : ι} :
    (L.act (.release i)).Balanced := by
  cases hi : L.owner i with
  | none => simpa [act, hi] using h
  | some d =>
      have other : ∀ j, j ≠ i → L.owner j ≠ some d := fun j hj hd =>
        hj (h.owner_injective hd hi)
      have hact : L.act (.release i) =
          { owner := Function.update L.owner i none
            conn := Function.update L.conn d none
            watch := Function.update L.watch d none
            count := L.count - 1 } := by simp [act, hi]
      rw [hact]
      constructor
      · intro j e hj
        by_cases hji : j = i
        · simp [hji] at hj
        · simp only [Function.update_of_ne hji] at hj
          have hed : e ≠ d := fun hed => other j hji (hed ▸ hj)
          simpa only [Function.update_of_ne hed] using h.isOpen j e hj
      · intro j e
        by_cases hj : j = i
        · subst hj
          by_cases he : e = d
          · simp [he]
          · simp [he, Ne.symm he, h.watched, hi]
        · by_cases he : e = d
          · simp [he, hj, other j hj]
          · simp [he, hj, h.watched]
      · have hu : i ∈ L.used := by simp [mem_used, hi]
        rw [used, used_release, Finset.card_erase_of_mem hu, h.counted]

theorem Balanced.strand [Fintype ι] {L : Ledger ι δ κ} (h : L.Balanced) {d : δ} {k : κ} :
    (L.act (.strand d k)).Balanced where
  isOpen j e hj := by
    have := h.isOpen j e hj
    simp only [act, Function.update_apply]
    split <;> simp_all
  watched := h.watched
  counted := h.counted

/-- Every admitted action keeps the ledger balanced. -/
theorem Balanced.act [Fintype ι] (L : Ledger ι δ κ) (a : Action ι δ κ) (h : L.Balanced)
    (admitted : L.Admits a) : (L.act a).Balanced := by
  cases a with
  | assign i d k => exact h.assign admitted.1 admitted.2
  | release i => exact h.release
  | strand d k => exact h.strand

theorem Balanced.runs [Fintype ι] {L L' : Ledger ι δ κ} {as : List (Action ι δ κ)}
    (h : L.Balanced) (r : (machine ι δ κ).Runs L as L') : L'.Balanced :=
  r.invariant Balanced.act h

def Action.IsStrand : Action ι δ κ → Prop
  | .strand _ _ => True
  | _ => False

theorem Tight.act {L : Ledger ι δ κ} {a : Action ι δ κ} (h : L.Tight)
    (admitted : L.Admits a) (plain : ¬ a.IsStrand) : (L.act a).Tight := by
  cases a with
  | assign i d k =>
      intro e he
      by_cases hed : e = d
      · exact ⟨i, by simp [Ledger.act, hed]⟩
      · obtain ⟨j, hj⟩ := h e (by simpa [Ledger.act, hed] using he)
        have hji : j ≠ i := by
          rintro rfl
          simp [admitted.1] at hj
        exact ⟨j, by simpa [Ledger.act, hji] using hj⟩
  | release i =>
      cases hi : L.owner i with
      | none => simpa [Ledger.act, hi] using h
      | some d =>
          intro e he
          have hed : e ≠ d := by
            rintro rfl
            simp [Ledger.act, hi] at he
          obtain ⟨j, hj⟩ := h e (by simpa [Ledger.act, hi, hed] using he)
          have hji : j ≠ i := by
            rintro rfl
            exact hed (Option.some.inj (hj.symm.trans hi))
          exact ⟨j, by simpa [Ledger.act, hi, hji] using hj⟩
  | strand d k => exact absurd trivial plain

theorem Tight.runs {L L' : Ledger ι δ κ} {as : List (Action ι δ κ)}
    (r : (machine ι δ κ).Runs L as L') (plain : ∀ a ∈ as, ¬ a.IsStrand) (h : L.Tight) :
    L'.Tight := by
  induction r with
  | nil L => exact h
  | cons admitted _ ih =>
      exact ih (fun a ha => plain a (List.mem_cons_of_mem _ ha))
        (h.act admitted (plain _ List.mem_cons_self))

/-- Only giving a remembered slot to somebody else can break the memory. -/
theorem Faithful.act [Fintype ι] {L : Ledger ι δ κ} {pending : List (κ × ι)} {a : Action ι δ κ}
    (b : L.Balanced) (h : L.Faithful pending) (admitted : L.Admits a)
    (free : ∀ i d k, a = .assign i d k → ∀ p ∈ pending, p.2 ≠ i) :
    (L.act a).Faithful pending := by
  intro p hp d hd
  cases a with
  | assign i e k =>
      have hpi : p.2 ≠ i := free i e k rfl p hp
      have hold : L.owner p.2 = some d := by simpa [Ledger.act, hpi] using hd
      have hde : d ≠ e := fun hde => b.isOpen _ _ hold (hde ▸ admitted.2)
      simpa [Ledger.act, hde] using h p hp d hold
  | release i =>
      cases hi : L.owner i with
      | none =>
          have hold : L.owner p.2 = some d := by simpa [Ledger.act, hi] using hd
          simpa [Ledger.act, hi] using h p hp d hold
      | some e =>
          by_cases hpi : p.2 = i
          · simp [Ledger.act, hi, hpi] at hd
          · have hold : L.owner p.2 = some d := by simpa [Ledger.act, hi, hpi] using hd
            have hde : d ≠ e := fun hde => hpi (b.owner_injective hold (hde ▸ hi))
            simpa [Ledger.act, hi, hde] using h p hp d hold
  | strand e k =>
      have hold : L.owner p.2 = some d := by simpa [Ledger.act] using hd
      have hde : d ≠ e := fun hde => b.isOpen _ _ hold (hde ▸ admitted)
      simpa [Ledger.act, hde] using h p hp d hold

theorem Faithful.runs [Fintype ι] {L L' : Ledger ι δ κ} {pending : List (κ × ι)}
    {as : List (Action ι δ κ)} (r : (machine ι δ κ).Runs L as L') (b : L.Balanced)
    (free : ∀ a ∈ as, ∀ i d k, a = .assign i d k → ∀ p ∈ pending, p.2 ≠ i)
    (h : L.Faithful pending) : L'.Faithful pending := by
  induction r with
  | nil L => exact h
  | cons admitted _ ih =>
      exact ih (b.act _ _ admitted) (fun a ha => free a (List.mem_cons_of_mem _ ha))
        (h.act b admitted (free _ List.mem_cons_self))

end Ledger

end Tflib.Core
