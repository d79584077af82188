import Tflib.Core.Split
import Tflib.Socket.Net
import Tflib.Util.Numerals

/-! # The `inet_aton` of SunOS

`tf_socket.c` brings its own `inet_aton` for SunOS, where `u_long` has 32 or 64
bits. A pointer to a string is the memory from there on, and a read behind that
memory is `none`.
-/

namespace Tflib.Socket

open Tflib.Core Tflib.Util

/-- The two ways to compile for SunOS. -/
inductive DataModel
  | ilp32
  | lp64
  deriving DecidableEq, Repr

/-- The bits of a `u_long`. -/
def DataModel.bits : DataModel → Nat
  | ilp32 => 32
  | lp64 => 64

/-- A `u_long` keeps what fits in its bits. -/
def DataModel.ulong (m : DataModel) (n : Nat) : Nat := n % 2 ^ m.bits

/-- The loop of `inet_aton`; the inner `none` is a return of 0, and otherwise the result are `dots` and
`addr`. -/
def atonLoop (m : DataModel) : Bytes → Nat → Nat → Nat → Option (Option (Nat × Nat))
  | [], _, _, _ => none
  | c :: cp, dots, addr, val =>
      if isDigit c then atonLoop m cp dots addr (m.ulong (val * 10 + (c.toNat - '0'.toUInt8.toNat)))
      else if c = '.'.toUInt8 then
        if 3 < dots + 1 then some none
        else if 255 < val then some none
        else atonLoop m cp (dots + 1) (m.ulong (addr <<< 8) ||| val) 0
      else if c = 0 then
        if 255 < val then some none else some (some (dots, m.ulong (addr <<< 8) ||| val))
      else some none

/-- `inet_aton`: the returned value and the memory of `inaddr`, where that is not NULL. -/
def inetAton (m : DataModel) (cp : Bytes) (inaddr : Option Bytes) : Option (Int × Option Bytes) := do
  match ← atonLoop m cp 0 0 0 with
  | none => some (0, inaddr)
  | some (dots, addr) =>
      let addr := if dots < 3 then m.ulong (addr <<< (8 * (3 - dots))) else addr
      some (1, inaddr.map fun _ => host32 (.ofNat addr))

/-! ## Addresses -/

/-- What stands between the dots. -/
def dotParts (s : Bytes) : List Bytes := s.splitOnP (· == '.'.toUInt8)

/-- One to four parts, none of them empty, with values up to 255. -/
structure IsAddress (s : Bytes) : Prop where
  count : (dotParts s).length ≤ 4
  parts : ∀ p ∈ dotParts s, p ≠ [] ∧ (∀ c ∈ p, isDigit c = true) ∧ decimalFrom 0 p ≤ 255

/-- The parts as octets, with zeros behind them. -/
def octets (s : Bytes) : Bytes :=
  let bs := (dotParts s).map fun p => UInt8.ofNat (decimalFrom 0 p)
  bs ++ List.replicate (4 - bs.length) 0

/-- An address is stored, with an answer of 1; for anything else the answer is 0 and nothing is stored. -/
structure Resolves (m : DataModel) (cp : CString) (behind : Bytes) (inaddr : Option Bytes) : Prop where
  accepts : IsAddress cp.val →
    inetAton m (cp.val ++ 0 :: behind) inaddr = some (1, inaddr.map fun _ => octets cp.val)
  rejects : ¬ IsAddress cp.val → inetAton m (cp.val ++ 0 :: behind) inaddr = some (0, inaddr)

/-! ## The loop over the parts -/

/-- The value of digits behind `val`, as a `u_long`. -/
def ulongFrom (m : DataModel) (val : Nat) (p : Bytes) : Nat :=
  p.foldl (fun val c => m.ulong (val * 10 + (c.toNat - '0'.toUInt8.toNat))) val

/-- What the loop does, part by part. -/
def partLoop (m : DataModel) : List Bytes → Nat → Nat → Nat → Option (Nat × Nat)
  | [], _, _, _ => none
  | [p], dots, addr, val =>
      if p.all isDigit = true ∧ ulongFrom m val p ≤ 255 then
        some (dots, m.ulong (addr <<< 8) ||| ulongFrom m val p)
      else none
  | p :: q :: ps, dots, addr, val =>
      if p.all isDigit = true ∧ ulongFrom m val p ≤ 255 ∧ dots + 1 ≤ 3 then
        partLoop m (q :: ps) (dots + 1) (m.ulong (addr <<< 8) ||| ulongFrom m val p) 0
      else none

/-- A digit in front of the first part goes into its value. -/
theorem partLoop_digit (m : DataModel) {c : UInt8} (hc : isDigit c = true) (p : Bytes) (ps : List Bytes)
    (dots addr val : Nat) : partLoop m ((c :: p) :: ps) dots addr val =
      partLoop m (p :: ps) dots addr (m.ulong (val * 10 + (c.toNat - '0'.toUInt8.toNat))) := by
  have hall : (c :: p).all isDigit = p.all isDigit := by rw [List.all_cons, hc, Bool.true_and]
  have hvalue : ulongFrom m val (c :: p) =
      ulongFrom m (m.ulong (val * 10 + (c.toNat - '0'.toUInt8.toNat))) p := rfl
  cases ps <;> rw [partLoop, partLoop, hall, hvalue]

theorem partLoop_other (m : DataModel) {c : UInt8} (hc : isDigit c = false) (p : Bytes)
    (ps : List Bytes) (dots addr val : Nat) : partLoop m ((c :: p) :: ps) dots addr val = none := by
  cases ps <;> simp [partLoop, hc]

theorem atonLoop_eq (m : DataModel) {s : Bytes} (hzero : 0 ∉ s) (behind : Bytes) (dots addr val : Nat) :
    atonLoop m (s ++ 0 :: behind) dots addr val = some (partLoop m (dotParts s) dots addr val) := by
  induction s generalizing dots addr val with
  | nil =>
      rw [List.nil_append, atonLoop, if_neg (by decide), if_neg (by decide), if_pos rfl]
      change (if 255 < val then some none else _) =
        some (if [].all isDigit = true ∧ val ≤ 255 then some (dots, m.ulong (addr <<< 8) ||| val) else none)
      by_cases hval : 255 < val
      · rw [if_pos hval, if_neg fun h => absurd h.2 (Nat.not_le.mpr hval)]
      · rw [if_neg hval, if_pos ⟨rfl, Nat.not_lt.mp hval⟩]
  | cons c s ih =>
      have hc : c ≠ 0 := (List.ne_of_not_mem_cons hzero).symm
      have hrest := ih (List.not_mem_of_not_mem_cons hzero)
      obtain ⟨p, ps, hparts⟩ := List.exists_cons_of_ne_nil (List.splitOnP_ne_nil (· == '.'.toUInt8) s)
      change dotParts s = p :: ps at hparts
      have hcons : dotParts (c :: s) = if (c == '.'.toUInt8) = true then [] :: dotParts s
          else (dotParts s).modifyHead (c :: ·) := List.splitOnP_cons_eq_if_modifyHead c s
      rw [List.cons_append, atonLoop]
      by_cases hdot : c = '.'.toUInt8
      · have hplain : ¬ isDigit c = true := hdot ▸ by decide
        rw [if_pos (beq_iff_eq.mpr hdot), hparts] at hcons
        rw [if_neg hplain, if_pos hdot, hcons, partLoop]
        change (if 3 < dots + 1 then some none else if 255 < val then some none else _) =
          some (if [].all isDigit = true ∧ val ≤ 255 ∧ dots + 1 ≤ 3 then
            partLoop m (p :: ps) (dots + 1) (m.ulong (addr <<< 8) ||| val) 0 else none)
        by_cases hdots : 3 < dots + 1
        · rw [if_pos hdots, if_neg fun h => absurd h.2.2 (Nat.not_le.mpr hdots)]
        · by_cases hval : 255 < val
          · rw [if_neg hdots, if_pos hval, if_neg fun h => absurd h.2.1 (Nat.not_le.mpr hval)]
          · rw [if_neg hdots, if_neg hval, if_pos ⟨rfl, Nat.not_lt.mp hval, Nat.not_lt.mp hdots⟩, hrest,
              hparts]
      · rw [if_neg (mt beq_iff_eq.mp hdot), hparts, List.modifyHead_cons] at hcons
        rw [hcons]
        by_cases hdigit : isDigit c = true
        · rw [if_pos hdigit, hrest, hparts, partLoop_digit m hdigit]
        · rw [if_neg hdigit, if_neg hdot, if_neg hc, partLoop_other m (Bool.not_eq_true _ ▸ hdigit)]

/-! ## The address that is stored -/

theorem ulong_of_lt (m : DataModel) {n : Nat} (h : n < 2 ^ 32) : m.ulong n = n := by
  refine Nat.mod_eq_of_lt (Nat.lt_of_lt_of_le h (Nat.pow_le_pow_right (by decide) ?_))
  cases m <;> decide

/-- Another octet behind those of the address. -/
theorem ulong_octet (m : DataModel) {bs : Bytes} (hbs : bs.length ≤ 3) {v : Nat} (hv : v ≤ 255) :
    m.ulong (netValue bs <<< 8) ||| v = netValue (bs ++ [.ofNat v]) := by
  have hlt := netValue_lt bs
  have hpow : 256 ^ bs.length ≤ 256 ^ 3 := Nat.pow_le_pow_right (by decide) hbs
  have hbyte : (UInt8.ofNat v).toNat = v := toNat_byte (by omega)
  rw [Nat.shiftLeft_eq, ulong_of_lt m (by omega), ← Nat.shiftLeft_eq,
    ← Nat.shiftLeft_add_eq_or_of_lt (by omega), Nat.shiftLeft_eq, netValue_append]
  simp only [netValue, List.length_singleton, List.length_nil, hbyte]
  omega

/-- The value of a part, as the loop computes it. -/
theorem ulongFrom_eq (m : DataModel) (val : Nat) (p : Bytes) :
    ulongFrom m (m.ulong val) p = m.ulong (decimalFrom val p) := by
  induction p generalizing val with
  | nil => rfl
  | cons c p ih =>
      have hstep : m.ulong (m.ulong val * 10 + (c.toNat - '0'.toUInt8.toNat)) =
          m.ulong (10 * val + digitValue c) := by
        rw [DataModel.ulong, DataModel.ulong, DataModel.ulong, Nat.add_mod, Nat.mod_mul_mod, ← Nat.add_mod,
          Nat.mul_comm val]
        rfl
      rw [decimalFrom_cons, ← ih, ← hstep]
      rfl

/-- The value of a part as a `u_long`. -/
def partValue (m : DataModel) (p : Bytes) : Nat := m.ulong (decimalFrom 0 p)

theorem ulongFrom_zero (m : DataModel) (p : Bytes) : ulongFrom m 0 p = partValue m p := by
  have hzero : m.ulong 0 = 0 := Nat.zero_mod _
  rw [partValue, ← ulongFrom_eq, hzero]

/-- The loop takes up to four parts of digits whose values do not show to be more than 255. -/
def PartsPass (m : DataModel) (ps : List Bytes) : Prop :=
  ∀ p ∈ ps, p.all isDigit = true ∧ partValue m p ≤ 255

instance (m : DataModel) (ps : List Bytes) : Decidable (PartsPass m ps) :=
  inferInstanceAs (Decidable (∀ p ∈ ps, _))

def partOctets (m : DataModel) (ps : List Bytes) : Bytes := ps.map fun p => .ofNat (partValue m p)

theorem partLoop_four (m : DataModel) {ps : List Bytes} (hps : ps ≠ []) {bs : Bytes}
    (h : bs.length + ps.length ≤ 4) : partLoop m ps bs.length (netValue bs) 0 =
      if PartsPass m ps then some (bs.length + (ps.length - 1), netValue (bs ++ partOctets m ps))
      else none := by
  induction ps generalizing bs with
  | nil => exact absurd rfl hps
  | cons p ps ih =>
      rw [List.length_cons] at h
      have hcons : PartsPass m (p :: ps) ↔
          (p.all isDigit = true ∧ partValue m p ≤ 255) ∧ PartsPass m ps := List.forall_mem_cons
      by_cases hp : p.all isDigit = true ∧ partValue m p ≤ 255
      · have hoctet := ulong_octet m (by omega : bs.length ≤ 3) hp.2
        cases ps with
        | nil =>
            have hpass : PartsPass m [p] := hcons.mpr ⟨hp, fun _ hq => absurd hq List.not_mem_nil⟩
            rw [partLoop, ulongFrom_zero, if_pos hp, if_pos hpass, hoctet]
            rfl
        | cons q ps =>
            rw [List.length_cons] at h
            have hnext := @ih (List.cons_ne_nil q ps) (bs ++ [.ofNat (partValue m p)])
            rw [List.length_append, List.length_singleton, List.length_cons] at hnext
            rw [partLoop, ulongFrom_zero, if_pos ⟨hp.1, hp.2, by omega⟩, hoctet, hnext (by omega)]
            have hstep : PartsPass m (p :: q :: ps) ↔ PartsPass m (q :: ps) :=
              hcons.trans (and_iff_right hp)
            have hoctets : bs ++ partOctets m (p :: q :: ps) =
                bs ++ [.ofNat (partValue m p)] ++ partOctets m (q :: ps) := by
              rw [List.append_assoc]
              rfl
            rw [hoctets, if_congr hstep rfl rfl, List.length_cons, List.length_cons]
            congr 3
            omega
      · rw [if_neg fun hpass => hp (hcons.mp hpass).1]
        cases ps with
        | nil => rw [partLoop, ulongFrom_zero, if_neg hp]
        | cons q ps => rw [partLoop, ulongFrom_zero, if_neg fun h => hp ⟨h.1, h.2.1⟩]

/-- More than three dots are too many. -/
theorem partLoop_long (m : DataModel) {ps : List Bytes} {dots : Nat} (hdots : dots ≤ 3)
    (h : 4 < dots + ps.length) (addr val : Nat) : partLoop m ps dots addr val = none := by
  induction ps generalizing dots addr val with
  | nil => rfl
  | cons p ps ih =>
      rw [List.length_cons] at h
      cases ps with
      | nil =>
          rw [List.length_nil] at h
          omega
      | cons q ps =>
          rw [partLoop]
          split
          · rename_i hpass
            exact ih hpass.2.2 (by omega) _ _
          · rfl

/-- The octets of the parts with zeros behind them, where there are up to four parts. -/
theorem host32_octets (m : DataModel) {bs : Bytes} (hpos : 0 < bs.length) (h : bs.length ≤ 4) :
    host32 (.ofNat (if bs.length - 1 < 3 then
      m.ulong (netValue bs <<< (8 * (3 - (bs.length - 1)))) else netValue bs)) =
      bs ++ List.replicate (4 - bs.length) 0 := by
  have hfour : (bs ++ List.replicate (4 - bs.length) 0).length = 4 := by
    rw [List.length_append, List.length_replicate]
    omega
  have hvalue := netValue_append bs (List.replicate (4 - bs.length) 0)
  have hlt := netValue_lt (bs ++ List.replicate (4 - bs.length) 0)
  rw [netValue_zeros, List.length_replicate, Nat.add_zero] at hvalue
  rw [hfour] at hlt
  have haddr : (if bs.length - 1 < 3 then m.ulong (netValue bs <<< (8 * (3 - (bs.length - 1))))
      else netValue bs) = netValue (bs ++ List.replicate (4 - bs.length) 0) := by
    split
    · have hshift : 3 - (bs.length - 1) = 4 - bs.length := by omega
      have hpow : 2 ^ (8 * (4 - bs.length)) = 256 ^ (4 - bs.length) := Nat.pow_mul 2 8 _
      rw [hshift, Nat.shiftLeft_eq, hpow, ← hvalue, ulong_of_lt m (by omega)]
    · have hzero : 4 - bs.length = 0 := by omega
      rw [hvalue, hzero, Nat.pow_zero, Nat.mul_one]
  have hbytes := netBytes_netValue (bs ++ List.replicate (4 - bs.length) 0)
  rw [hfour] at hbytes
  rw [haddr, host32, toNat_ofNat (by omega), hbytes]

theorem dotParts_ne_nil (s : Bytes) : dotParts s ≠ [] := List.splitOnP_ne_nil _ s

/-- The call accepts what has at most three dots and passes the loop. -/
theorem inetAton_eq (m : DataModel) (cp : CString) (behind : Bytes) (inaddr : Option Bytes) :
    inetAton m (cp.val ++ 0 :: behind) inaddr =
      if (dotParts cp.val).length ≤ 4 ∧ PartsPass m (dotParts cp.val) then
        some (1, inaddr.map fun _ => partOctets m (dotParts cp.val) ++
          List.replicate (4 - (dotParts cp.val).length) 0)
      else some (0, inaddr) := by
  have hne := dotParts_ne_nil cp.val
  rw [inetAton, atonLoop_eq m cp.2]
  generalize dotParts cp.val = ps at hne ⊢
  by_cases hfour : ps.length ≤ 4
  · have hloop := @partLoop_four m ps hne [] (by rwa [List.length_nil, Nat.zero_add])
    rw [List.length_nil, Nat.zero_add, List.nil_append] at hloop
    change partLoop m ps 0 0 0 = _ at hloop
    rw [hloop]
    by_cases hpass : PartsPass m ps
    · have hlength : (partOctets m ps).length = ps.length := List.length_map _
      have hstore := host32_octets m (hlength ▸ List.length_pos_iff.mpr hne) (hlength ▸ hfour)
      rw [hlength] at hstore
      rw [if_pos hpass, if_pos ⟨hfour, hpass⟩, ← hstore]
      rfl
    · rw [if_neg hpass, if_neg fun h => hpass h.2]
      rfl
  · rw [partLoop_long m (by decide) (by omega), if_neg fun h => hfour h.1]
    rfl

/-! ## Which strings are accepted -/

/-- The code accepts an address, and what it stores are the octets of it. -/
theorem pass_of_isAddress (m : DataModel) {s : Bytes} (h : IsAddress s) :
    PartsPass m (dotParts s) ∧ partOctets m (dotParts s) =
      (dotParts s).map fun p => UInt8.ofNat (decimalFrom 0 p) := by
  have hvalue : ∀ p ∈ dotParts s, partValue m p = decimalFrom 0 p := fun p hp =>
    ulong_of_lt m (Nat.lt_of_le_of_lt (h.parts p hp).2.2 (by decide))
  refine ⟨fun p hp => ⟨List.all_eq_true.mpr (h.parts p hp).2.1, ?_⟩, ?_⟩
  · rw [hvalue p hp]
    exact (h.parts p hp).2.2
  · exact List.map_congr_left fun p hp => by rw [hvalue p hp]

/-- Where all parts have a digit and a value that a `u_long` holds, the code accepts addresses only. -/
theorem isAddress_of_pass {m : DataModel} {s : Bytes} (hfour : (dotParts s).length ≤ 4)
    (hpass : PartsPass m (dotParts s))
    (hplain : ∀ p ∈ dotParts s, p ≠ [] ∧ decimalFrom 0 p < 2 ^ m.bits) : IsAddress s where
  count := hfour
  parts p hp := by
    obtain ⟨hdigits, hvalue⟩ := hpass p hp
    rw [partValue, DataModel.ulong, Nat.mod_eq_of_lt (hplain p hp).2] at hvalue
    exact ⟨(hplain p hp).1, List.all_eq_true.mp hdigits, hvalue⟩

/-- Without other bytes than digits and dots all parts are digits. -/
theorem parts_digits {s : Bytes} (h : ∀ c ∈ s, isDigit c = false → c = '.'.toUInt8) :
    ∀ p ∈ dotParts s, p.all isDigit = true := by
  intro p hp
  rw [List.all_eq_true]
  intro c hc
  by_contra hother
  have hdot := h c ((infix_of_splitOnP hp).subset hc) (Bool.not_eq_true _ ▸ hother)
  have hfree := splitOnP_free hp c hc
  rw [hdot] at hfree
  cases hfree

/-- Another byte stands in some part. -/
theorem not_pass_of_other {m : DataModel} {s : Bytes} {c : UInt8} (hc : c ∈ s) (hdigit : isDigit c = false)
    (hdot : c ≠ '.'.toUInt8) : ¬ PartsPass m (dotParts s) := by
  intro hpass
  have hrun : [c] <:+: s := by
    obtain ⟨front, back, hs⟩ := List.append_of_mem hc
    exact ⟨front, back, by rw [hs, List.append_assoc, List.singleton_append]⟩
  have hfree : ∀ d ∈ [c], (d == '.'.toUInt8) = false := fun d hd => by
    rw [List.mem_singleton.mp hd]
    exact beq_eq_false_iff_ne.mpr hdot
  obtain ⟨p, hp, hin⟩ := infix_piece hrun hfree
  have hall := List.all_eq_true.mp (hpass p hp).1 c (hin.subset (List.mem_singleton_self c))
  rw [hdigit] at hall
  cases hall

/-- The string has a byte that is neither a digit nor a dot, more than three dots, or a part with a value
that shows to be more than 255; or all its parts have a digit and a value that a `u_long` holds. -/
def AtonFits (m : DataModel) (s : Bytes) : Prop :=
  (∃ c ∈ s, isDigit c = false ∧ c ≠ '.'.toUInt8) ∨ 3 < s.countP (· == '.'.toUInt8) ∨
    (∃ p ∈ dotParts s, 255 < decimalFrom 0 p % 2 ^ m.bits) ∨
    ∀ p ∈ dotParts s, p ≠ [] ∧ decimalFrom 0 p < 2 ^ m.bits

/-- Anything that fails one of the tests of the code is rejected, and what passes all of them is an address
where no part is empty or too long for a `u_long`. -/
theorem resolves_iff (m : DataModel) (cp : CString) (behind : Bytes) (inaddr : Option Bytes) :
    Resolves m cp behind inaddr ↔ AtonFits m cp.val := by
  have hcount : (dotParts cp.val).length = cp.val.countP (· == '.'.toUInt8) + 1 := splitOnP_length cp.val
  have hcall := inetAton_eq m cp behind inaddr
  constructor
  · intro h
    by_contra hfits
    rw [AtonFits, not_or, not_or, not_or] at hfits
    obtain ⟨hother, hdots, hlarge, hplain⟩ := hfits
    have hfour : (dotParts cp.val).length ≤ 4 := by omega
    have hdigits := parts_digits fun c hc hdigit => by_contra fun hdot => hother ⟨c, hc, hdigit, hdot⟩
    have hpass : PartsPass m (dotParts cp.val) := fun p hp =>
      ⟨hdigits p hp, Nat.not_lt.mp fun hvalue => hlarge ⟨p, hp, hvalue⟩⟩
    rw [if_pos ⟨hfour, hpass⟩] at hcall
    have hno : ¬ IsAddress cp.val := fun haddr => hplain fun p hp =>
      ⟨(haddr.parts p hp).1, Nat.lt_of_le_of_lt (haddr.parts p hp).2.2 (by cases m <;> decide)⟩
    have hzero := hcall.symm.trans (h.rejects hno)
    simp at hzero
  · intro hfits
    refine ⟨fun haddr => ?_, fun hno => ?_⟩
    · obtain ⟨hpass, hoctets⟩ := pass_of_isAddress m haddr
      rw [hcall, if_pos ⟨haddr.count, hpass⟩, hoctets, octets]
      simp only [List.length_map]
    · rw [hcall, if_neg]
      rintro ⟨hfour, hpass⟩
      rcases hfits with ⟨c, hc, hdigit, hdot⟩ | hdots | ⟨p, hp, hlarge⟩ | hplain
      · exact not_pass_of_other hc hdigit hdot hpass
      · omega
      · exact absurd (hpass p hp).2 (Nat.not_le.mpr hlarge)
      · exact hno (isAddress_of_pass hfour hpass hplain)

/-- The empty string is accepted. -/
theorem resolves_fails_empty : ¬ ∀ m cp behind inaddr, Resolves m cp behind inaddr := by
  intro h
  have hno : ¬ IsAddress [] := fun haddr => (haddr.parts [] (by decide)).1 rfl
  exact absurd ((h .lp64 ⟨[], by decide⟩ [] none).rejects hno) (by decide)

end Tflib.Socket
