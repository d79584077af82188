import Tflib.Nac.Connections
import Tflib.Nac.Request

/-! # From a peer's id back to the peer

`init_peers` numbers the slots from `PEER_ID_OFFSET`, a request carries the
number to the device, and `get_active_peer` turns it into a slot again with
signed arithmetic. The test `index > 0` leaves out the first slot.
-/

namespace Tflib.Nac

open Tflib.Core Ae Ipc Socket

/-! ## The signed index -/

/-- Assigning a `__u32` to an `int`. -/
theorem toInt_toInt32 (x : UInt32) :
    x.toInt32.toInt = if x.toNat < 2 ^ 31 then (x.toNat : Int) else x.toNat - 2 ^ 32 := by
  rw [← Int32.toInt_toBitVec, UInt32.toBitVec_toInt32, BitVec.toInt_eq_toNat_cond,
    UInt32.toNat_toBitVec]
  split <;> split <;> omega

theorem toInt_toInt32_of_lt {x : UInt32} (h : x.toNat < 2 ^ 31) : x.toInt32.toInt = x.toNat := by
  rw [toInt_toInt32, if_pos h]

theorem toNat_toInt32_of_pos {x : UInt32} (h : 0 < x.toInt32.toInt) :
    x.toInt32.toInt.toNat = x.toNat := by
  have hlt := x.toNat_lt
  rw [toInt_toInt32] at h ⊢
  split at h
  · rw [if_pos (by assumption)]
    rfl
  · omega

theorem peerId_sub (p : Peer) : peerId p - peerIdOffset = UInt32.ofNat p.val :=
  UInt32.add_sub_cancel _ _

theorem toNat_ofNat_peer (p : Peer) : (UInt32.ofNat p.val).toNat = p.val := by
  have hp : p.val < 10000 := p.isLt
  rw [UInt32.toNat_ofNat']
  omega

theorem peerId_injective {p q : Peer} (h : peerId p = peerId q) : p = q := by
  have hsub := congrArg (· - peerIdOffset) h
  simp only [peerId_sub] at hsub
  have hnat := congrArg UInt32.toNat hsub
  rw [toNat_ofNat_peer, toNat_ofNat_peer] at hnat
  exact Fin.ext hnat

/-! ## `get_active_peer` -/

/-- The lookup inverts the numbering on every active slot but the first, whatever the ids in
the table are. -/
theorem getActivePeer_iff {mgr : ProcessMgr} {id : UInt32} {p : Peer} :
    getActivePeer mgr id = some p ↔
      id = peerId p ∧ p ≠ 0 ∧ (mgr.slots p).active = true := by
  simp only [getActivePeer, Option.dite_none_right_eq_some, Option.ite_none_right_eq_some,
    Option.some.injEq]
  constructor
  · intro h
    obtain ⟨⟨hpos, hlt⟩, hactive, hp⟩ := h
    rw [hp] at hactive
    have hval : p.val = (id - peerIdOffset).toNat := by
      rw [← toNat_toInt32_of_pos hpos, ← hp]
    refine ⟨?_, ?_, hactive⟩
    · rw [peerId, hval, UInt32.ofNat_toNat, UInt32.sub_add_cancel]
    · intro hzero
      have hnat := toNat_toInt32_of_pos hpos
      rw [← hval, hzero] at hnat
      simp only [Fin.val_zero] at hnat
      omega
  · intro h
    obtain ⟨hid, hne, hactive⟩ := h
    have hp : p.val < maxPeerNums := p.isLt
    have hindex : (id - peerIdOffset).toInt32.toInt = p.val := by
      have hlt : p.val < 2 ^ 31 := Nat.lt_trans hp (by decide)
      rw [hid, peerId_sub, toInt_toInt32_of_lt (by rwa [toNat_ofNat_peer]), toNat_ofNat_peer]
    have hpos : p.val ≠ 0 := fun hzero => hne (Fin.ext hzero)
    have hslot : (⟨(id - peerIdOffset).toInt32.toInt.toNat, by omega⟩ : Peer) = p := by
      apply Fin.ext
      simp only [hindex]
      rfl
    refine ⟨by omega, ?_, hslot⟩
    rw [hslot]
    exact hactive

theorem getActivePeer_first {mgr : ProcessMgr} : getActivePeer mgr (peerId 0) = none := by
  cases h : getActivePeer mgr (peerId 0) with
  | none => rfl
  | some p =>
      obtain ⟨hid, hne, -⟩ := getActivePeer_iff.mp h
      exact absurd (peerId_injective hid).symm hne

/-! ## The id on the wire -/

/-- The id in the message that `peer_request_handler` builds for `p`. -/
def stampedId (mgr : ProcessMgr) (p : Peer) (now : UInt32) (len : Nat) : UInt32 :=
  messageId (queuedRequest (storeRequest mgr p now len) len).data

theorem stampedId_eq (mgr : ProcessMgr) (p : Peer) (now : UInt32) {len : Nat} (h : 8 ≤ len) :
    stampedId mgr p now len = (mgr.slots p).id := messageId_queuedRequest mgr p now h

/-! ## Lookup over the reachable tables -/

/-- The lookup inverts the stamping on the active slots and finds nothing else, so that every
response to a live client goes to that client. -/
structure LookupExact (w : World) : Prop where
  live : ∀ p now len, (w.mgr.slots p).active = true → 8 ≤ len →
    getActivePeer w.mgr (stampedId w.mgr p now len) = some p
  dead : ∀ id, (∀ p, (w.mgr.slots p).active = true → (w.mgr.slots p).id ≠ id) →
    getActivePeer w.mgr id = none
  routed : ∀ p io len, (w.mgr.slots p).active = true →
    routeResponse io len (w.mgr.slots p).id w = deliverResponse io p len w

theorem routeResponse_of_found {w : World} {id : UInt32} {p : Peer}
    (h : getActivePeer w.mgr id = some p) (io : Calls) (len : UInt16) :
    routeResponse io len id w = deliverResponse io p len w := by
  rw [routeResponse, h]

theorem lookup_live {w : World} (ids : ∀ p, (w.mgr.slots p).id = peerId p) {p : Peer}
    (hp : (w.mgr.slots p).active = true) :
    getActivePeer w.mgr (w.mgr.slots p).id = some p ↔ p ≠ 0 := by
  rw [getActivePeer_iff]
  constructor
  · intro h
    exact h.2.1
  · intro h
    exact ⟨ids p, h, hp⟩

theorem lookup_dead {w : World} (ids : ∀ p, (w.mgr.slots p).id = peerId p) {id : UInt32}
    (hid : ∀ p, (w.mgr.slots p).active = true → (w.mgr.slots p).id ≠ id) :
    getActivePeer w.mgr id = none := by
  cases h : getActivePeer w.mgr id with
  | none => rfl
  | some q =>
      obtain ⟨hq, -, hactive⟩ := getActivePeer_iff.mp h
      exact absurd ((ids q).trans hq.symm) (hid q hactive)

/-- The lookup is exact as long as nobody sits in the first slot. The client in any other slot is
found in every table, and no other id is ever found. -/
theorem lookupExact_iff {w₀ w : World} (start : Fresh w₀) (h : service.Reaches w₀ w) :
    (LookupExact w ↔ (w.mgr.slots 0).active = false) ∧
    (∀ p, (w.mgr.slots p).active = true →
      (getActivePeer w.mgr (w.mgr.slots p).id = some p ↔ p ≠ 0)) ∧
    ∀ id, (∀ p, (w.mgr.slots p).active = true → (w.mgr.slots p).id ≠ id) →
      getActivePeer w.mgr id = none := by
  have ids : ∀ p, (w.mgr.slots p).id = peerId p := fun p =>
    ((start.toStarted.sound.reaches h).ids p).trans (start.ids p)
  refine ⟨?_, fun p hp => lookup_live ids hp, fun id hid => lookup_dead ids hid⟩
  constructor
  · intro hexact
    rw [← Bool.not_eq_true]
    intro hzero
    have hfound := hexact.live 0 0 8 hzero (Nat.le_refl 8)
    rw [stampedId_eq _ _ _ (Nat.le_refl 8)] at hfound
    exact (lookup_live ids hzero).mp hfound rfl
  · intro hzero
    have hne : ∀ p, (w.mgr.slots p).active = true → p ≠ 0 := by
      intro p hp heq
      rw [heq, hzero] at hp
      contradiction
    constructor
    · intro p now len hp hlen
      rw [stampedId_eq _ _ _ hlen]
      exact (lookup_live ids hp).mpr (hne p hp)
    · intro id hid
      exact lookup_dead ids hid
    · intro p io len hp
      exact routeResponse_of_found ((lookup_live ids hp).mpr (hne p hp)) io len

theorem second_client_found : getActivePeer (crowd 2).mgr ((crowd 2).mgr.slots 1).id = some 1 := by
  have hcrowd := crowd_crowded (n := 2) (by decide)
  have hactive : ((crowd 2).mgr.slots 1).active = true := by
    rw [hcrowd.active]
    decide
  exact ((lookupExact_iff firstWorld_fresh hcrowd.reached).2.1 1 hactive).mpr (by decide)

/-- The first client of all gets the first slot, and no response ever finds it. -/
theorem first_client_lost : service.Reaches firstWorld (crowd 1) ∧
    ((crowd 1).mgr.slots 0).active = true ∧
    getActivePeer (crowd 1).mgr ((crowd 1).mgr.slots 0).id = none ∧ ¬ LookupExact (crowd 1) := by
  have hcrowd := crowd_crowded (n := 1) (by decide)
  have hactive : ((crowd 1).mgr.slots 0).active = true := by
    rw [hcrowd.active]
    decide
  have hid : ((crowd 1).mgr.slots 0).id = peerId 0 :=
    ((firstWorld_started.sound.reaches hcrowd.reached).ids 0).trans (firstWorld_fresh.ids 0)
  have hlost : getActivePeer (crowd 1).mgr ((crowd 1).mgr.slots 0).id = none := by
    rw [hid]
    exact getActivePeer_first
  refine ⟨hcrowd.reached, hactive, hlost, ?_⟩
  intro hexact
  have hfound := hexact.live 0 0 8 hactive (Nat.le_refl 8)
  rw [stampedId_eq _ _ _ (Nat.le_refl 8), hlost] at hfound
  contradiction

end Tflib.Nac
