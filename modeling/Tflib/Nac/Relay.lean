import Tflib.Nac.Response
import Tflib.Nac.Traffic

/-! # Requests, the device and their responses

The service, the device behind its queues and the thread between queue and pipe
run in any order. A message carries nothing but a slot's id, so this module
tags every message with the connection whose request it belongs to, and asks
where the response to it goes.
-/

namespace Tflib.Nac

open Tflib.Core Ae Ipc Socket

/-- A message on its way, with the connection that the request came from. -/
structure Tagged where
  origin : Nat
  data : Bytes

structure RelayState where
  world : World
  /-- requests that the device has not answered -/
  requests : List Tagged
  /-- responses that the thread has not received -/
  responses : List Tagged
  /-- responses in the pipe -/
  pipe : List Tagged
  /-- for each response that was written: its origin and what it was written to -/
  deliveries : List (Nat × Option Descriptor)

def RelayState.start (w : World) : RelayState := ⟨w, [], [], [], []⟩

inductive RelayEvent
  /-- an event of the service that does not concern the pipe -/
  | loop (e : Event)
  /-- the device answers its `i`-th request with `data` -/
  | answer (i : Nat) (data : Bytes)
  /-- the thread passes the `i`-th response on to the pipe -/
  | pass (i : Nat)
  /-- the loop dispatches the pipe -/
  | deliver (io : Calls)

/-- The connection that a request dispatched by `e` comes from. -/
def requester (w : World) : Event → Nat
  | .file fd _ => ((w.kernel.fds fd).bind Descriptor.client?).getD 0
  | _ => 0

namespace RelayState

def step (s : RelayState) : RelayEvent → RelayState
  | .loop e =>
      let w := exec s.world e
      let new := w.kernel.sent.drop s.world.kernel.sent.length
      { s with
        world := w
        requests := s.requests ++ new.map fun msg => ⟨requester s.world e, msg.data⟩ }
  | .answer i data =>
      match s.requests[i]? with
      | none => s
      | some r =>
          { s with
            requests := s.requests.eraseIdx i
            responses := s.responses ++ [⟨r.origin, data⟩] }
  | .pass i =>
      match s.responses[i]? with
      | none => s
      | some r =>
          { s with
            world := exec s.world (.arrive s.world.mgr.mqueue (waitResponse (some r.data)).flatten)
            responses := s.responses.eraseIdx i
            pipe := s.pipe ++ [r] }
  | .deliver io =>
      match s.pipe with
      | [] => s
      | r :: pipe =>
          let w := exec s.world (.file s.world.mgr.mqueue io)
          let new := w.kernel.written.drop s.world.kernel.written.length
          { s with
            world := w
            pipe := pipe
            deliveries := s.deliveries ++ new.map fun x => (r.origin, x.1) }

/-- The device copies bytes 8 to 11 of the request and answers with at least a header; the pipe
gives the handler whole frames. -/
def Admits (s : RelayState) : RelayEvent → Prop
  | .loop e => Admissible s.world e ∧ e.fd? ≠ some s.world.mgr.mqueue
  | .answer i data => ∃ r, s.requests[i]? = some r ∧ messageId data = messageId r.data ∧
      24 ≤ data.length ∧ data.length ≤ maxMqueueLen
  | .pass i => i < s.responses.length
  | .deliver io => s.pipe ≠ [] ∧ (takeResponse io s.world.mgr.mqueue s.world).2 ≠ none

/-- Every message that carries the id of its requester's slot. -/
def inFlight (s : RelayState) : List Tagged := s.requests ++ s.responses ++ s.pipe

/-- No slot is given away while a message with its id is on the way. The first slot does not
matter: no response ever finds it. -/
def NoReuse (s : RelayState) : RelayEvent → Prop
  | .loop e => acceptedBy s.world e ≠ none → ∀ p, getIdlePeer s.world.mgr = some p → p ≠ 0 →
      ∀ m ∈ s.inFlight, messageId m.data ≠ peerId p
  | _ => True

/-! ## Where responses go -/

/-- `m` carries the id of a slot that, as long as it is in use, still belongs to the requester. -/
def Faithful (w : World) (m : Tagged) : Prop :=
  ∃ p, messageId m.data = peerId p ∧ (p = 0 ∨ w.ledger.Faithful [(m.origin, p)])

structure Inv (s : RelayState) : Prop where
  sound : Sound s.world
  ids : ∀ p, (s.world.mgr.slots p).id = peerId p
  faithful : ∀ m ∈ s.inFlight, Faithful s.world m
  lengths : ∀ m ∈ s.responses ++ s.pipe, 24 ≤ m.data.length ∧ m.data.length ≤ maxMqueueLen
  pipe : s.world.kernel.inbox s.world.mgr.mqueue =
    (s.pipe.map fun m => frame16.encode m.data).flatten
  delivered : ∀ d ∈ s.deliveries, d.2 = some (.client d.1)

/-- A message stays faithful through an event that gives its slot to nobody. -/
theorem Faithful.refines {w w' : World} {m : Tagged} {allowed : Action → Prop} (hw : Sound w)
    (h : Faithful w m) (hrun : Refines w w' allowed)
    (free : ∀ i d k, allowed (.assign i d k) → i ≠ 0 → messageId m.data ≠ peerId i) :
    Faithful w' m := by
  obtain ⟨p, hid, hp⟩ := h
  refine ⟨p, hid, ?_⟩
  rcases hp with hp | hp
  · exact .inl hp
  · by_cases hzero : p = 0
    · exact .inl hzero
    · right
      obtain ⟨as, hall, hruns⟩ := hrun.runs
      refine hp.runs hruns hw.balanced ?_
      intro a ha i d k heq q hq hqi
      rw [List.mem_singleton] at hq
      rw [hq] at hqi
      have hip : p = i := hqi
      rw [heq] at ha
      exact free i d k (hall _ ha) (hip ▸ hzero) (hip ▸ hid)

theorem Faithful.of_quiet {w v : World} {m : Tagged} (h : Faithful w m) (hq : Quiet w v) :
    Faithful v m := by
  obtain ⟨p, hid, hp⟩ := h
  exact ⟨p, hid, by rw [hq.ledger]; exact hp⟩

/-- The requester of a message that was just stamped for slot `p`. -/
theorem Faithful.of_stamped {w w' : World} {fd : Nat} {io : Calls} {p : Peer} {msg : MqData}
    (hw : Sound w) (ids : ∀ p, (w.mgr.slots p).id = peerId p) (hp : Holds w p fd)
    (h : Stamped w w' p msg) : Faithful w' ⟨requester w (.file fd io), msg.data⟩ := by
  have hclient := hw.client hp.1
  rw [hp.2] at hclient
  obtain ⟨k, hk⟩ := hclient
  refine ⟨p, h.ident.trans (ids p), .inr ?_⟩
  rw [h.quiet.ledger]
  intro q hq d hd
  rw [List.mem_singleton] at hq
  rw [hq] at hd ⊢
  rw [holds_iff_owner.mp hp] at hd
  cases hd
  rw [World.conn_eq_some, hk]
  simp [requester, hk, Descriptor.client?]

/-- The slot that a faithful message finds belongs to its requester. -/
theorem Faithful.found {w : World} {m : Tagged} {p : Peer} (h : Faithful w m)
    (hfound : getActivePeer w.mgr (messageId m.data) = some p) :
    w.kernel.fds (w.mgr.slots p).fd = some (.client m.origin) := by
  obtain ⟨q, hid, hq⟩ := h
  obtain ⟨hid', hne, hactive⟩ := getActivePeer_iff.mp hfound
  have hpq : q = p := peerId_injective (hid.symm.trans hid')
  rw [hpq] at hq
  have hfaithful := hq.resolve_left hne
  have howner : w.ledger.owner p = some (w.mgr.slots p).fd := World.owner_eq_some.mpr ⟨hactive, rfl⟩
  exact World.conn_eq_some.mp (hfaithful _ (List.mem_singleton_self _) _ howner)

theorem mem_inFlight {s : RelayState} {m : Tagged} :
    m ∈ s.inFlight ↔ m ∈ s.requests ∨ m ∈ s.responses ∨ m ∈ s.pipe := by
  simp [inFlight]

/-! ## One step -/

theorem Inv.loop {s : RelayState} (h : Inv s) {e : Event} (admitted : s.Admits (.loop e))
    (fresh : s.NoReuse (.loop e)) : Inv (s.step (.loop e)) := by
  obtain ⟨hadmissible, hpipe⟩ := admitted
  have hrun := exec_refines h.sound e hadmissible
  have hfree : ∀ m ∈ s.inFlight, Faithful (exec s.world e) m := by
    intro m hm
    refine (h.faithful m hm).refines h.sound hrun ?_
    intro i d k hallowed hi
    rcases hallowed with hreleases | ⟨cfd, hcfd, hidle, -, -⟩
    · exact absurd hreleases id
    · exact fresh (by rw [hcfd]; exact Option.some_ne_none cfd) i hidle hi m hm
  obtain ⟨hinbox, htraffic⟩ := exec_traffic h.sound hadmissible hpipe
  refine ⟨hrun.sound h.sound, fun p => (hrun.ids p).trans (h.ids p), ?_, h.lengths, ?_, h.delivered⟩
  · intro m hm
    rw [mem_inFlight] at hm
    rcases hm with hm | hm
    · rcases List.mem_append.mp hm with hm | hm
      · exact hfree m (mem_inFlight.mpr (.inl hm))
      · rcases htraffic with hsent | ⟨fd, io, p, msg, rfl, hp, hstamped⟩
        · rw [hsent, List.drop_length] at hm
          contradiction
        · rw [hstamped.sent, List.drop_left, List.map_singleton, List.mem_singleton] at hm
          rw [hm]
          exact .of_stamped h.sound h.ids hp hstamped
    · exact hfree m (mem_inFlight.mpr (.inr hm))
  · change (exec s.world e).kernel.inbox (exec s.world e).mgr.mqueue = _
    rw [hrun.mqueue, hinbox]
    exact h.pipe

theorem Inv.answer {s : RelayState} (h : Inv s) {i : Nat} {data : Bytes}
    (admitted : s.Admits (.answer i data)) : Inv (s.step (.answer i data)) := by
  obtain ⟨r, hr, hid, hlow, hhigh⟩ := admitted
  simp only [step, hr]
  have hmem : r ∈ s.requests := List.mem_of_getElem? hr
  refine ⟨h.sound, h.ids, ?_, ?_, h.pipe, h.delivered⟩
  · intro m hm
    rw [mem_inFlight] at hm
    rcases hm with hm | hm | hm
    · exact h.faithful m (mem_inFlight.mpr (.inl (List.mem_of_mem_eraseIdx hm)))
    · rcases List.mem_append.mp hm with hm | hm
      · exact h.faithful m (mem_inFlight.mpr (.inr (.inl hm)))
      · rw [List.mem_singleton.mp hm]
        obtain ⟨p, hp, hfaithful⟩ := h.faithful r (mem_inFlight.mpr (.inl hmem))
        exact ⟨p, hid.trans hp, hfaithful⟩
    · exact h.faithful m (mem_inFlight.mpr (.inr (.inr hm)))
  · intro m hm
    simp only [List.append_assoc, List.mem_append, List.mem_singleton] at hm
    rcases hm with hm | hm | hm
    · exact h.lengths m (List.mem_append_left _ hm)
    · rw [hm]
      exact ⟨hlow, hhigh⟩
    · exact h.lengths m (List.mem_append_right _ hm)

theorem Inv.pass {s : RelayState} (h : Inv s) {i : Nat} : Inv (s.step (.pass i)) := by
  simp only [step]
  cases hr : s.responses[i]? with
  | none => exact h
  | some r =>
      have hmem : r ∈ s.responses := List.mem_of_getElem? hr
      have hlen := h.lengths r (List.mem_append_left _ hmem)
      have hquiet := quiet_arrive s.world s.world.mgr.mqueue (waitResponse (some r.data)).flatten
      have hframe : (waitResponse (some r.data)).flatten = frame16.encode r.data :=
        waitResponse_flatten hlen.1 (Nat.lt_of_le_of_lt hlen.2 (by decide))
      refine ⟨hquiet.sound h.sound, h.ids, ?_, ?_, ?_, h.delivered⟩
      · intro m hm
        have hold : m ∈ s.inFlight := by
          simp only [mem_inFlight, List.mem_append, List.mem_singleton] at hm ⊢
          rcases hm with hm | hm | hm | hm
          · exact .inl hm
          · exact .inr (.inl (List.mem_of_mem_eraseIdx hm))
          · exact .inr (.inr hm)
          · exact .inr (.inl (hm ▸ hmem))
        exact (h.faithful m hold).of_quiet hquiet
      · intro m hm
        simp only [List.mem_append, List.mem_singleton] at hm
        rcases hm with hm | hm | hm
        · exact h.lengths m (List.mem_append_left _ (List.mem_of_mem_eraseIdx hm))
        · exact h.lengths m (List.mem_append_right _ hm)
        · exact hm ▸ hlen
      · refine (Function.update_self _ _ _).trans ?_
        rw [h.pipe, hframe]
        simp

/-- A response is written to the requester's connection, or to nobody. -/
theorem routeResponse_traffic {w v : World} {m : Tagged} (h : Faithful w m) (hq : Quiet w v)
    (hwritten : v.kernel.written = w.kernel.written) (io : Calls) (len : UInt16) :
    (routeResponse io len (messageId m.data) v).kernel.inbox = v.kernel.inbox ∧
      ∃ new, (routeResponse io len (messageId m.data) v).kernel.written = w.kernel.written ++ new ∧
        ∀ x ∈ new, x.1 = some (.client m.origin) := by
  cases hfound : getActivePeer v.mgr (messageId m.data) with
  | none =>
      have hsame : routeResponse io len (messageId m.data) v = v := by rw [routeResponse, hfound]
      rw [hsame]
      exact ⟨rfl, [], by rw [hwritten, List.append_nil], by simp⟩
  | some p =>
      rw [routeResponse_of_found hfound, deliverResponse_written, hwritten]
      refine ⟨deliverResponse_inbox io p len v, _, rfl, ?_⟩
      intro x hx
      rw [List.mem_singleton.mp hx, hq.fds, hq.fd]
      exact h.found (hq.getActivePeer_iff.mp hfound)

theorem Inv.deliver {s : RelayState} (h : Inv s) {io : Calls} (admitted : s.Admits (.deliver io)) :
    Inv (s.step (.deliver io)) := by
  obtain ⟨hne, hread⟩ := admitted
  have hpipe := h.pipe
  simp only [step]
  cases hs : s.pipe with
  | nil => exact absurd hs hne
  | cons r pipe =>
      rw [hs, List.map_cons, List.flatten_cons] at hpipe
      have hlen := h.lengths r (List.mem_append_right _ (hs ▸ List.mem_cons_self))
      have hlt : r.data.length < 65536 := Nat.lt_of_le_of_lt hlen.2 (by decide)
      have hdispatch := h.sound.wired.dispatch_mqueue io
      have hrun := messageResponseHandler_refines h.sound io s.world.mgr.mqueue
      have hroute := messageResponseHandler_of_frame hlen.1 hlt hpipe hread
      have hfaithful := h.faithful r (mem_inFlight.mpr (.inr (.inr (hs ▸ List.mem_cons_self))))
      obtain ⟨hinbox, new, hwritten, htarget⟩ := routeResponse_traffic hfaithful
        (quiet_frameRead s.world s.world.mgr.mqueue r.data _) rfl io (UInt16.ofNat r.data.length)
      rw [← hroute, ← hdispatch] at hinbox hwritten
      rw [← hdispatch] at hrun
      refine ⟨hrun.sound h.sound, fun p => (hrun.ids p).trans (h.ids p), ?_, ?_, ?_, ?_⟩
      · intro m hm
        have hold : m ∈ s.inFlight := by
          rw [mem_inFlight] at hm ⊢
          rw [hs]
          exact hm.imp_right (Or.imp_right (List.mem_cons_of_mem r))
        refine (h.faithful m hold).refines h.sound hrun ?_
        intro i d k hreleases
        exact absurd hreleases id
      · intro m hm
        refine h.lengths m ?_
        rw [hs]
        simp only [List.mem_append, List.mem_cons] at hm ⊢
        exact hm.imp_right Or.inr
      · change (dispatch io s.world.mgr.mqueue s.world).kernel.inbox
          (dispatch io s.world.mgr.mqueue s.world).mgr.mqueue = _
        rw [hrun.mqueue, hinbox]
        exact Function.update_self _ _ _
      · intro d hd
        rcases List.mem_append.mp hd with hd | hd
        · exact h.delivered d hd
        · change d ∈ ((dispatch io s.world.mgr.mqueue s.world).kernel.written.drop
            s.world.kernel.written.length).map _ at hd
          rw [hwritten, List.drop_left] at hd
          obtain ⟨x, hx, rfl⟩ := List.mem_map.mp hd
          exact htarget x hx

end RelayState

/-! ## Whole runs -/

def relay : Machine RelayState RelayEvent where
  step := RelayState.step
  admits := RelayState.Admits

open RelayState in
/-- As long as no slot is given away under a message that carries its id, every response that is
written goes to the connection whose request it answers. -/
theorem responses_reach_requesters {w₀ : World} (start : Fresh w₀)
    (hpipe : w₀.kernel.inbox w₀.mgr.mqueue = []) {s : RelayState}
    (h : (relay.restrict NoReuse).Reaches (.start w₀) s) :
    ∀ d ∈ s.deliveries, d.2 = some (.client d.1) := by
  suffices hs : Inv s from hs.delivered
  refine h.invariant (I := Inv) ?_ ?_
  · intro s e hs admitted
    obtain ⟨admitted, fresh⟩ := admitted
    cases e with
    | loop e => exact hs.loop admitted fresh
    | answer i data => exact hs.answer admitted
    | pass i => exact hs.pass
    | deliver io => exact hs.deliver admitted
  · constructor
    · exact start.toStarted.sound
    · exact start.ids
    · intro m hm
      contradiction
    · intro m hm
      contradiction
    · exact hpipe
    · intro d hd
      contradiction

theorem admissible_accepting {w : World} {fd : Nat} (server : Nat) (h : w.kernel.fds fd = none) :
    Admissible w (.file server (accepting fd)) := by
  intro cfd cip cport hcfd
  cases hcfd
  exact h

theorem admissible_reading (w : World) (fd : Nat) : Admissible w (.file fd {}) := nofun

/-- The message of the second client's request. -/
def secondRequest : Bytes := (requestMessage 120 20140001 0 smallBody).data

/-- Two clients connect, the second sends a request, and the answer to it comes back. -/
def answeredInTime : List RelayEvent :=
  [.loop (.file 5 (accepting 9)), .loop (.file 5 (accepting 10)),
    .loop (.arrive 10 (frame16.encode smallBody)), .loop (.file 10 {}),
    .answer 0 secondRequest, .pass 0, .deliver {}]

theorem answeredInTime_runs : (relay.restrict RelayState.NoReuse).Runs (.start firstWorld)
    answeredInTime (answeredInTime.foldl RelayState.step (.start firstWorld)) := by
  refine .cons ⟨⟨admissible_accepting 5 rfl, nofun⟩, nofun⟩ ?_
  refine .cons ⟨⟨admissible_accepting 5 rfl, by decide⟩, nofun⟩ ?_
  refine .cons ⟨⟨trivial, by decide⟩, nofun⟩ ?_
  refine .cons ⟨⟨admissible_reading _ 10, by decide⟩, nofun⟩ ?_
  refine .cons ⟨⟨⟨1, secondRequest⟩, rfl, rfl, by decide, by decide⟩, trivial⟩ ?_
  refine .cons ⟨Nat.one_pos, trivial⟩ ?_
  refine .cons ⟨⟨nofun, by decide⟩, trivial⟩ ?_
  exact .nil _

theorem answeredInTime_delivered :
    (answeredInTime.foldl RelayState.step (.start firstWorld)).deliveries =
      [(1, some (.client 1))] ∧
    ∀ d ∈ (answeredInTime.foldl RelayState.step (.start firstWorld)).deliveries,
      d.2 = some (.client d.1) :=
  ⟨rfl, responses_reach_requesters firstWorld_fresh rfl ⟨_, answeredInTime_runs⟩⟩

/-- The second client leaves while the device is at work, and a third takes its slot. -/
def answeredLate : List RelayEvent :=
  [.loop (.file 5 (accepting 9)), .loop (.file 5 (accepting 10)),
    .loop (.arrive 10 (frame16.encode smallBody)), .loop (.file 10 {}), .loop (.file 10 {}),
    .loop (.file 5 (accepting 10)), .answer 0 secondRequest, .pass 0, .deliver {}]

/-- The third client gets the answer to the second client's request. -/
theorem answeredLate_misdelivered :
    relay.Runs (.start firstWorld) answeredLate
      (answeredLate.foldl RelayState.step (.start firstWorld)) ∧
    (answeredLate.foldl RelayState.step (.start firstWorld)).deliveries =
      [(1, some (.client 2))] ∧
    ¬ ∀ d ∈ (answeredLate.foldl RelayState.step (.start firstWorld)).deliveries,
      d.2 = some (.client d.1) := by
  have hdeliveries : (answeredLate.foldl RelayState.step (.start firstWorld)).deliveries =
      [(1, some (.client 2))] := rfl
  refine ⟨?_, hdeliveries, ?_⟩
  · refine .cons ⟨admissible_accepting 5 rfl, nofun⟩ ?_
    refine .cons ⟨admissible_accepting 5 rfl, by decide⟩ ?_
    refine .cons ⟨trivial, by decide⟩ ?_
    refine .cons ⟨admissible_reading _ 10, by decide⟩ ?_
    refine .cons ⟨admissible_reading _ 10, by decide⟩ ?_
    refine .cons ⟨admissible_accepting 5 rfl, by decide⟩ ?_
    refine .cons ⟨⟨1, secondRequest⟩, rfl, rfl, by decide, by decide⟩ ?_
    refine .cons Nat.one_pos ?_
    refine .cons ⟨nofun, by decide⟩ ?_
    exact .nil _
  · rw [hdeliveries]
    decide

end Tflib.Nac
