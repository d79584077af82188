import Tflib.Core.Framing
import Tflib.Socket.Transfer

/-! # The conversion and accept wrappers of `tf_socket.c`

`net16cpy` and `net32cpy` take a number out of a buffer, `host16cpy` and
`host32cpy` put one in, both in network byte order whatever the host's own
order is.
-/

namespace Tflib.Socket

open Tflib.Core

/-! ## Byte order -/

/-- `ntohs` of two bytes as they stand in memory. -/
def net16 (bs : Bytes) : UInt16 := UInt16.ofNat (netValue bs)

def net32 (bs : Bytes) : UInt32 := UInt32.ofNat (netValue bs)

/-- `htons` of a number, as the two bytes that stand in memory. -/
def host16 (src : UInt16) : Bytes := netBytes 2 src.toNat

def host32 (src : UInt32) : Bytes := netBytes 4 src.toNat

def net16cpy (m : Memory) (buf : Nat) : UInt16 := net16 (m.load buf 2)

def net32cpy (m : Memory) (buf : Nat) : UInt32 := net32 (m.load buf 4)

def host16cpy (m : Memory) (buf : Nat) (src : UInt16) : Memory := m.store buf (host16 src)

def host32cpy (m : Memory) (buf : Nat) (src : UInt32) : Memory := m.store buf (host32 src)

@[simp] theorem host16_length (src : UInt16) : (host16 src).length = 2 := netBytes_length 2 _

@[simp] theorem host32_length (src : UInt32) : (host32 src).length = 4 := netBytes_length 4 _

theorem net16_toNat {bs : Bytes} (h : bs.length = 2) : (net16 bs).toNat = netValue bs := by
  have hlt := netValue_lt bs
  rw [h] at hlt
  simp only [net16, UInt16.toNat_ofNat']
  omega

theorem net32_toNat {bs : Bytes} (h : bs.length = 4) : (net32 bs).toNat = netValue bs := by
  have hlt := netValue_lt bs
  rw [h] at hlt
  simp only [net32, UInt32.toNat_ofNat']
  omega

@[simp] theorem net16_host16 (v : UInt16) : net16 (host16 v) = v := by
  apply UInt16.toNat_inj.mp
  have hv : v.toNat < 256 ^ 2 := v.toNat_lt
  rw [net16_toNat (host16_length v), host16, netValue_netBytes_of_lt hv]

@[simp] theorem net32_host32 (v : UInt32) : net32 (host32 v) = v := by
  apply UInt32.toNat_inj.mp
  have hv : v.toNat < 256 ^ 4 := v.toNat_lt
  rw [net32_toNat (host32_length v), host32, netValue_netBytes_of_lt hv]

theorem host16_net16 {bs : Bytes} (h : bs.length = 2) : host16 (net16 bs) = bs := by
  rw [host16, net16_toNat h, ← h, netBytes_netValue]

theorem host32_net32 {bs : Bytes} (h : bs.length = 4) : host32 (net32 bs) = bs := by
  rw [host32, net32_toNat h, ← h, netBytes_netValue]

/-! ## Frames with a 16-bit length -/

/-- The framing of both the client protocol and the internal pipe. -/
def frame16 : Framing UInt8 where
  width := 2
  limit := 65536
  header := netBytes 2
  size := netValue
  width_pos := by omega
  header_length := netBytes_length 2
  size_header n h := netValue_netBytes_of_lt h

theorem frame16_encode {body : Bytes} (h : body.length < 65536) :
    frame16.encode body = host16 (UInt16.ofNat body.length) ++ body := by
  have hn : (UInt16.ofNat body.length).toNat = body.length := by
    simp only [UInt16.toNat_ofNat']
    omega
  simp [Framing.encode, frame16, host16, hn]

/-- Neither the read of the length nor that of the `n` bytes after it meets the twenty-first
interruption. -/
def ReadsThrough (script : List CallResult) (n : Nat) : Prop :=
  stalls script 2 ≤ 20 ∧ stalls (unused script 2) n ≤ 20

theorem Patient.readsThrough {script : List CallResult} (h : Patient script) (n : Nat) :
    ReadsThrough script n :=
  ⟨(stalls_le_count _ _).trans h.few, (stalls_le_count _ _).trans (h.unused 2).few⟩

theorem Live.unused {script : List CallResult} (live : Live script) (left : Nat) :
    Live (unused script left) := fun r hr => live r ((unused_suffix script left).subset hr)

theorem size_frame16 (s : Bytes) : frame16.size s = netValue s := rfl

theorem width_frame16 : frame16.width = 2 := rfl

theorem tfnetRead_head {script : List CallResult} (live : Live script) {s : Bytes}
    (few : stalls script 2 ≤ 20) (enough : 2 ≤ s.length) :
    tfnetRead script s 2 = ⟨2, s.take 2, s.drop 2, Socket.unused script 2⟩ ∧
      (net16 (s.take 2)).toNat = netValue (s.take 2) := by
  refine ⟨tfnetRead_live live enough few, net16_toNat ?_⟩
  rw [List.length_take, Nat.min_eq_left enough]

/-- The two reads of a complete frame. -/
theorem tfnetRead_frame {script : List CallResult} (live : Live script) {s body rest : Bytes}
    (hnext : frame16.next? s = some (body, rest)) (few : ReadsThrough script body.length) :
    tfnetRead script s 2 = ⟨2, s.take 2, s.drop 2, Socket.unused script 2⟩ ∧
      (net16 (s.take 2)).toNat = body.length ∧
      tfnetRead (Socket.unused script 2) (s.drop 2) body.length =
        ⟨body.length, body, rest, Socket.unused (Socket.unused script 2) body.length⟩ := by
  obtain ⟨hwidth, hsize, hdrop⟩ := frame16.next?_eq_some.mp hnext
  rw [width_frame16] at hwidth hsize hdrop
  rw [size_frame16] at hsize
  obtain ⟨hhead, hlen⟩ := tfnetRead_head live few.1 hwidth
  refine ⟨hhead, hlen.trans hsize, ?_⟩
  have hbody := tfnetRead_live (live.unused 2)
    (show body.length ≤ (s.drop 2).length by rw [hdrop, List.length_append]; omega) few.2
  rw [hbody, hdrop, List.take_left, List.drop_left]

/-- One of the two reads of a truncated frame fails. -/
theorem tfnetRead_truncated {script : List CallResult} (patient : Patient script) {s : Bytes}
    (hnext : frame16.next? s = none) :
    (tfnetRead script s 2).ret = -1 ∨
      (tfnetRead script s 2 = ⟨2, s.take 2, s.drop 2, Socket.unused script 2⟩ ∧
        (tfnetRead (Socket.unused script 2) (s.drop 2) (net16 (s.take 2)).toNat).ret = -1) := by
  by_cases hshort : s.length < 2
  · exact .inl (tfnetRead_short script hshort)
  · obtain ⟨hhead, hlen⟩ := tfnetRead_head patient.live (patient.readsThrough 0).1
      (s := s) (by omega)
    rcases frame16.next?_eq_none.mp hnext with h | h
    · exact absurd h hshort
    · rw [width_frame16, size_frame16, ← hlen] at h
      exact .inr ⟨hhead, tfnetRead_short _ h⟩

/-! ## Accept -/

/-- What one `accept` call answers; address and port are in host order. -/
inductive AcceptResult
  | conn (fd : Nat) (ip : UInt32) (port : UInt16)
  | interrupted
  | failed
  deriving DecidableEq, Repr

/-- `tfnet_generic_accept` retries for as long as the call is interrupted. -/
def tfnetGenericAccept : List AcceptResult → Option (Nat × UInt32 × UInt16)
  | [] => none
  | .interrupted :: script => tfnetGenericAccept script
  | .failed :: _ => none
  | .conn fd ip port :: _ => some (fd, ip, port)

/-- `tfnet_tcp_accept2`: `none` is `TFNET_ERR`. -/
def tfnetTcpAccept2 (script : List AcceptResult) : Option (Nat × UInt32 × UInt16) :=
  tfnetGenericAccept script

end Tflib.Socket
