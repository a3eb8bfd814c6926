import MVVM.Loop
import Mathlib.Algebra.BigOperators.Group.List.Basic
import Mathlib.Tactic.NormNum

/-!
# A snapshot over a TCP connection

`SocketWriteStream` and `SocketReadStream`, over a connection on which each transfer moves
as many bytes as the two kernels see fit.
-/

namespace MVVM.Streams

/-- The connection: the bytes that were sent and not yet received, and the numbers of
calls so far. -/
structure Channel where
  wire : List UInt8
  sends : ℕ
  recvs : ℕ
  deriving DecidableEq, Repr

/-- The answers of a kernel: what the k-th call returns when so many bytes are asked for. -/
abbrev Answers : Type := ℕ → ℕ → ℤ

/-- Each transfer moves between one byte and the number of bytes asked for. -/
def Answers.Legal (a : Answers) : Prop := ∀ k len, 0 < len → 1 ≤ a k len ∧ a k len ≤ len

section

variable (accepts delivers : Answers)

def send (c : Channel) (data : List UInt8) : ℤ × Channel :=
  (accepts c.sends data.length,
    { c with wire := c.wire ++ data.take (accepts c.sends data.length).toNat,
             sends := c.sends + 1 })

/-- `recv`. On an empty wire there is nothing more to come, and it returns 0. A call that
comes before all its bytes are sent delivers fewer, which is one of the answers. -/
def recv (c : Channel) (len : ℕ) : ℤ × List UInt8 × Channel :=
  (min (delivers c.recvs len) c.wire.length,
    c.wire.take (min (delivers c.recvs len) c.wire.length).toNat,
    { c with wire := c.wire.drop (min (delivers c.recvs len) c.wire.length).toNat,
             recvs := c.recvs + 1 })

/-- One round of the loop of `SocketWriteStream::write`, on `totalSent` and the
connection. -/
def writeBody (data : List UInt8) (s : ℕ × Channel) : (ℕ × Channel) ⊕ (Bool × Channel) :=
  if s.1 < data.length then
    match send accepts s.2 (data.drop s.1) with
    | (sent, c) => if sent = -1 then .inr (false, c) else .inl (s.1 + sent.toNat, c)
  else .inr (true, s.2)

def write (fuel : ℕ) (c : Channel) (data : List UInt8) : Option (Bool × Channel) :=
  Loop.run (writeBody accepts data) fuel (0, c)

def writeAll (fuel : ℕ) : Channel → List (List UInt8) → Option (List Bool × Channel)
  | c, [] => some ([], c)
  | c, data :: rest =>
    (write accepts fuel c data).bind fun p =>
      (writeAll fuel p.2 rest).map fun q => (p.1 :: q.1, q.2)

structure SocketReadStream where
  position : ℕ
  channel : Channel
  deriving DecidableEq, Repr

/-- One round of the loop of `read` and of `read_view`, on the bytes in the buffer and the
connection. -/
def receiveBody (sz : ℕ) (s : List UInt8 × Channel) :
    (List UInt8 × Channel) ⊕ (Bool × List UInt8 × Channel) :=
  if s.1.length < sz then
    match recv delivers s.2 (sz - s.1.length) with
    | (received, bytes, c) =>
      if received = -1 ∨ received = 0 then .inr (false, s.1, c) else .inl (s.1 ++ bytes, c)
  else .inr (true, s.1, s.2)

/-- `SocketReadStream::read`, with the bytes it has put at `data`. -/
def SocketReadStream.read (fuel : ℕ) (s : SocketReadStream) (sz : ℕ) :
    Option ((Bool × List UInt8) × SocketReadStream) :=
  (Loop.run (receiveBody delivers sz) fuel ([], s.channel)).map fun (ok, data, c) =>
    if ok then ((true, data), ⟨s.position + data.length, c⟩)
    else ((false, data), ⟨s.position, c⟩)

/-- `SocketReadStream::read_view`: the buffer, or a null pointer. -/
def SocketReadStream.readView (fuel : ℕ) (s : SocketReadStream) (len : ℕ) :
    Option (Option (List UInt8) × SocketReadStream) :=
  (Loop.run (receiveBody delivers len) fuel ([], s.channel)).map fun (ok, buffer, c) =>
    if ok then (some buffer, ⟨s.position + len, c⟩) else (none, ⟨s.position, c⟩)

/-- The size of the buffer of `ignore`. -/
def ignoreWindow : ℕ := 1024

/-- One round of the loop of `ignore`, on `total_ignored` and the stream. -/
def ignoreBody (sz : ℕ) (s : ℕ × SocketReadStream) :
    (ℕ × SocketReadStream) ⊕ (Bool × SocketReadStream) :=
  if s.1 < sz then
    match recv delivers s.2.channel (min (sz - s.1) ignoreWindow) with
    | (ignored, _, c) =>
      if ignored ≤ 0 then .inr (false, ⟨s.2.position, c⟩)
      else .inl (s.1 + ignored.toNat, ⟨s.2.position + ignored.toNat, c⟩)
  else .inr (true, s.2)

def SocketReadStream.ignore (fuel : ℕ) (s : SocketReadStream) (sz : ℕ) :
    Option (Bool × SocketReadStream) :=
  Loop.run (ignoreBody delivers sz) fuel (0, s)

def SocketReadStream.tellg (s : SocketReadStream) : ℕ := s.position

inductive ReadCall where
  | read (sz : ℕ)
  | readView (len : ℕ)
  | ignore (sz : ℕ)
  deriving DecidableEq, Repr

def ReadCall.size : ReadCall → ℕ
  | .read sz => sz
  | .readView len => len
  | .ignore sz => sz

/-- What a call gives its caller: success, the bytes, and `tellg` after it. -/
structure ReadResult where
  ok : Bool
  bytes : List UInt8
  tellg : ℕ
  deriving DecidableEq, Repr

def SocketReadStream.call (fuel : ℕ) (s : SocketReadStream) :
    ReadCall → Option (ReadResult × SocketReadStream)
  | .read sz => (s.read delivers fuel sz).map fun (r, t) => (⟨r.1, r.2, t.tellg⟩, t)
  | .readView len =>
    (s.readView delivers fuel len).map fun (r, t) => (⟨r.isSome, r.getD [], t.tellg⟩, t)
  | .ignore sz => (s.ignore delivers fuel sz).map fun (r, t) => (⟨r, [], t.tellg⟩, t)

def SocketReadStream.calls (fuel : ℕ) :
    SocketReadStream → List ReadCall → Option (List ReadResult × SocketReadStream)
  | s, [] => some ([], s)
  | s, call :: rest =>
    (s.call delivers fuel call).bind fun p =>
      (p.2.calls fuel rest).map fun q => (p.1 :: q.1, q.2)

end

/-! ### The writer -/

variable {accepts delivers : Answers}

theorem send_spec (ha : accepts.Legal) (c : Channel) {data : List UInt8} (hne : data ≠ []) :
    ∃ (k : ℕ) (c' : Channel), send accepts c data = ((k : ℤ), c') ∧ 1 ≤ k ∧ k ≤ data.length ∧
      c'.wire = c.wire ++ data.take k := by
  obtain ⟨hlo, hhi⟩ := ha c.sends data.length (List.length_pos_iff.mpr hne)
  have hk : ((accepts c.sends data.length).toNat : ℤ) = accepts c.sends data.length := by omega
  exact ⟨(accepts c.sends data.length).toNat, _, by rw [hk]; rfl, by omega, by omega, rfl⟩

theorem write_spec (ha : accepts.Legal) (c : Channel) (data : List UInt8) {fuel : ℕ}
    (hfuel : data.length < fuel) :
    ∃ c', write accepts fuel c data = some (true, c') ∧ c'.wire = c.wire ++ data := by
  let I : ℕ × Channel → Prop := fun s =>
    s.1 ≤ data.length ∧ s.2.wire = c.wire ++ data.take s.1
  let Q : Bool × Channel → Prop := fun r => r.1 = true ∧ r.2.wire = c.wire ++ data
  have hbody : ∀ s, I s → (∃ t, writeBody accepts data s = .inl t ∧ I t ∧
      data.length - t.1 < data.length - s.1) ∨ ∃ r, writeBody accepts data s = .inr r ∧ Q r := by
    intro ⟨totalSent, c₁⟩ hs
    obtain ⟨hle, hwire⟩ : totalSent ≤ data.length ∧ c₁.wire = c.wire ++ data.take totalSent := hs
    by_cases hlt : totalSent < data.length
    · have hlen : (data.drop totalSent).length = data.length - totalSent := List.length_drop
      have hne : data.drop totalSent ≠ [] := by
        apply List.ne_nil_of_length_pos
        omega
      obtain ⟨k, c₂, hsend, hlo, hhi, hnew⟩ := send_spec ha c₁ hne
      refine .inl ⟨(totalSent + k, c₂), ?_, ⟨by omega, ?_⟩, by omega⟩
      · rw [writeBody, if_pos hlt]
        simp only [hsend, Int.toNat_natCast]
        rw [if_neg (by omega)]
      · rw [hnew, hwire, List.append_assoc, ← List.take_add]
    · refine .inr ⟨(true, c₁), if_neg hlt, rfl, ?_⟩
      rw [hwire, List.take_of_length_le (by omega)]
  have hstart : I (0, c) := ⟨Nat.zero_le _, by simp⟩
  obtain ⟨⟨ok, c'⟩, hrun, rfl, hwire⟩ :=
    Loop.run_of_variant I (fun s => data.length - s.1) Q hbody hstart hfuel
  exact ⟨c', hrun, hwire⟩

theorem writeAll_spec (ha : accepts.Legal) (c : Channel) (buffers : List (List UInt8)) {fuel : ℕ}
    (hfuel : buffers.flatten.length < fuel) :
    ∃ c', writeAll accepts fuel c buffers = some (buffers.map fun _ => true, c') ∧
      c'.wire = c.wire ++ buffers.flatten := by
  induction buffers generalizing c with
  | nil => exact ⟨c, rfl, by simp⟩
  | cons data rest ih =>
    rw [List.flatten_cons, List.length_append] at hfuel
    obtain ⟨c₁, hwrite, hwire⟩ := write_spec ha c data (show data.length < fuel by omega)
    obtain ⟨c', hall, hwire'⟩ := ih c₁ (by omega)
    refine ⟨c', ?_, ?_⟩
    · rw [writeAll, hwrite, Option.bind_some, hall]
      rfl
    · rw [hwire', hwire, List.flatten_cons, List.append_assoc]

/-! ### The reader -/

/-- Of a wire that is not empty a call takes something; at its end it returns 0. -/
theorem recv_spec (hd : delivers.Legal) (c : Channel) {len : ℕ} (hlen : 0 < len) :
    ∃ (k : ℕ) (c' : Channel), recv delivers c len = ((k : ℤ), c.wire.take k, c') ∧
      (c.wire.length = 0 ∨ 1 ≤ k) ∧ k ≤ len ∧ k ≤ c.wire.length ∧ c'.wire = c.wire.drop k := by
  obtain ⟨hlo, hhi⟩ := hd c.recvs len hlen
  have hk : ((min (delivers c.recvs len) (c.wire.length : ℤ)).toNat : ℤ) =
      min (delivers c.recvs len) c.wire.length := by omega
  exact ⟨(min (delivers c.recvs len) (c.wire.length : ℤ)).toNat, { c with
    wire := c.wire.drop (min (delivers c.recvs len) (c.wire.length : ℤ)).toNat,
    recvs := c.recvs + 1 }, by rw [recv, hk], by omega, by omega, by omega, rfl⟩

theorem run_receiveBody (hd : delivers.Legal) (c : Channel) {sz fuel : ℕ}
    (hfuel : min sz c.wire.length < fuel) :
    ∃ c', Loop.run (receiveBody delivers sz) fuel ([], c) =
        some (decide (sz ≤ c.wire.length), c.wire.take sz, c') ∧
      c'.wire = c.wire.drop sz := by
  let I : List UInt8 × Channel → Prop := fun s =>
    s.1.length ≤ sz ∧ s.1.length ≤ c.wire.length ∧ s.1 = c.wire.take s.1.length ∧
      s.2.wire = c.wire.drop s.1.length
  let Q : Bool × List UInt8 × Channel → Prop := fun r =>
    r.1 = decide (sz ≤ c.wire.length) ∧ r.2.1 = c.wire.take sz ∧ r.2.2.wire = c.wire.drop sz
  have hbody : ∀ s, I s → (∃ t, receiveBody delivers sz s = .inl t ∧ I t ∧
      min sz c.wire.length - t.1.length < min sz c.wire.length - s.1.length) ∨
      ∃ r, receiveBody delivers sz s = .inr r ∧ Q r := by
    intro ⟨data, c₁⟩ hs
    obtain ⟨hle, hin, hdata, hwire⟩ : data.length ≤ sz ∧ data.length ≤ c.wire.length ∧
      data = c.wire.take data.length ∧ c₁.wire = c.wire.drop data.length := hs
    by_cases hlt : data.length < sz
    · have hrest : c₁.wire.length = c.wire.length - data.length := by
        rw [hwire, List.length_drop]
      obtain ⟨k, c₂, hrecv, hpos, hhi, hall, hnew⟩ :=
        recv_spec hd c₁ (show 0 < sz - data.length by omega)
      by_cases hk : k = 0
      · -- the end of the wire, before all bytes have come
        have hend : data.length = c.wire.length := by omega
        refine .inr ⟨(false, data, c₂), ?_, ?_, ?_, ?_⟩
        · rw [receiveBody, if_pos hlt]
          simp only [hrecv]
          rw [if_pos (by omega)]
        · exact (decide_eq_false (by omega)).symm
        · simp only
          rw [hdata, hend, List.take_length, List.take_of_length_le (by omega)]
        · simp only
          rw [hnew, hwire, hend, List.drop_length, List.drop_nil, List.drop_of_length_le (by omega)]
      · have hlen : (data ++ c₁.wire.take k).length = data.length + k := by
          rw [List.length_append, List.length_take]
          omega
        refine .inl ⟨(data ++ c₁.wire.take k, c₂), ?_, ⟨?_, ?_, ?_, ?_⟩, ?_⟩
        · rw [receiveBody, if_pos hlt]
          simp only [hrecv]
          rw [if_neg (by omega)]
        · simp only [hlen]
          omega
        · simp only [hlen]
          omega
        · simp only [hlen]
          rw [List.take_add, ← hdata, hwire]
        · simp only [hlen]
          rw [hnew, hwire, List.drop_drop]
        · simp only [hlen]
          omega
    · have hsame : data.length = sz := by omega
      refine .inr ⟨(true, data, c₁), if_neg hlt, ?_, hsame ▸ hdata, hsame ▸ hwire⟩
      exact (decide_eq_true (by omega)).symm
  have hstart : I ([], c) := ⟨Nat.zero_le _, Nat.zero_le _, by simp, by simp⟩
  obtain ⟨⟨ok, data, c'⟩, hrun, rfl, rfl, hwire⟩ :=
    Loop.run_of_variant I (fun s => min sz c.wire.length - s.1.length) Q hbody hstart
      (by simpa using hfuel)
  exact ⟨c', hrun, hwire⟩

theorem ignore_spec (hd : delivers.Legal) (s : SocketReadStream) {sz fuel : ℕ}
    (hfuel : min sz s.channel.wire.length < fuel) :
    ∃ t, s.ignore delivers fuel sz = some (decide (sz ≤ s.channel.wire.length), t) ∧
      t.position = s.position + min sz s.channel.wire.length ∧
      t.channel.wire = s.channel.wire.drop sz := by
  let I : ℕ × SocketReadStream → Prop := fun r =>
    r.1 ≤ min sz s.channel.wire.length ∧ r.2.position = s.position + r.1 ∧
      r.2.channel.wire = s.channel.wire.drop r.1
  let Q : Bool × SocketReadStream → Prop := fun r =>
    r.1 = decide (sz ≤ s.channel.wire.length) ∧
      r.2.position = s.position + min sz s.channel.wire.length ∧
      r.2.channel.wire = s.channel.wire.drop sz
  have hbody : ∀ r, I r → (∃ t, ignoreBody delivers sz r = .inl t ∧ I t ∧
      min sz s.channel.wire.length - t.1 < min sz s.channel.wire.length - r.1) ∨
      ∃ q, ignoreBody delivers sz r = .inr q ∧ Q q := by
    intro ⟨total, u⟩ hs
    obtain ⟨hle, hpos, hwire⟩ : total ≤ min sz s.channel.wire.length ∧
      u.position = s.position + total ∧ u.channel.wire = s.channel.wire.drop total := hs
    by_cases hlt : total < sz
    · have hrest : u.channel.wire.length = s.channel.wire.length - total := by
        rw [hwire, List.length_drop]
      have hwindow : 0 < min (sz - total) ignoreWindow := by
        unfold ignoreWindow
        omega
      obtain ⟨k, c', hrecv, hsome, hhi, hall, hnew⟩ := recv_spec hd u.channel hwindow
      by_cases hk : k = 0
      · have hend : total = s.channel.wire.length := by omega
        refine .inr ⟨(false, ⟨u.position, c'⟩), ?_, ?_, ?_, ?_⟩
        · rw [ignoreBody, if_pos hlt]
          simp only [hrecv]
          rw [if_pos (by omega)]
        · exact (decide_eq_false (by omega)).symm
        · simp only
          omega
        · simp only
          rw [hnew, hwire, hend, List.drop_length, List.drop_nil, List.drop_of_length_le (by omega)]
      · refine .inl ⟨(total + k, ⟨u.position + k, c'⟩), ?_, ⟨by simp only; omega, ?_, ?_⟩,
          by simp only; omega⟩
        · rw [ignoreBody, if_pos hlt]
          simp only [hrecv, Int.toNat_natCast]
          rw [if_neg (by omega)]
        · simp only [hpos, Nat.add_assoc]
        · simp only [hnew, hwire, List.drop_drop]
    · have hsame : total = sz := by omega
      refine .inr ⟨(true, u), if_neg hlt, ?_, ?_, hsame ▸ hwire⟩
      · exact (decide_eq_true (by omega)).symm
      · simp only
        omega
  have hstart : I (0, s) := ⟨Nat.zero_le _, rfl, rfl⟩
  obtain ⟨⟨ok, t⟩, hrun, rfl, hpos, hwire⟩ :=
    Loop.run_of_variant I (fun r => min sz s.channel.wire.length - r.1) Q hbody hstart
      (by simpa using hfuel)
  exact ⟨t, hrun, hpos, hwire⟩

def ReadCall.slice (coming : List UInt8) : ReadCall → List UInt8
  | .read sz => coming.take sz
  | .readView len => coming.take len
  | .ignore _ => []

theorem call_spec (hd : delivers.Legal) (s : SocketReadStream) (call : ReadCall) {fuel : ℕ}
    (hsz : call.size ≤ s.channel.wire.length) (hfuel : call.size < fuel) :
    ∃ t, s.call delivers fuel call =
        some (⟨true, call.slice s.channel.wire, s.position + call.size⟩, t) ∧
      t.position = s.position + call.size ∧
      t.channel.wire = s.channel.wire.drop call.size := by
  cases call with
  | read sz =>
    simp only [ReadCall.size] at hsz hfuel ⊢
    obtain ⟨c', hrun, hwire⟩ := run_receiveBody hd s.channel
      (show min sz s.channel.wire.length < fuel by omega)
    rw [decide_eq_true hsz] at hrun
    have hlen : (s.channel.wire.take sz).length = sz := List.length_take_of_le hsz
    refine ⟨⟨s.position + sz, c'⟩, ?_, rfl, hwire⟩
    rw [SocketReadStream.call, SocketReadStream.read, hrun]
    simp [hlen, SocketReadStream.tellg, ReadCall.slice]
  | readView len =>
    simp only [ReadCall.size] at hsz hfuel ⊢
    obtain ⟨c', hrun, hwire⟩ := run_receiveBody hd s.channel
      (show min len s.channel.wire.length < fuel by omega)
    rw [decide_eq_true hsz] at hrun
    refine ⟨⟨s.position + len, c'⟩, ?_, rfl, hwire⟩
    rw [SocketReadStream.call, SocketReadStream.readView, hrun]
    simp [SocketReadStream.tellg, ReadCall.slice]
  | ignore sz =>
    simp only [ReadCall.size] at hsz hfuel ⊢
    obtain ⟨t, hrun, hpos, hwire⟩ := ignore_spec hd s
      (show min sz s.channel.wire.length < fuel by omega)
    rw [decide_eq_true hsz] at hrun
    rw [Nat.min_eq_left hsz] at hpos
    refine ⟨t, ?_, hpos, hwire⟩
    rw [SocketReadStream.call, hrun]
    simp [SocketReadStream.tellg, ReadCall.slice, hpos]

def asked (calls : List ReadCall) (i : ℕ) : ℕ := ((calls.take i).map ReadCall.size).sum

theorem calls_spec (hd : delivers.Legal) (s : SocketReadStream) (calls : List ReadCall)
    {fuel : ℕ} (hsz : (calls.map ReadCall.size).sum ≤ s.channel.wire.length)
    (hfuel : s.channel.wire.length < fuel) :
    ∃ (results : List ReadResult) (t : SocketReadStream),
      s.calls delivers fuel calls = some (results, t) ∧ results.length = calls.length ∧
      ∀ (i : ℕ) (call : ReadCall), calls[i]? = some call →
        results[i]? = some ⟨true, call.slice (s.channel.wire.drop (asked calls i)),
          s.position + asked calls (i + 1)⟩ := by
  induction calls generalizing s with
  | nil => exact ⟨[], s, rfl, rfl, fun i call h => by simp at h⟩
  | cons first rest ih =>
    rw [List.map_cons, List.sum_cons] at hsz
    obtain ⟨t, hcall, hpos, hwire⟩ := call_spec hd s first
      (show first.size ≤ s.channel.wire.length by omega) (show first.size < fuel by omega)
    have hleft : t.channel.wire.length = s.channel.wire.length - first.size := by
      rw [hwire, List.length_drop]
    obtain ⟨results, u, hrest, hlen, hres⟩ := ih t (by omega) (by omega)
    refine ⟨⟨true, first.slice s.channel.wire, s.position + first.size⟩ :: results, u, ?_,
      by rw [List.length_cons, hlen, List.length_cons], ?_⟩
    · rw [SocketReadStream.calls, hcall, Option.bind_some]
      simp only [hrest]
      rfl
    · intro i call hi
      cases i with
      | zero =>
        obtain rfl := Option.some.inj hi
        simp [asked]
      | succ i =>
        have hasked (j : ℕ) : asked (first :: rest) (j + 1) = first.size + asked rest j := by
          simp [asked]
        rw [List.getElem?_cons_succ, hres i call hi, hwire, hpos, List.drop_drop, hasked, hasked,
          Nat.add_assoc]

/-! ### The connection -/

/-- Whatever the two kernels split the transfers into: all writes and all reads succeed,
each read returns its slice of the written bytes, and `tellg` counts the bytes asked for. -/
theorem reads_return_written (accepts delivers : Answers) (ha : accepts.Legal)
    (hd : delivers.Legal) (buffers : List (List UInt8)) (calls : List ReadCall)
    (hsz : (calls.map ReadCall.size).sum ≤ buffers.flatten.length) (fuel : ℕ)
    (hfuel : buffers.flatten.length < fuel) :
    ∃ (c : Channel) (results : List ReadResult) (s : SocketReadStream),
      writeAll accepts fuel ⟨[], 0, 0⟩ buffers = some (buffers.map fun _ => true, c) ∧
      SocketReadStream.calls delivers fuel ⟨0, c⟩ calls = some (results, s) ∧
      results.length = calls.length ∧
      ∀ (i : ℕ) (call : ReadCall), calls[i]? = some call →
        results[i]? = some ⟨true, call.slice (buffers.flatten.drop (asked calls i)),
          asked calls (i + 1)⟩ := by
  obtain ⟨c, hwrite, hwire⟩ := writeAll_spec ha ⟨[], 0, 0⟩ buffers hfuel
  rw [List.nil_append] at hwire
  obtain ⟨results, s, hcalls, hlen, hres⟩ := calls_spec hd ⟨0, c⟩ calls
    (show _ ≤ c.wire.length by rw [hwire]; exact hsz) (show c.wire.length < fuel by
      rw [hwire]; exact hfuel)
  refine ⟨c, results, s, hwrite, hcalls, hlen, fun i call hi => ?_⟩
  have h := hres i call hi
  rw [hwire, Nat.zero_add] at h
  exact h

def pairwise : Answers := fun _ len => min 2 len

theorem pairwise_legal : pairwise.Legal := fun _ len h => ⟨by unfold pairwise; omega, by
  unfold pairwise; omega⟩

theorem reads_return_written_pairwise :
    ∃ (c : Channel) (results : List ReadResult) (s : SocketReadStream),
      writeAll pairwise 6 ⟨[], 0, 0⟩ [[1, 2, 3], [], [4, 5]] = some ([true, true, true], c) ∧
      SocketReadStream.calls pairwise 6 ⟨0, c⟩ [.ignore 2, .read 0, .read 3] =
        some (results, s) ∧ results[2]? = some ⟨true, [3, 4, 5], 5⟩ := by
  obtain ⟨c, results, s, hwrite, hcalls, _, hres⟩ := reads_return_written pairwise pairwise
    pairwise_legal pairwise_legal [[1, 2, 3], [], [4, 5]] [.ignore 2, .read 0, .read 3]
    (by decide) 6 (by decide)
  exact ⟨c, results, s, hwrite, hcalls, hres 2 (.read 3) rfl⟩

end MVVM.Streams
