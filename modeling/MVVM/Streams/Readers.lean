import MVVM.Streams.Socket

/-!
# The readers of a snapshot (wamr_read_write.h:41-56, 91-160, 610-630)

A session is a sequence of calls up to the first that fails. `tellg` changes nothing, and
what it gives after a call stands in the result of the call.
-/

namespace MVVM.Streams

/-! ### A file -/

/-- A regular file, on a file system whose offsets end at `maxOffset`. -/
structure File where
  bytes : List UInt8
  maxOffset : ℕ
  fits : bytes.length ≤ maxOffset
  isLong : maxOffset < 2 ^ 63

structure FreadStream where
  file : File
  position : ℕ

/-- `fread(data, sz, 1, file)`: the number of items, and the bytes at `data`. -/
def FreadStream.fread (s : FreadStream) (sz : ℕ) : ℕ × List UInt8 × FreadStream :=
  let data := (s.file.bytes.drop s.position).take sz
  (if sz ≠ 0 ∧ data.length = sz then 1 else 0, data,
    { s with position := s.position + data.length })

def toLong (sz : ℕ) : ℤ := if sz < 2 ^ 63 then sz else sz - 2 ^ 64

/-- `fseek(file, offset, SEEK_CUR)` -/
def FreadStream.fseek (s : FreadStream) (offset : ℤ) : ℤ × FreadStream :=
  if 0 ≤ s.position + offset ∧ s.position + offset ≤ s.file.maxOffset then
    (0, { s with position := (s.position + offset).toNat })
  else (-1, s)

def FreadStream.read (s : FreadStream) (sz : ℕ) : (Bool × List UInt8) × FreadStream :=
  match s.fread sz with
  | (items, data, s) => ((items == 1, data), s)

def FreadStream.readView (s : FreadStream) (len : ℕ) : Option (List UInt8) × FreadStream :=
  match s.fread len with
  | (items, buffer, s) => if items ≠ 1 then (none, s) else (some buffer, s)

def FreadStream.ignore (s : FreadStream) (sz : ℕ) : Bool × FreadStream :=
  match s.fseek (toLong sz) with
  | (status, s) => (status == 0, s)

def FreadStream.tellg (s : FreadStream) : ℕ := s.position

def FreadStream.call (s : FreadStream) : ReadCall → Option (ReadResult × FreadStream)
  | .read sz =>
    match s.read sz with
    | (r, t) => some (⟨r.1, r.2, t.tellg⟩, t)
  | .readView len =>
    match s.readView len with
    | (r, t) => some (⟨r.isSome, r.getD [], t.tellg⟩, t)
  | .ignore sz =>
    match s.ignore sz with
    | (r, t) => some (⟨r, [], t.tellg⟩, t)

/-! ### A buffer -/

/-- What the constructor of `RDMAReadStream` leaves behind. The `long` numbers are taken
modulo `2 ^ 64`, as the comparison and `tellg` do. -/
structure RDMAReadStream where
  buffer : List UInt8
  bufferSize : ℕ
  position : ℕ
  deriving DecidableEq, Repr

def RDMAReadStream.past (s : RDMAReadStream) (sz : ℕ) : ℕ := (s.position + sz) % 2 ^ 64

/-- `RDMAReadStream::read_view`, which throws and returns nothing, or returns a pointer into
the buffer; `none` when there is more behind the pointer than the buffer has. -/
def RDMAReadStream.readView (s : RDMAReadStream) (len : ℕ) :
    Option (Option (List UInt8) × RDMAReadStream) :=
  if s.past len > s.bufferSize then some (none, s)
  else if s.position + len ≤ s.buffer.length then
    some (some ((s.buffer.drop s.position).take len), { s with position := s.past len })
  else none

/-- `RDMAReadStream::read`, which does the same and copies the bytes. -/
def RDMAReadStream.read (s : RDMAReadStream) (sz : ℕ) :
    Option ((Bool × List UInt8) × RDMAReadStream) :=
  (s.readView sz).map fun (data, t) => ((data.isSome, data.getD []), t)

def RDMAReadStream.ignore (s : RDMAReadStream) (sz : ℕ) : Bool × RDMAReadStream :=
  (true, { s with position := s.past sz })

def RDMAReadStream.tellg (s : RDMAReadStream) : ℕ := s.position

def RDMAReadStream.call (s : RDMAReadStream) : ReadCall → Option (ReadResult × RDMAReadStream)
  | .read sz => (s.read sz).map fun (r, t) => (⟨r.1, r.2, t.tellg⟩, t)
  | .readView len => (s.readView len).map fun (r, t) => (⟨r.isSome, r.getD [], t.tellg⟩, t)
  | .ignore sz =>
    match s.ignore sz with
    | (r, t) => some (⟨r, [], t.tellg⟩, t)

/-! ### Sessions -/

/-- The results of calls up to the first that fails. -/
def session {σ : Type} (call : σ → ReadCall → Option (ReadResult × σ)) :
    σ → List ReadCall → Option (List ReadResult)
  | _, [] => some []
  | s, c :: rest =>
    (call s c).bind fun p =>
      if p.1.ok then (session call p.2 rest).map fun rs => p.1 :: rs else some [p.1]

/-- What counts of a result: of a call that fails, only that it does. -/
def ReadResult.seen (r : ReadResult) : Option (List UInt8 × ℕ) :=
  if r.ok then some (r.bytes, r.tellg) else none

/-- Three sessions agree, and no position is behind the first `n` bytes. -/
def Agree (n : ℕ) (x y z : Option (List ReadResult)) : Prop :=
  ∃ xs ys zs, x = some xs ∧ y = some ys ∧ z = some zs ∧
    xs.map ReadResult.seen = ys.map ReadResult.seen ∧
    ys.map ReadResult.seen = zs.map ReadResult.seen ∧ ∀ r ∈ xs ++ ys ++ zs, r.tellg ≤ n

def ReadersAgree (file : File) (delivers : Answers) (fuel : ℕ) (calls : List ReadCall) : Prop :=
  Agree file.bytes.length (session FreadStream.call ⟨file, 0⟩ calls)
    (session (SocketReadStream.call delivers fuel) ⟨0, ⟨file.bytes, 0, 0⟩⟩ calls)
    (session RDMAReadStream.call ⟨file.bytes, file.bytes.length, 0⟩ calls)

def ReadCall.isIgnore : ReadCall → Bool
  | .ignore _ => true
  | .read _ | .readView _ => false

/-- Up to the first call that asks for more than is left of `n` bytes: none reads no bytes,
and that call is no `ignore`, and reads so few that the end of what it asks for is a
`size_t`. -/
def Regular (n : ℕ) : ℕ → List ReadCall → Prop
  | _, [] => True
  | pos, c :: rest =>
    if pos + c.size ≤ n then (c.isIgnore = false → c.size ≠ 0) ∧ Regular n (pos + c.size) rest
    else c.isIgnore = false ∧ pos + c.size < 2 ^ 64

variable {delivers : Answers}

/-! ### The file -/

theorem fread_of_le (s : FreadStream) {sz : ℕ} (hsz : sz ≠ 0)
    (hle : s.position + sz ≤ s.file.bytes.length) :
    s.fread sz = (1, (s.file.bytes.drop s.position).take sz, ⟨s.file, s.position + sz⟩) := by
  have hlen : ((s.file.bytes.drop s.position).take sz).length = sz := by
    rw [List.length_take, List.length_drop]
    omega
  simp only [FreadStream.fread, hlen, ne_eq, hsz, not_false_eq_true, and_self, if_true]

theorem fread_of_lt (s : FreadStream) {sz : ℕ} (hpos : s.position ≤ s.file.bytes.length)
    (hlt : s.file.bytes.length < s.position + sz) :
    (s.fread sz).1 = 0 ∧ (s.fread sz).2.2.position = s.file.bytes.length := by
  have hlen : ((s.file.bytes.drop s.position).take sz).length =
      s.file.bytes.length - s.position := by
    rw [List.length_take, List.length_drop]
    omega
  simp only [FreadStream.fread, hlen]
  constructor
  · rw [if_neg (by omega)]
  · omega

theorem FreadStream.call_of_le (s : FreadStream) {c : ReadCall}
    (hsz : c.isIgnore = false → c.size ≠ 0)
    (hle : s.position + c.size ≤ s.file.bytes.length) :
    s.call c = some (⟨true, c.slice (s.file.bytes.drop s.position), s.position + c.size⟩,
      ⟨s.file, s.position + c.size⟩) := by
  cases c with
  | read sz =>
    have hread := fread_of_le s (hsz rfl) hle
    rw [ReadCall.size] at hread
    rw [FreadStream.call, FreadStream.read, hread]
    rfl
  | readView len =>
    have hread := fread_of_le s (hsz rfl) hle
    rw [ReadCall.size] at hread
    rw [FreadStream.call, FreadStream.readView, hread]
    rfl
  | ignore sz =>
    rw [ReadCall.size] at hle ⊢
    have hfits := s.file.fits
    have hlong : toLong sz = sz := if_pos (by have := s.file.isLong; omega)
    have hseek : s.fseek sz = (0, ⟨s.file, s.position + sz⟩) := by
      rw [FreadStream.fseek, if_pos (by omega)]
      rfl
    rw [FreadStream.call, FreadStream.ignore, hlong, hseek]
    rfl

/-- A read that gets no item fails, whatever it has put at `data`. -/
theorem FreadStream.call_no_item (s : FreadStream) {c : ReadCall} (hc : c.isIgnore = false)
    (hitems : (s.fread c.size).1 = 0) :
    ∃ data, s.call c = some (⟨false, data, (s.fread c.size).2.2.position⟩,
      (s.fread c.size).2.2) := by
  cases c with
  | read sz =>
    rw [ReadCall.size] at hitems ⊢
    refine ⟨(s.fread sz).2.1, ?_⟩
    simp [FreadStream.call, FreadStream.read, FreadStream.tellg, hitems]
  | readView len =>
    rw [ReadCall.size] at hitems ⊢
    refine ⟨[], ?_⟩
    simp [FreadStream.call, FreadStream.readView, FreadStream.tellg, hitems]
  | ignore sz => cases hc

/-! ### The connection -/

theorem SocketReadStream.call_of_lt (hd : delivers.Legal) (s : SocketReadStream) {c : ReadCall}
    {fuel : ℕ} (hlt : s.channel.wire.length < c.size) (hfuel : s.channel.wire.length < fuel) :
    ∃ r t, s.call delivers fuel c = some (r, t) ∧ r.ok = false ∧
      r.tellg ≤ s.position + s.channel.wire.length := by
  have hmin : min c.size s.channel.wire.length < fuel := by omega
  have hshort : decide (c.size ≤ s.channel.wire.length) = false := decide_eq_false (by omega)
  cases c with
  | read sz =>
    rw [ReadCall.size] at hmin hshort
    obtain ⟨c', hrun, -⟩ := run_receiveBody hd s.channel hmin
    rw [hshort] at hrun
    refine ⟨⟨false, s.channel.wire.take sz, s.position⟩, ⟨s.position, c'⟩, ?_, rfl,
      Nat.le_add_right _ _⟩
    rw [SocketReadStream.call, SocketReadStream.read, hrun]
    rfl
  | readView len =>
    rw [ReadCall.size] at hmin hshort
    obtain ⟨c', hrun, -⟩ := run_receiveBody hd s.channel hmin
    rw [hshort] at hrun
    refine ⟨⟨false, [], s.position⟩, ⟨s.position, c'⟩, ?_, rfl, Nat.le_add_right _ _⟩
    rw [SocketReadStream.call, SocketReadStream.readView, hrun]
    rfl
  | ignore sz =>
    rw [ReadCall.size] at hmin hshort
    obtain ⟨t, hrun, hpos, -⟩ := ignore_spec hd s hmin
    rw [hshort] at hrun
    refine ⟨⟨false, [], t.position⟩, t, ?_, rfl, ?_⟩
    · rw [SocketReadStream.call, hrun]
      rfl
    · simp only
      omega

/-! ### The buffer -/

variable {data : List UInt8} {pos : ℕ} {c : ReadCall}

theorem past_eq {n sz : ℕ} (h : pos + sz < 2 ^ 64) :
    (⟨data, n, pos⟩ : RDMAReadStream).past sz = pos + sz := Nat.mod_eq_of_lt h

theorem rdma_call_read (s : RDMAReadStream) (hc : c.isIgnore = false) :
    s.call c = (s.readView c.size).map fun (bytes, t) =>
      (⟨bytes.isSome, bytes.getD [], t.tellg⟩, t) := by
  cases c with
  | read sz =>
    rw [RDMAReadStream.call, RDMAReadStream.read, Option.map_map]
    rfl
  | readView len => rfl
  | ignore sz => cases hc

theorem rdma_call_of_le (hlong : data.length < 2 ^ 63) (hle : pos + c.size ≤ data.length) :
    RDMAReadStream.call ⟨data, data.length, pos⟩ c =
      some (⟨true, c.slice (data.drop pos), pos + c.size⟩,
        ⟨data, data.length, pos + c.size⟩) := by
  have hpast : (⟨data, data.length, pos⟩ : RDMAReadStream).past c.size = pos + c.size :=
    past_eq (by omega)
  have hview : RDMAReadStream.readView ⟨data, data.length, pos⟩ c.size =
      some (some ((data.drop pos).take c.size), ⟨data, data.length, pos + c.size⟩) := by
    rw [RDMAReadStream.readView, hpast, if_neg (Nat.not_lt.mpr hle), if_pos hle]
  cases c with
  | read sz | readView len =>
    rw [rdma_call_read _ rfl, hview]
    rfl
  | ignore sz =>
    rw [ReadCall.size] at hpast
    rw [RDMAReadStream.call, RDMAReadStream.ignore, hpast]
    rfl

theorem rdma_ignore (s : RDMAReadStream) (hc : c.isIgnore = true) :
    ∃ r t, s.call c = some (r, t) ∧ r.ok = true := by
  cases c with
  | read sz | readView len => cases hc
  | ignore sz => exact ⟨_, _, rfl, rfl⟩

theorem rdma_throws (hc : c.isIgnore = false) (hlt : data.length < pos + c.size)
    (hsize : pos + c.size < 2 ^ 64) :
    RDMAReadStream.call ⟨data, data.length, pos⟩ c =
      some (⟨false, [], pos⟩, ⟨data, data.length, pos⟩) := by
  rw [rdma_call_read _ hc, RDMAReadStream.readView, past_eq hsize, if_pos hlt]
  rfl

theorem rdma_overflows (hc : c.isIgnore = false) (hpos : pos ≤ data.length)
    (hlong : data.length < 2 ^ 63) (hsz : c.size < 2 ^ 64) (hsize : 2 ^ 64 ≤ pos + c.size) :
    RDMAReadStream.call ⟨data, data.length, pos⟩ c = none := by
  have hpast : (⟨data, data.length, pos⟩ : RDMAReadStream).past c.size ≤ data.length := by
    simp only [RDMAReadStream.past]
    omega
  have hend : ¬pos + c.size ≤ data.length := by omega
  rw [rdma_call_read _ hc, RDMAReadStream.readView, if_neg (Nat.not_lt.mpr hpast), if_neg hend]
  rfl

/-! ### One call of a session -/

section

variable {σ τ υ : Type} {call : σ → ReadCall → Option (ReadResult × σ)} {s t : σ}
  {r : ReadResult} {rest : List ReadCall}

theorem session_next (h : call s c = some (r, t)) (hr : r.ok = true) :
    session call s (c :: rest) = (session call t rest).map fun rs => r :: rs := by
  rw [session, h, Option.bind_some, if_pos hr]

theorem session_stop (h : call s c = some (r, t)) (hr : r.ok = false) :
    session call s (c :: rest) = some [r] := by
  rw [session, h, Option.bind_some, if_neg (by simp [hr])]

theorem session_none (h : call s c = none) : session call s (c :: rest) = none := by
  rw [session, h]
  rfl

theorem session_head {rs : List ReadResult} (hs : session call s (c :: rest) = some rs)
    (h : call s c = some (r, t)) : ∃ rs', rs = r :: rs' := by
  cases hr : r.ok with
  | true =>
    rw [session_next h hr] at hs
    obtain ⟨rs', -, rfl⟩ := Option.map_eq_some_iff.mp hs
    exact ⟨rs', rfl⟩
  | false =>
    rw [session_stop h hr] at hs
    exact ⟨[], (Option.some.inj hs).symm⟩

theorem seen_ne {r q : ReadResult} (hr : r.ok = false) (hq : q.ok = true) : r.seen ≠ q.seen := by
  simp [ReadResult.seen, hr, hq]

end

section

variable {n : ℕ} {x y z : Option (List ReadResult)}

theorem agree_next {r : ReadResult} (hr : r.tellg ≤ n) :
    Agree n (x.map fun rs => r :: rs) (y.map fun rs => r :: rs) (z.map fun rs => r :: rs) ↔
      Agree n x y z := by
  constructor
  · intro ⟨xs, ys, zs, hx, hy, hz, hxy, hyz, hn⟩
    obtain ⟨xs', rfl, rfl⟩ := Option.map_eq_some_iff.mp hx
    obtain ⟨ys', rfl, rfl⟩ := Option.map_eq_some_iff.mp hy
    obtain ⟨zs', rfl, rfl⟩ := Option.map_eq_some_iff.mp hz
    refine ⟨xs', ys', zs', rfl, rfl, rfl, (List.cons.inj hxy).2, (List.cons.inj hyz).2, ?_⟩
    intro q hq
    refine hn q ?_
    simp only [List.mem_append, List.mem_cons] at hq ⊢
    tauto
  · intro ⟨xs, ys, zs, hx, hy, hz, hxy, hyz, hn⟩
    subst hx hy hz
    refine ⟨r :: xs, r :: ys, r :: zs, rfl, rfl, rfl, by simp [hxy], by simp [hyz], ?_⟩
    intro q hq
    by_cases hqr : q = r
    · rw [hqr]
      exact hr
    · refine hn q ?_
      simp only [List.mem_append, List.mem_cons, hqr, false_or] at hq ⊢
      exact hq

theorem agree_stop {r p q : ReadResult} (hr : r.ok = false) (hp : p.ok = false)
    (hq : q.ok = false) (hrn : r.tellg ≤ n) (hpn : p.tellg ≤ n) (hqn : q.tellg ≤ n) :
    Agree n (some [r]) (some [p]) (some [q]) := by
  refine ⟨[r], [p], [q], rfl, rfl, rfl, ?_, ?_, ?_⟩
  · simp [ReadResult.seen, hr, hp]
  · simp [ReadResult.seen, hp, hq]
  · simp [hrn, hpn, hqn]

end

/-! ### The three readers -/

theorem agree_iff_regular (file : File) (hd : delivers.Legal) {fuel : ℕ}
    (hfuel : file.bytes.length < fuel) (calls : List ReadCall) :
    ∀ (pos : ℕ) (socket : SocketReadStream), (∀ c ∈ calls, c.size < 2 ^ 64) →
      pos ≤ file.bytes.length → socket.position = pos →
      socket.channel.wire = file.bytes.drop pos →
      (Agree file.bytes.length (session FreadStream.call ⟨file, pos⟩ calls)
          (session (SocketReadStream.call delivers fuel) socket calls)
          (session RDMAReadStream.call ⟨file.bytes, file.bytes.length, pos⟩ calls) ↔
        Regular file.bytes.length pos calls) := by
  have hlong : file.bytes.length < 2 ^ 63 := Nat.lt_of_le_of_lt file.fits file.isLong
  induction calls with
  | nil =>
    intro pos socket _ _ _ _
    exact ⟨fun _ => trivial, fun _ => ⟨[], [], [], rfl, rfl, rfl, rfl, rfl, by simp⟩⟩
  | cons c rest ih =>
    intro pos socket hsizes hpos hposition hwire
    obtain ⟨hsz, hrest⟩ := List.forall_mem_cons.mp hsizes
    have hleft : socket.channel.wire.length = file.bytes.length - pos := by
      rw [hwire, List.length_drop]
    rw [Regular]
    by_cases hle : pos + c.size ≤ file.bytes.length
    · rw [if_pos hle]
      obtain ⟨t, hsocket, htpos, htwire⟩ := call_spec hd socket c
        (by omega) (show c.size < fuel by omega)
      by_cases hread : c.isIgnore = false → c.size ≠ 0
      · have hfile := FreadStream.call_of_le ⟨file, pos⟩ hread hle
        have hrdma := rdma_call_of_le hlong hle
        rw [hposition, hwire] at hsocket
        rw [session_next hfile rfl, session_next hsocket rfl, session_next hrdma rfl,
          agree_next hle, ih _ t hrest hle (by rw [htpos, hposition])
            (by rw [htwire, hwire, List.drop_drop])]
        exact ⟨fun h => ⟨hread, h⟩, fun h => h.2⟩
      · -- the file gives no item of no bytes
        refine ⟨fun hagree => ?_, fun h => absurd h.1 hread⟩
        obtain ⟨hc, hzero⟩ : c.isIgnore = false ∧ c.size = 0 := by
          simpa using hread
        obtain ⟨data, hfile⟩ := FreadStream.call_no_item ⟨file, pos⟩ hc
          (by simp [FreadStream.fread, hzero])
        obtain ⟨xs, ys, zs, hx, hy, -, hxy, -, -⟩ := hagree
        obtain ⟨xs', rfl⟩ := session_head hx hfile
        obtain ⟨ys', rfl⟩ := session_head hy hsocket
        exact absurd (List.cons.inj hxy).1 (seen_ne rfl rfl)
    · rw [if_neg hle]
      have hlt : file.bytes.length < pos + c.size := Nat.lt_of_not_le hle
      obtain ⟨r, t, hsocket, hr, hrn⟩ := SocketReadStream.call_of_lt hd socket
        (show socket.channel.wire.length < c.size by omega)
        (show socket.channel.wire.length < fuel by omega)
      by_cases hc : c.isIgnore = false
      · by_cases hsize : pos + c.size < 2 ^ 64
        · obtain ⟨hitems, hend⟩ := fread_of_lt ⟨file, pos⟩ hpos hlt
          obtain ⟨data, hfile⟩ := FreadStream.call_no_item ⟨file, pos⟩ hc hitems
          have hrdma := rdma_throws hc hlt hsize
          rw [session_stop hfile rfl, session_stop hsocket hr, session_stop hrdma rfl]
          exact iff_of_true (agree_stop rfl hr rfl hend.le (by omega) hpos) ⟨hc, hsize⟩
        · have hrdma := rdma_overflows hc hpos hlong hsz (Nat.le_of_not_lt hsize)
          refine ⟨fun hagree => ?_, fun h => absurd h.2 hsize⟩
          obtain ⟨xs, ys, zs, -, -, hz, -, -, -⟩ := hagree
          rw [session_none hrdma] at hz
          cases hz
      · refine ⟨fun hagree => ?_, fun h => absurd h.1 hc⟩
        obtain ⟨q, u, hrdma, hq⟩ := rdma_ignore ⟨file.bytes, file.bytes.length, pos⟩
          (Bool.eq_true_of_not_eq_false hc)
        obtain ⟨xs, ys, zs, -, hy, hz, -, hyz, -⟩ := hagree
        obtain ⟨ys', rfl⟩ := session_head hy hsocket
        obtain ⟨zs', rfl⟩ := session_head hz hrdma
        exact absurd (List.cons.inj hyz).1 (seen_ne hr hq)

theorem readers_agree_iff (file : File) (hd : delivers.Legal) {calls : List ReadCall}
    (hsizes : ∀ c ∈ calls, c.size < 2 ^ 64) {fuel : ℕ} (hfuel : file.bytes.length < fuel) :
    ReadersAgree file delivers fuel calls ↔ Regular file.bytes.length 0 calls :=
  agree_iff_regular file hd hfuel calls 0 ⟨0, ⟨file.bytes, 0, 0⟩⟩ hsizes (Nat.zero_le _) rfl rfl

def threeBytes : File := ⟨[1, 2, 3], 2 ^ 40, by decide, by decide⟩

theorem readers_agree_iff_short :
    ReadersAgree threeBytes pairwise 4 [.ignore 0, .read 2, .readView 5] := by
  have hsizes : ∀ c ∈ [ReadCall.ignore 0, .read 2, .readView 5], c.size < 2 ^ 64 := by
    simp [ReadCall.size]
  refine (readers_agree_iff threeBytes pairwise_legal hsizes (by decide)).mpr ?_
  simp [Regular, threeBytes, ReadCall.size, ReadCall.isIgnore]

/-- The file has no item of no bytes; the connection and the buffer give one. -/
theorem empty_read_differs :
    ¬∀ (file : File) (delivers : Answers) (calls : List ReadCall) (fuel : ℕ), delivers.Legal →
      (∀ c ∈ calls, c.size < 2 ^ 64) → file.bytes.length < fuel →
      ReadersAgree file delivers fuel calls := by
  intro hclaim
  obtain ⟨xs, ys, zs, hx, hy, -, hxy, -, -⟩ := hclaim threeBytes pairwise [.read 0] 4 pairwise_legal
    (by simp [ReadCall.size]) (by decide)
  have hfile : session FreadStream.call ⟨threeBytes, 0⟩ [.read 0] = some [⟨false, [], 0⟩] := rfl
  have hsocket : session (SocketReadStream.call pairwise 4) ⟨0, ⟨threeBytes.bytes, 0, 0⟩⟩
      [.read 0] = some [⟨true, [], 0⟩] := rfl
  obtain rfl := Option.some.inj (hfile.symm.trans hx)
  obtain rfl := Option.some.inj (hsocket.symm.trans hy)
  exact absurd hxy (by decide)

end MVVM.Streams
