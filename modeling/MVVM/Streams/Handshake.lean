import MVVM.Run
import MVVM.Streams.Rdma
import Mathlib.Data.List.Forall2
import Mathlib.Data.List.GetD

/-!
# The connections of a snapshot over RDMA (wamr_read_write.h:371-620, 632-970)

Each chunk is a conversation of its own between two processes: a connection is made, the
writer tells its length, the reader allocates a buffer and tells its address, the network
card puts the bytes there, the connection is closed. The two processes and the card take
their steps in any order; a call that waits for an event is possible when the event is
there. The calls of the verbs themselves succeed. The build is a Release build: in a Debug build
both processes also read what they log.
-/

namespace MVVM.Streams

/-- What the writer does next: connect to the server, receive that event, tell the server
its metadata, await the server's, post one of its two writes, await the completion of the
write, disconnect. A connection that is refused is an error. -/
inductive WriterPc where
  | connect
  | established
  | metadata
  | attr
  | write (again : Bool)
  | wait (again : Bool)
  | disconnect
  | done
  | failed
  deriving DecidableEq, Repr

/-- What the reader does next: listen, await a request, accept it, await the client's
metadata and allocate a buffer, tell the client its own metadata, copy the buffer, await
the end of the connection and clean up. -/
inductive ReaderPc where
  | listen
  | request
  | accept
  | metadata
  | attr
  | copy
  | disconnected
  | done
  deriving DecidableEq, Repr

/-- `server_buffer_mr`. -/
structure Region where
  address : ℕ
  bytes : List UInt8
  deriving DecidableEq, Repr

/-- A posted write: where it goes, and the offsets that have not got there. -/
structure RdmaWrite where
  remoteAddr : ℕ
  todo : List ℕ
  deriving DecidableEq, Repr

/-- A connection with the metadata that has gone over it: the length in
`client_metadata_attr` and the address in `server_metadata_attr`. Nothing reads the other
members. -/
structure Connection where
  accepted : Bool := false
  closed : Bool := false
  clientAttr : Option ℕ := none
  serverAttr : Option ℕ := none
  deriving DecidableEq, Repr

/-- The two processes and what is between them; `src` is `client_src_mr`. An access of the
card to memory that is not registered sets `fault`. -/
structure Session where
  writer : WriterPc
  toSend : ℤ
  src : List UInt8
  reader : ReaderPc
  received : ℕ
  buffer : List UInt8
  region : Option Region
  conn : Option Connection
  write : Option RdmaWrite
  fault : Bool
  deriving DecidableEq, Repr

/-- A process takes its next step, the reader one at which `calloc` returns an address, or
the card puts the byte with some offset. -/
inductive Move where
  | writer
  | reader
  | alloc (address : ℕ)
  | land (offset : ℕ)
  deriving DecidableEq, Repr

section

-- the size of a chunk, and the buffer of the writer
variable (chunk : ℕ) (data : List UInt8)

/-- The chunk that the writer has got to. -/
def currentChunk (toSend : ℤ) : List UInt8 :=
  (data.drop (data.length - toSend).toNat).take (min toSend chunk).toNat

/-- `client_connect_to_server` to `client_disconnect_and_clean`, and the loop around them, without
the debug log of `~RDMAWriteStream`, which a Release build leaves out. -/
def writerMove (s : Session) : Option Session :=
  match s.writer, s.conn with
  | .connect, conn =>
    if s.reader = .request ∧ conn = none then
      some { s with writer := .established, conn := some {} }
    else some { s with writer := .failed }
  | .established, some c => if c.accepted then some { s with writer := .metadata } else none
  | .metadata, some c =>
    let src := currentChunk chunk data s.toSend
    some { s with
      writer := .attr, src := src,
      conn := some { c with clientAttr := some (src.length % 2 ^ 32) } }
  | .attr, some c => if c.serverAttr.isSome then some { s with writer := .write false } else none
  | .write again, some c =>
    c.serverAttr.map fun address =>
      { s with writer := .wait again, write := some ⟨address, List.range s.src.length⟩ }
  | .wait again, some _ =>
    match s.write with
    | some w =>
      if w.todo = [] then
        some { s with writer := if again then .disconnect else .write true, write := none }
      else none
    | none => none
  | .disconnect, some c =>
    some { s with
      writer := if s.toSend - chunk > 0 then .connect else .done
      toSend := s.toSend - chunk
      conn := some { c with closed := true } }
  | _, _ => none

/-- `start_rdma_server` to `send_server_metadata_to_client`, without its debug log, the copy of the
constructor, `disconnect_and_cleanup`, and the loop around them. -/
def readerMove (s : Session) : Option Session :=
  match s.reader, s.conn with
  | .listen, _ => some { s with reader := .request }
  | .request, some _ => some { s with reader := .accept }
  | .accept, some c =>
    some { s with reader := .metadata, conn := some { c with accepted := true } }
  | .attr, some c =>
    s.region.map fun r =>
      { s with reader := .copy, conn := some { c with serverAttr := some r.address } }
  | .copy, some c =>
    match c.clientAttr, s.region with
    | some length, some r =>
      some { s with
        reader := .disconnected
        received := s.received + length
        buffer := s.buffer ++ r.bytes.take length }
    | _, _ => none
  | .disconnected, some c =>
    if c.closed then
      some { s with
        reader := if s.received % chunk = 0 then .listen else .done, region := none, conn := none }
    else none
  | _, _ => none

/-- `rdma_buffer_alloc`, once the client's metadata is there. -/
def allocMove (address : ℕ) (s : Session) : Option Session :=
  match s.reader, s.conn.bind Connection.clientAttr with
  | .metadata, some length =>
    some { s with reader := .attr, region := some ⟨address, List.replicate length 0⟩ }
  | _, _ => none

/-- The card takes the next byte of the writer's memory to the place it has been told. -/
def landMove (offset : ℕ) (s : Session) : Option Session :=
  match s.write with
  | some w =>
    if offset ∈ w.todo then
      let s := { s with write := some { w with todo := w.todo.erase offset } }
      match s.region with
      | some r =>
        if w.remoteAddr = r.address ∧ offset < r.bytes.length then
          some { s with
            region := some { r with bytes := r.bytes.set offset (s.src.getD offset 0) } }
        else some { s with fault := true }
      | none => some { s with fault := true }
    else none
  | none => none

def sessionStep (s : Session) : Move → Option Session
  | .writer => writerMove chunk data s
  | .reader => readerMove chunk s
  | .alloc address => allocMove address s
  | .land offset => landMove offset s

def startSession : Session where
  writer := .connect
  toSend := data.length
  src := []
  reader := .listen
  received := 0
  buffer := []
  region := none
  conn := none
  write := none
  fault := false

/-! ### The conversation -/

/-- The bytes of the writer have landed but for those in `todo`, where there may be zeros. -/
structure Landed (src bytes : List UInt8) (todo : List ℕ) : Prop where
  length : bytes.length = src.length
  inside : ∀ i ∈ todo, i < src.length
  byte : ∀ i, bytes[i]? = src[i]? ∨ i ∈ todo ∧ bytes[i]? = some 0

/-- Bytes some of which are zeros instead. -/
def Blurred (xs ys : List UInt8) : Prop := List.Forall₂ (fun x y => x = y ∨ x = 0) xs ys

/-- The writer is in the round of the chunk at `start`. -/
structure Opened (start : ℕ) (toSend : ℤ) : Prop where
  toSend : toSend = data.length - start
  inside : start < data.length
  whole : chunk ∣ start

/-- The reader has told its address; it has copied its buffer, or will. -/
def Late (start : ℕ) (s : Session) : Prop :=
  (s.reader = .copy ∧ s.received = start) ∨
    (s.reader = .disconnected ∧ s.received = start + s.src.length)

/-- The writer between two connections. -/
def Between (start : ℕ) (s : Session) : Prop :=
  (s.writer = .connect ∧ 0 < s.toSend ∧ s.toSend = data.length - start) ∨
    (s.writer = .done ∧ data.length ≤ start) ∨ s.writer = .failed

/-- How far a connection has come. -/
inductive Phase : Session → Prop
  | apart {s : Session} (hconn : s.conn = none) (hregion : s.region = none)
      (hwrite : s.write = none) (hwriter : Between data s.received s)
      (hle : s.received ≤ data.length)
      (hreader : (s.reader = .listen ∨ s.reader = .request) ∧ chunk ∣ s.received ∨
        s.reader = .done ∧ s.received = data.length ∧ ¬ chunk ∣ data.length) : Phase s
  | requested {s : Session} (hround : Opened chunk data s.received s.toSend)
      (hconn : s.conn = some {}) (hregion : s.region = none) (hwrite : s.write = none)
      (hwriter : s.writer = .established) (hreader : s.reader = .request ∨ s.reader = .accept) :
      Phase s
  | accepted {s : Session} (hround : Opened chunk data s.received s.toSend)
      (hconn : s.conn = some { accepted := true }) (hregion : s.region = none)
      (hwrite : s.write = none) (hwriter : s.writer = .established ∨ s.writer = .metadata)
      (hreader : s.reader = .metadata) : Phase s
  | told {s : Session} (hround : Opened chunk data s.received s.toSend)
      (hsrc : s.src = (data.drop s.received).take chunk)
      (hconn : s.conn = some { accepted := true, clientAttr := some s.src.length })
      (hwrite : s.write = none) (hwriter : s.writer = .attr)
      (hreader : s.reader = .metadata ∧ s.region = none ∨ s.reader = .attr ∧
        ∃ address, s.region = some ⟨address, List.replicate s.src.length 0⟩) : Phase s
  | ready {s : Session} (start address : ℕ) (hround : Opened chunk data start s.toSend)
      (hsrc : s.src = (data.drop start).take chunk)
      (hconn : s.conn = some
        { accepted := true, clientAttr := some s.src.length, serverAttr := some address })
      (hregion : s.region = some ⟨address, List.replicate s.src.length 0⟩)
      (hwrite : s.write = none) (hwriter : s.writer = .attr ∨ s.writer = .write false)
      (hreader : Late start s) : Phase s
  | landing {s : Session} (start address : ℕ) (again : Bool) (bytes : List UInt8)
      (todo : List ℕ) (hround : Opened chunk data start s.toSend)
      (hsrc : s.src = (data.drop start).take chunk)
      (hconn : s.conn = some
        { accepted := true, clientAttr := some s.src.length, serverAttr := some address })
      (hregion : s.region = some ⟨address, bytes⟩) (hlanded : Landed s.src bytes todo)
      (hwrite : s.write = some ⟨address, todo⟩) (hwriter : s.writer = .wait again)
      (hreader : Late start s) : Phase s
  | landed {s : Session} (start address : ℕ) (hround : Opened chunk data start s.toSend)
      (hsrc : s.src = (data.drop start).take chunk)
      (hconn : s.conn = some
        { accepted := true, clientAttr := some s.src.length, serverAttr := some address })
      (hregion : s.region = some ⟨address, s.src⟩) (hwrite : s.write = none)
      (hwriter : s.writer = .write true ∨ s.writer = .disconnect) (hreader : Late start s) :
      Phase s
  | closed {s : Session} (start address : ℕ) (hinside : start < data.length)
      (hwhole : chunk ∣ start) (hsrc : s.src = (data.drop start).take chunk)
      (hconn : s.conn = some
        { accepted := true, closed := true, clientAttr := some s.src.length,
          serverAttr := some address })
      (hregion : s.region = some ⟨address, s.src⟩) (hwrite : s.write = none)
      (hwriter : Between data (start + chunk) s) (hreader : Late start s) : Phase s

end

/-! ### The buffer of the reader -/

section

variable {src bytes : List UInt8} {todo : List ℕ} {offset : ℕ}

theorem landed_zeros (src : List UInt8) :
    Landed src (List.replicate src.length 0) (List.range src.length) where
  length := List.length_replicate
  inside _ hi := List.mem_range.mp hi
  byte i := by
    by_cases hi : i < src.length
    · exact .inr ⟨List.mem_range.mpr hi, List.getElem?_replicate_of_lt hi⟩
    · have hlen : src.length ≤ i := Nat.le_of_not_lt hi
      refine .inl ?_
      rw [List.getElem?_eq_none hlen, List.getElem?_eq_none (by rwa [List.length_replicate])]

theorem landed_again (src : List UInt8) : Landed src src (List.range src.length) where
  length := rfl
  inside _ hi := List.mem_range.mp hi
  byte _ := .inl rfl

theorem Landed.land (h : Landed src bytes todo) (hmem : offset ∈ todo) :
    Landed src (bytes.set offset (src.getD offset 0)) (todo.erase offset) where
  length := by rw [List.length_set, h.length]
  inside i hi := h.inside i (List.mem_of_mem_erase hi)
  byte i := by
    have hlt : offset < src.length := h.inside offset hmem
    by_cases hi : offset = i
    · subst hi
      refine .inl ?_
      rw [List.getElem?_set_self (by rwa [h.length]), List.getElem?_eq_getElem hlt,
        List.getD_eq_getElem _ _ hlt]
    · rw [List.getElem?_set_ne hi]
      refine (h.byte i).imp_right fun hz => ⟨?_, hz.2⟩
      exact (List.mem_erase_of_ne (Ne.symm hi)).mpr hz.1

theorem Landed.eq_src (h : Landed src bytes []) : bytes = src := by
  refine List.ext_getElem? fun i => ?_
  exact (h.byte i).resolve_right fun hz => List.not_mem_nil hz.1

theorem Landed.blurred (h : Landed src bytes todo) : Blurred bytes src := by
  rw [Blurred, List.forall₂_iff_get]
  refine ⟨h.length, fun i hi hi' => ?_⟩
  have hbyte := h.byte i
  rw [List.getElem?_eq_getElem hi, List.getElem?_eq_getElem hi'] at hbyte
  exact hbyte.imp (fun heq => Option.some.inj heq) fun hz => Option.some.inj hz.2

end

/-! ### One step -/

section

variable {chunk : ℕ} {data : List UInt8} {s t : Session}

theorem phase_start (hne : data ≠ []) : Phase chunk data (startSession data) := by
  have hpos : 0 < data.length := List.length_pos_iff.mpr hne
  refine .apart rfl rfl rfl (.inl ⟨rfl, ?_, ?_⟩) (Nat.zero_le _) (.inl ⟨.inl rfl, dvd_zero chunk⟩)
  · simp [startSession, hpos]
  · simp [startSession]

theorem currentChunk_eq {start : ℕ} (h : Opened chunk data start s.toSend) :
    currentChunk chunk data s.toSend = (data.drop start).take chunk := by
  have hstart : (data.length - s.toSend).toNat = start := by
    rw [h.toSend]
    omega
  have htoSend := h.toSend
  have hinside := h.inside
  rw [currentChunk, hstart, List.take_eq_take_iff, List.length_drop]
  omega

theorem Phase.writerMove (hsmall : chunk < 2 ^ 32) (h : Phase chunk data s)
    (hmove : writerMove chunk data s = some t) : Phase chunk data t := by
  cases h with
  | apart hconn hregion hwrite hwriter hle hreader =>
    rcases hwriter with ⟨hpc, hpos, htoSend⟩ | ⟨hpc, -⟩ | hpc
    · rw [Streams.writerMove, hpc, hconn] at hmove
      simp only [and_true] at hmove
      split at hmove
      · obtain rfl := Option.some.inj hmove
        rename_i hrequest
        rcases hreader with ⟨-, hdvd⟩ | ⟨hdone, -⟩
        · exact .requested ⟨htoSend, by simp only; omega, hdvd⟩ rfl hregion hwrite rfl
            (.inl hrequest)
        · rw [hrequest] at hdone
          cases hdone
      · obtain rfl := Option.some.inj hmove
        exact .apart rfl hregion hwrite (.inr (.inr rfl)) hle hreader
    · simp [Streams.writerMove, hpc, hconn] at hmove
    · simp [Streams.writerMove, hpc, hconn] at hmove
  | requested hround hconn hregion hwrite hwriter hreader =>
    simp [Streams.writerMove, hwriter, hconn] at hmove
  | accepted hround hconn hregion hwrite hwriter hreader =>
    rcases hwriter with hpc | hpc
    · rw [Streams.writerMove, hpc, hconn] at hmove
      obtain rfl := Option.some.inj hmove
      exact .accepted hround rfl hregion hwrite (.inr rfl) hreader
    · rw [Streams.writerMove, hpc, hconn] at hmove
      obtain rfl := Option.some.inj hmove
      have hlen : (currentChunk chunk data s.toSend).length < 2 ^ 32 := by
        rw [currentChunk_eq hround, List.length_take]
        omega
      refine .told hround (currentChunk_eq hround) ?_ hwrite rfl (.inl ⟨hreader, hregion⟩)
      simp only [Nat.mod_eq_of_lt hlen]
  | told hround hsrc hconn hwrite hwriter hreader =>
    simp [Streams.writerMove, hwriter, hconn] at hmove
  | ready start address hround hsrc hconn hregion hwrite hwriter hreader =>
    rcases hwriter with hpc | hpc
    · rw [Streams.writerMove, hpc, hconn] at hmove
      obtain rfl := Option.some.inj hmove
      exact .ready start address hround hsrc rfl hregion hwrite (.inr rfl) hreader
    · rw [Streams.writerMove, hpc, hconn] at hmove
      obtain rfl := Option.some.inj hmove
      exact .landing start address false _ _ hround hsrc rfl hregion (landed_zeros s.src) rfl rfl
        hreader
  | landing start address again bytes todo hround hsrc hconn hregion hlanded hwrite hwriter
      hreader =>
    rw [Streams.writerMove, hwriter, hconn, hwrite] at hmove
    simp only at hmove
    split at hmove
    · rename_i htodo
      obtain rfl := Option.some.inj hmove
      subst htodo
      rw [hlanded.eq_src] at hregion
      refine .landed start address hround hsrc rfl hregion rfl ?_ hreader
      cases again
      · exact .inl rfl
      · exact .inr rfl
    · cases hmove
  | landed start address hround hsrc hconn hregion hwrite hwriter hreader =>
    rcases hwriter with hpc | hpc
    · rw [Streams.writerMove, hpc, hconn] at hmove
      obtain rfl := Option.some.inj hmove
      exact .landing start address true _ _ hround hsrc rfl hregion (landed_again s.src) rfl rfl
        hreader
    · rw [Streams.writerMove, hpc, hconn] at hmove
      obtain rfl := Option.some.inj hmove
      have htoSend := hround.toSend
      refine .closed start address hround.inside hround.whole hsrc rfl hregion hwrite ?_ hreader
      by_cases hpos : s.toSend - chunk > 0
      · exact .inl ⟨if_pos hpos, hpos, by simp only; omega⟩
      · exact .inr (.inl ⟨if_neg hpos, by omega⟩)
  | closed start address hinside hwhole hsrc hconn hregion hwrite hwriter hreader =>
    rcases hwriter with ⟨hpc, -, -⟩ | ⟨hpc, -⟩ | hpc
    · simp only [Streams.writerMove, hpc, hconn, reduceCtorEq, and_false, if_false] at hmove
      obtain rfl := Option.some.inj hmove
      exact .closed start address hinside hwhole hsrc rfl hregion hwrite (.inr (.inr rfl)) hreader
    · simp [Streams.writerMove, hpc, hconn] at hmove
    · simp [Streams.writerMove, hpc, hconn] at hmove

/-- What the reader does behind its own metadata: the copy, and the cleaning up when the
connection has been closed. -/
theorem readerMove_late {start : ℕ} {c : Connection} {r : Region} (h : Late start s)
    (hconn : s.conn = some c) (hclient : c.clientAttr = some s.src.length)
    (hregion : s.region = some r) (hmove : readerMove chunk s = some t) :
    (s.reader = .copy ∧ s.received = start ∧ t = { s with
      reader := .disconnected
      received := start + s.src.length
      buffer := s.buffer ++ r.bytes.take s.src.length }) ∨
    c.closed = true ∧ s.received = start + s.src.length ∧ t = { s with
      reader := if s.received % chunk = 0 then .listen else .done,
      region := none, conn := none } := by
  rcases h with ⟨hpc, hstart⟩ | ⟨hpc, hend⟩
  · rw [readerMove, hpc, hconn] at hmove
    simp only [hclient, hregion, hstart, Option.some.injEq] at hmove
    subst hmove
    exact .inl ⟨hpc, hstart, by rw [hconn, hregion]⟩
  · rw [readerMove, hpc, hconn] at hmove
    simp only at hmove
    split at hmove
    · rename_i hclosed
      obtain rfl := Option.some.inj hmove
      exact .inr ⟨hclosed, hend, rfl⟩
    · cases hmove

/-- A round has ended on both sides. -/
theorem phase_apart {start : ℕ} (hinside : start < data.length) (hwhole : chunk ∣ start)
    (hsrc : s.src = (data.drop start).take chunk) (hwrite : s.write = none)
    (hwriter : Between data (start + chunk) s) (hend : s.received = start + s.src.length) :
    Phase chunk data { s with
      reader := if s.received % chunk = 0 then .listen else .done,
      region := none, conn := none } := by
  have hlen : s.src.length = min chunk (data.length - start) := by
    rw [hsrc, List.length_take, List.length_drop]
  refine .apart rfl rfl hwrite ?_ (by simp only; omega) ?_
  · rcases hwriter with ⟨hpc, hpos, htoSend⟩ | ⟨hpc, hle⟩ | hpc
    · exact .inl ⟨hpc, hpos, by simp only; omega⟩
    · exact .inr (.inl ⟨hpc, by simp only; omega⟩)
    · exact .inr (.inr hpc)
  · by_cases hfull : s.received % chunk = 0
    · exact .inl ⟨.inl (if_pos hfull), Nat.dvd_of_mod_eq_zero hfull⟩
    · have hlast : s.received = data.length := by
        by_contra hne
        have hall : s.received = start + chunk := by omega
        exact hfull (Nat.mod_eq_zero_of_dvd (hall ▸ Nat.dvd_add hwhole (Nat.dvd_refl chunk)))
      refine .inr ⟨if_neg hfull, hlast, fun hdvd => hfull ?_⟩
      exact Nat.mod_eq_zero_of_dvd (hlast ▸ hdvd)

theorem Late.ne_metadata {start : ℕ} (h : Late start s) : s.reader ≠ .metadata := by
  rcases h with ⟨hpc, -⟩ | ⟨hpc, -⟩ <;> rw [hpc] <;> decide

theorem Phase.readerMove (h : Phase chunk data s) (hmove : readerMove chunk s = some t) :
    Phase chunk data t := by
  cases h with
  | apart hconn hregion hwrite hwriter hle hreader =>
    rcases hreader with ⟨hpc | hpc, hdvd⟩ | ⟨hpc, -⟩
    · rw [Streams.readerMove, hpc, hconn] at hmove
      obtain rfl := Option.some.inj hmove
      exact .apart rfl hregion hwrite hwriter hle (.inl ⟨.inr rfl, hdvd⟩)
    · simp [Streams.readerMove, hpc, hconn] at hmove
    · simp [Streams.readerMove, hpc, hconn] at hmove
  | requested hround hconn hregion hwrite hwriter hreader =>
    rcases hreader with hpc | hpc
    · rw [Streams.readerMove, hpc, hconn] at hmove
      obtain rfl := Option.some.inj hmove
      exact .requested hround rfl hregion hwrite hwriter (.inr rfl)
    · rw [Streams.readerMove, hpc, hconn] at hmove
      obtain rfl := Option.some.inj hmove
      exact .accepted hround rfl hregion hwrite (.inl hwriter) rfl
  | accepted hround hconn hregion hwrite hwriter hreader =>
    simp [Streams.readerMove, hreader, hconn] at hmove
  | told hround hsrc hconn hwrite hwriter hreader =>
    rcases hreader with ⟨hpc, -⟩ | ⟨hpc, address, hregion⟩
    · simp [Streams.readerMove, hpc, hconn] at hmove
    · rw [Streams.readerMove, hpc, hconn, hregion] at hmove
      obtain rfl := Option.some.inj hmove
      exact .ready s.received address hround hsrc rfl rfl hwrite (.inl hwriter) (.inl ⟨rfl, rfl⟩)
  | ready start address hround hsrc hconn hregion hwrite hwriter hreader =>
    rcases readerMove_late hreader hconn rfl hregion hmove with ⟨-, -, rfl⟩ | ⟨hclosed, -⟩
    · exact .ready start address hround hsrc hconn hregion hwrite hwriter (.inr ⟨rfl, rfl⟩)
    · cases hclosed
  | landing start address again bytes todo hround hsrc hconn hregion hlanded hwrite hwriter
      hreader =>
    rcases readerMove_late hreader hconn rfl hregion hmove with ⟨-, -, rfl⟩ | ⟨hclosed, -⟩
    · exact .landing start address again bytes todo hround hsrc hconn hregion hlanded hwrite
        hwriter (.inr ⟨rfl, rfl⟩)
    · cases hclosed
  | landed start address hround hsrc hconn hregion hwrite hwriter hreader =>
    rcases readerMove_late hreader hconn rfl hregion hmove with ⟨-, -, rfl⟩ | ⟨hclosed, -⟩
    · exact .landed start address hround hsrc hconn hregion hwrite hwriter (.inr ⟨rfl, rfl⟩)
    · cases hclosed
  | closed start address hinside hwhole hsrc hconn hregion hwrite hwriter hreader =>
    rcases readerMove_late hreader hconn rfl hregion hmove with ⟨-, -, rfl⟩ | ⟨-, hend, rfl⟩
    · exact .closed start address hinside hwhole hsrc hconn hregion hwrite hwriter
        (.inr ⟨rfl, rfl⟩)
    · exact phase_apart hinside hwhole hsrc hwrite hwriter hend

theorem Phase.allocMove {address : ℕ} (h : Phase chunk data s)
    (hmove : allocMove address s = some t) : Phase chunk data t := by
  unfold Streams.allocMove at hmove
  split at hmove
  · rename_i length hpc hlength
    obtain rfl := Option.some.inj hmove
    cases h with
    | told hround hsrc hconn hwrite hwriter hreader =>
      rw [hconn] at hlength
      obtain rfl : s.src.length = length := Option.some.inj hlength
      exact .told hround hsrc hconn hwrite hwriter (.inr ⟨rfl, address, rfl⟩)
    | apart hconn => simp [hconn] at hlength
    | requested hround hconn => simp [hconn] at hlength
    | accepted hround hconn => simp [hconn] at hlength
    | ready start address hround hsrc hconn hregion hwrite hwriter hreader =>
      exact absurd hpc hreader.ne_metadata
    | landing start address again bytes todo hround hsrc hconn hregion hlanded hwrite hwriter
        hreader => exact absurd hpc hreader.ne_metadata
    | landed start address hround hsrc hconn hregion hwrite hwriter hreader =>
      exact absurd hpc hreader.ne_metadata
    | closed start address hinside hwhole hsrc hconn hregion hwrite hwriter hreader =>
      exact absurd hpc hreader.ne_metadata
  · cases hmove

/-- The card finds the memory that it has been told to write to. -/
theorem landMove_spec {offset : ℕ} (h : Phase chunk data s)
    (hmove : landMove offset s = some t) : ∃ (start address : ℕ) (again : Bool)
      (bytes : List UInt8) (todo : List ℕ), Opened chunk data start s.toSend ∧
      s.src = (data.drop start).take chunk ∧ Landed s.src bytes todo ∧ offset ∈ todo ∧
      s.write = some ⟨address, todo⟩ ∧ s.writer = .wait again ∧ Late start s ∧ s.conn = some
        { accepted := true, clientAttr := some s.src.length, serverAttr := some address } ∧
      t = { s with
        write := some ⟨address, todo.erase offset⟩
        region := some ⟨address, bytes.set offset (s.src.getD offset 0)⟩ } := by
  have hwrite : s.write ≠ none := by
    intro hnone
    rw [landMove, hnone] at hmove
    cases hmove
  cases h with
  | apart _ _ hnone => exact absurd hnone hwrite
  | requested _ _ _ hnone => exact absurd hnone hwrite
  | accepted _ _ _ hnone => exact absurd hnone hwrite
  | told _ _ _ hnone => exact absurd hnone hwrite
  | ready _ _ _ _ _ _ hnone => exact absurd hnone hwrite
  | landed _ _ _ _ _ _ hnone => exact absurd hnone hwrite
  | closed _ _ _ _ _ _ _ hnone => exact absurd hnone hwrite
  | landing start address again bytes todo hround hsrc hconn hregion hlanded hposted hwriter
      hreader =>
    rw [landMove, hposted] at hmove
    simp only at hmove
    split at hmove
    · rename_i hmem
      have hlt : offset < bytes.length := hlanded.length ▸ hlanded.inside offset hmem
      rw [hregion] at hmove
      simp only [true_and, if_pos hlt, Option.some.injEq] at hmove
      exact ⟨start, address, again, bytes, todo, hround, hsrc, hlanded, hmem, hposted, hwriter,
        hreader, hconn, hmove.symm⟩
    · cases hmove

theorem Phase.landMove {offset : ℕ} (h : Phase chunk data s)
    (hmove : landMove offset s = some t) : Phase chunk data t := by
  obtain ⟨start, address, again, bytes, todo, hround, hsrc, hlanded, hmem, -, hwriter, hreader,
    hconn, rfl⟩ := landMove_spec h hmove
  exact .landing start address again _ _ hround hsrc hconn rfl (hlanded.land hmem) rfl hwriter
    hreader

theorem Phase.step (hsmall : chunk < 2 ^ 32) (h : Phase chunk data s) {l : Move}
    (hstep : sessionStep chunk data s l = some t) : Phase chunk data t := by
  cases l with
  | writer => exact h.writerMove hsmall hstep
  | reader => exact h.readerMove hstep
  | alloc address => exact h.allocMove hstep
  | land offset => exact h.landMove hstep

theorem phase_run (hsmall : chunk < 2 ^ 32) (hne : data ≠ []) {ls : List Move}
    (h : Run.exec (sessionStep chunk data) (startSession data) ls = some s) :
    Phase chunk data s :=
  Run.exec_invariant (Phase chunk data) (fun _ _ _ hs hstep => hs.step hsmall hstep) _ _ ls
    (phase_start hne) h

/-! ### What a step leaves alone -/

/-- The reader, its buffers and the card. -/
structure SameReader (s t : Session) : Prop where
  reader : t.reader = s.reader
  received : t.received = s.received
  buffer : t.buffer = s.buffer
  region : t.region = s.region
  fault : t.fault = s.fault

theorem writerMove_same (h : writerMove chunk data s = some t) : SameReader s t := by
  unfold writerMove at h
  split at h
  · split at h <;> (obtain rfl := Option.some.inj h; exact ⟨rfl, rfl, rfl, rfl, rfl⟩)
  · split at h
    · obtain rfl := Option.some.inj h
      exact ⟨rfl, rfl, rfl, rfl, rfl⟩
    · cases h
  · obtain rfl := Option.some.inj h
    exact ⟨rfl, rfl, rfl, rfl, rfl⟩
  · split at h
    · obtain rfl := Option.some.inj h
      exact ⟨rfl, rfl, rfl, rfl, rfl⟩
    · cases h
  · obtain ⟨address, -, rfl⟩ := Option.map_eq_some_iff.mp h
    exact ⟨rfl, rfl, rfl, rfl, rfl⟩
  · split at h
    · split at h
      · obtain rfl := Option.some.inj h
        exact ⟨rfl, rfl, rfl, rfl, rfl⟩
      · cases h
    · cases h
  · obtain rfl := Option.some.inj h
    exact ⟨rfl, rfl, rfl, rfl, rfl⟩
  · cases h

/-- The writer and the card. -/
structure SameWriter (s t : Session) : Prop where
  writer : t.writer = s.writer
  toSend : t.toSend = s.toSend
  write : t.write = s.write
  fault : t.fault = s.fault

theorem readerMove_same (h : readerMove chunk s = some t) : SameWriter s t := by
  unfold readerMove at h
  split at h
  · obtain rfl := Option.some.inj h
    exact ⟨rfl, rfl, rfl, rfl⟩
  · obtain rfl := Option.some.inj h
    exact ⟨rfl, rfl, rfl, rfl⟩
  · obtain rfl := Option.some.inj h
    exact ⟨rfl, rfl, rfl, rfl⟩
  · obtain ⟨r, -, rfl⟩ := Option.map_eq_some_iff.mp h
    exact ⟨rfl, rfl, rfl, rfl⟩
  · split at h
    · obtain rfl := Option.some.inj h
      exact ⟨rfl, rfl, rfl, rfl⟩
    · cases h
  · split at h
    · obtain rfl := Option.some.inj h
      exact ⟨rfl, rfl, rfl, rfl⟩
    · cases h
  · cases h

theorem allocMove_eq {address : ℕ} (h : allocMove address s = some t) :
    ∃ length, s.reader = .metadata ∧
      t = { s with reader := .attr, region := some ⟨address, List.replicate length 0⟩ } := by
  unfold allocMove at h
  split at h
  · rename_i length hpc _
    exact ⟨length, hpc, (Option.some.inj h).symm⟩
  · cases h

/-! ### The memory of the reader -/

theorem fault_step (h : Phase chunk data s) (hfault : s.fault = false) {l : Move}
    (hstep : sessionStep chunk data s l = some t) : t.fault = false := by
  cases l with
  | writer => rw [(writerMove_same hstep).fault, hfault]
  | reader => rw [(readerMove_same hstep).fault, hfault]
  | alloc address =>
    obtain ⟨length, -, rfl⟩ := allocMove_eq hstep
    exact hfault
  | land offset =>
    obtain ⟨_, _, _, _, _, -, -, -, -, -, -, -, -, rfl⟩ := landMove_spec h hstep
    exact hfault

/-- Whatever the interleaving, the card only writes to memory that is registered for the
connection of the write, and within its bounds. -/
theorem rdma_write_inside (hsmall : chunk < 2 ^ 32) (hne : data ≠ []) {ls : List Move}
    (h : Run.exec (sessionStep chunk data) (startSession data) ls = some s) :
    s.fault = false := by
  have hinv : Phase chunk data s ∧ s.fault = false :=
    Run.exec_invariant (fun s => Phase chunk data s ∧ s.fault = false)
      (fun _ _ _ hs hstep => ⟨hs.1.step hsmall hstep, fault_step hs.1 hs.2 hstep⟩) _ _ ls
      ⟨phase_start hne, rfl⟩ h
  exact hinv.2

/-! ### The bytes of the reader -/

/-- What the reader has of the buffer of the writer. -/
structure Partial (data : List UInt8) (s : Session) : Prop where
  le : s.received ≤ data.length
  bytes : Blurred s.buffer (data.take s.received)

/-- A copy of the reader is made when the bytes of the writer are in place. -/
def CopiedLanded (s : Session) (l : Move) : Prop :=
  l = .reader → s.reader = .copy → s.region.map Region.bytes = some s.src

instance (s : Session) (l : Move) : Decidable (CopiedLanded s l) :=
  inferInstanceAs (Decidable (l = .reader → s.reader = .copy → _))

/-- What the reader finds when it copies its buffer. -/
theorem Phase.at_copy (h : Phase chunk data s) (hpc : s.reader = .copy) :
    ∃ c address bytes todo, s.conn = some c ∧ c.clientAttr = some s.src.length ∧
      s.region = some ⟨address, bytes⟩ ∧ Landed s.src bytes todo ∧
      s.src = (data.drop s.received).take chunk ∧ s.received < data.length := by
  have hstart {start : ℕ} (hlate : Late start s) : s.received = start := by
    rcases hlate with ⟨-, hstart⟩ | ⟨hreader, -⟩
    · exact hstart
    · rw [hpc] at hreader
      cases hreader
  cases h with
  | apart _ _ _ _ _ hreader => simp [hpc] at hreader
  | requested _ _ _ _ _ hreader => simp [hpc] at hreader
  | accepted _ _ _ _ _ hreader => simp [hpc] at hreader
  | told _ _ _ _ _ hreader => simp [hpc] at hreader
  | ready start address hround hsrc hconn hregion hwrite hwriter hreader =>
    rw [hstart hreader]
    exact ⟨_, address, _, _, hconn, rfl, hregion, landed_zeros s.src, hsrc, hround.inside⟩
  | landing start address again bytes todo hround hsrc hconn hregion hlanded hwrite hwriter
      hreader =>
    rw [hstart hreader]
    exact ⟨_, address, _, _, hconn, rfl, hregion, hlanded, hsrc, hround.inside⟩
  | landed start address hround hsrc hconn hregion hwrite hwriter hreader =>
    rw [hstart hreader]
    exact ⟨_, address, _, _, hconn, rfl, hregion, landed_again s.src, hsrc, hround.inside⟩
  | closed start address hinside hwhole hsrc hconn hregion hwrite hwriter hreader =>
    rw [hstart hreader]
    exact ⟨_, address, _, _, hconn, rfl, hregion, landed_again s.src, hsrc, hinside⟩

/-- A step leaves the bytes of the reader alone, or is the copy that adds to them. -/
theorem received_cases (h : Phase chunk data s) {l : Move}
    (hstep : sessionStep chunk data s l = some t) :
    (t.received = s.received ∧ t.buffer = s.buffer ∧ CopiedLanded s l) ∨
    ∃ bytes todo, s.region.map Region.bytes = some bytes ∧ l = .reader ∧ s.reader = .copy ∧
      Landed s.src bytes todo ∧ s.src = (data.drop s.received).take chunk ∧
      s.received < data.length ∧ t.received = s.received + s.src.length ∧
      t.buffer = s.buffer ++ bytes := by
  cases l with
  | writer =>
    have hsame := writerMove_same hstep
    exact .inl ⟨hsame.received, hsame.buffer, fun h => Move.noConfusion h⟩
  | alloc address =>
    obtain ⟨length, -, rfl⟩ := allocMove_eq hstep
    exact .inl ⟨rfl, rfl, fun h => Move.noConfusion h⟩
  | land offset =>
    obtain ⟨_, _, _, _, _, -, -, -, -, -, -, -, -, rfl⟩ := landMove_spec h hstep
    exact .inl ⟨rfl, rfl, fun h => Move.noConfusion h⟩
  | reader =>
    by_cases hpc : s.reader = .copy
    · obtain ⟨c, address, bytes, todo, hconn, hclient, hregion, hlanded, hsrc, hinside⟩ :=
        h.at_copy hpc
      refine .inr ⟨bytes, todo, by rw [hregion]; rfl, rfl, hpc, hlanded, hsrc, hinside, ?_⟩
      change readerMove chunk s = some t at hstep
      rw [readerMove, hpc, hconn] at hstep
      simp only [hclient, hregion] at hstep
      obtain rfl := Option.some.inj hstep
      exact ⟨rfl, by rw [← hlanded.length, List.take_length]⟩
    · have hkeep : t.received = s.received ∧ t.buffer = s.buffer := by
        change readerMove chunk s = some t at hstep
        unfold readerMove at hstep
        split at hstep
        · obtain rfl := Option.some.inj hstep
          exact ⟨rfl, rfl⟩
        · obtain rfl := Option.some.inj hstep
          exact ⟨rfl, rfl⟩
        · obtain rfl := Option.some.inj hstep
          exact ⟨rfl, rfl⟩
        · obtain ⟨r, -, rfl⟩ := Option.map_eq_some_iff.mp hstep
          exact ⟨rfl, rfl⟩
        · rename_i hcopy _
          exact absurd hcopy hpc
        · split at hstep
          · obtain rfl := Option.some.inj hstep
            exact ⟨rfl, rfl⟩
          · cases hstep
        · cases hstep
      exact .inl ⟨hkeep.1, hkeep.2, fun _ hcopy => absurd hcopy hpc⟩

theorem take_add_chunk (data : List UInt8) (start : ℕ) :
    data.take (start + ((data.drop start).take chunk).length) =
      data.take start ++ (data.drop start).take chunk := by
  rw [List.take_add]
  exact congrArg _ (List.prefix_iff_eq_take.mp (List.take_prefix chunk (data.drop start))).symm

theorem Partial.step (h : Phase chunk data s) (hpart : Partial data s) {l : Move}
    (hstep : sessionStep chunk data s l = some t) : Partial data t := by
  rcases received_cases h hstep with ⟨hreceived, hbuffer, -⟩ |
    ⟨bytes, todo, -, -, -, hlanded, hsrc, hinside, hreceived, hbuffer⟩
  · exact ⟨hreceived ▸ hpart.le, by rw [hreceived, hbuffer]; exact hpart.bytes⟩
  · refine ⟨?_, ?_⟩
    · rw [hreceived, hsrc, List.length_take, List.length_drop]
      omega
    · rw [hreceived, hbuffer, hsrc, take_add_chunk, ← hsrc]
      exact List.rel_append hpart.bytes hlanded.blurred

theorem whole_step_iff (h : Phase chunk data s) (hwhole : s.buffer = data.take s.received)
    {l : Move} (hstep : sessionStep chunk data s l = some t) :
    t.buffer = data.take t.received ↔ CopiedLanded s l := by
  rcases received_cases h hstep with ⟨hreceived, hbuffer, hok⟩ |
    ⟨bytes, todo, hregion, rfl, hpc, hlanded, hsrc, hinside, hreceived, hbuffer⟩
  · rw [hreceived, hbuffer]
    exact iff_of_true hwhole hok
  · rw [hreceived, hbuffer, hsrc, take_add_chunk, ← hsrc, hwhole, List.append_cancel_left_eq]
    constructor
    · intro hbytes _ _
      rw [hregion, hbytes]
    · intro hok
      exact Option.some.inj (hregion.symm.trans (hok rfl hpc))

theorem whole_run_iff (hsmall : chunk < 2 ^ 32) (hne : data ≠ []) {ls : List Move}
    (h : Run.exec (sessionStep chunk data) (startSession data) ls = some s) :
    Run.Throughout (sessionStep chunk data) (fun s => s.buffer = data.take s.received)
        (startSession data) ls ↔
      Run.Along (sessionStep chunk data) CopiedLanded (startSession data) ls :=
  Run.throughout_iff_along (Phase chunk data) _ (fun _ _ _ hs hstep => hs.step hsmall hstep)
    (fun _ _ _ hs hwhole hstep => whole_step_iff hs hwhole hstep) (phase_start hne) rfl h

/-- In every run the reader has the bytes of the writer but for zeros among them, and it has
the bytes themselves all along just when they are in place at each copy: the reader waits for
nothing between its metadata and its copy. -/
theorem received_bytes (hsmall : chunk < 2 ^ 32) (hne : data ≠ []) {ls : List Move}
    (h : Run.exec (sessionStep chunk data) (startSession data) ls = some s) :
    Partial data s ∧
      (Run.Throughout (sessionStep chunk data) (fun s => s.buffer = data.take s.received)
          (startSession data) ls ↔
        Run.Along (sessionStep chunk data) CopiedLanded (startSession data) ls) := by
  have hnil : Partial data (startSession data) := ⟨Nat.zero_le _, List.Forall₂.nil⟩
  have hinv : Phase chunk data s ∧ Partial data s :=
    Run.exec_invariant (fun s => Phase chunk data s ∧ Partial data s)
      (fun _ _ _ hs hstep => ⟨hs.1.step hsmall hstep, hs.2.step hs.1 hstep⟩) _ _ ls
      ⟨phase_start hne, hnil⟩ h
  exact ⟨hinv.2, whole_run_iff hsmall hne h⟩

/-! ### The end of the run -/

/-- The offsets that are to land. -/
def posted (s : Session) : ℕ := (s.write.map fun w => w.todo.length).getD 0

/-- A bound on the steps of the writer and the card in this round. -/
def writerLeft (chunk : ℕ) (s : Session) : ℕ :=
  match s.writer with
  | .connect => 2 * chunk + 16
  | .established => 2 * chunk + 8
  | .metadata => 2 * chunk + 7
  | .attr => 2 * chunk + 6
  | .write false => 2 * chunk + 5
  | .wait false => chunk + 4 + posted s
  | .write true => chunk + 3
  | .wait true => 2 + posted s
  | .disconnect => 1
  | .done | .failed => 0

/-- A bound on the steps of the reader up to its next wait for a connection. -/
def readerLeft (s : Session) : ℕ :=
  match s.reader with
  | .listen => 1
  | .request => if s.conn = none then 0 else 7
  | .accept => 6
  | .metadata => 5
  | .attr => 4
  | .copy => 3
  | .disconnected => 2
  | .done => 0

def movesLeft (chunk : ℕ) (s : Session) : ℕ :=
  (2 * chunk + 16) * s.toSend.toNat + writerLeft chunk s + readerLeft s

theorem Phase.src_le (h : Phase chunk data s) {again : Bool} (hpc : s.writer = .write again) :
    s.src.length ≤ chunk := by
  have hlen {start : ℕ} (hsrc : s.src = (data.drop start).take chunk) : s.src.length ≤ chunk := by
    rw [hsrc]
    exact List.length_take_le chunk _
  cases h with
  | apart _ _ _ hwriter => simp [Between, hpc] at hwriter
  | requested _ _ _ _ hwriter => simp [hpc] at hwriter
  | accepted _ _ _ _ hwriter => simp [hpc] at hwriter
  | told _ hsrc => exact hlen hsrc
  | ready _ _ _ hsrc => exact hlen hsrc
  | landing _ _ _ _ _ _ hsrc => exact hlen hsrc
  | landed _ _ _ hsrc => exact hlen hsrc
  | closed _ _ _ _ hsrc => exact hlen hsrc

theorem Phase.toSend_pos (h : Phase chunk data s) (hpc : s.writer = .disconnect) :
    0 < s.toSend := by
  cases h with
  | apart _ _ _ hwriter => simp [Between, hpc] at hwriter
  | requested _ _ _ _ hwriter => simp [hpc] at hwriter
  | accepted _ _ _ _ hwriter => simp [hpc] at hwriter
  | told _ _ _ _ hwriter => simp [hpc] at hwriter
  | ready _ _ _ _ _ _ _ hwriter => simp [hpc] at hwriter
  | landing _ _ _ _ _ _ _ _ _ _ _ hwriter => simp [hpc] at hwriter
  | landed start _ hround =>
    have htoSend := hround.toSend
    have hinside := hround.inside
    omega
  | closed _ _ _ _ _ _ _ _ hwriter => simp [Between, hpc] at hwriter

theorem writerMove_left (hchunk : 0 < chunk) (h : Phase chunk data s)
    (hmove : writerMove chunk data s = some t) : movesLeft chunk t < movesLeft chunk s := by
  unfold writerMove at hmove
  split at hmove
  · rename_i hpc
    split at hmove
    · rename_i hrequest
      obtain rfl := Option.some.inj hmove
      simp only [movesLeft, writerLeft, readerLeft, hpc, hrequest, reduceCtorEq, if_false,
        if_true]
      omega
    · obtain rfl := Option.some.inj hmove
      simp only [movesLeft, writerLeft, readerLeft, hpc]
      omega
  · rename_i c hpc hconn
    split at hmove
    · obtain rfl := Option.some.inj hmove
      simp only [movesLeft, writerLeft, readerLeft, hpc]
      omega
    · cases hmove
  · rename_i c hpc hconn
    obtain rfl := Option.some.inj hmove
    simp only [movesLeft, writerLeft, readerLeft, hpc, hconn, reduceCtorEq, if_false]
    omega
  · rename_i c hpc hconn
    split at hmove
    · obtain rfl := Option.some.inj hmove
      simp only [movesLeft, writerLeft, readerLeft, hpc]
      omega
    · cases hmove
  · rename_i again c hpc hconn
    obtain ⟨address, -, rfl⟩ := Option.map_eq_some_iff.mp hmove
    have hle := h.src_le hpc
    cases again <;>
      simp only [movesLeft, writerLeft, readerLeft, posted, hpc, Option.map_some, Option.getD_some,
        List.length_range] <;> omega
  · rename_i again c hpc hconn
    split at hmove
    · rename_i w hw
      split at hmove
      · obtain rfl := Option.some.inj hmove
        cases again <;>
          simp only [movesLeft, writerLeft, readerLeft, hpc, if_true, Bool.false_eq_true,
            if_false] <;> omega
      · cases hmove
    · cases hmove
  · rename_i c hpc hconn
    obtain rfl := Option.some.inj hmove
    have hpos := h.toSend_pos hpc
    have hrounds : (2 * chunk + 16) * (s.toSend - chunk).toNat + (2 * chunk + 16) ≤
        (2 * chunk + 16) * s.toSend.toNat := by
      rw [← Nat.mul_succ]
      exact Nat.mul_le_mul_left _ (by omega)
    by_cases hmore : s.toSend - chunk > 0
    · simp only [movesLeft, writerLeft, readerLeft, hpc, hconn, hmore, reduceCtorEq, if_true,
        if_false]
      omega
    · simp only [movesLeft, writerLeft, readerLeft, hpc, hconn, hmore, reduceCtorEq, if_false]
      omega
  · cases hmove

theorem Phase.listen_conn (h : Phase chunk data s) (hpc : s.reader = .listen) :
    s.conn = none := by
  have hlate {start : ℕ} : ¬ Late start s := by
    rintro (⟨hreader, -⟩ | ⟨hreader, -⟩) <;> simp [hpc] at hreader
  cases h with
  | apart hconn => exact hconn
  | requested _ _ _ _ _ hreader => simp [hpc] at hreader
  | accepted _ _ _ _ _ hreader => simp [hpc] at hreader
  | told _ _ _ _ _ hreader => simp [hpc] at hreader
  | ready _ _ _ _ _ _ _ _ hreader => exact absurd hreader hlate
  | landing _ _ _ _ _ _ _ _ _ _ _ _ hreader => exact absurd hreader hlate
  | landed _ _ _ _ _ _ _ _ hreader => exact absurd hreader hlate
  | closed _ _ _ _ _ _ _ _ _ hreader => exact absurd hreader hlate

theorem readerMove_left (h : Phase chunk data s) (hmove : readerMove chunk s = some t) :
    movesLeft chunk t < movesLeft chunk s := by
  have hsame := readerMove_same hmove
  have hwriter : writerLeft chunk t = writerLeft chunk s := by
    rw [writerLeft, writerLeft, posted, posted, hsame.writer, hsame.write]
  suffices hless : readerLeft t < readerLeft s by
    rw [movesLeft, movesLeft, hsame.toSend, hwriter]
    omega
  unfold readerMove at hmove
  split at hmove
  · rename_i hpc
    have hconn := h.listen_conn hpc
    obtain rfl := Option.some.inj hmove
    simp only [readerLeft, hpc, hconn, if_true]
    decide
  · rename_i c hpc hconn
    obtain rfl := Option.some.inj hmove
    simp only [readerLeft, hpc, hconn, reduceCtorEq, if_false]
    decide
  · rename_i c hpc hconn
    obtain rfl := Option.some.inj hmove
    simp only [readerLeft, hpc]
    decide
  · rename_i c hpc hconn
    obtain ⟨r, -, rfl⟩ := Option.map_eq_some_iff.mp hmove
    simp only [readerLeft, hpc]
    decide
  · rename_i c hpc hconn
    split at hmove
    · obtain rfl := Option.some.inj hmove
      simp only [readerLeft, hpc]
      decide
    · cases hmove
  · rename_i c hpc hconn
    split at hmove
    · obtain rfl := Option.some.inj hmove
      by_cases hfull : s.received % chunk = 0
      · simp only [readerLeft, hpc, hfull, if_true]
        decide
      · simp only [readerLeft, hpc, hfull, if_false]
        decide
    · cases hmove
  · cases hmove

/-- Each step uses up one of the moves that are left. -/
theorem movesLeft_step (hchunk : 0 < chunk) (h : Phase chunk data s) {l : Move}
    (hstep : sessionStep chunk data s l = some t) : movesLeft chunk t < movesLeft chunk s := by
  cases l with
  | writer => exact writerMove_left hchunk h hstep
  | reader => exact readerMove_left h hstep
  | alloc address =>
    obtain ⟨length, hpc, rfl⟩ := allocMove_eq hstep
    simp only [movesLeft, writerLeft, readerLeft, posted, hpc]
    omega
  | land offset =>
    obtain ⟨start, address, again, bytes, todo, -, -, -, hmem, hposted, hpc, -, -, rfl⟩ :=
      landMove_spec h hstep
    have hless : (todo.erase offset).length < todo.length := by
      rw [List.length_erase_of_mem hmem]
      exact Nat.sub_one_lt (List.length_pos_of_mem hmem).ne'
    cases again <;>
      simp only [movesLeft, writerLeft, readerLeft, posted, hpc, hposted, Option.map_some,
        Option.getD_some] <;> omega

/-- Where nothing can move: the writer has been refused, or it is done and the reader has
got all of the bytes, yet waits for one more connection when the last chunk was a full
one. -/
theorem Phase.stuck (h : Phase chunk data s) (hstuck : ∀ l, sessionStep chunk data s l = none) :
    s.writer = .failed ∨ (s.writer = .done ∧ s.received = data.length ∧
      s.reader = if chunk ∣ data.length then .request else .done) := by
  have hwriter : Streams.writerMove chunk data s = none := hstuck .writer
  have hreader : Streams.readerMove chunk s = none := hstuck .reader
  cases h with
  | apart hconn hregion hwrite hbetween hle hpc =>
    have hlisten : s.reader ≠ .listen := by
      intro hlisten
      simp [Streams.readerMove, hlisten] at hreader
    rcases hbetween with ⟨hconnect, -⟩ | ⟨hdone, hend⟩ | hfailed
    · rw [Streams.writerMove, hconnect, hconn] at hwriter
      simp only at hwriter
      split at hwriter <;> cases hwriter
    · have hall : s.received = data.length := Nat.le_antisymm hle hend
      refine .inr ⟨hdone, hall, ?_⟩
      rcases hpc with ⟨hpc, hdvd⟩ | ⟨hpc, -, hndvd⟩
      · rw [if_pos (hall ▸ hdvd)]
        exact hpc.resolve_left hlisten
      · rw [if_neg hndvd, hpc]
    · exact .inl hfailed
  | requested hround hconn hregion hwrite hpc hwaits =>
    rcases hwaits with hwaits | hwaits <;> simp [Streams.readerMove, hwaits, hconn] at hreader
  | accepted hround hconn hregion hwrite hpc hwaits =>
    rcases hpc with hpc | hpc <;> simp [Streams.writerMove, hpc, hconn] at hwriter
  | told hround hsrc hconn hwrite hpc hwaits =>
    rcases hwaits with ⟨hwaits, hregion⟩ | ⟨hwaits, address, hregion⟩
    · have halloc : Streams.allocMove 0 s = none := hstuck (.alloc 0)
      simp [Streams.allocMove, hwaits, hconn] at halloc
    · simp [Streams.readerMove, hwaits, hconn, hregion] at hreader
  | ready start address hround hsrc hconn hregion hwrite hpc hlate =>
    rcases hpc with hpc | hpc <;> simp [Streams.writerMove, hpc, hconn] at hwriter
  | landing start address again bytes todo hround hsrc hconn hregion hlanded hwrite hpc hlate =>
    cases todo with
    | nil => simp [Streams.writerMove, hpc, hconn, hwrite] at hwriter
    | cons offset todo =>
      have hland : Streams.landMove offset s = none := hstuck (.land offset)
      rw [Streams.landMove, hwrite] at hland
      simp only [List.mem_cons_self, if_true, hregion] at hland
      split at hland <;> cases hland
  | landed start address hround hsrc hconn hregion hwrite hpc hlate =>
    rcases hpc with hpc | hpc <;> simp [Streams.writerMove, hpc, hconn] at hwriter
  | closed start address hinside hwhole hsrc hconn hregion hwrite hbetween hlate =>
    rcases hlate with ⟨hpc, -⟩ | ⟨hpc, -⟩ <;>
      simp [Streams.readerMove, hpc, hconn, hregion] at hreader

/-- The conversation comes to an end whatever the interleaving, and in one of three ways: the
writer has called before the reader listens; or the reader has as many bytes as the writer
has sent, and is done or, behind a full chunk, waits for one more connection. -/
theorem session_ends (hchunk : 0 < chunk) (hsmall : chunk < 2 ^ 32) (hne : data ≠ [])
    {ls : List Move} (h : Run.exec (sessionStep chunk data) (startSession data) ls = some s) :
    ls.length ≤ (2 * chunk + 16) * (data.length + 1) + 1 ∧
      ((∀ l, sessionStep chunk data s l = none) → s.writer = .failed ∨
        (s.writer = .done ∧ s.received = data.length ∧
          s.reader = if chunk ∣ data.length then .request else .done)) := by
  have hstart : Phase chunk data (startSession data) := phase_start hne
  constructor
  · have hlen : ls.length + movesLeft chunk s ≤ movesLeft chunk (startSession data) :=
      Run.exec_length_le (Phase chunk data) (movesLeft chunk)
        (fun _ _ _ hs hstep => ⟨hs.step hsmall hstep, movesLeft_step hchunk hs hstep⟩) _ _ ls
        hstart h
    have hall : movesLeft chunk (startSession data) =
        (2 * chunk + 16) * (data.length + 1) + 1 := rfl
    omega
  · exact (phase_run hsmall hne h).stuck

/-- How the constructor of the reader ends in a state where nothing can move. -/
def Session.outcome (s : Session) : Received :=
  if s.reader = .done then .done s.buffer s.received [] else .waiting

/-- A conversation in which no connection is refused and the bytes are in place at each copy
ends as the one after the other of the sender and the receiver does. -/
theorem session_refines_transmit (hchunk : 0 < chunk) (hsmall : chunk < 2 ^ 32) (hne : data ≠ [])
    {ls : List Move} (h : Run.exec (sessionStep chunk data) (startSession data) ls = some s)
    (hstuck : ∀ l, sessionStep chunk data s l = none) (haccepted : s.writer ≠ .failed)
    (hlanded : Run.Along (sessionStep chunk data) CopiedLanded (startSession data) ls)
    {fuel : ℕ} (hfuel : data.length + 2 < fuel) :
    transmit .release chunk ⟨data, data.length⟩ fuel = some s.outcome := by
  obtain ⟨hdone, hall, hreader⟩ := ((phase_run hsmall hne h).stuck hstuck).resolve_left haccepted
  have hwhole : s.buffer = data.take s.received :=
    (whole_run_iff hsmall hne h).mpr hlanded ls [] s (List.append_nil ls).symm h
  have hlog : BuildType.LogsAll .release chunk data.length :=
    ⟨fun h => (by cases h), fun h => (by cases h)⟩
  rw [transmit_eq hchunk hsmall (fun h => by cases h) hne hlog hfuel, Session.outcome, hwhole, hall, List.take_length]
  by_cases hdvd : chunk ∣ data.length
  · rw [if_pos (Nat.mod_eq_zero_of_dvd hdvd), hreader, if_pos hdvd, if_neg (by decide)]
  · rw [if_neg fun hmod => hdvd (Nat.dvd_of_mod_eq_zero hmod), hreader, if_neg hdvd,
      if_pos rfl]

/-- The moves of a conversation about two bytes in which the reader copies at once. -/
def hastyMoves : List Move :=
  [.reader, .writer, .reader, .reader, .writer, .writer, .alloc 0, .reader, .reader, .writer,
    .writer, .land 0, .land 1, .writer, .writer, .land 0, .land 1, .writer, .writer, .reader]

theorem hastyMoves_exec : Run.exec (sessionStep 4 [1, 2]) (startSession [1, 2]) hastyMoves =
    some { writer := .done, toSend := -2, src := [1, 2], reader := .done, received := 2,
           buffer := [0, 0], region := none, conn := none, write := none, fault := false } := by
  decide

theorem hastyMoves_inside :
    ∃ s, Run.exec (sessionStep 4 [1, 2]) (startSession [1, 2]) hastyMoves = some s ∧
      s.fault = false :=
  ⟨_, hastyMoves_exec, rdma_write_inside (by decide) (by decide) hastyMoves_exec⟩

theorem hastyMoves_bytes : ¬ Run.Throughout (sessionStep 4 [1, 2])
    (fun s => s.buffer = [1, 2].take s.received) (startSession [1, 2]) hastyMoves := by
  rw [(received_bytes (by decide) (by decide) hastyMoves_exec).2]
  decide

/-- The same, with a reader that copies behind the writes. -/
def patientMoves : List Move :=
  [.reader, .writer, .reader, .reader, .writer, .writer, .alloc 0, .reader, .writer, .writer,
    .land 0, .land 1, .writer, .writer, .land 0, .land 1, .writer, .writer, .reader, .reader]

theorem hastyMoves_end :
    ∃ s, Run.exec (sessionStep 4 [1, 2]) (startSession [1, 2]) hastyMoves = some s ∧
      hastyMoves.length ≤ (2 * 4 + 16) * (2 + 1) + 1 ∧
      s.writer = .done ∧ s.received = 2 ∧ s.reader = .done := by
  refine ⟨_, hastyMoves_exec, ?_⟩
  obtain ⟨hlength, hends⟩ :=
    session_ends (by decide) (by decide) (by decide) hastyMoves_exec
  refine ⟨hlength, (hends fun l => ?_).resolve_left (by decide)⟩
  cases l <;> rfl

theorem patientMoves_exec :
    Run.exec (sessionStep 4 [1, 2]) (startSession [1, 2]) patientMoves =
      some { writer := .done, toSend := -2, src := [1, 2], reader := .done, received := 2,
             buffer := [1, 2], region := none, conn := none, write := none, fault := false } := by
  decide

theorem patientMoves_transmit :
    transmit .release 4 ⟨[1, 2], 2⟩ 5 = some (.done [1, 2] 2 []) := by
  refine session_refines_transmit (by decide) (by decide) (by decide) patientMoves_exec
    (fun l => ?_) (by decide) (by decide) (by decide)
  cases l <;> rfl

end

end MVVM.Streams
