import MVVM.Loop
import Mathlib.Data.Nat.ModEq
import Mathlib.Data.List.Basic
import Mathlib.Tactic.NormNum

/-!
# A snapshot over RDMA

The writer sends its buffer in chunks when it is destroyed, the reader awaits chunks in
its constructor. Each chunk is a connection of its own: the lengths are exchanged, then
the bytes are written into the memory of the reader.
-/

namespace MVVM.Streams

def bufferSize : ℕ := 1024 * 1024 * 1024

/-- What one connection leaves with the reader: `client_metadata_attr.length`, and the
bytes at the address of `server_buffer_mr`. -/
structure Transfer where
  length : ℕ
  bytes : List UInt8
  deriving DecidableEq, Repr

/-- `client_xchange_metadata_with_server` and `client_remote_memory_ops`. The length goes
through a `uint32_t`. -/
def exchange (b : List UInt8) : Transfer := ⟨b.length % 2 ^ 32, b⟩

/-- `CMAKE_BUILD_TYPE`. In a Debug build SPDLOG_DEBUG reads what it is given, in a Release build it
is left out. -/
inductive BuildType where
  | debug
  | release
  deriving DecidableEq, Repr

/-- The four elements from `start` on, which the debug log reads, are there. -/
def BuildType.Logs (build : BuildType) (buffer : List UInt8) (start : ℕ) : Prop :=
  build = .debug → start + 4 ≤ buffer.length

instance (build : BuildType) (buffer : List UInt8) (start : ℕ) :
    Decidable (build.Logs buffer start) := by
  unfold BuildType.Logs
  infer_instance

structure RDMAWriteStream where
  buffer : List UInt8
  position : ℕ

def RDMAWriteStream.write (w : RDMAWriteStream) (data : List UInt8) : RDMAWriteStream :=
  ⟨w.buffer ++ data, w.position + data.length⟩

/-- A stream to which a snapshot has been written. -/
def written (writes : List (List UInt8)) : RDMAWriteStream :=
  writes.foldl RDMAWriteStream.write ⟨[], 0⟩

section

-- the build, and the size of a chunk, `BUFFER_SIZE` in the source
variable (build : BuildType) (chunk : ℕ)

/-- One round of the loop of `~RDMAWriteStream`, on `to_send` and the transfers made; `none` when
it reads outside the buffer. -/
def sendBody (w : RDMAWriteStream) (s : ℤ × List Transfer) :
    (ℤ × List Transfer) ⊕ Option (List Transfer) :=
  if s.1 > 0 then
    if build.Logs w.buffer (w.position - s.1).toNat then
      .inl (s.1 - chunk,
        s.2 ++ [exchange ((w.buffer.drop (w.position - s.1).toNat).take (min s.1 chunk).toNat)])
    else .inr none
  else .inr (some s.2)

/-- `~RDMAWriteStream`: the first chunk, then the loop. The log reads the elements from
`BUFFER_SIZE` on before anything is sent. -/
def sendAll (w : RDMAWriteStream) (fuel : ℕ) : Option (Option (List Transfer)) :=
  if build.Logs w.buffer 0 ∧ build.Logs w.buffer chunk then
    Loop.run (sendBody build chunk w) fuel
      (w.position - chunk, [exchange (w.buffer.take (min w.position chunk))])
  else some none

/-- How the constructor of the reader ends: with a buffer, its `buffer_size` and the
transfers nobody has awaited, or awaiting one more transfer. Nothing is said of it once one of
the two has read outside its buffer. -/
inductive Received where
  | done (buffer : List UInt8) (size : ℕ) (left : List Transfer)
  | waiting
  | outside
  deriving DecidableEq, Repr

/-- One round of the loop of `RDMAReadStream`, on `received`, the buffer and the transfers
to come. The log reads from the buffer that has been allocated for the chunk. -/
def recvBody (s : ℕ × List UInt8 × List Transfer) :
    (ℕ × List UInt8 × List Transfer) ⊕ Received :=
  if s.1 % chunk = 0 then
    match s.2.2 with
    | [] => .inr .waiting
    | t :: rest =>
      if build.Logs (t.bytes.take t.length) 0 then
        .inl (s.1 + t.length, s.2.1 ++ t.bytes.take t.length, rest)
      else .inr .outside
  else .inr (.done s.2.1 s.1 s.2.2)

/-- `RDMAReadStream`: the first chunk, then the loop. -/
def recvAll (incoming : List Transfer) (fuel : ℕ) : Option Received :=
  match incoming with
  | [] => some .waiting
  | t :: rest =>
    if build.Logs (t.bytes.take t.length) 0 then
      Loop.run (recvBody build chunk) fuel (t.length, t.bytes.take t.length, rest)
    else some .outside

def transmit (w : RDMAWriteStream) (fuel : ℕ) : Option Received :=
  (sendAll build chunk w fuel).bind fun made =>
    match made with
    | some made => recvAll build chunk made fuel
    | none => some .outside

end

/-! ### The debug log -/

/-- In the rounds for the last `toSend` bytes the log reads nothing outside the buffer. -/
def BuildType.RoundsLog (build : BuildType) (chunk toSend : ℕ) : Prop :=
  build = .debug → toSend % chunk = 0 ∨ 4 ≤ toSend % chunk

variable {build : BuildType} {chunk : ℕ}

theorem roundsLog_zero : build.RoundsLog chunk 0 := fun _ => .inl (Nat.zero_mod chunk)

theorem roundsLog_next {toSend : ℕ} (h : chunk ≤ toSend) :
    build.RoundsLog chunk (toSend - chunk) ↔ build.RoundsLog chunk toSend := by
  rw [BuildType.RoundsLog, BuildType.RoundsLog, ← Nat.mod_eq_sub_mod h]

/-- The first of the rounds can read, and then the others can. -/
theorem roundsLog_iff {toSend : ℕ} (hfour : build = .debug → 4 ≤ chunk) (hpos : 0 < toSend) :
    build.RoundsLog chunk toSend ↔
      (build = .debug → 4 ≤ toSend) ∧ build.RoundsLog chunk (toSend - chunk) := by
  by_cases hshort : toSend < chunk
  · rw [Nat.sub_eq_zero_of_le (Nat.le_of_lt hshort), and_iff_left roundsLog_zero,
      BuildType.RoundsLog, Nat.mod_eq_of_lt hshort]
    exact imp_congr_right fun _ => or_iff_right (Nat.ne_of_gt hpos)
  · have hle : chunk ≤ toSend := Nat.le_of_not_lt hshort
    rw [roundsLog_next hle]
    exact (and_iff_right fun hdebug => Nat.le_trans (hfour hdebug) hle).symm

/-! ### The writer -/

theorem written_eq (writes : List (List UInt8)) :
    written writes = ⟨writes.flatten, writes.flatten.length⟩ := by
  have hwrites (w : RDMAWriteStream) : writes.foldl RDMAWriteStream.write w =
      ⟨w.buffer ++ writes.flatten, w.position + writes.flatten.length⟩ := by
    induction writes generalizing w with
    | nil => simp
    | cons data writes ih => simp [ih, RDMAWriteStream.write, Nat.add_assoc]
  rw [written, hwrites, List.nil_append, Nat.zero_add]

def chunks (chunk : ℕ) (hchunk : 0 < chunk) (data : List UInt8) : List (List UInt8) :=
  if _ : data = [] then []
  else data.take chunk :: chunks chunk hchunk (data.drop chunk)
termination_by data.length
decreasing_by
  have hpos : 0 < data.length := List.length_pos_iff.mpr (by assumption)
  rw [List.length_drop]
  omega

variable (hchunk : 0 < chunk)

theorem chunks_nil : chunks chunk hchunk [] = [] := by
  rw [chunks, dif_pos rfl]

theorem chunks_of_ne_nil {data : List UInt8} (h : data ≠ []) :
    chunks chunk hchunk data = data.take chunk :: chunks chunk hchunk (data.drop chunk) := by
  rw [chunks, dif_neg h]

theorem run_sendBody (hfour : build = .debug → 4 ≤ chunk) (data : List UInt8)
    (made : List Transfer) (toSend : ℤ) (fuel : ℕ) (hle : toSend ≤ data.length)
    (hfuel : toSend < fuel) (hpos : 0 < fuel) :
    (build.RoundsLog chunk toSend.toNat →
      Loop.run (sendBody build chunk ⟨data, data.length⟩) fuel (toSend, made) =
        some (some (made ++
          (chunks chunk hchunk (data.drop (data.length - toSend).toNat)).map exchange))) ∧
    (¬ build.RoundsLog chunk toSend.toNat →
      Loop.run (sendBody build chunk ⟨data, data.length⟩) fuel (toSend, made) = some none) := by
  induction fuel generalizing toSend made with
  | zero => omega
  | succ fuel ih =>
    by_cases hsend : toSend > 0
    · have hlen : (data.drop (data.length - toSend).toNat).length = toSend.toNat := by
        rw [List.length_drop]
        omega
      have hne : data.drop (data.length - toSend).toNat ≠ [] := by
        apply List.ne_nil_of_length_pos
        omega
      have htake : (data.drop (data.length - toSend).toNat).take (min toSend chunk).toNat =
          (data.drop (data.length - toSend).toNat).take chunk := by
        rw [List.take_eq_take_iff, hlen]
        omega
      have hdrop : (data.drop (data.length - toSend).toNat).drop chunk =
          data.drop (data.length - (toSend - chunk)).toNat := by
        rw [List.drop_drop]
        congr 1
        omega
      have hlogs : build.Logs data (data.length - toSend).toNat ↔
          (build = .debug → 4 ≤ toSend.toNat) := by
        refine imp_congr_right fun _ => ?_
        omega
      have hrest : (toSend - chunk).toNat = toSend.toNat - chunk := by omega
      have hrounds := roundsLog_iff hfour (show 0 < toSend.toNat by omega)
      rw [← hlogs, ← hrest] at hrounds
      by_cases hlog : build.Logs data (data.length - toSend).toNat
      · have hbody : sendBody build chunk ⟨data, data.length⟩ (toSend, made) =
            .inl (toSend - chunk,
              made ++ [exchange ((data.drop (data.length - toSend).toNat).take chunk)]) := by
          rw [← htake, sendBody, if_pos hsend, if_pos hlog]
        obtain ⟨hgood, hbad⟩ :=
          ih (made ++ [exchange ((data.drop (data.length - toSend).toNat).take chunk)])
            (toSend - chunk) (by omega) (by omega) (by omega)
        rw [Loop.run_next hbody, hrounds, and_iff_right hlog]
        refine ⟨fun h => ?_, hbad⟩
        rw [hgood h, chunks_of_ne_nil hchunk hne, hdrop]
        simp
      · have hbody : sendBody build chunk ⟨data, data.length⟩ (toSend, made) = .inr none := by
          rw [sendBody, if_pos hsend, if_neg hlog]
        rw [Loop.run_leave hbody]
        exact ⟨fun h => absurd (hrounds.mp h).1 hlog, fun _ => rfl⟩
    · have hnil : data.drop (data.length - toSend).toNat = [] := by
        apply List.drop_eq_nil_of_le
        omega
      have hbody : sendBody build chunk ⟨data, data.length⟩ (toSend, made) = .inr (some made) :=
        if_neg hsend
      have hzero : toSend.toNat = 0 := by omega
      rw [Loop.run_leave hbody, hnil, chunks_nil, hzero]
      exact ⟨fun _ => by simp, fun h => absurd roundsLog_zero h⟩

/-- All that the log reads is in the buffer. -/
def BuildType.LogsAll (build : BuildType) (chunk length : ℕ) : Prop :=
  (build = .debug → chunk + 4 ≤ length) ∧ build.RoundsLog chunk length

theorem sendAll_eq (hfour : build = .debug → 4 ≤ chunk) {data : List UInt8} (hne : data ≠ [])
    {fuel : ℕ} (hfuel : data.length < fuel) :
    (build.LogsAll chunk data.length → sendAll build chunk ⟨data, data.length⟩ fuel =
      some (some ((chunks chunk hchunk data).map exchange))) ∧
    (¬ build.LogsAll chunk data.length →
      sendAll build chunk ⟨data, data.length⟩ fuel = some none) := by
  have hfirst : data.take (min data.length chunk) = data.take chunk := by
    rw [List.take_eq_take_iff]
    omega
  have hrest : data.drop (data.length - (data.length - chunk : ℤ)).toNat = data.drop chunk := by
    congr 1
    omega
  have hnat : (data.length - chunk : ℤ).toNat = data.length - chunk := by omega
  obtain ⟨hgood, hbad⟩ := run_sendBody hchunk hfour data [exchange (data.take chunk)]
    (data.length - chunk) fuel (by omega) (by omega) (by omega)
  rw [hrest, hnat] at hgood
  rw [hnat] at hbad
  have hlogs : build.Logs data 0 ∧ build.Logs data chunk ↔
      (build = .debug → chunk + 4 ≤ data.length) := by
    refine ⟨And.right, fun h => ⟨fun hdebug => ?_, h⟩⟩
    have hlen := h hdebug
    omega
  have hrounds (h : build = .debug → chunk + 4 ≤ data.length) :
      build.RoundsLog chunk (data.length - chunk) ↔ build.RoundsLog chunk data.length := by
    rw [roundsLog_iff hfour (List.length_pos_iff.mpr hne)]
    exact (and_iff_right fun hdebug => by have hlen := h hdebug; omega).symm
  rw [sendAll, hfirst, BuildType.LogsAll]
  by_cases hlog : build = .debug → chunk + 4 ≤ data.length
  · rw [if_pos (hlogs.mpr hlog), and_iff_right hlog, ← hrounds hlog]
    refine ⟨fun h => ?_, hbad⟩
    rw [hgood h, chunks_of_ne_nil hchunk hne]
    rfl
  · rw [if_neg fun h => hlog (hlogs.mp h)]
    exact ⟨fun h => absurd h.1 hlog, fun _ => rfl⟩

/-! ### The reader -/

theorem take_exchange {b : List UInt8} (h : b.length < 2 ^ 32) :
    (exchange b).length = b.length ∧ (exchange b).bytes.take b.length = b :=
  ⟨Nat.mod_eq_of_lt h, List.take_length⟩

/-- What the log of the reader shows of a chunk is there when the writer had it to log. -/
theorem logs_chunk (hfour : build = .debug → 4 ≤ chunk) {data : List UInt8} (hne : data ≠ [])
    (hlog : build.RoundsLog chunk data.length) : build.Logs (data.take chunk) 0 := by
  intro hdebug
  have hlen := ((roundsLog_iff hfour (List.length_pos_iff.mpr hne)).mp hlog).1 hdebug
  have hchunk := hfour hdebug
  rw [List.length_take]
  omega

theorem run_recvBody (hsmall : chunk < 2 ^ 32) (hfour : build = .debug → 4 ≤ chunk)
    (data buffer : List UInt8) (received fuel : ℕ) (hlog : build.RoundsLog chunk data.length)
    (hfuel : data.length + 1 < fuel) (hmod : received % chunk = 0) :
    Loop.run (recvBody build chunk) fuel
        (received, buffer, (chunks chunk hchunk data).map exchange) =
      some (if data.length % chunk = 0 then .waiting
        else .done (buffer ++ data) (received + data.length) []) := by
  induction fuel generalizing data buffer received with
  | zero => omega
  | succ fuel ih =>
    by_cases hne : data = []
    · subst hne
      have hbody : recvBody build chunk (received, buffer, []) = .inr .waiting := if_pos hmod
      rw [chunks_nil, List.map_nil, Loop.run_leave hbody]
      simp
    · have hpos : 0 < data.length := List.length_pos_iff.mpr hne
      have hlen : (data.take chunk).length < 2 ^ 32 := by
        rw [List.length_take]
        omega
      obtain ⟨hl, hb⟩ := take_exchange hlen
      have hbody : recvBody build chunk
            (received, buffer, (chunks chunk hchunk data).map exchange) =
          .inl (received + (data.take chunk).length, buffer ++ data.take chunk,
            (chunks chunk hchunk (data.drop chunk)).map exchange) := by
        rw [chunks_of_ne_nil hchunk hne, recvBody, if_pos hmod, List.map_cons]
        simp only [hl, hb, if_pos (logs_chunk hfour hne hlog)]
      rw [Loop.run_next hbody]
      by_cases hshort : data.length < chunk
      · have htake : data.take chunk = data := List.take_of_length_le (by omega)
        have hdrop : data.drop chunk = [] := List.drop_eq_nil_of_le (by omega)
        have hmod' : (received + data.length) % chunk ≠ 0 := by
          rw [Nat.add_mod, hmod, Nat.zero_add, Nat.mod_mod, Nat.mod_eq_of_lt hshort]
          omega
        have hlast : data.length % chunk ≠ 0 := by
          rw [Nat.mod_eq_of_lt hshort]
          omega
        obtain ⟨k, rfl⟩ : ∃ k, fuel = k + 1 := ⟨fuel - 1, by omega⟩
        have hend : recvBody build chunk (received + data.length, buffer ++ data, []) =
            .inr (.done (buffer ++ data) (received + data.length) []) := if_neg hmod'
        rw [htake, hdrop, chunks_nil, List.map_nil, Loop.run_leave hend, if_neg hlast]
      · have hle : chunk ≤ data.length := Nat.le_of_not_lt hshort
        have hfull : (data.take chunk).length = chunk := by
          rw [List.length_take]
          omega
        have hdrop : (data.drop chunk).length = data.length - chunk := List.length_drop
        have hmod' : (received + chunk) % chunk = 0 := by
          rw [Nat.add_mod_right]
          exact hmod
        have hrest : (data.length - chunk) % chunk = data.length % chunk :=
          (Nat.mod_eq_sub_mod hle).symm
        have hsum : received + chunk + (data.length - chunk) = received + data.length := by
          omega
        have hlog' : build.RoundsLog chunk (data.drop chunk).length := by
          rw [hdrop, roundsLog_next hle]
          exact hlog
        rw [hfull, ih (data.drop chunk) _ _ hlog' (by omega) hmod', hdrop, hrest, hsum,
          List.append_assoc, List.take_append_drop]

theorem transmit_eq (hchunk : 0 < chunk) (hsmall : chunk < 2 ^ 32)
    (hfour : build = .debug → 4 ≤ chunk) {data : List UInt8} (hne : data ≠ [])
    (hlog : build.LogsAll chunk data.length) {fuel : ℕ} (hfuel : data.length + 2 < fuel) :
    transmit build chunk ⟨data, data.length⟩ fuel =
      some (if data.length % chunk = 0 then .waiting else .done data data.length []) := by
  have hwaits := run_recvBody hchunk hsmall hfour data [] 0 (fuel + 1) hlog.2 (by omega)
    (Nat.zero_mod chunk)
  have hlen : (data.take chunk).length < 2 ^ 32 := by
    rw [List.length_take]
    omega
  obtain ⟨hl, hb⟩ := take_exchange hlen
  have hfirst : build.Logs
      ((exchange (data.take chunk)).bytes.take (exchange (data.take chunk)).length) 0 := by
    rw [hl, hb]
    exact logs_chunk hfour hne hlog.2
  have hbody (rest : List Transfer) :
      recvBody build chunk (0, [], exchange (data.take chunk) :: rest) =
        .inl (0 + (exchange (data.take chunk)).length,
          [] ++ (exchange (data.take chunk)).bytes.take (exchange (data.take chunk)).length,
          rest) := by
    rw [recvBody, if_pos (Nat.zero_mod chunk)]
    exact if_pos hfirst
  rw [chunks_of_ne_nil hchunk hne, List.map_cons, Loop.run_next (hbody _)] at hwaits
  simp only [Nat.zero_add, List.nil_append] at hwaits
  rw [transmit, (sendAll_eq hchunk hfour hne (by omega)).1 hlog, Option.bind_some,
    chunks_of_ne_nil hchunk hne, List.map_cons]
  rw [← hwaits]
  exact if_pos hfirst

theorem transmit_outside (hchunk : 0 < chunk) (hfour : build = .debug → 4 ≤ chunk)
    {data : List UInt8} (hne : data ≠ []) (hlog : ¬ build.LogsAll chunk data.length) {fuel : ℕ}
    (hfuel : data.length < fuel) :
    transmit build chunk ⟨data, data.length⟩ fuel = some .outside := by
  rw [transmit, (sendAll_eq hchunk hfour hne hfuel).2 hlog, Option.bind_some]

theorem transmit_mono {w : RDMAWriteStream} {fuel more : ℕ} {r : Received}
    (h : transmit build chunk w fuel = some r) (hle : fuel ≤ more) :
    transmit build chunk w more = some r := by
  obtain ⟨made, hmade, hr⟩ := Option.bind_eq_some_iff.mp h
  have hmore : sendAll build chunk w more = some made := by
    unfold sendAll at hmade ⊢
    split
    · next hlog =>
      rw [if_pos hlog] at hmade
      exact Loop.run_mono hmade hle
    · next hlog => rwa [if_neg hlog] at hmade
  rw [transmit, hmore, Option.bind_some]
  match made with
  | none => exact hr
  | some [] => exact hr
  | some (t :: rest) =>
    simp only [recvAll] at hr ⊢
    split
    · next hlog =>
      rw [if_pos hlog] at hr
      exact Loop.run_mono hr hle
    · next hlog => rwa [if_neg hlog] at hr

theorem transmit_done_iff (hchunk : 0 < chunk) (hsmall : chunk < 2 ^ 32)
    (hfour : build = .debug → 4 ≤ chunk) {data : List UInt8} (hne : data ≠ []) :
    (∃ fuel, transmit build chunk ⟨data, data.length⟩ fuel =
        some (.done data data.length [])) ↔
      ¬ chunk ∣ data.length ∧
        (build = .debug → chunk + 4 ≤ data.length ∧ 4 ≤ data.length % chunk) := by
  rw [Nat.dvd_iff_mod_eq_zero]
  constructor
  · intro ⟨fuel, h⟩
    have hdone := transmit_mono h (Nat.le_add_right fuel (data.length + 3))
    have hlog : build.LogsAll chunk data.length := by
      by_contra hlog
      have houtside := transmit_outside hchunk hfour hne hlog
        (show data.length < fuel + (data.length + 3) by omega)
      cases hdone.symm.trans houtside
    have hmod : ¬ data.length % chunk = 0 := by
      intro hmod
      have hwait := transmit_eq hchunk hsmall hfour hne hlog
        (show data.length + 2 < fuel + (data.length + 3) by omega)
      rw [if_pos hmod] at hwait
      cases hdone.symm.trans hwait
    exact ⟨hmod, fun hdebug => ⟨hlog.1 hdebug, (hlog.2 hdebug).resolve_left hmod⟩⟩
  · intro ⟨hmod, hdebug⟩
    have hlog : build.LogsAll chunk data.length :=
      ⟨fun h => (hdebug h).1, fun h => .inr (hdebug h).2⟩
    refine ⟨data.length + 3, ?_⟩
    rw [transmit_eq hchunk hsmall hfour hne hlog (by omega), if_neg hmod]

/-- The reader awaits as many transfers as the writer makes, and ends with its buffer, just
when the snapshot is no whole number of chunks; in a Debug build the snapshot has to go beyond the
first chunk, and its last chunk must have what the log shows of it. -/
theorem transmit_whole_iff (build : BuildType) (writes : List (List UInt8))
    (hne : writes.flatten ≠ []) :
    (∃ fuel, transmit build bufferSize (written writes) fuel =
        some (.done writes.flatten writes.flatten.length [])) ↔
      ¬ bufferSize ∣ writes.flatten.length ∧ (build = .debug →
        bufferSize + 4 ≤ writes.flatten.length ∧ 4 ≤ writes.flatten.length % bufferSize) := by
  rw [written_eq]
  exact transmit_done_iff (by decide) (by decide) (fun _ => by decide) hne

theorem transmit_whole_iff_both :
    (∃ fuel, transmit .release bufferSize (written [[7], [8, 9]]) fuel =
      some (.done [7, 8, 9] 3 [])) ∧
    ∃ fuel, transmit .debug bufferSize (written [List.replicate (bufferSize + 4) 7]) fuel =
      some (.done (List.replicate (bufferSize + 4) 7) (bufferSize + 4) []) := by
  constructor
  · exact (transmit_whole_iff .release [[7], [8, 9]] (by decide)).mpr
      ⟨by decide, fun h => by cases h⟩
  · have hflat : [List.replicate (bufferSize + 4) (7 : UInt8)].flatten =
        List.replicate (bufferSize + 4) 7 := by
      rw [List.flatten_cons, List.flatten_nil, List.append_nil]
    have hlen : (List.replicate (bufferSize + 4) (7 : UInt8)).length = bufferSize + 4 :=
      List.length_replicate
    have hwhole := transmit_whole_iff .debug [List.replicate (bufferSize + 4) 7] (by
      rw [hflat]
      apply List.ne_nil_of_length_pos
      rw [hlen]
      exact Nat.succ_pos _)
    rw [hflat, hlen] at hwhole
    exact hwhole.mpr (by decide)

/-- A snapshot of exactly one chunk: the reader never leaves its constructor. -/
theorem full_chunk_keeps_waiting :
    ¬ ∀ (build : BuildType) (writes : List (List UInt8)), writes.flatten ≠ [] →
      ∃ fuel, transmit build bufferSize (written writes) fuel =
        some (.done writes.flatten writes.flatten.length []) := by
  intro hclaim
  have hflat : [List.replicate bufferSize (7 : UInt8)].flatten = List.replicate bufferSize 7 := by
    rw [List.flatten_cons, List.flatten_nil, List.append_nil]
  have hlen : (List.replicate bufferSize (7 : UInt8)).length = bufferSize := List.length_replicate
  have hne : List.replicate bufferSize (7 : UInt8) ≠ [] := by
    apply List.ne_nil_of_length_pos
    rw [hlen]
    decide
  have hall := hclaim .release [List.replicate bufferSize 7] (by rwa [hflat])
  rw [written_eq, hflat] at hall
  have hdiv := ((transmit_done_iff (by decide) (by decide) (fun _ => by decide) hne).mp hall).1
  rw [hlen] at hdiv
  exact hdiv (Nat.dvd_refl bufferSize)

end MVVM.Streams
