import MVVM.Run
import Mathlib.Logic.Function.Basic
import Mathlib.Data.Int.Notation

/-!
# The TCP relays of the gateway (gateway/main.cpp:325-338, 376-398, 484-549, 607-671)

`main` starts two threads for a TCP session: `send` reads from the server side and writes
to the client side, `recv` the other way round. The lambdas capture by reference, so all
threads share the `buffer`, `buffer1` and `rc` of `main`, and the variables `new_server`
and `new_client` of the case that started them, which the next message of the same kind
assigns again. A step is one access to `rc` or one system call.
-/

namespace MVVM.Gateway

/-- `sizeof(buffer)` and `sizeof(buffer1)`. -/
def bufSize : ℕ := 1024

inductive Side where
  | server
  | client
  deriving DecidableEq, Repr

/-- The two threads of a `connection_pair`. -/
inductive Dir where
  | send
  | recv
  deriving DecidableEq, Repr

def Dir.src : Dir → Side
  | .send => .server
  | .recv => .client

def Dir.dst : Dir → Side
  | .send => .client
  | .recv => .server

/-- The case of the `switch` whose `new_server` and `new_client` a thread has captured. -/
inductive Slot where
  | init
  | resume
  deriving DecidableEq, Repr

inductive Pc where
  -- at the head of `while (!stopToken.stop_requested())`
  | loop
  -- after `recv`; `fatal` says that `errno` is neither `EAGAIN` nor `EWOULDBLOCK`
  | got (fatal : Bool)
  -- in the body of `while ((rc = send(..) <= 0))`, before `send`
  | sending
  -- after `send`, before `rc` is looked at
  | sent
  | ended
  deriving DecidableEq, Repr

/-- A relay thread; `last` is what its last receive returned, which the code forgets. -/
structure Relay where
  session : ℕ
  dir : Dir
  slot : Slot
  stop : Bool
  pc : Pc
  last : ℕ
  deriving DecidableEq, Repr

inductive RecvResult where
  | data (bs : List UInt8)
  | eof
  | error (fatal : Bool)
  deriving DecidableEq, Repr

def RecvResult.bytes : RecvResult → List UInt8
  | .data bs => bs
  | _ => []

def RecvResult.rc : RecvResult → ℤ
  | .data bs => bs.length
  | .eof => 0
  | .error _ => -1

def RecvResult.fatal : RecvResult → Bool
  | .error f => f
  | _ => false

/-- A `recv` with a buffer of `bufSize` bytes can return this. -/
def RecvResult.Valid : RecvResult → Prop
  | .data bs => 0 < bs.length ∧ bs.length ≤ bufSize
  | _ => True

instance (r : RecvResult) : Decidable r.Valid := by
  cases r <;> unfold RecvResult.Valid <;> infer_instance

/-- What a control message asks for, with the sessions that its addresses name. -/
inductive Request where
  | init
  | suspend (ns : List ℕ)
  | resume (n : ℕ)
  | other
  deriving DecidableEq, Repr

/-- The statements of `main` that concern the relays. -/
inductive MainOp where
  | dispatch
  | setFd (slot : Slot) (side : Side) (n : ℕ)
  | spawn (slot : Slot) (dir : Dir) (n : ℕ)
  -- `delete` of a `jthread` requests the stop and joins
  | requestStop (dir : Dir) (n : ℕ)
  | join (dir : Dir) (n : ℕ)
  deriving DecidableEq, Repr

structure State where
  buffer : List UInt8
  buffer1 : List UInt8
  rc : ℤ
  -- the session whose socket `new_server` and `new_client` hold
  fd : Slot → Side → ℕ
  relays : List Relay
  todo : List MainOp
  sessions : ℕ
  -- the bytes that relays have read from and written to each side of a session
  received : ℕ × Side → List UInt8
  sent : ℕ × Side → List UInt8

inductive Label where
  | control (r : RecvResult)
  | main
  | recv (i : ℕ) (r : RecvResult)
  -- a step of relay `i` that is no system call
  | next (i : ℕ)
  | send (i : ℕ) (k : Option ℕ)

/-! ### Steps -/

/-- `recv` writes the first bytes of the buffer. -/
def overwrite (buf bs : List UInt8) : List UInt8 := bs ++ buf.drop bs.length

def plan (fresh : ℕ) : Request → List MainOp
  | .init =>
    [.setFd .init .server fresh, .setFd .init .client fresh, .spawn .init .send fresh,
      .spawn .init .recv fresh]
  | .suspend ns =>
    ns.flatMap fun n => [.requestStop .send n, .join .send n, .requestStop .recv n, .join .recv n]
  | .resume n =>
    [.setFd .resume .server n, .setFd .resume .client n, .spawn .resume .send n,
      .spawn .resume .recv n]
  | .other => []

/-- One statement of `main`; the message is read from `buffer` where it is needed. -/
def mainStep (decode : List UInt8 → Request) (s : State) : MainOp → Option State
  | .dispatch =>
    if s.rc > 0 then
      let r := decode s.buffer
      some { s with
        todo := plan s.sessions r
        sessions := if r = .init then s.sessions + 1 else s.sessions }
    else some s
  | .setFd slot side n =>
    some { s with fd := Function.update s.fd slot (Function.update (s.fd slot) side n) }
  | .spawn slot dir n => some { s with relays := s.relays ++ [⟨n, dir, slot, false, .loop, 0⟩] }
  | .requestStop dir n =>
    some { s with
      relays := s.relays.map fun t =>
        if t.session = n ∧ t.dir = dir then { t with stop := true } else t }
  | .join dir n =>
    if ∀ t ∈ s.relays, t.session = n → t.dir = dir → t.pc = .ended then some s else none

def State.setRelay (s : State) (i : ℕ) (t : Relay) : State := { s with relays := s.relays.set i t }

def State.into (s : State) : Dir → List UInt8
  | .send => s.buffer1
  | .recv => s.buffer

/-- `rc = recv(new_server, buffer1, sizeof(buffer1), 0)` of a `send` relay,
`rc = recv(new_client, buffer, sizeof(buffer), 0)` of a `recv` relay. -/
def relayRecv (s : State) (i : ℕ) (t : Relay) (r : RecvResult) : State :=
  let src := (s.fd t.slot t.dir.src, t.dir.src)
  { s.setRelay i { t with pc := .got r.fatal, last := r.bytes.length } with
    buffer := if t.dir = .recv then overwrite s.buffer r.bytes else s.buffer
    buffer1 := if t.dir = .send then overwrite s.buffer1 r.bytes else s.buffer1
    rc := r.rc
    received := Function.update s.received src (s.received src ++ r.bytes) }

/-- `rc = send(.., buffer, sizeof(buffer), 0) <= 0`, the same `buffer` in both threads. -/
def relaySend (s : State) (i : ℕ) (t : Relay) (k : Option ℕ) : State :=
  let dst := (s.fd t.slot t.dir.dst, t.dir.dst)
  { s.setRelay i { t with pc := .sent } with
    rc := if k.getD 0 = 0 then 1 else 0
    sent := Function.update s.sent dst (s.sent dst ++ s.buffer.take (k.getD 0)) }

/-- The tests of `rc` and of the stop token. -/
def relayNext (rc : ℤ) (t : Relay) : Option Relay :=
  match t.pc with
  | .loop => if t.stop then some { t with pc := .ended } else none
  | .got fatal =>
    if rc > 0 then some { t with pc := .sending }
    else if rc = -1 ∧ fatal then some { t with pc := .ended } else some { t with pc := .loop }
  | .sent => if rc ≠ 0 then some { t with pc := .sending } else some { t with pc := .loop }
  | .sending => none
  | .ended => none

def step (decode : List UInt8 → Request) (s : State) : Label → Option State
  | .control r =>
    if s.todo = [] ∧ r.Valid then
      some { s with buffer := overwrite s.buffer r.bytes, rc := r.rc, todo := [.dispatch] }
    else none
  | .main =>
    match s.todo with
    | [] => none
    | op :: ops => mainStep decode { s with todo := ops } op
  | .recv i r =>
    match s.relays[i]? with
    | some t =>
      if t.pc = .loop ∧ t.stop = false ∧ r.Valid then some (relayRecv s i t r) else none
    | none => none
  | .next i =>
    match s.relays[i]? with
    | some t => (relayNext s.rc t).map fun t' => s.setRelay i t'
    | none => none
  | .send i k =>
    match s.relays[i]? with
    | some t => if t.pc = .sending ∧ k.getD 0 ≤ bufSize then some (relaySend s i t k) else none
    | none => none

structure Initial (s : State) : Prop where
  relays : s.relays = []
  todo : s.todo = []
  received : ∀ k, s.received k = []
  sent : ∀ k, s.sent k = []

/-- What has been sent to one side is a prefix of what came from the other, in every session. -/
def Faithful (s : State) : Prop :=
  ∀ (n : ℕ) (d : Dir), s.sent (n, d.dst) <+: s.received (n, d.src)

/-! ### Orderly runs -/

def Relay.Busy (t : Relay) : Prop := t.pc = .sending ∨ t.pc = .sent ∨ ∃ f, t.pc = .got f

/-- Nobody receives while a relay is between its receive and the end of its send; the
captured variables hold the relay's own session; a send accepts just as many bytes as were
received, and these are in `buffer`. -/
def Orderly (s : State) : Label → Prop
  | .control _ => ∀ t ∈ s.relays, ¬ t.Busy
  | .recv i r =>
    (∀ t ∈ s.relays, ¬ t.Busy) ∧
      ∀ t, s.relays[i]? = some t → r.bytes ≠ [] → s.fd t.slot t.dir.src = t.session
  | .send i k =>
    ∀ t, s.relays[i]? = some t → k.getD 0 ≠ 0 →
      s.fd t.slot t.dir.dst = t.session ∧ k.getD 0 = t.last ∧
        s.buffer.take t.last = (s.into t.dir).take t.last
  | _ => True

def Relay.Holding (rc : ℤ) (t : Relay) : Prop :=
  t.pc = .sending ∨ (t.pc = .sent ∧ rc ≠ 0) ∨ ((∃ f, t.pc = .got f) ∧ rc > 0)

def State.Settled (s : State) (n : ℕ) (d : Dir) : Prop :=
  s.received (n, d.src) = s.sent (n, d.dst)

/-- What is on the way are the bytes of the one relay that holds some. -/
structure Inv (s : State) : Prop where
  one : ∀ (i j : ℕ) (t u : Relay), s.relays[i]? = some t → s.relays[j]? = some u →
    t.Busy → u.Busy → i = j
  holding : ∀ t ∈ s.relays, t.Holding s.rc →
    s.received (t.session, t.dir.src) =
      s.sent (t.session, t.dir.dst) ++ (s.into t.dir).take t.last
  settled : ∀ n d, (∀ t ∈ s.relays, t.session = n → t.dir = d → ¬ t.Holding s.rc) →
    s.Settled n d

theorem Relay.Holding.busy {rc : ℤ} {t : Relay} (h : t.Holding rc) : t.Busy := by
  rcases h with h | ⟨h, _⟩ | ⟨h, _⟩
  · exact .inl h
  · exact .inr (.inl h)
  · exact .inr (.inr h)

theorem Initial.inv {s : State} (h : Initial s) : Inv s where
  one := by simp [h.relays]
  holding := by simp [h.relays]
  settled n d _ := by rw [State.Settled, h.received, h.sent]

theorem Inv.faithful {s : State} (hi : Inv s) : Faithful s := by
  intro n d
  by_cases hq : ∀ t ∈ s.relays, t.session = n → t.dir = d → ¬ t.Holding s.rc
  · exact ⟨[], (List.append_nil _).trans (hi.settled n d hq).symm⟩
  · obtain ⟨t, hm, rfl, rfl, hold⟩ : ∃ t ∈ s.relays,
        t.session = n ∧ t.dir = d ∧ t.Holding s.rc := by
      by_contra hno
      exact hq fun t hm hn hd hold => hno ⟨t, hm, hn, hd, hold⟩
    exact ⟨_, (hi.holding t hm hold).symm⟩

theorem Inv.settled_of_quiet {s : State} (hi : Inv s) (hq : ∀ t ∈ s.relays, ¬ t.Busy) (n : ℕ)
    (d : Dir) : s.Settled n d :=
  hi.settled n d fun t hm _ _ hold => hq t hm hold.busy

theorem Inv.of_quiet {s : State} (hq : ∀ t ∈ s.relays, ¬ t.Busy) (hs : ∀ n d, s.Settled n d) :
    Inv s where
  one _ _ t _ ht _ hb _ := absurd hb (hq t (List.mem_of_getElem? ht))
  holding t hm hold := absurd hold.busy (hq t hm)
  settled n d _ := hs n d

theorem Inv.of_single {s : State} {i : ℕ} {t : Relay} (hit : s.relays[i]? = some t)
    (hothers : ∀ (j : ℕ) (u : Relay), s.relays[j]? = some u → j ≠ i → ¬ u.Busy)
    (hkeys : ∀ n d, (n = t.session → d ≠ t.dir) → s.Settled n d)
    (hheld : t.Holding s.rc → s.received (t.session, t.dir.src) =
      s.sent (t.session, t.dir.dst) ++ (s.into t.dir).take t.last)
    (hdone : ¬ t.Holding s.rc → s.Settled t.session t.dir) : Inv s := by
  have honly : ∀ u ∈ s.relays, u.Busy → u = t := by
    intro u hm hb
    obtain ⟨j, hj⟩ := List.mem_iff_getElem?.mp hm
    by_cases hji : j = i
    · subst hji
      exact Option.some.inj (hj.symm.trans hit)
    · exact absurd hb (hothers j u hj hji)
  refine ⟨fun j k u v hj hk hu hv => ?_, fun u hm hold => ?_, fun n d hnone => ?_⟩
  · have hji : j = i := by
      by_contra hne
      exact hothers j u hj hne hu
    have hki : k = i := by
      by_contra hne
      exact hothers k v hk hne hv
    rw [hji, hki]
  · obtain rfl := honly u hm hold.busy
    exact hheld hold
  · by_cases hkey : n = t.session ∧ d = t.dir
    · obtain ⟨rfl, rfl⟩ := hkey
      exact hdone (hnone t (List.mem_of_getElem? hit) rfl rfl)
    · exact hkeys n d fun hn hd => hkey ⟨hn, hd⟩

structure Like (rc : ℤ) (t t' : Relay) : Prop where
  session : t'.session = t.session
  dir : t'.dir = t.dir
  last : t'.last = t.last
  busy : t'.Busy → t.Busy
  holding : t'.Holding rc ↔ t.Holding rc

theorem Like.refl (rc : ℤ) (t : Relay) : Like rc t t := ⟨rfl, rfl, rfl, id, Iff.rfl⟩

theorem Inv.simulate {s s' : State} (hi : Inv s) (hrecv : s'.received = s.received)
    (hsent : s'.sent = s.sent) (hinto : s'.into = s.into) (hrc : s'.rc = s.rc)
    (hfwd : ∀ (i : ℕ) (t' : Relay), s'.relays[i]? = some t' → t'.Busy →
      ∃ t, s.relays[i]? = some t ∧ Like s.rc t t')
    (hback : ∀ t ∈ s.relays, ∃ t' ∈ s'.relays, Like s.rc t t') : Inv s' where
  one i j t' u' hit hju ht hu := by
    obtain ⟨t, hit₀, hlt⟩ := hfwd i t' hit ht
    obtain ⟨u, hju₀, hlu⟩ := hfwd j u' hju hu
    exact hi.one i j t u hit₀ hju₀ (hlt.busy ht) (hlu.busy hu)
  holding t' hm hold := by
    obtain ⟨i, hit⟩ := List.mem_iff_getElem?.mp hm
    obtain ⟨t, hit₀, hlike⟩ := hfwd i t' hit hold.busy
    rw [hrc] at hold
    rw [hrecv, hsent, hinto, hlike.session, hlike.dir, hlike.last]
    exact hi.holding t (List.mem_of_getElem? hit₀) (hlike.holding.mp hold)
  settled n d hnone := by
    rw [State.Settled, hrecv, hsent]
    refine hi.settled n d fun t hm hn hd hold => ?_
    obtain ⟨t', hm', hlike⟩ := hback t hm
    rw [hrc] at hnone
    exact hnone t' hm' (hlike.session.trans hn) (hlike.dir.trans hd) (hlike.holding.mpr hold)

theorem Inv.frame {s s' : State} (hi : Inv s) (hrecv : s'.received = s.received)
    (hsent : s'.sent = s.sent) (hinto : s'.into = s.into) (hrc : s'.rc = s.rc)
    (hrel : s'.relays = s.relays) : Inv s' := by
  refine hi.simulate hrecv hsent hinto hrc (fun i t hit _ => ⟨t, hrel ▸ hit, Like.refl _ _⟩)
    fun t hm => ⟨t, hrel ▸ hm, Like.refl _ _⟩

theorem like_of_relayNext {rc : ℤ} {t t' : Relay} (h : relayNext rc t = some t') :
    Like rc t t' := by
  unfold relayNext at h
  split at h
  · rename_i hpc
    obtain ⟨_, rfl⟩ := by simpa using h
    exact ⟨rfl, rfl, rfl, by simp [Relay.Busy], by simp [Relay.Holding, hpc]⟩
  · rename_i f hpc
    have hbusy : t.Busy := .inr (.inr ⟨f, hpc⟩)
    split at h
    · rename_i hrc
      obtain rfl := Option.some.inj h
      exact ⟨rfl, rfl, rfl, fun _ => hbusy, by simp [Relay.Holding, hpc, hrc]⟩
    · rename_i hrc
      split at h <;> obtain rfl := Option.some.inj h <;>
        exact ⟨rfl, rfl, rfl, fun _ => hbusy, by simp [Relay.Holding, hpc, hrc]⟩
  · rename_i hpc
    have hbusy : t.Busy := .inr (.inl hpc)
    split at h
    · rename_i hrc
      obtain rfl := Option.some.inj h
      exact ⟨rfl, rfl, rfl, fun _ => hbusy, by simp [Relay.Holding, hpc, hrc]⟩
    · rename_i hrc
      obtain rfl := Option.some.inj h
      exact ⟨rfl, rfl, rfl, fun _ => hbusy, by simp [Relay.Holding, hpc, hrc]⟩
  · cases h
  · cases h

theorem Inv.next {s : State} (hi : Inv s) {i : ℕ} {t t' : Relay} (hit : s.relays[i]? = some t)
    (h : relayNext s.rc t = some t') : Inv (s.setRelay i t') := by
  have hlike : Like s.rc t t' := like_of_relayNext h
  have hlt : i < s.relays.length := (List.getElem?_eq_some_iff.mp hit).1
  refine hi.simulate rfl rfl rfl rfl (fun j u hju _ => ?_) fun u hm => ?_
  · by_cases hij : i = j
    · subst hij
      rw [State.setRelay, List.getElem?_set_self hlt] at hju
      obtain rfl := Option.some.inj hju
      exact ⟨t, hit, hlike⟩
    · rw [State.setRelay, List.getElem?_set_ne hij] at hju
      exact ⟨u, hju, Like.refl _ _⟩
  · obtain ⟨j, hju⟩ := List.mem_iff_getElem?.mp hm
    by_cases hij : i = j
    · subst hij
      obtain rfl := Option.some.inj (hit.symm.trans hju)
      exact ⟨t', List.mem_of_getElem? (List.getElem?_set_self hlt), hlike⟩
    · have hsame : (s.setRelay i t').relays[j]? = some u := by
        rw [State.setRelay, List.getElem?_set_ne hij, hju]
      exact ⟨u, List.mem_of_getElem? hsame, Like.refl _ _⟩

theorem Inv.mainStep {decode : List UInt8 → Request} {s s' : State} {op : MainOp} (hi : Inv s)
    (h : mainStep decode s op = some s') : Inv s' := by
  cases op with
  | dispatch =>
    simp only [Gateway.mainStep] at h
    split at h <;> obtain rfl := Option.some.inj h
    · exact hi.frame rfl rfl rfl rfl rfl
    · exact hi
  | setFd slot side n =>
    obtain rfl := Option.some.inj h
    exact hi.frame rfl rfl rfl rfl rfl
  | spawn slot dir n =>
    obtain rfl := Option.some.inj h
    refine hi.simulate rfl rfl rfl rfl (fun i t hit hb => ?_) fun t hm => ?_
    · by_cases hlt : i < s.relays.length
      · rw [List.getElem?_append_left hlt] at hit
        exact ⟨t, hit, Like.refl _ _⟩
      · rw [List.getElem?_append_right (Nat.le_of_not_lt hlt)] at hit
        obtain rfl := List.mem_singleton.mp (List.mem_of_getElem? hit)
        simp [Relay.Busy] at hb
    · exact ⟨t, List.mem_append_left _ hm, Like.refl _ _⟩
  | requestStop dir n =>
    obtain rfl := Option.some.inj h
    have hlike : ∀ t : Relay, Like s.rc t
        (if t.session = n ∧ t.dir = dir then { t with stop := true } else t) := by
      intro t
      split
      · exact ⟨rfl, rfl, rfl, id, Iff.rfl⟩
      · exact Like.refl _ _
    refine hi.simulate rfl rfl rfl rfl (fun i t' hit _ => ?_) fun t hm => ?_
    · rw [List.getElem?_map] at hit
      obtain ⟨t, hit₀, rfl⟩ := Option.map_eq_some_iff.mp hit
      exact ⟨t, hit₀, hlike t⟩
    · exact ⟨_, List.mem_map_of_mem hm, hlike t⟩
  | join dir n =>
    simp only [Gateway.mainStep] at h
    split at h
    · obtain rfl := Option.some.inj h
      exact hi
    · cases h

theorem Dir.src_inj {d e : Dir} (h : d.src = e.src) : d = e := by
  cases d <;> cases e <;> first | rfl | cases h

theorem Dir.dst_inj {d e : Dir} (h : d.dst = e.dst) : d = e := by
  cases d <;> cases e <;> first | rfl | cases h

theorem take_overwrite (buf bs : List UInt8) : (overwrite buf bs).take bs.length = bs :=
  List.take_left

theorem relayRecv_into (s : State) (i : ℕ) (t : Relay) (r : RecvResult) :
    ((relayRecv s i t r).into t.dir).take r.bytes.length = r.bytes := by
  cases h : t.dir <;> simp [State.into, relayRecv, h, take_overwrite]

theorem RecvResult.bytes_of_rc_pos {r : RecvResult} (h : ¬ r.rc > 0) (hv : r.Valid) :
    r.bytes = [] := by
  cases r with
  | data bs =>
    have hlen : 0 < bs.length := hv.1
    simp only [RecvResult.rc] at h
    omega
  | eof => rfl
  | error f => rfl

theorem getElem?_set_other {l : List Relay} {i j : ℕ} {t u : Relay}
    (h : (l.set i t)[j]? = some u) (hne : j ≠ i) : l[j]? = some u := by
  rwa [List.getElem?_set_ne (Ne.symm hne)] at h

theorem Inv.recv {s : State} (hi : Inv s) {i : ℕ} {t : Relay} {r : RecvResult}
    (hit : s.relays[i]? = some t) (hq : ∀ u ∈ s.relays, ¬ u.Busy) (hv : r.Valid)
    (hfd : r.bytes ≠ [] → s.fd t.slot t.dir.src = t.session) : Inv (relayRecv s i t r) := by
  have hset : ∀ n d, s.Settled n d := hi.settled_of_quiet hq
  have hlt : i < s.relays.length := (List.getElem?_eq_some_iff.mp hit).1
  have hother : ∀ n d, (r.bytes = [] ∨ (n = t.session → d ≠ t.dir)) →
      (relayRecv s i t r).Settled n d := by
    intro n d hkey
    show Function.update s.received _ _ _ = s.sent _
    by_cases hsame : (n, d.src) = (s.fd t.slot t.dir.src, t.dir.src)
    · have hnil : r.bytes = [] := by
        rcases hkey with hnil | hkey
        · exact hnil
        · by_contra hne
          obtain ⟨hn, hd⟩ := Prod.mk.inj hsame
          exact hkey (hn.trans (hfd hne)) (Dir.src_inj hd)
      rw [hsame, Function.update_self, ← hsame, hnil, List.append_nil]
      exact hset n d
    · rw [Function.update_of_ne hsame]
      exact hset n d
  refine Inv.of_single (i := i) (t := { t with pc := .got r.fatal, last := r.bytes.length })
    (List.getElem?_set_self hlt) (fun j u hju hne hb => ?_) (fun n d hkey => hother n d (.inr hkey))
    (fun hold => ?_) (fun hnot => ?_)
  · exact hq u (List.mem_of_getElem? (getElem?_set_other hju hne)) hb
  · have hne : r.bytes ≠ [] := by
      intro hnil
      have hpos : r.rc > 0 := by simpa [Relay.Holding, relayRecv] using hold
      cases r with
      | data bs => exact absurd (congrArg List.length hnil) (Nat.ne_of_gt hv.1)
      | eof => simp [RecvResult.rc] at hpos
      | error f => simp [RecvResult.rc] at hpos
    rw [relayRecv_into]
    show Function.update s.received _ _ _ = s.sent _ ++ r.bytes
    rw [hfd hne, Function.update_self]
    rw [hset t.session t.dir]
  · refine hother t.session t.dir (.inl (RecvResult.bytes_of_rc_pos ?_ hv))
    simpa [Relay.Holding, relayRecv] using hnot

theorem Inv.send {s : State} (hi : Inv s) {i : ℕ} {t : Relay} {k : Option ℕ}
    (hit : s.relays[i]? = some t) (hpc : t.pc = .sending)
    (hok : k.getD 0 ≠ 0 → s.fd t.slot t.dir.dst = t.session ∧ k.getD 0 = t.last ∧
      s.buffer.take t.last = (s.into t.dir).take t.last) : Inv (relaySend s i t k) := by
  have hlt : i < s.relays.length := (List.getElem?_eq_some_iff.mp hit).1
  have hbusy : t.Busy := .inl hpc
  have hpending := hi.holding t (List.mem_of_getElem? hit) (.inl hpc)
  have hrest : ∀ n d, (n = t.session → d ≠ t.dir) → s.Settled n d := by
    intro n d hkey
    refine hi.settled n d fun u hm hn hd hold => ?_
    obtain ⟨j, hju⟩ := List.mem_iff_getElem?.mp hm
    obtain rfl := hi.one i j t u hit hju hbusy hold.busy
    obtain rfl := Option.some.inj (hit.symm.trans hju)
    exact hkey hn.symm hd.symm
  refine Inv.of_single (i := i) (t := { t with pc := .sent })
    (List.getElem?_set_self hlt) (fun j u hju hne hb => ?_) (fun n d hkey => ?_)
    (fun hold => ?_) (fun hnot => ?_)
  · exact hne (hi.one j i u t (getElem?_set_other hju hne) hit hb hbusy)
  · show s.received _ = Function.update s.sent _ _ _
    by_cases hk : k.getD 0 = 0
    · rw [hk, List.take_zero, List.append_nil, Function.update_eq_self]
      exact hrest n d hkey
    · have hdst : (n, d.dst) ≠ (s.fd t.slot t.dir.dst, t.dir.dst) := by
        rw [(hok hk).1]
        intro hsame
        exact hkey (Prod.mk.inj hsame).1 (Dir.dst_inj (Prod.mk.inj hsame).2)
      rw [Function.update_of_ne hdst]
      exact hrest n d hkey
  · have hk : k.getD 0 = 0 := by
      by_contra hk
      simp [Relay.Holding, relaySend, hk] at hold
    show s.received _ = Function.update s.sent _ _ _ ++ _
    rw [hk, List.take_zero, List.append_nil, Function.update_eq_self]
    exact hpending
  · have hk : k.getD 0 ≠ 0 := by
      intro hk
      simp [Relay.Holding, relaySend, hk] at hnot
    obtain ⟨hfd, hlen, hbuf⟩ := hok hk
    show s.received _ = Function.update s.sent _ _ _
    rw [hfd, Function.update_self, hlen, hbuf]
    exact hpending

theorem inv_step (decode : List UInt8 → Request) (s : State) (l : Label) (s' : State) (hi : Inv s)
    (hok : Orderly s l) (h : step decode s l = some s') : Inv s' := by
  cases l with
  | control r =>
    simp only [step] at h
    split at h
    · obtain rfl := Option.some.inj h
      exact Inv.of_quiet hok (hi.settled_of_quiet hok)
    · cases h
  | main =>
    simp only [step] at h
    split at h
    · cases h
    · rename_i op ops _
      have htodo : Inv { s with todo := ops } := hi.frame rfl rfl rfl rfl rfl
      exact htodo.mainStep h
  | recv i r =>
    simp only [step] at h
    split at h
    · rename_i t hit
      obtain ⟨⟨_, _, hv⟩, rfl⟩ := by simpa using h
      exact hi.recv hit hok.1 hv (hok.2 t hit)
    · cases h
  | next i =>
    simp only [step] at h
    split at h
    · rename_i t hit
      obtain ⟨t', ht, rfl⟩ := Option.map_eq_some_iff.mp h
      exact hi.next hit ht
    · cases h
  | send i k =>
    simp only [step] at h
    split at h
    · rename_i t hit
      obtain ⟨⟨hpc, _⟩, rfl⟩ := by simpa using h
      exact hi.send hit hpc (hok t hit)
    · cases h

/-- In every run of orderly steps, of any number of sessions, each side of a session has
been sent a prefix of what has come from the other side. -/
theorem relay_faithful_of_orderly (decode : List UInt8 → Request) (s s' : State)
    (ls : List Label) (hs : Initial s) (hok : Run.Along (step decode) Orderly s ls)
    (h : Run.exec (step decode) s ls = some s') : Faithful s' :=
  (Run.exec_invariant_along Inv (inv_step decode) s s' ls hs.inv hok h).faithful

def start : State :=
  { buffer := List.replicate bufSize 0, buffer1 := List.replicate bufSize 0, rc := 0
    fd := fun _ _ => 0, relays := [], todo := [], sessions := 0
    received := fun _ => [], sent := fun _ => [] }

theorem start_initial : Initial start := ⟨rfl, rfl, fun _ => rfl, fun _ => rfl⟩

/-- The opcode is the first byte of a message; `MVVM_SOCK_INIT` is 4. -/
def decodeOp (buf : List UInt8) : Request := if buf.head? = some 4 then .init else .other

/-- The message that opens a session, and what `main` does with it. -/
def openSession : List Label :=
  [.control (.data [4]), .main, .main, .main, .main, .main]

theorem forall_eq_some {α : Type*} {P : α → Prop} {o : Option α} {a : α} (ho : o = some a)
    (ha : P a) : ∀ t, o = some t → P t := fun _ ht => Option.some.inj (ho.symm.trans ht) ▸ ha

theorem relay_faithful_of_orderly_twoBytes :
    ∃ s, Run.exec (step decodeOp) start
        (openSession ++ [.recv 1 (.data [97, 98]), .next 1, .send 1 (some 2)]) = some s ∧
      s.sent (0, .server) = [97, 98] ∧ Faithful s := by
  refine ⟨_, rfl, rfl, relay_faithful_of_orderly decodeOp start _
    (openSession ++ [.recv 1 (.data [97, 98]), .next 1, .send 1 (some 2)]) start_initial ?_ rfl⟩
  have hquiet : ∀ t ∈ ([⟨0, .send, .init, false, .loop, 0⟩, ⟨0, .recv, .init, false, .loop, 0⟩] :
      List Relay), ¬ t.Busy := by simp [Relay.Busy]
  refine Run.Along.cons (by simp [Orderly, start]) rfl ?_
  refine Run.Along.cons trivial rfl (Run.Along.cons trivial rfl (Run.Along.cons trivial rfl ?_))
  refine Run.Along.cons trivial rfl (Run.Along.cons trivial rfl ?_)
  refine Run.Along.cons ⟨hquiet, forall_eq_some rfl fun _ => rfl⟩ rfl ?_
  refine Run.Along.cons trivial rfl ?_
  exact Run.Along.cons (forall_eq_some rfl fun _ => ⟨rfl, rfl, rfl⟩) rfl trivial

/-- The server side sends one byte; the client side gets the 1024 bytes of the other
buffer, which still holds the message that opened the session. -/
theorem relay_sends_other_buffer :
    ¬ ∀ (decode : List UInt8 → Request) (s s' : State) (ls : List Label), Initial s →
      Run.exec (step decode) s ls = some s' → Faithful s' := by
  intro hclaim
  let ls := openSession ++ [.recv 0 (.data [97]), .next 0, .send 0 (some bufSize)]
  obtain ⟨s, hs⟩ : ∃ s, Run.exec (step decodeOp) start ls = some s := ⟨_, rfl⟩
  have hprefix := hclaim decodeOp start s ls start_initial hs 0 .send
  have hrecv : s.received (0, .server) = [97] := by obtain rfl := Option.some.inj hs; rfl
  have hsent : (s.sent (0, .client)).head? = some 4 := by obtain rfl := Option.some.inj hs; rfl
  obtain ⟨rest, hrest⟩ := hprefix
  have hhead : (s.sent (0, .client) ++ rest).head? = some 97 := by
    rw [show s.sent (0, .client) ++ rest = s.received (0, .server) from hrest, hrecv]
    rfl
  rw [List.head?_append, hsent, Option.some_or] at hhead
  exact absurd hhead (by decide)

end MVVM.Gateway
