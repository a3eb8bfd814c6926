import MVVM.Sockets.Suspend
import MVVM.Sockets.Inet

/-!
# The address of a tracked socket (wamr_export.cpp:257-277, wamr_wasi_context.cpp:27-49)

The guest binds or connects a socket and its address is stored. At the next snapshot or
restore a socket address of the system is made from what is stored.
-/

namespace MVVM.Sockets

open MVVM.Text (Str find)
open MVVM.Gateway (readDigits digitValue)

/-- `update_socket_fd_address`, what it does to the stored address. -/
def RecordedAddr.update (r : RecordedAddr) : WasiAddr → RecordedAddr
  | .ip4 n port => { r with port := port, isFour := true, ip4 := n }
  | .ip6 n port => { r with port := port, ip6 := n }

/-- `update_socket_fd_address`; indexing the table makes an entry where there is none. -/
def updateSocketFdAddress (fd : ℤ) (table : TrackedTable) (address : WasiAddr) : TrackedTable :=
  let s := table.getD fd {}
  table.insert fd { s with socketAddress := s.socketAddress.update address }

inductive Sockaddr where
  | in4 (port : UInt16) (sAddr : BitVec 32)
  | in6 (port : UInt16) (s6Addr : Vector UInt8 16)
  deriving DecidableEq

/-- `sockaddr_from_ip4`. -/
def sockaddrFromIp4 (addr : RecordedAddr) : Sockaddr := .in4 addr.port (hostWord addr.ip4)

/-- `{:#}:{:#}:…`, eight times: the words are printed in decimal. -/
def ipv6AddrStr (ip6 : Vector UInt16 8) : Str :=
  [':'].intercalate (ip6.toList.map fun w => Nat.toDigits 10 w.toNat)

/-- `sockaddr_from_ip6`; none when the process exits. -/
def sockaddrFromIp6 (addr : RecordedAddr) : Option Sockaddr :=
  (inetPton6 (ipv6AddrStr addr.ip6)).map (Sockaddr.in6 addr.port)

/-- The choice of `dump_impl`. -/
def sockaddrFrom (addr : RecordedAddr) : Option Sockaddr :=
  if addr.isFour then some (sockaddrFromIp4 addr) else sockaddrFromIp6 addr

/-- The choice of `restore_impl`, whose `is_4` is that of all sockets. The text of
`MVVM_SOCK_ADDR6` is none of an IPv4 address, so that `inet_pton` leaves what was made. -/
def sockaddrOf (isFour : Bool) (addr : RecordedAddr) : Option Sockaddr :=
  if addr.isFour || isFour then some (sockaddrFromIp4 addr) else sockaddrFromIp6 addr

/-- `is_4` of `restore_impl`. -/
def anyFour (table : TrackedTable) : Bool :=
  table.toList.any fun e => e.2.socketAddress.isFour

/-- An address without its port. -/
inductive Ip where
  | four (n : Vector UInt8 4)
  | six (n : Vector UInt16 8)
  deriving DecidableEq

def WasiAddr.ip : WasiAddr → Ip
  | .ip4 n _ => .four n
  | .ip6 n _ => .six n

def WasiAddr.IsIp6 : WasiAddr → Prop
  | .ip4 _ _ => False
  | .ip6 _ _ => True

/-- The decoding of wamr.cpp:132-157 and 891-908. -/
def Sockaddr.ip : Sockaddr → Ip
  | .in4 _ sAddr =>
    let ip := htonl sAddr
    .four #v[⟨Words.byte 3 ip⟩, ⟨Words.byte 2 ip⟩, ⟨Words.byte 1 ip⟩, ⟨Words.byte 0 ip⟩]
  | .in6 _ bytes =>
    .six (.ofFn fun i => (bytes[2 * (i : ℕ)].toUInt16 <<< 8) + bytes[2 * (i : ℕ) + 1].toUInt16)

/-- What the socket address denotes that `dump_impl` makes for a descriptor. -/
def dumpedIp (table : TrackedTable) (fd : ℤ) : Option Ip :=
  table[fd]?.bind fun s => (sockaddrFrom s.socketAddress).map Sockaddr.ip

/-- What the one denotes that `restore_impl` makes, from a snapshot with this table. -/
def restoredIp (table : TrackedTable) (fd : ℤ) : Option Ip :=
  table[fd]?.bind fun s => (sockaddrOf (anyFour table) s.socketAddress).map Sockaddr.ip

/-! ### The text of an IPv6 address

The decimal digits of a word are read as hexadecimal ones. -/

/-- The number with the decimal digits of `n` for its hexadecimal ones. -/
def rebased (n : ℕ) : ℕ := if n < 10 then n else 16 * rebased (n / 10) + n % 10

theorem rebased_of_le {n : ℕ} (h : 10 ≤ n) : rebased n = 16 * rebased (n / 10) + n % 10 := by
  rw [rebased, if_neg (by omega)]

theorem lt_rebased {n : ℕ} (h : 10 ≤ n) : n < rebased n := by
  induction n using rebased.induct with
  | case1 n hlt => omega
  | case2 n hge ih =>
    have hle : n / 10 ≤ rebased (n / 10) := by
      by_cases hten : 10 ≤ n / 10
      · exact (ih hten).le
      · rw [rebased, if_pos (by omega)]
    rw [rebased_of_le h]
    omega

theorem rebased_eq_iff (n : ℕ) : rebased n = n ↔ n < 10 := by
  constructor
  · intro h
    by_contra hge
    exact absurd h (lt_rebased (by omega)).ne'
  · intro h
    rw [rebased, if_pos h]

theorem rebased_lt {n k : ℕ} (h : n < 10 ^ k) : rebased n < 16 ^ k := by
  induction k generalizing n with
  | zero =>
    obtain rfl : n = 0 := by omega
    rw [rebased, if_pos (by decide)]
    decide
  | succ k ih =>
    rw [pow_succ] at h ⊢
    rw [rebased]
    split
    · have hpos : 0 < 16 ^ k := Nat.pow_pos (by decide)
      omega
    · have hlt := ih (n := n / 10) (by omega)
      omega

theorem digitValue_digitChar : ∀ d < 10, digitValue d.digitChar = d := by decide

theorem readDigits_decimal (n : ℕ) : readDigits 16 (Nat.toDigits 10 n) = some (rebased n) := by
  have hstep : ∀ m d, d < 10 →
      (if digitValue (Nat.digitChar d) < 16 then some (m * 16 + digitValue (Nat.digitChar d))
        else none) = some (m * 16 + d) := by
    intro m d hd
    rw [digitValue_digitChar d hd, if_pos (by omega)]
  rw [readDigits, if_neg Nat.toDigits_ne_nil]
  induction n using rebased.induct with
  | case1 n hlt =>
    rw [Nat.toDigits_of_lt_base hlt, List.foldlM_cons, hstep 0 n hlt, rebased, if_pos hlt]
    simp
  | case2 n hge ih =>
    rw [Nat.toDigits_of_base_le (by decide) (by omega), List.foldlM_append, ih,
      rebased_of_le (n := n) (by omega), Option.bind_eq_bind, Option.bind_some, List.foldlM_cons,
      hstep _ _ (Nat.mod_lt n (by decide)), Nat.mul_comm]
    simp

/-- The two bytes of a group. -/
def groupBytes (n : ℕ) : List UInt8 := [UInt8.ofNat (n / 256), UInt8.ofNat n]

theorem readGroup_decimal (n : ℕ) :
    readGroup (Nat.toDigits 10 n) = if n < 10 ^ 4 then some (groupBytes (rebased n)) else none := by
  unfold readGroup
  rw [readDigits_decimal]
  simp only [Nat.length_toDigits_le_iff (b := 10) (n := n) (k := 4) (by decide) (by decide)]
  rfl

theorem readGroups_cons {g : Str} (h : '.' ∉ g) (quadLast : Bool) (gs : List Str) :
    readGroups quadLast (g :: gs) =
      (readGroup g).bind fun b => (readGroups quadLast gs).map (b ++ ·) := by
  cases gs with
  | nil =>
    have hdot : g.contains '.' = false := by simpa using h
    simp only [readGroups, hdot, Bool.and_false, if_neg Bool.false_ne_true]
    cases readGroup g <;> simp
  | cons g' gs =>
    rw [readGroups]
    · cases readGroup g with
      | none => rfl
      | some b => cases readGroups quadLast (g' :: gs) <;> rfl
    · simp

theorem readGroups_decimal (ws : List ℕ) :
    readGroups true (ws.map (Nat.toDigits 10)) =
      if ∀ w ∈ ws, w < 10 ^ 4 then some ((ws.map rebased).flatMap groupBytes) else none := by
  induction ws with
  | nil => rfl
  | cons w ws ih =>
    have hdot : '.' ∉ Nat.toDigits 10 w := fun h =>
      absurd (Text.isDigit_of_mem_toDigits h) (by decide)
    rw [List.map_cons, readGroups_cons hdot, readGroup_decimal, ih]
    simp only [List.forall_mem_cons]
    by_cases hw : w < 10 ^ 4
    · by_cases hws : ∀ w ∈ ws, w < 10 ^ 4
      · rw [if_pos hw, if_pos hws, if_pos ⟨hw, hws⟩]
        rfl
      · rw [if_pos hw, if_neg hws, if_neg (not_and_of_not_right _ hws)]
        rfl
    · rw [if_neg hw, if_neg (not_and_of_not_left _ hw)]
      rfl

/-- No two separators stand next to each other. -/
theorem find_intercalate {c : Char} (gs : List Str) (h : ∀ g ∈ gs, c ∉ g ∧ g ≠ []) :
    find [c, c] ([c].intercalate gs) = none := by
  have hskip : ∀ g t : Str, c ∉ g → find [c, c] t = none → find [c, c] (g ++ t) = none := by
    intro g t hg ht
    induction g with
    | nil => exact ht
    | cons d g ih =>
      rw [List.mem_cons, not_or] at hg
      have hd : ([c, c].isPrefixOf (d :: (g ++ t))) = false := by
        simp [List.isPrefixOf, hg.1]
      rw [List.cons_append, find, hd, if_neg Bool.false_ne_true, ih hg.2]
      rfl
  induction gs with
  | nil => rfl
  | cons g gs ih =>
    rw [List.forall_mem_cons] at h
    cases gs with
    | nil =>
      rw [List.intercalate_singleton, ← List.append_nil g]
      exact hskip g [] h.1.1 rfl
    | cons g' gs =>
      rw [List.intercalate_cons_cons, List.append_assoc]
      refine hskip g _ h.1.1 ?_
      have hrest := ih h.2
      obtain ⟨hg', hne⟩ := h.2 g' List.mem_cons_self
      obtain ⟨d, tail, rfl⟩ := List.exists_cons_of_ne_nil hne
      rw [List.mem_cons, not_or] at hg'
      rw [List.intercalate_cons_cons_left] at hrest ⊢
      have hd : ([c, c].isPrefixOf (c :: d :: [c].intercalate (tail :: gs))) = false := by
        simp [List.isPrefixOf, hg'.1]
      rw [List.singleton_append, find, hd, if_neg Bool.false_ne_true, hrest]
      rfl

/-- The words of an address, as numbers. -/
def wordsOf (n : Vector UInt16 8) : List ℕ := n.toList.map UInt16.toNat

theorem readAddress6_ipv6AddrStr (n : Vector UInt16 8) :
    readAddress6 (ipv6AddrStr n) =
      if ∀ w ∈ wordsOf n, w < 10 ^ 4 then
        some (((wordsOf n).map rebased).flatMap groupBytes) else none := by
  have hstr : ipv6AddrStr n = [':'].intercalate ((wordsOf n).map (Nat.toDigits 10)) := by
    rw [wordsOf, List.map_map]
    rfl
  have hgroups : ∀ g ∈ (wordsOf n).map (Nat.toDigits 10), ':' ∉ g ∧ g ≠ [] := by
    intro g hg
    obtain ⟨w, -, rfl⟩ := List.mem_map.mp hg
    exact ⟨fun h => absurd (Text.isDigit_of_mem_toDigits h) (by decide), Nat.toDigits_ne_nil⟩
  have hne : (wordsOf n).map (Nat.toDigits 10) ≠ [] := by
    have hlen : n.toList.length = 8 := n.length_toList
    intro hnil
    rw [List.map_eq_nil_iff, wordsOf, List.map_eq_nil_iff] at hnil
    rw [hnil] at hlen
    cases hlen
  rw [readAddress6, hstr, find_intercalate _ hgroups, ← readGroups_decimal]
  exact congrArg _ (List.splitOn_intercalate ':' (fun g hg => (hgroups g hg).1) hne)

theorem getElem?_flatMap_groupBytes (ws : List ℕ) (i : ℕ) :
    (ws.flatMap groupBytes)[2 * i]? = ws[i]?.map (fun w => UInt8.ofNat (w / 256)) ∧
      (ws.flatMap groupBytes)[2 * i + 1]? = ws[i]?.map UInt8.ofNat := by
  induction ws generalizing i with
  | nil => exact ⟨rfl, rfl⟩
  | cons w ws ih =>
    cases i with
    | zero => exact ⟨rfl, rfl⟩
    | succ i => exact ih i

theorem length_flatMap_groupBytes (ws : List ℕ) :
    (ws.flatMap groupBytes).length = 2 * ws.length := by
  induction ws with
  | nil => rfl
  | cons w ws ih =>
    rw [List.flatMap_cons, List.length_append, ih, List.length_cons, groupBytes]
    simp only [List.length_cons, List.length_nil]
    omega

/-- A word is put together from its two bytes. -/
theorem word_of_bytes {w : ℕ} (hw : w < 2 ^ 16) :
    ((UInt8.ofNat (w / 256)).toUInt16 <<< 8 + (UInt8.ofNat w).toUInt16).toNat = w := by
  simp only [UInt16.toNat_add, UInt16.toNat_shiftLeft, UInt8.toNat_toUInt16, UInt8.toNat_ofNat']
  have height : (8 : UInt16).toNat % 16 = 8 := rfl
  rw [height, Nat.shiftLeft_eq]
  omega

/-- The decoding takes the bytes of the groups together again. -/
theorem ip_groupBytes (port : UInt16) (n : Vector UInt16 8) {bytes : List UInt8}
    (hbytes : bytes = (wordsOf n).flatMap groupBytes) (hlen : bytes.length = 16) :
    (Sockaddr.in6 port ⟨bytes.toArray, hlen⟩).ip = .six n := by
  refine congrArg Ip.six (Vector.ext fun i hi => ?_)
  obtain ⟨heven, hodd⟩ := getElem?_flatMap_groupBytes (wordsOf n) i
  have hword : (wordsOf n)[i]? = some n[i].toNat := by simp [wordsOf, hi]
  rw [hword, Option.map_some, ← hbytes] at heven hodd
  obtain ⟨_, heven⟩ := List.getElem?_eq_some_iff.mp heven
  obtain ⟨_, hodd⟩ := List.getElem?_eq_some_iff.mp hodd
  rw [Vector.getElem_ofFn]
  show bytes[2 * i].toUInt16 <<< 8 + bytes[2 * i + 1].toUInt16 = n[i]
  rw [heven, hodd]
  exact UInt16.toNat_inj.mp (word_of_bytes n[i].toNat_lt)

/-- What is made from the words of an address. -/
theorem ip_sockaddrFromIp6 (addr : RecordedAddr) :
    (sockaddrFromIp6 addr).map Sockaddr.ip =
      if ∀ w ∈ wordsOf addr.ip6, w < 10 ^ 4 then
        some (.six (addr.ip6.map fun w => UInt16.ofNat (rebased w.toNat))) else none := by
  unfold sockaddrFromIp6 inetPton6
  rw [readAddress6_ipv6AddrStr]
  by_cases hsmall : ∀ w ∈ wordsOf addr.ip6, w < 10 ^ 4
  · have hwords : (wordsOf addr.ip6).map rebased =
        wordsOf (addr.ip6.map fun w => UInt16.ofNat (rebased w.toNat)) := by
      rw [wordsOf, wordsOf, Vector.toList_map, List.map_map, List.map_map]
      refine List.map_congr_left fun w hw => ?_
      have hlt : rebased w.toNat < 16 ^ 4 :=
        rebased_lt (hsmall w.toNat (List.mem_map_of_mem hw))
      exact (UInt16.toNat_ofNat_of_lt' hlt).symm
    have hlen : ((wordsOf (addr.ip6.map fun w => UInt16.ofNat (rebased w.toNat))).flatMap
        groupBytes).length = 16 := by
      rw [length_flatMap_groupBytes, wordsOf, List.length_map, Vector.length_toList]
    rw [if_pos hsmall, if_pos hsmall, hwords]
    simp only [hlen, dite_true, Option.map_some, ip_groupBytes addr.port _ rfl]
  · rw [if_neg hsmall, if_neg hsmall]
    rfl

theorem ip_sockaddrFromIp6_iff (addr : RecordedAddr) :
    (sockaddrFromIp6 addr).map Sockaddr.ip = some (.six addr.ip6) ↔
      ∀ w ∈ addr.ip6, w.toNat < 10 := by
  rw [ip_sockaddrFromIp6]
  have hwords : ∀ k, (∀ w ∈ wordsOf addr.ip6, w < k) ↔ ∀ w ∈ addr.ip6, w.toNat < k := by
    intro k
    simp [wordsOf]
  constructor
  · intro h w hw
    split at h
    · next hsmall =>
      obtain ⟨i, hi, rfl⟩ := Vector.getElem_of_mem hw
      have hall := Ip.six.inj (Option.some.inj h)
      have hword := congrArg (fun v => v[i].toNat) hall
      have hlt : rebased addr.ip6[i].toNat < 16 ^ 4 := rebased_lt ((hwords _).mp hsmall _ hw)
      rw [Vector.getElem_map, UInt16.toNat_ofNat_of_lt' hlt] at hword
      exact (rebased_eq_iff _).mp hword
    · cases h
  · intro h
    have hsmall : ∀ w ∈ addr.ip6, w.toNat < 10 ^ 4 := fun w hw => by
      have hdigit := h w hw
      omega
    rw [if_pos ((hwords _).mpr hsmall)]
    refine congrArg (fun v => some (Ip.six v)) (Vector.ext fun i hi => ?_)
    rw [Vector.getElem_map, (rebased_eq_iff _).mpr (h _ (Vector.getElem_mem hi)),
      UInt16.ofNat_toNat]

/-! ### The round trip -/

theorem ip_joinBytes (port : UInt16) (a b c d : BitVec 8) :
    (Sockaddr.in4 port (Words.joinBytes a b c d)).ip = .four #v[⟨d⟩, ⟨c⟩, ⟨b⟩, ⟨a⟩] := by
  obtain ⟨h0, h1, h2, h3⟩ := Words.byte_joinBytes d c b a
  simp only [Sockaddr.ip, htonl, Words.swapBytes_joinBytes, h0, h1, h2, h3]

/-- The word is in the order of the host, so that its bytes are those of the address in the
other order. -/
theorem ip_sockaddrFromIp4_iff (addr : RecordedAddr) :
    (sockaddrFromIp4 addr).ip = .four addr.ip4 ↔
      addr.ip4[0] = addr.ip4[3] ∧ addr.ip4[1] = addr.ip4[2] := by
  have hbytes : (sockaddrFromIp4 addr).ip =
      .four #v[addr.ip4[3], addr.ip4[2], addr.ip4[1], addr.ip4[0]] := ip_joinBytes _ _ _ _ _
  rw [hbytes, Ip.four.injEq]
  constructor
  · intro h
    have h0 : addr.ip4[3] = addr.ip4[0] := by simpa using congrArg (fun v => v[0]) h
    have h1 : addr.ip4[2] = addr.ip4[1] := by simpa using congrArg (fun v => v[1]) h
    exact ⟨h0.symm, h1.symm⟩
  · intro ⟨h0, h1⟩
    calc
      #v[addr.ip4[3], addr.ip4[2], addr.ip4[1], addr.ip4[0]] =
          #v[addr.ip4[0], addr.ip4[1], addr.ip4[2], addr.ip4[3]] := by rw [h0, h1]
      _ = addr.ip4 := Gateway.vector_four addr.ip4

/-- What the updates of a run leave of a tracked socket. -/
theorem getElem?_updates (fd : ℤ) (as : List WasiAddr) (table : TrackedTable) (s : TrackedSocket)
    (h : table[fd]? = some s) :
    (as.foldl (updateSocketFdAddress fd) table)[fd]? =
      some { s with socketAddress := as.foldl RecordedAddr.update s.socketAddress } := by
  induction as generalizing table s with
  | nil => exact h
  | cons a as ih =>
    rw [List.foldl_cons, List.foldl_cons]
    refine ih _ { s with socketAddress := s.socketAddress.update a } ?_
    rw [updateSocketFdAddress, Std.TreeMap.getElem?_insert_self,
      Std.TreeMap.getD_eq_getD_getElem?, h]
    rfl

theorem getElem?_updates_ne {fd g : ℤ} (hne : fd ≠ g) (as : List WasiAddr) (table : TrackedTable) :
    (as.foldl (updateSocketFdAddress fd) table)[g]? = table[g]? := by
  induction as generalizing table with
  | nil => rfl
  | cons a as ih =>
    have hcmp : compare g fd ≠ .eq := fun h => hne (Std.compare_eq_iff_eq.mp h).symm
    rw [List.foldl_cons, ih, updateSocketFdAddress, Std.TreeMap.getElem?_insert, if_neg hcmp]

/-- Once an IPv4 address has been stored the socket counts as one of IPv4. -/
theorem isFour_updates (as : List WasiAddr) (r : RecordedAddr) :
    (as.foldl RecordedAddr.update r).isFour = false ↔
      r.isFour = false ∧ ∀ a ∈ as, a.IsIp6 := by
  induction as generalizing r with
  | nil => simp
  | cons a as ih =>
    rw [List.foldl_cons, ih, List.forall_mem_cons]
    cases a with
    | ip4 n port => simp [RecordedAddr.update, WasiAddr.IsIp6]
    | ip6 n port => simp [RecordedAddr.update, WasiAddr.IsIp6]

theorem anyFour_eq_false_iff (table : TrackedTable) :
    anyFour table = false ↔ ∀ (g : ℤ) t, table[g]? = some t → t.socketAddress.isFour = false := by
  simp only [anyFour, List.any_eq_false, Bool.not_eq_true, Prod.forall,
    Std.TreeMap.mem_toList_iff_getElem?_eq_some]

theorem anyFour_updates {table : TrackedTable} {fd : ℤ} {s : TrackedSocket}
    (h : table[fd]? = some s) (as : List WasiAddr) :
    anyFour (as.foldl (updateSocketFdAddress fd) table) = false ↔
      anyFour table = false ∧ ∀ a ∈ as, a.IsIp6 := by
  simp only [anyFour_eq_false_iff]
  constructor
  · intro hall
    have hown := (isFour_updates as s.socketAddress).mp
      (hall fd _ (getElem?_updates fd as table s h))
    refine ⟨fun g t ht => ?_, hown.2⟩
    by_cases hg : fd = g
    · subst hg
      obtain rfl := Option.some.inj (h.symm.trans ht)
      exact hown.1
    · exact hall g t ((getElem?_updates_ne hg as table).trans ht)
  · intro ⟨hall, has⟩ g t ht
    by_cases hg : fd = g
    · subst hg
      obtain rfl := Option.some.inj ((getElem?_updates fd as table s h).symm.trans ht)
      exact (isFour_updates as s.socketAddress).mpr ⟨hall fd s h, has⟩
    · exact hall g t ((getElem?_updates_ne hg as table).symm.trans ht)

theorem sockaddrOf_of_isFour {addr : RecordedAddr} (h : addr.isFour = true) (isFour : Bool) :
    sockaddrOf isFour addr = sockaddrFrom addr := by
  rw [sockaddrOf, sockaddrFrom, h, Bool.true_or]

theorem ip_update_ip4_iff (r : RecordedAddr) (n : Vector UInt8 4) (port : UInt16) :
    (sockaddrFrom (r.update (.ip4 n port))).map Sockaddr.ip = some (.four n) ↔
      n[0] = n[3] ∧ n[1] = n[2] := by
  have hfrom : sockaddrFrom (r.update (.ip4 n port)) =
      some (sockaddrFromIp4 (r.update (.ip4 n port))) := rfl
  rw [hfrom, Option.map_some, Option.some.injEq]
  exact ip_sockaddrFromIp4_iff (r.update (.ip4 n port))

/-- An address that is stored as one of IPv6 is made as one just when neither the socket nor,
for `restore_impl`, any other is taken for one of IPv4. -/
theorem ip_update_ip6_iff (isFour : Bool) (r : RecordedAddr) (n : Vector UInt16 8)
    (port : UInt16) :
    (sockaddrOf isFour (r.update (.ip6 n port))).map Sockaddr.ip = some (.six n) ↔
      (r.isFour || isFour) = false ∧ ∀ w ∈ n, w.toNat < 10 := by
  have hkeep : (r.update (.ip6 n port)).isFour = r.isFour := rfl
  rw [sockaddrOf, hkeep]
  cases hr : r.isFour || isFour with
  | true =>
    rw [if_pos rfl, Option.map_some, Option.some.injEq]
    exact iff_of_false (fun heq => by cases heq) fun hand => by cases hand.1
  | false =>
    rw [if_neg Bool.false_ne_true, and_iff_right rfl]
    exact ip_sockaddrFromIp6_iff (r.update (.ip6 n port))

/-- A socket that is bound to `::1`, and another one to `::2`. -/
def loopbacks : TrackedTable :=
  ((∅ : TrackedTable).insert 4
    { socketAddress := { ip6 := #v[0, 0, 0, 0, 0, 0, 0, 2], port := 9090 } }).insert 3 {}

end MVVM.Sockets
