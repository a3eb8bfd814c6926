import MVVM.Gateway.Checksums

/-!
# The value of `in_cksum` (gateway/main.cpp:62-76, 255-272)

The words of the buffer are added up in 64 bits, and the carries are folded in at the end.
-/

namespace MVVM.Gateway

open MVVM.Checksum

/-- The words that a host of little-endian order reads, with a last odd byte as the low one. -/
def words : List UInt8 → List ℕ
  | a :: b :: rest => (a.toNat + 256 * b.toNat) :: words rest
  | [a] => [a.toNat]
  | [] => []

/-- The one's-complement sum. -/
def onesTotal (ws : List ℕ) : ℕ := ws.foldl onesAdd 0

theorem foldl_onesAdd (ws : List ℕ) (hws : ∀ w ∈ ws, w < 2 ^ 16) (n : ℕ) :
    ws.foldl onesAdd (onesSum n) = onesSum (n + ws.sum) := by
  induction ws generalizing n with
  | nil => rfl
  | cons w ws ih =>
    have hword : onesSum w = w := by
      rw [onesSum, if_pos (hws w List.mem_cons_self)]
    have hstep : onesAdd (onesSum n) w = onesSum (n + w) := by
      rw [onesSum_add, hword]
    rw [List.foldl_cons, hstep, ih (fun x hx => hws x (List.mem_cons_of_mem _ hx)), List.sum_cons,
      Nat.add_assoc]

theorem sum_words (buf : List UInt8) : (words buf).sum = sumWords buf := by
  induction buf using words.induct with
  | case1 a b rest ih => rw [words, List.sum_cons, ih, sumWords]
  | case2 a => rfl
  | case3 => rfl

theorem words_lt (buf : List UInt8) : ∀ w ∈ words buf, w < 2 ^ 16 := by
  induction buf using words.induct with
  | case1 a b rest ih =>
    intro w hw
    have ha := a.toNat_lt
    have hb := b.toNat_lt
    rcases List.mem_cons.mp hw with rfl | hw
    · omega
    · exact ih w hw
  | case2 a =>
    intro w hw
    obtain rfl := List.mem_singleton.mp hw
    have ha := a.toNat_lt
    omega
  | case3 =>
    intro w hw
    cases hw

theorem onesTotal_words (buf : List UInt8) : onesTotal (words buf) = onesSum (sumWords buf) := by
  have hzero : onesSum 0 = 0 := by rw [onesSum, if_pos (by decide)]
  have hfold := foldl_onesAdd (words buf) (words_lt buf) 0
  rw [hzero, Nat.zero_add, sum_words] at hfold
  exact hfold

theorem inCksum_eq_complement (buf : List UInt8) (hlen : buf.length ≤ 2 ^ 17) :
    inCksum buf = ~~~UInt16.ofNat (onesTotal (words buf)) := by
  apply UInt16.toNat.inj
  have hlt := onesSum_lt (sumWords buf)
  rw [toNat_inCksum buf hlen, UInt16.toNat_not, UInt16.toNat_ofNat', onesTotal_words,
    Nat.mod_eq_of_lt hlt]
  rfl

/-- A sum that checks has the checksum 0. -/
theorem inCksum_of_checks (buf : List UInt8) (hlen : buf.length ≤ 2 ^ 17)
    (hchecks : Checks (sumWords buf)) : inCksum buf = 0 := by
  apply UInt16.toNat.inj
  rw [toNat_inCksum buf hlen, hchecks]
  rfl

/-- `in_cksum` is the complement of the sum, and is 0 for a header that has its value. -/
theorem inCksum_verifies :
    (∀ buf : List UInt8, buf.length ≤ 131072 →
      inCksum buf = ~~~UInt16.ofNat (onesTotal (words buf))) ∧
    (∀ p : Packet, 5 ≤ p.ipHl → 4 * p.ipHl ≤ p.bytes.length →
      inCksum p.checksummed.ipHeader = 0) := by
  constructor
  · exact inCksum_eq_complement
  · intro p hhl hlen
    have hchecks := checks_checksummed p hhl hlen
    have hsmall : p.checksummed.ipHl < 16 := Nat.mod_lt _ (by decide)
    have hheader : p.checksummed.ipHeader.length ≤ 2 ^ 17 := by
      have htake := List.length_take_le (4 * p.checksummed.ipHl) p.checksummed.bytes
      unfold Packet.ipHeader
      omega
    rw [← checks_swap_iff, ← sumWords_eq] at hchecks
    exact inCksum_of_checks _ hheader hchecks

/-- Three bytes whose sum has a carry, and a datagram. -/
theorem inCksum_verifies_samples :
    inCksum [0xff, 0xff, 0x02] = ~~~UInt16.ofNat (onesTotal (words [0xff, 0xff, 0x02])) ∧
      inCksum (emptyDatagram true).checksummed.ipHeader = 0 :=
  ⟨inCksum_verifies.1 [0xff, 0xff, 0x02] (by decide),
    inCksum_verifies.2 (emptyDatagram true) (by decide) (by decide)⟩

example : inCksum [0xff, 0xff, 0x02] = 0xfffd := by decide

end MVVM.Gateway
