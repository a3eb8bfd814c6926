import MVVM.Text
import Mathlib.Data.List.GetD
import Mathlib.Data.Nat.Notation

/-!
# Packets and the texts of addresses (gateway/main.cpp:64-76, 117-130)

A captured packet is the bytes behind the link header. `struct ip` is laid over its first
20 bytes, whatever the version is that they name.
-/

namespace MVVM.Gateway

open MVVM.Text (Str)

/-- At least the 20 bytes of `struct ip` have been captured. -/
structure Packet where
  bytes : List UInt8
  header : 20 ≤ bytes.length
  deriving DecidableEq

def Packet.byte (p : Packet) (i : ℕ) : UInt8 := p.bytes.getD i 0

def Packet.setByte (p : Packet) (i : ℕ) (b : UInt8) : Packet :=
  ⟨p.bytes.set i b, by rw [List.length_set]; exact p.header⟩

def Packet.ipV (p : Packet) : ℕ := (p.byte 0).toNat / 16

def Packet.ipHl (p : Packet) : ℕ := (p.byte 0).toNat % 16

def Packet.ipP (p : Packet) : UInt8 := p.byte 9

def Packet.ipSrc (p : Packet) : Vector UInt8 4 := #v[p.byte 12, p.byte 13, p.byte 14, p.byte 15]

def Packet.ipDst (p : Packet) : Vector UInt8 4 := #v[p.byte 16, p.byte 17, p.byte 18, p.byte 19]

-- The indices of the bytes of an address.
theorem first_lt : 0 < 4 := by decide

theorem second_lt : 1 < 4 := by decide

theorem third_lt : 2 < 4 := by decide

theorem fourth_lt : 3 < 4 := by decide

def Packet.setSrc (p : Packet) (a : Vector UInt8 4) : Packet :=
  (((p.setByte 12 (getElem a 0 first_lt)).setByte 13 (getElem a 1 second_lt)).setByte
    14 (getElem a 2 third_lt)).setByte 15 (getElem a 3 fourth_lt)

def Packet.setDst (p : Packet) (a : Vector UInt8 4) : Packet :=
  (((p.setByte 16 (getElem a 0 first_lt)).setByte 17 (getElem a 1 second_lt)).setByte
    18 (getElem a 2 third_lt)).setByte 19 (getElem a 3 fourth_lt)

/-- `ip_sum`, in the byte order of the host. -/
def Packet.setSum (p : Packet) (sum : UInt16) : Packet :=
  (p.setByte 10 sum.toUInt8).setByte 11 (sum >>> 8).toUInt8

/-- The sum of `in_cksum` before it is folded: words in the byte order of the host. -/
def sumWords : List UInt8 → ℕ
  | a :: b :: rest => a.toNat + 256 * b.toNat + sumWords rest
  | [a] => a.toNat
  | [] => 0

def inCksum (buf : List UInt8) : UInt16 :=
  let sum := sumWords buf
  let sum := sum / 2 ^ 16 + sum % 2 ^ 16
  ~~~(UInt16.ofNat (sum + sum / 2 ^ 16))

def Packet.checksummed (p : Packet) : Packet :=
  let p := p.setSum 0
  p.setSum (inCksum (p.bytes.take (4 * p.ipHl)))

/-! ### The texts of addresses -/

/-- `{}.{}.{}.{}`, and `inet_ntoa`. -/
def dotted (a : Vector UInt8 4) : Str :=
  Nat.toDigits 10 (getElem a 0 first_lt).toNat ++ '.' ::
    (Nat.toDigits 10 (getElem a 1 second_lt).toNat ++ '.' ::
      (Nat.toDigits 10 (getElem a 2 third_lt).toNat ++ '.' ::
        Nat.toDigits 10 (getElem a 3 fourth_lt).toNat))

def hex4 (w : UInt16) : Str :=
  let digits := Nat.toDigits 16 w.toNat
  List.replicate (4 - digits.length) '0' ++ digits

/-- `{:04x}:{:04x}:…`, eight times. -/
def hextets (a : Vector UInt16 8) : Str := [':'].intercalate (a.toList.map hex4)

/-- The value of a digit, 16 where there is none. -/
def digitValue (c : Char) : ℕ :=
  if '0' ≤ c ∧ c ≤ '9' then c.toNat - 48
  else if 'a' ≤ c ∧ c ≤ 'f' then c.toNat - 87
  else if 'A' ≤ c ∧ c ≤ 'F' then c.toNat - 55
  else 16

def readDigits (base : ℕ) (s : Str) : Option ℕ :=
  if s = [] then none
  else s.foldlM (fun n c =>
    if digitValue c < base then some (n * base + digitValue c) else none) 0

/-- A number of C: octal behind `0`, hexadecimal behind `0x`. -/
def readNumber : Str → Option ℕ
  | '0' :: 'x' :: s => readDigits 16 s
  | '0' :: 'X' :: s => readDigits 16 s
  | '0' :: c :: s => readDigits 8 (c :: s)
  | s => readDigits 10 s

def quad (n : ℕ) : Vector UInt8 4 :=
  #v[UInt8.ofNat (n / 2 ^ 24), UInt8.ofNat (n / 2 ^ 16), UInt8.ofNat (n / 2 ^ 8), UInt8.ofNat n]

/-- `INADDR_NONE`, which is the address 255.255.255.255. -/
def inaddrNone : Vector UInt8 4 := #v[255, 255, 255, 255]

/-- `inet_addr`: one to four numbers, of which the last fills what is left. -/
def inetAddr (s : Str) : Vector UInt8 4 :=
  match (s.splitOnP (· == '.')).mapM readNumber with
  | some [a] => if a < 2 ^ 32 then quad a else inaddrNone
  | some [a, b] => if a < 2 ^ 8 ∧ b < 2 ^ 24 then quad (a * 2 ^ 24 + b) else inaddrNone
  | some [a, b, c] =>
    if a < 2 ^ 8 ∧ b < 2 ^ 8 ∧ c < 2 ^ 16 then quad (a * 2 ^ 24 + b * 2 ^ 16 + c) else inaddrNone
  | some [a, b, c, d] =>
    if a < 2 ^ 8 ∧ b < 2 ^ 8 ∧ c < 2 ^ 8 ∧ d < 2 ^ 8 then
      quad (a * 2 ^ 24 + b * 2 ^ 16 + c * 2 ^ 8 + d)
    else inaddrNone
  | _ => inaddrNone

example : inetAddr (dotted #v[172, 17, 0, 2]) = #v[172, 17, 0, 2] := by decide

theorem inetAddr_nil : inetAddr [] = inaddrNone := by decide

theorem colon_not_mem_dotted (a : Vector UInt8 4) : ':' ∉ dotted a := by
  have hdigits : ∀ n, ':' ∉ Nat.toDigits 10 n := by
    intro n h
    exact absurd (Text.isDigit_of_mem_toDigits h) (by decide)
  simp [dotted, hdigits]

theorem colon_mem_hextets (a : Vector UInt16 8) : ':' ∈ hextets a := by
  obtain ⟨w, v, rest, h⟩ : ∃ w v rest, a.toList = w :: v :: rest := by
    have hlen : a.toList.length = 8 := a.length_toList
    match hl : a.toList, hlen with
    | w :: v :: rest, _ => exact ⟨w, v, rest, rfl⟩
  simp [hextets, h, List.intercalate]

theorem hextets_ne_dotted (a : Vector UInt16 8) (b : Vector UInt8 4) : hextets a ≠ dotted b := by
  intro h
  exact colon_not_mem_dotted b (h ▸ colon_mem_hextets a)

/-! ### Writing into a packet -/

theorem byte_eq_getElem (p : Packet) {i : ℕ} (hi : i < p.bytes.length) : p.byte i = p.bytes[i] :=
  List.getD_eq_getElem _ _ hi

theorem byte_setByte (p : Packet) (i j : ℕ) (b : UInt8) (hi : i < 20) :
    (p.setByte i b).byte j = if i = j then b else p.byte j := by
  have hlt : i < p.bytes.length := Nat.lt_of_lt_of_le hi p.header
  simp only [Packet.byte, Packet.setByte, List.getD_eq_getElem?_getD, List.getElem?_set]
  by_cases h : i = j
  · subst h
    simp [hlt]
  · simp [h]

theorem byte_checksummed (p : Packet) (j : ℕ) (h10 : j ≠ 10) (h11 : j ≠ 11) :
    p.checksummed.byte j = p.byte j := by
  simp [Packet.checksummed, Packet.setSum, byte_setByte, Ne.symm h10, Ne.symm h11]

theorem ipSrc_checksummed (p : Packet) : p.checksummed.ipSrc = p.ipSrc := by
  simp [Packet.ipSrc, byte_checksummed]

theorem ipDst_checksummed (p : Packet) : p.checksummed.ipDst = p.ipDst := by
  simp [Packet.ipDst, byte_checksummed]

theorem vector_four (a : Vector UInt8 4) : #v[getElem a 0 first_lt, getElem a 1 second_lt,
    getElem a 2 third_lt, getElem a 3 fourth_lt] = a := by
  ext i hi
  match i, hi with
  | 0, _ => rfl
  | 1, _ => rfl
  | 2, _ => rfl
  | 3, _ => rfl

theorem ipSrc_setSrc (p : Packet) (a : Vector UInt8 4) : (p.setSrc a).ipSrc = a := by
  simp [Packet.setSrc, Packet.ipSrc, byte_setByte, vector_four]

theorem ipDst_setSrc (p : Packet) (a : Vector UInt8 4) : (p.setSrc a).ipDst = p.ipDst := by
  simp [Packet.setSrc, Packet.ipDst, byte_setByte]

theorem ipSrc_setDst (p : Packet) (a : Vector UInt8 4) : (p.setDst a).ipSrc = p.ipSrc := by
  simp [Packet.setDst, Packet.ipSrc, byte_setByte]

theorem ipDst_setDst (p : Packet) (a : Vector UInt8 4) : (p.setDst a).ipDst = a := by
  simp [Packet.setDst, Packet.ipDst, byte_setByte, vector_four]

end MVVM.Gateway
