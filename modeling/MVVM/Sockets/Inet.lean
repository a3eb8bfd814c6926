import MVVM.Gateway.Packet
import MVVM.Words

/-!
# Addresses of the system

`inet_pton` reads an address into its bytes, in the order of the network. The host is
little-endian.
-/

namespace MVVM.Sockets

open MVVM.Gateway (readDigits first_lt second_lt third_lt fourth_lt)
open MVVM.Text (Str find)

/-- A number of at most 255, without zeros in front. -/
def readOctet (s : Str) : Option UInt8 :=
  match readDigits 10 s with
  | some n => if n ≤ 255 ∧ (s.head? = some '0' → s = ['0']) then some (UInt8.ofNat n) else none
  | none => none

/-- `inet_pton(AF_INET, …)`. -/
def inetPton4 (s : Str) : Option (Vector UInt8 4) :=
  match (s.splitOnP (· == '.')).mapM readOctet with
  | some [a, b, c, d] => some #v[a, b, c, d]
  | _ => none

/-- One to four hexadecimal digits. -/
def readGroup (s : Str) : Option (List UInt8) :=
  if s.length ≤ 4 then (readDigits 16 s).map fun n => [UInt8.ofNat (n / 256), UInt8.ofNat n]
  else none

/-- The last group may be an IPv4 address where `quadLast` is set. -/
def readGroups (quadLast : Bool) : List Str → Option (List UInt8)
  | [] => some []
  | [g] => if quadLast && g.contains '.' then (inetPton4 g).map Vector.toList else readGroup g
  | g :: gs =>
    match readGroup g, readGroups quadLast gs with
    | some b, some bs => some (b ++ bs)
    | _, _ => none

def groups (s : Str) : List Str := if s = [] then [] else s.splitOnP (· == ':')

/-- The bytes of an IPv6 address, with those that `::` stands for. -/
def readAddress6 (s : Str) : Option (List UInt8) :=
  match find [':', ':'] s with
  | none => readGroups true (s.splitOnP (· == ':'))
  | some i =>
    match readGroups false (groups (s.take i)), readGroups true (groups (s.drop (i + 2))) with
    | some left, some right =>
      if left.length + right.length ≤ 14 then
        some (left ++ List.replicate (16 - (left.length + right.length)) 0 ++ right)
      else none
    | _, _ => none

/-- `inet_pton(AF_INET6, …)`. -/
def inetPton6 (s : Str) : Option (Vector UInt8 16) :=
  match readAddress6 s with
  | some bytes => if h : bytes.length = 16 then some ⟨bytes.toArray, h⟩ else none
  | none => none

/-- `htonl` and `ntohl`. -/
def htonl (x : BitVec 32) : BitVec 32 := Words.swapBytes x

/-- The four bytes of an address, read as a word from memory. -/
def loadWord (a : Vector UInt8 4) : BitVec 32 :=
  Words.joinBytes (getElem a 3 fourth_lt).toBitVec (getElem a 2 third_lt).toBitVec
    (getElem a 1 second_lt).toBitVec (getElem a 0 first_lt).toBitVec

/-- The word of an address with its first byte the most significant one. -/
def hostWord (a : Vector UInt8 4) : BitVec 32 :=
  Words.joinBytes (getElem a 0 first_lt).toBitVec (getElem a 1 second_lt).toBitVec
    (getElem a 2 third_lt).toBitVec (getElem a 3 fourth_lt).toBitVec

example : inetPton6 "fe80::42:aeff:fe1f:b579".toList =
    some #v[254, 128, 0, 0, 0, 0, 0, 0, 0, 66, 174, 255, 254, 31, 181, 121] := by decide

theorem loadWord_eq (a : Vector UInt8 4) : loadWord a = htonl (hostWord a) :=
  (Words.swapBytes_joinBytes _ _ _ _).symm

end MVVM.Sockets
