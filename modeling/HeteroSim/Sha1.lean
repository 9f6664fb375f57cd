import Mathlib.Data.List.GetD

/-!
SHA-1 of a text of bytes, and its digest in hexadecimal.
-/

namespace HeteroSim.Sha1

structure State where
  a : UInt32
  b : UInt32
  c : UInt32
  d : UInt32
  e : UInt32

def initial : State where
  a := 0x67452301
  b := 0xEFCDAB89
  c := 0x98BADCFE
  d := 0x10325476
  e := 0xC3D2E1F0

def State.add (s t : State) : State where
  a := s.a + t.a
  b := s.b + t.b
  c := s.c + t.c
  d := s.d + t.d
  e := s.e + t.e

def rotl (n : UInt32) (x : UInt32) : UInt32 := (x <<< n) ||| (x >>> (32 - n))

/-- The function and the constant of round `t`. -/
def mixed (t : Nat) (s : State) : UInt32 :=
  if t < 20 then ((s.b &&& s.c) ||| ((s.b ^^^ 0xFFFFFFFF) &&& s.d)) + 0x5A827999
  else if t < 40 then (s.b ^^^ s.c ^^^ s.d) + 0x6ED9EBA1
  else if t < 60 then ((s.b &&& s.c) ||| (s.b &&& s.d) ||| (s.c &&& s.d)) + 0x8F1BBCDC
  else (s.b ^^^ s.c ^^^ s.d) + 0xCA62C1D6

def round (t : Nat) (word : UInt32) (s : State) : State where
  a := rotl 5 s.a + mixed t s + s.e + word
  b := s.a
  c := rotl 30 s.b
  d := s.c
  e := s.d

def rounds : Nat → List UInt32 → State → State
  | _, [], s => s
  | t, word :: rest, s => rounds (t + 1) rest (round t word s)

/-- `n` further words of the schedule, which is kept last word first. -/
def extend : Nat → List UInt32 → List UInt32
  | 0, words => words
  | n + 1, words =>
      extend n (rotl 1 (words.getD 2 0 ^^^ words.getD 7 0 ^^^ words.getD 13 0 ^^^ words.getD 15 0)
        :: words)

def wordsOf : List UInt8 → List UInt32
  | p :: q :: r :: s :: rest =>
      ((p.toUInt32 <<< 24) ||| (q.toUInt32 <<< 16) ||| (r.toUInt32 <<< 8) ||| s.toUInt32)
        :: wordsOf rest
  | _ => []

def compress (s : State) (block : List UInt8) : State :=
  s.add (rounds 0 (extend 64 (wordsOf block).reverse).reverse s)

/-- As many bytes of `n`, the highest first. -/
def bigEndian : Nat → Nat → List UInt8
  | 0, _ => []
  | bytes + 1, n => bigEndian bytes (n / 256) ++ [n.toUInt8]

/-- A one bit, zeros up to eight bytes before the end of a block, and the length in bits. -/
def padded (message : List UInt8) : List UInt8 :=
  message ++ 0x80 :: List.replicate ((119 - message.length % 64) % 64) 0 ++
    bigEndian 8 (8 * message.length)

def blocks : Nat → List UInt8 → List (List UInt8)
  | 0, _ => []
  | count + 1, bytes => bytes.take 64 :: blocks count (bytes.drop 64)

def sha1 (message : List UInt8) : State :=
  (blocks ((padded message).length / 64) (padded message)).foldl compress initial

def hexDigits : List Char :=
  ['0', '1', '2', '3', '4', '5', '6', '7', '8', '9', 'a', 'b', 'c', 'd', 'e', 'f']

/-- As many figures of `n` in hexadecimal, the highest first. -/
def hex : Nat → Nat → List Char
  | 0, _ => []
  | figures + 1, n => hex figures (n / 16) ++ [hexDigits.getD (n % 16) '0']

def hexdigest (message : List UInt8) : List Char :=
  let s := sha1 message
  [s.a, s.b, s.c, s.d, s.e].flatMap fun word => hex 8 word.toNat

theorem hex_length (figures n : Nat) : (hex figures n).length = figures := by
  induction figures generalizing n with
  | zero => rfl
  | succ figures ih => rw [hex, List.length_append, ih, List.length_singleton]

theorem hex_digits (figures n : Nat) : ∀ c ∈ hex figures n, c ∈ hexDigits := by
  induction figures generalizing n with
  | zero => exact fun c member => absurd member List.not_mem_nil
  | succ figures ih =>
      intro c member
      rcases List.mem_append.mp member with high | low
      · exact ih (n / 16) c high
      · have small : n % 16 < hexDigits.length := Nat.mod_lt n (by decide)
        rw [List.mem_singleton.mp low, List.getD_eq_getElem _ _ small]
        exact List.getElem_mem small

theorem hexdigest_length (message : List UInt8) : (hexdigest message).length = 40 := by
  simp [hexdigest, hex_length]

theorem hexdigest_digits (message : List UInt8) : ∀ c ∈ hexdigest message, c ∈ hexDigits := by
  intro c member
  obtain ⟨word, _, figure⟩ := List.mem_flatMap.mp member
  exact hex_digits 8 word.toNat c figure

-- The digest of "abc".
example : hexdigest [0x61, 0x62, 0x63] =
    "a9993e364706816aba3e25717850c26c9cd0d89d".toList := by decide +kernel

end HeteroSim.Sha1
