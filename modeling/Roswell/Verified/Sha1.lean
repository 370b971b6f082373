import Roswell.Verified.Absorb
import Roswell.Verified.Endian

/-!
# SHA-1

The hash of FIPS 180 for messages of whole bytes: padding, the message schedule of
eighty words, the rounds with their functions and constants, and the digest.
-/

namespace Roswell.Verified.Sha1

open Absorb Endian

/-- Five words: a hash value, or the working variables of a round. -/
structure Regs where
  a : UInt32
  b : UInt32
  c : UInt32
  d : UInt32
  e : UInt32
  deriving DecidableEq, Repr

def rotl (w : UInt32) (k : UInt32) : UInt32 := (w <<< k) ||| (w >>> (32 - k))

/-- The message schedule, from the sixteen words of a block. -/
def schedule (m : Nat → UInt32) : Nat → UInt32
  | t + 16 =>
    rotl (schedule m (t + 13) ^^^ schedule m (t + 8) ^^^ schedule m (t + 2) ^^^ schedule m t) 1
  | t => m t

def ch (x y z : UInt32) : UInt32 := (x &&& y) ^^^ (~~~x &&& z)

def parity (x y z : UInt32) : UInt32 := x ^^^ y ^^^ z

def maj (x y z : UInt32) : UInt32 := (x &&& y) ^^^ (x &&& z) ^^^ (y &&& z)

def function (t : Nat) (x y z : UInt32) : UInt32 :=
  if t < 20 then ch x y z
  else if t < 40 then parity x y z
  else if t < 60 then maj x y z
  else parity x y z

def constant (t : Nat) : UInt32 :=
  if t < 20 then 0x5A827999
  else if t < 40 then 0x6ED9EBA1
  else if t < 60 then 0x8F1BBCDC
  else 0xCA62C1D6

/-- Round `t` with its word of the schedule. -/
def round (t : Nat) (w : UInt32) (r : Regs) : Regs :=
  ⟨rotl r.a 5 + function t r.b r.c r.d + r.e + constant t + w, r.a, rotl r.b 30, r.c, r.d⟩

/-- The first `t` rounds. -/
def rounds (m : Nat → UInt32) : Nat → Regs → Regs
  | 0, r => r
  | t + 1, r => round t (schedule m t) (rounds m t r)

/-- Word `t` of a block. -/
def blockWord (block : List UInt8) (t : Nat) : UInt32 :=
  le32 (block.getD (4 * t + 3) 0) (block.getD (4 * t + 2) 0) (block.getD (4 * t + 1) 0)
    (block.getD (4 * t) 0)

def add (x y : Regs) : Regs := ⟨x.a + y.a, x.b + y.b, x.c + y.c, x.d + y.d, x.e + y.e⟩

/-- The hash value after a block. -/
def compress (h : Regs) (block : List UInt8) : Regs := add h (rounds (blockWord block) 80 h)

def initial : Regs := ⟨0x67452301, 0xEFCDAB89, 0x98BADCFE, 0x10325476, 0xC3D2E1F0⟩

/-- Zero bytes between the end mark and the length: as few as let the length end a
block. -/
def zeros (length : Nat) : Nat := (119 - length % 64) % 64

/-- The message with its end mark and its length in bits. -/
def pad (message : List UInt8) : List UInt8 :=
  message ++ 0x80 :: List.replicate (zeros message.length) 0 ++
    beBytes (UInt32.ofNat (8 * message.length / 2 ^ 32)) ++
    beBytes (UInt32.ofNat (8 * message.length))

def digest (h : Regs) : List UInt8 :=
  beBytes h.a ++ beBytes h.b ++ beBytes h.c ++ beBytes h.d ++ beBytes h.e

def sha1 (message : List UInt8) : List UInt8 :=
  digest (absorb compress 64 initial (pad message)).1

end Roswell.Verified.Sha1
