import Equate.Bytes
/-!
# 64-bit hashing

Words are folded into a running state by a mixing function that wraps modulo 2^64, so a hash is
the same on every machine. Byte strings are hashed to a word first.
-/

namespace Equate

/-- Three xor-shifts and two multiplications by odd constants. -/
def mix (x : UInt64) : UInt64 :=
  let x := (x ^^^ (x >>> 30)) * 0xbf58476d1ce4e5b9
  let x := (x ^^^ (x >>> 27)) * 0x94d049bb133111eb
  x ^^^ (x >>> 31)

/-- The 64-bit FNV-1a hash of a byte string. -/
def fnv1a (s : Bytes) : UInt64 :=
  s.foldl (fun h b => (h ^^^ b.toUInt64) * 0x100000001b3) 0xcbf29ce484222325

/-- A hash under construction. -/
structure Hasher where
  state : UInt64
  deriving DecidableEq, Repr

namespace Hasher

def start (seed : UInt64) : Hasher := ⟨mix seed⟩

/-- Folds one word in. -/
def add (h : Hasher) (word : UInt64) : Hasher :=
  ⟨h.state ^^^
    (mix word + 0x9e3779b97f4a7c15 + h.state <<< (6 : UInt64) + h.state >>> (2 : UInt64))⟩

/-- Folds words in from left to right. -/
def addAll (h : Hasher) (words : List UInt64) : Hasher := words.foldl add h

def finish (h : Hasher) : UInt64 := mix h.state

end Hasher

end Equate
