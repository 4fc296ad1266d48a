/-
  Settle.Digest — stable hashes and deterministic sampling.

  Digests of compiled graphs, keys of dirty sets and sampling decisions are functions
  of their inputs alone. All are FNV-1a or its integer mixer: not collision-proof, the
  same on every run.
-/

namespace Settle.Digest

def offset64 : UInt64 := 0xcbf29ce484222325
def prime64 : UInt64 := 0x00000100000001b3
def offset32 : UInt32 := 0x811c9dc5
def prime32 : UInt32 := 0x01000193

/-- The bytes of a text. -/
def bytes (s : String) : List UInt8 := s.toUTF8.data.toList

/-- Mix bytes into a hash: one exclusive or and one product each. -/
def mix (hash : UInt64) (bs : List UInt8) : UInt64 :=
  bs.foldl (fun h b => (h ^^^ b.toUInt64) * prime64) hash

/-- The four bytes of a word, lowest first. -/
def word (n : UInt32) : List UInt8 :=
  [n.toUInt8, (n >>> 8).toUInt8, (n >>> 16).toUInt8, (n >>> 24).toUInt8]

def ofBytes (bs : List UInt8) : UInt64 := mix offset64 bs

def ofText (s : String) : UInt64 := ofBytes (bytes s)

/-- Hash of path segments, a dot between two of them. -/
def ofSegments (segments : List String) : UInt64 :=
  ofBytes ((segments.map bytes).intersperse [46]).flatten

/-- Hash of a list of ids, one exclusive or and one product per id. -/
def ofIds (ids : List Nat) : UInt32 :=
  ids.foldl (fun h id => (h ^^^ id.toUInt32) * prime32) offset32

/-- Integer mixer behind the sampling decisions. -/
def scramble (x : UInt32) : UInt32 := (x ^^^ 0x9e3779b9) * 0x85ebca6b

/-- Whether the sequence number falls into a sample of this rate. Rates at or below zero
and rates that are not finite take nothing, rates from one on take everything. -/
def sampled (seq : UInt64) (rate : Float) : Bool :=
  if !rate.isFinite || rate ≤ 0.0 then false
  else if 1.0 ≤ rate then true
  else (scramble seq.toUInt32).toFloat / (0xffffffff : UInt32).toFloat < rate

end Settle.Digest
