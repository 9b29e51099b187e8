import LittleJ.Measure.Datum
import LittleJ.Measure.Digest
import LittleJ.Number.Fixed

/-!
# Fingerprints

A fingerprint is the digest of a stream of bytes that a value is written to. Floats are rounded to
six digits, entries and elements without an order are written in the order of their fingerprints,
and what lies too deep or too far back in a list is left out. So results that differ only in what is
of no matter have one fingerprint.
-/

namespace LittleJ.Measure

namespace Fingerprint

/-- How deep a value is written. -/
def deepest : Nat :=
  8

/-- How many elements of a list are written. -/
def longest : Nat :=
  2000

/-- How many digits of a float count. -/
def floatDigits : Nat :=
  6

/-- The bytes of a text. -/
def textBytes (s : String) : List UInt8 :=
  s.toUTF8.toList

/-- A float as far as it counts. -/
def roundedFloat (x : Float) : Float :=
  Number.significant floatDigits x

/-- A letter and a count, with which a collection starts. -/
def opening (letter : String) (count : Nat) : List UInt8 :=
  textBytes (letter ++ Number.integerText count)

/-- Streams in the order of their keys. -/
def inOrder (streams : List (String × List UInt8)) : List UInt8 :=
  (streams.mergeSort fun a b => decide (a.1 ≤ b.1)).flatMap Prod.snd

mutual

/-- The stream of a value that lies at a depth. -/
def stream (depth : Nat) (v : Datum) : List UInt8 :=
  if deepest < depth then textBytes "~"
  else
    match v with
    | .float x => textBytes (Number.listed (roundedFloat x))
    | .complex re im => textBytes (Datum.complexText (roundedFloat re) (roundedFloat im))
    | .str s => textBytes ("s" ++ s)
    | .bytes _ bs => textBytes "s" ++ bs
    | .list xs => opening "L" xs.length ++ streamItems (depth + 1) longest xs
    | .tuple xs => opening "L" xs.length ++ streamItems (depth + 1) longest xs
    | .set xs => opening "S" xs.length ++ inOrder (elementStreams (depth + 1) xs)
    | .dict es => opening "D" es.length ++ inOrder (entryStreams (depth + 1) es)
    | .record fs => opening "D" fs.length ++ inOrder (fieldStreams (depth + 1) fs)
    | .bare => textBytes "<builtins.object>"
    | v => textBytes v.print

/-- The streams of at most `count` values, one behind the other. -/
def streamItems (depth : Nat) : Nat → List Datum → List UInt8
  | 0, _ => []
  | _, [] => []
  | count + 1, x :: xs => stream depth x ++ streamItems depth count xs

/-- The streams of elements, each with its digest. -/
def elementStreams (depth : Nat) : List Datum → List (String × List UInt8)
  | [] => []
  | x :: xs => (Digest.hex (stream 0 x), stream depth x) :: elementStreams depth xs

/-- The streams of entries, each with the digest of its key. -/
def entryStreams (depth : Nat) : List (Datum × Datum) → List (String × List UInt8)
  | [] => []
  | (k, v) :: es =>
    (Digest.hex (stream 0 k), stream depth k ++ stream depth v) :: entryStreams depth es

/-- The streams of fields, each with the digest of its name. -/
def fieldStreams (depth : Nat) : List (String × Datum) → List (String × List UInt8)
  | [] => []
  | (k, v) :: fs =>
    (Digest.hex (textBytes ("s" ++ k)), textBytes ("s" ++ k) ++ stream depth v) ::
    fieldStreams depth fs

end

end Fingerprint

/-- The fingerprint of a value. -/
def fingerprint (v : Datum) : String :=
  Digest.hex (Fingerprint.stream 0 v)

end LittleJ.Measure
