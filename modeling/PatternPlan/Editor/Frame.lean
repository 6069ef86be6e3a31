import PatternPlan.Number.Decimal
import PatternPlan.Text.Glyph

/-!
# Framed messages

A message is sent as header lines, an empty line, and its body.  The header tells the length of
the body in bytes; header lines that say something else are skipped.

* `Frame.write` — the frame of a body;
* `Frame.read` — the first body of a stream and what follows it, the end of the stream, or the
  part of a frame that cannot be read.
-/

namespace PatternPlan

namespace Editor

/-- The part of a frame that cannot be read. -/
inductive FrameError where
  | header
  | length
  | body
deriving DecidableEq

/-- What went wrong. -/
def FrameError.message : FrameError → String
  | header => "reading header"
  | length => "parsing Content-Length"
  | body => "reading content"

/-- The outcome of reading a frame.  A body that no memory can hold is `unbounded`. -/
inductive Frame.Outcome where
  | message (body rest : List UInt8)
  | finished
  | failed (e : FrameError)
  | unbounded

namespace Frame

/-- The bytes of a string. -/
def bytesOf (s : String) : List UInt8 := (Text.ofString s).bytes

/-- How the header line with the length starts. -/
def lengthLabel : String := "Content-Length: "

/-- The frame of a body. -/
def write (body : List UInt8) : List UInt8 :=
  bytesOf (lengthLabel ++ decimal body.length ++ "\r\n\r\n") ++ body

/-- The first line without its newline, and what follows the newline. -/
def splitLine? : List UInt8 → Option (List UInt8 × List UInt8)
  | [] => none
  | b :: bs => if b = 10 then some ([], bs) else (splitLine? bs).map fun r => (b :: r.1, r.2)

theorem splitLine?_rest_length {bs line rest : List UInt8} (h : splitLine? bs = some (line, rest)) :
    rest.length < bs.length := by
  induction bs generalizing line with
  | nil => simp [splitLine?] at h
  | cons b bs ih =>
    rw [splitLine?] at h
    split at h
    · cases h
      simp
    · obtain ⟨r, hr, he⟩ := Option.map_eq_some_iff.1 h
      cases he
      have := ih hr
      simp only [List.length_cons]
      omega

/-- A line without the carriage returns at its end. -/
def trimReturns (line : List UInt8) : List UInt8 := (line.reverse.dropWhile (· = 13)).reverse

/-- What follows some bytes at the front. -/
def stripBytes? : (front bs : List UInt8) → Option (List UInt8)
  | [], bs => some bs
  | a :: as, b :: bs => if a = b then stripBytes? as bs else none
  | _ :: _, [] => none

/-- A whole number of 64 bits with an optional sign. -/
def integer? (bs : List UInt8) : Option Int :=
  let (negative, ds) : Bool × List UInt8 := match bs with
    | 45 :: ds => (true, ds)
    | 43 :: ds => (false, ds)
    | ds => (false, ds)
  if ds.isEmpty || !ds.all (fun b => 48 ≤ b && b ≤ 57) then none
  else
    let n : Int := Decimal.value (ds.map fun b => Char.ofNat b.toNat)
    let i := if negative then -n else n
    if fitsInt64 i then some i else none

/-- The number of bytes that can be addressed. -/
def addressSpace : Nat := 281474976710656

/-- Reads the body after its header. -/
def readBody (length : Nat) (bs : List UInt8) : Outcome :=
  if length ≤ bs.length then .message (bs.take length) (bs.drop length)
  else if length ≤ addressSpace then .failed .body
  else .unbounded

/-- The length after a header line that is not empty: a negative one counts as none. -/
def headerLength (known : Option Nat) (line : List UInt8) : Except FrameError (Option Nat) :=
  match stripBytes? (bytesOf lengthLabel) line with
  | none => .ok known
  | some v => match integer? v with
    | none => .error .length
    | some i => .ok (if i < 0 then none else some i.toNat)

/-- Reads header lines, the length being known or not, and the body. -/
def readHeader (known : Option Nat) (bs : List UInt8) : Outcome :=
  match h : splitLine? bs with
  | none =>
    if known.isNone && (Text.trim (Text.ofBytes bs)).isEmpty then .finished else .failed .header
  | some (line, rest) =>
    have := splitLine?_rest_length h
    if (trimReturns line).isEmpty then
      match known with
      | some n => readBody n rest
      | none => readHeader none rest
    else match headerLength known (trimReturns line) with
      | .error e => .failed e
      | .ok known => readHeader known rest
termination_by bs.length

/-- Reads the first frame of a stream. -/
def read (bs : List UInt8) : Outcome := readHeader none bs

end Frame

end Editor

end PatternPlan
