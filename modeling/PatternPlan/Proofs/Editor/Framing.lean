import Mathlib
import PatternPlan.Proofs.Editor.Answers
import PatternPlan.Proofs.Number.Decimal
import PatternPlan.Proofs.Text.Utf8

/-!
# Frames are read back

A body is read by its length, so nothing in it is taken for a header or for the end of the body, and
what follows it is left for the next frame.

* `Frame.readHeader_line`, `Frame.readHeader_blank` — the two header lines of a frame;
* `Frame.read_write` — **a frame is read as its body**, whatever follows it;
* `Frame.length_rest_lt` — reading a frame takes at least one byte;
* `Frame.bodies?` — one frame after the other, up to the end of the stream;
* `Frame.bodies_read` — **frames one behind the other are read as their bodies**;
* `Server.serve?_frames` — a session over such a stream is the session with its messages.
-/

namespace PatternPlan

namespace Editor

namespace Frame

/-! ### Bytes of a header -/

theorem bytesOf_append (s t : String) : bytesOf (s ++ t) = bytesOf s ++ bytesOf t := by
  rw [bytesOf, bytesOf, bytesOf, Text.ofString, String.toList_append, List.map_append,
    Text.bytes_append]
  rfl

/-- The byte of a digit. -/
def digitByte (c : Char) : UInt8 := UInt8.ofNat c.toNat

/-- The length of a body as it is written. -/
def lengthBytes (n : Nat) : List UInt8 := (Decimal.digits n).map digitByte

theorem toNat_of_isDigit {c : Char} (h : Decimal.isDigit c = true) : 48 ≤ c.toNat ∧ c.toNat ≤ 57 := by
  rw [Decimal.isDigit, Bool.and_eq_true, decide_eq_true_eq, decide_eq_true_eq] at h
  exact ⟨UInt32.le_iff_toNat_le.mp h.1, UInt32.le_iff_toNat_le.mp h.2⟩

theorem toNat_digitByte {c : Char} (h : Decimal.isDigit c = true) :
    (digitByte c).toNat = c.toNat := by
  have hbound := (toNat_of_isDigit h).2
  exact Utf8.toNat_byte (by omega)

theorem encode_digit {c : Char} (h : Decimal.isDigit c = true) :
    String.utf8EncodeChar c = [digitByte c] := by
  have hbyte := toNat_digitByte h
  have hbound := (toNat_of_isDigit h).2
  have hencode := Utf8.encode_one (b := digitByte c) (by omega)
  rwa [hbyte, Char.ofNat_toNat] at hencode

theorem bytesOf_decimal (n : Nat) : bytesOf (decimal n) = lengthBytes n := by
  have hdigits : decimal n = String.ofList (Decimal.digits n) := by
    rw [decimal, if_neg (by omega), Int.natAbs_natCast]
  have hbytes : ∀ cs : List Char, (∀ c ∈ cs, Decimal.isDigit c = true) →
      Text.bytes (cs.map Glyph.char) = cs.map digitByte := by
    intro cs hcs
    induction cs with
    | nil => rfl
    | cons c cs ih =>
      obtain ⟨hc, hcs⟩ := List.forall_mem_cons.mp hcs
      rw [List.map_cons, Text.bytes_cons, Glyph.bytes, encode_digit hc, ih hcs, List.map_cons]
      rfl
  rw [hdigits, bytesOf, Text.ofString, String.toList_ofList]
  exact hbytes _ Decimal.isDigit_of_mem_digits

theorem lengthBytes_ne_nil (n : Nat) : lengthBytes n ≠ [] :=
  mt List.map_eq_nil_iff.mp (Decimal.digits_ne_nil n)

theorem digit_of_mem_lengthBytes {n : Nat} {b : UInt8} (h : b ∈ lengthBytes n) :
    48 ≤ b ∧ b ≤ 57 := by
  obtain ⟨c, hc, rfl⟩ := List.mem_map.mp h
  have hdigit := Decimal.isDigit_of_mem_digits c hc
  have hbound := toNat_of_isDigit hdigit
  rw [UInt8.le_iff_toNat_le, UInt8.le_iff_toNat_le, toNat_digitByte hdigit]
  exact hbound

/-- The first line of a frame. -/
def lengthLine (n : Nat) : List UInt8 := bytesOf lengthLabel ++ lengthBytes n

/-- A frame: the line with the length, an empty line, and the body. -/
theorem write_eq (body : List UInt8) :
    write body = (lengthLine body.length ++ [13]) ++ 10 :: ([13] ++ 10 :: body) := by
  rw [write, bytesOf_append, bytesOf_append, bytesOf_decimal, lengthLine,
    show bytesOf "\r\n\r\n" = [13, 10, 13, 10] from by decide]
  simp only [List.append_assoc, List.cons_append, List.nil_append]

/-! ### Lines -/

theorem splitLine?_append {line : List UInt8} (h : (10 : UInt8) ∉ line) (rest : List UInt8) :
    splitLine? (line ++ 10 :: rest) = some (line, rest) := by
  induction line with
  | nil => rfl
  | cons b line ih =>
    obtain ⟨hb, hline⟩ := not_or.mp (mt List.mem_cons.mpr h)
    rw [List.cons_append, splitLine?, if_neg (Ne.symm hb), ih hline]
    rfl

theorem trimReturns_append {line : List UInt8} {b : UInt8} (h : b ≠ 13) :
    trimReturns ((line ++ [b]) ++ [13]) = line ++ [b] := by
  rw [trimReturns, List.reverse_append, List.reverse_append]
  simp [h]

theorem stripBytes?_append (front bs : List UInt8) : stripBytes? front (front ++ bs) = some bs := by
  induction front with
  | nil => rfl
  | cons a front ih => rw [List.cons_append, stripBytes?, if_pos rfl, ih]

/-- The digits of a length are read as its numeral. -/
theorem chars_lengthBytes (n : Nat) :
    (lengthBytes n).map (fun b => Char.ofNat b.toNat) = Decimal.digits n := by
  rw [lengthBytes, List.map_map]
  refine (List.map_congr_left fun c hc => ?_).trans (List.map_id _)
  rw [Function.comp_apply, toNat_digitByte (Decimal.isDigit_of_mem_digits c hc), Char.ofNat_toNat]
  rfl

/-- A list of bytes that starts with no sign is a number without one. -/
theorem integer?_cons {d : UInt8} {more : List UInt8} (hdigits : ∀ b ∈ d :: more, 48 ≤ b ∧ b ≤ 57) :
    integer? (d :: more) =
      let i : Int := Decimal.value ((d :: more).map fun b => Char.ofNat b.toNat)
      if fitsInt64 i then some i else none := by
  have hd := (hdigits d List.mem_cons_self).1
  have hall : ((d :: more).all fun b => 48 ≤ b && b ≤ 57) = true := by
    rw [List.all_eq_true]
    exact fun b hb => by simpa using hdigits b hb
  have hminus : d ≠ 45 := by rintro rfl; exact absurd hd (by decide)
  have hplus : d ≠ 43 := by rintro rfl; exact absurd hd (by decide)
  unfold integer?
  split
  rename_i negative ds hsign
  split at hsign
  · rename_i heq
    exact absurd (List.cons.inj heq).1 hminus
  · rename_i heq
    exact absurd (List.cons.inj heq).1 hplus
  · obtain ⟨rfl, rfl⟩ := Prod.mk.inj hsign
    simp only [hall, List.isEmpty_cons, Bool.not_true, Bool.or_self, Bool.false_eq_true, if_false]

/-- The length of a body is read back, if a word can hold it. -/
theorem integer?_lengthBytes {n : Nat} (h : fitsInt64 n = true) :
    integer? (lengthBytes n) = some (n : Int) := by
  obtain ⟨d, more, hbytes⟩ := List.exists_cons_of_ne_nil (lengthBytes_ne_nil n)
  have hdigits : ∀ b ∈ d :: more, 48 ≤ b ∧ b ≤ 57 :=
    fun b hb => digit_of_mem_lengthBytes (hbytes ▸ hb)
  rw [hbytes, integer?_cons hdigits, ← hbytes, chars_lengthBytes, Decimal.value_digits]
  exact if_pos h

/-! ### Headers -/

/-- What a header line that is not empty leads to. -/
theorem readHeader_line {known known' : Option Nat} {bs line rest : List UInt8}
    (hsplit : splitLine? bs = some (line, rest)) (hline : trimReturns line ≠ [])
    (hlength : headerLength known (trimReturns line) = .ok known') :
    readHeader known bs = readHeader known' rest := by
  rw [readHeader]
  split
  · rename_i hnone
    rw [hsplit] at hnone
    cases hnone
  · rename_i line' rest' hsome
    cases hsplit.symm.trans hsome
    rw [if_neg (by simpa using hline)]
    split
    · rename_i e herror
      rw [hlength] at herror
      cases herror
    · rename_i known'' hok
      cases hlength.symm.trans hok
      rfl

/-- An empty line ends a header that tells the length. -/
theorem readHeader_blank {n : Nat} {bs line rest : List UInt8}
    (hsplit : splitLine? bs = some (line, rest)) (hline : trimReturns line = []) :
    readHeader (some n) bs = readBody n rest := by
  rw [readHeader]
  split
  · rename_i hnone
    rw [hsplit] at hnone
    cases hnone
  · rename_i line' rest' hsome
    cases hsplit.symm.trans hsome
    rw [if_pos (by simpa using hline)]

theorem newline_not_mem_lengthLine (n : Nat) : (10 : UInt8) ∉ lengthLine n ++ [13] := by
  intro h
  rcases List.mem_append.mp h with h | h
  · rcases List.mem_append.mp h with h | h
    · exact absurd h (by decide)
    · exact absurd (digit_of_mem_lengthBytes h).1 (by decide)
  · exact absurd h (by decide)

theorem trimReturns_lengthLine (n : Nat) : trimReturns (lengthLine n ++ [13]) = lengthLine n := by
  have hne := lengthBytes_ne_nil n
  have hlast := digit_of_mem_lengthBytes (List.getLast_mem hne)
  have hreturn : (lengthBytes n).getLast hne ≠ 13 := by
    intro heq
    rw [heq] at hlast
    exact absurd hlast.1 (by decide)
  rw [lengthLine, ← List.dropLast_append_getLast hne, ← List.append_assoc]
  exact trimReturns_append hreturn

theorem readBody_append (body rest : List UInt8) :
    readBody body.length (body ++ rest) = .message body rest := by
  rw [readBody, if_pos (by rw [List.length_append]; omega), List.take_left, List.drop_left]

/-- **A frame is read as its body**, and what follows it is left. -/
theorem read_write {body : List UInt8} (h : fitsInt64 body.length = true) (rest : List UInt8) :
    read (write body ++ rest) = .message body rest := by
  have hlength : headerLength none (lengthLine body.length) = .ok (some body.length) := by
    rw [headerLength, lengthLine, stripBytes?_append]
    simp only [integer?_lengthBytes h]
    rw [if_neg (by omega), Int.toNat_natCast]
  have hne : lengthLine body.length ≠ [] := by
    rw [lengthLine]
    exact List.append_ne_nil_of_left_ne_nil (by decide) _
  have hfirst : splitLine? (write body ++ rest) =
      some (lengthLine body.length ++ [13], [13] ++ 10 :: (body ++ rest)) := by
    rw [write_eq, List.append_assoc, List.cons_append,
      splitLine?_append (newline_not_mem_lengthLine _), List.append_assoc, List.cons_append]
    rfl
  have hsecond : splitLine? ([13] ++ 10 :: (body ++ rest)) = some ([13], body ++ rest) :=
    splitLine?_append (by decide) _
  rw [read, readHeader_line hfirst (by rwa [trimReturns_lengthLine])
      (by rw [trimReturns_lengthLine]; exact hlength),
    readHeader_blank hsecond (by decide), readBody_append]

/-! ### Streams -/

/-- **Reading takes at least one byte of a stream.** -/
theorem length_rest_lt {known : Option Nat} {bs body rest : List UInt8}
    (h : readHeader known bs = .message body rest) : rest.length < bs.length := by
  fun_induction readHeader known bs with
  | case1 | case2 => cases h
  | case3 bs line after hsplit hlt hblank n =>
    rw [readBody] at h
    split at h
    · cases h
      rw [List.length_drop]
      omega
    · split at h <;> cases h
  | case4 bs line after hsplit hlt hblank ih => exact (ih h).trans hlt
  | case5 => cases h
  | case6 known bs line after hsplit hlt hblank known' hknown ih => exact (ih h).trans hlt

/-- The bodies of a stream, read one frame after the other up to its end; `none` if a part of it is no
frame. -/
def bodies? (bs : List UInt8) : Option (List (List UInt8)) :=
  match h : read bs with
  | .message body rest =>
    have := length_rest_lt h
    (bodies? rest).map (body :: ·)
  | .finished => some []
  | .failed _ => none
  | .unbounded => none
termination_by bs.length

/-- A stream that is at its end holds no frame. -/
theorem read_nil : read [] = .finished := by
  rw [read, readHeader]
  simp [splitLine?, Text.ofBytes_nil, Text.trim]

theorem bodies?_nil : bodies? [] = some [] := by
  rw [bodies?]
  split <;> rename_i h <;> rw [read_nil] at h <;> cases h

theorem bodies?_of_message {bs body rest : List UInt8} (h : read bs = .message body rest) :
    bodies? bs = (bodies? rest).map (body :: ·) := by
  rw [bodies?]
  split <;> rename_i h' <;> rw [h] at h' <;> cases h'
  rfl

/-- **Frames one behind the other are read as their bodies**, in order, and then the stream is at its
end.  Whatever stands behind a frame, reading it takes the bytes of the frame and no others.  A length is
a signed word of 64 bits, also that of a body; what a body is made of does not matter. -/
theorem bodies_read (bodies : List (List UInt8))
    (hfits : ∀ body ∈ bodies, fitsInt64 body.length = true) :
    bodies? (bodies.flatMap write) = some bodies ∧
    ∀ body ∈ bodies, ∀ rest, read (write body ++ rest) = .message body rest := by
  refine ⟨?_, fun body hbody rest => read_write (hfits body hbody) rest⟩
  induction bodies with
  | nil => exact bodies?_nil
  | cons body bodies ih =>
    obtain ⟨hbody, hbodies⟩ := List.forall_mem_cons.mp hfits
    rw [List.flatMap_cons, bodies?_of_message (read_write hbody _), ih hbodies]
    rfl

/-! A body that reads like a frame, between an empty one and one of line breaks. -/

def framedBodies : List (List UInt8) := [[], write [49, 50], [13, 10, 10]]

theorem bodies_read_framed : (∀ body ∈ framedBodies, fitsInt64 body.length = true) ∧
    bodies? (framedBodies.flatMap write) = some framedBodies ∧
    ∀ rest, read (write (write [49, 50]) ++ rest) = .message (write [49, 50]) rest := by
  have hfits : ∀ body ∈ framedBodies, fitsInt64 body.length = true := by decide +kernel
  obtain ⟨hbodies, hread⟩ := bodies_read framedBodies hfits
  exact ⟨hfits, hbodies, hread _ (List.mem_cons_of_mem _ List.mem_cons_self)⟩

end Frame

/-! ### Sessions -/

theorem Frame.one_le_length_write (body : List UInt8) : 1 ≤ (write body).length := by
  rw [write_eq]
  simp only [List.length_append, List.length_cons]
  omega

namespace Server

/-- One message of a stream. -/
theorem serveUpTo?_message (s : Server) (fuel : Nat) {bs body rest : List UInt8}
    (h : Frame.read bs = .message body rest) :
    s.serveUpTo? (fuel + 1) bs = (s.handle? body).bind fun r =>
      if r.done then some ⟨r.sent, none⟩
      else (r.server.serveUpTo? fuel rest).bind fun e => some ⟨r.sent ++ e.sent, e.error⟩ := by
  rw [serveUpTo?, h]
  rfl

/-- Enough steps for the messages of a stream. -/
theorem serveUpTo?_frames (s : Server) {bodies : List (List UInt8)}
    (hfits : ∀ body ∈ bodies, fitsInt64 body.length = true) {fuel : Nat}
    (hfuel : bodies.length < fuel) :
    s.serveUpTo? fuel (bodies.flatMap Frame.write) =
      (s.outcomes? bodies).map fun rs => ⟨rs.flatMap Outcome.sent, none⟩ := by
  obtain ⟨fuel, rfl⟩ := Nat.exists_eq_succ_of_ne_zero (Nat.ne_zero_of_lt hfuel)
  induction bodies generalizing s fuel with
  | nil =>
    rw [List.flatMap_nil, serveUpTo?, Frame.read_nil]
    rfl
  | cons body bodies ih =>
    obtain ⟨hbody, hbodies⟩ := List.forall_mem_cons.mp hfits
    rw [List.flatMap_cons, serveUpTo?_message s fuel (Frame.read_write hbody _), outcomes?]
    cases hr : s.handle? body with
    | none => rfl
    | some r =>
      rw [List.length_cons] at hfuel
      obtain ⟨fuel, rfl⟩ := Nat.exists_eq_succ_of_ne_zero (show fuel ≠ 0 by omega)
      rw [Option.bind_some, Option.bind_eq_bind, Option.bind_some]
      by_cases hdone : r.done = true
      · rw [if_pos hdone, if_pos hdone, Option.map_some, List.flatMap_singleton]
      · rw [if_neg hdone, if_neg hdone, ih r.server hbodies fuel (by omega)]
        cases r.server.outcomes? bodies <;> rfl

/-- **A session over a stream of frames** is the session with the messages in them. -/
theorem serve?_frames (s : Server) {bodies : List (List UInt8)}
    (hfits : ∀ body ∈ bodies, fitsInt64 body.length = true) :
    s.serve? (bodies.flatMap Frame.write) =
      (s.outcomes? bodies).map fun rs => ⟨rs.flatMap Outcome.sent, none⟩ := by
  refine s.serveUpTo?_frames hfits (Nat.lt_succ_of_le ?_)
  induction bodies with
  | nil => exact Nat.le_refl 0
  | cons body bodies ih =>
    have hbodies := ih (List.forall_mem_cons.mp hfits).2
    have hbody := Frame.one_le_length_write body
    rw [List.flatMap_cons, List.length_append, List.length_cons]
    omega

end Server

end Editor

end PatternPlan
