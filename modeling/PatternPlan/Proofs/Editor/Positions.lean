import Mathlib
import PatternPlan.Proofs.Editor.Documents

/-!
# Places and offsets

Offsets into a content are counted through, places line by line.

* `lines`, `lineStart` — the lines of a content, and where each of them starts;
* `lines_induction` — a content is its last line, or a line in front of another content;
* `IsLine` — the lines by number, found along the content;
* `Position.offset_of_line`, `Position.offset_past` — the offset of a place;
* `Position.ofOffset_line` — the place of an offset that is so and so far behind the start of a line;
* `exists_line` — every offset is in a line;
* `Position.atEnd_eq_lines` — the end of a content is behind its last line;
* `TextEdit` — an edit of a content, and the content after it;
* `positions_inverse` — **places and offsets are the same thing**, in the same order, and the edit that
  formats a document takes the place of the whole of it.
-/

namespace PatternPlan

namespace Editor

/-! ### Lines -/

/-- The lines of a content, without the bytes that end them. -/
def lines (content : List UInt8) : List (List UInt8) := content.splitOn newline

/-- Where a line starts: behind the lines before it and the bytes that end them. -/
def lineStart (content : List UInt8) (n : Nat) : Nat :=
  (((lines content).take n).map fun line => line.length + 1).sum

theorem lines_of_not_mem {line : List UInt8} (h : newline ∉ line) : lines line = [line] :=
  List.splitOn_eq_singleton h

theorem lines_append {line : List UInt8} (h : newline ∉ line) (rest : List UInt8) :
    lines (line ++ newline :: rest) = line :: lines rest :=
  List.splitOn_append_cons_self_of_not_mem h rest

/-- The bytes of a line are other ones than the one that ends it. -/
theorem forall_ne_newline {line : List UInt8} (h : newline ∉ line) :
    ∀ b ∈ line, decide (b ≠ newline) = true := fun _ hb => decide_eq_true fun heq => h (heq ▸ hb)

/-- Behind a line is the end, or the byte that ends the line. -/
def BehindLine (tail : List UInt8) : Prop := tail = [] ∨ ∃ rest, tail = newline :: rest

theorem behindLine_nil : BehindLine [] := .inl rfl

theorem behindLine_cons (rest : List UInt8) : BehindLine (newline :: rest) := .inr ⟨rest, rfl⟩

theorem firstLine_append {line tail : List UInt8} (h : newline ∉ line) (htail : BehindLine tail) :
    firstLine (line ++ tail) = line := by
  rw [firstLine, List.takeWhile_append_of_pos (forall_ne_newline h)]
  rcases htail with rfl | ⟨rest, rfl⟩
  · rw [List.takeWhile_nil, List.append_nil]
  · rw [List.takeWhile_cons_of_neg (by simp), List.append_nil]

theorem fromBreak_append {line tail : List UInt8} (h : newline ∉ line) (htail : BehindLine tail) :
    fromBreak (line ++ tail) = tail := by
  rw [fromBreak, List.dropWhile_append_of_pos (forall_ne_newline h)]
  rcases htail with rfl | ⟨rest, rfl⟩
  · exact List.dropWhile_nil
  · exact List.dropWhile_cons_of_neg (by simp)

/-- A content is its last line, or a line in front of another content. -/
@[elab_as_elim]
theorem lines_induction {P : List UInt8 → Prop} (last : ∀ line, newline ∉ line → P line)
    (cons : ∀ line rest, newline ∉ line → P rest → P (line ++ newline :: rest))
    (content : List UInt8) : P content := by
  induction hn : content.length using Nat.strong_induction_on generalizing content with
  | _ n ih =>
    by_cases h : newline ∈ content
    · obtain ⟨line, rest, rfl, hline⟩ := List.eq_append_cons_of_mem h
      refine cons line rest hline (ih rest.length ?_ rest rfl)
      rw [← hn, List.length_append, List.length_cons]
      omega
    · exact last content h

theorem lineStart_zero (content : List UInt8) : lineStart content 0 = 0 := rfl

theorem lineStart_succ {line : List UInt8} (h : newline ∉ line) (rest : List UInt8) (n : Nat) :
    lineStart (line ++ newline :: rest) (n + 1) = line.length + 1 + lineStart rest n := by
  rw [lineStart, lines_append h, List.take_succ_cons, List.map_cons, List.sum_cons, lineStart]

/-- The lines of a content by number: the first one, or a line of what follows the first one. -/
inductive IsLine : (content : List UInt8) → (n : Nat) → (line : List UInt8) → Prop
  | first {line tail : List UInt8} (hline : newline ∉ line) (htail : BehindLine tail) :
    IsLine (line ++ tail) 0 line
  | later {first rest line : List UInt8} {n : Nat} (hfirst : newline ∉ first)
    (h : IsLine rest n line) : IsLine (first ++ newline :: rest) (n + 1) line

/-- A content without an end of line is its own first line. -/
theorem isLine_sole {line : List UInt8} (h : newline ∉ line) : IsLine line 0 line := by
  have hfirst := IsLine.first h behindLine_nil
  rwa [List.append_nil] at hfirst

theorem isLine_iff {content line : List UInt8} {n : Nat} :
    IsLine content n line ↔ (lines content)[n]? = some line := by
  constructor
  · intro h
    induction h with
    | first hline htail =>
      rcases htail with rfl | ⟨rest, rfl⟩
      · rw [List.append_nil, lines_of_not_mem hline]
        rfl
      · rw [lines_append hline]
        rfl
    | later hfirst _ ih => rwa [lines_append hfirst, List.getElem?_cons_succ]
  · intro h
    induction content using lines_induction generalizing n with
    | last sole hsole =>
      rw [lines_of_not_mem hsole] at h
      cases n with
      | zero =>
        cases h
        exact isLine_sole hsole
      | succ n => cases h
    | cons first rest hfirst ih =>
      rw [lines_append hfirst] at h
      cases n with
      | zero =>
        cases h
        exact .first hfirst (behindLine_cons rest)
      | succ n => exact .later hfirst (ih h)

/-- A place that is in a line of a content: so many bytes behind the start of the line, at most as many
as the line has. -/
def InLine (content : List UInt8) (n c : Nat) : Prop :=
  ∃ line, IsLine content n line ∧ c ≤ line.length

/-! ### The offset of a place -/

/-- What follows some lines starts where the next line starts, and begins with it. -/
theorem skipLines_of_some {content line : List UInt8} {n : Nat} (h : IsLine content n line) :
    ∃ rest, skipLines n content = some (lineStart content n, rest) ∧ firstLine rest = line := by
  induction h with
  | first hline htail => exact ⟨_, rfl, firstLine_append hline htail⟩
  | later hfirst _ ih =>
    obtain ⟨more, hskip, hline⟩ := ih
    have htail := behindLine_cons
    refine ⟨more, ?_, hline⟩
    simp only [skipLines, fromBreak_append hfirst (htail _), firstLine_append hfirst (htail _), hskip,
      Option.map_some, lineStart_succ hfirst]

theorem skipLines_of_none {content : List UInt8} {n : Nat} (h : (lines content)[n]? = none) :
    skipLines n content = none := by
  induction content using lines_induction generalizing n with
  | last sole hsole =>
    rw [lines_of_not_mem hsole] at h
    cases n with
    | zero => cases h
    | succ n =>
      have hnil : fromBreak sole = [] := by
        rw [← List.append_nil sole]
        exact fromBreak_append hsole behindLine_nil
      simp only [skipLines, hnil]
  | cons first rest hfirst ih =>
    rw [lines_append hfirst] at h
    cases n with
    | zero => cases h
    | succ n =>
      rw [List.getElem?_cons_succ] at h
      simp only [skipLines, fromBreak_append hfirst (behindLine_cons rest), ih h, Option.map_none]

namespace Position

/-- **The offset of a place**: behind the start of its line, as far as the line goes. -/
theorem offset_of_line {content line : List UInt8} {p : Position}
    (h : IsLine content p.line.toNat line) :
    p.offset content = lineStart content p.line.toNat + min p.character line.length := by
  obtain ⟨rest, hskip, rfl⟩ := skipLines_of_some h
  rw [offset, hskip]

/-- Where there is no line is the end. -/
theorem offset_past {content : List UInt8} {p : Position}
    (h : (lines content)[p.line.toNat]? = none) : p.offset content = content.length := by
  rw [offset, skipLines_of_none h]

/-! ### The place of an offset -/

/-- Behind an end of line, only what follows it counts for the place in the line. -/
theorem takeWhile_append_newline (xs ys : List UInt8) :
    (xs ++ newline :: ys).takeWhile (· ≠ newline) = xs.takeWhile (· ≠ newline) := by
  induction xs with
  | nil => rfl
  | cons x xs ih =>
    rw [List.cons_append, List.takeWhile_cons, List.takeWhile_cons, ih]

theorem behind_of_not_mem {line : List UInt8} (h : newline ∉ line) :
    behind line = ⟨0, line.length⟩ := by
  have hline : newline ∉ line.reverse := fun hmem => h (List.mem_reverse.mp hmem)
  rw [behind, List.count_eq_zero_of_not_mem h,
    List.takeWhile_eq_self_iff.mpr (forall_ne_newline hline), List.length_reverse]
  rfl

theorem behind_append {line : List UInt8} (h : newline ∉ line) (rest : List UInt8) :
    behind (line ++ newline :: rest) = ⟨(behind rest).line + 1, (behind rest).character⟩ := by
  rw [behind, List.count_append, List.count_eq_zero_of_not_mem h, List.count_cons_self,
    List.reverse_append, List.reverse_cons, List.append_assoc, List.singleton_append,
    takeWhile_append_newline, Nat.zero_add, Nat.cast_succ]
  rfl

/-- **The place of an offset** that is so many bytes behind the start of a line. -/
theorem behind_take {content : List UInt8} {n c : Nat} (h : InLine content n c) :
    behind (content.take (lineStart content n + c)) = ⟨n, c⟩ := by
  obtain ⟨line, hline, hc⟩ := h
  induction hline with
  | first hsole _ =>
    rw [lineStart_zero, Nat.zero_add, List.take_append_of_le_length hc,
      behind_of_not_mem fun hmem => hsole (List.mem_of_mem_take hmem), List.length_take,
      Nat.min_eq_left hc]
    rfl
  | @later first rest line n hfirst _ ih =>
    have htake : (first ++ newline :: rest).take (lineStart (first ++ newline :: rest) (n + 1) + c) =
        first ++ newline :: rest.take (lineStart rest n + c) := by
      rw [lineStart_succ hfirst, List.take_append, List.take_of_length_le (by omega),
        show first.length + 1 + lineStart rest n + c - first.length = lineStart rest n + c + 1 by omega,
        List.take_succ_cons]
    rw [htake, behind_append hfirst, ih hc, Nat.cast_succ]

theorem ofOffset_line {content : List UInt8} {n c : Nat} (h : InLine content n c) :
    ofOffset content (lineStart content n + c : Nat) = ⟨n, c⟩ := behind_take h

theorem offset_inLine {content : List UInt8} {n c : Nat} (h : InLine content n c) :
    offset content ⟨n, c⟩ = (lineStart content n + c : Nat) := by
  obtain ⟨line, hline, hc⟩ := h
  have hmin : min (c : Int) line.length = c := min_eq_left (Int.ofNat_le.mpr hc)
  refine (offset_of_line (p := ⟨n, c⟩) hline).trans ?_
  rw [Int.toNat_natCast, hmin, Nat.cast_add]

end Position

/-- **Every offset is in a line.** -/
theorem exists_line (content : List UInt8) {o : Nat} (h : o ≤ content.length) :
    ∃ n c, InLine content n c ∧ o = lineStart content n + c := by
  induction content using lines_induction generalizing o with
  | last sole hsole =>
    exact ⟨0, o, ⟨sole, isLine_sole hsole, h⟩, (Nat.zero_add o).symm⟩
  | cons first rest hfirst ih =>
    by_cases ho : o ≤ first.length
    · exact ⟨0, o, ⟨first, .first hfirst (behindLine_cons rest), ho⟩, (Nat.zero_add o).symm⟩
    · rw [List.length_append, List.length_cons] at h
      obtain ⟨n, c, ⟨line, hline, hc⟩, heq⟩ := ih (o := o - (first.length + 1)) (by omega)
      refine ⟨n + 1, c, ⟨line, .later hfirst hline, hc⟩, ?_⟩
      rw [lineStart_succ hfirst]
      omega

/-- And every place in a line is in the content. -/
theorem InLine.le_length {content : List UInt8} {n c : Nat} (h : InLine content n c) :
    lineStart content n + c ≤ content.length := by
  obtain ⟨line, hline, hc⟩ := h
  induction hline with
  | first _ _ =>
    rw [lineStart_zero, List.length_append]
    omega
  | later hfirst _ ih =>
    have hrest := ih hc
    rw [lineStart_succ hfirst, List.length_append, List.length_cons]
    omega

/-- A line ends before later ones start. -/
theorem lineStart_add_lt {content line : List UInt8} {n m : Nat} (h : IsLine content n line)
    (hnm : n < m) : lineStart content n + line.length < lineStart content m := by
  obtain ⟨k, rfl⟩ := Nat.exists_eq_add_of_lt hnm
  rw [lineStart, lineStart, show n + k + 1 = n + 1 + k by omega, List.take_add, List.take_add_one,
    isLine_iff.mp h, List.map_append, List.map_append, List.sum_append, List.sum_append]
  simp only [Option.toList_some, List.map_cons, List.map_nil, List.sum_cons, List.sum_nil]
  omega

namespace Position

/-- **From an offset to its place and back.** -/
theorem offset_ofOffset {content : List UInt8} {o : Int} (hzero : 0 ≤ o) (hlength : o ≤ content.length) :
    offset content (ofOffset content o) = o := by
  obtain ⟨m, rfl⟩ := Int.eq_ofNat_of_zero_le hzero
  obtain ⟨n, c, hline, rfl⟩ := exists_line content (Int.ofNat_le.mp hlength)
  rw [ofOffset_line hline, offset_inLine hline]

/-- A place that no one has seen is moved into the content, and not past the end of its line. -/
theorem offset_mem (content : List UInt8) {p : Position} (hcharacter : 0 ≤ p.character) :
    0 ≤ p.offset content ∧ p.offset content ≤ content.length := by
  cases hline : (lines content)[p.line.toNat]? with
  | none =>
    rw [offset_past hline]
    exact ⟨Int.natCast_nonneg _, le_refl _⟩
  | some line =>
    have hend : InLine content p.line.toNat line.length := ⟨line, isLine_iff.mpr hline, Nat.le_refl _⟩
    have hlength := hend.le_length
    rw [offset_of_line (isLine_iff.mpr hline)]
    omega

/-- **From a place to its offset and back**, if the place is in a line. -/
theorem ofOffset_offset {content line : List UInt8} {p : Position} (hline : 0 ≤ p.line)
    (hcharacter : 0 ≤ p.character) (h : IsLine content p.line.toNat line)
    (hle : p.character ≤ line.length) : ofOffset content (p.offset content) = p := by
  obtain ⟨l, c⟩ := p
  obtain ⟨n, rfl⟩ := Int.eq_ofNat_of_zero_le hline
  obtain ⟨c, rfl⟩ := Int.eq_ofNat_of_zero_le hcharacter
  have hplace : InLine content n c := ⟨line, h, Int.ofNat_le.mp hle⟩
  rw [offset_inLine hplace, ofOffset_line hplace]

/-- Places are ordered by line, and in a line by byte. -/
def key (p : Position) : Int ×ₗ Int := toLex (p.line, p.character)

/-- **Later offsets have later places.** -/
theorem key_ofOffset_lt {content : List UInt8} {o o' : Int} (hzero : 0 ≤ o) (hlt : o < o')
    (hlength : o' ≤ content.length) : (ofOffset content o).key < (ofOffset content o').key := by
  obtain ⟨m, rfl⟩ := Int.eq_ofNat_of_zero_le hzero
  obtain ⟨m', rfl⟩ := Int.eq_ofNat_of_zero_le (hzero.trans hlt.le)
  obtain ⟨n, c, hplace, rfl⟩ := exists_line content (o := m) (by omega)
  obtain ⟨n', c', hplace', rfl⟩ := exists_line content (o := m') (by omega)
  rw [ofOffset_line hplace, ofOffset_line hplace', key, key, Prod.Lex.toLex_lt_toLex]
  obtain ⟨line', hline', hc'⟩ := hplace'
  rcases Nat.lt_trichotomy n n' with hn | rfl | hn
  · exact .inl (Int.ofNat_lt.mpr hn)
  · exact .inr ⟨rfl, by show (c : Int) < c'; omega⟩
  · have hbefore := lineStart_add_lt hline' hn
    omega

/-- The place behind a content is the place of its last offset. -/
theorem atEnd_eq (content : List UInt8) : atEnd content = ofOffset content content.length := by
  rw [ofOffset, Int.toNat_natCast, List.take_length]
  rfl

/-- It is behind the last line. -/
theorem atEnd_eq_lines (content : List UInt8) : atEnd content =
    ⟨(lines content).length - 1, ((lines content).getLast (List.splitOn_ne_nil _ _)).length⟩ := by
  induction content using lines_induction with
  | last sole hsole =>
    simp only [lines_of_not_mem hsole]
    exact behind_of_not_mem hsole
  | cons first rest hfirst ih =>
    have hne : lines rest ≠ [] := List.splitOn_ne_nil _ _
    simp only [lines_append hfirst, List.getLast_cons hne]
    rw [atEnd, behind_append hfirst, show behind rest = _ from ih, List.length_cons]
    simp

end Position

/-! ### Edits -/

/-- An edit of a content: what stands in a range gives way to a text. -/
structure TextEdit where
  range : Range
  newText : String

namespace TextEdit

/-- An edit as it is sent. -/
def toJson (e : TextEdit) : Json :=
  .object [("range", e.range.toJson), ("newText", .text e.newText)]

/-- The content after an edit. -/
def applied (e : TextEdit) (content : List UInt8) : List UInt8 :=
  content.take (e.range.start.offset content).toNat ++ Frame.bytesOf e.newText ++
    content.drop (e.range.stop.offset content).toNat

end TextEdit

namespace Document

/-- The range of a document is from its first offset to its last one. -/
theorem offset_wholeRange (d : Document) : d.wholeRange.start.offset d.bytes = 0 ∧
    d.wholeRange.stop.offset d.bytes = d.bytes.length := by
  refine ⟨?_, ?_⟩
  · have hstart : d.wholeRange.start = .ofOffset d.bytes 0 := rfl
    rw [hstart, Position.offset_ofOffset (Int.le_refl 0) (Int.natCast_nonneg _)]
  · have hstop : d.wholeRange.stop = .ofOffset d.bytes d.bytes.length := Position.atEnd_eq d.bytes
    rw [hstop, Position.offset_ofOffset (Int.natCast_nonneg _) (Int.le_refl _)]

/-- An edit of the whole document leaves nothing of it. -/
theorem applied_wholeRange (d : Document) (text : String) :
    TextEdit.applied ⟨d.wholeRange, text⟩ d.bytes = Frame.bytesOf text := by
  obtain ⟨hstart, hstop⟩ := d.offset_wholeRange
  simp only [TextEdit.applied, hstart, hstop, Int.toNat_zero, Int.toNat_natCast, List.take_zero,
    List.drop_length, List.nil_append, List.append_nil]

/-- A document is formatted by one edit of the whole of it, or by none. -/
theorem formatting_edits (d : Document) : ∃ edits : List TextEdit,
    d.formatting = .array (edits.map TextEdit.toJson) ∧ ∀ e ∈ edits, e.range = d.wholeRange := by
  rw [formatting]
  split
  · exact ⟨[], rfl, List.forall_mem_nil _⟩
  · rename_i text hprint
    split
    · exact ⟨[], rfl, List.forall_mem_nil _⟩
    · exact ⟨[⟨d.wholeRange, text⟩], rfl, List.forall_mem_singleton.mpr rfl⟩

end Document

/-- **Places and offsets are inverse.**  An offset of a content is the offset of its place.  The offset
of a place is in the content and not past the end of the line; its place is the same one if there is
such a line and it is long enough.  Later offsets have later places.  And when an editor asks to format
a document that is open, what it is sent are edits from the first to the last offset of the document,
which leave nothing of it but their text. -/
theorem positions_inverse (content : List UInt8) :
    (∀ o : Int, 0 ≤ o → o ≤ content.length →
      Position.offset content (.ofOffset content o) = o) ∧
    (∀ p : Position, 0 ≤ p.line → 0 ≤ p.character →
      0 ≤ p.offset content ∧ p.offset content ≤ content.length ∧
      ∀ line, (lines content)[p.line.toNat]? = some line →
        p.offset content ≤ lineStart content p.line.toNat + line.length ∧
        (p.character ≤ line.length → .ofOffset content (p.offset content) = p)) ∧
    StrictMonoOn (fun o : Int => (Position.ofOffset content o).key) (Set.Icc 0 content.length) ∧
    ∀ (s : Server) (body : List UInt8) (id : Json) (uri : String) (d : Document),
      formattingRequest? body = some (id, uri) → s.document? uri = some d →
      ∃ edits : List TextEdit,
        s.handle? body = some (s.send (reply id (.array (edits.map TextEdit.toJson)))) ∧
        ∀ e ∈ edits, e.range.start.offset d.bytes = 0 ∧
          e.range.stop.offset d.bytes = d.bytes.length ∧ e.applied d.bytes = Frame.bytesOf e.newText := by
  refine ⟨fun o => Position.offset_ofOffset, fun p hline hcharacter => ?_, ?_, ?_⟩
  · obtain ⟨hzero, hlength⟩ := Position.offset_mem content hcharacter
    refine ⟨hzero, hlength, fun line h =>
      ⟨?_, Position.ofOffset_offset hline hcharacter (isLine_iff.mpr h)⟩⟩
    rw [Position.offset_of_line (isLine_iff.mpr h)]
    omega
  · exact fun o ho o' ho' hlt => Position.key_ofOffset_lt ho.1 hlt ho'.2
  · intro s body id uri d hasks hopen
    obtain ⟨edits, hedits, hrange⟩ := d.formatting_edits
    refine ⟨edits, hedits ▸ Server.handle?_formatting hasks hopen, fun e he => ?_⟩
    obtain ⟨hstart, hstop⟩ := d.offset_wholeRange
    obtain ⟨range, text⟩ := e
    cases hrange _ he
    exact ⟨hstart, hstop, d.applied_wholeRange text⟩

/-! A content with an empty line, and a document whose formatting is an edit. -/

def emptyLines : List UInt8 := [97, 10, 10, 98, 99, 10]

theorem positions_inverse_emptyLines :
    ((0 : Int) ≤ 2 ∧ 2 ≤ (emptyLines.length : Int) ∧
      Position.offset emptyLines (.ofOffset emptyLines 2) = 2) ∧
    ((lines emptyLines)[2]? = some [98, 99] ∧
      Position.ofOffset emptyLines (Position.offset emptyLines ⟨2, 1⟩) = ⟨2, 1⟩) ∧
    ∃ s d id, Server.after? { config := droppingConfig } [openingMessage] = some s ∧
      s.document? "file:///a.mc" = some d ∧
      formattingRequest? formattingMessage = some (id, "file:///a.mc") ∧
      ∃ edits : List TextEdit, edits ≠ [] ∧
        s.handle? formattingMessage = some (s.send (reply id (.array (edits.map TextEdit.toJson)))) ∧
        ∀ e ∈ edits, e.applied d.bytes = Frame.bytesOf e.newText := by
  obtain ⟨hoffsets, hplaces, -, hformat⟩ := positions_inverse emptyLines
  have hline : (lines emptyLines)[2]? = some [98, 99] := by decide +kernel
  obtain ⟨id, hrequest⟩ := formattingRequest?_formattingMessage
  obtain ⟨s, d, hs, hd, -, hof⟩ := opened_of droppingConfig (by decide +kernel)
  obtain ⟨edits, hhandle, hedits⟩ := hformat s formattingMessage id "file:///a.mc" d hrequest hd
  have hedited : ((Document.of? droppingConfig "file:///a.mc" "fn f() = 1\n)").all fun d =>
      d.formatting.compact ≠ "[]") = true := by
    decide +kernel
  have hne : edits ≠ [] := by
    rintro rfl
    have hsent := (Server.handle?_formatting hrequest hd).symm.trans hhandle
    have hformatting : d.formatting = .array [] := by simpa [Server.send, reply] using hsent
    rw [hof, Option.all_some, hformatting] at hedited
    exact absurd rfl (of_decide_eq_true hedited)
  refine ⟨⟨by decide, by decide, hoffsets 2 (by decide) (by decide)⟩, ⟨hline, ?_⟩,
    s, d, id, hs, hd, hrequest, edits, hne, hhandle, fun e he => (hedits e he).2.2⟩
  exact ((hplaces ⟨2, 1⟩ (by decide) (by decide)).2.2 [98, 99] hline).2 (by decide)

end Editor

end PatternPlan
