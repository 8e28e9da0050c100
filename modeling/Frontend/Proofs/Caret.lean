import Frontend.Diagnostic.Report
import Frontend.Proofs.LineLookup
import Frontend.Proofs.Reportable

/-!
# The caret of a report

A report shows a line without its indentation and the white space at its end, and marks a
place below it. The caret stands as many columns from the first character shown as there
are bytes between the indentation and the place. A reader counts characters instead, so
that the caret is below the place if all in front of it takes one byte a character, and too
far to the right if not.

The places that a parse reports are those that a token can start at. None of them is within
the indentation of its line, since a token does not start with a blank, and each of them is
between two characters, so that the line divides into what is in front of it and what is
behind it (`Line.Around.exists_front`).
-/

namespace Frontend

open Text

/-! ## Characters and bytes -/

namespace Text

/-- A text has as many bytes as characters when it is ASCII. -/
theorem byteSize_eq_length_iff {cs : List Char} :
    byteSize cs = cs.length ↔ ∀ c ∈ cs, c.toNat < 128 := by
  induction cs with
  | nil => simp
  | cons c cs ih =>
      have hpos := c.utf8Size_pos
      have hle := length_le_byteSize cs
      have hc : c.utf8Size = 1 ↔ c.toNat < 128 :=
        Char.utf8Size_eq_one_iff.trans ⟨Nat.lt_succ_of_le, Nat.le_of_lt_succ⟩
      rw [byteSize_cons, List.length_cons, List.forall_mem_cons, ← hc, ← ih]
      omega

/-- Of two ways to cut a text the one with the smaller front cuts the front of the other. -/
theorem exists_append_of_byteSize_le {as bs cs ds : List Char} (h : as ++ bs = cs ++ ds)
    (hle : byteSize as ≤ byteSize cs) : ∃ es, cs = as ++ es ∧ bs = es ++ ds := by
  rw [List.append_eq_append_iff] at h
  rcases h with ⟨es, hcs, hbs⟩ | ⟨es, has, hds⟩
  · exact ⟨es, hcs, hbs⟩
  · have hsize : byteSize es = 0 := by
      rw [has, byteSize_append] at hle
      omega
    obtain rfl : es = [] := by
      by_contra hne
      have hpos := byteSize_pos hne
      omega
    exact ⟨[], by simpa using has.symm, hds.symm⟩

end Text

/-! ## What is shown of a line -/

/-- The parts of a line: all of its indentation, what a report shows of it, and all of the
white space at its end. -/
structure Trimmed (cs indent shown trail : List Char) : Prop where
  split : cs = indent ++ shown ++ trail
  indent : ∀ c ∈ indent, c = ' ' ∨ c = '\t'
  start : ∀ c ∈ (shown ++ trail).head?, c ≠ ' ' ∧ c ≠ '\t'
  trail : ∀ c ∈ trail, isWhitespace c
  stop : ∀ c ∈ shown.getLast?, isWhitespace c = false

theorem exists_trail (cs : List Char) :
    ∃ trail, cs = trimEnd cs ++ trail ∧ (∀ c ∈ trail, isWhitespace c) ∧
      ∀ c ∈ (trimEnd cs).getLast?, isWhitespace c = false := by
  refine ⟨(cs.reverse.takeWhile isWhitespace).reverse, ?_, fun c hc => ?_, fun c hc => ?_⟩
  · rw [trimEnd, ← List.reverse_append, List.takeWhile_append_dropWhile, List.reverse_reverse]
  · exact List.mem_takeWhile_imp (List.mem_reverse.mp hc)
  · have hhead := List.head?_dropWhile_not isWhitespace cs.reverse
    rw [trimEnd, List.getLast?_reverse] at hc
    rw [hc] at hhead
    exact hhead

theorem exists_trimmed (cs : List Char) :
    ∃ trail, Trimmed cs (cs.takeWhile isIndentation) (trimEnd (cs.dropWhile isIndentation))
      trail := by
  obtain ⟨trail, hsplit, htrail, hstop⟩ := exists_trail (cs.dropWhile isIndentation)
  refine ⟨trail, ?_, fun c hc => ?_, fun c hc => ?_, htrail, hstop⟩
  · rw [List.append_assoc, ← hsplit, List.takeWhile_append_dropWhile]
  · simpa [isIndentation] using List.mem_takeWhile_imp hc
  · have hhead := List.head?_dropWhile_not isIndentation cs
    rw [← hsplit] at hc
    rw [hc] at hhead
    simpa [isIndentation] using hhead

namespace Trimmed

variable {cs indent shown trail : List Char} (h : Trimmed cs indent shown trail)

include h

/-- A line feed at the end of a line is not shown. -/
theorem newline_notMem (hline : '\n' ∉ cs.dropLast) : '\n' ∉ shown := by
  intro hmem
  rcases List.eq_nil_or_concat' shown with rfl | ⟨body, c, rfl⟩
  · cases hmem
  have hc : c ≠ '\n' := by
    rintro rfl
    exact absurd (h.stop '\n' (by simp)) (by decide)
  have hbody : '\n' ∈ body := by simpa [hc.symm] using hmem
  refine hline ?_
  rw [h.split, List.append_assoc, List.append_assoc, List.singleton_append, ← List.append_assoc,
    List.dropLast_append_of_ne_nil (by simp)]
  exact List.mem_append_left _ (List.mem_append_right _ hbody)

/-- A place that no blank follows is behind the indentation. -/
theorem exists_inner {front behind : List Char} (hcs : cs = front ++ behind)
    (hstart : ∀ c ∈ behind.head?, isBlank c = false) :
    ∃ inner, front = indent ++ inner ∧ shown ++ trail = inner ++ behind := by
  have hsplit : front ++ behind = indent ++ (shown ++ trail) := by
    rw [← hcs, h.split, List.append_assoc]
  rw [List.append_eq_append_iff] at hsplit
  rcases hsplit with ⟨more, hindent, hbehind⟩ | ⟨inner, hfront, hshown⟩
  · cases more with
    | nil => exact ⟨[], by simpa using hindent.symm, hbehind.symm⟩
    | cons c more =>
        have hc := h.indent c (by simp [hindent])
        have hblank := hstart c (by simp [hbehind])
        rcases hc with rfl | rfl <;> exact absurd hblank (by decide)
  · exact ⟨inner, hfront, hshown⟩

theorem indent_lt : ∀ c ∈ indent, c.toNat < 128 := by
  intro c hc
  rcases h.indent c hc with rfl | rfl <;> decide

end Trimmed

/-- A place between two characters divides its line. -/
theorem Line.Around.exists_front {line : Line} {cs before after left right : List Char}
    (h : line.Around cs (byteSize left) before after) (hcs : cs = left ++ right) :
    ∃ front behind, line.text.toList = front ++ behind ∧ byteSize front = line.column ∧
      left = before ++ front ∧ right = behind ++ after := by
  have hoffset := h.offset
  have hcolumn : line.column ≤ byteSize line.text.toList := by
    by_cases hend : byteSize left = byteSize cs
    · exact Nat.le_of_eq (h.atEnd hend).1
    · refine Nat.le_of_lt (h.inside ?_)
      rw [hcs, byteSize_append] at hend ⊢
      omega
  have hleft : before ++ (line.text.toList ++ after) = left ++ right := by
    rw [← hcs, h.split, List.append_assoc]
  obtain ⟨front, rfl, htext⟩ := exists_append_of_byteSize_le hleft (by omega)
  rw [byteSize_append] at hoffset
  obtain ⟨behind, hsplit, hright⟩ := exists_append_of_byteSize_le htext.symm (by omega)
  exact ⟨front, behind, hsplit, by omega, rfl, hright⟩

/-! ## Reports -/

/-- The lines of a report that shows a line and has its caret so many columns to the right of
the first character shown, `margin` being what is to the left of the caret. -/
structure Line.Marked (line : Line) (shown : List Char) (column : Nat) (lines : List String)
    (margin : String) : Prop where
  length : lines.length = 5
  oneLine : ∀ text ∈ lines, OneLine text
  shown : lines[3]? = some (Nat.repr line.number ++ " | " ++ String.ofList shown)
  caret : lines[4]? = some (margin ++ "^")
  margin : '^' ∉ margin.toList ∧
    margin.length = (Nat.repr line.number ++ " | ").length + column

namespace Diagnostic

variable {d : Diagnostic} {line : Line} {source name : String}

theorem oneLine_heading (hcause : ∀ text ∈ d.cause.verbatim?, OneLine text)
    (hname : OneLine name) : ∀ text ∈ d.heading name, OneLine text := by
  obtain ⟨hkind, hsaid⟩ := Cause.oneLine_wording hcause
  rw [heading, List.forall_mem_cons, List.forall_mem_singleton]
  exact ⟨by simp +decide [hkind, hsaid], by simp +decide [hname]⟩

/-- The shape of a report that shows a line. -/
theorem exists_marked (hline : lineAt? source d.position.offset = some line)
    (hwidth : caretColumn line + 1 ≤ widestMarker)
    (hshown : '\n' ∉ trimEnd (line.text.toList.dropWhile isIndentation))
    (hheading : ∀ text ∈ d.heading name, OneLine text) :
    ∃ lines margin, d.report? source name = some (String.join (lines.map (· ++ "\n"))) ∧
      line.Marked (trimEnd (line.text.toList.dropWhile isIndentation)) (caretColumn line) lines
        margin := by
  refine ⟨d.heading name ++ excerpt line, _, ?_, rfl, ?_, rfl, rfl, ?_, ?_⟩
  · rw [report?, hline]
    exact if_pos hwidth
  · refine List.forall_mem_append.mpr ⟨hheading, ?_⟩
    have hgutter : ∀ (c : Char) (n : Nat), c ≠ '\n' → OneLine (String.ofList (.replicate n c)) := by
      intro c n hc
      rw [oneLine_ofList, List.mem_replicate]
      exact fun hmem => hc hmem.2.symm
    rw [excerpt, List.forall_mem_cons, List.forall_mem_cons, List.forall_mem_singleton]
    simp +decide [hgutter, oneLine_repr, hshown]
  · simp +decide
  · have hbar : " | ".length = 1 + "|".length + " ".length := rfl
    simp only [String.length_append, String.length_ofList, List.length_replicate]
    omega

end Diagnostic

/-- The place of a diagnostic is in a line and not within its indentation. If there is room
for the caret, the report has five lines; the fourth one shows the line, and the caret in
the fifth one is as many columns to the right of the first character shown as there are
bytes between the indentation and the place. With the white space at its end put back, the
fourth line has `ahead` in front of the character at the place. The caret is below that
character just if all in front of it in its line is ASCII. -/
theorem parse_report_caret {source : String} (hsize : byteSize source.toList < Position.limit)
    (file : String) {name : String} (hname : OneLine name) {d : Diagnostic}
    (hd : d ∈ (parse source file).2) :
    ∃ line before after front behind indent shown trail,
      lineAt? source d.position.offset = some line ∧
      line.number = 1 + lineFeeds source.toList d.position.offset ∧
      line.Around source.toList d.position.offset before after ∧
      line.text.toList = front ++ behind ∧ byteSize front = line.column ∧
      Trimmed line.text.toList indent shown trail ∧ indent.length ≤ byteSize front ∧
      (byteSize front - indent.length + 1 ≤ 65535 → ∃ lines margin ahead,
        d.report? source name = some (String.join (lines.map (· ++ "\n"))) ∧
        line.Marked shown (byteSize front - indent.length) lines margin ∧
        (Nat.repr line.number ++ " | ").toList ++ shown ++ trail = ahead ++ behind ∧
        (margin.length = ahead.length ↔ ∀ c ∈ front, c.toNat < 128)) := by
  obtain ⟨⟨left, right, hsource, hposition, hstart⟩, hcause⟩ := parse_showable hsize file d hd
  have hinside : d.position.offset ≤ source.utf8ByteSize := by
    rw [hposition, ← byteSize_toList, hsource, byteSize_append]
    omega
  obtain ⟨line, before, after, hline, hnumber, haround⟩ := exists_lineAt? hinside
  obtain ⟨front, behind, htext, hcolumn, -, hright⟩ := (hposition ▸ haround).exists_front hsource
  obtain ⟨trail, htrimmed⟩ := exists_trimmed line.text.toList
  have hbehind : ∀ c ∈ behind.head?, isBlank c = false := by
    intro c hc
    refine hstart c ?_
    rw [hright, List.head?_append, Option.mem_def.mp hc]
    rfl
  obtain ⟨inner, hfront, hshown⟩ := htrimmed.exists_inner htext hbehind
  -- The indentation is ASCII, so that bytes and characters differ as they do in `inner`.
  have hindent := byteSize_eq_length_iff.mpr htrimmed.indent_lt
  have hbytes : byteSize front = (line.text.toList.takeWhile isIndentation).length +
      byteSize inner := by
    conv_lhs => rw [hfront, byteSize_append, hindent]
  refine ⟨line, before, after, front, behind, _, _, trail, hline, hnumber, haround, htext,
    hcolumn, htrimmed, by omega, fun hwidth => ?_⟩
  have hcaret : Diagnostic.caretColumn line =
      byteSize front - (line.text.toList.takeWhile isIndentation).length := by
    rw [Diagnostic.caretColumn, hcolumn]
  rw [← hcaret] at hwidth ⊢
  obtain ⟨lines, margin, hreport, hmarked⟩ := Diagnostic.exists_marked hline hwidth
    (htrimmed.newline_notMem haround.text) (Diagnostic.oneLine_heading hcause hname)
  refine ⟨lines, margin, (Nat.repr line.number ++ " | ").toList ++ inner, hreport, hmarked, ?_, ?_⟩
  · rw [List.append_assoc, hshown, List.append_assoc]
  · have hmargin := hmarked.margin.2
    rw [List.length_append, String.length_toList, hfront, List.forall_mem_append,
      and_iff_right htrimmed.indent_lt, ← byteSize_eq_length_iff, hmargin, hcaret, hbytes]
    omega

/-- A line with an indentation, a character of two bytes, and then a type where a colon is
expected. -/
def caretSample : String := "a;\n\t/*é*/ var x u32 = 5; \n"

def caretSampleLine : Line := ⟨2, "\t/*é*/ var x u32 = 5; \n", 14⟩

def caretSampleReport : Diagnostic := ⟨.unexpectedToken (.symbol .colon) (.type .u32), ⟨17, "a.x"⟩⟩

theorem parse_report_caret_sample :
    byteSize caretSample.toList < Position.limit ∧ OneLine "a.x" ∧
      caretSampleReport ∈ (parse caretSample "a.x").2 ∧
      ∃ front behind indent shown trail lines margin ahead,
        caretSampleLine.text.toList = front ++ behind ∧ byteSize front = 14 ∧
        Trimmed caretSampleLine.text.toList indent shown trail ∧
        byteSize front - indent.length + 1 ≤ 65535 ∧
        caretSampleReport.report? caretSample "a.x" =
          some (String.join (lines.map (· ++ "\n"))) ∧
        caretSampleLine.Marked shown (byteSize front - indent.length) lines margin ∧
        (Nat.repr 2 ++ " | ").toList ++ shown ++ trail = ahead ++ behind ∧
        margin.length ≠ ahead.length := by
  have hsize : byteSize caretSample.toList < Position.limit := by decide
  have hname : OneLine "a.x" := by decide
  have hmem : caretSampleReport ∈ (parse caretSample "a.x").2 := by decide +kernel
  obtain ⟨line, before, after, front, behind, indent, shown, trail, hline, -, -, htext, hcolumn,
    htrimmed, -, hreport⟩ := parse_report_caret hsize "a.x" hname hmem
  have hfound : lineAt? caretSample 17 = some caretSampleLine := by decide
  obtain rfl : caretSampleLine = line := Option.some.inj (hfound.symm.trans hline)
  have hcolumn : byteSize front = 14 := hcolumn
  have hwidth : byteSize front - indent.length + 1 ≤ 65535 := by omega
  obtain ⟨lines, margin, ahead, hjoin, hmarked, hahead, hcolumns⟩ := hreport hwidth
  refine ⟨hsize, hname, hmem, front, behind, indent, shown, trail, lines, margin, ahead, htext,
    hcolumn, htrimmed, hwidth, hjoin, hmarked, hahead, fun hsame => ?_⟩
  have hascii := hcolumns.mp hsame
  have hfront : front = caretSampleLine.text.toList.take 14 := by
    have hlength : front.length = 14 := (byteSize_eq_length_iff.mpr hascii).symm.trans hcolumn
    rw [htext, ← hlength, List.take_left]
  have hwide : 'é' ∈ front := by
    rw [hfront]
    decide
  exact absurd (hascii 'é' hwide) (by decide)

example : caretSampleReport.report? caretSample "a.x" =
    some ("Error: UnexpectedToken (expected `Colon`, found `U32`)\n-> a.x\n  |\n" ++
      "2 | /*é*/ var x u32 = 5;\n  | -------------^\n") := by
  decide +kernel

end Frontend
