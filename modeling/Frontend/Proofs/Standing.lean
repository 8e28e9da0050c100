import Frontend.Proofs.Cursor

/-!
# Where a cursor can stand

Three things have to be right about the place of a cursor, and `Cursor.Sound` says what:
both offsets lie between characters, the current character is the one at the first offset,
and the second offset is behind it. At the end of a source there is no such character, and
NUL stands for it.

A cursor is sound just if it is one of those that `Cursor.between` makes, so moving it
keeps it sound, and a scan only moves it. `Cursor.Passes` says what a scan does to a sound
cursor. Nothing that a scan takes from its source fails, and NUL in a source is a character
as any other: it is passed in a comment, and elsewhere a token is made of it. In each place
a cursor and a scanner do the same, so all of a source comes out the same (`run_eq`).
-/

namespace Frontend

open Text

namespace Cursor

/-- The offsets and the current character agree with each other and with the source. -/
structure Sound (c : Cursor) : Prop where
  offset_le : c.offset ≤ c.next
  next_le : c.next ≤ byteSize c.source
  offset_boundary : IsBoundary c.source c.offset
  next_boundary : IsBoundary c.source c.next
  inside : c.offset < byteSize c.source →
    (∃ rest, from? c.source c.offset = some (c.current :: rest)) ∧
      c.next = c.offset + c.current.utf8Size
  outside : c.offset = byteSize c.source → c.next = byteSize c.source ∧ c.current = nul

variable {before rest behind : List Char} {file : String} {ds : List Diagnostic}

theorem sound_between : (between before rest file ds).Sound where
  offset_le := by
    simp only [between, byteSize_append]
    omega
  next_le := by
    have h := congrArg byteSize (List.take_append_drop 1 rest)
    simp only [byteSize_append] at h
    simp only [between, byteSize_append]
    omega
  offset_boundary := ⟨before, rest, rfl, rfl⟩
  next_boundary := ⟨before ++ rest.take 1, rest.drop 1, by
    simp only [between, List.append_assoc, List.take_append_drop], rfl⟩
  inside := by
    cases rest with
    | nil => simp [between]
    | cons c cs =>
        intro _
        exact ⟨⟨cs, from?_byteSize before (c :: cs)⟩, by simp [between]⟩
  outside := by
    cases rest with
    | nil => simp [between]
    | cons c cs =>
        have hpos := c.utf8Size_pos
        simp only [between, byteSize_append, byteSize_cons]
        omega

/-- A sound cursor stands between two parts of its source. -/
theorem Sound.eq_between {c : Cursor} (h : c.Sound) :
    ∃ before rest, c = between before rest c.file c.diagnostics := by
  obtain ⟨before, rest, hsource, hoffset⟩ := h.offset_boundary
  obtain ⟨source, offset, next, current, file, ds⟩ := c
  obtain rfl : source = before ++ rest := hsource
  obtain rfl : byteSize before = offset := hoffset
  refine ⟨before, rest, ?_⟩
  cases rest with
  | nil =>
      obtain ⟨hnext, hcurrent⟩ := h.outside (by simp)
      obtain rfl : next = byteSize (before ++ []) := hnext
      obtain rfl : current = nul := hcurrent
      rfl
  | cons d cs =>
      have hpos := d.utf8Size_pos
      obtain ⟨⟨behind, hfrom⟩, hnext⟩ := h.inside (by
        simp only [byteSize_append, byteSize_cons]
        omega)
      rw [from?_byteSize] at hfrom
      obtain ⟨rfl, rfl⟩ := List.cons.inj (Option.some.inj hfrom)
      obtain rfl : next = byteSize before + d.utf8Size := hnext
      simp [between]

theorem Sound.takeDiagnostics {c : Cursor} (h : c.Sound) : c.takeDiagnostics.2.Sound :=
  ⟨h.offset_le, h.next_le, h.offset_boundary, h.next_boundary, h.inside, h.outside⟩

/-! ## Moves -/

/-- The cursor after some moves. -/
def advances : Nat → Cursor → Option Cursor
  | 0, c => some c
  | n + 1, c => do advances n (← c.advance)

theorem advances_between (n : Nat) :
    (between before rest file ds).advances n =
      some (between (before ++ rest.take n) (rest.drop n) file ds) := by
  induction n generalizing before rest with
  | zero => simp [advances]
  | succ n ih =>
      cases rest with
      | nil =>
          rw [advances, advance_between_nil]
          exact ih.trans (by simp)
      | cons c cs =>
          rw [advances, advance_between_cons]
          exact ih.trans (by simp)

theorem advances_append {front : List Char} (h : rest = front ++ behind) :
    (between before rest file ds).advances front.length =
      some (between (before ++ front) behind file ds) := by
  rw [advances_between, h, List.take_left, List.drop_left]

/-- However far a sound cursor is moved, it stays sound, the next character can be peeked
at, and the text that it has been moved over can be copied. -/
theorem Sound.advances {c : Cursor} (h : c.Sound) (n m : Nat) :
    ∃ d e, c.advances n = some d ∧ d.advances m = some e ∧ d.Sound ∧
      (∃ next, d.peek = some next) ∧ ∃ text, slice? c.source d.offset e.offset = some text := by
  obtain ⟨before, rest, heq⟩ := h.eq_between
  rw [heq]
  refine ⟨_, _, advances_between n, advances_between m, sound_between, ?_,
    (rest.drop n).take m, ?_⟩
  · cases rest.drop n with
    | nil => exact ⟨_, peek_between_nil⟩
    | cons d ds => exact ⟨_, peek_between_cons⟩
  · refine slice?_eq_some_iff.mpr ⟨before ++ rest.take n, (rest.drop n).drop m, ?_, rfl, rfl⟩
    simp only [between, List.append_assoc, List.take_append_drop]

/-! ## Scans -/

/-- The scanner in the place of a cursor. -/
def scanner (c : Cursor) : Scanner :=
  ⟨c.file, c.offset, (from? c.source c.offset).getD [], c.diagnostics⟩

theorem scanner_between :
    (between before rest file ds).scanner = ⟨file, byteSize before, rest, ds⟩ := by
  simp only [scanner, between, from?_byteSize]
  rfl

/-- A scan passes `gap` and makes a token of `text`, from `c` to `d`. -/
structure Passes (c : Cursor) (token : Token) (d : Cursor) (gap text : List Char) : Prop where
  scan : c.scan = some (token, d)
  source : d.source = c.source
  file : d.file = c.file
  /-- A scanner in the same place makes the same token and comes to the same place. -/
  scanner : c.scanner.scan = (token, d.scanner)
  /-- The cursor has been moved behind the text, and no further. -/
  moves : ∃ e, c.advances (gap ++ text).length = some e ∧
    d = { e with diagnostics := d.diagnostics }
  split : c.scanner.rest = gap ++ text ++ d.scanner.rest
  slice : slice? c.source (c.offset + byteSize gap) d.offset = some text
  span : token.span = Span.mark (c.offset + byteSize gap) d.offset c.file
  blanks : ∀ ch ∈ gap, isBlank ch
  /-- The end is where nothing is left, and nowhere else. -/
  eof : token.kind = .eof ↔ text = []
  rest_of_eof : token.kind = .eof → d.scanner.rest = []
  nul_not_eof : nul ∈ c.scanner.rest → token.kind ≠ .eof
  nul : text.head? = some nul → token.kind = .illegal ∧ text = [nul]
  /-- A comment ends with its line, with its mark or with the source, whatever is in it. -/
  comment : token.kind = .comment → Lexeme .comment text d.scanner.rest

/-- NUL is a piece of its own, an illegal one. -/
theorem cut_nul (cs : List Char) : Piece.cut nul cs = Piece.illegal nul cs := by
  have hpair : Piece.pair? nul cs = none := by
    cases cs with
    | nil => rfl
    | cons d cs => simp [Piece.pair?, Symbol.ofPair?, nul]
  rw [Piece.cut, if_neg (by simp [nul]), if_neg (by simp [nul]), hpair]
  rfl

/-- At the end a scan passes the blanks that are left. -/
theorem passes_of_nil (h : rest.dropWhile isBlank = []) :
    (between before rest file ds).Passes (Token.atEnd (byteSize (before ++ rest)) file)
      (between (before ++ rest) [] file ds) rest [] where
  scan := scan_between_of_nil h
  source := List.append_nil _
  file := rfl
  scanner := by
    have hall := List.takeWhile_eq_self_iff.mpr (List.dropWhile_eq_nil_iff.mp h)
    simp only [scanner_between, Scanner.scan, Scanner.skipBlanks, h, hall, byteSize_append]
  moves := ⟨_, advances_between _, by simp [between]⟩
  split := by simp [scanner_between]
  slice := slice?_eq_some_iff.mpr ⟨before ++ rest, [], by simp [between]⟩
  span := by simp [Token.atEnd, between]
  blanks := List.dropWhile_eq_nil_iff.mp h
  eof := iff_of_true rfl rfl
  rest_of_eof _ := by rw [scanner_between]
  nul_not_eof hmem := by
    rw [scanner_between] at hmem
    have hblank : isBlank nul = true := List.dropWhile_eq_nil_iff.mp h nul hmem
    cases hblank
  nul hnul := by cases hnul
  comment hkind := by cases hkind

/-- The text in front of a cursor: blanks, a piece and what is left. -/
theorem cut_split {c : Char} {cs : List Char} (h : rest.dropWhile isBlank = c :: cs) :
    rest = rest.takeWhile isBlank ++ (Piece.cut c cs).text ++ (Piece.cut c cs).rest := by
  rw [List.append_assoc, Piece.cut_text_append_rest, ← h, List.takeWhile_append_dropWhile]

/-- A scan that is not at the end passes blanks, and takes the piece behind them. -/
theorem passes_of_cons {c : Char} {cs : List Char} (h : rest.dropWhile isBlank = c :: cs) :
    (between before rest file ds).Passes
      (taking (.cut c cs) (before ++ rest.takeWhile isBlank) file ds).1
      (taking (.cut c cs) (before ++ rest.takeWhile isBlank) file ds).2
      (rest.takeWhile isBlank) (Piece.cut c cs).text where
  scan := scan_between_of_cons h
  source := by simp only [taking, between, List.append_assoc, ← cut_split h]
  file := rfl
  scanner := by
    simp only [taking, scanner_between, Scanner.scan, Scanner.skipBlanks, h, byteSize_append,
      Scanner.tokenOf, Scanner.skipPiece]
  moves := ⟨_, advances_append (cut_split h), by simp [taking, between]⟩
  split := by
    simp only [taking, scanner_between]
    exact cut_split h
  slice := slice?_eq_some_iff.mpr ⟨before ++ rest.takeWhile isBlank, (Piece.cut c cs).rest, by
    simp only [between, List.append_assoc, ← cut_split h], by simp [between], rfl⟩
  span := by simp [taking, Scanner.tokenOf, between, Nat.add_assoc]
  blanks ch hch := List.mem_takeWhile_imp hch
  eof := iff_of_false (Piece.cut_kind_ne_eof c cs) (Piece.cut_text_ne_nil c cs)
  rest_of_eof hkind := absurd hkind (Piece.cut_kind_ne_eof c cs)
  nul_not_eof _ := Piece.cut_kind_ne_eof c cs
  nul hnul := by
    have htext := Piece.cut_text_append_rest c cs
    obtain ⟨text, heq⟩ := List.head?_eq_some_iff.mp hnul
    rw [heq] at htext
    obtain rfl : nul = c := (List.cons.inj htext).1
    rw [cut_nul]
    exact ⟨rfl, rfl⟩
  comment hkind := by
    have hkind : (Piece.cut c cs).kind = .comment := hkind
    have hlexeme : Lexeme (Piece.cut c cs).kind (Piece.cut c cs).text (Piece.cut c cs).rest :=
      Piece.cut_lexeme (by simp [hkind])
    rw [taking, scanner_between]
    rwa [hkind] at hlexeme

/-- A scan from a sound cursor does not fail, and it comes to a sound one. -/
theorem Sound.passes {c : Cursor} (h : c.Sound) :
    ∃ token d gap text, c.Passes token d gap text ∧ d.Sound := by
  obtain ⟨before, rest, heq⟩ := h.eq_between
  rw [heq]
  cases hrest : rest.dropWhile isBlank with
  | nil => exact ⟨_, _, _, _, passes_of_nil hrest, sound_between⟩
  | cons ch cs => exact ⟨_, _, _, _, passes_of_cons hrest, sound_between⟩

/-- Going over a source with a sound cursor gives what a scanner gives. -/
theorem Sound.supplies_eq {c : Cursor} (h : c.Sound) (fuel : Nat) :
    c.supplies fuel = some (c.scanner.supplies fuel) := by
  induction fuel generalizing c with
  | zero => rfl
  | succ fuel ih =>
      obtain ⟨token, d, gap, text, hpasses, hd⟩ := h.passes
      have hrest : d.takeDiagnostics.2.supplies fuel =
          some (d.scanner.takeDiagnostics.2.supplies fuel) := ih hd.takeDiagnostics
      rw [supplies, Scanner.supplies, hpasses.scan, hpasses.scanner]
      simp only [Option.bind_some, bind, hrest]
      split <;> rfl

/-! ## Reachable cursors -/

/-- The cursors that come up when a source is scanned. -/
inductive Reachable (source file : String) : Cursor → Prop where
  | start {c : Cursor} (h : ofSource source file = some c) : Reachable source file c
  | scan {c d : Cursor} {token : Token} (hc : Reachable source file c)
      (h : c.scan = some (token, d)) : Reachable source file d
  | takeDiagnostics {c : Cursor} (hc : Reachable source file c) :
      Reachable source file c.takeDiagnostics.2
  | clone {c : Cursor} (hc : Reachable source file c) : Reachable source file c.clone

theorem ofSource_eq_between (source file : String) :
    ofSource source file = some (between [] source.toList file []) := by
  cases h : source.toList with
  | nil => simp [ofSource, advance, between, h]
  | cons c cs =>
      have hpos := c.utf8Size_pos
      have hlt : ¬ byteSize (c :: cs) ≤ 0 := by
        rw [byteSize_cons]
        omega
      have hfrom : from? (c :: cs) 0 = some (c :: cs) := from?_byteSize [] (c :: cs)
      simp only [ofSource, advance, h, if_neg hlt, hfrom]
      simp [between]

theorem Reachable.sound {source file : String} {c : Cursor} (h : Reachable source file c) :
    c.Sound ∧ c.source = source.toList ∧ c.file = file := by
  induction h with
  | start h =>
      rw [ofSource_eq_between] at h
      cases h
      exact ⟨sound_between, rfl, rfl⟩
  | scan _ hscan ih =>
      obtain ⟨hsound, hsource, hfile⟩ := ih
      obtain ⟨token, d, gap, text, hpasses, hd⟩ := hsound.passes
      rw [hpasses.scan] at hscan
      cases hscan
      exact ⟨hd, hpasses.source.trans hsource, hpasses.file.trans hfile⟩
  | takeDiagnostics _ ih => exact ⟨ih.1.takeDiagnostics, ih.2⟩
  | clone _ ih => exact ih

/-- A cursor and a scanner give the same tokens of a source, with the same diagnostics. -/
theorem run_eq (source file : String) :
    run source file = some (Scanner.ofSource source file).run := by
  rw [run, ofSource_eq_between]
  exact (sound_between.supplies_eq _).trans (by rw [scanner_between]; rfl)

/-- There is a cursor at the start of every source, and however the source is scanned from
there, each cursor that comes up is sound. Moved any number of times it is still sound, and
neither peeking nor copying the text between two of the places fails. So a scan does not
fail: it passes blanks and makes a token of the text behind them, which is the end token
only if nothing is left. -/
theorem reachable_stands (source file : String) :
    (∃ c, ofSource source file = some c ∧ c.scanner = Scanner.ofSource source file) ∧
      ∀ c, Reachable source file c →
        c.Sound ∧ c.source = source.toList ∧
          (∀ n m, ∃ d e, c.advances n = some d ∧ d.advances m = some e ∧ d.Sound ∧
            (∃ next, d.peek = some next) ∧
              ∃ text, slice? c.source d.offset e.offset = some text) ∧
          ∃ token d gap text, c.Passes token d gap text := by
  refine ⟨⟨_, ofSource_eq_between source file, scanner_between⟩, fun c hc => ?_⟩
  obtain ⟨hsound, hsource, -⟩ := hc.sound
  obtain ⟨token, d, gap, text, hpasses, -⟩ := hsound.passes
  exact ⟨hsound, hsource, hsound.advances, token, d, gap, text, hpasses⟩

/-- A cursor on a NUL that is no end, behind a character of two bytes. -/
theorem reachable_stands_sample :
    ∃ c, Reachable "é\x00/*\x00" "a.x" c ∧ c.offset = 2 ∧ c.current = nul ∧ c.Sound ∧
      ∃ d gap text, c.Passes ⟨.illegal, Token.illegalLexeme, Span.mark 2 3 "a.x"⟩ d gap text := by
  have hstart : ∃ c, ofSource "é\x00/*\x00" "a.x" = some c ∧
      ∃ token d, c.scan = some (token, d) ∧ d.offset = 2 ∧ d.current = nul ∧
        d.scan.map (·.1) = some ⟨.illegal, Token.illegalLexeme, Span.mark 2 3 "a.x"⟩ :=
    ⟨_, rfl, _, _, rfl, rfl, rfl, rfl⟩
  obtain ⟨start, hofSource, _, c, hscan, hoffset, hcurrent, htoken⟩ := hstart
  have hreach : Reachable "é\x00/*\x00" "a.x" c := .scan (.start hofSource) hscan
  obtain ⟨hsound, -, -, token, d, gap, text, hpasses⟩ :=
    (reachable_stands "é\x00/*\x00" "a.x").2 c hreach
  rw [hpasses.scan] at htoken
  obtain rfl : token = _ := Option.some.inj htoken
  exact ⟨c, hreach, hoffset, hcurrent, hsound, d, gap, text, hpasses⟩

end Cursor

end Frontend
