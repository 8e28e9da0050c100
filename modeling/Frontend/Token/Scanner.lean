import Frontend.Text.Blank
import Frontend.Text.Size
import Frontend.Token.Piece

/-!
# Scanning a source

A scanner stands somewhere in a source. Each call of `Scanner.scan` skips the
blanks in front of it, hands out the token behind them and queues a diagnostic
if the token is faulty. At the end of the source it hands out the end token, as
often as it is asked.

`Scanner.supplies` scans to the end; `tokenize` gives the tokens of a source,
comments included.
-/

namespace Frontend

open Text

/-- A token, with the diagnostics that came up while it was made. -/
structure Supply where
  token : Token
  diagnostics : List Diagnostic
deriving DecidableEq

/-- A place in a source, with the diagnostics that nobody has taken yet. -/
structure Scanner where
  file : String
  /-- The number of bytes in front of `rest`. -/
  offset : Nat
  /-- What is still to be scanned. -/
  rest : List Char
  diagnostics : List Diagnostic
deriving DecidableEq

/-- The name of a source that was given none. -/
def defaultFile : String := "shell"

namespace Scanner

/-- A scanner at the start of a source. -/
def ofSource (source : String) (file : String) : Scanner :=
  ⟨file, 0, source.toList, []⟩

/-- Whether nothing is left, not even blanks. -/
def atEnd (s : Scanner) : Bool := s.rest.isEmpty

/-- Moves to the first character that is no blank. -/
def skipBlanks (s : Scanner) : Scanner :=
  { s with
    offset := s.offset + byteSize (s.rest.takeWhile isBlank)
    rest := s.rest.dropWhile isBlank }

/-- The token of a piece that starts where the scanner stands. An illegal piece
has a lexeme of its own instead of its text. -/
def tokenOf (s : Scanner) (piece : Piece) : Token :=
  { kind := piece.kind
    lexeme := if piece.kind = .illegal then Token.illegalLexeme else String.ofList piece.text
    span := Span.mark s.offset (s.offset + byteSize piece.text) s.file }

/-- Moves behind a piece that starts where the scanner stands. -/
def skipPiece (s : Scanner) (piece : Piece) : Scanner :=
  { s with
    offset := s.offset + byteSize piece.text
    rest := piece.rest
    diagnostics :=
      s.diagnostics ++ piece.cause?.toList.map fun cause => ⟨cause, .mark s.offset s.file⟩ }

/-- Hands out the next token. -/
def scan (s : Scanner) : Token × Scanner :=
  let s := s.skipBlanks
  match s.rest with
  | [] => (Token.atEnd s.offset s.file, s)
  | c :: cs =>
      let piece := Piece.cut c cs
      (s.tokenOf piece, s.skipPiece piece)

/-- Skipping blanks keeps the end of the source where it is. -/
theorem skipBlanks_offset (s : Scanner) :
    s.skipBlanks.offset + byteSize s.skipBlanks.rest = s.offset + byteSize s.rest := by
  have h := congrArg byteSize (List.takeWhile_append_dropWhile (p := isBlank) (l := s.rest))
  rw [byteSize_append] at h
  simp only [skipBlanks]
  omega

/-- Scanning keeps the end of the source where it is. -/
theorem scan_offset (s : Scanner) :
    s.scan.2.offset + byteSize s.scan.2.rest = s.offset + byteSize s.rest := by
  rw [← s.skipBlanks_offset]
  unfold scan
  simp only
  split
  · rfl
  · next c cs hrest =>
      have h := congrArg byteSize (Piece.cut_text_append_rest c cs)
      rw [byteSize_append] at h
      simp only [skipPiece, hrest]
      omega

/-- The token at the end of the source is the only one of its kind. -/
theorem scan_kind_eq_eof_iff (s : Scanner) :
    s.scan.1.kind = .eof ↔ s.skipBlanks.rest = [] := by
  unfold scan
  simp only
  split
  · next h => simp [Token.atEnd, h]
  · next c cs h => simp [tokenOf, Piece.cut_kind_ne_eof, h]

/-- Every token but the one at the end takes a character. -/
theorem scan_rest_length_lt {s : Scanner} (h : s.scan.1.kind ≠ .eof) :
    s.scan.2.rest.length < s.rest.length := by
  rw [ne_eq, scan_kind_eq_eof_iff] at h
  have hskip : s.skipBlanks.rest.length ≤ s.rest.length :=
    (List.dropWhile_suffix isBlank).length_le
  unfold scan
  simp only
  split
  · next hnil => exact absurd hnil h
  · next c cs hrest =>
      have hlen := congrArg List.length (Piece.cut_text_append_rest c cs)
      have hpos := List.length_pos_iff.mpr (Piece.cut_text_ne_nil c cs)
      rw [List.length_append] at hlen
      rw [hrest] at hskip
      simp only [skipPiece]
      omega

/-- Hands out the queued diagnostics, oldest first, and empties the queue. -/
def takeDiagnostics (s : Scanner) : List Diagnostic × Scanner :=
  (s.diagnostics, { s with diagnostics := [] })

/-- Scans up to the end token, or as many tokens as there is fuel for. -/
def supplies : Nat → Scanner → List Supply
  | 0, _ => []
  | fuel + 1, s =>
      let (token, s) := s.scan
      let (diagnostics, s) := s.takeDiagnostics
      ⟨token, diagnostics⟩ :: if token.kind = .eof then [] else supplies fuel s

/-- Scans to the end: every token but the last takes at least one character. -/
def run (s : Scanner) : List Supply :=
  s.supplies (s.rest.length + 1)

end Scanner

/-- The tokens of a source, comments and the end token included. -/
def tokenize (source : String) (file : String) : List Token :=
  (Scanner.ofSource source file).run.map Supply.token

end Frontend
