import Frontend.Token.Scanner

/-!
# Streams of tokens

A stream hands out tokens one at a time, each with the diagnostics that came up
while it was made. Behind the tokens still to come it hands out one end token
forever. A reader of the stream does not want comments: `TokenStream.pull`
passes over them and keeps their diagnostics for the token behind them.
-/

namespace Frontend

/-- Tokens to come, and the end token behind them. -/
structure TokenStream where
  pending : List Supply
  last : Token
  last_kind : last.kind = .eof

namespace TokenStream

/-- The tokens of a source. -/
def ofSource (source : String) (file : String) : TokenStream :=
  ⟨(Scanner.ofSource source file).run, Token.atEnd (Text.byteSize source.toList) file, rfl⟩

/-- A list of tokens; the end token behind them has their number as its offset. -/
def replay (supplies : List Supply) (file : String) : TokenStream :=
  ⟨supplies, Token.atEnd supplies.length file, rfl⟩

/-- The first token of a list that is no comment, with the diagnostics up to it
and the list behind it; `last` if there is none. -/
def pullFrom (last : Token) : List Supply → Supply × List Supply
  | [] => (⟨last, []⟩, [])
  | s :: rest =>
      if s.token.kind = .comment then
        let (next, rest) := pullFrom last rest
        (⟨next.token, s.diagnostics ++ next.diagnostics⟩, rest)
      else (s, rest)

/-- What comes out is no comment, if the token behind the list is none. -/
theorem pullFrom_kind_ne_comment {last : Token} (h : last.kind ≠ .comment)
    (supplies : List Supply) : (pullFrom last supplies).1.token.kind ≠ .comment := by
  induction supplies with
  | nil => exact h
  | cons s rest ih =>
      rw [pullFrom]
      split
      · exact ih
      · next hs => exact hs

/-- A pull makes a list shorter, unless it is empty. -/
theorem pullFrom_length_le (last : Token) (supplies : List Supply) :
    (pullFrom last supplies).2.length ≤ supplies.length - 1 := by
  induction supplies with
  | nil => simp [pullFrom]
  | cons s rest ih =>
      rw [pullFrom]
      split
      · simp only [List.length_cons]
        omega
      · simp

/-- Hands out the next token that is no comment, with the diagnostics that came
up on the way. -/
def pull (stream : TokenStream) : Supply × TokenStream :=
  let (next, rest) := pullFrom stream.last stream.pending
  (next, { stream with pending := rest })

theorem pull_kind_ne_comment (stream : TokenStream) : stream.pull.1.token.kind ≠ .comment :=
  pullFrom_kind_ne_comment (by simp [stream.last_kind]) stream.pending

end TokenStream

end Frontend
