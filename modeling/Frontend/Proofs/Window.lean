import Frontend.Parser.Operation
import Frontend.Proofs.Along
import Mathlib.Logic.Function.Iterate

/-!
# The window of a parser

Whatever is done to a parser from outside, its window shows two tokens of its stream that
stand next to each other, comments left out: those at the place that it has counted up to
and behind it. So far and no further has the stream been read, and the diagnostics that
came with the tokens read are among those of the parse, in their order and each of them
once.

`Slides` says how two states of a parse are related if one comes behind the other: the
window has been moved some number of times, which is all that has happened to it, and
there may be diagnostics behind the earlier ones. Each step of a production goes along
this relation, so each operation does. `Window.Shows` says what a window shows of a
stream; moving the window keeps it.
-/

namespace Frontend

variable {α : Type}

/-! ## Streams -/

namespace TokenStream

/-- All that a stream will hand out, comments included. Any number of end tokens can stand
in front of the last one, which comes again and again. -/
def supplies (stream : TokenStream) : Stream' Supply :=
  stream.pending ++ₛ Stream'.const ⟨stream.last, []⟩

/-- A pull takes some comments and the token behind them, with their diagnostics. -/
theorem pull_supplies (stream : TokenStream) :
    ∃ comments next, stream.supplies = (comments ++ [next]) ++ₛ stream.pull.2.supplies ∧
      (∀ s ∈ comments, s.token.kind = .comment) ∧ next.token = stream.pull.1.token ∧
      stream.pull.1.diagnostics = (comments ++ [next]).flatMap (·.diagnostics) := by
  obtain ⟨pending, last, -⟩ := stream
  simp only [supplies, pull]
  induction pending with
  | nil => exact ⟨[], ⟨last, []⟩, Stream'.const_eq _, List.forall_mem_nil _, rfl, rfl⟩
  | cons s rest ih =>
      rw [pullFrom]
      split
      · next hs =>
          obtain ⟨comments, next, hsupplies, hcomments, htoken, hdiagnostics⟩ := ih
          refine ⟨s :: comments, next, ?_, List.forall_mem_cons.mpr ⟨hs, hcomments⟩, htoken, ?_⟩
          · rw [Stream'.cons_append_stream, hsupplies]
            rfl
          · rw [List.cons_append, List.flatMap_cons, ← hdiagnostics]
      · exact ⟨[], s, rfl, List.forall_mem_nil _, rfl, by simp⟩

/-- The stream has handed out these supplies, with its first `n` tokens among them, and
`rest` is left of it. -/
structure Handed (stream rest : TokenStream) (n : Nat) (handed : List Supply) : Prop where
  supplies : stream.supplies = handed ++ₛ rest.supplies
  tokens : (handed.map (·.token)).filter (·.kind ≠ .comment) = stream.tape.take n
  tape : rest.tape = stream.tape.drop n

theorem Handed.start (stream : TokenStream) : Handed stream stream 0 [] := ⟨rfl, rfl, rfl⟩

theorem Handed.pull {stream rest : TokenStream} {n : Nat} {handed : List Supply}
    (h : Handed stream rest n handed) :
    ∃ more, Handed stream rest.pull.2 (n + 1) (handed ++ more) ∧
      rest.pull.1.token = stream.tape.get n ∧
      (handed ++ more).getLast?.map (·.token) = some rest.pull.1.token ∧
      rest.pull.1.diagnostics = more.flatMap (·.diagnostics) := by
  obtain ⟨comments, next, hsupplies, hcomments, htoken, hdiagnostics⟩ := rest.pull_supplies
  have htape := rest.tape_eq_cons
  have hnext : rest.pull.1.token = stream.tape.get n := by
    rw [← Stream'.head_drop, ← h.tape, htape]
    rfl
  have hnone : (comments.map (·.token)).filter (·.kind ≠ .comment) = [] := by
    rw [List.filter_eq_nil_iff]
    simpa using hcomments
  refine ⟨comments ++ [next], ⟨?_, ?_, ?_⟩, hnext, by simp [htoken], hdiagnostics⟩
  · rw [h.supplies, hsupplies, ← Stream'.append_append_stream]
  · rw [Stream'.take_succ', ← h.tokens, ← hnext, ← htoken]
    simp only [List.map_append, List.filter_append, hnone, List.nil_append]
    simp [htoken, rest.pull_kind_ne_comment]
  · rw [← Stream'.tail_drop', ← h.tape, htape]
    rfl

end TokenStream

/-! ## Windows -/

/-- What a parser has to do with its stream. -/
structure Window where
  current : Token
  lookahead : Token
  stream : TokenStream
  /-- How often the window has been moved. -/
  index : Nat
  /-- The diagnostics that have come with tokens so far. -/
  received : List Diagnostic

/-- The window, one token on. -/
def Window.move (w : Window) : Window :=
  { current := w.lookahead
    lookahead := w.stream.pull.1.token
    stream := w.stream.pull.2
    index := w.index + 1
    received := w.received ++ w.stream.pull.1.diagnostics }

theorem Window.move_index (w : Window) (n : Nat) : (move^[n] w).index = w.index + n := by
  induction n with
  | zero => rfl
  | succ n ih =>
      rw [Function.iterate_succ_apply', move, ih, Nat.add_assoc]

namespace Parser

theorem handedOver_diagnostics (s : Supply) :
    (handedOver s).map (·.diagnostic) = s.diagnostics := by
  simp [handedOver, Function.comp_def]

/-- The window of the parser. -/
def window (p : Parser) : Window where
  current := p.current
  lookahead := p.lookahead
  stream := p.stream
  index := p.index
  received := (p.findings.filter (·.origin = .stream)).map (·.diagnostic)

theorem window_advance (p : Parser) : p.advance.window = p.window.move := by
  simp [window, advance, Window.move, filter_handedOver, handedOver_diagnostics]

theorem window_record (p : Parser) (d : Diagnostic) : (p.record d).window = p.window := by
  simp [window, record]

/-- The parse has come from `p` to `q`. The window has been moved and nothing else has
become of it, and no diagnostic has been lost. -/
structure Slides (p q : Parser) : Prop where
  window : ∃ n, q.window = Window.move^[n] p.window
  findings : p.findings <+: q.findings

namespace Slides

variable {p q : Parser}

theorem of_window_eq (h : q.window = p.window) (hfindings : p.findings <+: q.findings) :
    Slides p q :=
  ⟨⟨0, h⟩, hfindings⟩

/-- The counter tells how often the window has been moved. -/
theorem index (h : Slides p q) :
    p.index ≤ q.index ∧ q.window = Window.move^[q.index - p.index] p.window := by
  obtain ⟨n, hn⟩ := h.window
  have hindex : q.index = p.index + n := by
    rw [show q.index = q.window.index from rfl, hn, Window.move_index]
    rfl
  rw [hindex, Nat.add_sub_cancel_left]
  exact ⟨Nat.le_add_right _ _, hn⟩

/-- Every step of a parse slides. -/
instance : Throughout Slides where
  refl _ := .of_window_eq rfl List.prefix_rfl
  trans := by
    intro p q r h h'
    obtain ⟨n, hn⟩ := h.window
    obtain ⟨m, hm⟩ := h'.window
    exact ⟨⟨m + n, by rw [hm, hn, Function.iterate_add_apply]⟩, h.findings.trans h'.findings⟩
  advance p := ⟨⟨1, p.window_advance⟩, List.prefix_append _ _⟩
  note _ _ _ _ _ := .of_window_eq rfl List.prefix_rfl
  settle _ := .of_window_eq rfl List.prefix_rfl
  statement _ _ _ := .of_window_eq rfl List.prefix_rfl
  record p d := .of_window_eq (p.window_record d) (List.prefix_append _ _)
  stop _ := .of_window_eq rfl List.prefix_rfl

end Slides

/-- A production that goes along a relation, even if it runs out of fuel, leaves the parser
in a state that the relation leads to. -/
theorem behind_along {R : Parser → Parser → Prop} {x : ParseM α} (h : AlongIf True R x)
    (p : Parser) : R p (p.behind x) := by
  have h := h p
  unfold behind
  cases hx : x p with
  | ok a q => exact h.of_ok hx
  | error f q => exact h.of_error hx fun _ => trivial

/-! ## Operations -/

theorem run_slides (op : Operation) (p : Parser) : Slides p (op.run p) := by
  have hblock : AlongIf True Slides parseBlock := parseBlock_along stmtOrRecover_along
  cases op with
  | next => exact Onward.advance p
  | expect kind => exact behind_along (.expect kind) p
  | primitiveType => exact behind_along .primitiveType p
  | advancePastStatement => exact advancePastStatement_along p
  | recover start => exact recover_along p start
  | record d => exact Throughout.record p d
  | setPrefix | setInfix | setStmt => exact .of_window_eq rfl List.prefix_rfl
  | expression power => exact behind_along (expression_along power) p
  | byPrefix rule =>
      exact behind_along (.withBudget fun fuel => applyPrefix_along (expr_along fuel) rule) p
  | byInfix left power rule =>
      exact behind_along
        (.withBudget fun fuel => applyInfix_along (expr_along fuel) left power rule) p
  | statement => exact behind_along (stmt_along hblock) p
  | byStmt rule => exact behind_along (applyStmt_along hblock rule) p
  | statementOrRecover => exact behind_along (stmtOrRecover_along _ .parseBlock hblock) p
  | block => exact behind_along hblock p
  | program => exact behind_along (parseProgram_along stmtOrRecover_along) p

theorem operate_slides (p : Parser) (ops : List Operation) : Slides p (p.operate ops) := by
  induction ops generalizing p with
  | nil => exact Onward.refl p
  | cons op ops ih => exact Onward.trans (run_slides op p) (ih _)

end Parser

/-! ## What a window shows -/

/-- The window stands on two tokens of the stream, one behind the other, and these supplies
are what the stream has handed out: they end with the lookahead. -/
structure Window.Shows (stream : TokenStream) (w : Window) (handed : List Supply) : Prop
    extends TokenStream.Handed stream w.stream (w.index + 2) handed where
  current : w.current = stream.tape.get w.index
  lookahead : w.lookahead = stream.tape.get (w.index + 1)
  last : handed.getLast?.map (·.token) = some w.lookahead
  received : w.received = handed.flatMap (·.diagnostics)

/-- A parser starts on the first two tokens of its stream. -/
theorem Parser.window_ofStream (stream : TokenStream) :
    ∃ handed, (Parser.ofStream stream).window.Shows stream handed := by
  obtain ⟨first, hfirst, hcurrent, -, hdiagnostics⟩ := (TokenStream.Handed.start stream).pull
  obtain ⟨second, hsecond, hlookahead, hlast, hdiagnostics'⟩ := hfirst.pull
  refine ⟨[] ++ first ++ second, hsecond, hcurrent, hlookahead, hlast, ?_⟩
  rw [List.nil_append, List.flatMap_append, ← hdiagnostics, ← hdiagnostics']
  simp [window, ofStream, filter_handedOver, handedOver_diagnostics]

namespace Window.Shows

variable {stream : TokenStream} {w : Window} {handed : List Supply}

theorem move (h : w.Shows stream handed) : ∃ handed', w.move.Shows stream handed' := by
  obtain ⟨more, hhanded, htoken, hlast, hdiagnostics⟩ := h.toHanded.pull
  refine ⟨handed ++ more, hhanded, h.lookahead, htoken, hlast, ?_⟩
  rw [List.flatMap_append, ← h.received, ← hdiagnostics]
  rfl

theorem iterate (n : Nat) (h : w.Shows stream handed) :
    ∃ handed', (Window.move^[n] w).Shows stream handed' := by
  induction n with
  | zero => exact ⟨handed, h⟩
  | succ n ih =>
      obtain ⟨handed', h'⟩ := ih
      rw [Function.iterate_succ_apply']
      exact h'.move

end Window.Shows

/-- Whatever has been done to a parser, with or without success, its window shows two
tokens of the stream that stand next to each other, and the diagnostics that came with the
tokens up to the second one have been recorded, each in its turn. Whatever is done next,
the window is moved forward as often as the counter says and changed in no other way, and
no diagnostic is taken back. -/
theorem operate_window (stream : TokenStream) (ops later : List Operation) :
    let p := (Parser.ofStream stream).operate ops
    let q := p.operate later
    (∃ handed, p.window.Shows stream handed) ∧ p.index ≤ q.index ∧
      q.window = Window.move^[q.index - p.index] p.window ∧ p.findings <+: q.findings := by
  intro p q
  obtain ⟨n, hn⟩ := (Parser.operate_slides (.ofStream stream) ops).window
  obtain ⟨handed, hstart⟩ := Parser.window_ofStream stream
  have hlater := p.operate_slides later
  obtain ⟨hindex, hwindow⟩ := hlater.index
  exact ⟨hn ▸ hstart.iterate n, hindex, hwindow, hlater.findings⟩

end Frontend
