import Frontend.Proofs.LongestMatch
import Frontend.Token.Cursor

/-!
# What a cursor hands out

A cursor keeps three things about its place that have to agree: two offsets and a
character. `Cursor.between` makes the cursor that stands between two parts of a source,
which has them agree. No move leads away from these cursors, so the offset at which a move
takes the source apart never falls within a character.

What such a cursor hands out is what a scanner hands out in the same place. The lemmas
follow the functions of the cursor one by one, and each of them names the cursor that the
function comes to: `taking` is the token of a piece, with the cursor behind it.
-/

namespace Frontend

open Text

/-- The symbols that begin with a character are those that a piece can be. -/
theorem Symbol.startingWith_eq_some {c : Char} {pairs : List (Char × Symbol)} {single : Symbol}
    (h : startingWith c = some (pairs, single)) :
    ofChar? c = some single ∧ ∀ d, pairs.lookup d = ofPair? c d := by
  unfold startingWith at h
  split at h <;> cases h <;> refine ⟨rfl, fun d => ?_⟩
  all_goals
    unfold ofPair?
    grind

theorem Symbol.startingWith_eq_none {c : Char} (h : startingWith c = none) :
    ofChar? c = none ∧ ∀ d, ofPair? c d = none := by
  unfold startingWith at h
  split at h <;> cases h
  refine ⟨?_, fun d => ?_⟩
  · unfold ofChar?
    split <;> simp_all
  · unfold ofPair?
    split <;> simp_all

namespace Cursor

/-- The cursor that has `before` in front of it and stands on the first character of
`rest`, or on NUL if nothing is left. -/
def between (before rest : List Char) (file : String) (ds : List Diagnostic) : Cursor where
  source := before ++ rest
  offset := byteSize before
  next := byteSize (before ++ rest.take 1)
  current := rest.headD nul
  file := file
  diagnostics := ds

variable {before rest cs : List Char} {c : Char} {file : String} {ds : List Diagnostic}

/-! ## Single steps -/

theorem atEnd_between : (between before rest file ds).atEnd = rest.isEmpty := by
  cases rest with
  | nil => simp [between, atEnd]
  | cons c cs =>
      have hpos := c.utf8Size_pos
      simp only [between, atEnd, byteSize_append, byteSize_cons, List.isEmpty_cons,
        decide_eq_false_iff_not]
      omega

theorem current_between_cons : (between before (c :: cs) file ds).current = c := rfl

/-- The text behind the first character of `c :: cs`. -/
theorem from?_behind : from? (before ++ c :: cs) (byteSize (before ++ [c])) = some cs := by
  rw [show before ++ c :: cs = before ++ [c] ++ cs by simp, from?_byteSize]

theorem advance_between_cons :
    (between before (c :: cs) file ds).advance = some (between (before ++ [c]) cs file ds) := by
  cases cs with
  | nil => simp [between, advance]
  | cons d cs =>
      have hpos := d.utf8Size_pos
      have hlt : ¬ byteSize (before ++ c :: d :: cs) ≤ byteSize (before ++ [c]) := by
        simp only [byteSize_append, byteSize_cons, byteSize_nil]
        omega
      simp only [between, advance, List.take_succ_cons, List.take_zero, hlt, if_false,
        from?_behind]
      simp [Nat.add_assoc]

/-- At the end a cursor cannot be moved. -/
theorem advance_between_nil :
    (between before [] file ds).advance = some (between before [] file ds) := by
  simp [between, advance]

theorem peek_between_cons :
    (between before (c :: cs) file ds).peek = some (cs.headD nul) := by
  have hle : byteSize (before ++ [c]) ≤ byteSize (before ++ c :: cs) := by
    simp only [byteSize_append, byteSize_cons, byteSize_nil]
    omega
  simp only [between, peek, List.take_succ_cons, List.take_zero, Nat.min_eq_left hle,
    from?_behind]
  rfl

theorem peek_between_nil : (between before [] file ds).peek = some nul := by
  have hfrom := from?_byteSize before []
  rw [List.append_nil] at hfrom
  simp only [between, peek, List.take_nil, List.append_nil, Nat.min_self, hfrom]
  rfl

theorem report_between (cause : Cause) (start : Nat) :
    (between before rest file ds).report cause start =
      between before rest file (ds ++ [⟨cause, .mark start file⟩]) := rfl

theorem slice?_between (text : List Char) :
    slice? (between (before ++ text) rest file ds).source (byteSize before)
      (between (before ++ text) rest file ds).offset = some text :=
  slice?_eq_some_iff.mpr ⟨before, rest, rfl, rfl, rfl⟩

theorem finish_between (kind : Kind) (text : List Char) :
    (between (before ++ text) rest file ds).finish kind (byteSize before) =
      some (⟨kind, String.ofList text,
          Span.mark (byteSize before) (byteSize before + byteSize text) file⟩,
        between (before ++ text) rest file ds) := by
  rw [finish, slice?_between, ← byteSize_append]
  rfl

/-! ## Loops -/

/-- The condition is one about the current character. It does not hold at the end, where
there is none. -/
structure Tests (p : Cursor → Bool) (q : Char → Bool) : Prop where
  on_char : ∀ before c cs file ds, p (between before (c :: cs) file ds) = q c
  at_end : ∀ before file ds, p (between before [] file ds) = false

theorem Tests.current {q : Char → Bool} (h : q nul = false) : Tests (fun c => q c.current) q :=
  ⟨fun _ _ _ _ _ => rfl, fun _ _ _ => h⟩

theorem Tests.inLine : Tests (fun c => c.current ≠ '\n' && !c.atEnd) (· ≠ '\n') where
  on_char before c cs file ds := by
    rw [atEnd_between]
    exact Bool.and_true _
  at_end before file ds := by
    rw [atEnd_between]
    exact Bool.and_false _

theorem advanceWhile_between {p : Cursor → Bool} {q : Char → Bool} (h : Tests p q) {fuel : Nat}
    (hfuel : rest.length < fuel) :
    (between before rest file ds).advanceWhile p fuel =
      some (between (before ++ rest.takeWhile q) (rest.dropWhile q) file ds) := by
  induction rest generalizing before fuel with
  | nil =>
      obtain ⟨fuel, rfl⟩ := Nat.exists_eq_succ_of_ne_zero (Nat.ne_of_gt hfuel)
      simp [advanceWhile, h.at_end]
  | cons c cs ih =>
      obtain ⟨fuel, rfl⟩ := Nat.exists_eq_succ_of_ne_zero (Nat.ne_of_gt (Nat.zero_lt_of_lt hfuel))
      rw [List.length_cons, Nat.succ_lt_succ_iff] at hfuel
      rw [advanceWhile, h.on_char]
      cases hc : q c with
      | false => simp [hc]
      | true =>
          rw [if_pos rfl, advance_between_cons]
          refine (ih hfuel).trans ?_
          simp [hc]

theorem length_lt_budget : rest.length < (between before rest file ds).budget := by
  have hlen := length_le_byteSize rest
  simp only [budget, between, byteSize_append]
  omega

/-- A loop passes the characters that satisfy its condition. -/
theorem advanceWhile_budget {p : Cursor → Bool} {q : Char → Bool} (h : Tests p q) :
    (between before rest file ds).advanceWhile p (between before rest file ds).budget =
      some (between (before ++ rest.takeWhile q) (rest.dropWhile q) file ds) :=
  advanceWhile_between h length_lt_budget

theorem skipBlanks_between :
    (between before rest file ds).skipBlanks =
      some (between (before ++ rest.takeWhile isBlank) (rest.dropWhile isBlank) file ds) :=
  advanceWhile_budget (.current rfl)

/-- Where the search for a closing mark comes to, and whether there is one. -/
def closing (before rest : List Char) (file : String) (ds : List Diagnostic) : Bool × Cursor :=
  match splitComment? rest with
  | some (body, rest) => (true, between (before ++ body) rest file ds)
  | none => (false, between (before ++ rest) [] file ds)

theorem closing_mark :
    closing before ('*' :: '/' :: cs) file ds =
      (true, between (before ++ ['*', '/']) cs file ds) := rfl

theorem closing_cons (h : ¬ (c = '*' ∧ cs.head? = some '/')) :
    closing before (c :: cs) file ds = closing (before ++ [c]) cs file ds := by
  rw [closing, closing, splitComment?, if_neg h]
  cases splitComment? cs <;> simp

/-- NUL is a character like any other between the marks of a comment: only the end of the
source is the end. -/
theorem skipToClosingMark_between {fuel : Nat} (hfuel : rest.length < fuel) :
    (between before rest file ds).skipToClosingMark fuel = some (closing before rest file ds) := by
  induction rest generalizing before fuel with
  | nil =>
      obtain ⟨fuel, rfl⟩ := Nat.exists_eq_succ_of_ne_zero (Nat.ne_of_gt hfuel)
      simp [skipToClosingMark, atEnd_between, closing, splitComment?]
  | cons c cs ih =>
      obtain ⟨fuel, rfl⟩ := Nat.exists_eq_succ_of_ne_zero (Nat.ne_of_gt (Nat.zero_lt_of_lt hfuel))
      rw [List.length_cons, Nat.succ_lt_succ_iff] at hfuel
      rw [skipToClosingMark, atEnd_between, current_between_cons, peek_between_cons,
        advance_between_cons]
      by_cases hstar : c = '*'
      · cases cs with
        -- A star is the last character: what follows it is peeked at as NUL, no slash.
        | nil => simp [hstar, nul, ih hfuel, closing_cons]
        | cons d ds =>
            by_cases hslash : d = '/'
            · simp [hstar, hslash, advance_between_cons, closing_mark]
            · simp [hstar, hslash, ih hfuel, closing_cons]
      · simp [hstar, ih hfuel, closing_cons]

/-! ## Pieces -/

/-- What is handed out with a piece, and the cursor behind it. The piece stands behind
`before`. -/
def taking (piece : Piece) (before : List Char) (file : String) (ds : List Diagnostic) :
    Token × Cursor :=
  let s : Scanner := ⟨file, byteSize before, piece.text ++ piece.rest, ds⟩
  (s.tokenOf piece,
    between (before ++ piece.text) piece.rest file (s.skipPiece piece).diagnostics)

theorem finish_eq_taking (piece : Piece) (h : piece.kind ≠ .illegal) :
    (taking piece before file ds).2.finish piece.kind (byteSize before) =
      some (taking piece before file ds) := by
  rw [taking, finish_between]
  simp [Scanner.tokenOf, h, between]

/-- Nothing is reported with a piece in which nothing is wrong. -/
theorem finish_eq_taking_of_sound (piece : Piece) (h : piece.kind ≠ .illegal)
    (hcause : piece.cause? = none) :
    (between (before ++ piece.text) piece.rest file ds).finish piece.kind (byteSize before) =
      some (taking piece before file ds) := by
  have hbehind : (taking piece before file ds).2 =
      between (before ++ piece.text) piece.rest file ds := by
    simp [taking, Scanner.skipPiece, hcause]
  rw [← finish_eq_taking piece h, hbehind]

theorem lineComment_between :
    (between before rest file ds).lineComment (byteSize before) =
      some (taking (.lineComment rest) before file ds) := by
  rw [lineComment, advanceWhile_budget .inLine]
  exact finish_eq_taking_of_sound (.lineComment rest) Kind.noConfusion rfl

theorem blockComment_between :
    (between before ('/' :: '*' :: cs) file ds).blockComment (byteSize before) =
      some (taking (.blockComment cs) before file ds) := by
  have hmark : (between (before ++ ['/'] ++ ['*']) cs file ds).skipToClosingMark
      (between (before ++ ['/'] ++ ['*']) cs file ds).budget = _ :=
    skipToClosingMark_between length_lt_budget
  have hbehind : ∀ text : List Char,
      before ++ ['/'] ++ ['*'] ++ text = before ++ '/' :: '*' :: text := by simp
  simp only [blockComment, advance_between_cons, Option.bind_some, bind, hmark, closing,
    Piece.blockComment]
  cases splitComment? cs with
  | none =>
      simp only [hbehind, report_between, Bool.false_eq_true, if_false]
      exact finish_eq_taking ⟨.comment, '/' :: '*' :: cs, [], some .unterminatedComment⟩
        Kind.noConfusion
  | some split =>
      simp only [hbehind, if_true]
      exact finish_eq_taking_of_sound ⟨.comment, '/' :: '*' :: split.1, split.2, none⟩
        Kind.noConfusion rfl

theorem number_between :
    (between before rest file ds).number (byteSize before) =
      some (taking (.number rest) before file ds) := by
  rw [number, advanceWhile_budget (.current (q := isNumberPart) rfl)]
  exact finish_eq_taking_of_sound (.number rest) Kind.noConfusion rfl

theorem word_between :
    (between before rest file ds).word (byteSize before) =
      some (taking (.word rest) before file ds) := by
  rw [word, advanceWhile_budget (.current (q := isWordPart) rfl)]
  simp only [Option.bind_some, bind, slice?_between]
  exact finish_eq_taking_of_sound (.word rest) (Kind.ofWord_ne_illegal _) rfl

theorem illegal_between :
    (between before (c :: cs) file ds).illegal (byteSize before) =
      some (taking (.illegal c cs) before file ds) := by
  rw [illegal, report_between, advance_between_cons]
  simp [taking, Scanner.tokenOf, Scanner.skipPiece, Piece.illegal, between]

/-- NUL is part of no symbol. -/
theorem ofPair?_nul (c : Char) : Symbol.ofPair? c nul = none := by
  refine Option.eq_none_iff_forall_ne_some.mpr fun s hs => ?_
  rw [Symbol.ofPair?_eq_some_iff] at hs
  cases s <;> simp [Symbol.spelling, nul] at hs

section Symbols

variable {pairs : List (Char × Symbol)} {single : Symbol}

theorem symbol_of_ofPair? (h : Symbol.startingWith c = some (pairs, single)) {d : Char}
    {s : Symbol} (hs : Symbol.ofPair? c d = some s) :
    (between before (c :: d :: cs) file ds).symbol pairs single (byteSize before) =
      some (taking ⟨.symbol s, [c, d], cs, none⟩ before file ds) := by
  have hlookup : pairs.lookup d = some s := ((Symbol.startingWith_eq_some h).2 d).trans hs
  have hne : pairs ≠ [] := by
    rintro rfl
    cases hlookup
  have hchoose : (between before (c :: d :: cs) file ds).choose pairs single =
      some (s, between (before ++ [c]) (d :: cs) file ds) := by
    simp [choose, hne, peek_between_cons, hlookup, advance_between_cons]
  simp only [symbol, hchoose, Option.bind_some, bind, advance_between_cons, List.append_assoc]
  exact finish_eq_taking_of_sound ⟨.symbol s, [c, d], cs, none⟩ Kind.noConfusion rfl

theorem symbol_of_pair?_eq_none (h : Symbol.startingWith c = some (pairs, single))
    (hpair : Piece.pair? c cs = none) :
    (between before (c :: cs) file ds).symbol pairs single (byteSize before) =
      some (taking ⟨.symbol single, [c], cs, none⟩ before file ds) := by
  have hlookup : pairs.lookup (cs.headD nul) = none := by
    rw [(Symbol.startingWith_eq_some h).2]
    cases cs with
    | nil => exact ofPair?_nul c
    | cons d cs => simpa [Piece.pair?] using hpair
  have hchoose : (between before (c :: cs) file ds).choose pairs single =
      some (single, between before (c :: cs) file ds) := by
    simp only [choose, peek_between_cons, Option.bind_some, bind, hlookup]
    split <;> rfl
  simp only [symbol, hchoose, Option.bind_some, bind, advance_between_cons]
  exact finish_eq_taking_of_sound ⟨.symbol single, [c], cs, none⟩ Kind.noConfusion rfl

end Symbols

theorem piece_eq_plain (h : ¬ Piece.OpensComment c cs) :
    (between before (c :: cs) file ds).piece =
      (between before (c :: cs) file ds).plain (byteSize before) := by
  rw [piece, current_between_cons, peek_between_cons]
  by_cases hc : c = '/'
  · cases cs with
    | nil => simp [hc, nul, between]
    | cons d cs =>
        have hd : d ≠ '/' ∧ d ≠ '*' := by simpa [Piece.OpensComment, hc] using h
        simp [hc, hd.1, hd.2, between]
  · simp [hc, between]

theorem piece_eq_plain_of_ofChar?_eq_none (h : Symbol.ofChar? c = none) :
    (between before (c :: cs) file ds).piece =
      if c.isDigit then (between before (c :: cs) file ds).number (byteSize before)
      else if isWordStart c then (between before (c :: cs) file ds).word (byteSize before)
      else (between before (c :: cs) file ds).illegal (byteSize before) := by
  have hopen : ¬ Piece.OpensComment c cs := by
    rintro ⟨rfl, -⟩
    cases h
  rw [piece_eq_plain hopen, plain, current_between_cons]
  cases hsymbol : Symbol.startingWith c with
  | none => rfl
  | some entry =>
      rw [(Symbol.startingWith_eq_some hsymbol).1] at h
      cases h

/-- A cursor hands out the first piece of the text in front of it. -/
theorem piece_between :
    (between before (c :: cs) file ds).piece = some (taking (.cut c cs) before file ds) := by
  refine Piece.cut_cases (motive := fun c cs piece =>
    (between before (c :: cs) file ds).piece = some (taking piece before file ds))
    ?line ?block ?pair ?single ?number ?word ?illegal c cs
  case line =>
    intro cs
    rw [piece, peek_between_cons]
    exact lineComment_between
  case block =>
    intro cs
    rw [piece, peek_between_cons]
    exact blockComment_between
  case pair =>
    intro c d cs s hopen hs
    rw [piece_eq_plain hopen, plain, current_between_cons]
    cases hsymbol : Symbol.startingWith c with
    | none =>
        rw [(Symbol.startingWith_eq_none hsymbol).2] at hs
        cases hs
    | some entry => exact symbol_of_ofPair? hsymbol hs
  case single =>
    intro c cs s hopen hpair hs
    rw [piece_eq_plain hopen, plain, current_between_cons]
    cases hsymbol : Symbol.startingWith c with
    | none =>
        rw [(Symbol.startingWith_eq_none hsymbol).1] at hs
        cases hs
    | some entry =>
        obtain rfl : entry.2 = s :=
          Option.some.inj ((Symbol.startingWith_eq_some hsymbol).1.symm.trans hs)
        exact symbol_of_pair?_eq_none hsymbol hpair
  case number =>
    intro c cs hc hdigit
    rw [piece_eq_plain_of_ofChar?_eq_none hc, if_pos hdigit, number_between]
  case word =>
    intro c cs hc hword
    rw [piece_eq_plain_of_ofChar?_eq_none hc,
      if_neg (by simp [Piece.isDigit_eq_false_of_isWordStart hword]), if_pos hword, word_between]
  case illegal =>
    intro c cs hc hdigit hword
    rw [piece_eq_plain_of_ofChar?_eq_none hc, if_neg (by simp [hdigit]),
      if_neg (by simp [hword]), illegal_between]

/-- A cursor behind which only blanks are left hands out the end token. -/
theorem scan_between_of_nil (h : rest.dropWhile isBlank = []) :
    (between before rest file ds).scan =
      some (Token.atEnd (byteSize (before ++ rest)) file, between (before ++ rest) [] file ds) := by
  have hall := List.takeWhile_eq_self_iff.mpr (List.dropWhile_eq_nil_iff.mp h)
  simp only [scan, skipBlanks_between, h, hall, Option.bind_some, bind, atEnd_between]
  rfl

theorem scan_between_of_cons (h : rest.dropWhile isBlank = c :: cs) :
    (between before rest file ds).scan =
      some (taking (.cut c cs) (before ++ rest.takeWhile isBlank) file ds) := by
  simp only [scan, skipBlanks_between, h, Option.bind_some, bind, atEnd_between, piece_between]
  simp

end Cursor

end Frontend
