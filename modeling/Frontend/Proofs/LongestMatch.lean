import Frontend.Proofs.Scanning
import Mathlib.Data.List.Infix
import Mathlib.Data.List.TakeWhile

/-!
# Longest match

Which texts are tokens can be said without saying how a scanner finds them:
`Lexeme kind text rest` lists the classes. A word, a number or a symbol is told
from its characters alone. How far a comment goes depends on what comes behind
it, so the rest of the text belongs to the statement.

A scanner takes the longest of these that the text in front of it begins with,
`scan_longest`. The classes overlap only where one token is the beginning of
another, and two tokens of one text have the same kind, so the longest token is
unique. A character that begins none is taken on its own.
-/

namespace Frontend

open Text

/-- The text in front of `rest` is a token of this kind. -/
inductive Lexeme : Kind → List Char → List Char → Prop
  | symbol (s : Symbol) (rest : List Char) : Lexeme (.symbol s) s.spelling rest
  | word {c : Char} {cs : List Char} (hc : isWordStart c) (hcs : ∀ d ∈ cs, isWordPart d)
      (rest : List Char) : Lexeme (Kind.ofWord (String.ofList (c :: cs))) (c :: cs) rest
  | number {c : Char} {cs : List Char} (hc : c.isDigit) (hcs : ∀ d ∈ cs, isNumberPart d)
      (rest : List Char) : Lexeme .number (c :: cs) rest
  /-- A comment up to the end of the line. -/
  | lineComment {body rest : List Char} (hbody : ∀ c ∈ body, c ≠ '\n')
      (hrest : ∀ c ∈ rest.head?, c = '\n') : Lexeme .comment ('/' :: '/' :: body) rest
  /-- A comment up to the first closing mark behind the opening one. -/
  | blockComment {body : List Char} (hbody : ¬ ['*', '/'] <:+: body ++ ['*'])
      (rest : List Char) : Lexeme .comment ('/' :: '*' :: (body ++ ['*', '/'])) rest
  /-- A comment that is never closed takes all of the text. -/
  | openComment {body : List Char} (hbody : ¬ ['*', '/'] <:+: body) :
      Lexeme .comment ('/' :: '*' :: body) []

/-- The text in front of `rest` is a token of this kind, and every other token
that the whole begins with is shorter. -/
structure LongestLexeme (kind : Kind) (text rest : List Char) : Prop where
  lexeme : Lexeme kind text rest
  longest : ∀ {kind' text' rest'}, text' ++ rest' = text ++ rest → Lexeme kind' text' rest' →
    text'.length < text.length ∨ (text' = text ∧ kind' = kind)

/-- The text begins with no token. -/
def NoLexeme (cs : List Char) : Prop :=
  ∀ kind text rest, text ++ rest = cs → ¬ Lexeme kind text rest

/-! ## Comments -/

/-- A closing mark is found in front, or further on. -/
theorem closingMark_infix_cons {c : Char} {cs : List Char} :
    ['*', '/'] <:+: c :: cs ↔ (c = '*' ∧ cs.head? = some '/') ∨ ['*', '/'] <:+: cs := by
  rw [List.infix_cons_iff, List.cons_prefix_cons]
  cases cs with
  | nil => simp
  | cons d ds => simp [List.cons_prefix_cons, eq_comm]

theorem splitComment?_eq_none_iff {cs : List Char} :
    splitComment? cs = none ↔ ¬ ['*', '/'] <:+: cs := by
  induction cs with
  | nil => simp [splitComment?]
  | cons c cs ih =>
      rw [splitComment?, closingMark_infix_cons]
      split
      · next h => simp [h]
      · next h => simp only [Option.map_eq_none_iff, ih, h, false_or]

/-- A comment is split behind the first closing mark. -/
theorem exists_inner_of_splitComment? {cs body rest : List Char}
    (h : splitComment? cs = some (body, rest)) :
    ∃ inner, body = inner ++ ['*', '/'] ∧ ¬ ['*', '/'] <:+: inner ++ ['*'] := by
  induction cs generalizing body with
  | nil => cases h
  | cons c cs ih =>
      rw [splitComment?] at h
      split at h
      · cases h
        exact ⟨[], rfl, by simp [closingMark_infix_cons]⟩
      · next hc =>
          obtain ⟨⟨body, rest⟩, hsplit, hbody⟩ := Option.map_eq_some_iff.mp h
          cases hbody
          obtain ⟨inner, rfl, hinner⟩ := ih hsplit
          refine ⟨c :: inner, rfl, ?_⟩
          rw [List.cons_append, closingMark_infix_cons, not_or]
          refine ⟨?_, hinner⟩
          -- What follows `c` in the text follows it in the body too.
          rw [← append_of_splitComment?_eq_some hsplit] at hc
          cases inner with
          | nil => simp
          | cons d ds => exact hc

theorem splitComment?_of_inner {inner : List Char} (h : ¬ ['*', '/'] <:+: inner ++ ['*'])
    (rest : List Char) :
    splitComment? (inner ++ ['*', '/'] ++ rest) = some (inner ++ ['*', '/'], rest) := by
  induction inner with
  | nil => simp [splitComment?]
  | cons c inner ih =>
      rw [List.cons_append, closingMark_infix_cons, not_or] at h
      rw [List.cons_append, List.cons_append, splitComment?, if_neg, ih h.2]
      · rfl
      · cases inner with
        | nil => simp
        | cons d ds => exact h.1

/-! ## Cutting -/

namespace Piece

theorem not_opensComment_of_ofPair? {c d : Char} {s : Symbol} (h : Symbol.ofPair? c d = some s)
    (cs : List Char) : ¬ OpensComment c (d :: cs) := by
  rintro ⟨rfl, hd | hd⟩
  · obtain rfl : d = '/' := by simpa using hd
    cases h
  · obtain rfl : d = '*' := by simpa using hd
    cases h

/-- A character that starts a word or a number is part of no symbol. -/
theorem symbol_eq_none_of_isWordPart {c : Char} (h : isWordPart c) (cs : List Char) :
    pair? c cs = none ∧ single? c cs = none ∧ c ≠ '/' := by
  have hne : ∀ (s : Symbol) (ds : List Char), s.spelling ≠ c :: ds := by
    intro s ds hs
    cases s <;> cases hs <;> revert h <;> decide
  refine ⟨?_, ?_, ?_⟩
  · cases cs with
    | nil => rfl
    | cons d ds =>
        refine Option.map_eq_none_iff.mpr (Option.eq_none_iff_forall_ne_some.mpr fun s hs => ?_)
        exact hne s _ (Symbol.ofPair?_eq_some_iff.mp hs)
  · refine Option.map_eq_none_iff.mpr (Option.eq_none_iff_forall_ne_some.mpr fun s hs => ?_)
    exact hne s _ (Symbol.ofChar?_eq_some_iff.mp hs)
  · rintro rfl
    revert h
    decide

theorem isDigit_eq_false_of_isWordStart {c : Char} (h : isWordStart c) : c.isDigit = false := by
  delta isWordStart Char.isAlpha Char.isUpper Char.isLower at h
  simp only [Bool.or_eq_true, Bool.and_eq_true, decide_eq_true_eq] at h
  simp only [Char.isDigit, Bool.and_eq_false_iff, decide_eq_false_iff_not]
  rcases h with (h | h) | rfl
  · right
    have := h.1
    grind
  · grind
  · decide

theorem cut_of_isDigit {c : Char} (h : c.isDigit) (cs : List Char) :
    cut c cs = number (c :: cs) := by
  obtain ⟨hp, hs, hc⟩ := symbol_eq_none_of_isWordPart (c := c) (by simp [isWordPart, h]) cs
  simp only [cut, hc, false_and, if_false, hp, hs, h, if_true]

theorem cut_of_isWordStart {c : Char} (h : isWordStart c) (cs : List Char) :
    cut c cs = word (c :: cs) := by
  obtain ⟨hp, hs, hc⟩ := symbol_eq_none_of_isWordPart (c := c) (by simp [isWordPart, h]) cs
  simp [cut, hc, hp, hs, isDigit_eq_false_of_isWordStart h, h]

theorem cut_lineComment (cs : List Char) :
    cut '/' ('/' :: cs) = lineComment ('/' :: '/' :: cs) := rfl

theorem cut_blockComment (cs : List Char) : cut '/' ('*' :: cs) = blockComment cs := rfl

theorem cut_of_ofPair? {c d : Char} {s : Symbol} (h : Symbol.ofPair? c d = some s)
    (cs : List Char) : cut c (d :: cs) = ⟨.symbol s, [c, d], cs, none⟩ := by
  have hopen := not_opensComment_of_ofPair? h cs
  rw [cut, if_neg fun hc => hopen ⟨hc.1, .inl hc.2⟩, if_neg fun hc => hopen ⟨hc.1, .inr hc.2⟩,
    pair?, h]
  rfl

theorem cut_of_ofChar? {c : Char} {cs : List Char} {s : Symbol} (h : Symbol.ofChar? c = some s)
    (hp : pair? c cs = none) (hopen : ¬ OpensComment c cs) :
    cut c cs = ⟨.symbol s, [c], cs, none⟩ := by
  rw [cut, if_neg fun hc => hopen ⟨hc.1, .inl hc.2⟩, if_neg fun hc => hopen ⟨hc.1, .inr hc.2⟩,
    hp, single?, h]
  rfl

/-- A comment has two characters at least. -/
theorem two_le_length_of_opensComment {c : Char} {cs : List Char} (h : OpensComment c cs) :
    2 ≤ (cut c cs).text.length := by
  obtain ⟨rfl, hd | hd⟩ := h
  · obtain ⟨ds, rfl⟩ := List.head?_eq_some_iff.mp hd
    simp [cut, lineComment]
  · obtain ⟨ds, rfl⟩ := List.head?_eq_some_iff.mp hd
    rw [cut_blockComment, blockComment]
    split <;> simp

end Piece

/-! ## The longest token -/

theorem Lexeme.ne_nil {kind : Kind} {text rest : List Char} (h : Lexeme kind text rest) :
    text ≠ [] := by
  cases h with
  | symbol s => cases s <;> simp [Symbol.spelling]
  | _ => exact List.cons_ne_nil _ _

namespace Kind

/-- Whether the kind is one of words. -/
def isWord : Kind → Bool
  | identifier | type _ | keyword _ => true
  | _ => false

theorem ofWord_eq_identifier_or_mem (word : String) :
    ofWord word = .identifier ∨ (word, ofWord word) ∈ reservedWords := by
  unfold ofWord
  cases hl : reservedWords.lookup word with
  | none => exact .inl rfl
  | some kind =>
      obtain ⟨before, after, heq, -⟩ := List.lookup_eq_some_iff.mp hl
      refine .inr ?_
      rw [heq]
      simp

theorem isWord_ofWord (word : String) : (ofWord word).isWord := by
  have h : ∀ entry ∈ reservedWords, entry.2.isWord := by decide
  rcases ofWord_eq_identifier_or_mem word with hword | hword
  · rw [hword]
    rfl
  · exact h _ hword

theorem ofWord_ne_illegal (word : String) : ofWord word ≠ .illegal := by
  intro h
  have hword := isWord_ofWord word
  rw [h] at hword
  cases hword

end Kind

theorem Lexeme.kind_ne_illegal {kind : Kind} {text rest : List Char}
    (h : Lexeme kind text rest) : kind ≠ .illegal := by
  cases h with
  | word => exact Kind.ofWord_ne_illegal _
  | _ => simp

/-- A token is a symbol, a word, a number or a comment. -/
theorem Lexeme.forms {kind : Kind} {text rest : List Char} (h : Lexeme kind text rest) :
    (∃ s, kind = .symbol s ∧ text = s.spelling) ∨
      (kind.isWord ∧ kind = Kind.ofWord (String.ofList text) ∧
        ∃ c cs, text = c :: cs ∧ isWordStart c ∧ ∀ d ∈ cs, isWordPart d) ∨
      (kind = .number ∧ ∃ c cs, text = c :: cs ∧ c.isDigit ∧ ∀ d ∈ cs, isNumberPart d) ∨
      kind = .comment := by
  cases h with
  | symbol s => exact .inl ⟨s, rfl, rfl⟩
  | word hc hcs => exact .inr (.inl ⟨Kind.isWord_ofWord _, rfl, _, _, rfl, hc, hcs⟩)
  | number hc hcs => exact .inr (.inr (.inl ⟨rfl, _, _, rfl, hc, hcs⟩))
  | lineComment | blockComment | openComment => exact .inr (.inr (.inr rfl))

/-- A run of characters is no longer than the longest one. -/
theorem run_shorter_or_eq {p : Char → Bool} {text : List Char} (h : ∀ c ∈ text, p c)
    (rest : List Char) :
    text.length < ((text ++ rest).takeWhile p).length ∨ text = (text ++ rest).takeWhile p := by
  rw [List.takeWhile_append_of_pos h]
  cases rest.takeWhile p with
  | nil => exact .inr (List.append_nil text).symm
  | cons c cs => exact .inl (by simp)

namespace Piece

theorem shorter_or_eq_cut_symbol {s : Symbol} {c : Char} {cs rest : List Char}
    (heq : s.spelling ++ rest = c :: cs) :
    s.spelling.length < (cut c cs).text.length ∨
      (s.spelling = (cut c cs).text ∧ .symbol s = (cut c cs).kind) := by
  have hforms : (∃ c, s.spelling = [c]) ∨ ∃ c d, s.spelling = [c, d] := by
    cases s <;> simp [Symbol.spelling]
  obtain ⟨a, ha⟩ | ⟨a, b, hab⟩ := hforms
  · rw [ha, List.singleton_append] at heq
    obtain ⟨rfl, rfl⟩ := List.cons.inj heq
    rw [ha]
    by_cases hopen : OpensComment a rest
    · exact .inl (two_le_length_of_opensComment hopen)
    · cases hp : pair? a rest with
      | none =>
          rw [cut_of_ofChar? (Symbol.ofChar?_eq_some_iff.mpr ha) hp hopen]
          exact .inr ⟨rfl, rfl⟩
      | some piece =>
          cases rest with
          | nil => cases hp
          | cons d ds =>
              obtain ⟨t, ht, -⟩ := Option.map_eq_some_iff.mp hp
              rw [cut_of_ofPair? ht]
              exact .inl (by simp)
  · rw [hab, List.cons_append, List.singleton_append] at heq
    obtain ⟨rfl, rfl⟩ := List.cons.inj heq
    rw [hab, cut_of_ofPair? (Symbol.ofPair?_eq_some_iff.mpr hab)]
    exact .inr ⟨rfl, rfl⟩

/-- Every token that a text begins with is shorter than its first piece, or it is
that piece. -/
theorem shorter_or_eq_cut {kind : Kind} {text rest : List Char} (h : Lexeme kind text rest)
    {c : Char} {cs : List Char} (heq : text ++ rest = c :: cs) :
    text.length < (cut c cs).text.length ∨
      (text = (cut c cs).text ∧ kind = (cut c cs).kind) := by
  cases h with
  | symbol s => exact shorter_or_eq_cut_symbol heq
  | @word d ds hd hds =>
      obtain ⟨rfl, rfl⟩ := List.cons.inj heq
      have hrun := run_shorter_or_eq
        (List.forall_mem_cons.mpr ⟨show isWordPart d by simp [isWordPart, hd], hds⟩) rest
      rw [cut_of_isWordStart hd]
      refine hrun.imp id fun hrun => ⟨hrun, ?_⟩
      exact congrArg (fun text => Kind.ofWord (String.ofList text)) hrun
  | @number d ds hd hds =>
      obtain ⟨rfl, rfl⟩ := List.cons.inj heq
      have hrun := run_shorter_or_eq
        (List.forall_mem_cons.mpr ⟨show isNumberPart d by simp [isNumberPart, hd], hds⟩) rest
      rw [cut_of_isDigit hd]
      exact hrun.imp id fun hrun => ⟨hrun, rfl⟩
  | @lineComment body _ hbody hrest =>
      rw [List.cons_append] at heq
      obtain ⟨rfl, rfl⟩ := List.cons.inj heq
      have hall : ∀ c ∈ '/' :: '/' :: body, decide (c ≠ '\n') := by simpa using hbody
      have hrun := run_shorter_or_eq hall rest
      rw [List.cons_append, cut_lineComment]
      exact hrun.imp id fun hrun => ⟨hrun, rfl⟩
  | @blockComment inner hinner =>
      rw [List.cons_append] at heq
      obtain ⟨rfl, rfl⟩ := List.cons.inj heq
      rw [List.cons_append, cut_blockComment, blockComment, splitComment?_of_inner hinner]
      exact .inr ⟨rfl, rfl⟩
  | @openComment body hbody =>
      rw [List.append_nil] at heq
      obtain ⟨rfl, rfl⟩ := List.cons.inj heq
      rw [cut_blockComment, blockComment, splitComment?_eq_none_iff.mpr hbody]
      exact .inr ⟨rfl, rfl⟩

/-- A piece that is not illegal is a token. -/
theorem cut_lexeme {c : Char} {cs : List Char} (h : (cut c cs).kind ≠ .illegal) :
    Lexeme (cut c cs).kind (cut c cs).text (cut c cs).rest := by
  revert h
  refine cut_cases (motive := fun _ _ piece => piece.kind ≠ .illegal →
    Lexeme piece.kind piece.text piece.rest) ?_ ?_ ?_ ?_ ?_ ?_ ?_ c cs
  · intro cs _
    have hbody : ∀ c ∈ cs.takeWhile (· ≠ '\n'), c ≠ '\n' := fun c hc => by
      simpa using List.mem_takeWhile_imp hc
    have hrest : ∀ c ∈ (cs.dropWhile (· ≠ '\n')).head?, c = '\n' := fun c hc => by
      have := List.head?_dropWhile_not (fun x => decide (x ≠ '\n')) cs
      rw [hc] at this
      simpa using this
    exact .lineComment hbody hrest
  · intro cs _
    unfold blockComment
    split
    · next body rest hsplit =>
        obtain ⟨inner, rfl, hinner⟩ := exists_inner_of_splitComment? hsplit
        exact .blockComment hinner rest
    · next hnone => exact .openComment (splitComment?_eq_none_iff.mp hnone)
  · intro c d cs s _ hs _
    rw [← Symbol.ofPair?_eq_some_iff.mp hs]
    exact .symbol s cs
  · intro c cs s _ _ hs _
    rw [← Symbol.ofChar?_eq_some_iff.mp hs]
    exact .symbol s cs
  · intro c cs _ hc _
    have htext : (number (c :: cs)).text = c :: cs.takeWhile isNumberPart := by
      simp [number, isNumberPart, hc]
    rw [htext]
    exact .number hc (fun d hd => List.mem_takeWhile_imp hd) _
  · intro c cs _ hc _
    have htext : (word (c :: cs)).text = c :: cs.takeWhile isWordPart := by
      simp [word, isWordPart, hc]
    rw [show (word (c :: cs)).kind = Kind.ofWord (String.ofList (word (c :: cs)).text) from rfl,
      htext]
    exact .word hc (fun d hd => List.mem_takeWhile_imp hd) _
  · intro c cs _ _ _ h
    exact absurd rfl h

/-- The first piece of a text is its longest token. -/
theorem cut_longest {c : Char} {cs : List Char} (h : (cut c cs).kind ≠ .illegal) :
    LongestLexeme (cut c cs).kind (cut c cs).text (cut c cs).rest where
  lexeme := cut_lexeme h
  longest := by
    intro kind' text' rest' heq h'
    rw [cut_text_append_rest] at heq
    exact shorter_or_eq_cut h' heq

/-- An illegal piece is one character, and the text begins with no token. -/
theorem cut_illegal {c : Char} {cs : List Char} (h : (cut c cs).kind = .illegal) :
    (cut c cs).text = [c] ∧ NoLexeme (c :: cs) := by
  have htext : (cut c cs).text = [c] := by
    revert h
    refine cut_cases (motive := fun c _ piece => piece.kind = .illegal → piece.text = [c])
      ?_ ?_ ?_ ?_ ?_ ?_ ?_ c cs
    · intro cs h
      cases h
    · intro cs h
      unfold blockComment at h
      split at h <;> cases h
    · intro c d cs s _ _ h
      cases h
    · intro c cs s _ _ _ h
      cases h
    · intro c cs _ _ h
      cases h
    · intro c cs _ _ h
      exact absurd h (Kind.ofWord_ne_illegal _)
    · intros
      rfl
  refine ⟨htext, fun kind text rest heq hlexeme => ?_⟩
  rcases shorter_or_eq_cut hlexeme heq with hlt | ⟨-, hkind⟩
  · have := List.length_pos_iff.mpr hlexeme.ne_nil
    rw [htext, List.length_singleton] at hlt
    omega
  · exact hlexeme.kind_ne_illegal (hkind.trans h)

end Piece

/-! ## Scanning -/

/-- A scan skips the blanks in front of it, all of them. If nothing is left, it
gives the end token; else it takes the longest token that the rest of the text
begins with, or one character that begins none. -/
theorem Scanner.scan_longest (s : Scanner) :
    ∃ blanks remaining, s.rest = blanks ++ remaining ∧ (∀ c ∈ blanks, isBlank c) ∧
      (∀ c ∈ remaining.head?, isBlank c = false) ∧
      ((remaining = [] ∧ s.scan.1 = Token.atEnd (s.offset + byteSize blanks) s.file ∧
          s.scan.2.rest = []) ∨
        ∃ text, remaining = text ++ s.scan.2.rest ∧
          s.scan.2.offset = s.offset + byteSize blanks + byteSize text ∧
          (LongestLexeme s.scan.1.kind text s.scan.2.rest ∨
            (NoLexeme remaining ∧ s.scan.1.kind = .illegal ∧ text.length = 1))) := by
  refine ⟨s.rest.takeWhile isBlank, s.skipBlanks.rest,
    List.takeWhile_append_dropWhile.symm, fun c hc => List.mem_takeWhile_imp hc, ?_, ?_⟩
  · intro c hc
    have := List.head?_dropWhile_not isBlank s.rest
    rwa [show (s.rest.dropWhile isBlank).head? = some c from hc] at this
  · cases h : s.skipBlanks.rest with
    | nil =>
        have hscan : s.scan = (Token.atEnd s.skipBlanks.offset s.file, s.skipBlanks) := by
          rw [scan, h]
          rfl
        rw [hscan]
        exact .inl ⟨rfl, rfl, h⟩
    | cons c cs =>
        have hscan : s.scan =
            (s.skipBlanks.tokenOf (.cut c cs), s.skipBlanks.skipPiece (.cut c cs)) := by
          rw [scan, h]
        rw [hscan]
        refine .inr ⟨(Piece.cut c cs).text, (Piece.cut_text_append_rest c cs).symm, rfl, ?_⟩
        by_cases hillegal : (Piece.cut c cs).kind = .illegal
        · obtain ⟨htext, hnone⟩ := Piece.cut_illegal hillegal
          exact .inr ⟨hnone, hillegal, by rw [htext]; rfl⟩
        · exact .inl (Piece.cut_longest hillegal)

end Frontend
