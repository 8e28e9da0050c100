import Frontend.Proofs.Essence
import Frontend.Proofs.ExprSpelling
import Frontend.Proofs.LongestMatch

/-!
# Text that is scanned as intended

A printer puts the texts of tokens one behind the other, with blanks where it
likes to. They come out of the scanner again if no text runs into the one behind
it, and this is a matter of the next character alone: behind a word there must be
no letter, behind a number no digit and no dot, and behind an operator nothing
that makes it a longer one.

`Prints cs slots` says that a text is made like this of the texts for some slots.
It is built from the back to the front, as the condition on a token is about what
follows it.
-/

namespace Frontend

open Text

/-- The token can stand in this place, wherever it was read. -/
abbrev Slot.Similar : Slot → Token → Prop := MatchesUnder .placeless

/-- The text is that of the token, if it is known. -/
def Slot.HasText : Slot → List Char → Prop
  | kept token, text => token.lexeme = String.ofList text
  | fixed _, _ => True

/-- A text is scanned as one token of this kind when `rest` comes behind it. -/
def Cuts (kind : Kind) (text rest : List Char) : Prop :=
  ∃ c cs, text ++ rest = c :: cs ∧ Piece.cut c cs = ⟨kind, text, rest, none⟩

/-- The text consists of a token for each of the slots, with blanks between them. -/
inductive Prints : List Char → List Slot → Prop
  | nil {blanks : List Char} (hblanks : ∀ c ∈ blanks, isBlank c) : Prints blanks []
  | cons {blanks text rest : List Char} {slot : Slot} {slots : List Slot}
      (hblanks : ∀ c ∈ blanks, isBlank c) (hcuts : Cuts slot.kind text rest)
      (hkind : slot.kind ≠ .comment) (htext : slot.HasText text) (h : Prints rest slots) :
      Prints (blanks ++ (text ++ rest)) (slot :: slots)

/-! ## Words, numbers and symbols -/

namespace Kind

theorem mem_spellings_of_ofWord {word : String} {k : Keyword} (h : ofWord word = .keyword k) :
    word ∈ k.spellings := by
  have hentry : ∀ entry ∈ reservedWords, ∀ k, entry.2 = .keyword k → entry.1 ∈ k.spellings := by
    intro entry hentry k hk
    rcases List.mem_append.mp hentry with hentry | hentry
    · obtain ⟨type, -, rfl⟩ := List.mem_map.mp hentry
      cases hk
    · obtain ⟨k', -, hentry⟩ := List.mem_flatMap.mp hentry
      obtain ⟨word, hword, rfl⟩ := List.mem_map.mp hentry
      cases hk
      exact hword
  rcases ofWord_eq_identifier_or_mem word with hword | hword
  · rw [h] at hword
    cases hword
  · exact hentry _ hword k h

end Kind

theorem run_append {p : Char → Bool} {text rest : List Char} (htext : ∀ c ∈ text, p c)
    (hrest : ∀ c ∈ rest.head?, p c = false) :
    (text ++ rest).takeWhile p = text ∧ (text ++ rest).dropWhile p = rest := by
  rw [List.takeWhile_append_of_pos htext, List.dropWhile_append_of_pos htext]
  cases rest with
  | nil => simp
  | cons c cs =>
      have hc : p c = false := hrest c rfl
      simp [hc]

namespace Cuts

theorem word {c : Char} {cs rest : List Char} (hc : isWordStart c) (hcs : ∀ d ∈ cs, isWordPart d)
    (hrest : ∀ d ∈ rest.head?, isWordPart d = false) :
    Cuts (Kind.ofWord (String.ofList (c :: cs))) (c :: cs) rest := by
  have hall : ∀ d ∈ c :: cs, isWordPart d :=
    List.forall_mem_cons.mpr ⟨by simp [isWordPart, hc], hcs⟩
  obtain ⟨htake, hdrop⟩ := run_append hall hrest
  rw [List.cons_append] at htake hdrop
  refine ⟨c, cs ++ rest, rfl, ?_⟩
  rw [Piece.cut_of_isWordStart hc, Piece.word, htake, hdrop]

theorem number {c : Char} {cs rest : List Char} (hc : c.isDigit) (hcs : ∀ d ∈ cs, isNumberPart d)
    (hrest : ∀ d ∈ rest.head?, isNumberPart d = false) : Cuts .number (c :: cs) rest := by
  have hall : ∀ d ∈ c :: cs, isNumberPart d :=
    List.forall_mem_cons.mpr ⟨by simp [isNumberPart, hc], hcs⟩
  obtain ⟨htake, hdrop⟩ := run_append hall hrest
  rw [List.cons_append] at htake hdrop
  refine ⟨c, cs ++ rest, rfl, ?_⟩
  rw [Piece.cut_of_isDigit hc, Piece.number, htake, hdrop]

end Cuts

namespace Symbol

/-- The characters that can make a longer token of a symbol in front of them. -/
def extenders : List Char := ['=', '+', '-', '&', '|', '<', '>', '/', '*']

/-- Whether the symbol is never part of a longer token. -/
def isSolitary : Symbol → Bool
  | openParen | closeParen | openCurly | closeCurly | openBracket | closeBracket
  | comma | dot | colon | semicolon | plusPlus | minusMinus => true
  | _ => false

/-- Nothing behind the symbol makes it a longer token. -/
def Stands (s : Symbol) (rest : List Char) : Prop :=
  s.isSolitary ∨ ∀ c ∈ rest.head?, c ∉ extenders

theorem pair_of_spelling {s t : Symbol} {c d : Char} (hs : s.spelling = [c])
    (ht : t.spelling = [c, d]) : s.isSolitary = false ∧ d ∈ extenders := by
  cases t <;> simp only [spelling, List.cons.injEq, reduceCtorEq, and_false, and_true] at ht <;>
    obtain ⟨rfl, rfl⟩ := ht <;>
    cases s <;> first | exact ⟨rfl, by decide⟩ | simp [spelling] at hs

theorem cuts {s : Symbol} {rest : List Char} (h : s.Stands rest) :
    Cuts (.symbol s) s.spelling rest := by
  have hforms : (∃ c, s.spelling = [c]) ∨ ∃ c d, s.spelling = [c, d] := by
    cases s <;> simp [spelling]
  obtain ⟨c, hs⟩ | ⟨c, d, hs⟩ := hforms
  · rw [hs]
    refine ⟨c, rest, rfl, Piece.cut_of_ofChar? (ofChar?_eq_some_iff.mpr hs) ?_ ?_⟩
    · cases rest with
      | nil => rfl
      | cons d ds =>
          refine Option.map_eq_none_iff.mpr (Option.eq_none_iff_forall_ne_some.mpr fun t ht => ?_)
          obtain ⟨hsolitary, hd⟩ := pair_of_spelling hs (ofPair?_eq_some_iff.mp ht)
          rcases h with h | h
          · rw [h] at hsolitary
            cases hsolitary
          · exact h d rfl hd
    · rintro ⟨rfl, hd⟩
      obtain rfl : s = .slash := by
        have := (ofChar?_eq_some_iff (s := s)).mpr hs
        cases this
        rfl
      rcases h with h | h
      · cases h
      · rcases hd with hd | hd <;> exact absurd (h _ hd) (by decide)
  · rw [hs]
    exact ⟨c, d :: rest, rfl, Piece.cut_of_ofPair? (ofPair?_eq_some_iff.mpr hs) rest⟩

end Symbol

/-! ## Tokens of a source -/

/-- Unless it is illegal or the end, the token has a text of its kind. -/
def Token.Sound (t : Token) : Prop :=
  t.kind ≠ .illegal → t.kind ≠ .eof → ∃ rest, Lexeme t.kind t.lexeme.toList rest

theorem Scanner.tokens_sound (s : Scanner) : ∀ t ∈ s.tokens, t.Sound := by
  induction s using run_induct with
  | last s h => simp [tokens_of_rest_eq_nil h]
  | next s c cs h ih =>
      rw [tokens_of_rest_eq_cons h]
      refine List.forall_mem_append.mpr ⟨fun t ht hkind _ => ?_, ih⟩
      obtain rfl := List.mem_singleton.mp (List.mem_of_mem_filter ht)
      refine ⟨(Piece.cut c cs).rest, ?_⟩
      rw [tokenOf] at hkind ⊢
      rw [if_neg hkind, String.toList_ofList]
      exact Piece.cut_lexeme hkind

theorem sourceTokens_sound {source file : String} : ∀ t ∈ sourceTokens source file, t.Sound :=
  (Scanner.ofSource source file).tokens_sound

namespace Token.Sound

variable {t : Token} {rest : List Char}

theorem toList_of_symbol (h : t.Sound) {s : Symbol} (hk : t.kind = .symbol s) :
    t.lexeme.toList = s.spelling := by
  obtain ⟨rest, hlexeme⟩ := h (by rw [hk]; simp) (by rw [hk]; simp)
  rw [hk] at hlexeme
  rcases hlexeme.forms with ⟨s', hs, htext⟩ | ⟨hword, -⟩ | ⟨hnumber, -⟩ | hcomment
  · cases hs
    exact htext
  · cases hword
  · cases hnumber
  · cases hcomment

theorem exists_word (h : t.Sound) (hk : t.kind.isWord) :
    t.kind = Kind.ofWord t.lexeme ∧
      ∃ c cs, t.lexeme.toList = c :: cs ∧ isWordStart c ∧ ∀ d ∈ cs, isWordPart d := by
  obtain ⟨rest, hlexeme⟩ := h (by intro hill; rw [hill] at hk; cases hk)
    (by intro heof; rw [heof] at hk; cases hk)
  rcases hlexeme.forms with ⟨s, hs, -⟩ | ⟨-, hkind, htext⟩ | ⟨hnumber, -⟩ | hcomment
  · rw [hs] at hk
    cases hk
  · rw [String.ofList_toList] at hkind
    exact ⟨hkind, htext⟩
  · rw [hnumber] at hk
    cases hk
  · rw [hcomment] at hk
    cases hk

theorem exists_number (h : t.Sound) (hk : t.kind = .number) :
    ∃ c cs, t.lexeme.toList = c :: cs ∧ c.isDigit ∧ ∀ d ∈ cs, isNumberPart d := by
  obtain ⟨rest, hlexeme⟩ := h (by rw [hk]; simp) (by rw [hk]; simp)
  rw [hk] at hlexeme
  rcases hlexeme.forms with ⟨s, hs, -⟩ | ⟨hword, -⟩ | ⟨-, htext⟩ | hcomment
  · cases hs
  · cases hword
  · exact htext
  · cases hcomment

theorem cuts_word (h : t.Sound) (hk : t.kind.isWord)
    (hrest : ∀ c ∈ rest.head?, isWordPart c = false) : Cuts t.kind t.lexeme.toList rest := by
  obtain ⟨hkind, c, cs, htext, hc, hcs⟩ := h.exists_word hk
  rw [hkind, htext, ← String.ofList_toList (s := t.lexeme), htext]
  exact Cuts.word hc hcs hrest

theorem cuts_number (h : t.Sound) (hk : t.kind = .number)
    (hrest : ∀ c ∈ rest.head?, isNumberPart c = false) : Cuts t.kind t.lexeme.toList rest := by
  obtain ⟨c, cs, htext, hc, hcs⟩ := h.exists_number hk
  rw [hk, htext]
  exact Cuts.number hc hcs hrest

theorem lexeme_of_keyword (h : t.Sound) {k : Keyword} (hk : t.kind = .keyword k) :
    t.lexeme ∈ k.spellings := by
  obtain ⟨hkind, -⟩ := h.exists_word (by rw [hk]; rfl)
  exact Kind.mem_spellings_of_ofWord (hkind.symm.trans hk)

end Token.Sound

/-! ## Building a text -/

/-- The token is sound, if it is known. -/
def Slot.Sound : Slot → Prop
  | kept token => token.Sound
  | fixed _ => True

theorem Slot.Sound.hasText {slot : Slot} (h : slot.Sound) {s : Symbol}
    (hk : slot.kind = .symbol s) : slot.HasText s.spelling := by
  cases slot with
  | kept t =>
      have htext : t.lexeme.toList = s.spelling := h.toList_of_symbol hk
      exact (htext ▸ String.ofList_toList.symm :)
  | fixed kind => trivial

namespace Prints

variable {rest : List Char} {slots : List Slot}

theorem blank {c : Char} (hc : isBlank c) (h : Prints rest slots) : Prints (c :: rest) slots := by
  cases h with
  | nil hblanks => exact .nil (List.forall_mem_cons.mpr ⟨hc, hblanks⟩)
  | cons hblanks hcuts hkind htext h =>
      exact .cons (List.forall_mem_cons.mpr ⟨hc, hblanks⟩) hcuts hkind htext h

theorem symbol {slot : Slot} {s : Symbol} (hk : slot.kind = .symbol s) (hslot : slot.Sound)
    (hs : s.Stands rest) (h : Prints rest slots) : Prints (s.spelling ++ rest) (slot :: slots) := by
  refine .cons (List.forall_mem_nil _) ?_ ?_ (hslot.hasText hk) h
  · rw [hk]
    exact Symbol.cuts hs
  · rw [hk]
    simp

/-- A symbol that is never part of a longer token, where the tree implies one. -/
theorem solitary {s : Symbol} (hs : s.isSolitary) (h : Prints rest slots) :
    Prints (s.spelling ++ rest) (.fixed (.symbol s) :: slots) :=
  .symbol rfl trivial (.inl hs) h

theorem word {t : Token} (hk : t.kind.isWord) (ht : t.Sound)
    (hrest : ∀ c ∈ rest.head?, isWordPart c = false) (h : Prints rest slots) :
    Prints (t.lexeme.toList ++ rest) (.kept t :: slots) := by
  refine .cons (List.forall_mem_nil _) (ht.cuts_word hk hrest) ?_ String.ofList_toList.symm h
  intro hcomment
  rw [show t.kind = .comment from hcomment] at hk
  cases hk

theorem keyword {t : Token} {k : Keyword} (hk : t.kind = .keyword k) {spelling : String}
    (hspelling : k.spellings = [spelling]) (ht : t.Sound)
    (hrest : ∀ c ∈ rest.head?, isWordPart c = false) (h : Prints rest slots) :
    Prints (spelling.toList ++ rest) (.kept t :: slots) := by
  have hlexeme := ht.lexeme_of_keyword hk
  rw [hspelling, List.mem_singleton] at hlexeme
  rw [← hlexeme]
  exact .word (by rw [hk]; rfl) ht hrest h

theorem number {t : Token} (hk : t.kind = .number) (ht : t.Sound)
    (hrest : ∀ c ∈ rest.head?, isNumberPart c = false) (h : Prints rest slots) :
    Prints (t.lexeme.toList ++ rest) (.kept t :: slots) := by
  refine .cons (List.forall_mem_nil _) (ht.cuts_number hk hrest) ?_ String.ofList_toList.symm h
  rw [Slot.kind, hk]
  simp

theorem reserved {word : String} {kind : Kind} (hword : (word, kind) ∈ reservedWords)
    (hrest : ∀ c ∈ rest.head?, isWordPart c = false) (h : Prints rest slots) :
    Prints (word.toList ++ rest) (.fixed kind :: slots) := by
  have hreserved : ∀ entry ∈ reservedWords, Kind.ofWord entry.1 = entry.2 ∧
      entry.1.toList.head?.any isWordStart ∧ entry.1.toList.all isWordPart := by
    decide +kernel
  obtain ⟨hkind, hstart, hparts⟩ := hreserved _ hword
  have hcuts : Cuts (Kind.ofWord word) word.toList rest := by
    rw [← String.ofList_toList (s := word), String.toList_ofList]
    generalize word.toList = text at hstart hparts ⊢
    cases text with
    | nil => cases hstart
    | cons c cs =>
        rw [List.all_eq_true, List.forall_mem_cons] at hparts
        exact Cuts.word hstart hparts.2 hrest
  have hword := Kind.isWord_ofWord word
  rw [show Kind.ofWord word = kind from hkind] at hcuts hword
  refine .cons (List.forall_mem_nil _) hcuts ?_ trivial h
  rintro rfl
  cases hword

end Prints

/-! ## Scanning what was printed -/

theorem Lexeme.isBlank_head {kind : Kind} {text rest : List Char} (h : Lexeme kind text rest) :
    ∀ c ∈ text.head?, isBlank c = false := by
  have hblank : ∀ c, isBlank c → isWordStart c = false ∧ c.isDigit = false := by
    intro c hc
    simp only [isBlank, Bool.or_eq_true, decide_eq_true_eq] at hc
    obtain (((rfl | rfl) | rfl) | rfl) | rfl := hc <;> decide
  cases h with
  | symbol s =>
      rintro c hc
      cases s <;> cases hc <;> rfl
  | word hc | number hc =>
      rintro _ ⟨rfl⟩
      refine Bool.eq_false_iff.mpr fun hb => ?_
      simp [hblank _ hb] at hc
  | lineComment | blockComment | openComment =>
      rintro _ ⟨rfl⟩
      rfl

/-- An illegal piece comes with a complaint. -/
theorem Piece.kind_ne_illegal_of_cause? {c : Char} {cs : List Char}
    (h : (cut c cs).cause? = none) : (cut c cs).kind ≠ .illegal := by
  revert h
  refine cut_cases (motive := fun _ _ piece => piece.cause? = none → piece.kind ≠ .illegal)
    ?_ ?_ ?_ ?_ ?_ ?_ ?_ c cs
  · intro cs _; simp [lineComment]
  · intro cs _
    unfold blockComment
    split <;> simp
  · intros; simp
  · intros; simp
  · intros; simp [number]
  · intros; exact Kind.ofWord_ne_illegal _
  · intro c cs _ _ _ h; cases h

/-- What was printed is scanned as intended, without complaint. -/
theorem Prints.tokens {s : Scanner} {slots : List Slot} (h : Prints s.rest slots)
    (hs : s.diagnostics = []) :
    List.Forall₂ Slot.Similar slots s.tokens ∧ s.run.flatMap (·.diagnostics) = [] := by
  generalize hrest : s.rest = cs at h
  induction h generalizing s with
  | nil hblanks =>
      have hskip : s.skipBlanks.rest = [] := by
        rw [Scanner.skipBlanks, hrest]
        exact List.dropWhile_eq_nil_iff.mpr hblanks
      rw [Scanner.tokens_of_rest_eq_nil hskip, Scanner.run_of_rest_eq_nil hskip]
      exact ⟨.nil, by simp [hs]⟩
  | @cons blanks text rest slot slots hblanks hcuts hkind htext h ih =>
      obtain ⟨c, cs, heq, hcut⟩ := hcuts
      have hillegal : (Piece.cut c cs).kind ≠ .illegal :=
        Piece.kind_ne_illegal_of_cause? (by rw [hcut])
      have hlexeme := Piece.cut_lexeme hillegal
      rw [hcut] at hillegal hlexeme
      have hc : isBlank c = false := by
        refine hlexeme.isBlank_head c ?_
        obtain ⟨d, ds, rfl⟩ := List.exists_cons_of_ne_nil hlexeme.ne_nil
        exact congrArg some (List.cons.inj heq).1
      have hskip : s.skipBlanks.rest = c :: cs := by
        rw [Scanner.skipBlanks, hrest, heq, List.dropWhile_append_of_pos hblanks,
          List.dropWhile_cons_of_neg (by simp [hc])]
      have hbehind := Scanner.behind_eq hskip
      rw [hcut] at hbehind
      obtain ⟨hslots, hdiagnostics⟩ := ih (s := s.behind) (by rw [hbehind]) (by rw [hbehind])
      rw [Scanner.tokens_of_rest_eq_cons hskip, Scanner.run_of_rest_eq_cons hskip, hcut]
      refine ⟨?_, ?_⟩
      · have htoken : slot.Similar (s.skipBlanks.tokenOf ⟨slot.kind, text, rest, none⟩) := by
          cases slot with
          | kept t =>
              exact congrArg (Token.mk t.kind · Span.blank) ((if_neg hillegal).trans htext.symm)
          | fixed kind => rfl
        rw [List.filter_cons_of_pos (by simpa [Scanner.tokenOf] using hkind)]
        exact .cons htoken hslots
      · rw [List.flatMap_cons, hdiagnostics]
        simp [Scanner.skipPiece, Scanner.skipBlanks, hs]

end Frontend
