/-!
# Kinds of tokens

A token is the end of the input, an illegal character, a comment, an identifier,
a number, the name of a primitive type, one of forty symbols or one of nineteen
keywords. Each symbol has one spelling; the reserved words are the spellings of
the types and of the keywords, and one keyword has two.
-/

namespace Frontend

/-- The types that a declaration or a parameter can name. -/
inductive PrimitiveType where
  | i8 | i16 | i32 | i64 | i128
  | u8 | u16 | u32 | u64 | u128
  | f32 | f64 | bool
deriving DecidableEq

namespace PrimitiveType

/-- Every primitive type, in the order in which diagnostics list them. -/
def all : List PrimitiveType :=
  [i8, i16, i32, i64, i128, u8, u16, u32, u64, u128, f32, f64, bool]

/-- The word that names the type in a source. -/
def spelling : PrimitiveType → String
  | i8 => "i8"
  | i16 => "i16"
  | i32 => "i32"
  | i64 => "i64"
  | i128 => "i128"
  | u8 => "u8"
  | u16 => "u16"
  | u32 => "u32"
  | u64 => "u64"
  | u128 => "u128"
  | f32 => "f32"
  | f64 => "f64"
  | bool => "bool"

/-- The name of the type's kind in diagnostics. -/
def name : PrimitiveType → String
  | i8 => "I8"
  | i16 => "I16"
  | i32 => "I32"
  | i64 => "I64"
  | i128 => "I128"
  | u8 => "U8"
  | u16 => "U16"
  | u32 => "U32"
  | u64 => "U64"
  | u128 => "U128"
  | f32 => "F32"
  | f64 => "F64"
  | bool => "Bool"

end PrimitiveType

/-- Operators and punctuation. -/
inductive Symbol where
  | assignment | plus | dash | star | slash | percent | plusPlus | minusMinus
  | plusEquals | minusEquals | starEquals | slashEquals
  | pipe | ampersand | caret | not | tilde | shiftLeft | shiftRight
  | pipeEquals | ampersandEquals | caretEquals
  | equals | notEquals | greater | less | greaterEquals | lessEquals | or | and
  | openParen | closeParen | openCurly | closeCurly | openBracket | closeBracket
  | comma | dot | colon | semicolon
deriving DecidableEq

namespace Symbol

/-- Every symbol. -/
def all : List Symbol :=
  [assignment, plus, dash, star, slash, percent, plusPlus, minusMinus,
    plusEquals, minusEquals, starEquals, slashEquals,
    pipe, ampersand, caret, not, tilde, shiftLeft, shiftRight,
    pipeEquals, ampersandEquals, caretEquals,
    equals, notEquals, greater, less, greaterEquals, lessEquals, or, and,
    openParen, closeParen, openCurly, closeCurly, openBracket, closeBracket,
    comma, dot, colon, semicolon]

/-- The characters of the symbol: one or two. -/
def spelling : Symbol → List Char
  | assignment => ['=']
  | plus => ['+']
  | dash => ['-']
  | star => ['*']
  | slash => ['/']
  | percent => ['%']
  | plusPlus => ['+', '+']
  | minusMinus => ['-', '-']
  | plusEquals => ['+', '=']
  | minusEquals => ['-', '=']
  | starEquals => ['*', '=']
  | slashEquals => ['/', '=']
  | pipe => ['|']
  | ampersand => ['&']
  | caret => ['^']
  | not => ['!']
  | tilde => ['~']
  | shiftLeft => ['<', '<']
  | shiftRight => ['>', '>']
  | pipeEquals => ['|', '=']
  | ampersandEquals => ['&', '=']
  | caretEquals => ['^', '=']
  | equals => ['=', '=']
  | notEquals => ['!', '=']
  | greater => ['>']
  | less => ['<']
  | greaterEquals => ['>', '=']
  | lessEquals => ['<', '=']
  | or => ['|', '|']
  | and => ['&', '&']
  | openParen => ['(']
  | closeParen => [')']
  | openCurly => ['{']
  | closeCurly => ['}']
  | openBracket => ['[']
  | closeBracket => [']']
  | comma => [',']
  | dot => ['.']
  | colon => [':']
  | semicolon => [';']

/-- The symbol of two characters. -/
def ofPair? : Char → Char → Option Symbol
  | '=', '=' => some equals
  | '+', '+' => some plusPlus
  | '+', '=' => some plusEquals
  | '-', '-' => some minusMinus
  | '-', '=' => some minusEquals
  | '*', '=' => some starEquals
  | '/', '=' => some slashEquals
  | '&', '&' => some and
  | '&', '=' => some ampersandEquals
  | '|', '|' => some or
  | '|', '=' => some pipeEquals
  | '^', '=' => some caretEquals
  | '!', '=' => some notEquals
  | '<', '<' => some shiftLeft
  | '<', '=' => some lessEquals
  | '>', '>' => some shiftRight
  | '>', '=' => some greaterEquals
  | _, _ => none

/-- The symbol of one character. -/
def ofChar? : Char → Option Symbol
  | '=' => some assignment
  | '+' => some plus
  | '-' => some dash
  | '*' => some star
  | '/' => some slash
  | '%' => some percent
  | '|' => some pipe
  | '&' => some ampersand
  | '^' => some caret
  | '!' => some not
  | '~' => some tilde
  | '>' => some greater
  | '<' => some less
  | '(' => some openParen
  | ')' => some closeParen
  | '{' => some openCurly
  | '}' => some closeCurly
  | '[' => some openBracket
  | ']' => some closeBracket
  | ',' => some comma
  | '.' => some dot
  | ':' => some colon
  | ';' => some semicolon
  | _ => none

theorem ofPair?_eq_some_iff {c d : Char} {s : Symbol} :
    ofPair? c d = some s ↔ s.spelling = [c, d] := by
  constructor
  · intro h
    unfold ofPair? at h
    split at h <;> simp_all [spelling] <;> (subst h; rfl)
  · intro h
    cases s <;> simp [spelling] at h <;> obtain ⟨rfl, rfl⟩ := h <;> rfl

theorem ofChar?_eq_some_iff {c : Char} {s : Symbol} :
    ofChar? c = some s ↔ s.spelling = [c] := by
  constructor
  · intro h
    unfold ofChar? at h
    split at h <;> simp_all [spelling] <;> (subst h; rfl)
  · intro h
    cases s <;> simp [spelling] at h <;> subst h <;> rfl

/-- The name of the symbol's kind in diagnostics. -/
def name : Symbol → String
  | assignment => "Assignment"
  | plus => "Plus"
  | dash => "Dash"
  | star => "Star"
  | slash => "Slash"
  | percent => "Percent"
  | plusPlus => "PlusPlus"
  | minusMinus => "MinusMinus"
  | plusEquals => "PlusEquals"
  | minusEquals => "MinusEquals"
  | starEquals => "StarEquals"
  | slashEquals => "SlashEquals"
  | pipe => "Pipe"
  | ampersand => "Ampersand"
  | caret => "Caret"
  | not => "Not"
  | tilde => "Tilde"
  | shiftLeft => "ShiftLeft"
  | shiftRight => "ShiftRight"
  | pipeEquals => "PipeEquals"
  | ampersandEquals => "AmpersandEquals"
  | caretEquals => "CaretEquals"
  | equals => "Equals"
  | notEquals => "NotEquals"
  | greater => "Greater"
  | less => "Less"
  | greaterEquals => "GreaterEquals"
  | lessEquals => "LessEquals"
  | or => "Or"
  | and => "And"
  | openParen => "OpenParen"
  | closeParen => "CloseParen"
  | openCurly => "OpenCurly"
  | closeCurly => "CloseCurly"
  | openBracket => "OpenBracket"
  | closeBracket => "CloseBracket"
  | comma => "Comma"
  | dot => "Dot"
  | colon => "Colon"
  | semicolon => "Semicolon"

end Symbol

/-- Words with a meaning of their own, the names of types apart. -/
inductive Keyword where
  | import_ | fn | var | vol | struct | enum | union | const | return_
  | if_ | elif | else_ | match_ | default_ | for_ | loop | while_
  | true_ | false_
deriving DecidableEq

namespace Keyword

/-- Every keyword. -/
def all : List Keyword :=
  [import_, fn, var, vol, struct, enum, union, const, return_,
    if_, elif, else_, match_, default_, for_, loop, while_, true_, false_]

/-- The words that stand for the keyword: a variable is declared by `var` or by
`let`. -/
def spellings : Keyword → List String
  | import_ => ["import"]
  | fn => ["fn"]
  | var => ["var", "let"]
  | vol => ["vol"]
  | struct => ["struct"]
  | enum => ["enum"]
  | union => ["union"]
  | const => ["const"]
  | return_ => ["return"]
  | if_ => ["if"]
  | elif => ["elif"]
  | else_ => ["else"]
  | match_ => ["match"]
  | default_ => ["default"]
  | for_ => ["for"]
  | loop => ["loop"]
  | while_ => ["while"]
  | true_ => ["true"]
  | false_ => ["false"]

/-- The name of the keyword's kind in diagnostics. -/
def name : Keyword → String
  | import_ => "Import"
  | fn => "Fn"
  | var => "Var"
  | vol => "Vol"
  | struct => "Struct"
  | enum => "Enum"
  | union => "Union"
  | const => "Const"
  | return_ => "Return"
  | if_ => "If"
  | elif => "Elif"
  | else_ => "Else"
  | match_ => "Match"
  | default_ => "Default"
  | for_ => "For"
  | loop => "Loop"
  | while_ => "While"
  | true_ => "True"
  | false_ => "False"

end Keyword

/-- What a token is. -/
inductive Kind where
  | eof
  | illegal
  | comment
  | identifier
  | number
  | type (type : PrimitiveType)
  | symbol (symbol : Symbol)
  | keyword (keyword : Keyword)
deriving DecidableEq

namespace Kind

/-- Every kind. -/
def all : List Kind :=
  [eof, illegal, comment, identifier, number] ++ PrimitiveType.all.map type ++
    Symbol.all.map symbol ++ Keyword.all.map keyword

/-- The name of the kind in diagnostics. -/
def name : Kind → String
  | eof => "EOF"
  | illegal => "Illegal"
  | comment => "Comment"
  | identifier => "Identifier"
  | number => "Number"
  | type t => t.name
  | symbol s => s.name
  | keyword k => k.name

/-- The kind with the given name. -/
def ofName? (text : String) : Option Kind :=
  all.find? (·.name = text)

/-- The primitive type that a token of this kind names. -/
def primitiveType? : Kind → Option PrimitiveType
  | type t => some t
  | _ => none

end Kind

/-- The words that are no identifiers, each with its kind. -/
def reservedWords : List (String × Kind) :=
  PrimitiveType.all.map (fun t => (t.spelling, .type t)) ++
    Keyword.all.flatMap fun k => k.spellings.map fun word => (word, .keyword k)

/-- The kind of a word: reserved, or else an identifier. -/
def Kind.ofWord (word : String) : Kind :=
  (reservedWords.lookup word).getD .identifier

/-- No word ends the input. -/
theorem Kind.ofWord_ne_eof (word : String) : Kind.ofWord word ≠ .eof := by
  unfold Kind.ofWord
  have h : ∀ entry ∈ reservedWords, entry.2 ≠ .eof := by decide
  cases hl : reservedWords.lookup word with
  | none => simp
  | some kind =>
      obtain ⟨before, after, heq, -⟩ := List.lookup_eq_some_iff.mp hl
      exact h (word, kind) (by simp [heq])

end Frontend
