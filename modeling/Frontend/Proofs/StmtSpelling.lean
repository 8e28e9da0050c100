import Frontend.Proofs.ExprSpelling

/-!
# The tokens of a statement

The same for statements as for expressions: `Stmt.flatten` gives the slots of
the tokens of a statement, and `Stmt.Spells` says over which tokens it is the
tree. Two things are new.

The semicolon behind an expression is optional, and the tree does not say whether
there was one. `flatten` asks a policy, which may look at the expression and at
the span of the statement.

A block keeps only the statements that could be read. `Stmt.Spells s ts n` counts
with `n` the diagnostics that were recorded over the tokens `ts`: between the
statements of a block there may be stretches of tokens that no statement was
read from, and each of them has cost one diagnostic at least.

A statement reaches over all of its tokens, and the last of them tells that it ends
there, unless it is an expression without a semicolon (`Stmt.Spells.ends`). Such a
one ends where no semicolon follows: `Complete` is part of what it means that
statements stand one behind the other.
-/

namespace Frontend

/-- The span goes from the first of the tokens to the last. -/
def Span.Covers (span : Span) (ts : List Token) : Prop :=
  ∃ first last, ts.head? = some first ∧ ts.getLast? = some last ∧
    span = ⟨first.span.start, last.span.stop⟩

theorem Span.Covers.stop_eq {span : Span} {ts : List Token} {last : Token}
    (h : span.Covers (ts ++ [last])) : span.stop = last.span.stop := by
  obtain ⟨_, last', -, hlast, rfl⟩ := h
  rw [List.getLast?_concat, Option.some.injEq] at hlast
  rw [hlast]

/-- Says of an expression statement, given the expression and the span of the
statement, whether a semicolon ends it. -/
abbrev Closing := Expr → Span → Bool

/-- Every expression statement ends with a semicolon. -/
def Closing.always : Closing := fun _ _ => true

/-- An expression statement ends with a semicolon if it ends behind its
expression. -/
def Closing.bySpan : Closing := fun value span => value.span.stop.offset < span.stop.offset

/-! ## Slots -/

def Parameter.flatten (parameter : Parameter) : List Slot :=
  [.kept parameter.name, .fixed (.symbol .colon), .fixed (.type parameter.type)]

/-- The slots of parameters, with commas between them. -/
def Parameter.flattenAll : List Parameter → List Slot
  | [] => []
  | [parameter] => parameter.flatten
  | parameter :: next :: rest =>
      parameter.flatten ++ .fixed (.symbol .comma) :: flattenAll (next :: rest)

/-- The slots of a declaration up to its value. -/
def Stmt.binding (token name : Token) (type : PrimitiveType) : List Slot :=
  [.kept token, .kept name, .fixed (.symbol .colon), .fixed (.type type),
    .fixed (.symbol .assignment)]

/-- The slots of a function up to its body. -/
def Stmt.signature (token name : Token) (parameters : List Parameter)
    (result? : Option PrimitiveType) : List Slot :=
  .kept token :: .kept name :: .fixed (.symbol .openParen) ::
    (Parameter.flattenAll parameters ++
      .fixed (.symbol .closeParen) :: (result?.map fun type => .fixed (.type type)).toList)

section Flatten

variable (closes : Closing)

mutual

/-- The slots of the tokens of a statement, in the order of the text. -/
def Stmt.flatten : Stmt → List Slot
  | .expression _ value span =>
      value.flatten ++ if closes value span then [.fixed (.symbol .semicolon)] else []
  | .block block => block.flatten
  | .declaration token name type value _ =>
      Stmt.binding token name type ++ (value.flatten ++ [.fixed (.symbol .semicolon)])
  | .return_ token none _ => [.kept token, .fixed (.symbol .semicolon)]
  | .return_ token (some value) _ =>
      .kept token :: (value.flatten ++ [.fixed (.symbol .semicolon)])
  | .function token name parameters result? body _ =>
      Stmt.signature token name parameters result? ++ body.flatten
  | .conditional branch => branch.flatten
  | .while_ token condition body _ => .kept token :: (condition.flatten ++ body.flatten)
  | .loop token body _ => .kept token :: body.flatten

def Block.flatten : Block → List Slot
  | .mk token body _ => .kept token :: (Stmt.flattenAll body ++ [.fixed (.symbol .closeCurly)])

def Conditional.flatten : Conditional → List Slot
  | .mk token condition body otherwise _ =>
      .kept token :: (condition.flatten ++ (body.flatten ++ otherwise.flatten))

def Otherwise.flatten : Otherwise → List Slot
  | .nothing => []
  | .block block => .fixed (.keyword .else_) :: block.flatten
  | .elif branch => branch.flatten

def Stmt.flattenAll : List Stmt → List Slot
  | [] => []
  | s :: ss => s.flatten ++ Stmt.flattenAll ss

end

/-- The slots of the tokens of a program. -/
def Program.flatten (program : Program) : List Slot := Stmt.flattenAll closes program.statements

end Flatten

/-! ## Trees over tokens -/

/-- The last of the tokens is a semicolon or a closing brace. -/
def Delimited (ts : List Token) : Prop :=
  ∃ t, ts.getLast? = some t ∧ (t.kind = .symbol .semicolon ∨ t.kind = .symbol .closeCurly)

/-- Whether the statement is an expression, which no semicolon needs to end. -/
def Stmt.isExpression : Stmt → Bool
  | expression .. => true
  | _ => false

/-- A statement over the tokens `ts` has ended in front of the tokens `us`: it is delimited,
or no semicolon follows that it could have taken. -/
def Complete (ts us : List Token) : Prop :=
  Delimited ts ∨ ∀ t ∈ us.head?, t.kind ≠ .symbol .semicolon

mutual

/-- The statement is the tree over these tokens, with the spans that they give
it, and `n` diagnostics were recorded on the way. -/
inductive Stmt.Spells : Stmt → List Token → Nat → Prop
  | expression {token : Token} {value : Expr} {ts : List Token} {span : Span}
      (h : value.Spells (token :: ts)) (hf : value.Fits .lowest)
      (hs : span.Covers (token :: ts)) :
      Stmt.Spells (.expression token value span) (token :: ts) 0
  | terminated {token closing : Token} {value : Expr} {ts : List Token} {span : Span}
      (h : value.Spells (token :: ts)) (hf : value.Fits .lowest)
      (hc : closing.kind = .symbol .semicolon) (hs : span.Covers (token :: (ts ++ [closing]))) :
      Stmt.Spells (.expression token value span) (token :: (ts ++ [closing])) 0
  | block {block : Block} {ts : List Token} {n : Nat} (h : Block.Spells block ts n) :
      Stmt.Spells (.block block) ts n
  | declaration {token name closing : Token} {type : PrimitiveType} {value : Expr}
      {ts us : List Token} {span : Span} (ht : token.kind.stmtRule? = some .declaration)
      (hn : name.kind = .identifier)
      (hb : List.Forall₂ Slot.Matches (Stmt.binding token name type) ts)
      (h : value.Spells us) (hf : value.Fits .lowest) (hc : closing.kind = .symbol .semicolon)
      (hs : span.Covers (ts ++ (us ++ [closing]))) :
      Stmt.Spells (.declaration token name type value span) (ts ++ (us ++ [closing])) 0
  | returnNone {token closing : Token} {span : Span} (ht : token.kind = .keyword .return_)
      (hc : closing.kind = .symbol .semicolon) (hs : span.Covers [token, closing]) :
      Stmt.Spells (.return_ token none span) [token, closing] 0
  | returnSome {token closing : Token} {value : Expr} {ts : List Token} {span : Span}
      (ht : token.kind = .keyword .return_) (h : value.Spells ts) (hf : value.Fits .lowest)
      (hc : closing.kind = .symbol .semicolon) (hs : span.Covers (token :: (ts ++ [closing]))) :
      Stmt.Spells (.return_ token (some value) span) (token :: (ts ++ [closing])) 0
  | function {token name : Token} {parameters : List Parameter}
      {result? : Option PrimitiveType} {body : Block} {ts us : List Token} {n : Nat} {span : Span}
      (ht : token.kind = .keyword .fn) (hn : name.kind = .identifier)
      (hp : ∀ parameter ∈ parameters, parameter.name.kind = .identifier)
      (hb : List.Forall₂ Slot.Matches (Stmt.signature token name parameters result?) ts)
      (h : Block.Spells body us n) (hs : span.Covers (ts ++ us)) :
      Stmt.Spells (.function token name parameters result? body span) (ts ++ us) n
  | conditional {branch : Conditional} {ts : List Token} {n : Nat}
      (ht : branch.token.kind = .keyword .if_) (h : Conditional.Spells branch ts n) :
      Stmt.Spells (.conditional branch) ts n
  | while_ {token : Token} {condition : Expr} {body : Block} {ts us : List Token} {n : Nat}
      {span : Span} (ht : token.kind = .keyword .while_) (h : condition.Spells ts)
      (hf : condition.Fits .lowest) (hb : Block.Spells body us n)
      (hs : span.Covers (token :: (ts ++ us))) :
      Stmt.Spells (.while_ token condition body span) (token :: (ts ++ us)) n
  | loop {token : Token} {body : Block} {ts : List Token} {n : Nat} {span : Span}
      (ht : token.kind = .keyword .loop) (h : Block.Spells body ts n)
      (hs : span.Covers (token :: ts)) :
      Stmt.Spells (.loop token body span) (token :: ts) n

inductive Block.Spells : Block → List Token → Nat → Prop
  | mk {opening closing : Token} {body : List Stmt} {ts : List Token} {n : Nat} {span : Span}
      (ho : opening.kind = .symbol .openCurly) (h : Stmt.SpellsAll body ts n)
      (hc : closing.kind = .symbol .closeCurly)
      (hs : span.Covers (opening :: (ts ++ [closing]))) :
      Block.Spells (.mk opening body span) (opening :: (ts ++ [closing])) n

inductive Conditional.Spells : Conditional → List Token → Nat → Prop
  | mk {token : Token} {condition : Expr} {body : Block} {otherwise : Otherwise}
      {ts us vs : List Token} {n m : Nat} {span : Span} (h : condition.Spells ts)
      (hf : condition.Fits .lowest) (hb : Block.Spells body us n)
      (ho : Otherwise.Spells otherwise vs m) (hs : span.Covers (token :: (ts ++ (us ++ vs)))) :
      Conditional.Spells (.mk token condition body otherwise span)
        (token :: (ts ++ (us ++ vs))) (n + m)

inductive Otherwise.Spells : Otherwise → List Token → Nat → Prop
  | nothing : Otherwise.Spells .nothing [] 0
  | block {token : Token} {block : Block} {ts : List Token} {n : Nat}
      (ht : token.kind = .keyword .else_) (h : Block.Spells block ts n) :
      Otherwise.Spells (.block block) (token :: ts) n
  | elif {branch : Conditional} {ts : List Token} {n : Nat}
      (ht : branch.token.kind = .keyword .elif) (h : Conditional.Spells branch ts n) :
      Otherwise.Spells (.elif branch) ts n

/-- The statements are those that were read from these tokens, one behind the
other. -/
inductive Stmt.SpellsAll : List Stmt → List Token → Nat → Prop
  | nil : Stmt.SpellsAll [] [] 0
  | keep {s : Stmt} {ss : List Stmt} {ts us : List Token} {n m : Nat} (h : Stmt.Spells s ts n)
      (he : Complete ts us) (hs : Stmt.SpellsAll ss us m) :
      Stmt.SpellsAll (s :: ss) (ts ++ us) (n + m)
  /-- The tokens from `t` up to the next statement are left out. -/
  | drop {t : Token} {ts us : List Token} {ss : List Stmt} {n m : Nat} (ht : t.kind ≠ .eof)
      (hn : n ≠ 0) (hs : Stmt.SpellsAll ss us m) : Stmt.SpellsAll ss (t :: (ts ++ us)) (n + m)

end

/-! ## The ends of a statement -/

/-- A block reaches over its tokens, and ends with a brace. -/
theorem Block.Spells.covers {b : Block} {ts : List Token} {n : Nat} (h : Block.Spells b ts n) :
    b.span.Covers ts := by
  match h with
  | .mk _ _ _ hs => exact hs

theorem Conditional.Spells.covers {branch : Conditional} {ts : List Token} {n : Nat}
    (h : Conditional.Spells branch ts n) : branch.span.Covers ts := by
  match h with
  | .mk _ _ _ _ hs => exact hs

/-- A statement reaches over its tokens. -/
theorem Stmt.Spells.covers {s : Stmt} {ts : List Token} {n : Nat} (h : Stmt.Spells s ts n) :
    s.span.Covers ts := by
  match h with
  | .expression _ _ hs | .terminated _ _ _ hs | .declaration _ _ _ _ _ _ hs | .returnNone _ _ hs
  | .returnSome _ _ _ _ hs | .function _ _ _ _ _ hs | .while_ _ _ _ _ hs | .loop _ _ hs =>
      exact hs
  | .block h => exact h.covers
  | .conditional _ h => exact h.covers

/-- The last of the tokens is a closing brace. -/
def ClosesBlock (ts : List Token) : Prop :=
  ∃ t, ts.getLast? = some t ∧ t.kind = .symbol .closeCurly

theorem ClosesBlock.prepend {ts : List Token} (h : ClosesBlock ts) (us : List Token) :
    ClosesBlock (us ++ ts) := by
  obtain ⟨t, ht, hk⟩ := h
  exact ⟨t, by rw [List.getLast?_append, ht]; rfl, hk⟩

theorem Block.Spells.closesBlock {b : Block} {ts : List Token} {n : Nat}
    (h : Block.Spells b ts n) : ClosesBlock ts := by
  match h with
  | .mk _ _ hc _ => exact ClosesBlock.prepend ⟨_, List.getLast?_singleton, hc⟩ (_ :: _)

mutual

theorem Conditional.Spells.closesBlock {branch : Conditional} {ts : List Token} {n : Nat}
    (h : Conditional.Spells branch ts n) : ClosesBlock ts := by
  match h with
  | .mk _ _ hb ho _ => exact (ho.closesBlock hb.closesBlock).prepend (_ :: _)

/-- Behind the body of a conditional comes nothing, or something that ends with a
block. -/
theorem Otherwise.Spells.closesBlock {otherwise : Otherwise} {ts us : List Token} {n : Nat}
    (h : Otherwise.Spells otherwise us n) (hts : ClosesBlock ts) : ClosesBlock (ts ++ us) := by
  match h with
  | .nothing => rwa [List.append_nil]
  | .block _ h => exact (h.closesBlock.prepend [_]).prepend ts
  | .elif _ h => exact h.closesBlock.prepend ts

end

theorem ClosesBlock.delimited {ts : List Token} (h : ClosesBlock ts) : Delimited ts := by
  obtain ⟨t, ht, hk⟩ := h
  exact ⟨t, ht, .inr hk⟩

theorem delimited_concat (ts : List Token) {closing : Token}
    (h : closing.kind = .symbol .semicolon) : Delimited (ts ++ [closing]) :=
  ⟨closing, List.getLast?_concat, .inl h⟩

/-- A statement is delimited, unless it is an expression without a semicolon. -/
theorem Stmt.Spells.ends {s : Stmt} {ts : List Token} {n : Nat} (h : Stmt.Spells s ts n) :
    Delimited ts ∨ n = 0 ∧ ∃ token value, s = .expression token value s.span ∧
      ts.head? = some token ∧ value.Spells ts ∧ value.Fits .lowest := by
  match h with
  | .expression h hf _ => exact .inr ⟨rfl, _, _, rfl, rfl, h, hf⟩
  | .terminated _ _ hc _ => exact .inl (delimited_concat (_ :: _) hc)
  | .declaration _ _ _ _ _ hc _ =>
      rw [← List.append_assoc]
      exact .inl (delimited_concat _ hc)
  | .returnNone _ hc _ => exact .inl (delimited_concat [_] hc)
  | .returnSome _ _ _ hc _ => exact .inl (delimited_concat (_ :: _) hc)
  | .block h => exact .inl h.closesBlock.delimited
  | .function _ _ _ _ h _ => exact .inl (h.closesBlock.prepend _).delimited
  | .conditional _ h => exact .inl h.closesBlock.delimited
  | .while_ _ _ _ h _ => exact .inl (h.closesBlock.prepend (_ :: _)).delimited
  | .loop _ h _ => exact .inl (h.closesBlock.prepend [_]).delimited

end Frontend
