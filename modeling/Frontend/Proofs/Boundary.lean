import Frontend.Proofs.ScanJoin
import Frontend.Proofs.StmtSeam

/-!
# Statement boundaries

Two sources are joined by a newline. If the first one ends with a semicolon or
the second one begins with a word that starts a statement, the boundary between
them holds: what is read from the whole is what is read from the first source
and then what is read from the second, however malformed either of them is.

The newline is a seam twice. In front of it the parser of the whole follows the
parser of the first source, and behind it the parser of the second one.
-/

namespace Frontend

open Text

variable {first second : String}

/-- Between the tokens `ts` and `us` a statement ends, or would if there were
any in `ts`. -/
def Separated (ts us : List Token) : Prop :=
  ts = [] ∨ (∃ t, ts.getLast? = some t ∧ t.kind = .symbol .semicolon) ∨
    ∃ u, us.head? = some u ∧ u.kind.isStmtKeyword

theorem byteSize_join (first second : String) :
    byteSize (first ++ "\n" ++ second).toList =
      byteSize first.toList + 1 + byteSize second.toList := by
  simp only [String.toList_append, byteSize_append]
  rfl

/-- The tokens of the joined sources behind the newline. -/
def beyondNewline (first second file : String) : Stream' Token :=
  (sourceTokens second file).map (Relabelling.moved (.shift (byteSize first.toList + 1))).token ++ₛ
    Stream'.const (Token.atEnd (byteSize (first ++ "\n" ++ second).toList) file)

/-- A word that starts a statement may come right behind the newline. -/
theorem head_beyondNewline {file : String}
    (h : ∃ u, (sourceTokens second file).head? = some u ∧ u.kind.isStmtKeyword) :
    (beyondNewline first second file).head.kind.isStmtKeyword := by
  obtain ⟨u, hu, hkeyword⟩ := h
  obtain ⟨us, hus⟩ := List.head?_eq_some_iff.mp hu
  rw [beyondNewline, hus]
  exact hkeyword

theorem upcoming_ofSource (source file : String) :
    (Parser.ofStream (.ofSource source file)).upcoming =
      sourceTokens source file ++ₛ
        Stream'.const (Token.atEnd (byteSize source.toList) file) := by
  rw [Parser.upcoming_ofStream, tape_ofSource]

namespace Seam

/-- The newline as a seam for the parser of the first source. -/
def beforeNewline (hsize : byteSize (first ++ "\n" ++ second).toList < Position.limit)
    (file : String) : Seam where
  start := id
  stop := id
  shared := sourceTokens first file
  last := Token.atEnd (byteSize first.toList) file
  rest := beyondNewline first second file
  edge := (sourceTokens first file).length
  surplus := []
  quiet := (beyondNewline first second file).head.kind.isStmtKeyword
  last_kind := kind_sourceEnd first file
  kind_ne_eof := kind_ne_eof_of_mem_sourceTokens
  start_injective := sourceTokens_start_injective (by rw [byteSize_join] at hsize; omega) file
  start_ne := by
    intro hkeyword _ t ht heq
    have hsize : byteSize first.toList < Position.limit := by
      rw [byteSize_join] at hsize
      omega
    have hlt := (sourceTokens_ordered hsize file).2 t ht
    rw [beyondNewline] at hkeyword heq
    cases hsecond : sourceTokens second file with
    | nil =>
        rw [hsecond] at hkeyword
        cases hkeyword
    | cons u us =>
        rw [hsecond] at heq
        have hoffset : t.span.start.offset = u.span.start.offset + (byteSize first.toList + 1) :=
          congrArg Position.offset heq
        omega
  quiet_cases := .inl

/-- The newline as a seam for the parser of the second source, when some
productions have failed in front of it. -/
def afterNewline (hsize : byteSize (first ++ "\n" ++ second).toList < Position.limit)
    (file : String) (surplus : List Diagnostic) : Seam where
  start := .shift (byteSize first.toList + 1)
  stop := .shift (byteSize first.toList + 1)
  shared := sourceTokens second file
  last := Token.atEnd (byteSize second.toList) file
  rest := Stream'.const (Token.atEnd (byteSize (first ++ "\n" ++ second).toList) file)
  edge := 0
  surplus := surplus
  quiet := True
  last_kind := kind_sourceEnd second file
  kind_ne_eof := kind_ne_eof_of_mem_sourceTokens
  start_injective := fun t ht u hu heq =>
    sourceTokens_start_injective (by rw [byteSize_join] at hsize; omega) file t ht u hu
      (Position.shift_injective _ heq)
  start_ne := by
    intro _ hkeyword
    cases hkeyword
  quiet_cases := fun _ => .inr ⟨rfl, rfl⟩

variable (hsize : byteSize (first ++ "\n" ++ second).toList < Position.limit) (file : String)

theorem final_afterNewline (surplus : List Diagnostic) :
    (afterNewline hsize file surplus).Final :=
  ⟨trivial, rfl⟩

theorem not_exposed_beforeNewline
    (hseparated : Separated (sourceTokens first file) (sourceTokens second file)) :
    ¬ (beforeNewline hsize file).Exposed 0 := by
  rintro ⟨-, hquiet, t, hlast, hclose⟩
  rcases hseparated with hnil | ⟨u, hu, hsemicolon⟩ | hkeyword
  · rw [show (beforeNewline hsize file).shared = [] from hnil] at hlast
    cases hlast
  · obtain rfl : t = u := Option.some.inj (hlast.symm.trans hu)
    rw [hclose] at hsemicolon
    cases hsemicolon
  · exact hquiet (head_beyondNewline hkeyword)

/-- The parsers of the first source and of both start in front of the seam. -/
theorem between_beforeNewline
    (hcomment : ∀ d ∈ (Scanner.ofSource first file).run.flatMap (·.diagnostics),
      d.cause ≠ .unterminatedComment)
    (hbraces : openBraces 0 (sourceTokens first file) = 0)
    (hseparated : Separated (sourceTokens first file) (sourceTokens second file)) :
    (beforeNewline hsize file).Between 0 (.ofStream (.ofSource first file))
      (.ofStream (.ofSource (first ++ "\n" ++ second) file)) := by
  refine ⟨sourceTokens first file, ?_, ?_, .inr hbraces⟩
  · refine ⟨⟨rfl, rfl⟩, ⟨rfl, rfl⟩, upcoming_ofSource first file, ?_, List.suffix_rfl,
      fun _ => Nat.zero_add _, [], ?_, ?_⟩
    · rw [upcoming_ofSource, sourceTokens_join hsize file hcomment,
        Stream'.append_append_stream]
      exact congrArg (· ++ₛ _) (List.map_id _).symm
    · exact Parser.faults_ofStream _
    · rw [Parser.faults_ofStream]
      exact .nil
  · rcases hseparated with hnil | ⟨t, ht, hsemicolon⟩ | hkeyword
    · exact .inl hnil
    · exact .inr (.inr ⟨t, ht, .inl hsemicolon⟩)
    · exact .inr (.inl (head_beyondNewline hkeyword))

/-- A parser that has come to the newline goes on like that of the second
source. -/
theorem between_afterNewline {p q : Parser} (h : (beforeNewline hsize file).Before [] p q) :
    (afterNewline hsize file q.faults).Between 0 (.ofStream (.ofSource second file)) q := by
  have hfinal := final_afterNewline hsize file q.faults
  refine ⟨sourceTokens second file, ?_, .inr (.inl trivial), .inl hfinal⟩
  refine ⟨⟨rfl, rfl⟩, h.plain', upcoming_ofSource second file, h.upcoming', List.suffix_rfl,
    fun hquiet => absurd trivial hquiet, [], ?_, ?_⟩
  · exact (List.append_nil _).symm
  · rw [Parser.faults_ofStream]
    exact .nil

end Seam

/-- Statement boundaries are hard. When the first of two sources leaves no
comment and no brace open and a statement ends between them, the statements of
the whole are those of the first and those of the second, moved, and the
syntactic diagnostics add up. -/
theorem parse_join (hsize : byteSize (first ++ "\n" ++ second).toList < Position.limit)
    (file : String)
    (hcomment : ∀ d ∈ (Scanner.ofSource first file).run.flatMap (·.diagnostics),
      d.cause ≠ .unterminatedComment)
    (hbraces : openBraces 0 (sourceTokens first file) = 0)
    (hseparated : Separated (sourceTokens first file) (sourceTokens second file)) :
    (parse (first ++ "\n" ++ second) file).1.statements =
        (parse first file).1.statements ++ (parse second file).1.statements.map
          (Stmt.relabel (.moved (.shift (byteSize first.toList + 1)))) ∧
      (parse (first ++ "\n" ++ second) file).2.countP (!·.cause.isLexical) =
        (parse first file).2.countP (!·.cause.isLexical) +
          (parse second file).2.countP (!·.cause.isLexical) := by
  obtain ⟨p, hp, -, -, hpfaults⟩ := parseStream_reads _ (isLexical_ofSource first file)
  obtain ⟨q, hq, -, -, hqfaults⟩ := parseStream_reads _ (isLexical_ofSource second file)
  obtain ⟨r, hr, -, -, hrfaults⟩ :=
    parseStream_reads _ (isLexical_ofSource (first ++ "\n" ++ second) file)
  simp only [List.countP_eq_length_filter, parse]
  rw [hpfaults, hqfaults, hrfaults]
  -- Up to the newline the whole is read like the first source.
  obtain ⟨k, u, ss, hu, hss, hbefore⟩ := Parser.statements_part
    (Seam.not_exposed_beforeNewline hsize file hseparated)
    (Seam.between_beforeNewline hsize file hcomment hbraces hseparated) hp hr
  -- Behind it the whole is read like the second source, up to the end of both.
  obtain ⟨l, v, ss', hv, hss', hafter⟩ := Parser.statements_part
    (fun hexposed => hexposed.2.1 trivial) (Seam.between_afterNewline hsize file hbefore) hq hu
  have hend : v.current.kind = .eof := by
    rw [hafter.nil.2]
    rfl
  rcases (Parser.statements_turns _ _ v).of_ok hv with ⟨-, rfl, rfl⟩ | ⟨hgoes, -⟩
  · refine ⟨?_, ?_⟩
    · rw [hss, hss', List.append_nil]
      refine congrArg (· ++ _) (List.map_id'' ?_ _)
      exact Stmt.relabel_moved_id
    · rw [hafter.faults_length, show (Seam.afterNewline hsize file u.faults).surplus = u.faults
        from rfl, hbefore.faults_length]
      exact congrArg (· + _) (Nat.zero_add _)
  · exact absurd hend hgoes

/-- The first source breaks off within an expression. -/
theorem parse_join_sample :
    (parse ("a = (" ++ "\n" ++ "return 1;") "a.x").1.statements =
        (parse "a = (" "a.x").1.statements ++ (parse "return 1;" "a.x").1.statements.map
          (Stmt.relabel (.moved (.shift 6))) ∧
      (parse ("a = (" ++ "\n" ++ "return 1;") "a.x").2.countP (!·.cause.isLexical) =
        (parse "a = (" "a.x").2.countP (!·.cause.isLexical) +
          (parse "return 1;" "a.x").2.countP (!·.cause.isLexical) :=
  parse_join (by decide) "a.x" (by decide) (by decide) (.inr (.inr ⟨_, rfl, rfl⟩))

end Frontend
