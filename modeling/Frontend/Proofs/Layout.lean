import Frontend.Proofs.Boundary

/-!
# Layout

A parser asks of a position only whether it is that of another token, when it
recovers from a statement: has the window moved since the statement was entered?
So the positions can be anything, as long as no two tokens start in the same
place, and what is read is the same up to positions.

To say so of two sources, both are compared with a third input. Its tokens have
their numbers for positions, and nothing else is known of them but their kinds
and lexemes (`TokenStream.numbered`). What is read from a source is what is read
from the numbered tokens, with each number replaced by the place of the token
that has it (`parse_numbered`).
-/

namespace Frontend

open Text

/-- What a token is, wherever it stands. -/
def Token.shape (t : Token) : Kind × String := (t.kind, t.lexeme)

/-- A token that has a number for a place. -/
def Token.numbered (i : Nat) (shape : Kind × String) : Token :=
  ⟨shape.1, shape.2, ⟨⟨i, ""⟩, ⟨i, ""⟩⟩⟩

/-- Tokens of the given shapes, each of them with its number. -/
def TokenStream.numbered (shapes : List (Kind × String)) : TokenStream :=
  ⟨(shapes.mapIdx Token.numbered).map (⟨·, []⟩),
    .numbered shapes.length (.eof, Token.endLexeme), rfl⟩

/-- The token of a source that has the given number; behind the last one comes the
end. -/
def sourceToken (source file : String) (i : Nat) : Token :=
  (sourceTokens source file)[i]?.getD (Token.atEnd (byteSize source.toList) file)

/-- The shapes of the tokens of a source. -/
def sourceShapes (source file : String) : List (Kind × String) :=
  (sourceTokens source file).map Token.shape

theorem kind_ne_comment_of_mem_sourceShapes {source file : String} :
    ∀ shape ∈ sourceShapes source file, shape.1 ≠ .comment := by
  intro shape hshape
  obtain ⟨t, ht, rfl⟩ := List.mem_map.mp hshape
  exact (Scanner.kind_of_mem_tokens (s := .ofSource source file) ht).1

theorem tape_numbered {shapes : List (Kind × String)} (h : ∀ shape ∈ shapes, shape.1 ≠ .comment) :
    (TokenStream.numbered shapes).tape = shapes.mapIdx Token.numbered ++ₛ
      Stream'.const (.numbered shapes.length (.eof, Token.endLexeme)) := by
  have hfilter : (TokenStream.numbered shapes).pending.filter (·.token.kind ≠ .comment) =
      (TokenStream.numbered shapes).pending := by
    rw [List.filter_eq_self]
    intro s hs
    obtain ⟨t, ht, rfl⟩ := List.mem_map.mp hs
    obtain ⟨i, hi, rfl⟩ := List.mem_mapIdx.mp ht
    exact decide_eq_true (h _ (List.getElem_mem hi))
  rw [TokenStream.tape, hfilter]
  simp [TokenStream.numbered, Function.comp_def]

section Places

variable {source : String} (hsize : byteSize source.toList < Position.limit) (file : String)

theorem sourceToken_eq_getElem {i : Nat} (hi : i < (sourceTokens source file).length) :
    sourceToken source file i = (sourceTokens source file)[i] := by
  rw [sourceToken, List.getElem?_eq_getElem hi, Option.getD_some]

theorem sourceToken_length :
    sourceToken source file (sourceTokens source file).length =
      Token.atEnd (byteSize source.toList) file := by
  rw [sourceToken, List.getElem?_eq_none (Nat.le_refl _), Option.getD_none]

namespace Seam

/-- The numbered tokens and the source that has their shapes. Both end behind the
same token. -/
def ofPlaces : Seam where
  start n := (sourceToken source file n.offset).span.start
  stop n := (sourceToken source file n.offset).span.stop
  shared := (sourceShapes source file).mapIdx Token.numbered
  last := .numbered (sourceShapes source file).length (.eof, Token.endLexeme)
  rest := Stream'.const (Token.atEnd (byteSize source.toList) file)
  edge := 0
  surplus := []
  quiet := True
  last_kind := rfl
  kind_ne_eof := by
    intro t ht
    obtain ⟨i, hi, rfl⟩ := List.mem_mapIdx.mp ht
    obtain ⟨u, hu, hshape⟩ := List.mem_map.mp (List.getElem_mem hi)
    rw [← hshape]
    exact kind_ne_eof_of_mem_sourceTokens u hu
  start_injective := by
    intro t ht u hu heq
    obtain ⟨i, hi, rfl⟩ := List.mem_mapIdx.mp ht
    obtain ⟨j, hj, rfl⟩ := List.mem_mapIdx.mp hu
    have hi' : i < (sourceTokens source file).length := by simpa [sourceShapes] using hi
    have hj' : j < (sourceTokens source file).length := by simpa [sourceShapes] using hj
    simp only [Token.numbered, sourceToken_eq_getElem file hi', sourceToken_eq_getElem file hj']
      at heq
    have hstarts := sourceTokens_starts_nodup hsize file
    obtain rfl : i = j := by
      rw [← hstarts.getElem_inj_iff, List.getElem_map, List.getElem_map]
      · exact heq
      · rwa [List.length_map]
      · rwa [List.length_map]
    rfl
  start_ne := by
    intro _ hkeyword
    cases hkeyword
  quiet_cases := fun _ => .inr ⟨rfl, rfl⟩

theorem sharp_ofPlaces : (ofPlaces hsize file).Sharp := by
  refine fun _ => ⟨rfl, ?_⟩
  have hlast : sourceToken source file (sourceTokens source file).length =
    Token.atEnd (byteSize source.toList) file := sourceToken_length file
  simp only [ofPlaces, Token.numbered, sourceShapes, List.length_map, hlast]
  rfl

/-- Each number stands for the token that has it. -/
theorem map_ofPlaces :
    ((ofPlaces hsize file).shared).map (ofPlaces hsize file).label.token =
      sourceTokens source file := by
  refine List.ext_getElem ?_ fun i hi hi' => ?_
  · simp [ofPlaces, sourceShapes]
  · simp only [ofPlaces, label, List.getElem_map, List.getElem_mapIdx, Relabelling.placed,
      Token.numbered, sourceShapes, sourceToken_eq_getElem file hi', Token.shape]

/-- The parsers of the numbered tokens and of the source start in lockstep. -/
theorem between_ofPlaces :
    (ofPlaces hsize file).Between 0 (.ofStream (.numbered (sourceShapes source file)))
      (.ofStream (.ofSource source file)) := by
  have hfinal : (ofPlaces hsize file).Final := ⟨trivial, rfl⟩
  refine ⟨(ofPlaces hsize file).shared, ?_, .inr (.inl trivial), .inl hfinal⟩
  refine ⟨⟨rfl, rfl⟩, ⟨rfl, rfl⟩, ?_, ?_, List.suffix_rfl, fun hquiet => absurd trivial hquiet,
    [], Parser.faults_ofStream _, ?_⟩
  · rw [Parser.upcoming_ofStream, tape_numbered kind_ne_comment_of_mem_sourceShapes]
    rfl
  · rw [upcoming_ofSource, map_ofPlaces]
    rfl
  · rw [Parser.faults_ofStream]
    exact .nil

end Seam

/-- What is read from a source is what is read from its numbered tokens, with each
number replaced by the place of the token that has it. -/
theorem parse_eq_numbered :
    (parse source file).1.statements =
        (parseStream (.numbered (sourceShapes source file))).1.statements.map
          (Stmt.relabel (Seam.ofPlaces hsize file).label) ∧
      List.Forall₂ (Seam.ofPlaces hsize file).Fault
        ((parseStream (.numbered (sourceShapes source file))).2.filter (!·.cause.isLexical))
        ((parse source file).2.filter (!·.cause.isLexical)) := by
  have hsilent : ∀ d ∈ (TokenStream.numbered (sourceShapes source file)).pending.flatMap
      (·.diagnostics), d.cause.isLexical := by
    simp [TokenStream.numbered]
  obtain ⟨p, hp, -, -, hpfaults⟩ := parseStream_reads _ hsilent
  obtain ⟨q, hq, -, -, hqfaults⟩ := parseStream_reads _ (isLexical_ofSource source file)
  obtain ⟨k, r, rest, hr, hss, hbefore⟩ := Parser.statements_part
    (fun hexposed => hexposed.2.1 trivial) (Seam.between_ofPlaces hsize file) hp hq
  have hend : r.current.kind = .eof := by
    rw [hbefore.nil.2]
    rfl
  rcases (Parser.statements_turns _ _ r).of_ok hr with ⟨-, rfl, rfl⟩ | ⟨hgoes, -⟩
  · refine ⟨hss.trans (List.append_nil _), ?_⟩
    obtain ⟨ds, hds, hfaults⟩ := hbefore.faults
    rw [parse, hpfaults, hqfaults, hds]
    exact hfaults
  · exact absurd hend hgoes

/-- A complaint of numbered tokens and one of the source are of the same token. -/
theorem Seam.Fault.ofPlaces {d d' : Diagnostic} (h : (Seam.ofPlaces hsize file).Fault d d') :
    d'.cause = d.cause ∧ d.position.offset ≤ (sourceShapes source file).length ∧
      d'.position = (sourceToken source file d.position.offset).span.start := by
  obtain ⟨⟨t, ht, hposition⟩, rfl⟩ := h (Seam.sharp_ofPlaces hsize file)
  refine ⟨rfl, ?_, rfl⟩
  rcases List.mem_append.mp ht with ht | ht
  · obtain ⟨i, hi, rfl⟩ := List.mem_mapIdx.mp ht
    rw [hposition]
    exact Nat.le_of_lt hi
  · rw [hposition, List.mem_singleton.mp ht]
    exact Nat.le_refl _

end Places

/-- Lists that correspond to the same list correspond to each other. -/
theorem forall₂_of_common {α β γ : Type} {R : α → β → Prop} {R' : α → γ → Prop}
    {S : β → γ → Prop} (hS : ∀ a b c, R a b → R' a c → S b c) {as : List α} {bs : List β}
    {cs : List γ} (h : List.Forall₂ R as bs) (h' : List.Forall₂ R' as cs) :
    List.Forall₂ S bs cs := by
  induction h generalizing cs with
  | nil =>
      cases h'
      exact .nil
  | cons hab _ ih =>
      cases h' with
      | cons hac h' => exact .cons (hS _ _ _ hab hac) (ih h')

/-- Layout does not matter. Two sources whose tokens agree in kind and lexeme give
the same program up to positions, and the same syntactic diagnostics, each of them
about the token that has the same number in either source. -/
theorem parse_layout {source source' : String} (hsize : byteSize source.toList < Position.limit)
    (hsize' : byteSize source'.toList < Position.limit) (file file' : String)
    (h : (sourceTokens source file).map Token.shape =
      (sourceTokens source' file').map Token.shape) :
    (parse source file).1.placeless = (parse source' file').1.placeless ∧
      List.Forall₂
        (fun d d' => d.cause = d'.cause ∧ ∃ i ≤ (sourceTokens source file).length,
          d.position = (sourceToken source file i).span.start ∧
            d'.position = (sourceToken source' file' i).span.start)
        ((parse source file).2.filter (!·.cause.isLexical))
        ((parse source' file').2.filter (!·.cause.isLexical)) := by
  have h : sourceShapes source file = sourceShapes source' file' := h
  obtain ⟨hstatements, hfaults⟩ := parse_eq_numbered hsize file
  obtain ⟨hstatements', hfaults'⟩ := parse_eq_numbered hsize' file'
  rw [← h] at hstatements' hfaults'
  have hplaceless : ∀ {source : String} {hsize : byteSize source.toList < Position.limit}
      {file : String} {ss : List Stmt},
      (ss.map (Stmt.relabel (Seam.ofPlaces hsize file).label)).map (Stmt.relabel .placeless) =
        ss.map (Stmt.relabel .placeless) := by
    intro source hsize file ss
    rw [List.map_map]
    exact List.map_congr_left fun s _ => s.relabel_relabel _ _
  refine ⟨?_, ?_⟩
  · rw [Program.placeless, Program.placeless, hstatements, hstatements', hplaceless, hplaceless]
  · refine forall₂_of_common ?_ hfaults hfaults'
    intro d d₁ d₂ h₁ h₂
    obtain ⟨hcause, hle, hposition⟩ := h₁.ofPlaces
    obtain ⟨hcause', -, hposition'⟩ := h₂.ofPlaces
    refine ⟨hcause.trans hcause'.symm, d.position.offset, ?_, hposition, hposition'⟩
    rwa [sourceShapes, List.length_map] at hle

/-- A statement on one line and the same one on two, with a comment; both break off. -/
theorem parse_layout_sample :
    (parse "a + ; b" "a.x").1.placeless = (parse "a +// c\n;b" "b.x").1.placeless ∧
      List.Forall₂
        (fun d d' => d.cause = d'.cause ∧ ∃ i ≤ (sourceTokens "a + ; b" "a.x").length,
          d.position = (sourceToken "a + ; b" "a.x" i).span.start ∧
            d'.position = (sourceToken "a +// c\n;b" "b.x" i).span.start)
        ((parse "a + ; b" "a.x").2.filter (!·.cause.isLexical))
        ((parse "a +// c\n;b" "b.x").2.filter (!·.cause.isLexical)) :=
  parse_layout (by decide) (by decide) "a.x" "b.x" (by decide)

end Frontend
