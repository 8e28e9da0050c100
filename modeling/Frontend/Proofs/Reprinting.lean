import Frontend.Proofs.Accounting
import Frontend.Proofs.Rendering
import Frontend.Proofs.Rereading

/-!
# Printed programs are read back

What was read from a source is well-formed, and the tokens that it keeps are
tokens of the source, so it can be printed and scanned again; the regrouped
program is read from the new tokens. All in all nothing is lost but places and
parentheses: `parse_render`.

The source may be malformed. What could not be read is not in the program, so it
is not printed either.
-/

namespace Frontend

/-! ## What was read is well-formed -/

theorem Stmt.wellFormed_expression {token : Token} {value : Expr} {ts : List Token} {span : Span}
    (h : value.Spells (token :: ts)) (hf : value.Fits .lowest) :
    (Stmt.expression token value span).WellFormed := by
  obtain ⟨slots, hslots⟩ := value.flatten_eq_first
  have hfills := h.fills
  rw [hslots] at hfills
  obtain ⟨_, _, hfirst, -, heq⟩ := List.forall₂_cons_left_iff.mp hfills
  obtain ⟨rfl, -⟩ := List.cons.inj heq
  rw [show token = value.first from hfirst]
  exact ⟨hf, by rw [hslots]; rfl⟩

mutual

theorem Stmt.Spells.wellFormed {s : Stmt} {ts : List Token} {n : Nat} (h : Stmt.Spells s ts n) :
    s.WellFormed := by
  match h with
  | .expression h hf _ => exact Stmt.wellFormed_expression h hf
  | .terminated h hf _ _ => exact Stmt.wellFormed_expression h hf
  | .block h => exact h.wellFormed
  | .declaration ht hn _ _ hf _ _ => exact ⟨ht, hn, hf⟩
  | .returnNone ht _ _ => exact ht
  | .returnSome ht _ hf _ _ => exact ⟨ht, hf⟩
  | .function ht hn hp _ h _ => exact ⟨ht, hn, hp, h.wellFormed⟩
  | .conditional ht h => exact ⟨ht, h.wellFormed⟩
  | .while_ ht _ hf hb _ => exact ⟨ht, hf, hb.wellFormed⟩
  | .loop ht h _ => exact ⟨ht, h.wellFormed⟩

theorem Block.Spells.wellFormed {b : Block} {ts : List Token} {n : Nat}
    (h : Block.Spells b ts n) : b.WellFormed := by
  match h with
  | .mk ho h _ _ => exact ⟨ho, h.wellFormed⟩

theorem Conditional.Spells.wellFormed {branch : Conditional} {ts : List Token} {n : Nat}
    (h : Conditional.Spells branch ts n) : branch.WellFormed := by
  match h with
  | .mk _ hf hb ho _ => exact ⟨hf, hb.wellFormed, ho.wellFormed⟩

theorem Otherwise.Spells.wellFormed {otherwise : Otherwise} {ts : List Token} {n : Nat}
    (h : Otherwise.Spells otherwise ts n) : otherwise.WellFormed := by
  match h with
  | .nothing => trivial
  | .block _ h => exact h.wellFormed
  | .elif ht h => exact ⟨ht, h.wellFormed⟩

theorem Stmt.SpellsAll.wellFormed {ss : List Stmt} {ts : List Token} {n : Nat}
    (h : Stmt.SpellsAll ss ts n) : Stmt.AllWellFormed ss := by
  match h with
  | .nil => trivial
  | .keep h _ hs => exact ⟨h.wellFormed, hs.wellFormed⟩
  | .drop _ _ hs => exact hs.wellFormed

end

/-! ## What was read keeps tokens of the source -/

theorem Slot.sound_of_matches {slots : List Slot} {ts : List Token}
    (h : List.Forall₂ Slot.Matches slots ts) (hts : ∀ t ∈ ts, t.Sound) :
    ∀ slot ∈ slots, slot.Sound := by
  induction h with
  | nil => exact List.forall_mem_nil _
  | @cons slot t slots ts hm _ ih =>
      rw [List.forall_mem_cons] at hts ⊢
      refine ⟨?_, ih hts.2⟩
      cases slot with
      | kept token => exact (show t = token from hm) ▸ hts.1
      | fixed kind => trivial

theorem Expr.Spells.sound_semicolon {e : Expr} {ts : List Token} (h : e.Spells ts)
    (hts : ∀ t ∈ ts, t.Sound) :
    ∀ slot ∈ e.flatten ++ [Slot.fixed (.symbol .semicolon)], slot.Sound :=
  List.forall_mem_append.mpr
    ⟨Slot.sound_of_matches h.fills hts, List.forall_mem_singleton.mpr trivial⟩

mutual

theorem Stmt.Spells.sound {s : Stmt} {ts : List Token} {n : Nat} (h : Stmt.Spells s ts n)
    (hts : ∀ t ∈ ts, t.Sound) : ∀ slot ∈ s.flatten .always, slot.Sound := by
  match h with
  | .expression h hf hs =>
      simpa only [Stmt.flatten, Closing.always, if_true] using h.sound_semicolon hts
  | .terminated h hf hc hs =>
      rw [← List.cons_append, List.forall_mem_append] at hts
      simpa only [Stmt.flatten, Closing.always, if_true] using h.sound_semicolon hts.1
  | .block h => exact h.sound hts
  | .declaration ht hn hb h hf hc hs =>
      rw [List.forall_mem_append, List.forall_mem_append] at hts
      exact List.forall_mem_append.mpr
        ⟨Slot.sound_of_matches hb hts.1, h.sound_semicolon hts.2.1⟩
  | .returnNone ht hc hs =>
      rw [List.forall_mem_cons] at hts
      exact List.forall_mem_cons.mpr ⟨hts.1, List.forall_mem_singleton.mpr trivial⟩
  | .returnSome ht h hf hc hs =>
      rw [List.forall_mem_cons, List.forall_mem_append] at hts
      exact List.forall_mem_cons.mpr ⟨hts.1, h.sound_semicolon hts.2.1⟩
  | .function ht hn hp hb h hs =>
      rw [List.forall_mem_append] at hts
      exact List.forall_mem_append.mpr ⟨Slot.sound_of_matches hb hts.1, h.sound hts.2⟩
  | .conditional ht h => exact h.sound hts
  | .while_ ht h hf hb hs =>
      rw [List.forall_mem_cons, List.forall_mem_append] at hts
      exact List.forall_mem_cons.mpr ⟨hts.1, List.forall_mem_append.mpr
        ⟨Slot.sound_of_matches h.fills hts.2.1, hb.sound hts.2.2⟩⟩
  | .loop ht h hs =>
      rw [List.forall_mem_cons] at hts
      exact List.forall_mem_cons.mpr ⟨hts.1, h.sound hts.2⟩

theorem Block.Spells.sound {b : Block} {ts : List Token} {n : Nat} (h : Block.Spells b ts n)
    (hts : ∀ t ∈ ts, t.Sound) : ∀ slot ∈ b.flatten .always, slot.Sound := by
  match h with
  | .mk ho h hc hs =>
      rw [List.forall_mem_cons, List.forall_mem_append] at hts
      exact List.forall_mem_cons.mpr ⟨hts.1, List.forall_mem_append.mpr
        ⟨h.sound hts.2.1, List.forall_mem_singleton.mpr trivial⟩⟩

theorem Conditional.Spells.sound {branch : Conditional} {ts : List Token} {n : Nat}
    (h : Conditional.Spells branch ts n) (hts : ∀ t ∈ ts, t.Sound) :
    ∀ slot ∈ branch.flatten .always, slot.Sound := by
  match h with
  | .mk h hf hb ho hs =>
      rw [List.forall_mem_cons, List.forall_mem_append, List.forall_mem_append] at hts
      exact List.forall_mem_cons.mpr ⟨hts.1, List.forall_mem_append.mpr
        ⟨Slot.sound_of_matches h.fills hts.2.1, List.forall_mem_append.mpr
          ⟨hb.sound hts.2.2.1, ho.sound hts.2.2.2⟩⟩⟩

theorem Otherwise.Spells.sound {otherwise : Otherwise} {ts : List Token} {n : Nat}
    (h : Otherwise.Spells otherwise ts n) (hts : ∀ t ∈ ts, t.Sound) :
    ∀ slot ∈ otherwise.flatten .always, slot.Sound := by
  match h with
  | .nothing => exact List.forall_mem_nil _
  | .block ht h =>
      rw [List.forall_mem_cons] at hts
      exact List.forall_mem_cons.mpr ⟨trivial, h.sound hts.2⟩
  | .elif ht h => exact h.sound hts

theorem Stmt.SpellsAll.sound {ss : List Stmt} {ts : List Token} {n : Nat}
    (h : Stmt.SpellsAll ss ts n) (hts : ∀ t ∈ ts, t.Sound) :
    ∀ slot ∈ Stmt.flattenAll .always ss, slot.Sound := by
  match h with
  | .nil => exact List.forall_mem_nil _
  | .keep h _ hs =>
      rw [List.forall_mem_append] at hts
      exact List.forall_mem_append.mpr ⟨h.sound hts.1, hs.sound hts.2⟩
  | .drop ht hn hs =>
      rw [List.forall_mem_cons, List.forall_mem_append] at hts
      exact hs.sound hts.2.2

end

/-- A program that was read from a source is well-formed and keeps tokens of the
source only. -/
theorem parse_wellFormed (source file : String) :
    (parse source file).1.WellFormed ∧
      ∀ slot ∈ (parse source file).1.flatten .always, slot.Sound := by
  obtain ⟨q, -, ⟨ts, ds, hspells, hwalk⟩, hend, -⟩ :=
    parseStream_reads _ (isLexical_ofSource source file)
  refine ⟨hspells.wellFormed, hspells.sound ?_⟩
  have htape := hwalk.upcoming
  rw [Parser.upcoming_ofStream, tape_ofSource] at htape
  obtain ⟨n, rfl⟩ := eq_append_replicate_of_append_eq
    (show q.upcoming.head.kind = .eof from hend) kind_ne_eof_of_mem_sourceTokens htape
  refine List.forall_mem_append.mpr ⟨sourceTokens_sound, fun t ht _ heof => ?_⟩
  rw [List.eq_of_mem_replicate ht] at heof
  exact absurd rfl heof

/-! ## Round trip -/

/-- A well-formed program is read back from its text. -/
theorem Program.read_render {program : Program} (hw : program.WellFormed)
    (hr : program.isReprintable) (hs : ∀ slot ∈ program.flatten .always, slot.Sound)
    (file : String) :
    (parse program.render file).2 = [] ∧
      (parse program.render file).1.essence = program.essence := by
  have hprints : Prints (Scanner.ofSource program.render file).rest
      (program.regroup.flatten .always) := Program.prints hw hr hs
  -- The tokens of the text are those of the regrouped program, but for their places.
  obtain ⟨hsimilar, hrun⟩ := hprints.tokens rfl
  have hregroup : program.regroup.WellFormed := Stmt.allWellFormed_regroup hw hr
  obtain ⟨program', hw', hessence, hm⟩ := Program.exists_similar hregroup hsimilar
  obtain ⟨result, q, hresult, hbare, -, hwalk⟩ := Parser.parseProgram_finds
    (Parser.plain_ofStream (.ofSource program.render file)) hw' hm
    ((Parser.upcoming_ofStream _).trans (tape_ofSource program.render file)) rfl
  rw [parse, parseStream, hresult]
  constructor
  · -- Without a failed production there are lexical diagnostics only.
    have hfaults := hwalk.faults
    rw [Parser.faults_ofStream] at hfaults
    have hpart := Parser.diagnostics_isPrefix_delivered hfaults
    rw [hwalk.delivered, Parser.delivered_ofStream] at hpart
    exact List.prefix_nil.mp (hrun ▸ hpart)
  · rw [Program.essence_congr hbare, hessence, program.essence_regroup]

/-- Printing and reading again changes nothing but places and parentheses. This
holds for what is read from any source, well-formed or not. -/
theorem parse_render {source file : String} (h : (parse source file).1.isReprintable)
    (file' : String) :
    (parse (parse source file).1.render file').2 = [] ∧
      (parse (parse source file).1.render file').1.essence = (parse source file).1.essence ∧
      (parse (parse source file).1.render file').1.render = (parse source file).1.render := by
  obtain ⟨hw, hs⟩ := parse_wellFormed source file
  obtain ⟨hnone, hessence⟩ := Program.read_render hw h hs file'
  exact ⟨hnone, hessence, Program.render_congr hessence⟩

/-- The first statement has no name; the other two are printed with parentheses of
their own. -/
theorem parse_render_sample :
    (parse "let 1; a = (b) + -1. return (f)(2., !x)[0].n;" "a.x").1.isReprintable ∧
      (parse (parse "let 1; a = (b) + -1. return (f)(2., !x)[0].n;" "a.x").1.render "b.x").2 = [] ∧
      (parse (parse "let 1; a = (b) + -1. return (f)(2., !x)[0].n;" "a.x").1.render
          "b.x").1.essence =
        (parse "let 1; a = (b) + -1. return (f)(2., !x)[0].n;" "a.x").1.essence := by
  have h : (parse "let 1; a = (b) + -1. return (f)(2., !x)[0].n;" "a.x").1.isReprintable := by
    decide +kernel
  obtain ⟨hnone, hessence, -⟩ := parse_render h "b.x"
  exact ⟨h, hnone, hessence⟩

example : (parse "let 1; a = (b) + -1. return (f)(2., !x)[0].n;" "a.x").1.render =
    "(a = (b + (-1.)));\nreturn ((f(2., (!x))[0]).n);" := by
  decide +kernel

end Frontend
