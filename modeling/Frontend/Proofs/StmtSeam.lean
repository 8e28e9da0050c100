import Frontend.Proofs.ExprSeam

/-!
# Statements in front of a seam

The same for statements: linked parsers read the same statement, or both fail to.
A statement may end on a semicolon, and the step behind it may be the one that
crosses the seam; so the loops over statements only know their parsers to be
`Between` statements. A conditional outside of blocks looks at what comes behind its
last brace, and may find more of itself there in the second input; this is the one
exception that `Seam.Abreast` leaves.

What matters most is where a failed statement leaves the two parsers. They are
still linked, and recovery moves both of them to the end of the statement. Where
it runs into the seam, the first parser stops on the end of its input and the
second one before the word behind the seam or on it; a step later both are at
the seam. Recovery never skips an opening brace, so it cannot leave a block
unnoticed.
-/

namespace Frontend

variable {w : Seam} {depth : Nat} {p q : Parser}

namespace Seam

/-- Both parsers stand on the brace that closes a block. -/
def Closed (w : Seam) (depth : Nat) (p q : Parser) : Prop :=
  w.Linked (depth + 1) p q ∧ p.current.kind = .symbol .closeCurly

/-- Both parsers stand on the last token of a statement. -/
def Ended (w : Seam) (depth : Nat) (p q : Parser) : Prop :=
  (w.Linked depth p q ∧ (p.current.kind.isInner ∨ p.current.kind = .symbol .semicolon)) ∨
    w.Closed depth p q

def SameStmt (w : Seam) (depth : Nat) (s : Stmt) (p : Parser) (s' : Stmt) (q : Parser) : Prop :=
  s' = s.relabel w.label ∧ w.Ended depth p q

def SameBlock (w : Seam) (depth : Nat) (b : Block) (p : Parser) (b' : Block) (q : Parser) :
    Prop :=
  b' = b.relabel w.label ∧ w.Closed depth p q

def SameConditional (w : Seam) (depth : Nat) (branch : Conditional) (p : Parser)
    (branch' : Conditional) (q : Parser) : Prop :=
  branch' = branch.relabel w.label ∧ w.Closed depth p q

/-- Two ways to read a block give the same. A block is only rejected at the
common end of the inputs. -/
structure SameBlocks (w : Seam) (block block' : ParseM Block) : Prop where
  same : ∀ depth p q, w.Linked depth p q → p.current.kind = .symbol .openCurly →
    Related block block' p q (w.SameBlock depth)
      fun d p' d' q' => w.Rejected depth d p' d' q' ∧ p'.current.kind = .eof
  onward : Along (fun p q : Parser => p.index ≤ q.index) block'

/-- Both parsers have failed to read a statement that starts with a token of the
given kind. -/
def Failed (w : Seam) (depth : Nat) (kind : Kind) (d : Diagnostic) (p : Parser)
    (d' : Diagnostic) (q : Parser) : Prop :=
  w.Rejected depth d p d' q ∧ (p.current.kind = .symbol .openCurly → kind ≠ .symbol .openCurly)

theorem Closed.next (h : w.Closed depth p q) : w.Between depth p.advance q.advance :=
  h.1.leave h.2

/-- Behind a block the parsers are linked, unless its brace is the last token in
front of the seam. -/
theorem Closed.linked_or (h : w.Closed depth p q) :
    w.Linked depth p.advance q.advance ∨
      w.Exposed depth ∧ w.Before [] p.advance q.advance := by
  obtain ⟨⟨us, hus, hguard, hbalanced⟩, hclose⟩ := h
  obtain ⟨vs, rfl⟩ := hus.exists_cons (by simp [hclose])
  have hnext := hus.cons.2.2
  have hbalanced := hbalanced.leave hclose
  rcases hguard.tail_or with rfl | hguard
  · by_cases hquiet : w.quiet
    · exact .inl ⟨[], hnext, .inl hquiet, hbalanced⟩
    · have hdepth := hbalanced.resolve_left fun hfinal => hquiet hfinal.1
      obtain ⟨front, hshared⟩ := hus.isSuffix
      exact .inr ⟨⟨hdepth, hquiet, p.current, by rw [← hshared]; simp, hclose⟩, hnext⟩
  · exact .inl ⟨vs, hnext, hguard, hbalanced⟩

theorem Closed.current (h : w.Closed depth p q) : q.current = w.label.token p.current :=
  h.1.current (by rw [h.2]; simp)

theorem Ended.current (h : w.Ended depth p q) : q.current = w.label.token p.current := by
  rcases h with ⟨h, hinner | hsemicolon⟩ | h
  · exact h.current (Kind.ne_eof_of_isInner hinner)
  · exact h.current (by rw [hsemicolon]; simp)
  · exact h.current

/-- The step behind a statement. -/
theorem Ended.advance (h : w.Ended depth p q) : w.Between depth p.advance q.advance := by
  rcases h with ⟨h, hinner | hsemicolon⟩ | h
  · exact (h.next hinner).between
  · exact h.pass hsemicolon
  · exact h.next

theorem Ended.note (h : w.Ended depth p q) {production : Production} {stage stage' : Stage}
    {entry entry' : Mark} :
    w.Ended depth (p.note production stage entry) (q.note production stage' entry') := by
  rcases h with ⟨h, hk⟩ | ⟨h, hk⟩
  · exact .inl ⟨h.note, hk⟩
  · exact .inr ⟨h.note, hk⟩

theorem Ended.plain (h : w.Ended depth p q) : p.Plain ∧ q.Plain := by
  rcases h with h | h
  · exact h.1.plain
  · exact h.1.plain

end Seam

namespace Parser

/-! ## Statements without blocks -/

theorem declaration_same (h : w.Linked depth p q) (hp : p.current.kind.isInner) :
    Related declaration declaration p q (w.SameStmt depth) (w.Rejected depth) := by
  rw [declaration, related_currentToken_bind, h.current (Kind.ne_eof_of_isInner hp)]
  refine related_bind ((h.related_expect hp rfl).imp ?_ fun _ _ _ _ h => h)
  intro name p₁ name' q₁ hresult
  obtain ⟨rfl, hk₁, h₁⟩ := hresult
  refine related_bind ((h₁.related_expect (by rw [hk₁]; rfl) rfl).imp ?_ fun _ _ _ _ h => h)
  intro colon p₂ colon' q₂ hresult
  obtain ⟨rfl, hk₂, h₂⟩ := hresult
  refine related_bind ((h₂.related_primitiveType (by rw [hk₂]; rfl)).imp ?_ fun _ _ _ _ h => h)
  intro type p₃ type' q₃ hresult
  obtain ⟨rfl, hk₃, h₃⟩ := hresult
  refine related_bind ((h₃.related_expect hk₃ rfl).imp ?_ fun _ _ _ _ h => h)
  intro equals p₄ equals' q₄ hresult
  obtain ⟨rfl, hk₄, h₄⟩ := hresult
  rw [related_next_bind]
  refine related_bind ((expression_same .lowest (h₄.next (by rw [hk₄]; rfl))).imp ?_
    fun _ _ _ _ h => h)
  intro value p₅ value' q₅ hresult
  obtain ⟨rfl, h₅, hk₅⟩ := hresult
  refine related_bind ((h₅.related_expect hk₅ rfl).imp ?_ fun _ _ _ _ h => h)
  intro close p₆ close' q₆ hresult
  obtain ⟨rfl, hk₆, h₆⟩ := hresult
  have hended : w.Ended depth p₆ q₆ := .inl ⟨h₆, .inr hk₆⟩
  rw [related_spanFrom_bind, hended.current]
  exact ⟨rfl, hended⟩

theorem returnStmt_same (h : w.Linked depth p q) (hp : p.current.kind.isInner) :
    Related returnStmt returnStmt p q (w.SameStmt depth) (w.Rejected depth) := by
  rw [returnStmt, related_currentToken_bind, h.current (Kind.ne_eof_of_isInner hp)]
  refine (h.next hp).related_ahead rfl (fun _ => ?_) fun _ => ?_
  · refine related_bind ((h.related_expect hp rfl).imp ?_ fun _ _ _ _ h => h)
    intro close p' close' q' hresult
    obtain ⟨rfl, hk', h'⟩ := hresult
    have hended : w.Ended depth p' q' := .inl ⟨h', .inr hk'⟩
    rw [related_spanFrom_bind, hended.current]
    exact ⟨rfl, hended⟩
  · rw [related_next_bind]
    refine related_bind ((expression_same .lowest (h.next hp)).imp ?_ fun _ _ _ _ h => h)
    intro value p' value' q' hresult
    obtain ⟨rfl, h', hp'⟩ := hresult
    refine related_bind ((h'.related_expect hp' rfl).imp ?_ fun _ _ _ _ h => h)
    intro close p'' close' q'' hresult
    obtain ⟨rfl, hk'', h''⟩ := hresult
    have hended : w.Ended depth p'' q'' := .inl ⟨h'', .inr hk''⟩
    rw [related_spanFrom_bind, hended.current]
    exact ⟨rfl, hended⟩

theorem expressionStmt_same (h : w.Linked depth p q) (hp : p.current.kind ≠ .eof) :
    Related expressionStmt expressionStmt p q (w.SameStmt depth) (w.Rejected depth) := by
  rw [expressionStmt, related_currentToken_bind, h.current hp]
  refine related_bind ((expression_same .lowest h).imp ?_ fun _ _ _ _ h => h)
  intro value p' value' q' hresult
  obtain ⟨rfl, h', hp'⟩ := hresult
  refine (h'.next hp').related_ahead rfl (fun hclose => ?_) fun _ => ?_
  · have hended : w.Ended depth p'.advance q'.advance := .inl ⟨h'.next hp', .inr hclose⟩
    rw [related_next_bind, related_spanFrom_bind, hended.current]
    exact ⟨rfl, hended⟩
  · have hended : w.Ended depth p' q' := .inl ⟨h', .inl hp'⟩
    rw [related_spanFrom_bind, hended.current]
    exact ⟨rfl, hended⟩

/-! ## Statements with blocks -/

theorem parameters_same (n m : Nat) (h : w.Linked depth p q) (hp : p.current.kind.isInner) :
    Related (parameters n) (parameters m) p q
      (fun ps p' ps' q' => ps' = ps.map (Parameter.relabel w.label) ∧ w.Linked depth p' q' ∧
        p'.current.kind.isInner)
      (w.Rejected depth) := by
  induction n generalizing m p q with
  | zero => exact related_exhaust_left
  | succ n ih =>
      cases m with
      | zero => exact related_exhaust_right
      | succ m =>
          rw [parameters, parameters]
          refine related_bind ((h.related_expect hp rfl).imp ?_ fun _ _ _ _ h => h)
          intro name p₁ name' q₁ hresult
          obtain ⟨rfl, hk₁, h₁⟩ := hresult
          refine related_bind ((h₁.related_expect (by rw [hk₁]; rfl) rfl).imp ?_ fun _ _ _ _ h => h)
          intro colon p₂ colon' q₂ hresult
          obtain ⟨rfl, hk₂, h₂⟩ := hresult
          refine related_bind
            ((h₂.related_primitiveType (by rw [hk₂]; rfl)).imp ?_ fun _ _ _ _ h => h)
          intro type p₃ type' q₃ hresult
          obtain ⟨rfl, hk₃, h₃⟩ := hresult
          refine (h₃.next hk₃).related_ahead rfl (fun hcomma => ?_) fun _ => ?_
          · rw [related_next_bind]
            refine related_bind ((ih m (h₃.next hk₃) ?_).imp ?_ fun _ _ _ _ h => h)
            · rw [advance_current, hcomma]
              rfl
            · intro rest p₄ rest' q₄ hresult
              obtain ⟨rfl, h₄, hk₄⟩ := hresult
              exact ⟨rfl, h₄, hk₄⟩
          · refine related_bind ((h₃.related_expect hk₃ rfl).imp ?_ fun _ _ _ _ h => h)
            intro close p₄ close' q₄ hresult
            obtain ⟨rfl, hk₄, h₄⟩ := hresult
            exact ⟨rfl, h₄, by rw [hk₄]; rfl⟩

theorem parameterList_same (h : w.Linked depth p q) (hp : p.current.kind.isInner) :
    Related parameterList parameterList p q
      (fun ps p' ps' q' => ps' = ps.map (Parameter.relabel w.label) ∧ w.Linked depth p' q' ∧
        p'.current.kind.isInner)
      (w.Rejected depth) := by
  rw [parameterList]
  refine (h.next hp).related_ahead rfl (fun hclose => ?_) fun _ => ?_
  · refine ⟨rfl, h.next hp, ?_⟩
    rw [advance_current, hclose]
    rfl
  · rw [related_withBudget]
    exact parameters_same _ _ h hp

theorem resultType?_same (h : w.Linked depth p q) (hp : p.current.kind.isInner) :
    Related resultType? resultType? p q
      (fun result? p' result?' q' => result?' = result? ∧ w.Linked depth p' q' ∧
        p'.current.kind.isInner)
      (w.Rejected depth) := by
  have hnext := h.next hp
  have hsame : q.lookahead.kind.primitiveType? = p.lookahead.kind.primitiveType? :=
    hnext.map_kind Kind.primitiveType? fun _ hk => Kind.primitiveType?_of_isQuiet hk
  rw [resultType?, related_get_bind, hsame]
  split
  · next type htype =>
      rw [Kind.primitiveType?_eq_some_iff] at htype
      refine ⟨rfl, hnext, ?_⟩
      rw [advance_current, htype]
      rfl
  · exact ⟨rfl, h, hp⟩

theorem condition_same (h : w.Linked depth p q) (hp : p.current.kind.isInner) :
    Related condition condition p q (w.SameExpr depth) (w.Rejected depth) := by
  rw [condition, related_next_bind]
  exact expression_same .lowest (h.next hp)

section Blocks

variable {block block' : ParseM Block} (hb : w.SameBlocks block block')

include hb

theorem body_same (h : w.Linked depth p q) (hp : p.current.kind.isInner) :
    Related (body block) (body block') p q (w.SameBlock depth) (w.Rejected depth) := by
  rw [body, body]
  refine related_bind ((h.related_expect hp rfl).imp ?_ fun _ _ _ _ h => h)
  intro opening p' opening' q' hresult
  obtain ⟨rfl, hk', h'⟩ := hresult
  exact (hb.same _ _ _ h' hk').imp (fun _ _ _ _ h => h) fun _ _ _ _ h => h.1

theorem function_same (h : w.Linked depth p q) (hp : p.current.kind.isInner) :
    Related (function block) (function block') p q (w.SameStmt depth) (w.Rejected depth) := by
  rw [function, function, related_currentToken_bind, h.current (Kind.ne_eof_of_isInner hp)]
  refine related_bind ((h.related_expect hp rfl).imp ?_ fun _ _ _ _ h => h)
  intro name p₁ name' q₁ hresult
  obtain ⟨rfl, hk₁, h₁⟩ := hresult
  refine related_bind ((h₁.related_expect (by rw [hk₁]; rfl) rfl).imp ?_ fun _ _ _ _ h => h)
  intro opening p₂ opening' q₂ hresult
  obtain ⟨rfl, hk₂, h₂⟩ := hresult
  refine related_bind ((parameterList_same h₂ (by rw [hk₂]; rfl)).imp ?_ fun _ _ _ _ h => h)
  intro parameters p₃ parameters' q₃ hresult
  obtain ⟨rfl, h₃, hk₃⟩ := hresult
  refine related_bind ((resultType?_same h₃ hk₃).imp ?_ fun _ _ _ _ h => h)
  intro result? p₄ result?' q₄ hresult
  obtain ⟨rfl, h₄, hk₄⟩ := hresult
  refine related_bind ((body_same hb h₄ hk₄).imp ?_ fun _ _ _ _ h => h)
  intro body p₅ body' q₅ hresult
  obtain ⟨rfl, hclosed⟩ := hresult
  rw [related_spanFrom_bind, hclosed.current]
  exact ⟨rfl, .inr hclosed⟩

theorem whileStmt_same (h : w.Linked depth p q) (hp : p.current.kind.isInner) :
    Related (whileStmt block) (whileStmt block') p q (w.SameStmt depth) (w.Rejected depth) := by
  rw [whileStmt, whileStmt, related_currentToken_bind, h.current (Kind.ne_eof_of_isInner hp)]
  refine related_bind ((condition_same h hp).imp ?_ fun _ _ _ _ h => h)
  intro condition p' condition' q' hresult
  obtain ⟨rfl, h', hp'⟩ := hresult
  refine related_bind ((body_same hb h' hp').imp ?_ fun _ _ _ _ h => h)
  intro body p'' body' q'' hresult
  obtain ⟨rfl, hclosed⟩ := hresult
  rw [related_spanFrom_bind, hclosed.current]
  exact ⟨rfl, .inr hclosed⟩

theorem loopStmt_same (h : w.Linked depth p q) (hp : p.current.kind.isInner) :
    Related (loopStmt block) (loopStmt block') p q (w.SameStmt depth) (w.Rejected depth) := by
  rw [loopStmt, loopStmt, related_currentToken_bind, h.current (Kind.ne_eof_of_isInner hp)]
  refine related_bind ((body_same hb h hp).imp ?_ fun _ _ _ _ h => h)
  intro body p' body' q' hresult
  obtain ⟨rfl, hclosed⟩ := hresult
  rw [related_spanFrom_bind, hclosed.current]
  exact ⟨rfl, .inr hclosed⟩

omit hb in
/-- The end of a conditional. -/
theorem closed_same (h : w.Closed depth p q) (token : Token) (condition : Expr) (body : Block)
    (otherwise : Otherwise) :
    Related
      (spanFrom token >>= fun span => pure (Conditional.mk token condition body otherwise span))
      (spanFrom (w.label.token token) >>= fun span => pure (Conditional.mk (w.label.token token)
        (condition.relabel w.label) (body.relabel w.label) (otherwise.relabel w.label) span))
      p q (w.SameConditional depth) (w.Rejected depth) := by
  rw [related_spanFrom_bind, h.current]
  exact ⟨rfl, h⟩

theorem conditional_same (n m : Nat) (h : w.Linked depth p q) (hp : p.current.kind.isInner) :
    w.Abreast depth (conditional block n) (conditional block' m) p q (w.SameConditional depth)
      (w.Rejected depth) := by
  induction n generalizing m p q with
  | zero => exact .inl related_exhaust_left
  | succ n ih =>
      cases m with
      | zero => exact .inl related_exhaust_right
      | succ m =>
          rw [conditional, conditional]
          refine Seam.abreast_during (fun h => ⟨h.1, h.2.1.note, h.2.2⟩)
            (fun h => ⟨h.1, h.2.note⟩) ?_
          have h₀ : w.Linked depth (p.note .conditional .entered p.mark)
            (q.note .conditional .entered q.mark) := h.note
          rw [Seam.abreast_currentToken_bind, h₀.current (Kind.ne_eof_of_isInner hp)]
          refine Seam.abreast_bind ((condition_same h₀ hp).imp ?_ fun _ _ _ _ h => h)
          intro condition p₁ condition' q₁ hresult
          obtain ⟨rfl, h₁, hk₁⟩ := hresult
          refine Seam.abreast_bind ((body_same hb h₁ hk₁).imp ?_ fun _ _ _ _ h => h)
          intro body p₂ body' q₂ hresult
          obtain ⟨rfl, hclosed₂⟩ := hresult
          rw [Seam.abreast_ahead_bind]
          simp only [decide_eq_true_eq]
          rcases hclosed₂.linked_or with h₂ | ⟨hexposed, hseam⟩
          · refine Seam.abreast_ite (h₂.kind_eq_iff rfl) (fun helif => ?_) fun _ => .inl ?_
            · rw [Seam.abreast_next_bind]
              refine (ih m h₂ ?_).bind ?_ fun _ => .bind (.spanFrom _) fun _ => .pure _
              · rw [advance_current, helif]
                rfl
              · intro branch p₃ branch' q₃ hresult
                obtain ⟨rfl, hclosed₃⟩ := hresult
                exact closed_same hclosed₃ _ _ _ (.elif _)
            · refine h₂.related_ahead rfl (fun helse => ?_)
                fun _ => closed_same hclosed₂ _ _ _ .nothing
              rw [related_next_bind]
              refine related_bind ((body_same hb h₂ ?_).imp ?_ fun _ _ _ _ h => h)
              · rw [advance_current, helse]
                rfl
              · intro otherwise p₃ otherwise' q₃ hresult
                obtain ⟨rfl, hclosed₃⟩ := hresult
                exact closed_same hclosed₃ _ _ _ (.block _)
          -- The first input ends here. If the second one goes on with the conditional, it is
          -- across the seam.
          · have heof : p₂.lookahead.kind = .eof := hseam.eof
            have hedge : w.edge ≤ q₂.advance.index := Nat.le_of_eq (hseam.index hexposed.2.1).symm
            by_cases helif : q₂.lookahead.kind = .keyword .elif
            · refine .inr ⟨hexposed, ?_⟩
              rw [if_pos helif]
              refine Seam.crosses_next_bind hedge
                (.bind (conditional_along hb.onward m) fun _ => ?_)
              exact .bind (.spanFrom _) fun _ => .pure _
            rw [if_neg (by simp [heof]), if_neg helif, Seam.abreast_ahead_bind]
            simp only [decide_eq_true_eq]
            by_cases helse : q₂.lookahead.kind = .keyword .else_
            · refine .inr ⟨hexposed, ?_⟩
              rw [if_pos helse]
              refine Seam.crosses_next_bind hedge (.bind (body_along hb.onward) fun _ => ?_)
              exact .bind (.spanFrom _) fun _ => .pure _
            · rw [if_neg (by simp [heof]), if_neg helse]
              exact .inl (closed_same hclosed₂ _ _ _ .nothing)

omit hb in
theorem isInner_of_stmtRule? {kind : Kind} {rule : StmtRule} (h : kind.stmtRule? = some rule)
    (hr : rule ≠ .block) : kind.isInner := by
  rw [Kind.isInner_iff]
  refine ⟨?_, ?_, ?_, ?_⟩
  · rintro rfl; cases h
  · rintro rfl; cases h
  · rintro rfl; cases h; exact hr rfl
  · rintro rfl; cases h

theorem applyStmt_same {rule : StmtRule} (hk : p.current.kind.stmtRule? = some rule)
    (h : w.Linked depth p q) :
    w.Abreast depth (applyStmt block rule) (applyStmt block' rule) p q (w.SameStmt depth)
      (w.Failed depth p.current.kind) := by
  have hinner := isInner_of_stmtRule? hk
  have hfailed : rule ≠ .block → ∀ d p' d' q', w.Rejected depth d p' d' q' →
      w.Failed depth p.current.kind d p' d' q' :=
    fun hr _ _ _ _ h' => ⟨h', fun _ => (Kind.isInner_iff.mp (hinner hr)).2.2.1⟩
  cases rule with
  | declaration =>
      exact .inl ((declaration_same h (hinner (by simp))).imp (fun _ _ _ _ h => h)
        (hfailed (by simp)))
  | return_ =>
      exact .inl ((returnStmt_same h (hinner (by simp))).imp (fun _ _ _ _ h => h)
        (hfailed (by simp)))
  | block =>
      have hopen : p.current.kind = .symbol .openCurly :=
        Kind.eq_of_stmtRule? hk rfl
      refine .inl (related_bind ((hb.same depth p q h hopen).imp ?_ ?_))
      · intro b p' b' q' hresult
        obtain ⟨rfl, hclosed⟩ := hresult
        exact ⟨rfl, .inr hclosed⟩
      · intro d p' d' q' hresult
        obtain ⟨hrejected, heof⟩ := hresult
        refine ⟨hrejected, fun hopen' => ?_⟩
        rw [heof] at hopen'
        cases hopen'
  | function =>
      exact .inl ((function_same hb h (hinner (by simp))).imp (fun _ _ _ _ h => h)
        (hfailed (by simp)))
  | conditional =>
      have hbranch : w.Abreast depth (withBudget (conditional block))
          (withBudget (conditional block')) p q (w.SameConditional depth) (w.Rejected depth) :=
        Seam.abreast_withBudget.mpr (conditional_same hb _ _ h (hinner (by simp)))
      refine (hbranch.imp (fun _ _ _ _ h => h) (hfailed (by simp))).bind ?_ fun _ => .pure _
      intro branch p' branch' q' hresult
      obtain ⟨rfl, hclosed⟩ := hresult
      exact ⟨rfl, .inr hclosed⟩
  | while_ =>
      exact .inl ((whileStmt_same hb h (hinner (by simp))).imp (fun _ _ _ _ h => h)
        (hfailed (by simp)))
  | loop =>
      exact .inl ((loopStmt_same hb h (hinner (by simp))).imp (fun _ _ _ _ h => h)
        (hfailed (by simp)))

theorem stmt_same (h : w.Linked depth p q) (hp : p.current.kind ≠ .eof) :
    w.Abreast depth (stmt block) (stmt block') p q (w.SameStmt depth)
      (w.Failed depth p.current.kind) := by
  rw [stmt, stmt]
  refine Seam.abreast_during (fun h => ⟨h.1, h.2.note⟩) (fun h => ⟨⟨h.1.1, h.1.2.note⟩, h.2⟩) ?_
  have h₀ : w.Linked depth (p.note .statement .entered p.mark)
    (q.note .statement .entered q.mark) := h.note
  have hsame : (q.note .statement .entered q.mark).current.kind =
      (p.note .statement .entered p.mark).current.kind := by
    rw [h₀.current hp]
    rfl
  rw [Seam.abreast_get_bind, h₀.plain.1.rules, h₀.plain.2.rules]
  simp only [Rules.standard, hsame]
  split
  · next rule hrule => exact applyStmt_same hb hrule h₀
  · next hnone =>
      refine .inl ((expressionStmt_same h₀ hp).imp (fun _ _ _ _ h => h) ?_)
      refine fun d p' d' q' hrejected => ⟨hrejected, fun _ hopen => ?_⟩
      rw [show (p.note .statement .entered p.mark).current.kind = _ from hopen] at hnone
      cases hnone

end Blocks

end Parser

/-! ## Recovery -/

/-- Recovery has come to its end in both parsers. In a block it may have stopped
on the closing brace. -/
def Seam.Recovered (w : Seam) (depth : Nat) (p q : Parser) : Prop :=
  (p.current.kind = .symbol .closeCurly ∧ w.Linked depth p q) ∨
    (p.current.kind ≠ .symbol .closeCurly ∧ q.current.kind ≠ .symbol .closeCurly ∧
      w.Between depth p.advancePastStatement q.advancePastStatement)

/-- Both parsers have read the same statement, or have both given it up. -/
def Seam.SameItem (w : Seam) (depth : Nat) :
    Option Stmt → Parser → Option Stmt → Parser → Prop
  | some s, p, s?, q => s? = some (s.relabel w.label) ∧ w.Ended depth p q
  | none, p, s?, q => s? = none ∧ w.Recovered depth p q

/-- Outside of blocks a closing brace is passed over like any other token. -/
theorem Seam.Recovered.between (h : w.Recovered 0 p q) :
    w.Between 0 p.advancePastStatement q.advancePastStatement := by
  rcases h with ⟨hclose, h⟩ | ⟨-, -, h⟩
  · rw [h.plain.1.advancePastStatement, h.plain.2.advancePastStatement]
    exact h.leave hclose
  · exact h

namespace Parser

theorem skip_of_stop {n : Nat} (h : (p.atBoundary || p.beforeBoundary) = true) : p.skip n = p := by
  cases n with
  | zero => rfl
  | succ n => rw [skip, if_pos h]

theorem skip_of_eof {n : Nat} (h : p.current.kind = .eof) : p.skip n = p :=
  skip_of_stop (by simp [atBoundary, h])

theorem skip_of_go {n : Nat} (h : p.atBoundary = false) (h' : p.beforeBoundary = false) :
    p.skip (n + 1) = p.advance.skip n := by
  rw [skip, h, h']
  rfl

theorem atBoundary_eq_false_of_isInner (h : p.current.kind.isInner) : p.atBoundary = false := by
  obtain ⟨heof, hs, -, hc⟩ := Kind.isInner_iff.mp h
  simp [atBoundary, heof, hs, hc]

theorem beforeBoundary_eq_false_of_eof (hp : p.Plain) (h : p.lookahead.kind = .eof) :
    p.beforeBoundary = false := by
  rw [beforeBoundary, hp.rules, h]
  rfl

theorem beforeBoundary_of_isStmtKeyword (hp : p.Plain) (h : p.lookahead.kind.isStmtKeyword) :
    p.beforeBoundary = true := by
  rw [beforeBoundary, hp.rules, Rules.headsStmt, Rules.standard]
  simp [Kind.stmtRule?_isSome_of_isStmtKeyword h]

/-- Both inputs end at the seam, and both parsers have come to it. -/
theorem recovered_of_final (hw : w.Final) (h : w.Before [] p q) (hd : w.Balanced depth []) :
    w.Recovered depth p q := by
  refine .inr ⟨by simp [h.eof], by simp [h.nil.2, hw.2], [], ?_, .inl rfl, hd⟩
  rw [h.plain.advancePastStatement, h.plain'.advancePastStatement]
  exact h.advance_left.advance_right hw

/-- Skipping from the last token in front of the seam. The first parser goes on
to the end of its input, and the second one stays where it is if a statement
starts behind the seam. -/
theorem skip_last_same {n m : Nat} (h : w.Before [p.current] p q)
    (hp : p.current.kind.isInner) (hquiet : w.quiet) (hd : w.Balanced depth []) :
    w.Recovered depth (p.skip (n + 1)) (q.skip (m + 1)) := by
  obtain ⟨-, hcurrent, hnext⟩ := h.cons
  have hp' : q.current.kind.isInner := by
    rw [hcurrent]
    exact hp
  have heof : p.advance.current.kind = .eof := hnext.eof
  have hahead : q.lookahead = w.rest.head := hnext.nil.2
  rw [skip_of_go (atBoundary_eq_false_of_isInner hp) (beforeBoundary_eq_false_of_eof h.plain heof),
    skip_of_eof heof]
  rcases w.quiet_cases hquiet with hkeyword | ⟨hend, -⟩
  · have hstop := beforeBoundary_of_isStmtKeyword h.plain' (hahead ▸ hkeyword)
    rw [skip_of_stop (by rw [hstop, Bool.or_true])]
    refine .inr ⟨by rw [heof]; simp, (Kind.isInner_iff.mp hp').2.2.2, [], ?_, .inl rfl, hd⟩
    rw [hnext.plain.advancePastStatement, h.plain'.advancePastStatement]
    exact hnext.advance_left
  · have heof' : q.lookahead.kind = .eof := by rw [hahead, hend]
    rw [skip_of_go (atBoundary_eq_false_of_isInner hp')
      (beforeBoundary_eq_false_of_eof h.plain' heof'), skip_of_eof heof']
    exact recovered_of_final ⟨hquiet, hend⟩ hnext hd

/-- Skipping runs in lockstep up to the last token in front of the seam. -/
theorem skip_same {us : List Token} {n m : Nat} (h : w.Before us p q) (hg : w.Guarded us)
    (hd : w.Balanced depth us) (hnil : us = [] → w.Final)
    (hopen : p.current.kind ≠ .symbol .openCurly) (hn : us.length ≤ n) (hm : us.length ≤ m) :
    w.Recovered depth (p.skip n) (q.skip m) := by
  induction us generalizing n m p q with
  | nil =>
      have hfinal := hnil rfl
      rw [skip_of_eof h.eof, skip_of_eof (by rw [h.nil.2, hfinal.2])]
      exact recovered_of_final hfinal h hd
  | cons t us ih =>
      rw [List.length_cons] at hn hm
      obtain ⟨n, rfl⟩ : ∃ k, n = k + 1 := ⟨n - 1, by omega⟩
      obtain ⟨m, rfl⟩ : ∃ k, m = k + 1 := ⟨m - 1, by omega⟩
      obtain ⟨rfl, hcurrent, hnext⟩ := h.cons
      have hlinked : w.Linked depth p q := ⟨_, h, hg, hd⟩
      have hkind : q.current.kind = p.current.kind := by rw [hcurrent]; rfl
      have hboundary : q.atBoundary = p.atBoundary := by rw [atBoundary, atBoundary, hkind]
      cases hstop : p.atBoundary with
      | true =>
          rw [skip_of_stop (by rw [hstop]; rfl), skip_of_stop (by rw [hboundary, hstop]; rfl)]
          by_cases hclose : p.current.kind = .symbol .closeCurly
          · exact .inl ⟨hclose, hlinked⟩
          · have hsemicolon : p.current.kind = .symbol .semicolon := by
              simpa [atBoundary, hclose, h.kind_ne_eof] using hstop
            refine .inr ⟨hclose, by rwa [hkind], ?_⟩
            rw [h.plain.advancePastStatement, h.plain'.advancePastStatement]
            exact hlinked.pass hsemicolon
      | false =>
          have hinner : p.current.kind.isInner := by
            simp only [atBoundary, Bool.or_eq_false_iff, decide_eq_false_iff_not] at hstop
            exact Kind.isInner_iff.mpr ⟨h.kind_ne_eof, hstop.1.1, hopen, hstop.1.2⟩
          obtain ⟨-, hs, ho, hc⟩ := Kind.isInner_iff.mp hinner
          cases us with
          | nil => exact skip_last_same h hinner (hg.tail hs hc).quiet (hd.tail ho hc)
          | cons u us =>
              obtain ⟨hu, hu', -⟩ := hnext.cons
              have hahead : q.lookahead.kind = p.lookahead.kind := by
                rw [← advance_current, ← advance_current, hu, hu']
                rfl
              have hsame : q.beforeBoundary = p.beforeBoundary := by
                rw [beforeBoundary, beforeBoundary, h.plain.rules, h.plain'.rules, hahead]
              cases hbefore : p.beforeBoundary with
              | true =>
                  rw [skip_of_stop (by rw [hbefore, Bool.or_true]),
                    skip_of_stop (by rw [hsame, hbefore, Bool.or_true])]
                  refine .inr ⟨hc, by rwa [hkind], ?_⟩
                  rw [h.plain.advancePastStatement, h.plain'.advancePastStatement]
                  exact (hlinked.next hinner).between
              | false =>
                  rw [skip_of_go hstop hbefore,
                    skip_of_go (hboundary.trans hstop) (hsame.trans hbefore)]
                  refine ih hnext (hg.tail hs hc) (hd.tail ho hc) (by simp) ?_ (by omega) (by omega)
                  intro hopen'
                  rw [advance_current] at hopen'
                  rw [beforeBoundary, h.plain.rules, hopen'] at hbefore
                  cases hbefore

/-- Resuming on a token that starts a statement. -/
theorem advancePastStatement_resume (hp : p.Plain) :
    { p with resume := true }.advancePastStatement = p := by
  rw [advancePastStatement, if_pos rfl]
  exact congrArg (fun resume => { p with resume }) hp.resume.symm

/-- Recovery at the seam. -/
theorem recover_seam_same {t : Token} (ht : t ∈ w.shared) (h : w.Before [] p q)
    (hquiet : w.quiet) (hd : w.Balanced depth []) :
    w.Recovered depth (p.recover t.span.start) (q.recover (w.start t.span.start)) := by
  have hleft : p.recover t.span.start = p := by
    rw [recover, if_neg, skip_of_eof h.eof]
    rintro ⟨-, hhead⟩
    rw [h.plain.rules, h.eof] at hhead
    cases hhead
  rw [hleft, recover]
  rcases w.quiet_cases hquiet with hkeyword | ⟨hend, -⟩
  · have hne := w.start_ne hquiet hkeyword t ht
    have hhead := Kind.stmtRule?_isSome_of_isStmtKeyword hkeyword
    rw [← h.nil.2] at hne hhead
    rw [if_pos ⟨hne.symm, by rw [h.plain'.rules]; exact hhead⟩]
    refine .inr ⟨by simp [h.eof], ?_, [], ?_, .inl rfl, hd⟩
    · intro hclose
      rw [show q.current.kind = _ from hclose] at hhead
      cases hhead
    · rw [h.plain.advancePastStatement, advancePastStatement_resume h.plain']
      exact h.advance_left
  · have heof : q.current.kind = .eof := by rw [h.nil.2, hend]
    rw [if_neg, skip_of_eof heof]
    · exact recovered_of_final ⟨hquiet, hend⟩ h hd
    · rintro ⟨-, hhead⟩
      rw [h.plain'.rules, heof] at hhead
      cases hhead

/-- Recovery from a statement that starts with the token `t`. -/
theorem recover_same {t : Token} (ht : t ∈ w.shared) (h : w.Linked depth p q)
    (hopen : p.current.kind = .symbol .openCurly → t.kind ≠ .symbol .openCurly) :
    w.Recovered depth (p.recover t.span.start) (q.recover (w.start t.span.start)) := by
  obtain ⟨us, hus, hguard, hbalanced⟩ := id h
  cases us with
  | nil => exact recover_seam_same ht hus hguard.quiet hbalanced
  | cons u us =>
      obtain ⟨rfl, hcurrent, -⟩ := hus.cons
      have hmem : p.current ∈ w.shared := hus.mem List.mem_cons_self
      have hstart : q.current.span.start ≠ w.start t.span.start ↔
          p.current.span.start ≠ t.span.start := by
        rw [hcurrent, not_iff_not]
        refine ⟨fun heq => ?_, congrArg w.start⟩
        rw [w.start_injective _ hmem t ht heq]
      have hkind : q.current.kind = p.current.kind := by rw [hcurrent]; rfl
      have hresumes : (q.current.span.start ≠ w.start t.span.start ∧
            q.rules.headsStmt q.current.kind) ↔
          (p.current.span.start ≠ t.span.start ∧ p.rules.headsStmt p.current.kind) := by
        rw [hstart, hkind, hus.plain.rules, hus.plain'.rules]
      by_cases hresume : p.current.span.start ≠ t.span.start ∧ p.rules.headsStmt p.current.kind
      · have hclose : p.current.kind ≠ .symbol .closeCurly := by
          intro hclose
          rw [hclose, hus.plain.rules] at hresume
          cases hresume.2
        rw [recover, recover, if_pos hresume, if_pos (hresumes.mpr hresume)]
        refine .inr ⟨hclose, fun hclose' => hclose (hkind.symm.trans hclose'), ?_⟩
        rw [advancePastStatement_resume hus.plain, advancePastStatement_resume hus.plain']
        exact h.between
      · rw [recover, recover, if_neg hresume, if_neg (mt hresumes.mp hresume)]
        have hlength := length_le_budget hus.upcoming fun v hv => w.kind_ne_eof v (hus.mem hv)
        have hlength' := length_le_budget hus.upcoming' (by
          intro v hv
          obtain ⟨u, hu, rfl⟩ := List.mem_map.mp hv
          exact w.kind_ne_eof u (hus.mem hu))
        rw [List.length_map] at hlength'
        refine skip_same hus hguard hbalanced (by simp) ?_ hlength hlength'
        -- A statement that starts with a brace does not fail on that brace.
        intro hbrace
        have hsame : p.current.span.start = t.span.start := by
          by_contra hne
          exact hresume ⟨hne, by rw [hus.plain.rules, hbrace]; rfl⟩
        rw [← w.start_injective _ hmem t ht (congrArg w.start hsame)] at hopen
        exact hopen hbrace hbrace

theorem related_stmtOrRecover {block block' : ParseM Block}
    {ok : Option Stmt → Parser → Option Stmt → Parser → Prop} {err : Rejections}
    (h : Related (stmt block) (stmt block') p q
      (fun s p' s' q' => ok (some s) p' (some s') q')
      fun d p' d' q' => ok none ((p'.record d).recover p.current.span.start) none
        ((q'.record d').recover q.current.span.start)) :
    Related (stmtOrRecover block) (stmtOrRecover block') p q ok err := by
  unfold Related at h ⊢
  unfold stmtOrRecover
  cases hx : stmt block p with
  | ok s p' =>
      cases hy : stmt block' q with
      | ok s' q' => rw [hx, hy] at h; exact h
      | error e q' =>
          rw [hx, hy] at h
          cases e with
          | outOfFuel => trivial
          | rejected d' => exact h.elim
  | error e p' =>
      cases e with
      | outOfFuel => trivial
      | rejected d =>
          cases hy : stmt block' q with
          | ok s' q' => rw [hx, hy] at h; exact h.elim
          | error e q' =>
              rw [hx, hy] at h
              cases e with
              | outOfFuel => trivial
              | rejected d' => exact h

theorem stmtOrRecover_same {block block' : ParseM Block} (hb : w.SameBlocks block block')
    (hexposed : ¬ w.Exposed depth) (h : w.Linked depth p q) (hp : p.current.kind ≠ .eof)
    {err : Rejections} :
    Related (stmtOrRecover block) (stmtOrRecover block') p q (w.SameItem depth) err := by
  have hstmt := (stmt_same hb h hp).resolve_right fun hcross => hexposed hcross.1
  refine related_stmtOrRecover (hstmt.imp ?_ ?_)
  · intro s p' s' q' hresult
    obtain ⟨rfl, hended⟩ := hresult
    exact ⟨rfl, hended⟩
  · rintro d p' d' q' ⟨⟨hfault, hlinked⟩, hopen⟩
    rw [h.current hp]
    exact ⟨rfl, recover_same (h.mem hp) (hlinked.record hfault) hopen⟩

/-! ## Blocks -/

theorem blockBody_same {block block' : ParseM Block} (hb : w.SameBlocks block block') (n m : Nat)
    (h : w.Linked (depth + 1) p q) {err : Rejections} :
    Related (blockBody block n) (blockBody block' m) p q
      (fun ss p' ss' q' => ss' = Stmt.relabelAll w.label ss ∧ w.Linked (depth + 1) p' q' ∧
        (p'.current.kind = .symbol .closeCurly ∨ p'.current.kind = .eof))
      err := by
  induction n generalizing m p q with
  | zero => exact related_exhaust_left
  | succ n ih =>
      cases m with
      | zero => exact related_exhaust_right
      | succ m =>
          have heof : q.current.kind = .eof ↔ p.current.kind = .eof := by
            by_cases hp : p.current.kind = .eof
            · simp [hp, (h.final hp).2]
            · rw [h.current hp]
              rfl
          rw [blockBody, blockBody, related_get_bind]
          refine related_ite (or_congr (h.kind_eq_iff rfl) heof) (fun hend => ⟨rfl, h, hend⟩)
            fun hgoes => ?_
          rw [not_or] at hgoes
          refine related_bind ((stmtOrRecover_same hb Seam.not_exposed_succ h hgoes.2).imp ?_
            fun _ _ _ _ h => h)
          rintro (_ | s) p' _ q' ⟨rfl, hitem⟩
          · rw [related_modify_bind]
            rcases hitem with ⟨hclose, h'⟩ | ⟨hp', hq', h'⟩
            · rw [if_pos hclose, if_pos ((h'.kind_eq_iff rfl).mpr hclose)]
              exact ih m h'
            · rw [if_neg hp', if_neg hq']
              exact ih m h'.linked_of_pos
          · rw [related_modify_bind, hitem.plain.1.advancePastStatement,
              hitem.plain.2.advancePastStatement]
            refine related_bind ((ih m hitem.advance.linked_of_pos).imp ?_ fun _ _ _ _ h => h)
            intro rest p'' rest' q'' hresult
            obtain ⟨rfl, h'', hend⟩ := hresult
            exact ⟨rfl, h'', hend⟩

theorem block_same (n m : Nat) : w.SameBlocks (block n) (block m) := by
  induction n generalizing m with
  | zero => exact ⟨fun _ _ _ _ _ => related_exhaust_left, block_along stmtOrRecover_along m⟩
  | succ n ih =>
      cases m with
      | zero => exact ⟨fun _ _ _ _ _ => related_exhaust_right, .exhaust⟩
      | succ m =>
          refine ⟨fun depth p q h hopen => ?_, block_along stmtOrRecover_along (m + 1)⟩
          rw [block, block]
          refine h.related_during (fun h => ⟨h.1, h.2.1.note, h.2.2⟩)
            (fun h => ⟨⟨h.1.1, h.1.2.note⟩, h.2⟩) ?_
          intro p₀ q₀ h₀ hcurrent₀
          have hopen₀ : p₀.current.kind = .symbol .openCurly := by rw [hcurrent₀]; exact hopen
          rw [related_currentToken_bind, h₀.current (by rw [hopen₀]; simp), related_next_bind]
          refine related_bind (related_withBudget.mpr ?_)
          refine (blockBody_same (ih m) _ _ (h₀.enter hopen₀)).imp ?_ fun _ _ _ _ h => h
          intro body p' body' q' hresult
          obtain ⟨rfl, h', hend⟩ := hresult
          rw [related_get_bind]
          refine related_ite (h'.kind_eq_iff rfl) (fun hclose => ?_) fun hclose => ?_
          · have hclosed : w.Closed depth p' q' := ⟨h', hclose⟩
            rw [hclosed.current]
            exact ⟨rfl, hclosed⟩
          · have heof := hend.resolve_left hclose
            refine ⟨⟨h'.fault (.unexpectedToken (.symbol .closeCurly)), ?_⟩, heof⟩
            exact h'.of_final (h'.final heof).1 depth

theorem parseBlock_same : w.SameBlocks parseBlock parseBlock := by
  refine ⟨fun depth p q h hopen => ?_, parseBlock_along stmtOrRecover_along⟩
  rw [parseBlock, related_withBudget]
  exact (block_same _ _).same depth p q h hopen

/-! ## Programs -/

/-- The turns of the loop over the statements of a program. -/
theorem statements_turns (item : ParseM (Option Stmt)) (n : Nat) (p : Parser) :
    Ensures (statements item n) p
      (fun ss q => (p.current.kind = .eof ∧ ss = [] ∧ q = p) ∨
        (p.current.kind ≠ .eof ∧ ∃ k s? r rest, n = k + 1 ∧ item p = .ok s? r ∧
          statements item k r.advancePastStatement = .ok rest q ∧ ss = s?.toList ++ rest))
      fun _ _ => True := by
  cases n with
  | zero => trivial
  | succ n =>
      rw [statements, ensures_bind, ensures_get, ensures_ite]
      refine ⟨fun heof => .inl ⟨heof, rfl, rfl⟩, fun hgoes => ?_⟩
      simp only [ensures_bind, ensures_modify, ensures_pure]
      refine (ensures_self item p).imp (fun s? r hitem => ?_) fun _ _ _ => trivial
      refine (ensures_self (statements item n) _).imp (fun rest q hrest => ?_) fun _ _ _ => trivial
      exact .inr ⟨hgoes, n, s?, r, rest, rfl, hitem, hrest, rfl⟩

/-- The second parser reads the statements in front of the seam as the first one
does, and goes on behind it. -/
theorem statements_part {n m : Nat} {ss ss' : List Stmt} {p' q' : Parser}
    (hexposed : ¬ w.Exposed 0) (h : w.Between 0 p q)
    (hp : statements parseStmtOrRecover n p = .ok ss p')
    (hq : statements parseStmtOrRecover m q = .ok ss' q') :
    ∃ k r rest, statements parseStmtOrRecover k r = .ok rest q' ∧
      ss' = ss.map (Stmt.relabel w.label) ++ rest ∧ w.Before [] p' r := by
  induction n generalizing m p q ss ss' with
  | zero => cases hp
  | succ n ih =>
      rcases (statements_turns _ _ p).of_ok hp with
        ⟨heof, rfl, rfl⟩ | ⟨hgoes, k, s?, r, rest, hk, hs, hrest, rfl⟩
      · obtain ⟨us, hus, -⟩ := h
        obtain rfl := hus.eq_nil_iff.mpr heof
        exact ⟨m, q, ss', hq, rfl, hus⟩
      · obtain rfl : n = k := by omega
        have hlinked := h.linked hgoes
        have hgoes' : q.current.kind ≠ .eof := by
          rw [hlinked.current hgoes]
          exact hgoes
        rcases (statements_turns _ _ q).of_ok hq with
          ⟨heof, -⟩ | ⟨-, l, s?', r', rest', rfl, hs', hrest', rfl⟩
        · exact absurd heof hgoes'
        · have hrelated : Related parseStmtOrRecover parseStmtOrRecover p q (w.SameItem 0)
              fun _ _ _ _ => False :=
            stmtOrRecover_same parseBlock_same hexposed hlinked hgoes
          have hitem := hrelated.of_ok hs hs'
          have hbetween : w.Between 0 r.advancePastStatement r'.advancePastStatement ∧
              s?'.toList = s?.toList.map (Stmt.relabel w.label) := by
            cases s? with
            | none =>
                obtain ⟨rfl, hrecovered⟩ := hitem
                exact ⟨hrecovered.between, rfl⟩
            | some s =>
                obtain ⟨rfl, hended⟩ := hitem
                rw [hended.plain.1.advancePastStatement, hended.plain.2.advancePastStatement]
                exact ⟨hended.advance, rfl⟩
          obtain ⟨j, t, ts, hts, rfl, hbefore⟩ := ih hbetween.1 hrest hrest'
          refine ⟨j, t, ts, hts, ?_, hbefore⟩
          rw [hbetween.2, List.map_append, List.append_assoc]

end Parser

end Frontend
