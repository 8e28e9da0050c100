import Frontend.Proofs.Essence
import Frontend.Proofs.Seam

/-!
# Expressions in front of a seam

Two parsers that are linked read the same expression, or are both rejected and
still linked. The expression ends on a token that a statement can go on behind,
so the parsers may look further; and where they are rejected they have not come
past the seam.

Each production needs only this of its operands, so the lemmas take it as a
hypothesis on the two ways to read an operand. They differ in their fuel.
-/

namespace Frontend

variable {w : Seam} {depth : Nat} {p q : Parser}

namespace Seam

/-- The second parser has read the same expression, and both stand on its last
token. -/
def SameExpr (w : Seam) (depth : Nat) (e : Expr) (p : Parser) (e' : Expr) (q : Parser) : Prop :=
  e' = e.relabel w.label ∧ w.Linked depth p q ∧ p.current.kind.isInner

/-- Two ways to read an operand give the same. -/
def SameOperands (w : Seam) (operand operand' : Operand) : Prop :=
  ∀ depth power p q, w.Linked depth p q →
    Related (operand power) (operand' power) p q (w.SameExpr depth) (w.Rejected depth)

theorem label_faithful (w : Seam) : w.label.Faithful := Relabelling.placed_faithful w.start w.stop

theorem span_relabel (e : Expr) : (e.relabel w.label).span = w.label.span e.span :=
  e.span_relabel_placed w.start w.stop

namespace Linked

/-- A complaint of the token that the parsers stand on, or have stood on. -/
theorem related_reject (h : w.Linked depth p q) (hp : p.current.kind.isInner) (cause : Cause)
    {α β : Type} {p' q' : Parser} (h' : w.Linked depth p' q')
    {ok : α → Parser → β → Parser → Prop} :
    Related (Parser.reject cause p.current.span.start)
      (Parser.reject cause (w.label.token p.current).span.start) p' q' ok (w.Rejected depth) := by
  have hfault := h.fault fun _ => cause
  rw [h.current (Kind.ne_eof_of_isInner hp)] at hfault
  exact ⟨hfault, h'⟩

/-- A target is named as it is printed, and that is the same for both parsers. -/
theorem related_invalidTarget (h : w.Linked depth p q) (hp : p.current.kind.isInner) (e : Expr)
    {α β : Type} {p' q' : Parser} (h' : w.Linked depth p' q')
    {ok : α → Parser → β → Parser → Prop} :
    Related (Parser.reject (.invalidTarget e.render) p.current.span.start)
      (Parser.reject (.invalidTarget (e.relabel w.label).render)
        (w.label.token p.current).span.start) p' q' ok (w.Rejected depth) := by
  rw [Expr.render_relabel w.label_faithful]
  exact h.related_reject hp _ h'

/-- A look at the lookahead, where a step to it would keep the link. -/
theorem related_ahead (h : w.Linked depth p.advance q.advance) {kind : Kind}
    (hk : kind.isQuiet = false) {α β : Type} {x y : ParseM α} {x' y' : ParseM β}
    {ok : α → Parser → β → Parser → Prop} {err : Rejections}
    (hx : p.lookahead.kind = kind → Related x x' p q ok err)
    (hy : p.lookahead.kind ≠ kind → Related y y' p q ok err) :
    Related (Parser.ahead kind >>= fun b => if b = true then x else y)
      (Parser.ahead kind >>= fun b => if b = true then x' else y') p q ok err := by
  rw [Parser.related_ahead_bind]
  simp only [decide_eq_true_eq]
  exact related_ite (h.kind_eq_iff hk) hx hy

theorem related_expect (h : w.Linked depth p q) (hp : p.current.kind.isInner) {kind : Kind}
    (hk : kind.isQuiet = false) :
    Related (Parser.expect kind) (Parser.expect kind) p q
      (fun t p' t' q' => t' = w.label.token t ∧ p'.current.kind = kind ∧ w.Linked depth p' q')
      (w.Rejected depth) := by
  have hnext := h.next hp
  rw [Parser.expect, related_get_bind]
  refine related_ite (hnext.kind_eq_iff hk) (fun hkind => ?_)
    fun _ => ⟨hnext.fault (.unexpectedToken kind), h⟩
  refine ⟨hnext.current ?_, hkind, hnext⟩
  intro heof
  rw [Parser.advance_current, hkind] at heof
  rw [heof] at hk
  cases hk

theorem related_primitiveType (h : w.Linked depth p q) (hp : p.current.kind.isInner) :
    Related Parser.primitiveType Parser.primitiveType p q
      (fun type p' type' q' => type' = type ∧ p'.current.kind.isInner ∧ w.Linked depth p' q')
      (w.Rejected depth) := by
  have hnext := h.next hp
  have hsame : q.lookahead.kind.primitiveType? = p.lookahead.kind.primitiveType? :=
    hnext.map_kind Kind.primitiveType? fun _ hk => Kind.primitiveType?_of_isQuiet hk
  rw [Parser.primitiveType, related_get_bind, hsame]
  split
  · next type htype =>
      rw [Kind.primitiveType?_eq_some_iff] at htype
      refine ⟨rfl, ?_, hnext⟩
      rw [Parser.advance_current, htype]
      rfl
  · exact ⟨hnext.fault .expectedPrimitiveType, h⟩

/-- What links the parsers does not depend on the notes in the trail. -/
theorem related_during (h : w.Linked depth p q) {production : Production} {α β : Type}
    {x : ParseM α} {y : ParseM β} {ok : α → Parser → β → Parser → Prop}
    {err : Rejections}
    (hok : ∀ {a p b q stage entry entry'}, ok a p b q →
      ok a (p.note production stage entry) b (q.note production stage entry'))
    (herr : ∀ {d p d' q stage entry entry'}, err d p d' q →
      err d (p.note production stage entry) d' (q.note production stage entry'))
    (hx : ∀ {p' q'}, w.Linked depth p' q' → p'.current = p.current →
      Related x y p' q' ok err) :
    Related (Parser.during production x) (Parser.during production y) p q ok err :=
  Parser.related_during ((hx h.note rfl).imp (fun _ _ _ _ h => hok h) fun _ _ _ _ h => herr h)

end Linked

end Seam

namespace Parser

theorem number_same (h : w.Linked depth p q) (hp : p.current.kind.isInner) :
    Related number number p q (w.SameExpr depth) (w.Rejected depth) := by
  rw [number, related_currentToken_bind, h.current (Kind.ne_eof_of_isInner hp)]
  simp only [Seam.label, Relabelling.placed]
  split
  · exact ⟨rfl, h, hp⟩
  · exact h.related_reject hp _ h

theorem postfixed_same (h : w.Linked depth p q) (hp : p.current.kind.isInner) (left : Expr) :
    Related (postfixed left) (postfixed (left.relabel w.label)) p q (w.SameExpr depth)
      (w.Rejected depth) := by
  rw [postfixed, postfixed, related_currentToken_bind, h.current (Kind.ne_eof_of_isInner hp)]
  refine related_ite (by rw [Expr.isAssignable_relabel]) (fun _ => ?_)
    fun _ => h.related_invalidTarget hp left h
  refine ⟨?_, h, hp⟩
  rw [Expr.relabel, Seam.span_relabel]
  rfl

theorem member_same (h : w.Linked depth p q) (hp : p.current.kind.isInner) (left : Expr) :
    Related (member left) (member (left.relabel w.label)) p q (w.SameExpr depth)
      (w.Rejected depth) := by
  rw [member, member, related_currentToken_bind, h.current (Kind.ne_eof_of_isInner hp)]
  refine related_bind ((h.related_expect hp rfl).imp ?_ fun _ _ _ _ h => h)
  intro name p' name' q' hresult
  obtain ⟨rfl, hname, h'⟩ := hresult
  refine ⟨?_, h', by rw [hname]; rfl⟩
  rw [Expr.relabel, Seam.span_relabel]
  rfl

section Operands

variable {operand operand' : Operand} (ho : w.SameOperands operand operand')

include ho

theorem prefixed_same (h : w.Linked depth p q) (hp : p.current.kind.isInner) :
    Related (prefixed operand) (prefixed operand') p q (w.SameExpr depth) (w.Rejected depth) := by
  rw [prefixed, prefixed, related_currentToken_bind, related_next_bind,
    h.current (Kind.ne_eof_of_isInner hp)]
  refine related_bind ((ho _ _ _ _ (h.next hp)).imp ?_ fun _ _ _ _ h => h)
  intro right p' right' q' hresult
  obtain ⟨rfl, h', hp'⟩ := hresult
  refine related_ite ?_ (fun _ => h.related_invalidTarget hp right h')
    fun _ => ⟨?_, h', hp'⟩
  · rw [Expr.isAssignable_relabel]
    rfl
  · rw [Expr.relabel, Seam.span_relabel]
    rfl

theorem grouping_same (h : w.Linked depth p q) (hp : p.current.kind.isInner) :
    Related (grouping operand) (grouping operand') p q (w.SameExpr depth) (w.Rejected depth) := by
  rw [grouping, grouping, related_currentToken_bind, related_next_bind,
    h.current (Kind.ne_eof_of_isInner hp)]
  refine related_bind ((ho _ _ _ _ (h.next hp)).imp ?_ fun _ _ _ _ h => h)
  intro inner p' inner' q' hresult
  obtain ⟨rfl, h', hp'⟩ := hresult
  refine related_bind ((h'.related_expect hp' rfl).imp ?_ fun _ _ _ _ h => h)
  intro close p'' close' q'' hresult
  obtain ⟨rfl, hclose, h''⟩ := hresult
  exact ⟨rfl, h'', by rw [hclose]; rfl⟩

theorem binary_same (h : w.Linked depth p q) (hp : p.current.kind.isInner) (left : Expr)
    (power : Power) :
    Related (binary operand left power) (binary operand' (left.relabel w.label) power) p q
      (w.SameExpr depth) (w.Rejected depth) := by
  rw [binary, binary, related_currentToken_bind, related_next_bind,
    h.current (Kind.ne_eof_of_isInner hp)]
  refine related_bind ((ho _ _ _ _ (h.next hp)).imp ?_ fun _ _ _ _ h => h)
  intro right p' right' q' hresult
  obtain ⟨rfl, h', hp'⟩ := hresult
  refine ⟨?_, h', hp'⟩
  rw [Expr.relabel, Seam.span_relabel, Seam.span_relabel]
  rfl

theorem assignment_same (h : w.Linked depth p q) (hp : p.current.kind.isInner) (left : Expr) :
    Related (assignment operand left) (assignment operand' (left.relabel w.label)) p q
      (w.SameExpr depth) (w.Rejected depth) := by
  rw [assignment, assignment, related_currentToken_bind, h.current (Kind.ne_eof_of_isInner hp)]
  refine related_ite (by rw [Expr.isAssignable_relabel]) (fun _ => ?_)
    fun _ => h.related_invalidTarget hp left h
  rw [related_next_bind]
  refine related_bind ((ho _ _ _ _ (h.next hp)).imp ?_ fun _ _ _ _ h => h)
  intro value p' value' q' hresult
  obtain ⟨rfl, h', hp'⟩ := hresult
  refine ⟨?_, h', hp'⟩
  rw [Expr.relabel, Seam.span_relabel, Seam.span_relabel]
  rfl

theorem indexed_same (h : w.Linked depth p q) (hp : p.current.kind.isInner) (left : Expr) :
    Related (indexed operand left) (indexed operand' (left.relabel w.label)) p q
      (w.SameExpr depth) (w.Rejected depth) := by
  rw [indexed, indexed, related_currentToken_bind, related_next_bind,
    h.current (Kind.ne_eof_of_isInner hp)]
  refine related_bind ((ho _ _ _ _ (h.next hp)).imp ?_ fun _ _ _ _ h => h)
  intro place p' place' q' hresult
  obtain ⟨rfl, h', hp'⟩ := hresult
  refine related_bind ((h'.related_expect hp' rfl).imp ?_ fun _ _ _ _ h => h)
  intro close p'' close' q'' hresult
  obtain ⟨rfl, hclose, h''⟩ := hresult
  refine ⟨?_, h'', by rw [hclose]; rfl⟩
  rw [Expr.relabel, Seam.span_relabel]
  rfl

theorem moreArguments_same (n m : Nat) (h : w.Linked depth p q) (hp : p.current.kind.isInner) :
    Related (moreArguments operand n) (moreArguments operand' m) p q
      (fun es p' es' q' => es' = Expr.relabelAll w.label es ∧ w.Linked depth p' q' ∧
        p'.current.kind.isInner)
      (w.Rejected depth) := by
  induction n generalizing m p q with
  | zero => exact related_exhaust_left
  | succ n ih =>
      cases m with
      | zero => exact related_exhaust_right
      | succ m =>
          rw [moreArguments, moreArguments]
          refine (h.next hp).related_ahead rfl (fun hcomma => ?_) fun _ => ⟨rfl, h, hp⟩
          have hcomma : p.advance.current.kind.isInner := by
            rw [advance_current, hcomma]
            rfl
          rw [related_next_bind, related_next_bind]
          refine related_bind ((ho _ _ _ _ ((h.next hp).next hcomma)).imp ?_ fun _ _ _ _ h => h)
          intro argument p' argument' q' hresult
          obtain ⟨rfl, h', hp'⟩ := hresult
          refine related_bind ((ih m h' hp').imp ?_ fun _ _ _ _ h => h)
          intro arguments p'' arguments' q'' hresult
          obtain ⟨rfl, h'', hp''⟩ := hresult
          exact ⟨rfl, h'', hp''⟩

theorem arguments_same (h : w.Linked depth p q) (hp : p.current.kind.isInner) :
    Related (arguments operand) (arguments operand') p q
      (fun es p' es' q' => es' = Expr.relabelAll w.label es ∧ w.Linked depth p' q' ∧
        p'.current.kind.isInner)
      (w.Rejected depth) := by
  rw [arguments, arguments]
  refine (h.next hp).related_ahead rfl (fun hclose => ?_) fun _ => ?_
  · refine ⟨rfl, h.next hp, ?_⟩
    rw [advance_current, hclose]
    rfl
  · rw [related_next_bind]
    refine related_bind ((ho _ _ _ _ (h.next hp)).imp ?_ fun _ _ _ _ h => h)
    intro first p' first' q' hresult
    obtain ⟨rfl, h', hp'⟩ := hresult
    refine related_bind (related_withBudget.mpr ?_)
    refine (moreArguments_same ho _ _ h' hp').imp ?_ fun _ _ _ _ h => h
    intro rest p'' rest' q'' hresult
    obtain ⟨rfl, h'', hp''⟩ := hresult
    refine related_bind ((h''.related_expect hp'' rfl).imp ?_ fun _ _ _ _ h => h)
    intro close p''' close' q''' hresult
    obtain ⟨rfl, hclose, h'''⟩ := hresult
    exact ⟨rfl, h''', by rw [hclose]; rfl⟩

theorem call_same (h : w.Linked depth p q) (hp : p.current.kind.isInner) (left : Expr) :
    Related (call operand left) (call operand' (left.relabel w.label)) p q
      (w.SameExpr depth) (w.Rejected depth) := by
  rw [call, call, related_currentToken_bind, h.current (Kind.ne_eof_of_isInner hp)]
  refine related_bind ((arguments_same ho h hp).imp ?_ fun _ _ _ _ h => h)
  intro arguments p' arguments' q' hresult
  obtain ⟨rfl, h', hp'⟩ := hresult
  rw [related_currentToken_bind, h'.current (Kind.ne_eof_of_isInner hp')]
  refine ⟨?_, h', hp'⟩
  rw [Expr.relabel, Seam.span_relabel]
  rfl

theorem applyPrefix_same (h : w.Linked depth p q) (hp : p.current.kind.isInner)
    (rule : PrefixRule) :
    Related (applyPrefix operand rule) (applyPrefix operand' rule) p q (w.SameExpr depth)
      (w.Rejected depth) := by
  have hcurrent := h.current (Kind.ne_eof_of_isInner hp)
  cases rule with
  | identifier => exact ⟨congrArg Expr.identifier hcurrent, h, hp⟩
  | number => exact number_same h hp
  | boolean => exact ⟨congrArg Expr.boolean hcurrent, h, hp⟩
  | operator => exact prefixed_same ho h hp
  | grouping => exact grouping_same ho h hp

theorem applyInfix_same (h : w.Linked depth p q) (hp : p.current.kind.isInner) (left : Expr)
    (power : Power) (rule : InfixRule) :
    Related (applyInfix operand left power rule)
      (applyInfix operand' (left.relabel w.label) power rule) p q (w.SameExpr depth)
      (w.Rejected depth) := by
  cases rule with
  | binary => exact binary_same ho h hp left power
  | assignment => exact assignment_same ho h hp left
  | postfixed => exact postfixed_same h hp left
  | call => exact call_same ho h hp left
  | index => exact indexed_same ho h hp left
  | member => exact member_same h hp left

theorem climb_same (power : Power) (n m : Nat) (h : w.Linked depth p q)
    (hp : p.current.kind.isInner) (left : Expr) :
    Related (climb operand power n left) (climb operand' power m (left.relabel w.label)) p q
      (w.SameExpr depth) (w.Rejected depth) := by
  induction n generalizing m p q left with
  | zero => exact related_exhaust_left
  | succ n ih =>
      cases m with
      | zero => exact related_exhaust_right
      | succ m =>
          have hnext := h.next hp
          have hsame : q.lookahead.kind.infixRule? = p.lookahead.kind.infixRule? :=
            hnext.map_kind Kind.infixRule? fun _ hk => Kind.infixRule?_of_isQuiet hk
          rw [climb, climb, related_get_bind, h.plain.1.rules, h.plain.2.rules]
          simp only [Rules.standard, hsame]
          split
          · exact ⟨rfl, h, hp⟩
          · next operatorPower rule hrule =>
              refine related_ite Iff.rfl (fun _ => ?_) fun _ => ⟨rfl, h, hp⟩
              rw [related_next_bind]
              have hoperator : p.advance.current.kind.isInner := Kind.isInner_of_infixRule? hrule
              refine related_bind
                ((applyInfix_same ho hnext hoperator left operatorPower rule).imp ?_
                  fun _ _ _ _ h => h)
              intro left' p' left'' q' hresult
              obtain ⟨rfl, h', hp'⟩ := hresult
              exact ih m h' hp' left'

end Operands

theorem expr_same (n m : Nat) : w.SameOperands (expr n) (expr m) := by
  induction n generalizing m with
  | zero => exact fun _ _ _ _ _ => related_exhaust_left
  | succ n ih =>
      cases m with
      | zero => exact fun _ _ _ _ _ => related_exhaust_right
      | succ m =>
          intro depth power p q h
          rw [expr, expr]
          refine h.related_during (fun h => ⟨h.1, h.2.1.note, h.2.2⟩) (fun h => ⟨h.1, h.2.note⟩) ?_
          intro p' q' h' _
          have hsame : q'.current.kind.prefixRule? = p'.current.kind.prefixRule? :=
            h'.map_kind Kind.prefixRule? fun _ hk => Kind.prefixRule?_of_isQuiet hk
          rw [related_get_bind, h'.plain.1.rules, h'.plain.2.rules]
          simp only [Rules.standard, hsame]
          split
          · exact ⟨h'.fault .noPrefixRule, h'⟩
          · next rule hrule =>
              have hinner := Kind.isInner_of_prefixRule? hrule
              refine related_bind
                ((applyPrefix_same (ih m) h' hinner rule).imp ?_ fun _ _ _ _ h => h)
              intro left r left' s hresult
              obtain ⟨rfl, hr, hinner'⟩ := hresult
              exact climb_same (ih m) power _ _ hr hinner' left

theorem expression_same (power : Power) (h : w.Linked depth p q) :
    Related (expression power) (expression power) p q (w.SameExpr depth) (w.Rejected depth) := by
  rw [expression, related_withBudget]
  exact expr_same _ _ depth power p q h

end Parser

end Frontend
