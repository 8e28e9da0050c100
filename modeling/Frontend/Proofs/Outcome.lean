import Frontend.Parser.Program

/-!
# What a production ensures

`Ensures x p ok err` says how the production `x` ends when it starts in the
state `p`: with a result and a state that satisfy `ok`, or with a failure and a
state that satisfy `err`. It is a weakest precondition, so it passes through the
steps of a production from the last one to the first; the equivalences below
are the rules for the single steps, and rewriting with them runs a production
symbolically until it calls another one.
-/

namespace Frontend

variable {α β : Type}

/-- The production ends well in a state that satisfies `ok`, or fails in one
that satisfies `err`. -/
def Ensures (x : ParseM α) (p : Parser) (ok : α → Parser → Prop)
    (err : Failure → Parser → Prop) : Prop :=
  match x p with
  | .ok a q => ok a q
  | .error f q => err f q

theorem Ensures.imp {x : ParseM α} {p : Parser} {ok ok' : α → Parser → Prop}
    {err err' : Failure → Parser → Prop} (h : Ensures x p ok err)
    (hok : ∀ a q, ok a q → ok' a q) (herr : ∀ f q, err f q → err' f q) :
    Ensures x p ok' err' := by
  unfold Ensures at h ⊢
  split
  · next a q hx => rw [hx] at h; exact hok a q h
  · next f q hx => rw [hx] at h; exact herr f q h

/-- A production ends as it ends. -/
theorem ensures_self (x : ParseM α) (p : Parser) :
    Ensures x p (fun a q => x p = .ok a q) fun f q => x p = .error f q := by
  unfold Ensures
  cases x p <;> rfl

theorem Ensures.of_ok {x : ParseM α} {p q : Parser} {a : α} {ok : α → Parser → Prop}
    {err : Failure → Parser → Prop} (h : Ensures x p ok err) (hx : x p = .ok a q) : ok a q := by
  rw [Ensures, hx] at h
  exact h

theorem Ensures.of_error {x : ParseM α} {p q : Parser} {f : Failure} {ok : α → Parser → Prop}
    {err : Failure → Parser → Prop} (h : Ensures x p ok err) (hx : x p = .error f q) :
    err f q := by
  rw [Ensures, hx] at h
  exact h

theorem Ensures.exists_ok {x : ParseM α} {p : Parser} {ok : α → Parser → Prop}
    (h : Ensures x p ok fun _ _ => False) : ∃ a q, x p = .ok a q ∧ ok a q := by
  unfold Ensures at h
  split at h
  · next a q hx => exact ⟨a, q, hx, h⟩
  · exact h.elim

theorem bind_of_ok {x : ParseM α} {f : α → ParseM β} {p q : Parser} {a : α}
    (h : x p = .ok a q) : (x >>= f) p = f a q := by
  simp only [bind, EStateM.bind, h]

theorem bind_of_error {x : ParseM α} {f : α → ParseM β} {p q : Parser} {e : Failure}
    (h : x p = .error e q) : (x >>= f) p = .error e q := by
  simp only [bind, EStateM.bind, h]

theorem Kind.primitiveType?_eq_some_iff {kind : Kind} {type : PrimitiveType} :
    kind.primitiveType? = some type ↔ kind = .type type := by
  cases kind <;> simp [Kind.primitiveType?]

/-! ## The rules -/

section Rules

variable {p : Parser} {err : Failure → Parser → Prop}

theorem ensures_pure {a : α} {ok : α → Parser → Prop} :
    Ensures (pure a) p ok err ↔ ok a p := Iff.rfl

theorem ensures_bind {x : ParseM α} {f : α → ParseM β} {ok : β → Parser → Prop} :
    Ensures (x >>= f) p ok err ↔ Ensures x p (fun a q => Ensures (f a) q ok err) err := by
  simp only [Ensures, bind, EStateM.bind]
  cases x p <;> rfl

theorem ensures_get {ok : Parser → Parser → Prop} : Ensures get p ok err ↔ ok p p := Iff.rfl

theorem ensures_modify {f : Parser → Parser} {ok : Unit → Parser → Prop} :
    Ensures (modify f) p ok err ↔ ok () (f p) := Iff.rfl

theorem ensures_ite {c : Prop} [Decidable c] {x y : ParseM α} {ok : α → Parser → Prop} :
    Ensures (if c then x else y) p ok err ↔
      (c → Ensures x p ok err) ∧ (¬ c → Ensures y p ok err) := by
  split
  · next hc => simp [hc]
  · next hc => simp [hc]

namespace Parser

theorem ensures_reject {cause : Cause} {position : Position} {ok : α → Parser → Prop} :
    Ensures (reject cause position) p ok err ↔ err (.rejected ⟨cause, position⟩) p := Iff.rfl

theorem ensures_next {ok : Unit → Parser → Prop} :
    Ensures next p ok err ↔ ok () p.advance := Iff.rfl

theorem ensures_currentToken {ok : Token → Parser → Prop} :
    Ensures currentToken p ok err ↔ ok p.current p := Iff.rfl

theorem ensures_ahead {kind : Kind} {ok : Bool → Parser → Prop} :
    Ensures (ahead kind) p ok err ↔ ok (decide (p.lookahead.kind = kind)) p := Iff.rfl

theorem ensures_spanFrom {token : Token} {ok : Span → Parser → Prop} :
    Ensures (spanFrom token) p ok err ↔ ok ⟨token.span.start, p.current.span.stop⟩ p := Iff.rfl

theorem ensures_expect {kind : Kind} {ok : Token → Parser → Prop} :
    Ensures (expect kind) p ok err ↔
      (p.lookahead.kind = kind → ok p.lookahead p.advance) ∧
        (p.lookahead.kind ≠ kind →
          err (.rejected ⟨.unexpectedToken kind p.lookahead.kind, p.lookahead.span.start⟩) p) := by
  rw [expect, ensures_bind, ensures_get, ensures_ite]
  rfl

theorem ensures_primitiveType {ok : PrimitiveType → Parser → Prop} :
    Ensures primitiveType p ok err ↔
      (∀ type, p.lookahead.kind = .type type → ok type p.advance) ∧
        (p.lookahead.kind.primitiveType? = none →
          err (.rejected ⟨.expectedPrimitiveType p.lookahead.kind, p.lookahead.span.start⟩)
            p) := by
  rw [primitiveType, ensures_bind, ensures_get]
  split
  · next type htype =>
      rw [ensures_bind, ensures_next, ensures_pure]
      rw [Kind.primitiveType?_eq_some_iff] at htype
      simp [htype, Kind.primitiveType?]
  · next hnone =>
      rw [ensures_reject]
      have hne : ∀ type, p.lookahead.kind ≠ .type type := by
        intro type htype
        rw [htype, Kind.primitiveType?] at hnone
        cases hnone
      simp [hne, hnone]

theorem ensures_expect_of_kind {kind : Kind} (h : p.lookahead.kind = kind)
    {ok : Token → Parser → Prop} : Ensures (expect kind) p ok err ↔ ok p.lookahead p.advance := by
  simp [ensures_expect, h]

theorem ensures_primitiveType_of_kind {type : PrimitiveType} (h : p.lookahead.kind = .type type)
    {ok : PrimitiveType → Parser → Prop} :
    Ensures primitiveType p ok err ↔ ok type p.advance := by
  simp [ensures_primitiveType, h, Kind.primitiveType?]

theorem ensures_during {production : Production} {x : ParseM α} {ok : α → Parser → Prop} :
    Ensures (during production x) p ok err ↔
      Ensures x (p.note production .entered p.mark)
        (fun a q => ok a (q.note production .completed p.mark))
        (fun f q => err f (q.note production .abandoned p.mark)) := by
  unfold Ensures during
  cases x (p.note production .entered p.mark) <;> rfl

/-- Where nothing that is said about a production depends on the trail, its notes
can be passed over. -/
theorem ensures_of_during {production : Production} {x : ParseM α}
    {ok : Parser → α → Parser → Prop} {err : Parser → Failure → Parser → Prop}
    (hok : ∀ {p a q stage stage' entry entry'}, ok (p.note production stage entry) a q →
      ok p a (q.note production stage' entry'))
    (herr : ∀ {p f q stage stage' entry entry'}, err (p.note production stage entry) f q →
      err p f (q.note production stage' entry'))
    (hx : ∀ p', p' = p.note production .entered p.mark → Ensures x p' (ok p') (err p')) :
    Ensures (during production x) p (ok p) (err p) := by
  rw [ensures_during]
  exact (hx _ rfl).imp (fun _ _ h => hok h) fun _ _ h => herr h

theorem ensures_withBudget {x : Nat → ParseM α} {ok : α → Parser → Prop} :
    Ensures (withBudget x) p ok err ↔ Ensures (x p.budget) p ok err := by
  rw [withBudget, ensures_bind, ensures_get]

end Parser

end Rules

/-! ## Loops over statements -/

namespace Parser

variable {P : Parser → Prop} {R : Parser → List Stmt → Parser → Prop}

/-- Where the loop of a block goes on behind a round. A closing brace on which recovery has
stopped is not passed over. -/
def afterRound : Option Stmt → Parser → Parser
  | some _, q => q.advancePastStatement
  | none, q => if q.current.kind = .symbol .closeCurly then q else q.advancePastStatement

/-- The loop of a block, by what its rounds preserve and by what is said of its result. -/
theorem blockBody_rounds {block : ParseM Block}
    (hdone : ∀ p, P p → p.current.kind = .symbol .closeCurly ∨ p.current.kind = .eof →
      R p [] p)
    (hround : ∀ p, P p → p.current.kind ≠ .symbol .closeCurly → p.current.kind ≠ .eof →
      Ensures (stmtOrRecover block) p
        (fun s? q => P (afterRound s? q) ∧
          ∀ ss r, R (afterRound s? q) ss r → R p (s?.toList ++ ss) r)
        fun f _ => f = .outOfFuel)
    (n : Nat) {p : Parser} (h : P p) :
    Ensures (blockBody block n) p (R p) fun f _ => f = .outOfFuel := by
  induction n generalizing p with
  | zero => rfl
  | succ n ih =>
      rw [blockBody, ensures_bind, ensures_get, ensures_ite]
      refine ⟨hdone p h, fun hgoes => ?_⟩
      rw [not_or] at hgoes
      rw [ensures_bind]
      refine (hround p h hgoes.1 hgoes.2).imp (fun s? q hturned => ?_) fun _ _ hf => hf
      obtain ⟨hnext, hrest⟩ := hturned
      have hbody := (ih hnext).imp (fun ss r hr => hrest ss r hr) fun _ _ hf => hf
      cases s? with
      | some s =>
          simp only [ensures_bind, ensures_modify, ensures_pure]
          exact hbody
      | none =>
          simp only [ensures_bind, ensures_modify]
          exact hbody

/-- The loop of a program, likewise. -/
theorem statements_rounds {item : ParseM (Option Stmt)}
    (hdone : ∀ p, P p → p.current.kind = .eof → R p [] p)
    (hround : ∀ p, P p → p.current.kind ≠ .eof →
      Ensures item p
        (fun s? q => P q.advancePastStatement ∧
          ∀ ss r, R q.advancePastStatement ss r → R p (s?.toList ++ ss) r)
        fun f _ => f = .outOfFuel)
    (n : Nat) {p : Parser} (h : P p) :
    Ensures (statements item n) p (R p) fun f _ => f = .outOfFuel := by
  induction n generalizing p with
  | zero => rfl
  | succ n ih =>
      rw [statements, ensures_bind, ensures_get, ensures_ite]
      refine ⟨hdone p h, fun hgoes => ?_⟩
      simp only [ensures_bind, ensures_modify, ensures_pure]
      refine (hround p h hgoes).imp (fun s? q hturned => ?_) fun _ _ hf => hf
      exact (ih hturned.1).imp (fun ss r hr => hturned.2 ss r hr) fun _ _ hf => hf

end Parser

end Frontend
