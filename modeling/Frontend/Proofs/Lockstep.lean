import Frontend.Proofs.Outcome

/-!
# Two productions in lockstep

`Related x y p q ok err` compares two runs: `x` from the state `p` and `y` from
the state `q` both give results that `ok` relates, or are both rejected, with
diagnostics and in states that `err` relates.

The runs may have been given different fuel, since a budget depends on all of
the input. So nothing is said when one of them runs out of it; that no budget is
ever exceeded is proved elsewhere, and not twice.
-/

namespace Frontend

variable {α β γ δ : Type}

/-- A relation between two rejections. -/
abbrev Rejections := Diagnostic → Parser → Diagnostic → Parser → Prop

/-- The productions give related results or are both rejected, unless one of
them runs out of fuel. -/
def Related (x : ParseM α) (y : ParseM β) (p q : Parser)
    (ok : α → Parser → β → Parser → Prop) (err : Rejections) : Prop :=
  match x p, y q with
  | .error .outOfFuel _, _ => True
  | _, .error .outOfFuel _ => True
  | .ok a p', .ok b q' => ok a p' b q'
  | .error (.rejected d) p', .error (.rejected d') q' => err d p' d' q'
  | .ok _ _, .error (.rejected _) _ => False
  | .error (.rejected _) _, .ok _ _ => False

theorem Related.of_outOfFuel_right {x : ParseM α} {y : ParseM β} {p q q' : Parser}
    {ok : α → Parser → β → Parser → Prop} {err : Rejections}
    (hy : y q = .error .outOfFuel q') : Related x y p q ok err := by
  rw [Related, hy]
  cases x p with
  | ok a p' => trivial
  | error e p' => cases e <;> trivial

theorem Related.of_ok {x : ParseM α} {y : ParseM β} {p q p' q' : Parser} {a : α} {b : β}
    {ok : α → Parser → β → Parser → Prop} {err : Rejections}
    (h : Related x y p q ok err) (hx : x p = .ok a p') (hy : y q = .ok b q') : ok a p' b q' := by
  rw [Related, hx, hy] at h
  exact h

/-- A result of the second production is one of the first, if the first one has the
fuel for it. -/
theorem Related.exists_ok {x : ParseM α} {y : ParseM β} {p q q' : Parser} {b : β}
    {ok : α → Parser → β → Parser → Prop} {err : Rejections} (h : Related x y p q ok err)
    (hx : ∀ p', x p ≠ .error .outOfFuel p') (hy : y q = .ok b q') :
    ∃ a p', x p = .ok a p' ∧ ok a p' b q' := by
  rw [Related, hy] at h
  cases hrun : x p with
  | ok a p' =>
      rw [hrun] at h
      exact ⟨a, p', rfl, h⟩
  | error e p' =>
      rw [hrun] at h
      cases e with
      | outOfFuel => exact absurd hrun (hx p')
      | rejected d => exact h.elim

/-- The second result is one that the second production gives. -/
theorem Related.and_run {x : ParseM α} {y : ParseM β} {p q : Parser}
    {ok : α → Parser → β → Parser → Prop} {err : Rejections} (h : Related x y p q ok err) :
    Related x y p q (fun a p' b q' => y q = .ok b q' ∧ ok a p' b q') err := by
  unfold Related at h ⊢
  split
  · trivial
  · trivial
  · next hx hy => rw [hx, hy] at h; exact ⟨hy, h⟩
  · next hx hy => rw [hx, hy] at h; exact h
  · next hx hy => rw [hx, hy] at h; exact h
  · next hx hy => rw [hx, hy] at h; exact h

theorem Related.imp {x : ParseM α} {y : ParseM β} {p q : Parser}
    {ok ok' : α → Parser → β → Parser → Prop} {err err' : Rejections}
    (h : Related x y p q ok err) (hok : ∀ a p' b q', ok a p' b q' → ok' a p' b q')
    (herr : ∀ d p' d' q', err d p' d' q' → err' d p' d' q') : Related x y p q ok' err' := by
  unfold Related at h ⊢
  split
  · trivial
  · trivial
  · next hx hy => rw [hx, hy] at h; exact hok _ _ _ _ h
  · next hx hy => rw [hx, hy] at h; exact herr _ _ _ _ h
  · next hx hy => rw [hx, hy] at h; exact h
  · next hx hy => rw [hx, hy] at h; exact h

section Rules

variable {p q : Parser} {err : Rejections}

theorem related_bind {x : ParseM α} {y : ParseM β} {f : α → ParseM γ} {g : β → ParseM δ}
    {ok : γ → Parser → δ → Parser → Prop}
    (h : Related x y p q (fun a p' b q' => Related (f a) (g b) p' q' ok err) err) :
    Related (x >>= f) (y >>= g) p q ok err := by
  cases hx : x p with
  | ok a p' =>
      rw [Related, bind_of_ok hx]
      rw [Related, hx] at h
      cases hy : y q with
      | ok b q' =>
          rw [bind_of_ok hy]
          rw [hy] at h
          exact h
      | error e q' =>
          rw [hy] at h
          cases e with
          | outOfFuel => exact Related.of_outOfFuel_right (bind_of_error hy)
          | rejected d => exact h.elim
  | error e p' =>
      rw [Related, bind_of_error hx]
      rw [Related, hx] at h
      cases e with
      | outOfFuel => trivial
      | rejected d =>
          cases hy : y q with
          | ok b q' => rw [hy] at h; exact h.elim
          | error e q' =>
              rw [bind_of_error hy]
              rw [hy] at h
              cases e <;> exact h

theorem related_get_bind {f : Parser → ParseM α} {g : Parser → ParseM β}
    {ok : α → Parser → β → Parser → Prop} :
    Related (get >>= f) (get >>= g) p q ok err ↔ Related (f p) (g q) p q ok err := Iff.rfl

theorem related_modify_bind {s t : Parser → Parser} {f : Unit → ParseM α} {g : Unit → ParseM β}
    {ok : α → Parser → β → Parser → Prop} :
    Related (modify s >>= f) (modify t >>= g) p q ok err ↔
      Related (f ()) (g ()) (s p) (t q) ok err := Iff.rfl

theorem related_ite {c c' : Prop} [Decidable c] [Decidable c'] {x y : ParseM α}
    {x' y' : ParseM β} {ok : α → Parser → β → Parser → Prop} (hc : c' ↔ c)
    (hx : c → Related x x' p q ok err) (hy : ¬ c → Related y y' p q ok err) :
    Related (if c then x else y) (if c' then x' else y') p q ok err := by
  by_cases h : c
  · rw [if_pos h, if_pos (hc.mpr h)]
    exact hx h
  · rw [if_neg h, if_neg (mt hc.mp h)]
    exact hy h

namespace Parser

theorem related_exhaust_left {y : ParseM β} {ok : α → Parser → β → Parser → Prop} :
    Related exhaust y p q ok err := by
  rw [Related, show (exhaust : ParseM α) p = .error .outOfFuel p from rfl]
  trivial

theorem related_exhaust_right {x : ParseM α} {ok : α → Parser → β → Parser → Prop} :
    Related x exhaust p q ok err :=
  .of_outOfFuel_right rfl

theorem related_next_bind {f : Unit → ParseM α} {g : Unit → ParseM β}
    {ok : α → Parser → β → Parser → Prop} :
    Related (next >>= f) (next >>= g) p q ok err ↔
      Related (f ()) (g ()) p.advance q.advance ok err := Iff.rfl

theorem related_currentToken_bind {f : Token → ParseM α} {g : Token → ParseM β}
    {ok : α → Parser → β → Parser → Prop} :
    Related (currentToken >>= f) (currentToken >>= g) p q ok err ↔
      Related (f p.current) (g q.current) p q ok err := Iff.rfl

theorem related_ahead_bind {kind : Kind} {f : Bool → ParseM α} {g : Bool → ParseM β}
    {ok : α → Parser → β → Parser → Prop} :
    Related (ahead kind >>= f) (ahead kind >>= g) p q ok err ↔
      Related (f (decide (p.lookahead.kind = kind))) (g (decide (q.lookahead.kind = kind))) p q
        ok err := Iff.rfl

theorem related_spanFrom_bind {t u : Token} {f : Span → ParseM α} {g : Span → ParseM β}
    {ok : α → Parser → β → Parser → Prop} :
    Related (spanFrom t >>= f) (spanFrom u >>= g) p q ok err ↔
      Related (f ⟨t.span.start, p.current.span.stop⟩) (g ⟨u.span.start, q.current.span.stop⟩) p q
        ok err := Iff.rfl

theorem related_during {production : Production} {x : ParseM α} {y : ParseM β}
    {ok : α → Parser → β → Parser → Prop}
    (h : Related x y (p.note production .entered p.mark) (q.note production .entered q.mark)
      (fun a p' b q' => ok a (p'.note production .completed p.mark) b
        (q'.note production .completed q.mark))
      (fun d p' d' q' => err d (p'.note production .abandoned p.mark) d'
        (q'.note production .abandoned q.mark))) :
    Related (during production x) (during production y) p q ok err := by
  unfold Related at h ⊢
  unfold during
  cases hx : x (p.note production .entered p.mark) with
  | ok a p' =>
      cases hy : y (q.note production .entered q.mark) with
      | ok b q' => rw [hx, hy] at h; exact h
      | error e q' => rw [hx, hy] at h; cases e <;> exact h
  | error e p' =>
      cases e with
      | outOfFuel => trivial
      | rejected d =>
          cases hy : y (q.note production .entered q.mark) with
          | ok b q' => rw [hx, hy] at h; exact h
          | error e q' => rw [hx, hy] at h; cases e <;> exact h

theorem related_withBudget {x : Nat → ParseM α} {y : Nat → ParseM β}
    {ok : α → Parser → β → Parser → Prop} :
    Related (withBudget x) (withBudget y) p q ok err ↔
      Related (x p.budget) (y q.budget) p q ok err := Iff.rfl

end Parser

end Rules

end Frontend
