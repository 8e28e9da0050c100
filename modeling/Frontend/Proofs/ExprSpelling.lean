import Frontend.Proofs.Precedence
import Mathlib.Data.List.Forall2

/-!
# The tokens of an expression

A tree does not keep every token that it was read from: closing delimiters and
commas are implied by its form. `Expr.flatten` puts them back. It gives the slots
of the tokens in the order of the text, each with the token itself where the tree
keeps it and with its kind where it does not.

`Expr.Spells e ts` says more: `e` is the tree over just these tokens, each node
with the span from its first token to its last. It is the grammar of expressions
without the conditions on powers and kinds that `Expr.Fits` adds.
-/

namespace Frontend

/-- The place of a token in the text of a tree. -/
inductive Slot where
  /-- The tree keeps the token. -/
  | kept (token : Token)
  /-- The form of the tree implies a token of this kind. -/
  | fixed (kind : Kind)
deriving DecidableEq

namespace Slot

/-- The token can stand in this place. -/
def Matches : Slot → Token → Prop
  | kept token, t => t = token
  | fixed kind, t => t.kind = kind

instance (slot : Slot) (t : Token) : Decidable (slot.Matches t) :=
  match slot with
  | kept token => inferInstanceAs (Decidable (t = token))
  | fixed kind => inferInstanceAs (Decidable (t.kind = kind))

/-- The same for a token that is the one kept by the tree as far as a relabelling
lets them be told apart. -/
def MatchesUnder (r : Relabelling) : Slot → Token → Prop
  | kept token, t => r.token t = r.token token
  | fixed kind, t => t.kind = kind

/-- The kind of the token that can stand in this place. -/
def kind : Slot → Kind
  | kept token => token.kind
  | fixed kind => kind

/-- The slot of the relabelled token. -/
def relabel (r : Relabelling) : Slot → Slot
  | kept token => kept (r.token token)
  | fixed kind => fixed kind

theorem Matches.kind_eq {slot : Slot} {t : Token} (h : slot.Matches t) : t.kind = slot.kind := by
  cases slot with
  | kept token => rw [show t = token from h]; rfl
  | fixed kind => exact h

/-- What holds of the kinds of the slots holds of those of the tokens. -/
theorem forall_kind_of_matches (P : Kind → Prop) {slots : List Slot} {ts : List Token}
    (h : List.Forall₂ Slot.Matches slots ts) (hs : ∀ slot ∈ slots, P slot.kind) :
    ∀ t ∈ ts, P t.kind := by
  induction h with
  | nil => exact List.forall_mem_nil _
  | cons hm _ ih =>
      rw [List.forall_mem_cons] at hs ⊢
      exact ⟨hm.kind_eq ▸ hs.1, ih hs.2⟩

theorem matchesUnder_blank : MatchesUnder .blank = Matches := by
  funext slot t
  cases slot <;> rfl

section Split

variable {R : Slot → Token → Prop} {ts : List Token}

/-- Tokens that fill slots one after the other come in two parts as the slots
do. -/
theorem exists_of_matches_append {a b : List Slot} (h : List.Forall₂ R (a ++ b) ts) :
    ∃ us vs, ts = us ++ vs ∧ List.Forall₂ R a us ∧ List.Forall₂ R b vs := by
  induction a generalizing ts with
  | nil => exact ⟨[], ts, rfl, .nil, h⟩
  | cons slot a ih =>
      obtain ⟨t, rest, hm, hrest, rfl⟩ := List.forall₂_cons_left_iff.mp h
      obtain ⟨us, vs, rfl, hus, hvs⟩ := ih hrest
      exact ⟨t :: us, vs, rfl, .cons hm hus, hvs⟩

theorem exists_of_matches_singleton {slot : Slot} (h : List.Forall₂ R [slot] ts) :
    ∃ t, ts = [t] ∧ R slot t := by
  obtain ⟨t, rest, hm, hrest, rfl⟩ := List.forall₂_cons_left_iff.mp h
  cases hrest
  exact ⟨t, rfl, hm⟩

end Split

end Slot

namespace Expr

mutual

/-- The slots of the tokens of an expression, in the order of the text. -/
def flatten : Expr → List Slot
  | identifier token => [.kept token]
  | number token _ => [.kept token]
  | boolean token => [.kept token]
  | prefixed operator operand _ => .kept operator :: operand.flatten
  | postfixed operand operator _ => operand.flatten ++ [.kept operator]
  | binary left operator right _ => left.flatten ++ .kept operator :: right.flatten
  | assignment target operator value _ => target.flatten ++ .kept operator :: value.flatten
  | grouping token inner _ => .kept token :: (inner.flatten ++ [.fixed (.symbol .closeParen)])
  | call token callee arguments _ =>
      callee.flatten ++ .kept token ::
        (flattenArguments arguments ++ [.fixed (.symbol .closeParen)])
  | index token target place _ =>
      target.flatten ++ .kept token :: (place.flatten ++ [.fixed (.symbol .closeBracket)])
  | member token target name _ => target.flatten ++ [.kept token, .kept name]

/-- The slots of the arguments of a call, with commas between them. -/
def flattenArguments : List Expr → List Slot
  | [] => []
  | e :: es => e.flatten ++ flattenMore es

/-- The slots of further arguments, each with the comma in front of it. -/
def flattenMore : List Expr → List Slot
  | [] => []
  | e :: es => .fixed (.symbol .comma) :: (e.flatten ++ flattenMore es)

end

mutual

/-- The expression is the tree over these tokens, with the spans that they give
it. -/
inductive Spells : Expr → List Token → Prop
  | identifier (t : Token) : Spells (.identifier t) [t]
  | number (t : Token) (value : Literal) : Spells (.number t value) [t]
  | boolean (t : Token) : Spells (.boolean t) [t]
  | prefixed {operator : Token} {e : Expr} {ts : List Token} (h : Spells e ts) :
      Spells (.prefixed operator e ⟨operator.span.start, e.span.stop⟩) (operator :: ts)
  | postfixed {e : Expr} {operator : Token} {ts : List Token} (h : Spells e ts) :
      Spells (.postfixed e operator ⟨e.span.start, operator.span.stop⟩) (ts ++ [operator])
  | binary {left right : Expr} {operator : Token} {ts us : List Token} (hl : Spells left ts)
      (hr : Spells right us) :
      Spells (.binary left operator right ⟨left.span.start, right.span.stop⟩)
        (ts ++ operator :: us)
  | assignment {target value : Expr} {operator : Token} {ts us : List Token}
      (ht : Spells target ts) (hv : Spells value us) :
      Spells (.assignment target operator value ⟨target.span.start, value.span.stop⟩)
        (ts ++ operator :: us)
  | grouping {opening closing : Token} {e : Expr} {ts : List Token} (h : Spells e ts)
      (hc : closing.kind = .symbol .closeParen) :
      Spells (.grouping opening e ⟨opening.span.start, closing.span.stop⟩)
        (opening :: (ts ++ [closing]))
  | call {opening closing : Token} {callee : Expr} {arguments : List Expr} {ts us : List Token}
      (h : Spells callee ts) (ha : SpellsArguments arguments us)
      (hc : closing.kind = .symbol .closeParen) :
      Spells (.call opening callee arguments ⟨callee.span.start, closing.span.stop⟩)
        (ts ++ opening :: (us ++ [closing]))
  | index {opening closing : Token} {target place : Expr} {ts us : List Token}
      (h : Spells target ts) (hp : Spells place us)
      (hc : closing.kind = .symbol .closeBracket) :
      Spells (.index opening target place ⟨target.span.start, closing.span.stop⟩)
        (ts ++ opening :: (us ++ [closing]))
  | member {dot name : Token} {target : Expr} {ts : List Token} (h : Spells target ts) :
      Spells (.member dot target name ⟨target.span.start, name.span.stop⟩) (ts ++ [dot, name])

/-- The expressions are the trees over these tokens, which are those of a list of
arguments. -/
inductive SpellsArguments : List Expr → List Token → Prop
  | none : SpellsArguments [] []
  | some {e : Expr} {es : List Expr} {ts us : List Token} (h : Spells e ts)
      (hs : SpellsMore es us) : SpellsArguments (e :: es) (ts ++ us)

/-- The same for further arguments, each with the comma in front of it. -/
inductive SpellsMore : List Expr → List Token → Prop
  | nil : SpellsMore [] []
  | cons {comma : Token} {e : Expr} {es : List Expr} {ts us : List Token}
      (hc : comma.kind = .symbol .comma) (h : Spells e ts) (hs : SpellsMore es us) :
      SpellsMore (e :: es) (comma :: (ts ++ us))

end

/-- An expression starts where its first token does. -/
theorem Spells.start_eq {e : Expr} {ts : List Token} (h : Spells e ts) :
    ∃ t us, ts = t :: us ∧ e.span.start = t.span.start := by
  match h with
  | .identifier _ | .number _ _ | .boolean _ | .prefixed _ | .grouping _ _ =>
      exact ⟨_, _, rfl, rfl⟩
  | .postfixed h | .binary h _ | .assignment h _ | .call h _ _ | .index h _ _ | .member h =>
      obtain ⟨t, us, rfl, hs⟩ := h.start_eq
      exact ⟨t, _, rfl, hs⟩

/-- An expression stops where its last token does. -/
theorem Spells.stop_eq {e : Expr} {ts : List Token} (h : Spells e ts) :
    ∃ us t, ts = us ++ [t] ∧ e.span.stop = t.span.stop := by
  match h with
  | .identifier t | .number t _ | .boolean t => exact ⟨[], t, rfl, rfl⟩
  | .postfixed _ => exact ⟨_, _, rfl, rfl⟩
  | .grouping _ _ => exact ⟨_ :: _, _, rfl, rfl⟩
  | .call _ _ _ | .index _ _ _ => exact ⟨_, _, (List.append_assoc _ (_ :: _) _).symm, rfl⟩
  | .member _ => exact ⟨_, _, (List.append_assoc _ [_] [_]).symm, rfl⟩
  | .prefixed h =>
      obtain ⟨us, t, rfl, hs⟩ := h.stop_eq
      exact ⟨_ :: us, t, rfl, hs⟩
  | .binary _ h | .assignment _ h =>
      obtain ⟨us, t, rfl, hs⟩ := h.stop_eq
      exact ⟨_, t, (List.append_assoc _ (_ :: us) [t]).symm, hs⟩

theorem Spells.ne_nil {e : Expr} {ts : List Token} (h : Spells e ts) : ts ≠ [] := by
  obtain ⟨t, us, rfl, -⟩ := h.start_eq
  exact List.cons_ne_nil t us

mutual

/-- The tokens of a tree fill its slots. -/
theorem Spells.fills {e : Expr} {ts : List Token} (h : Spells e ts) :
    List.Forall₂ Slot.Matches e.flatten ts := by
  match h with
  | .identifier _ | .number _ _ | .boolean _ => exact .cons rfl .nil
  | .prefixed h => exact .cons rfl h.fills
  | .postfixed h => exact List.rel_append h.fills (.cons rfl .nil)
  | .binary hl hr => exact List.rel_append hl.fills (.cons rfl hr.fills)
  | .assignment ht hv => exact List.rel_append ht.fills (.cons rfl hv.fills)
  | .grouping h hc => exact .cons rfl (List.rel_append h.fills (.cons hc .nil))
  | .call h ha hc =>
      exact List.rel_append h.fills (.cons rfl (List.rel_append ha.fills (.cons hc .nil)))
  | .index h hp hc =>
      exact List.rel_append h.fills (.cons rfl (List.rel_append hp.fills (.cons hc .nil)))
  | .member h => exact List.rel_append h.fills (.cons rfl (.cons rfl .nil))

theorem SpellsArguments.fills {es : List Expr} {ts : List Token}
    (h : SpellsArguments es ts) : List.Forall₂ Slot.Matches (flattenArguments es) ts := by
  match h with
  | .none => exact .nil
  | .some h hs => exact List.rel_append h.fills hs.fills

theorem SpellsMore.fills {es : List Expr} {ts : List Token} (h : SpellsMore es ts) :
    List.Forall₂ Slot.Matches (flattenMore es) ts := by
  match h with
  | .nil => exact .nil
  | .cons hc h hs => exact .cons hc (List.rel_append h.fills hs.fills)

end

section Placed

variable {start stop : Position → Position}

mutual

/-- A tree over tokens that have been moved is a tree that has been moved. -/
theorem Spells.exists_of_map {e : Expr} {us ts : List Token} (h : Spells e us)
    (hus : ts.map (Relabelling.placed start stop).token = us) :
    ∃ e' : Expr, e'.relabel (.placed start stop) = e ∧ Spells e' ts := by
  match h with
  | .identifier _ =>
      obtain ⟨t, rfl, rfl⟩ := List.map_eq_singleton_iff.mp hus
      exact ⟨_, rfl, .identifier t⟩
  | .number _ value =>
      obtain ⟨t, rfl, rfl⟩ := List.map_eq_singleton_iff.mp hus
      exact ⟨_, rfl, .number t value⟩
  | .boolean _ =>
      obtain ⟨t, rfl, rfl⟩ := List.map_eq_singleton_iff.mp hus
      exact ⟨_, rfl, .boolean t⟩
  | .prefixed h =>
      obtain ⟨t, ts, rfl, rfl, hts⟩ := List.map_eq_cons_iff.mp hus
      obtain ⟨e, rfl, he⟩ := h.exists_of_map hts
      refine ⟨_, ?_, .prefixed he⟩
      rw [relabel, span_relabel_placed]
      rfl
  | .postfixed h =>
      obtain ⟨ts, us, rfl, hts, hus⟩ := List.map_eq_append_iff.mp hus
      obtain ⟨t, rfl, rfl⟩ := List.map_eq_singleton_iff.mp hus
      obtain ⟨e, rfl, he⟩ := h.exists_of_map hts
      refine ⟨_, ?_, .postfixed he⟩
      rw [relabel, span_relabel_placed]
      rfl
  | .binary hl hr =>
      obtain ⟨ts, us, rfl, hts, hus⟩ := List.map_eq_append_iff.mp hus
      obtain ⟨t, vs, rfl, rfl, hvs⟩ := List.map_eq_cons_iff.mp hus
      obtain ⟨left, rfl, hleft⟩ := hl.exists_of_map hts
      obtain ⟨right, rfl, hright⟩ := hr.exists_of_map hvs
      refine ⟨_, ?_, .binary hleft hright⟩
      rw [relabel, span_relabel_placed, span_relabel_placed]
      rfl
  | .assignment ht hv =>
      obtain ⟨ts, us, rfl, hts, hus⟩ := List.map_eq_append_iff.mp hus
      obtain ⟨t, vs, rfl, rfl, hvs⟩ := List.map_eq_cons_iff.mp hus
      obtain ⟨target, rfl, htarget⟩ := ht.exists_of_map hts
      obtain ⟨value, rfl, hvalue⟩ := hv.exists_of_map hvs
      refine ⟨_, ?_, .assignment htarget hvalue⟩
      rw [relabel, span_relabel_placed, span_relabel_placed]
      rfl
  | .grouping h hc =>
      obtain ⟨t, vs, rfl, rfl, hvs⟩ := List.map_eq_cons_iff.mp hus
      obtain ⟨ts, us, rfl, hts, hus⟩ := List.map_eq_append_iff.mp hvs
      obtain ⟨closing, rfl, rfl⟩ := List.map_eq_singleton_iff.mp hus
      obtain ⟨e, rfl, he⟩ := h.exists_of_map hts
      exact ⟨_, rfl, .grouping he hc⟩
  | .call h ha hc =>
      obtain ⟨ts, us, rfl, hts, hus⟩ := List.map_eq_append_iff.mp hus
      obtain ⟨t, vs, rfl, rfl, hvs⟩ := List.map_eq_cons_iff.mp hus
      obtain ⟨xs, ws, rfl, hxs, hws⟩ := List.map_eq_append_iff.mp hvs
      obtain ⟨closing, rfl, rfl⟩ := List.map_eq_singleton_iff.mp hws
      obtain ⟨callee, rfl, hcallee⟩ := h.exists_of_map hts
      obtain ⟨arguments, rfl, harguments⟩ := ha.exists_of_map hxs
      refine ⟨_, ?_, .call hcallee harguments hc⟩
      rw [relabel, span_relabel_placed]
      rfl
  | .index h hp hc =>
      obtain ⟨ts, us, rfl, hts, hus⟩ := List.map_eq_append_iff.mp hus
      obtain ⟨t, vs, rfl, rfl, hvs⟩ := List.map_eq_cons_iff.mp hus
      obtain ⟨xs, ws, rfl, hxs, hws⟩ := List.map_eq_append_iff.mp hvs
      obtain ⟨closing, rfl, rfl⟩ := List.map_eq_singleton_iff.mp hws
      obtain ⟨target, rfl, htarget⟩ := h.exists_of_map hts
      obtain ⟨place, rfl, hplace⟩ := hp.exists_of_map hxs
      refine ⟨_, ?_, .index htarget hplace hc⟩
      rw [relabel, span_relabel_placed]
      rfl
  | .member h =>
      obtain ⟨ts, us, rfl, hts, hus⟩ := List.map_eq_append_iff.mp hus
      obtain ⟨dot, vs, rfl, rfl, hvs⟩ := List.map_eq_cons_iff.mp hus
      obtain ⟨name, rfl, rfl⟩ := List.map_eq_singleton_iff.mp hvs
      obtain ⟨target, rfl, htarget⟩ := h.exists_of_map hts
      refine ⟨_, ?_, .member htarget⟩
      rw [relabel, span_relabel_placed]
      rfl

theorem SpellsArguments.exists_of_map {es : List Expr} {us ts : List Token}
    (h : SpellsArguments es us) (hus : ts.map (Relabelling.placed start stop).token = us) :
    ∃ es', relabelAll (.placed start stop) es' = es ∧ SpellsArguments es' ts := by
  match h with
  | .none =>
      obtain rfl := List.map_eq_nil_iff.mp hus
      exact ⟨[], rfl, .none⟩
  | .some h hs =>
      obtain ⟨ts, us, rfl, hts, hus⟩ := List.map_eq_append_iff.mp hus
      obtain ⟨e, rfl, he⟩ := h.exists_of_map hts
      obtain ⟨es, rfl, hes⟩ := hs.exists_of_map hus
      exact ⟨e :: es, rfl, .some he hes⟩

theorem SpellsMore.exists_of_map {es : List Expr} {us ts : List Token}
    (h : SpellsMore es us) (hus : ts.map (Relabelling.placed start stop).token = us) :
    ∃ es', relabelAll (.placed start stop) es' = es ∧ SpellsMore es' ts := by
  match h with
  | .nil =>
      obtain rfl := List.map_eq_nil_iff.mp hus
      exact ⟨[], rfl, .nil⟩
  | .cons hc h hs =>
      obtain ⟨comma, vs, rfl, rfl, hvs⟩ := List.map_eq_cons_iff.mp hus
      obtain ⟨ts, us, rfl, hts, hus⟩ := List.map_eq_append_iff.mp hvs
      obtain ⟨e, rfl, he⟩ := h.exists_of_map hts
      obtain ⟨es, rfl, hes⟩ := hs.exists_of_map hus
      exact ⟨e :: es, rfl, .cons hc he hes⟩

end

end Placed

theorem flatten_relabel (r : Relabelling) (e : Expr) :
    (e.relabel r).flatten = e.flatten.map (Slot.relabel r) := by
  induction e using Expr.induct with
  | call t callee arguments span ihc iha =>
      have hmore : ∀ es : List Expr,
          (∀ e ∈ es, (e.relabel r).flatten = e.flatten.map (Slot.relabel r)) →
          flattenMore (relabelAll r es) = (flattenMore es).map (Slot.relabel r) := by
        intro es hes
        induction es with
        | nil => rfl
        | cons e es ih =>
            rw [List.forall_mem_cons] at hes
            simp [relabelAll, flattenMore, hes.1, ih hes.2, Slot.relabel]
      have harguments : flattenArguments (relabelAll r arguments) =
          (flattenArguments arguments).map (Slot.relabel r) := by
        cases arguments with
        | nil => rfl
        | cons e es =>
            rw [List.forall_mem_cons] at iha
            simp [relabelAll, flattenArguments, iha.1, hmore es iha.2]
      simp [relabel, flatten, ihc, harguments, Slot.relabel]
  | _ => simp_all [relabel, flatten, Slot.relabel]

/-- Blanking the spans of the nodes does not touch the tokens. -/
theorem flatten_bare (e : Expr) : e.bare.flatten = e.flatten := by
  have h : Slot.relabel .blank = id := by
    funext slot
    cases slot <;> rfl
  rw [bare, flatten_relabel, h, List.map_id]

/-- Tokens that fill the slots of arguments make arguments. -/
theorem exists_spellsMore_of_matchesUnder {r : Relabelling} {es : List Expr} {ts : List Token}
    (ih : ∀ e ∈ es, ∀ {ts : List Token}, List.Forall₂ (Slot.MatchesUnder r) e.flatten ts →
      ∃ e' : Expr, e'.relabel r = e.relabel r ∧ e'.Spells ts)
    (h : List.Forall₂ (Slot.MatchesUnder r) (flattenMore es) ts) :
    ∃ es', relabelAll r es' = relabelAll r es ∧ SpellsMore es' ts := by
  induction es generalizing ts with
  | nil =>
      cases h
      exact ⟨[], rfl, .nil⟩
  | cons e es ihes =>
      rw [List.forall_mem_cons] at ih
      obtain ⟨comma, rest, hc, hrest, rfl⟩ := List.forall₂_cons_left_iff.mp h
      obtain ⟨us, vs, rfl, hus, hvs⟩ := Slot.exists_of_matches_append hrest
      obtain ⟨e', he, hspells⟩ := ih.1 hus
      obtain ⟨es', hes, hmore⟩ := ihes ih.2 hvs
      exact ⟨e' :: es', congrArg₂ List.cons he hes, .cons hc hspells hmore⟩

/-- Tokens that fill the slots of an expression make an expression of its form. -/
theorem exists_spells_of_matchesUnder {r : Relabelling}
    (hr : ∀ span span', r.span span = r.span span') (e : Expr) {ts : List Token}
    (h : List.Forall₂ (Slot.MatchesUnder r) e.flatten ts) :
    ∃ e' : Expr, e'.relabel r = e.relabel r ∧ e'.Spells ts := by
  induction e using Expr.induct generalizing ts with
  | identifier t =>
      obtain ⟨u, rfl, hu⟩ := Slot.exists_of_matches_singleton h
      refine ⟨_, ?_, .identifier u⟩
      rw [relabel, relabel, show r.token u = _ from hu]
  | number t value =>
      obtain ⟨u, rfl, hu⟩ := Slot.exists_of_matches_singleton h
      refine ⟨_, ?_, .number u value⟩
      rw [relabel, relabel, show r.token u = _ from hu]
  | boolean t =>
      obtain ⟨u, rfl, hu⟩ := Slot.exists_of_matches_singleton h
      refine ⟨_, ?_, .boolean u⟩
      rw [relabel, relabel, show r.token u = _ from hu]
  | prefixed operator operand span ih =>
      obtain ⟨u, us, hu, hus, rfl⟩ := List.forall₂_cons_left_iff.mp h
      obtain ⟨e', he, hspells⟩ := ih hus
      refine ⟨_, ?_, .prefixed hspells⟩
      rw [relabel, relabel, show r.token u = _ from hu, he, hr]
  | postfixed operand operator span ih =>
      obtain ⟨us, vs, rfl, hus, hvs⟩ := Slot.exists_of_matches_append h
      obtain ⟨v, rfl, hv⟩ := Slot.exists_of_matches_singleton hvs
      obtain ⟨e', he, hspells⟩ := ih hus
      refine ⟨_, ?_, .postfixed hspells⟩
      rw [relabel, relabel, show r.token v = _ from hv, he, hr]
  | binary left operator right span ihl ihr =>
      obtain ⟨us, vs, rfl, hus, hvs⟩ := Slot.exists_of_matches_append h
      obtain ⟨v, ws, hv, hws, rfl⟩ := List.forall₂_cons_left_iff.mp hvs
      obtain ⟨e, he, hspells⟩ := ihl hus
      obtain ⟨e', he', hspells'⟩ := ihr hws
      refine ⟨_, ?_, .binary hspells hspells'⟩
      rw [relabel, relabel, show r.token v = _ from hv, he, he', hr]
  | assignment target operator value span iht ihv =>
      obtain ⟨us, vs, rfl, hus, hvs⟩ := Slot.exists_of_matches_append h
      obtain ⟨v, ws, hv, hws, rfl⟩ := List.forall₂_cons_left_iff.mp hvs
      obtain ⟨e, he, hspells⟩ := iht hus
      obtain ⟨e', he', hspells'⟩ := ihv hws
      refine ⟨_, ?_, .assignment hspells hspells'⟩
      rw [relabel, relabel, show r.token v = _ from hv, he, he', hr]
  | grouping t inner span ih =>
      obtain ⟨u, us, hu, hus, rfl⟩ := List.forall₂_cons_left_iff.mp h
      obtain ⟨vs, ws, rfl, hvs, hws⟩ := Slot.exists_of_matches_append hus
      obtain ⟨closing, rfl, hc⟩ := Slot.exists_of_matches_singleton hws
      obtain ⟨e', he, hspells⟩ := ih hvs
      refine ⟨_, ?_, .grouping hspells hc⟩
      rw [relabel, relabel, show r.token u = _ from hu, he, hr]
  | call t callee arguments span ihc iha =>
      obtain ⟨us, vs, rfl, hus, hvs⟩ := Slot.exists_of_matches_append h
      obtain ⟨v, ws, hv, hws, rfl⟩ := List.forall₂_cons_left_iff.mp hvs
      obtain ⟨xs, ys, rfl, hxs, hys⟩ := Slot.exists_of_matches_append hws
      obtain ⟨closing, rfl, hc⟩ := Slot.exists_of_matches_singleton hys
      obtain ⟨e, he, hspells⟩ := ihc hus
      have harguments : ∃ es', relabelAll r es' = relabelAll r arguments ∧
          SpellsArguments es' xs := by
        cases arguments with
        | nil =>
            cases hxs
            exact ⟨[], rfl, .none⟩
        | cons e es =>
            rw [List.forall_mem_cons] at iha
            obtain ⟨as, bs, rfl, has, hbs⟩ := Slot.exists_of_matches_append hxs
            obtain ⟨e', he', hfirst⟩ := iha.1 has
            obtain ⟨es', hes, hmore⟩ := exists_spellsMore_of_matchesUnder iha.2 hbs
            exact ⟨e' :: es', congrArg₂ List.cons he' hes, .some hfirst hmore⟩
      obtain ⟨es', hes, harguments⟩ := harguments
      refine ⟨_, ?_, .call hspells harguments hc⟩
      rw [relabel, relabel, show r.token v = _ from hv, he, hes, hr]
  | index t target place span iht ihp =>
      obtain ⟨us, vs, rfl, hus, hvs⟩ := Slot.exists_of_matches_append h
      obtain ⟨v, ws, hv, hws, rfl⟩ := List.forall₂_cons_left_iff.mp hvs
      obtain ⟨xs, ys, rfl, hxs, hys⟩ := Slot.exists_of_matches_append hws
      obtain ⟨closing, rfl, hc⟩ := Slot.exists_of_matches_singleton hys
      obtain ⟨e, he, hspells⟩ := iht hus
      obtain ⟨e', he', hspells'⟩ := ihp hxs
      refine ⟨_, ?_, .index hspells hspells' hc⟩
      rw [relabel, relabel, show r.token v = _ from hv, he, he', hr]
  | member t target name span ih =>
      obtain ⟨us, vs, rfl, hus, hvs⟩ := Slot.exists_of_matches_append h
      obtain ⟨v, ws, hv, hws, rfl⟩ := List.forall₂_cons_left_iff.mp hvs
      obtain ⟨w, rfl, hw⟩ := Slot.exists_of_matches_singleton hws
      obtain ⟨e', he, hspells⟩ := ih hus
      refine ⟨_, ?_, .member hspells⟩
      rw [relabel, relabel, show r.token v = _ from hv, show r.token w = _ from hw, he, hr]

theorem exists_spells_of_matches (e : Expr) {ts : List Token}
    (h : List.Forall₂ Slot.Matches e.flatten ts) :
    ∃ e' : Expr, e'.bare = e.bare ∧ e'.Spells ts :=
  exists_spells_of_matchesUnder (fun _ _ => rfl) e (Slot.matchesUnder_blank ▸ h)

end Expr

/-! ## The kinds of the tokens of an expression -/

/-- Whether a token of this kind can be part of an expression. -/
def Kind.inExpression (kind : Kind) : Bool :=
  kind.prefixRule?.isSome || kind.infixRule?.isSome || kind = .symbol .closeParen ||
    kind = .symbol .closeBracket || kind = .symbol .comma

theorem Kind.ne_eof_of_inExpression {kind : Kind} (h : kind.inExpression) : kind ≠ .eof := by
  rintro rfl
  cases h

theorem Kind.inExpression_of_prefixRule? {kind : Kind} {rule : PrefixRule}
    (h : kind.prefixRule? = some rule) : kind.inExpression := by
  simp [inExpression, h]

theorem Kind.inExpression_of_infixRule? {kind : Kind} {rule : Power × InfixRule}
    (h : kind.infixRule? = some rule) : kind.inExpression := by
  simp [inExpression, h]

theorem Expr.inExpression_of_mem_flatten {e : Expr} (he : e.WellFormed) :
    ∀ slot ∈ e.flatten, slot.kind.inExpression := by
  have hof : ∀ {t : Token} {kind : Kind}, t.kind = kind → kind.inExpression →
      (Slot.kept t).kind.inExpression := by
    intro t kind ht hkind
    rwa [Slot.kind, ht]
  induction e using Expr.induct with
  | identifier t => exact List.forall_mem_singleton.mpr (hof he rfl)
  | number t value => exact List.forall_mem_singleton.mpr (hof he.1 rfl)
  | boolean t =>
      rcases he with he | he
      · exact List.forall_mem_singleton.mpr (hof he rfl)
      · exact List.forall_mem_singleton.mpr (hof he rfl)
  | prefixed operator operand span ih =>
      exact List.forall_mem_cons.mpr
        ⟨Kind.inExpression_of_prefixRule? he.1, ih he.2.1.2⟩
  | postfixed operand operator span ih =>
      exact List.forall_mem_append.mpr
        ⟨ih he.2.1.2, List.forall_mem_singleton.mpr (Kind.inExpression_of_infixRule? he.1)⟩
  | binary left operator right span ihl ihr =>
      exact List.forall_mem_append.mpr ⟨ihl he.2.1.2, List.forall_mem_cons.mpr
        ⟨Kind.inExpression_of_infixRule? he.1, ihr he.2.2.2⟩⟩
  | assignment target operator value span iht ihv =>
      exact List.forall_mem_append.mpr ⟨iht he.2.1.2, List.forall_mem_cons.mpr
        ⟨Kind.inExpression_of_infixRule? he.1, ihv he.2.2.2⟩⟩
  | grouping t inner span ih =>
      exact List.forall_mem_cons.mpr ⟨hof he.1 rfl, List.forall_mem_append.mpr
        ⟨ih he.2.2, List.forall_mem_singleton.mpr rfl⟩⟩
  | call t callee arguments span ihc iha =>
      have hmore : ∀ es : List Expr, AllFit es →
          (∀ e ∈ es, e.WellFormed → ∀ slot ∈ e.flatten, slot.kind.inExpression) →
          ∀ slot ∈ flattenMore es, slot.kind.inExpression := by
        intro es hes ih
        induction es with
        | nil => exact List.forall_mem_nil _
        | cons e es ihes =>
            rw [List.forall_mem_cons] at ih
            exact List.forall_mem_cons.mpr ⟨rfl, List.forall_mem_append.mpr
              ⟨ih.1 hes.1.2, ihes hes.2 ih.2⟩⟩
      have harguments : ∀ slot ∈ flattenArguments arguments, slot.kind.inExpression := by
        cases arguments with
        | nil => exact List.forall_mem_nil _
        | cons e es =>
            rw [List.forall_mem_cons] at iha
            exact List.forall_mem_append.mpr
              ⟨iha.1 he.2.2.1.2, hmore es he.2.2.2 iha.2⟩
      exact List.forall_mem_append.mpr ⟨ihc he.2.1.2, List.forall_mem_cons.mpr
        ⟨hof he.1 rfl, List.forall_mem_append.mpr
          ⟨harguments, List.forall_mem_singleton.mpr rfl⟩⟩⟩
  | index t target place span iht ihp =>
      exact List.forall_mem_append.mpr ⟨iht he.2.1.2, List.forall_mem_cons.mpr
        ⟨hof he.1 rfl, List.forall_mem_append.mpr
          ⟨ihp he.2.2.2, List.forall_mem_singleton.mpr rfl⟩⟩⟩
  | member t target name span ih =>
      exact List.forall_mem_append.mpr ⟨ih he.2.1.2, List.forall_mem_cons.mpr
        ⟨hof he.1 rfl, List.forall_mem_singleton.mpr (hof he.2.2 rfl)⟩⟩

/-- The tokens that an expression was read from can all be part of one. -/
theorem Expr.Spells.inExpression {e : Expr} {ts : List Token} (h : e.Spells ts)
    (he : e.WellFormed) : ∀ t ∈ ts, t.kind.inExpression :=
  Slot.forall_kind_of_matches (·.inExpression) h.fills (inExpression_of_mem_flatten he)

theorem Expr.SpellsMore.inExpression {es : List Expr} {ts : List Token} (h : SpellsMore es ts)
    (hes : AllFit es) : ∀ t ∈ ts, t.kind.inExpression := by
  match h with
  | .nil => exact List.forall_mem_nil _
  | .cons hc h hs =>
      refine List.forall_mem_cons.mpr ⟨by rw [hc]; rfl, List.forall_mem_append.mpr ?_⟩
      exact ⟨h.inExpression hes.1.2, hs.inExpression hes.2⟩

/-- The first token of an expression is kept, and it has a prefix rule. -/
theorem Expr.exists_head {e : Expr} (he : e.WellFormed) :
    ∃ t rest rule, e.flatten = .kept t :: rest ∧ t.kind.prefixRule? = some rule := by
  induction e using Expr.induct with
  | identifier t => exact ⟨t, [], _, rfl, by rw [show t.kind = .identifier from he]; rfl⟩
  | number t value => exact ⟨t, [], _, rfl, by rw [he.1]; rfl⟩
  | boolean t =>
      rcases he with he | he
      · exact ⟨t, [], _, rfl, by rw [he]; rfl⟩
      · exact ⟨t, [], _, rfl, by rw [he]; rfl⟩
  | prefixed operator operand span ih => exact ⟨operator, _, _, rfl, he.1⟩
  | grouping t inner span ih => exact ⟨t, _, _, rfl, by rw [he.1]; rfl⟩
  | postfixed operand operator span ih | binary operand operator right span ih _
  | assignment operand operator right span ih _ | call operator operand arguments span ih _
  | index operator operand right span ih _ | member operator operand name span ih =>
      obtain ⟨t, rest, rule, hflat, hrule⟩ := ih he.2.1.2
      exact ⟨t, _, rule, by rw [Expr.flatten, hflat]; rfl, hrule⟩

theorem Expr.Spells.exists_prefixRule {e : Expr} {ts : List Token} (h : e.Spells ts)
    (he : e.WellFormed) : ∃ t us rule, ts = t :: us ∧ t.kind.prefixRule? = some rule := by
  obtain ⟨t, rest, rule, hflat, hrule⟩ := Expr.exists_head he
  have hfills := h.fills
  rw [hflat] at hfills
  obtain ⟨_, us, rfl, -, rfl⟩ := List.forall₂_cons_left_iff.mp hfills
  exact ⟨_, us, rule, rfl, hrule⟩

end Frontend
