import Frontend.Proofs.Printing
import Frontend.Proofs.Regrouping

/-!
# The same program over other tokens

Tokens that stand elsewhere but are otherwise those of a well-formed program make
a well-formed program of the same essence: `Program.exists_similar`. The tree is
built again over the new tokens, as its expression statements keep the first of
theirs.
-/

namespace Frontend

/-- The first of the tokens is that of the slot, but for its place. -/
theorem Slot.exists_of_similar_cons {token : Token} {slots : List Slot} {ts : List Token}
    (h : List.Forall₂ Slot.Similar (.kept token :: slots) ts) :
    ∃ t us, ts = t :: us ∧ t.essence = token.essence ∧ List.Forall₂ Slot.Similar slots us := by
  obtain ⟨t, us, ht, hus, rfl⟩ := List.forall₂_cons_left_iff.mp h
  exact ⟨t, us, rfl, ht, hus⟩

theorem Token.kind_of_essence {t u : Token} (h : t.essence = u.essence) : t.kind = u.kind := by
  show t.essence.kind = u.essence.kind
  rw [h]

theorem Expr.exists_similar {e : Expr} (he : e.Fits .lowest) {ts : List Token}
    (h : List.Forall₂ Slot.Similar e.flatten ts) :
    ∃ e' : Expr, e'.Fits .lowest ∧ e'.essence = e.essence ∧
      List.Forall₂ Slot.Matches e'.flatten ts := by
  have hr := Relabelling.placeless_faithful
  obtain ⟨e', heq, hspells⟩ := Expr.exists_spells_of_matchesUnder (fun _ _ => rfl) e h
  refine ⟨e', ?_, ?_, hspells.fills⟩
  · rw [← Expr.fits_relabel hr e', heq, Expr.fits_relabel hr e]
    exact he
  · rw [← Expr.essence_relabel hr e', heq, Expr.essence_relabel hr e]

/-- The same with the semicolon behind the expression. -/
theorem Expr.exists_similar_semicolon {e : Expr} (he : e.Fits .lowest) {ts : List Token}
    (h : List.Forall₂ Slot.Similar (e.flatten ++ [.fixed (.symbol .semicolon)]) ts) :
    ∃ e' : Expr, e'.Fits .lowest ∧ e'.essence = e.essence ∧
      List.Forall₂ Slot.Matches (e'.flatten ++ [.fixed (.symbol .semicolon)]) ts := by
  obtain ⟨us, vs, rfl, hus, hvs⟩ := Slot.exists_of_matches_append h
  obtain ⟨closing, rfl, hclose⟩ := Slot.exists_of_matches_singleton hvs
  obtain ⟨e', hfits, hessence, hmatches⟩ := Expr.exists_similar he hus
  exact ⟨e', hfits, hessence, List.rel_append hmatches (.cons hclose .nil)⟩

theorem Parameter.exists_similar {parameters : List Parameter}
    (hp : ∀ parameter ∈ parameters, parameter.name.kind = .identifier) {ts : List Token}
    (h : List.Forall₂ Slot.Similar (Parameter.flattenAll parameters) ts) :
    ∃ parameters' : List Parameter,
      (∀ parameter ∈ parameters', parameter.name.kind = .identifier) ∧
      parameters'.map Parameter.essence = parameters.map Parameter.essence ∧
      List.Forall₂ Slot.Matches (Parameter.flattenAll parameters') ts := by
  have hone : ∀ {parameter : Parameter} {ts : List Token}, parameter.name.kind = .identifier →
      List.Forall₂ Slot.Similar parameter.flatten ts → ∃ parameter' : Parameter,
        parameter'.name.kind = .identifier ∧ parameter'.essence = parameter.essence ∧
          List.Forall₂ Slot.Matches parameter'.flatten ts := by
    intro parameter ts hk h
    obtain ⟨name, us, rfl, hname, hus⟩ := Slot.exists_of_similar_cons h
    obtain ⟨colon, vs, hcolon, hvs, rfl⟩ := List.forall₂_cons_left_iff.mp hus
    obtain ⟨type, rfl, htype⟩ := Slot.exists_of_matches_singleton hvs
    refine ⟨⟨name, parameter.type⟩, (Token.kind_of_essence hname).trans hk, ?_, ?_⟩
    · exact congrArg (Parameter.mk · parameter.type) hname
    · exact .cons rfl (.cons hcolon (.cons htype .nil))
  fun_induction Parameter.flattenAll parameters generalizing ts with
  | case1 => exact ⟨[], List.forall_mem_nil _, rfl, by cases h; exact .nil⟩
  | case2 parameter =>
      obtain ⟨parameter', hk, hessence, hm⟩ := hone (hp _ (List.mem_singleton_self _)) h
      exact ⟨[parameter'], List.forall_mem_singleton.mpr hk, congrArg (fun x => [x]) hessence, hm⟩
  | case3 parameter next more ih =>
      rw [List.forall_mem_cons] at hp
      obtain ⟨us, vs, rfl, hus, hvs⟩ := Slot.exists_of_matches_append h
      obtain ⟨comma, ws, hcomma, hws, rfl⟩ := List.forall₂_cons_left_iff.mp hvs
      obtain ⟨parameter', hk, hessence, hm⟩ := hone hp.1 hus
      obtain ⟨more', hks, hessences, hms⟩ := ih hp.2 hws
      refine ⟨parameter' :: more', List.forall_mem_cons.mpr ⟨hk, hks⟩,
        congrArg₂ List.cons hessence hessences, ?_⟩
      cases more' with
      | nil => cases hessences
      | cons next' more' => exact List.rel_append hm (.cons hcomma hms)

theorem Stmt.exists_similar_binding {token name : Token} {type : PrimitiveType} {ts : List Token}
    (h : List.Forall₂ Slot.Similar (Stmt.binding token name type) ts) :
    ∃ token' name' : Token, token'.essence = token.essence ∧ name'.essence = name.essence ∧
      List.Forall₂ Slot.Matches (Stmt.binding token' name' type) ts := by
  obtain ⟨token', us, rfl, htoken, hus⟩ := Slot.exists_of_similar_cons h
  obtain ⟨name', vs, rfl, hname, hvs⟩ := Slot.exists_of_similar_cons hus
  obtain ⟨colon, ws, hcolon, hws, rfl⟩ := List.forall₂_cons_left_iff.mp hvs
  obtain ⟨t, xs, ht, hxs, rfl⟩ := List.forall₂_cons_left_iff.mp hws
  obtain ⟨equals, rfl, hequals⟩ := Slot.exists_of_matches_singleton hxs
  exact ⟨token', name', htoken, hname,
    .cons rfl (.cons rfl (.cons hcolon (.cons ht (.cons hequals .nil))))⟩

theorem Stmt.exists_similar_signature {token name : Token} {parameters : List Parameter}
    {result? : Option PrimitiveType}
    (hp : ∀ parameter ∈ parameters, parameter.name.kind = .identifier) {ts : List Token}
    (h : List.Forall₂ Slot.Similar (Stmt.signature token name parameters result?) ts) :
    ∃ (token' name' : Token) (parameters' : List Parameter),
      token'.essence = token.essence ∧ name'.essence = name.essence ∧
      (∀ parameter ∈ parameters', parameter.name.kind = .identifier) ∧
      parameters'.map Parameter.essence = parameters.map Parameter.essence ∧
      List.Forall₂ Slot.Matches (Stmt.signature token' name' parameters' result?) ts := by
  obtain ⟨token', us, rfl, htoken, hus⟩ := Slot.exists_of_similar_cons h
  obtain ⟨name', vs, rfl, hname, hvs⟩ := Slot.exists_of_similar_cons hus
  obtain ⟨opening, ws, hopen, hws, rfl⟩ := List.forall₂_cons_left_iff.mp hvs
  obtain ⟨xs, ys, rfl, hxs, hys⟩ := Slot.exists_of_matches_append hws
  obtain ⟨closing, zs, hclose, hzs, rfl⟩ := List.forall₂_cons_left_iff.mp hys
  obtain ⟨parameters', hks, hessences, hms⟩ := Parameter.exists_similar hp hxs
  have hresult : List.Forall₂ Slot.Matches
      (result?.map fun type => Slot.fixed (.type type)).toList zs := by
    cases result? with
    | none => cases hzs; exact .nil
    | some type =>
        obtain ⟨t, rfl, ht⟩ := Slot.exists_of_matches_singleton hzs
        exact .cons ht .nil
  exact ⟨token', name', parameters', htoken, hname, hks, hessences,
    .cons rfl (.cons rfl (.cons hopen (List.rel_append hms (.cons hclose hresult))))⟩

mutual

theorem Stmt.exists_similar {s : Stmt} (hw : s.WellFormed) {ts : List Token}
    (h : List.Forall₂ Slot.Similar (s.flatten .always) ts) :
    ∃ s' : Stmt, s'.WellFormed ∧ s'.essence = s.essence ∧
      List.Forall₂ Slot.Matches (s'.flatten .always) ts := by
  match s with
  | .expression token value span =>
      simp only [Stmt.flatten, Closing.always, if_true] at h
      obtain ⟨e, hfits, hessence, hm⟩ := Expr.exists_similar_semicolon hw.1 h
      obtain ⟨slots, hslots⟩ := e.flatten_eq_first
      refine ⟨.expression e.first e span, ⟨hfits, by rw [hslots]; rfl⟩, ?_, ?_⟩
      · rw [Stmt.essence, Stmt.essence, hessence]
      · simpa only [Stmt.flatten, Closing.always, if_true] using hm
  | .block block =>
      obtain ⟨b, hb, hessence, hm⟩ := Block.exists_similar hw h
      exact ⟨.block b, hb, congrArg Stmt.block hessence, hm⟩
  | .declaration token name type value span =>
      obtain ⟨hrule, hname, hvalue⟩ := hw
      obtain ⟨us, vs, rfl, hus, hvs⟩ := Slot.exists_of_matches_append h
      obtain ⟨token', name', htoken, hname', hm⟩ := Stmt.exists_similar_binding hus
      obtain ⟨e, hfits, hessence, hms⟩ := Expr.exists_similar_semicolon hvalue hvs
      refine ⟨.declaration token' name' type e span, ⟨?_, ?_, hfits⟩, ?_,
        List.rel_append hm hms⟩
      · rw [Token.kind_of_essence htoken]
        exact hrule
      · rw [Token.kind_of_essence hname']
        exact hname
      · rw [Stmt.essence, Stmt.essence, htoken, hname', hessence]
  | .return_ token none span =>
      obtain ⟨token', us, rfl, htoken, hus⟩ := Slot.exists_of_similar_cons h
      obtain ⟨closing, rfl, hclose⟩ := Slot.exists_of_matches_singleton hus
      refine ⟨.return_ token' none span, (Token.kind_of_essence htoken).trans hw, ?_,
        .cons rfl (.cons hclose .nil)⟩
      rw [Stmt.essence, Stmt.essence, htoken]
  | .return_ token (some value) span =>
      obtain ⟨token', us, rfl, htoken, hus⟩ := Slot.exists_of_similar_cons h
      obtain ⟨e, hfits, hessence, hm⟩ := Expr.exists_similar_semicolon hw.2 hus
      refine ⟨.return_ token' (some e) span, ⟨(Token.kind_of_essence htoken).trans hw.1, hfits⟩, ?_,
        .cons rfl hm⟩
      rw [Stmt.essence, Stmt.essence, Option.map_some, Option.map_some, htoken, hessence]
  | .function token name parameters result? body span =>
      obtain ⟨hk, hn, hp, hbody⟩ := hw
      obtain ⟨us, vs, rfl, hus, hvs⟩ := Slot.exists_of_matches_append h
      obtain ⟨token', name', parameters', htoken, hname, hks, hessences, hm⟩ :=
        Stmt.exists_similar_signature hp hus
      obtain ⟨b, hb, hessence, hms⟩ := Block.exists_similar hbody hvs
      refine ⟨.function token' name' parameters' result? b span,
        ⟨(Token.kind_of_essence htoken).trans hk, (Token.kind_of_essence hname).trans hn, hks, hb⟩,
        ?_, List.rel_append hm hms⟩
      rw [Stmt.essence, Stmt.essence, htoken, hname, hessences, hessence]
  | .conditional branch =>
      obtain ⟨branch', hb, htoken, hessence, hm⟩ := Conditional.exists_similar hw.2 h
      refine ⟨.conditional branch', ⟨htoken.trans hw.1, hb⟩, ?_, hm⟩
      rw [Stmt.essence, Stmt.essence, hessence]
  | .while_ token condition body span =>
      obtain ⟨token', us, rfl, htoken, hus⟩ := Slot.exists_of_similar_cons h
      obtain ⟨vs, ws, rfl, hvs, hws⟩ := Slot.exists_of_matches_append hus
      obtain ⟨e, hfits, hessence, hm⟩ := Expr.exists_similar hw.2.1 hvs
      obtain ⟨b, hb, hessence', hm'⟩ := Block.exists_similar hw.2.2 hws
      refine ⟨.while_ token' e b span, ⟨(Token.kind_of_essence htoken).trans hw.1, hfits, hb⟩, ?_,
        .cons rfl (List.rel_append hm hm')⟩
      rw [Stmt.essence, Stmt.essence, htoken, hessence, hessence']
  | .loop token body span =>
      obtain ⟨token', us, rfl, htoken, hus⟩ := Slot.exists_of_similar_cons h
      obtain ⟨b, hb, hessence, hm⟩ := Block.exists_similar hw.2 hus
      refine ⟨.loop token' b span, ⟨(Token.kind_of_essence htoken).trans hw.1, hb⟩, ?_,
        .cons rfl hm⟩
      rw [Stmt.essence, Stmt.essence, htoken, hessence]

theorem Block.exists_similar {b : Block} (hw : b.WellFormed) {ts : List Token}
    (h : List.Forall₂ Slot.Similar (b.flatten .always) ts) :
    ∃ b' : Block, b'.WellFormed ∧ b'.essence = b.essence ∧
      List.Forall₂ Slot.Matches (b'.flatten .always) ts := by
  match b with
  | .mk token body span =>
      obtain ⟨token', us, rfl, htoken, hus⟩ := Slot.exists_of_similar_cons h
      obtain ⟨vs, ws, rfl, hvs, hws⟩ := Slot.exists_of_matches_append hus
      obtain ⟨closing, rfl, hclose⟩ := Slot.exists_of_matches_singleton hws
      obtain ⟨body', hb, hessences, hm⟩ := Stmt.exists_similar_all hw.2 hvs
      refine ⟨.mk token' body' span, ⟨(Token.kind_of_essence htoken).trans hw.1, hb⟩, ?_,
        .cons rfl (List.rel_append hm (.cons hclose .nil))⟩
      rw [Block.essence, Block.essence, htoken, hessences]

theorem Conditional.exists_similar {branch : Conditional} (hw : branch.WellFormed)
    {ts : List Token} (h : List.Forall₂ Slot.Similar (branch.flatten .always) ts) :
    ∃ branch' : Conditional, branch'.WellFormed ∧ branch'.token.kind = branch.token.kind ∧
      branch'.essence = branch.essence ∧
      List.Forall₂ Slot.Matches (branch'.flatten .always) ts := by
  match branch with
  | .mk token condition body otherwise span =>
      obtain ⟨token', us, rfl, htoken, hus⟩ := Slot.exists_of_similar_cons h
      obtain ⟨vs, ws, rfl, hvs, hws⟩ := Slot.exists_of_matches_append hus
      obtain ⟨xs, ys, rfl, hxs, hys⟩ := Slot.exists_of_matches_append hws
      obtain ⟨e, hfits, hessence, hm⟩ := Expr.exists_similar hw.1 hvs
      obtain ⟨b, hb, hessence', hm'⟩ := Block.exists_similar hw.2.1 hxs
      obtain ⟨o, ho, hessence'', hm''⟩ := Otherwise.exists_similar hw.2.2 hys
      refine ⟨.mk token' e b o span, ⟨hfits, hb, ho⟩, Token.kind_of_essence htoken, ?_,
        .cons rfl (List.rel_append hm (List.rel_append hm' hm''))⟩
      rw [Conditional.essence, Conditional.essence, htoken, hessence, hessence', hessence'']

theorem Otherwise.exists_similar {otherwise : Otherwise} (hw : otherwise.WellFormed)
    {ts : List Token} (h : List.Forall₂ Slot.Similar (otherwise.flatten .always) ts) :
    ∃ otherwise' : Otherwise, otherwise'.WellFormed ∧ otherwise'.essence = otherwise.essence ∧
      List.Forall₂ Slot.Matches (otherwise'.flatten .always) ts := by
  match otherwise with
  | .nothing =>
      cases h
      exact ⟨.nothing, trivial, rfl, .nil⟩
  | .block block =>
      obtain ⟨t, us, ht, hus, rfl⟩ := List.forall₂_cons_left_iff.mp h
      obtain ⟨b, hb, hessence, hm⟩ := Block.exists_similar hw hus
      exact ⟨.block b, hb, congrArg Otherwise.block hessence, .cons ht hm⟩
  | .elif branch =>
      obtain ⟨branch', hb, htoken, hessence, hm⟩ := Conditional.exists_similar hw.2 h
      exact ⟨.elif branch', ⟨htoken.trans hw.1, hb⟩, congrArg Otherwise.elif hessence, hm⟩

theorem Stmt.exists_similar_all {ss : List Stmt} (hw : Stmt.AllWellFormed ss) {ts : List Token}
    (h : List.Forall₂ Slot.Similar (Stmt.flattenAll .always ss) ts) :
    ∃ ss' : List Stmt, Stmt.AllWellFormed ss' ∧ Stmt.essences ss' = Stmt.essences ss ∧
      List.Forall₂ Slot.Matches (Stmt.flattenAll .always ss') ts := by
  match ss with
  | [] =>
      cases h
      exact ⟨[], trivial, rfl, .nil⟩
  | s :: ss =>
      obtain ⟨us, vs, rfl, hus, hvs⟩ := Slot.exists_of_matches_append h
      obtain ⟨s', hs, hessence, hm⟩ := Stmt.exists_similar hw.1 hus
      obtain ⟨ss', hss, hessences, hms⟩ := Stmt.exists_similar_all hw.2 hvs
      exact ⟨s' :: ss', ⟨hs, hss⟩, congrArg₂ List.cons hessence hessences, List.rel_append hm hms⟩

end

theorem Program.exists_similar {program : Program} (hw : program.WellFormed) {ts : List Token}
    (h : List.Forall₂ Slot.Similar (program.flatten .always) ts) :
    ∃ program' : Program, program'.WellFormed ∧ program'.essence = program.essence ∧
      List.Forall₂ Slot.Matches (program'.flatten .always) ts := by
  obtain ⟨ss, hss, hessences, hm⟩ := Stmt.exists_similar_all hw h
  exact ⟨⟨ss⟩, hss, congrArg Program.mk hessences, hm⟩

end Frontend
