import Frontend.Parser.Expr
import Frontend.Proofs.Relabel

/-!
# What printing keeps

The printed form of a tree shows neither where its tokens stood nor which
parentheses were there, and it ends every expression statement with a semicolon.
`essence` leaves out just this much, so two trees with the same essence are
printed alike (`Program.render_congr`), whatever text they were read from.

Not everything that is printed can be read again: the parentheses that are put
around an index or a member hide that a value can be stored there, and a number
in front of a dot takes in the dot. `isReprintable` excludes these.
-/

namespace Frontend

/-- A span that says nothing. -/
def Span.blank : Span := ⟨⟨0, ""⟩, ⟨0, ""⟩⟩

/-- The token without its place. -/
def Token.essence (t : Token) : Token := { t with span := .blank }

def Token.blank : Token := ⟨.eof, "", .blank⟩

mutual

/-- The expression without positions and without parentheses. -/
def Expr.essence : Expr → Expr
  | .identifier token => .identifier token.essence
  | .number token value => .number token.essence value
  | .boolean token => .boolean token.essence
  | .prefixed operator operand _ => .prefixed operator.essence operand.essence .blank
  | .postfixed operand operator _ => .postfixed operand.essence operator.essence .blank
  | .binary left operator right _ => .binary left.essence operator.essence right.essence .blank
  | .assignment target operator value _ =>
      .assignment target.essence operator.essence value.essence .blank
  | .grouping _ inner _ => inner.essence
  | .call token callee arguments _ =>
      .call token.essence callee.essence (Expr.essences arguments) .blank
  | .index token target place _ => .index token.essence target.essence place.essence .blank
  | .member token target name _ => .member token.essence target.essence name.essence .blank

def Expr.essences : List Expr → List Expr
  | [] => []
  | e :: es => e.essence :: Expr.essences es

end

def Parameter.essence (parameter : Parameter) : Parameter :=
  { parameter with name := parameter.name.essence }

mutual

/-- The statement without positions, without parentheses, and without the first
token of an expression statement. -/
def Stmt.essence : Stmt → Stmt
  | .expression _ value _ => .expression .blank value.essence .blank
  | .block block => .block block.essence
  | .declaration token name type value _ =>
      .declaration token.essence name.essence type value.essence .blank
  | .return_ token value? _ => .return_ token.essence (value?.map Expr.essence) .blank
  | .function token name parameters result? body _ =>
      .function token.essence name.essence (parameters.map Parameter.essence) result? body.essence
        .blank
  | .conditional branch => .conditional branch.essence
  | .while_ token condition body _ =>
      .while_ token.essence condition.essence body.essence .blank
  | .loop token body _ => .loop token.essence body.essence .blank

def Block.essence : Block → Block
  | .mk token body _ => .mk token.essence (Stmt.essences body) .blank

def Conditional.essence : Conditional → Conditional
  | .mk token condition body otherwise _ =>
      .mk token.essence condition.essence body.essence otherwise.essence .blank

def Otherwise.essence : Otherwise → Otherwise
  | .nothing => .nothing
  | .block block => .block block.essence
  | .elif branch => .elif branch.essence

def Stmt.essences : List Stmt → List Stmt
  | [] => []
  | s :: ss => s.essence :: Stmt.essences ss

end

/-- The program without positions, without parentheses, and without the first
tokens of expression statements. -/
def Program.essence (program : Program) : Program := ⟨Stmt.essences program.statements⟩

/-! ## What can be read again -/

namespace Expr

def isPart : Expr → Bool
  | index .. | member .. => true
  | _ => false

/-- Whether the expression is printed as a number. -/
def isNumeral : Expr → Bool
  | number .. => true
  | grouping _ inner _ => inner.isNumeral
  | _ => false

mutual

/-- No value is stored into an element or a member, and no member is selected from
a number. -/
def isReprintable : Expr → Bool
  | identifier _ | number .. | boolean _ => true
  | prefixed operator operand _ => !(operator.isStep && operand.isPart) && operand.isReprintable
  | postfixed operand _ _ => !operand.isPart && operand.isReprintable
  | binary left _ right _ => left.isReprintable && right.isReprintable
  | assignment target _ value _ => !target.isPart && target.isReprintable && value.isReprintable
  | grouping _ inner _ => inner.isReprintable
  | call _ callee arguments _ => callee.isReprintable && areReprintable arguments
  | index _ target place _ => target.isReprintable && place.isReprintable
  | member _ target _ _ => !target.isNumeral && target.isReprintable

def areReprintable : List Expr → Bool
  | [] => true
  | e :: es => e.isReprintable && areReprintable es

end

end Expr

mutual

/-- All expressions in the statement can be read again. -/
def Stmt.isReprintable : Stmt → Bool
  | .expression _ value _ => value.isReprintable
  | .block block => block.isReprintable
  | .declaration _ _ _ value _ => value.isReprintable
  | .return_ _ none _ => true
  | .return_ _ (some value) _ => value.isReprintable
  | .function _ _ _ _ body _ => body.isReprintable
  | .conditional branch => branch.isReprintable
  | .while_ _ condition body _ => condition.isReprintable && body.isReprintable
  | .loop _ body _ => body.isReprintable

def Block.isReprintable : Block → Bool
  | .mk _ body _ => Stmt.areReprintable body

def Conditional.isReprintable : Conditional → Bool
  | .mk _ condition body otherwise _ =>
      condition.isReprintable && body.isReprintable && otherwise.isReprintable

def Otherwise.isReprintable : Otherwise → Bool
  | .nothing => true
  | .block block => block.isReprintable
  | .elif branch => branch.isReprintable

def Stmt.areReprintable : List Stmt → Bool
  | [] => true
  | s :: ss => s.isReprintable && Stmt.areReprintable ss

end

def Program.isReprintable (program : Program) : Bool := Stmt.areReprintable program.statements

/-! ## Printing -/

theorem Expr.essences_eq_map (es : List Expr) : Expr.essences es = es.map Expr.essence := by
  induction es with
  | nil => rfl
  | cons e es ih => rw [Expr.essences, ih, List.map_cons]

theorem Expr.renderAll_eq_map (es : List Expr) : Expr.renderAll es = es.map Expr.render := by
  induction es with
  | nil => rfl
  | cons e es ih => rw [Expr.renderAll, ih, List.map_cons]

theorem Stmt.essences_eq_map (ss : List Stmt) : Stmt.essences ss = ss.map Stmt.essence := by
  induction ss with
  | nil => rfl
  | cons s ss ih => rw [Stmt.essences, ih, List.map_cons]

theorem Expr.render_essence (e : Expr) : e.essence.render = e.render := by
  induction e using Expr.induct with
  | call token callee arguments span ihc iha =>
      have harguments : (Expr.essences arguments).map Expr.render = arguments.map Expr.render := by
        rw [Expr.essences_eq_map, List.map_map]
        exact List.map_congr_left iha
      simp only [essence, render, ihc, Expr.renderAll_eq_map, harguments]
  | _ => simp_all [essence, render, Token.essence, Token.truth]

mutual

theorem Stmt.render_essence (s : Stmt) : s.essence.render = s.render := by
  cases s with
  | expression token value span => rw [Stmt.essence, Stmt.render, Stmt.render, value.render_essence]
  | block block => rw [Stmt.essence, Stmt.render, Stmt.render, block.render_essence]
  | declaration token name type value span =>
      rw [Stmt.essence, Stmt.render, Stmt.render, value.render_essence]
      rfl
  | return_ token value? span =>
      cases value? with
      | none => rfl
      | some value =>
          rw [Stmt.essence, Option.map_some, Stmt.render, Stmt.render, value.render_essence]
  | function token name parameters result? body span =>
      have hparameters : (parameters.map Parameter.essence).map Parameter.render =
          parameters.map Parameter.render := by
        rw [List.map_map]
        rfl
      simp only [Stmt.essence, Stmt.render, hparameters, body.render_essence, Token.essence]
  | conditional branch => rw [Stmt.essence, Stmt.render, Stmt.render, branch.render_essence]
  | while_ token condition body span =>
      rw [Stmt.essence, Stmt.render, Stmt.render, condition.render_essence, body.render_essence]
  | loop token body span => rw [Stmt.essence, Stmt.render, Stmt.render, body.render_essence]

theorem Block.render_essence (b : Block) : b.essence.render = b.render := by
  obtain ⟨token, body, span⟩ := b
  rw [Block.essence, Block.render, Block.render, Stmt.renderAll_essences body]

theorem Conditional.render_essence (branch : Conditional) :
    branch.essence.render = branch.render := by
  obtain ⟨token, condition, body, otherwise, span⟩ := branch
  rw [Conditional.essence, Conditional.render, Conditional.render, condition.render_essence,
    body.render_essence, otherwise.render_essence]
  rfl

theorem Otherwise.render_essence (otherwise : Otherwise) :
    otherwise.essence.render = otherwise.render := by
  cases otherwise with
  | nothing => rfl
  | block block => rw [Otherwise.essence, Otherwise.render, Otherwise.render, block.render_essence]
  | elif branch => rw [Otherwise.essence, Otherwise.render, Otherwise.render, branch.render_essence]

theorem Stmt.renderAll_essences (ss : List Stmt) :
    Stmt.renderAll (Stmt.essences ss) = Stmt.renderAll ss := by
  cases ss with
  | nil => rfl
  | cons s ss =>
      rw [Stmt.essences, Stmt.renderAll, Stmt.renderAll, s.render_essence,
        Stmt.renderAll_essences ss]

end

theorem Program.render_essence (program : Program) : program.essence.render = program.render := by
  rw [Program.render, Program.render, Program.essence, Stmt.essences_eq_map, List.map_map]
  exact congrArg _ (List.map_congr_left fun s _ => s.render_essence)

/-- Programs that have the same essence are printed alike. -/
theorem Program.render_congr {program program' : Program} (h : program.essence = program'.essence) :
    program.render = program'.render := by
  rw [← program.render_essence, h, program'.render_essence]

/-! ## Relabelled trees -/

/-- Takes the places away from the tokens, and the spans of the nodes. -/
def Relabelling.placeless : Relabelling where
  token := Token.essence
  span := fun _ => .blank

theorem Relabelling.placeless_faithful : Relabelling.placeless.Faithful :=
  ⟨fun _ => rfl, fun _ => rfl⟩

/-- The program without positions. -/
def Program.placeless (program : Program) : Program :=
  ⟨program.statements.map (Stmt.relabel .placeless)⟩

theorem Relabelling.Faithful.essence {r : Relabelling} (hr : r.Faithful) (t : Token) :
    (r.token t).essence = t.essence := by
  simp only [Token.essence, hr.kind, hr.lexeme]

section Relabelled

variable {r : Relabelling}

theorem Expr.essence_relabel (hr : r.Faithful) (e : Expr) : (e.relabel r).essence = e.essence := by
  induction e using Expr.induct with
  | call token callee arguments span ihc iha =>
      have harguments : Expr.essences (Expr.relabelAll r arguments) = Expr.essences arguments := by
        rw [Expr.essences_eq_map, Expr.essences_eq_map, Expr.relabelAll_eq_map, List.map_map]
        exact List.map_congr_left iha
      simp only [relabel, essence, ihc, harguments, hr.essence]
  | _ => simp_all only [relabel, essence, hr.essence]

theorem Expr.render_relabel (hr : r.Faithful) (e : Expr) : (e.relabel r).render = e.render := by
  rw [← (e.relabel r).render_essence, e.essence_relabel hr, e.render_essence]

theorem Parameter.essence_relabel (hr : r.Faithful) (parameter : Parameter) :
    (parameter.relabel r).essence = parameter.essence := by
  simp only [relabel, essence, hr.essence]

mutual

theorem Stmt.essence_relabel (hr : r.Faithful) (s : Stmt) : (s.relabel r).essence = s.essence := by
  cases s with
  | expression token value span =>
      rw [Stmt.relabel, Stmt.essence, Stmt.essence, value.essence_relabel hr]
  | block block => rw [Stmt.relabel, Stmt.essence, Stmt.essence, block.essence_relabel hr]
  | declaration token name type value span =>
      rw [Stmt.relabel, Stmt.essence, Stmt.essence, value.essence_relabel hr, hr.essence,
        hr.essence]
  | return_ token value? span =>
      cases value? with
      | none => rw [Stmt.relabel, Stmt.essence, Stmt.essence, hr.essence]; rfl
      | some value =>
          rw [Stmt.relabel, Stmt.essence, Stmt.essence, Option.map_some, Option.map_some,
            Option.map_some, value.essence_relabel hr, hr.essence]
  | function token name parameters result? body span =>
      have hparameters : (parameters.map (Parameter.relabel r)).map Parameter.essence =
          parameters.map Parameter.essence := by
        rw [List.map_map]
        exact List.map_congr_left fun parameter _ => parameter.essence_relabel hr
      rw [Stmt.relabel, Stmt.essence, Stmt.essence, body.essence_relabel hr, hparameters,
        hr.essence, hr.essence]
  | conditional branch => rw [Stmt.relabel, Stmt.essence, Stmt.essence, branch.essence_relabel hr]
  | while_ token condition body span =>
      rw [Stmt.relabel, Stmt.essence, Stmt.essence, condition.essence_relabel hr,
        body.essence_relabel hr, hr.essence]
  | loop token body span =>
      rw [Stmt.relabel, Stmt.essence, Stmt.essence, body.essence_relabel hr, hr.essence]

theorem Block.essence_relabel (hr : r.Faithful) (b : Block) :
    (b.relabel r).essence = b.essence := by
  obtain ⟨token, body, span⟩ := b
  rw [Block.relabel, Block.essence, Block.essence, Stmt.essences_relabel hr body, hr.essence]

theorem Conditional.essence_relabel (hr : r.Faithful) (branch : Conditional) :
    (branch.relabel r).essence = branch.essence := by
  obtain ⟨token, condition, body, otherwise, span⟩ := branch
  rw [Conditional.relabel, Conditional.essence, Conditional.essence,
    condition.essence_relabel hr, body.essence_relabel hr, otherwise.essence_relabel hr, hr.essence]

theorem Otherwise.essence_relabel (hr : r.Faithful) (otherwise : Otherwise) :
    (otherwise.relabel r).essence = otherwise.essence := by
  cases otherwise with
  | nothing => rfl
  | block block =>
      rw [Otherwise.relabel, Otherwise.essence, Otherwise.essence, block.essence_relabel hr]
  | elif branch =>
      rw [Otherwise.relabel, Otherwise.essence, Otherwise.essence, branch.essence_relabel hr]

theorem Stmt.essences_relabel (hr : r.Faithful) (ss : List Stmt) :
    Stmt.essences (Stmt.relabelAll r ss) = Stmt.essences ss := by
  cases ss with
  | nil => rfl
  | cons s ss =>
      rw [Stmt.relabelAll, Stmt.essences, Stmt.essences, s.essence_relabel hr,
        Stmt.essences_relabel hr ss]

end

end Relabelled

theorem Program.essence_congr {program program' : Program} (h : program.bare = program'.bare) :
    program.essence = program'.essence := by
  have hbare : ∀ program : Program, Stmt.essences program.bare.statements =
      Stmt.essences program.statements := by
    intro program
    rw [← Stmt.essences_relabel Relabelling.blank_faithful program.statements,
      Stmt.relabelAll_eq_map]
    rfl
  rw [Program.essence, Program.essence, ← hbare program, h, hbare]

end Frontend
