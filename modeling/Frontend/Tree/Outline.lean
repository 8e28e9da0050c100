import Frontend.Text.Quoted
import Frontend.Tree.Stmt

/-!
# Outlines

An outline shows every part of a tree, one to a line: a record or a list opens
on one line, holds its items on lines indented by four spaces, each followed by
a comma, and closes on a line of its own.
-/

namespace Frontend

/-- A piece of an outline. -/
inductive Outline where
  /-- One word. -/
  | atom (text : String)
  /-- A part of a record, with its name. -/
  | field (name : String) (value : Outline)
  /-- Items between an opening and a closing mark. -/
  | enclosed (opening : String) (items : List Outline) (closing : String)

namespace Outline

/-- A record with its named parts. -/
def record (name : String) (fields : List (String × Outline)) : Outline :=
  .enclosed (name ++ " \x7b") (fields.map fun (label, value) => .field label value) "\x7d"

/-- A name applied to items. -/
def apply (name : String) (items : List Outline) : Outline :=
  .enclosed (name ++ "(") items ")"

/-- A list; an empty one takes no lines of its own. -/
def list : List Outline → Outline
  | [] => .atom "[]"
  | items => .enclosed "[" items "]"

/-- A part that may be missing. -/
def optional : Option Outline → Outline
  | some value => .apply "Some" [value]
  | none => .atom "None"

/-- A text, quoted. -/
def text (s : String) : Outline := .atom (Text.quote s)

def natural (n : Nat) : Outline := .atom (Nat.repr n)

def truth (b : Bool) : Outline := .atom (if b then "true" else "false")

/-- Puts a comma behind the last line. -/
def closeItem : List String → List String
  | [] => []
  | [line] => [line ++ ","]
  | line :: rest => line :: closeItem rest

mutual

/-- The lines of an outline. -/
def lines : Outline → List String
  | atom text => [text]
  | field name value =>
      match value.lines with
      | [] => []
      | first :: rest => (name ++ ": " ++ first) :: rest
  | enclosed opening items closing => opening :: itemLines items ++ [closing]

/-- The lines of the items between two marks: indented, with a comma behind each
item. -/
def itemLines : List Outline → List String
  | [] => []
  | item :: items => (closeItem item.lines).map ("    " ++ ·) ++ itemLines items

end

/-- The outline as text. -/
def render (outline : Outline) : String := "\n".intercalate outline.lines

end Outline

/-! ## Outlines of the parts of a tree -/

open Outline

def Position.outline (p : Position) : Outline :=
  .apply "Position" [.natural p.offset, .text p.file]

def Span.outline (s : Span) : Outline :=
  .record "Span" [("start", s.start.outline), ("end", s.stop.outline)]

def Token.outline (t : Token) : Outline :=
  .record "Token"
    [("kind", .atom t.kind.name), ("lexeme", .text t.lexeme), ("span", t.span.outline)]

/-- A name, given by its token. -/
def Token.nameOutline (t : Token) : Outline :=
  .record "IdentifierExpr" [("token", t.outline), ("name", .text t.lexeme)]

def Literal.outline : Literal → Outline
  | .integer value => .apply "Integer" [.natural value]
  | .float value => .apply "Float" [.atom (value.write Literal.floatLayout)]

def PrimitiveType.outline (type : PrimitiveType) : Outline := .atom type.name

mutual

def Expr.outline : Expr → Outline
  | .identifier token => .apply "Identifier" [token.nameOutline]
  | .number token value =>
      .apply "Number"
        [.record "NumberExpr" [("token", token.outline), ("value", value.outline)]]
  | .boolean token =>
      .apply "Boolean"
        [.record "BooleanExpr" [("token", token.outline), ("value", .truth token.truth)]]
  | .prefixed operator operand span =>
      .apply "Prefix"
        [.record "PrefixExpr"
          [("operator", operator.outline), ("right_expr", operand.outline),
            ("span", span.outline)]]
  | .postfixed operand operator span =>
      .apply "Postfix"
        [.record "PostfixExpr"
          [("left_expr", operand.outline), ("operator", operator.outline),
            ("span", span.outline)]]
  | .binary left operator right span =>
      .apply "Binary"
        [.record "BinaryExpr"
          [("left", left.outline), ("operator", operator.outline), ("right", right.outline),
            ("span", span.outline)]]
  | .assignment target operator value span =>
      .apply "Assignment"
        [.record "AssignmentExpr"
          [("assignee", target.outline), ("operator", operator.outline),
            ("value", value.outline), ("span", span.outline)]]
  | .grouping token inner span =>
      .apply "Grouping"
        [.record "GroupingExpr"
          [("token", token.outline), ("expression", inner.outline), ("span", span.outline)]]
  | .call token callee arguments span =>
      .apply "Call"
        [.record "CallExpr"
          [("token", token.outline), ("callee", callee.outline),
            ("arguments", .list (Expr.outlines arguments)), ("span", span.outline)]]
  | .index token target place span =>
      .apply "Index"
        [.record "IndexExpr"
          [("token", token.outline), ("target", target.outline), ("index", place.outline),
            ("span", span.outline)]]
  | .member token target name span =>
      .apply "Member"
        [.record "MemberExpr"
          [("token", token.outline), ("target", target.outline), ("member", name.nameOutline),
            ("span", span.outline)]]

def Expr.outlines : List Expr → List Outline
  | [] => []
  | e :: es => e.outline :: Expr.outlines es

end

def Parameter.outline (parameter : Parameter) : Outline :=
  .record "Parameter"
    [("identifier", parameter.name.nameOutline), ("ty", parameter.type.outline)]

mutual

def Stmt.outline : Stmt → Outline
  | .expression token value span =>
      .apply "Expression"
        [.record "ExpressionStmt"
          [("token", token.outline), ("expression", value.outline), ("span", span.outline)]]
  | .block block => .apply "Block" [block.outline]
  | .declaration token name type value span =>
      .apply "VarDecl"
        [.record "VarDeclStmt"
          [("token", token.outline), ("identifier", name.nameOutline),
            ("is_constant", .truth token.declaresConstant), ("explicit_type", type.outline),
            ("assigned_value", value.outline), ("span", span.outline)]]
  | .return_ token value? span =>
      .apply "Return"
        [.record "ReturnStmt"
          [("token", token.outline), ("value", .optional (value?.map Expr.outline)),
            ("span", span.outline)]]
  | .function token name parameters result? body span =>
      .apply "FnDecl"
        [.record "FnDeclStmt"
          [("token", token.outline), ("identifier", name.nameOutline),
            ("parameters", .list (parameters.map Parameter.outline)),
            ("return_type", .optional (result?.map PrimitiveType.outline)),
            ("body", body.outline), ("span", span.outline)]]
  | .conditional branch => branch.outline
  | .while_ token condition body span =>
      .apply "While"
        [.record "WhileStmt"
          [("token", token.outline), ("condition", condition.outline), ("body", body.outline),
            ("span", span.outline)]]
  | .loop token body span =>
      .apply "Loop"
        [.record "LoopStmt"
          [("token", token.outline), ("body", body.outline), ("span", span.outline)]]

def Block.outline : Block → Outline
  | .mk token body span =>
      .record "BlockStmt"
        [("token", token.outline), ("body", .list (Stmt.outlines body)), ("span", span.outline)]

def Conditional.outline : Conditional → Outline
  | .mk token condition body otherwise span =>
      .apply "If"
        [.record "IfStmt"
          [("token", token.outline), ("condition", condition.outline),
            ("then_body", body.outline), ("else_body", .optional otherwise.outline?),
            ("span", span.outline)]]

def Otherwise.outline? : Otherwise → Option Outline
  | .nothing => none
  | .block block => some (.apply "Block" [block.outline])
  | .elif branch => some branch.outline

def Stmt.outlines : List Stmt → List Outline
  | [] => []
  | s :: ss => s.outline :: Stmt.outlines ss

end

def Program.outline (program : Program) : Outline :=
  .record "Program" [("statements", .list (program.statements.map Stmt.outline))]

end Frontend
