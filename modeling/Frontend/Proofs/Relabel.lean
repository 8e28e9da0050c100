import Frontend.Tree.Stmt

/-!
# Relabelled trees

A tree carries tokens and spans, and much of what is said about trees compares
two of them that differ only there: one that was read from a text and one that
was read from the same text further down, or a tree and its copy with the spans
of its nodes blanked out. `relabel` changes every token and every stored span of
a tree and keeps its form.
-/

namespace Frontend

/-- What to do to the tokens of a tree and to the spans that its nodes store. -/
structure Relabelling where
  token : Token → Token
  span : Span → Span

/-- Kinds and lexemes stay as they are. -/
structure Relabelling.Faithful (r : Relabelling) : Prop where
  kind : ∀ t, (r.token t).kind = t.kind
  lexeme : ∀ t, (r.token t).lexeme = t.lexeme

/-- Blanks out the spans of the nodes; the tokens keep theirs. -/
def Relabelling.blank : Relabelling where
  token := id
  span := fun _ => ⟨⟨0, ""⟩, ⟨0, ""⟩⟩

theorem Relabelling.blank_faithful : Relabelling.blank.Faithful := ⟨fun _ => rfl, fun _ => rfl⟩

/-- Moves every position. -/
def Relabelling.moved (move : Position → Position) : Relabelling where
  token := fun t => { t with span := ⟨move t.span.start, move t.span.stop⟩ }
  span := fun s => ⟨move s.start, move s.stop⟩

/-- Moves the starts of all spans in one way and their ends in another. -/
def Relabelling.placed (start stop : Position → Position) : Relabelling where
  token := fun t => { t with span := ⟨start t.span.start, stop t.span.stop⟩ }
  span := fun s => ⟨start s.start, stop s.stop⟩

theorem Relabelling.placed_faithful (start stop : Position → Position) :
    (Relabelling.placed start stop).Faithful :=
  ⟨fun _ => rfl, fun _ => rfl⟩

mutual

def Expr.relabel (r : Relabelling) : Expr → Expr
  | .identifier token => .identifier (r.token token)
  | .number token value => .number (r.token token) value
  | .boolean token => .boolean (r.token token)
  | .prefixed operator operand span =>
      .prefixed (r.token operator) (operand.relabel r) (r.span span)
  | .postfixed operand operator span =>
      .postfixed (operand.relabel r) (r.token operator) (r.span span)
  | .binary left operator right span =>
      .binary (left.relabel r) (r.token operator) (right.relabel r) (r.span span)
  | .assignment target operator value span =>
      .assignment (target.relabel r) (r.token operator) (value.relabel r) (r.span span)
  | .grouping token inner span => .grouping (r.token token) (inner.relabel r) (r.span span)
  | .call token callee arguments span =>
      .call (r.token token) (callee.relabel r) (Expr.relabelAll r arguments) (r.span span)
  | .index token target place span =>
      .index (r.token token) (target.relabel r) (place.relabel r) (r.span span)
  | .member token target name span =>
      .member (r.token token) (target.relabel r) (r.token name) (r.span span)

def Expr.relabelAll (r : Relabelling) : List Expr → List Expr
  | [] => []
  | e :: es => e.relabel r :: Expr.relabelAll r es

end

def Parameter.relabel (r : Relabelling) (parameter : Parameter) : Parameter :=
  { parameter with name := r.token parameter.name }

mutual

def Stmt.relabel (r : Relabelling) : Stmt → Stmt
  | .expression token value span => .expression (r.token token) (value.relabel r) (r.span span)
  | .block block => .block (block.relabel r)
  | .declaration token name type value span =>
      .declaration (r.token token) (r.token name) type (value.relabel r) (r.span span)
  | .return_ token value? span =>
      .return_ (r.token token) (value?.map (Expr.relabel r)) (r.span span)
  | .function token name parameters result? body span =>
      .function (r.token token) (r.token name) (parameters.map (Parameter.relabel r)) result?
        (body.relabel r) (r.span span)
  | .conditional branch => .conditional (branch.relabel r)
  | .while_ token condition body span =>
      .while_ (r.token token) (condition.relabel r) (body.relabel r) (r.span span)
  | .loop token body span => .loop (r.token token) (body.relabel r) (r.span span)

def Block.relabel (r : Relabelling) : Block → Block
  | .mk token body span => .mk (r.token token) (Stmt.relabelAll r body) (r.span span)

def Conditional.relabel (r : Relabelling) : Conditional → Conditional
  | .mk token condition body otherwise span =>
      .mk (r.token token) (condition.relabel r) (body.relabel r) (otherwise.relabel r)
        (r.span span)

def Otherwise.relabel (r : Relabelling) : Otherwise → Otherwise
  | .nothing => .nothing
  | .block block => .block (block.relabel r)
  | .elif branch => .elif (branch.relabel r)

def Stmt.relabelAll (r : Relabelling) : List Stmt → List Stmt
  | [] => []
  | s :: ss => s.relabel r :: Stmt.relabelAll r ss

end

/-- The expression without the spans of its nodes. -/
def Expr.bare (e : Expr) : Expr := e.relabel .blank

/-- The block without the spans of its nodes. -/
def Block.bare (block : Block) : Block := block.relabel .blank

/-- The conditional without the spans of its nodes. -/
def Conditional.bare (branch : Conditional) : Conditional := branch.relabel .blank

/-- The statement without the spans of its nodes. -/
def Stmt.bare (s : Stmt) : Stmt := s.relabel .blank

/-- The program without the spans of its nodes. -/
def Program.bare (program : Program) : Program := ⟨program.statements.map Stmt.bare⟩

/-! ## Expressions -/

/-- Induction over an expression, with the arguments of a call as a list of
expressions. -/
@[elab_as_elim]
theorem Expr.induct {motive : Expr → Prop} (identifier : ∀ token, motive (.identifier token))
    (number : ∀ token value, motive (.number token value))
    (boolean : ∀ token, motive (.boolean token))
    (prefixed : ∀ operator operand span, motive operand → motive (.prefixed operator operand span))
    (postfixed : ∀ operand operator span, motive operand →
      motive (.postfixed operand operator span))
    (binary : ∀ left operator right span, motive left → motive right →
      motive (.binary left operator right span))
    (assignment : ∀ target operator value span, motive target → motive value →
      motive (.assignment target operator value span))
    (grouping : ∀ token inner span, motive inner → motive (.grouping token inner span))
    (call : ∀ token callee arguments span, motive callee → (∀ e ∈ arguments, motive e) →
      motive (.call token callee arguments span))
    (index : ∀ token target place span, motive target → motive place →
      motive (.index token target place span))
    (member : ∀ token target name span, motive target → motive (.member token target name span))
    (e : Expr) : motive e :=
  @Expr.rec motive (fun es => ∀ e ∈ es, motive e) identifier number boolean prefixed postfixed
    binary assignment grouping call index member (by simp)
    (fun e es he hes => List.forall_mem_cons.mpr ⟨he, hes⟩) e

theorem Expr.relabelAll_eq_map (r : Relabelling) (es : List Expr) :
    Expr.relabelAll r es = es.map (Expr.relabel r) := by
  induction es with
  | nil => rfl
  | cons e es ih => rw [Expr.relabelAll, ih, List.map_cons]

theorem Stmt.relabelAll_eq_map (r : Relabelling) (ss : List Stmt) :
    Stmt.relabelAll r ss = ss.map (Stmt.relabel r) := by
  induction ss with
  | nil => rfl
  | cons s ss ih => rw [Stmt.relabelAll, ih, List.map_cons]

@[simp]
theorem Expr.token_relabel (r : Relabelling) (e : Expr) :
    (e.relabel r).token = r.token e.token := by
  cases e <;> rfl

@[simp]
theorem Expr.isAssignable_relabel (r : Relabelling) (e : Expr) :
    (e.relabel r).isAssignable = e.isAssignable := by
  cases e <;> rfl

theorem Expr.span_relabel_placed (start stop : Position → Position) (e : Expr) :
    (e.relabel (.placed start stop)).span = (Relabelling.placed start stop).span e.span := by
  cases e <;> rfl

/-! ## One relabelling behind another -/

/-- Relabels by `r` and then by `r'`. -/
def Relabelling.then (r r' : Relabelling) : Relabelling where
  token := r'.token ∘ r.token
  span := r'.span ∘ r.span

section Composed

variable (r r' : Relabelling)

theorem Expr.relabel_relabel (e : Expr) : (e.relabel r).relabel r' = e.relabel (r.then r') := by
  induction e using Expr.induct with
  | call token callee arguments span ih ihs =>
      have harguments : (arguments.map (Expr.relabel r)).map (Expr.relabel r') =
          arguments.map (Expr.relabel (r.then r')) := by
        rw [List.map_map]
        exact List.map_congr_left ihs
      simp only [Expr.relabel, Expr.relabelAll_eq_map, ih, harguments]
      rfl
  | identifier | number | boolean => rfl
  | prefixed _ _ _ ih | postfixed _ _ _ ih | grouping _ _ _ ih | member _ _ _ _ ih =>
      rw [Expr.relabel, Expr.relabel, Expr.relabel, ih]
      rfl
  | binary _ _ _ _ ih ih' | assignment _ _ _ _ ih ih' | index _ _ _ _ ih ih' =>
      rw [Expr.relabel, Expr.relabel, Expr.relabel, ih, ih']
      rfl

mutual

theorem Stmt.relabel_relabel (s : Stmt) : (s.relabel r).relabel r' = s.relabel (r.then r') := by
  match s with
  | .expression token value span =>
      rw [Stmt.relabel, Stmt.relabel, Stmt.relabel, value.relabel_relabel]
      rfl
  | .block block => rw [Stmt.relabel, Stmt.relabel, Stmt.relabel, block.relabel_relabel]
  | .declaration token name type value span =>
      rw [Stmt.relabel, Stmt.relabel, Stmt.relabel, value.relabel_relabel]
      rfl
  | .return_ token none span => rfl
  | .return_ token (some value) span =>
      rw [Stmt.relabel, Stmt.relabel, Stmt.relabel, Option.map_some, Option.map_some,
        Option.map_some, value.relabel_relabel]
      rfl
  | .function token name parameters result? body span =>
      rw [Stmt.relabel, Stmt.relabel, Stmt.relabel, body.relabel_relabel, List.map_map]
      rfl
  | .conditional branch => rw [Stmt.relabel, Stmt.relabel, Stmt.relabel, branch.relabel_relabel]
  | .while_ token condition body span =>
      rw [Stmt.relabel, Stmt.relabel, Stmt.relabel, condition.relabel_relabel,
        body.relabel_relabel]
      rfl
  | .loop token body span =>
      rw [Stmt.relabel, Stmt.relabel, Stmt.relabel, body.relabel_relabel]
      rfl

theorem Block.relabel_relabel (b : Block) : (b.relabel r).relabel r' = b.relabel (r.then r') := by
  match b with
  | .mk token body span =>
      rw [Block.relabel, Block.relabel, Block.relabel, Stmt.relabelAll_relabelAll body]
      rfl

theorem Conditional.relabel_relabel (branch : Conditional) :
    (branch.relabel r).relabel r' = branch.relabel (r.then r') := by
  match branch with
  | .mk token condition body otherwise span =>
      rw [Conditional.relabel, Conditional.relabel, Conditional.relabel,
        condition.relabel_relabel, body.relabel_relabel, otherwise.relabel_relabel]
      rfl

theorem Otherwise.relabel_relabel (otherwise : Otherwise) :
    (otherwise.relabel r).relabel r' = otherwise.relabel (r.then r') := by
  match otherwise with
  | .nothing => rfl
  | .block block =>
      rw [Otherwise.relabel, Otherwise.relabel, Otherwise.relabel, block.relabel_relabel]
  | .elif branch =>
      rw [Otherwise.relabel, Otherwise.relabel, Otherwise.relabel, branch.relabel_relabel]

theorem Stmt.relabelAll_relabelAll (ss : List Stmt) :
    Stmt.relabelAll r' (Stmt.relabelAll r ss) = Stmt.relabelAll (r.then r') ss := by
  match ss with
  | [] => rfl
  | s :: ss =>
      rw [Stmt.relabelAll, Stmt.relabelAll, Stmt.relabelAll, s.relabel_relabel,
        Stmt.relabelAll_relabelAll ss]

end

end Composed

/-! ## Moving nothing -/

theorem Expr.relabel_moved_id (e : Expr) : e.relabel (.moved id) = e := by
  induction e using Expr.induct with
  | call token callee arguments span ih ihs =>
      rw [Expr.relabel, ih, Expr.relabelAll_eq_map, List.map_congr_left ihs, List.map_id']
      rfl
  | identifier | number | boolean => rfl
  | prefixed _ _ _ ih | postfixed _ _ _ ih | grouping _ _ _ ih | member _ _ _ _ ih =>
      rw [Expr.relabel, ih]
      rfl
  | binary _ _ _ _ ih ih' | assignment _ _ _ _ ih ih' | index _ _ _ _ ih ih' =>
      rw [Expr.relabel, ih, ih']
      rfl

mutual

theorem Stmt.relabel_moved_id (s : Stmt) : s.relabel (.moved id) = s := by
  match s with
  | .expression token value span =>
      rw [Stmt.relabel, value.relabel_moved_id]
      rfl
  | .block block => rw [Stmt.relabel, block.relabel_moved_id]
  | .declaration token name type value span =>
      rw [Stmt.relabel, value.relabel_moved_id]
      rfl
  | .return_ token none span => rfl
  | .return_ token (some value) span =>
      rw [Stmt.relabel, Option.map_some, value.relabel_moved_id]
      rfl
  | .function token name parameters result? body span =>
      rw [Stmt.relabel, body.relabel_moved_id,
        show Parameter.relabel (.moved id) = id from rfl, List.map_id]
      rfl
  | .conditional branch => rw [Stmt.relabel, branch.relabel_moved_id]
  | .while_ token condition body span =>
      rw [Stmt.relabel, condition.relabel_moved_id, body.relabel_moved_id]
      rfl
  | .loop token body span =>
      rw [Stmt.relabel, body.relabel_moved_id]
      rfl

theorem Block.relabel_moved_id (b : Block) : b.relabel (.moved id) = b := by
  match b with
  | .mk token body span =>
      rw [Block.relabel, Stmt.relabelAll_moved_id body]
      rfl

theorem Conditional.relabel_moved_id (branch : Conditional) :
    branch.relabel (.moved id) = branch := by
  match branch with
  | .mk token condition body otherwise span =>
      rw [Conditional.relabel, condition.relabel_moved_id, body.relabel_moved_id,
        otherwise.relabel_moved_id]
      rfl

theorem Otherwise.relabel_moved_id (otherwise : Otherwise) :
    otherwise.relabel (.moved id) = otherwise := by
  match otherwise with
  | .nothing => rfl
  | .block block => rw [Otherwise.relabel, block.relabel_moved_id]
  | .elif branch => rw [Otherwise.relabel, branch.relabel_moved_id]

theorem Stmt.relabelAll_moved_id (ss : List Stmt) : Stmt.relabelAll (.moved id) ss = ss := by
  match ss with
  | [] => rfl
  | s :: ss => rw [Stmt.relabelAll, s.relabel_moved_id, Stmt.relabelAll_moved_id ss]

end

end Frontend
