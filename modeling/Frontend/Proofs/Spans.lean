import Frontend.Proofs.Slices

/-!
# Spans of nodes

Each node of a program lies on a stretch of the tokens of its source. Its span goes
from the start of the first of them to the end of the last, and the nodes below it
lie on parts of the stretch, one behind the other.

`Spells` knows all this of a tree and its tokens, form by form. Here it is put in one
way for all forms: a node has nodes below it, `Node.children`, and those are
`Arranged` over its tokens. What is said about spans follows from there on without
another look at the forms, by the order of the tokens alone.

Two forms do not tell from within which tokens they have taken. An expression that is a
statement may have a semicolon or none: it has taken the one behind it, at any depth, so
where it ends without one no semicolon follows (`Node.Ends`). And statements may be
missing from a block: where it ends is a matter of the braces of the source, and what it
has kept are statements that were read each by a call of its own, from all of their
tokens and no others (`Call.Spanned`).
-/

namespace Frontend

open Text

namespace Span

/-- The span lies within the other one. -/
def Inside (a b : Span) : Prop :=
  b.start.offset ≤ a.start.offset ∧ a.stop.offset ≤ b.stop.offset

/-- The span ends before the other one starts. -/
def Before (a b : Span) : Prop := a.stop.offset ≤ b.start.offset

end Span

/-- The tokens follow each other in the text. -/
structure InOrder (ts : List Token) : Prop where
  before : ts.Pairwise fun t u => t.span.Before u.span
  start_le : ∀ t ∈ ts, t.span.start.offset ≤ t.span.stop.offset

namespace InOrder

variable {ts us : List Token}

theorem of_stretch (h : InOrder ts) (hus : us <:+: ts) : InOrder us :=
  ⟨h.before.sublist hus.sublist, fun t ht => h.start_le t (hus.subset ht)⟩

/-- No token starts before the first one. -/
theorem head_le {first t : Token} (h : InOrder ts) (hfirst : ts.head? = some first) (ht : t ∈ ts) :
    first.span.start.offset ≤ t.span.start.offset := by
  obtain ⟨us, rfl⟩ := List.head?_eq_some_iff.mp hfirst
  rcases List.mem_cons.mp ht with rfl | hmem
  · exact Nat.le_refl _
  · have hstop : first.span.stop.offset ≤ t.span.start.offset :=
      List.rel_of_pairwise_cons h.before hmem
    exact Nat.le_trans (h.start_le first List.mem_cons_self) hstop

/-- No token stops behind the last one. -/
theorem le_getLast {last t : Token} (h : InOrder ts) (hlast : ts.getLast? = some last)
    (ht : t ∈ ts) : t.span.stop.offset ≤ last.span.stop.offset := by
  obtain ⟨us, rfl⟩ := List.getLast?_eq_some_iff.mp hlast
  rcases List.mem_append.mp ht with hmem | hmem
  · have hstart : t.span.stop.offset ≤ last.span.start.offset :=
      (List.pairwise_append.mp h.before).2.2 t hmem last (List.mem_singleton_self last)
    exact Nat.le_trans hstart (h.start_le last (List.mem_append_right _ (.head _)))
  · obtain rfl := List.mem_singleton.mp hmem
    exact Nat.le_refl _

end InOrder

namespace Span.Covers

variable {a b : Span} {ts us : List Token}

/-- What lies on some of the tokens lies inside what reaches over all of them. -/
theorem inside_of_stretch (ha : a.Covers us) (hb : b.Covers ts) (hus : us <:+: ts)
    (hts : InOrder ts) : a.Inside b := by
  obtain ⟨first, last, hfirst, hlast, rfl⟩ := ha
  obtain ⟨first', last', hfirst', hlast', rfl⟩ := hb
  have hmem : ∀ t ∈ us, t ∈ ts := fun t ht => hus.subset ht
  exact ⟨hts.head_le hfirst' (hmem _ (List.mem_of_head? hfirst)),
    hts.le_getLast hlast' (hmem _ (List.mem_of_getLast? hlast))⟩

theorem singleton (t : Token) : t.span.Covers [t] := ⟨t, t, rfl, rfl, rfl⟩

theorem inside_of_mem {t : Token} (ht : t ∈ ts) (hb : b.Covers ts) (hts : InOrder ts) :
    t.span.Inside b := by
  obtain ⟨us, vs, rfl⟩ := List.append_of_mem ht
  exact (singleton t).inside_of_stretch hb ⟨us, vs, by simp⟩ hts

/-- What lies on tokens in front of others comes before what lies on those. -/
theorem before {vs : List Token} (ha : a.Covers ts) (hb : b.Covers us) (hus : us ⊆ vs)
    (h : InOrder (ts ++ vs)) : a.Before b := by
  obtain ⟨-, last, -, hlast, rfl⟩ := ha
  obtain ⟨first, -, hfirst, -, rfl⟩ := hb
  exact (List.pairwise_append.mp h.before).2.2 last (List.mem_of_getLast? hlast) first
    (hus (List.mem_of_head? hfirst))

/-- The tokens of a stretch are those within its ends, if no token is empty. -/
theorem eq_filter (ha : a.Covers us) (hus : us <:+: ts) (hts : InOrder ts)
    (hlt : ∀ t ∈ ts, t.span.start.offset < t.span.stop.offset) :
    us = ts.filter fun t =>
      a.start.offset ≤ t.span.start.offset ∧ t.span.stop.offset ≤ a.stop.offset := by
  have hinside : ∀ t ∈ us, t.span.Inside a := fun t ht =>
    inside_of_mem ht ha (hts.of_stretch hus)
  obtain ⟨first, last, hfirst, hlast, rfl⟩ := ha
  obtain ⟨pre, post, rfl⟩ := hus
  rw [List.append_assoc] at hts hlt
  have hpre : ∀ t ∈ pre, t.span.stop.offset ≤ first.span.start.offset := fun t ht =>
    (List.pairwise_append.mp hts.before).2.2 t ht first
      (List.mem_append_left _ (List.mem_of_head? hfirst))
  have hpost : ∀ t ∈ post, last.span.stop.offset ≤ t.span.start.offset :=
    (List.pairwise_append.mp (List.pairwise_append.mp hts.before).2.1).2.2 last
      (List.mem_of_getLast? hlast)
  rw [List.filter_append, List.filter_append, List.filter_eq_nil_iff.mpr fun t ht => ?_,
    List.filter_eq_self.mpr fun t ht => ?_, List.filter_eq_nil_iff.mpr fun t ht => ?_]
  · simp
  · have := hpost t ht
    have := hlt t (by simp [ht])
    simp only [decide_eq_true_eq]
    omega
  · exact decide_eq_true (hinside t ht)
  · have := hpre t ht
    have := hlt t (by simp [ht])
    simp only [decide_eq_true_eq]
    omega

end Span.Covers

/-! ## Nodes -/

/-- The name as an expression. -/
def Token.toExpr (name : Token) : Expr := .identifier name

/-- The expressions that an expression is made of, in the order of the source. -/
def Expr.children : Expr → List Expr
  | identifier _ | number .. | boolean _ => []
  | prefixed _ operand _ | postfixed operand _ _ | grouping _ operand _ => [operand]
  | binary left _ right _ => [left, right]
  | assignment target _ value _ => [target, value]
  | call _ callee arguments _ => callee :: arguments
  | index _ target place _ => [target, place]
  | member _ target name _ => [target, name.toExpr]

/-- A node of a program. Blocks and conditionals are statements, names are
expressions. -/
inductive Node where
  | expr (e : Expr)
  | stmt (s : Stmt)

namespace Node

def span : Node → Span
  | expr e => e.span
  | stmt s => s.span

def token : Node → Token
  | expr e => e.token
  | stmt s => s.token

def name (token : Token) : Node := expr token.toExpr

/-- What follows the block of a conditional. -/
def ofOtherwise : Otherwise → List Node
  | .nothing => []
  | .block block => [stmt (.block block)]
  | .elif branch => [stmt (.conditional branch)]

/-- The nodes that a node is made of, in the order of the source. -/
def children : Node → List Node
  | expr e => e.children.map expr
  | stmt (.expression _ value _) => [expr value]
  | stmt (.block block) => block.body.map stmt
  | stmt (.declaration _ token _ value _) => [name token, expr value]
  | stmt (.return_ _ value? _) => value?.toList.map expr
  | stmt (.function _ token parameters _ body _) =>
      (token :: parameters.map (·.name)).map name ++ [stmt (.block body)]
  | stmt (.conditional branch) =>
      expr branch.condition :: stmt (.block branch.body) :: ofOtherwise branch.otherwise
  | stmt (.while_ _ condition body _) => [expr condition, stmt (.block body)]
  | stmt (.loop _ body _) => [stmt (.block body)]

/-- The node itself and the nodes below it, at any depth. -/
inductive Below : Node → Node → Prop
  | refl (n : Node) : Below n n
  | step {n m k : Node} (hm : m ∈ n.children) (h : Below m k) : Below n k

/-- The blocks of a node. -/
def blocks : Node → List Block
  | expr _ => []
  | stmt s => s.blocks

theorem mem_blocks_of_mem_blocksAll {s : Stmt} {ss : List Stmt} {b : Block} (hs : s ∈ ss)
    (hb : b ∈ s.blocks) : b ∈ Stmt.blocksAll ss := by
  induction hs with
  | head => exact List.mem_append_left _ hb
  | tail _ _ ih => exact List.mem_append_right _ ih

theorem blocks_subset_of_mem_children {n : Node} {s : Stmt} (hs : stmt s ∈ n.children) :
    s.blocks ⊆ n.blocks := by
  match n with
  | expr e => simp [children] at hs
  | stmt (.expression ..) | stmt (.declaration ..) | stmt (.return_ ..) =>
      simp [children, name] at hs
  | stmt (.block (.mk _ body _)) =>
      have hmem : s ∈ body := by simpa [children, Block.body] using hs
      exact fun b hb => List.mem_cons_of_mem _ (mem_blocks_of_mem_blocksAll hmem hb)
  | stmt (.function _ _ _ _ body _) | stmt (.while_ _ _ body _) | stmt (.loop _ body _) =>
      obtain rfl : s = .block body := by simpa [children, name] using hs
      exact List.Subset.refl _
  | stmt (.conditional (.mk _ _ body otherwise _)) =>
      have hcases : s = .block body ∨ stmt s ∈ ofOtherwise otherwise := by
        simpa [children, Conditional.body, Conditional.otherwise] using hs
      rcases hcases with rfl | hmem
      · exact List.subset_append_left _ _
      · cases otherwise with
        | nothing => cases hmem
        | block block =>
            obtain rfl : s = .block block := by simpa [ofOtherwise] using hmem
            exact List.subset_append_right _ _
        | elif branch =>
            obtain rfl : s = .conditional branch := by simpa [ofOtherwise] using hmem
            exact List.subset_append_right _ _

theorem Below.child {n m k : Node} (h : n.Below m) (hk : k ∈ m.children) : n.Below k := by
  induction h with
  | refl => exact .step hk (.refl k)
  | step hm _ ih => exact .step hm (ih hk)

theorem Below.blocks_subset {n m : Node} (h : n.Below m) : m.blocks ⊆ n.blocks := by
  induction h with
  | refl => exact List.Subset.refl _
  | @step n m k hm _ ih =>
      cases m with
      | expr e =>
          rw [List.subset_nil.mp ih]
          exact List.nil_subset _
      | stmt s => exact List.Subset.trans ih (blocks_subset_of_mem_children hm)

end Node

/-! ## Nodes over tokens -/

theorem Expr.Spells.covers {e : Expr} {ts : List Token} (h : e.Spells ts) : e.span.Covers ts := by
  obtain ⟨first, us, rfl, hstart⟩ := h.start_eq
  obtain ⟨vs, last, hlast, hstop⟩ := h.stop_eq
  refine ⟨first, last, List.head?_cons, ?_, ?_⟩
  · rw [hlast, List.getLast?_concat]
  · rw [← hstart, ← hstop]

theorem Expr.Spells.token_mem {e : Expr} {ts : List Token} (h : e.Spells ts) : e.token ∈ ts := by
  cases h <;> simp [token]

theorem Block.Spells.token_mem {b : Block} {ts : List Token} {n : Nat} (h : b.Spells ts n) :
    b.token ∈ ts := by
  cases h
  exact List.mem_cons_self

theorem Conditional.Spells.token_mem {branch : Conditional} {ts : List Token} {n : Nat}
    (h : branch.Spells ts n) : branch.token ∈ ts := by
  cases h
  exact List.mem_cons_self

theorem Stmt.Spells.token_mem {s : Stmt} {ts : List Token} {n : Nat} (h : s.Spells ts n) :
    s.token ∈ ts := by
  cases h with
  | expression | terminated | returnNone | returnSome | while_ | loop => exact List.mem_cons_self
  | block h => exact h.token_mem
  | conditional _ h => exact h.token_mem
  | declaration _ _ hb _ _ _ _ | function _ _ _ hb _ _ =>
      obtain ⟨_, us, rfl, -, rfl⟩ := List.forall₂_cons_left_iff.mp hb
      exact List.mem_append_left _ List.mem_cons_self

theorem Block.mem_blocks_self (b : Block) : b ∈ b.blocks := by
  cases b
  exact List.mem_cons_self

namespace Node

/-- The node is the tree over these tokens. -/
def Spells : Node → List Token → Prop
  | expr e, ts => e.Spells ts
  | stmt (.conditional branch), ts => ∃ n, branch.Spells ts n
  | stmt s, ts => ∃ n, s.Spells ts n

theorem spells_stmt {s : Stmt} {ts : List Token} {n : Nat} (h : s.Spells ts n) :
    (stmt s).Spells ts := by
  cases s with
  | conditional branch =>
      cases h with
      | conditional _ h => exact ⟨n, h⟩
  | _ => exact ⟨n, h⟩

/-- A conditional within a chain is no statement of its own. -/
theorem spells_stmt_cases {s : Stmt} {ts : List Token} (h : (stmt s).Spells ts) :
    (∃ n, s.Spells ts n) ∨ ∃ branch n, s = .conditional branch ∧ branch.Spells ts n := by
  cases s with
  | conditional branch =>
      obtain ⟨n, h⟩ := h
      exact .inr ⟨branch, n, rfl, h⟩
  | _ => exact .inl h

/-- The span of a node goes from its first token to its last. -/
theorem Spells.covers {n : Node} {ts : List Token} (h : n.Spells ts) : n.span.Covers ts := by
  cases n with
  | expr e => exact Expr.Spells.covers h
  | stmt s =>
      rcases spells_stmt_cases h with ⟨_, hs⟩ | ⟨branch, _, rfl, hbranch⟩
      · exact hs.covers
      · exact hbranch.covers

/-- The token of a node is one of its tokens. -/
theorem Spells.token_mem {n : Node} {ts : List Token} (h : n.Spells ts) : n.token ∈ ts := by
  cases n with
  | expr e => exact Expr.Spells.token_mem h
  | stmt s =>
      rcases spells_stmt_cases h with ⟨_, hs⟩ | ⟨branch, _, rfl, hbranch⟩
      · exact hs.token_mem
      · exact hbranch.token_mem

/-- The node, which lies on the tokens `ts`, has ended in front of the tokens `us`. What
follows matters to statements only. -/
def Ends : Node → List Token → List Token → Prop
  | expr _, _, _ => True
  | stmt _, ts, us => Complete ts us

/-- A block ends with its brace, whatever follows. -/
theorem ends_of_closesBlock {ts : List Token} (h : ClosesBlock ts) (s : Stmt) (us : List Token) :
    (stmt s).Ends ts us :=
  .inl h.delimited

/-- The nodes lie on parts of the tokens, one behind the other, and each of them has ended
where its part does, whatever follows the tokens. -/
inductive Arranged : List Node → List Token → Prop
  | nil (ts : List Token) : Arranged [] ts
  | cons {n : Node} {ns : List Node} {us vs : List Token} (ts : List Token) (h : n.Spells us)
      (he : ∀ ws, n.Ends us (vs ++ ws)) (hs : Arranged ns vs) :
      Arranged (n :: ns) (ts ++ (us ++ vs))

namespace Arranged

variable {n : Node} {ns ms : List Node} {ts us : List Token}

theorem one (h : n.Spells ts) (he : ∀ us, n.Ends ts us) : Arranged [n] ts := by
  have h : Arranged [n] ([] ++ (ts ++ [])) := cons [] h he (nil [])
  rwa [List.nil_append, List.append_nil] at h

theorem expr {e : Expr} (h : e.Spells ts) : Arranged [.expr e] ts := one h fun _ => trivial

theorem block {b : Block} {k : Nat} (h : b.Spells ts k) : Arranged [.stmt (.block b)] ts :=
  one (spells_stmt (.block h)) (ends_of_closesBlock h.closesBlock _)

theorem branch {c : Conditional} {k : Nat} (h : c.Spells ts k) :
    Arranged [.stmt (.conditional c)] ts :=
  one ⟨k, h⟩ (ends_of_closesBlock h.closesBlock _)

theorem name (t : Token) : Arranged [.name t] [t] := expr (.identifier t)

theorem prepend (h : Arranged ns ts) (us : List Token) : Arranged ns (us ++ ts) := by
  cases h with
  | nil => exact nil _
  | cons ts h he hs =>
      rw [← List.append_assoc]
      exact cons _ h he hs

theorem append (h : Arranged ns ts) (h' : Arranged ms us) : Arranged (ns ++ ms) (ts ++ us) := by
  induction h with
  | nil ts => exact h'.prepend ts
  | cons ts h he _ ih =>
      rw [List.append_assoc, List.append_assoc]
      refine cons ts h (fun ws => ?_) ih
      rw [List.append_assoc]
      exact he _

theorem concat (h : Arranged ns ts) (us : List Token) : Arranged ns (ts ++ us) := by
  have h := h.append (nil us)
  rwa [List.append_nil] at h

theorem exists_stretch (h : Arranged ns ts) (hn : n ∈ ns) :
    ∃ pre us post, ts = pre ++ (us ++ post) ∧ n.Spells us ∧ ∀ ws, n.Ends us (post ++ ws) := by
  induction h with
  | nil => cases hn
  | @cons m ns us vs ts h he _ ih =>
      rcases List.mem_cons.mp hn with rfl | hn
      · exact ⟨ts, us, vs, rfl, h, he⟩
      · obtain ⟨pre, ws, post, rfl, hspells, hends⟩ := ih hn
        exact ⟨ts ++ (us ++ pre), ws, post, by simp, hspells, hends⟩

/-- The spans follow each other as the nodes do. -/
theorem pairwise (h : Arranged ns ts) (hts : InOrder ts) :
    ns.Pairwise fun n m => n.span.Before m.span := by
  induction h with
  | nil => exact .nil
  | @cons n ns us vs ts h _ hs ih =>
      have hbehind := hts.of_stretch (List.suffix_append ts (us ++ vs)).isInfix
      refine .cons (fun m hm => ?_) (ih (hbehind.of_stretch (List.suffix_append _ _).isInfix))
      obtain ⟨pre, ws, post, rfl, hspells, -⟩ := hs.exists_stretch hm
      exact h.covers.before hspells.covers (fun t ht => by simp [ht]) hbehind

end Arranged

end Node

/-! ## The forms -/

open Node (Arranged)

mutual

theorem Expr.SpellsArguments.arranged {es : List Expr} {ts : List Token}
    (h : Expr.SpellsArguments es ts) : Arranged (es.map .expr) ts := by
  match h with
  | .none => exact .nil _
  | .some h hs => exact (Arranged.expr h).append hs.arranged

theorem Expr.SpellsMore.arranged {es : List Expr} {ts : List Token}
    (h : Expr.SpellsMore es ts) : Arranged (es.map .expr) ts := by
  match h with
  | .nil => exact .nil _
  | .cons _ h hs => exact ((Arranged.expr h).append hs.arranged).prepend [_]

end

/-- A statement in front of others, all of them in front of a token that is no
semicolon. -/
theorem Node.Arranged.keep {s : Stmt} {ns : List Node} {ts us : List Token} {k : Nat}
    {closing : Token} (h : s.Spells ts k) (he : Complete ts us)
    (hc : closing.kind ≠ .symbol .semicolon) (hs : Arranged ns (us ++ [closing])) :
    Arranged (.stmt s :: ns) (ts ++ us ++ [closing]) := by
  have hend : ∀ ws, (Node.stmt s).Ends ts (us ++ [closing] ++ ws) := by
    refine fun ws => he.imp id fun hopen t ht => ?_
    cases us with
    | nil =>
        obtain rfl : closing = t := by simpa using ht
        exact hc
    | cons u us => exact hopen t ht
  have h := cons [] (spells_stmt h) hend hs
  rwa [List.nil_append, ← List.append_assoc] at h

theorem Stmt.SpellsAll.arranged {ss : List Stmt} {ts : List Token} {n : Nat} {closing : Token}
    (h : Stmt.SpellsAll ss ts n) (hc : closing.kind ≠ .symbol .semicolon) :
    Arranged (ss.map .stmt) (ts ++ [closing]) := by
  match h with
  | .keep h he hs => exact .keep h he hc (hs.arranged hc)
  | .drop _ _ hs =>
      rw [← List.cons_append, List.append_assoc]
      exact (hs.arranged hc).prepend _
  | .nil => exact .nil _

theorem Expr.Spells.arranged {e : Expr} {ts : List Token} (h : e.Spells ts) :
    Arranged (e.children.map .expr) ts := by
  cases h with
  | identifier | number | boolean => exact .nil _
  | prefixed h => exact (Arranged.expr h).prepend [_]
  | postfixed h => exact (Arranged.expr h).concat [_]
  | binary hl hr => exact (Arranged.expr hl).append ((Arranged.expr hr).prepend [_])
  | assignment ht hv => exact (Arranged.expr ht).append ((Arranged.expr hv).prepend [_])
  | grouping h _ => exact ((Arranged.expr h).concat [_]).prepend [_]
  | call h ha _ => exact (Arranged.expr h).append ((ha.arranged.concat [_]).prepend [_])
  | index h hp _ => exact (Arranged.expr h).append (((Arranged.expr hp).concat [_]).prepend [_])
  | member h => exact (Arranged.expr h).append ((Arranged.name _).prepend [_])

/-- Tokens that the tree keeps are found in the text. -/
theorem Slot.sublist_of_matches {slots : List Slot} {names ts : List Token}
    (h : List.Forall₂ Matches slots ts) (hnames : (names.map kept).Sublist slots) :
    names.Sublist ts := by
  induction h generalizing names with
  | nil => simpa using hnames
  | @cons slot t slots ts hm _ ih =>
      cases names with
      | nil => exact List.nil_sublist _
      | cons name names =>
          rcases List.sublist_cons_iff.mp hnames with hrest | ⟨rest, heq, hrest⟩
          · exact (ih hrest).cons _
          · obtain ⟨rfl, rfl⟩ := List.cons.inj heq
            obtain rfl : t = name := hm
            exact (ih hrest).cons_cons _

/-- Names lie on tokens of their own. -/
theorem Node.Arranged.of_sublist {names ts : List Token} (h : names.Sublist ts) :
    Arranged (names.map Node.name) ts := by
  induction h with
  | slnil => exact .nil _
  | cons t _ ih => exact ih.prepend [t]
  | cons_cons t _ ih => exact (Arranged.name t).append ih

theorem Parameter.names_sublist (parameters : List Parameter) :
    ((parameters.map (·.name)).map Slot.kept).Sublist (flattenAll parameters) := by
  induction parameters using flattenAll.induct with
  | case1 => exact .slnil
  | case2 parameter => exact List.singleton_sublist.mpr List.mem_cons_self
  | case3 parameter next rest ih =>
      rw [flattenAll]
      exact (List.singleton_sublist.mpr List.mem_cons_self).append (ih.cons _)

theorem Stmt.name_sublist_binding (token name : Token) (type : PrimitiveType) :
    ([name].map Slot.kept).Sublist (binding token name type) :=
  ((List.nil_sublist _).cons_cons _).cons _

theorem Stmt.names_sublist_signature (token name : Token) (parameters : List Parameter)
    (result? : Option PrimitiveType) :
    ((name :: parameters.map (·.name)).map Slot.kept).Sublist
      (signature token name parameters result?) :=
  ((((Parameter.names_sublist parameters).trans (List.sublist_append_left _ _)).cons _).cons_cons
    _).cons _

theorem Block.Spells.arranged {b : Block} {ts : List Token} {n : Nat} (h : b.Spells ts n) :
    Arranged (b.body.map .stmt) ts := by
  cases h with
  | mk _ h hc _ => exact (h.arranged (by simp [hc])).prepend [_]

theorem Otherwise.Spells.arranged {otherwise : Otherwise} {ts : List Token} {n : Nat}
    (h : otherwise.Spells ts n) : Arranged (Node.ofOtherwise otherwise) ts := by
  cases h with
  | nothing => exact .nil _
  | block _ h => exact (Arranged.block h).prepend [_]
  | elif _ h => exact .branch h

theorem Conditional.Spells.arranged {branch : Conditional} {ts : List Token} {n : Nat}
    (h : branch.Spells ts n) : Arranged (Node.stmt (.conditional branch)).children ts := by
  cases h with
  | mk h _ hb ho _ =>
      exact ((Arranged.expr h).append ((Arranged.block hb).append ho.arranged)).prepend [_]

theorem Stmt.Spells.arranged {s : Stmt} {ts : List Token} {n : Nat} (h : s.Spells ts n) :
    Arranged (Node.stmt s).children ts := by
  cases h with
  | expression h _ _ => exact .expr h
  | terminated h _ _ _ => exact (Arranged.expr h).concat [_]
  | block h => exact h.arranged
  | declaration _ _ hb h _ _ _ =>
      have hname := Arranged.of_sublist (Slot.sublist_of_matches hb (name_sublist_binding ..))
      exact hname.append ((Arranged.expr h).concat [_])
  | returnNone _ _ _ => exact .nil _
  | returnSome _ h _ _ _ => exact ((Arranged.expr h).concat [_]).prepend [_]
  | function _ _ _ hb h _ =>
      have hnames := Arranged.of_sublist (Slot.sublist_of_matches hb (names_sublist_signature ..))
      exact hnames.append (.block h)
  | conditional _ h => exact h.arranged
  | while_ _ h _ hb _ =>
      exact ((Arranged.expr h).append (Arranged.block hb)).prepend [_]
  | loop _ h _ => exact (Arranged.block h).prepend [_]

/-- The nodes that a node is made of lie on parts of its tokens, one behind the
other. -/
theorem Node.Spells.arranged {n : Node} {ts : List Token} (h : n.Spells ts) :
    Arranged n.children ts := by
  cases n with
  | expr e => exact Expr.Spells.arranged h
  | stmt s =>
      rcases spells_stmt_cases h with ⟨_, hs⟩ | ⟨branch, _, rfl, hbranch⟩
      · exact hs.arranged
      · exact hbranch.arranged

/-- So do all the nodes below it, among tokens that it is a part of. -/
theorem Node.Below.exists_stretch {n m : Node} (h : n.Below m) (pre : List Token)
    {ts post : List Token} (hn : n.Spells ts) (he : n.Ends ts post) :
    ∃ left us right, pre ++ (ts ++ post) = left ++ (us ++ right) ∧ us <:+: ts ∧ m.Spells us ∧
      m.Ends us right := by
  induction h generalizing pre ts post with
  | refl => exact ⟨pre, ts, post, rfl, List.infix_rfl, hn, he⟩
  | step hm _ ih =>
      obtain ⟨left, us, right, rfl, hspells, hends⟩ := hn.arranged.exists_stretch hm
      obtain ⟨left', vs, right', heq, hvs, hbelow⟩ := ih (pre ++ left) hspells (hends post)
      refine ⟨left', vs, right', ?_, hvs.trans (List.infix_append' left us right), hbelow⟩
      rw [← heq]
      simp only [List.append_assoc]

/-! ## Nodes of sources -/

/-- The node lies on these tokens of the source, from the first to the last, and what
it is made of lies within, one behind the other. -/
structure Node.Placed (source file : String) (n : Node) (ts : List Token) : Prop where
  spells : n.Spells ts
  /-- A statement has taken the semicolon that stands behind it, if it could. -/
  inSource : ∃ pre post, sourceTokens source file = pre ++ (ts ++ post) ∧ n.Ends ts post
  covers : n.span.Covers ts
  start_lt_stop : n.span.start.offset < n.span.stop.offset
  token_mem : n.token ∈ ts
  token_inside : n.token.span.Inside n.span
  inside : ∀ m ∈ n.children, m.span.Inside n.span
  before : n.children.Pairwise fun m k => m.span.Before k.span
  /-- A block reaches from an opening brace to the one that closes it. -/
  braces : ∀ b ∈ n.blocks, ∃ pair ∈ (nesting (sourceTokens source file)).pairs, ∃ closing,
    (sourceTokens source file)[pair.1]? = some b.token ∧
      (sourceTokens source file)[pair.2]? = some closing ∧
      b.span = ⟨b.token.span.start, closing.span.stop⟩

theorem Node.Placed.isInfix {source file : String} {n : Node} {ts : List Token}
    (h : n.Placed source file ts) : ts <:+: sourceTokens source file := by
  obtain ⟨pre, post, hsource, -⟩ := h.inSource
  rw [hsource]
  exact List.infix_append' pre ts post

section Placed

variable {source : String} (hsize : byteSize source.toList < Position.limit) (file : String)

include hsize

theorem inOrder_sourceTokens : InOrder (sourceTokens source file) := by
  obtain ⟨hpairwise, hspan⟩ := sourceTokens_ordered hsize file
  exact ⟨hpairwise, fun t ht => Nat.le_of_lt (hspan t ht).1⟩

/-- The end of the source, taken for a token, follows the others. -/
theorem inOrder_sourceTokens_append (n : Nat) :
    InOrder (sourceTokens source file ++
      List.replicate n (Token.atEnd (byteSize source.toList) file)) := by
  obtain ⟨hpairwise, hspan⟩ := sourceTokens_ordered hsize file
  have hend : (Position.mark (byteSize source.toList) file).offset = byteSize source.toList :=
    Position.mark_offset hsize file
  refine ⟨List.pairwise_append.mpr ⟨hpairwise, ?_, fun t ht u hu => ?_⟩, fun t ht => ?_⟩
  · exact List.pairwise_replicate.mpr (.inr (Nat.le_refl _))
  · obtain rfl := List.eq_of_mem_replicate hu
    have hle : t.span.stop.offset ≤ (Position.mark (byteSize source.toList) file).offset := by
      rw [hend]
      exact (hspan t ht).2
    exact hle
  · rcases List.mem_append.mp ht with ht | ht
    · exact Nat.le_of_lt (hspan t ht).1
    · rw [List.eq_of_mem_replicate ht]
      exact Nat.le_refl _

theorem Node.Spells.placed {n : Node} {pre ts post : List Token} (h : n.Spells ts)
    (hsource : sourceTokens source file = pre ++ (ts ++ post)) (he : n.Ends ts post)
    (hblocks : ∀ b ∈ n.blocks, Fitted (.ofStream (.ofSource source file)) b) :
    n.Placed source file ts := by
  have hts : ts <:+: sourceTokens source file := hsource ▸ List.infix_append' pre ts post
  have horder := (inOrder_sourceTokens hsize file).of_stretch hts
  have hinside := Span.Covers.inside_of_mem h.token_mem h.covers horder
  have hlt : n.token.span.start.offset < n.token.span.stop.offset :=
    ((sourceTokens_ordered hsize file).2 _ (hts.subset h.token_mem)).1
  refine ⟨h, ⟨pre, post, hsource, he⟩, h.covers, ?_, h.token_mem, hinside, fun m hm => ?_,
    h.arranged.pairwise horder, fun b hb => (hblocks b hb).of_source⟩
  · exact Nat.lt_of_le_of_lt hinside.1 (Nat.lt_of_lt_of_le hlt hinside.2)
  · obtain ⟨left, us, right, rfl, hm, -⟩ := h.arranged.exists_stretch hm
    exact hm.covers.inside_of_stretch h.covers (List.infix_append' left us right) horder

/-- The statements of a program follow each other. -/
theorem pairwise_before_of_stmtsRead {ss : List Stmt} {q : Parser}
    (h : Parser.StmtsRead (.ofStream (.ofSource source file)) ss q)
    (hend : q.current.kind = .eof) : ss.Pairwise fun s s' => s.span.Before s'.span := by
  obtain ⟨ts, ds, hspells, hw⟩ := h
  have htape := hw.upcoming
  rw [upcoming_ofSource] at htape
  obtain ⟨n, rfl⟩ := eq_append_replicate_of_append_eq
    (show q.upcoming.head.kind = .eof from hend) kind_ne_eof_of_mem_sourceTokens htape
  have horder := inOrder_sourceTokens_append hsize file (n + 1)
  rw [List.replicate_succ', ← List.append_assoc] at horder
  have hnodes := (hspells.arranged (by simp [Token.atEnd])).pairwise horder
  exact (List.pairwise_map (R := fun n m : Node => n.span.Before m.span)).mp hnodes

end Placed

/-- The statement lies on the tokens that its call has passed, all of them, and each node
below it, at any depth, on some of these. -/
structure Call.Spanned (source file : String) (call : Call) (ts : List Token) : Prop where
  reads : ∃ ds, Reads ts ds call.start call.stop ∧ call.statement.Spells ts ds.length
  placed : (Node.stmt call.statement).Placed source file ts
  below : ∀ n, (Node.stmt call.statement).Below n → ∃ us, us <:+: ts ∧ n.Placed source file us

section Calls

variable {source file : String} (hsize : byteSize source.toList < Position.limit) {call : Call}

include hsize

theorem Call.Within.spanned {q : Parser} (h : call.Within (.ofStream (.ofSource source file)) q) :
    ∃ ts, call.Spanned source file ts := by
  have hfresh := Parser.fresh_ofSource hsize file
  have hfitted : ∀ b ∈ call.statement.blocks, Fitted (.ofStream (.ofSource source file)) b :=
    fun b hb => (h.filled hfresh b hb).fitted
  obtain ⟨ts, ds, hspells, hreads, hend⟩ := h.stmtRead hfresh
  obtain ⟨base, hnested⟩ := h.nested
  obtain ⟨pre, vs, hsource, hnext⟩ := Parser.exists_sourceTokens_eq hnested hspells hreads
  have hends : (Node.stmt call.statement).Ends ts vs :=
    hend.imp id fun hopen t ht => hnext t ht ▸ hopen call.stop.lookahead rfl
  have hnode := Node.spells_stmt hspells
  refine ⟨ts, ⟨ds, hreads, hspells⟩, hnode.placed hsize file hsource hends hfitted, fun n hn => ?_⟩
  obtain ⟨left, us, right, heq, hus, hn', hends'⟩ := hn.exists_stretch pre hnode hends
  exact ⟨us, hus, hn'.placed hsize file (hsource.trans heq) hends' fun b hb =>
    hfitted b (hn.blocks_subset hb)⟩

/-- Of the tokens of a source, a span covers only one stretch. -/
theorem Span.Covers.unique {a : Span} {us vs : List Token} (hus : a.Covers us) (hvs : a.Covers vs)
    (hu : us <:+: sourceTokens source file) (hv : vs <:+: sourceTokens source file) : us = vs := by
  have horder := inOrder_sourceTokens hsize file
  have hlt := fun t ht => ((sourceTokens_ordered hsize file).2 t ht).1
  rw [hus.eq_filter hu horder hlt, hvs.eq_filter hv horder hlt]

/-- A statement of a block takes its tokens from those of the statement around it. -/
theorem Call.Spanned.infix_of_mem {inner : Call} {ts us : List Token} {b : Block}
    (h : call.Spanned source file ts) (hb : (Node.stmt call.statement).Below (.stmt (.block b)))
    (hmem : inner.statement ∈ b.body) (hinner : inner.Spanned source file us) : us <:+: ts := by
  have hchild : Node.stmt inner.statement ∈ (Node.stmt (.block b)).children :=
    List.mem_map_of_mem hmem
  obtain ⟨vs, hvs, hplaced⟩ := h.below _ (hb.child hchild)
  rwa [hinner.placed.covers.unique hsize hplaced.covers hinner.placed.isInfix hplaced.isInfix]

end Calls

/-- Spans are exact and nested. Each statement of a program lies on the tokens that the
parse has passed while it was read, and each node below it, at any depth, on some of
these: its span reaches from the first to the last of its tokens, its own token and the
nodes it is made of lie inside, and those follow each other, as the statements of the
program do. The statements of a block, at any depth, have been read in their turn, and
the same is true of them. -/
theorem parse_spans {source : String} (hsize : byteSize source.toList < Position.limit)
    (file : String) :
    ∃ q calls, Parser.parseProgram (.ofStream (.ofSource source file)) =
        .ok (parse source file).1 q ∧
      Parser.Turns (.ofStream (.ofSource source file)) calls q ∧
      (parse source file).1.statements = calls.map (·.statement) ∧
      (parse source file).1.statements.Pairwise (fun s s' => s.span.Before s'.span) ∧
      ∀ call ∈ calls, ∃ ts, call.Spanned source file ts ∧
        ∀ b, (Node.stmt call.statement).Below (.stmt (.block b)) → ∀ s ∈ b.body,
          ∃ (inner : Call) (us : List Token), inner.statement = s ∧
            inner.Within (.ofStream (.ofSource source file)) call.stop ∧ us <:+: ts ∧
            inner.Spanned source file us := by
  have hfresh := Parser.fresh_ofSource hsize file
  obtain ⟨ss, q, hrun, hprogram, hss, hend⟩ := Parser.parseProgram_reads hfresh.plain
  have hparse : (parse source file).1 = ⟨ss⟩ := by rw [parse, parseStream, hprogram]
  obtain ⟨calls, hturns, hcalls⟩ := Parser.exists_turns hrun
  refine ⟨q, calls, by rw [hparse, hprogram], hturns, by rw [hparse, hcalls], ?_,
    fun call hcall => ?_⟩
  · rw [hparse]
    exact pairwise_before_of_stmtsRead hsize file hss hend
  obtain ⟨hnested, -, hstmt⟩ := hturns.nested hfresh (.refl hfresh) call hcall
  have hcall : call.Within (.ofStream (.ofSource source file)) call.stop :=
    ⟨⟨[], hnested⟩, ⟨_, .parseBlock, hstmt⟩, List.suffix_rfl⟩
  obtain ⟨ts, hspanned⟩ := hcall.spanned hsize
  refine ⟨ts, hspanned, fun b hb s hs => ?_⟩
  obtain ⟨inner, rfl, hinner⟩ :=
    (hcall.filled hfresh b (hb.blocks_subset b.mem_blocks_self)).called s hs
  obtain ⟨us, hus⟩ := hinner.spanned hsize
  exact ⟨inner, us, rfl, hinner, hspanned.infix_of_mem hsize hb hs hus, hus⟩

/-- A chain of conditionals, expressions with and without a semicolon, and a block that has
lost a statement. -/
def nestedSpansSample : String :=
  "if a \x7b b; \x7d elif c \x7b \x7d d = -e[f.g](h, 1) loop \x7b var ; i j; \x7d"

theorem parse_spans_sample :
    byteSize nestedSpansSample.toList < Position.limit ∧
      ∃ q calls, Parser.parseProgram (.ofStream (.ofSource nestedSpansSample "a.x")) =
          .ok (parse nestedSpansSample "a.x").1 q ∧
        Parser.Turns (.ofStream (.ofSource nestedSpansSample "a.x")) calls q ∧
        (parse nestedSpansSample "a.x").1.statements = calls.map (·.statement) ∧
        (parse nestedSpansSample "a.x").1.statements.Pairwise
          (fun s s' => s.span.Before s'.span) ∧
        ∀ call ∈ calls, ∃ ts, call.Spanned nestedSpansSample "a.x" ts ∧
          ∀ b, (Node.stmt call.statement).Below (.stmt (.block b)) → ∀ s ∈ b.body,
            ∃ (inner : Call) (us : List Token), inner.statement = s ∧
              inner.Within (.ofStream (.ofSource nestedSpansSample "a.x")) call.stop ∧
              us <:+: ts ∧ inner.Spanned nestedSpansSample "a.x" us :=
  ⟨by decide, parse_spans (by decide) "a.x"⟩

end Frontend
