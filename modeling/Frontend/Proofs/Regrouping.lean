import Frontend.Proofs.Essence
import Frontend.Proofs.StmtExact

/-!
# The tree that is printed

Printing puts every operation in parentheses, every index and every member too,
and repeats none of the source. `regroup` makes the tree that has just these
parentheses. It says the same as the tree it is made from, and it respects
precedence for a simple reason: each operand in it is a leaf, a call or a
grouping, and those may stand anywhere (`Expr.wellFormed_regroup`). What is lost
is that an index or a member can be stored into, and `isReprintable` is there to
exclude it.
-/

namespace Frontend

def Token.openParen : Token := ⟨.symbol .openParen, "(", .blank⟩

def Expr.enclosed (e : Expr) : Expr := .grouping .openParen e .blank

def Expr.first : Expr → Token
  | .identifier token | .number token _ | .boolean token | .prefixed token _ _
  | .grouping token _ _ => token
  | .postfixed e _ _ | .binary e _ _ _ | .assignment e _ _ _ | .call _ e _ _ | .index _ e _ _
  | .member _ e _ _ => e.first

mutual

/-- The expression with the parentheses that printing gives it. -/
def Expr.regroup : Expr → Expr
  | .identifier token => .identifier token
  | .number token value => .number token value
  | .boolean token => .boolean token
  | .prefixed operator operand span => (Expr.prefixed operator operand.regroup span).enclosed
  | .postfixed operand operator span => (Expr.postfixed operand.regroup operator span).enclosed
  | .binary left operator right span =>
      (Expr.binary left.regroup operator right.regroup span).enclosed
  | .assignment target operator value span =>
      (Expr.assignment target.regroup operator value.regroup span).enclosed
  | .grouping _ inner _ => inner.regroup
  | .call token callee arguments span =>
      .call token callee.regroup (Expr.regroupAll arguments) span
  | .index token target place span =>
      (Expr.index token target.regroup place.regroup span).enclosed
  | .member token target name span => (Expr.member token target.regroup name span).enclosed

def Expr.regroupAll : List Expr → List Expr
  | [] => []
  | e :: es => e.regroup :: Expr.regroupAll es

end

mutual

/-- The statement with the parentheses that printing gives to its expressions. -/
def Stmt.regroup : Stmt → Stmt
  | .expression _ value span => .expression value.regroup.first value.regroup span
  | .block block => .block block.regroup
  | .declaration token name type value span => .declaration token name type value.regroup span
  | .return_ token value? span => .return_ token (value?.map Expr.regroup) span
  | .function token name parameters result? body span =>
      .function token name parameters result? body.regroup span
  | .conditional branch => .conditional branch.regroup
  | .while_ token condition body span => .while_ token condition.regroup body.regroup span
  | .loop token body span => .loop token body.regroup span

def Block.regroup : Block → Block
  | .mk token body span => .mk token (Stmt.regroupAll body) span

def Conditional.regroup : Conditional → Conditional
  | .mk token condition body otherwise span =>
      .mk token condition.regroup body.regroup otherwise.regroup span

def Otherwise.regroup : Otherwise → Otherwise
  | .nothing => .nothing
  | .block block => .block block.regroup
  | .elif branch => .elif branch.regroup

def Stmt.regroupAll : List Stmt → List Stmt
  | [] => []
  | s :: ss => s.regroup :: Stmt.regroupAll ss

end

def Program.regroup (program : Program) : Program := ⟨Stmt.regroupAll program.statements⟩

/-! ## The same essence -/

theorem Expr.regroupAll_eq_map (es : List Expr) : Expr.regroupAll es = es.map Expr.regroup := by
  induction es with
  | nil => rfl
  | cons e es ih => rw [Expr.regroupAll, ih, List.map_cons]

theorem Expr.essence_regroup (e : Expr) : e.regroup.essence = e.essence := by
  induction e using Expr.induct with
  | call token callee arguments span ihc iha =>
      have harguments : Expr.essences (Expr.regroupAll arguments) = Expr.essences arguments := by
        rw [Expr.essences_eq_map, Expr.essences_eq_map, Expr.regroupAll_eq_map, List.map_map]
        exact List.map_congr_left iha
      simp only [regroup, essence, ihc, harguments]
  | _ => simp_all only [regroup, enclosed, essence]

mutual

theorem Stmt.essence_regroup (s : Stmt) : s.regroup.essence = s.essence := by
  cases s with
  | expression token value span =>
      rw [Stmt.regroup, Stmt.essence, Stmt.essence, value.essence_regroup]
  | block block => rw [Stmt.regroup, Stmt.essence, Stmt.essence, block.essence_regroup]
  | declaration token name type value span =>
      rw [Stmt.regroup, Stmt.essence, Stmt.essence, value.essence_regroup]
  | return_ token value? span =>
      cases value? with
      | none => rfl
      | some value =>
          rw [Stmt.regroup, Stmt.essence, Stmt.essence, Option.map_some, Option.map_some,
            Option.map_some, value.essence_regroup]
  | function token name parameters result? body span =>
      rw [Stmt.regroup, Stmt.essence, Stmt.essence, body.essence_regroup]
  | conditional branch => rw [Stmt.regroup, Stmt.essence, Stmt.essence, branch.essence_regroup]
  | while_ token condition body span =>
      rw [Stmt.regroup, Stmt.essence, Stmt.essence, condition.essence_regroup,
        body.essence_regroup]
  | loop token body span => rw [Stmt.regroup, Stmt.essence, Stmt.essence, body.essence_regroup]

theorem Block.essence_regroup (b : Block) : b.regroup.essence = b.essence := by
  obtain ⟨token, body, span⟩ := b
  rw [Block.regroup, Block.essence, Block.essence, Stmt.essences_regroup body]

theorem Conditional.essence_regroup (branch : Conditional) :
    branch.regroup.essence = branch.essence := by
  obtain ⟨token, condition, body, otherwise, span⟩ := branch
  rw [Conditional.regroup, Conditional.essence, Conditional.essence, condition.essence_regroup,
    body.essence_regroup, otherwise.essence_regroup]

theorem Otherwise.essence_regroup (otherwise : Otherwise) :
    otherwise.regroup.essence = otherwise.essence := by
  cases otherwise with
  | nothing => rfl
  | block block =>
      rw [Otherwise.regroup, Otherwise.essence, Otherwise.essence, block.essence_regroup]
  | elif branch =>
      rw [Otherwise.regroup, Otherwise.essence, Otherwise.essence, branch.essence_regroup]

theorem Stmt.essences_regroup (ss : List Stmt) :
    Stmt.essences (Stmt.regroupAll ss) = Stmt.essences ss := by
  cases ss with
  | nil => rfl
  | cons s ss =>
      rw [Stmt.regroupAll, Stmt.essences, Stmt.essences, s.essence_regroup,
        Stmt.essences_regroup ss]

end

theorem Program.essence_regroup (program : Program) :
    program.regroup.essence = program.essence :=
  congrArg Program.mk (Stmt.essences_regroup program.statements)

/-! ## Precedence -/

namespace Expr

theorem flatten_eq_first (e : Expr) : ∃ slots, e.flatten = .kept e.first :: slots := by
  induction e using Expr.induct with
  | identifier | number | boolean | prefixed | grouping => exact ⟨_, rfl⟩
  | postfixed _ _ _ ih | binary _ _ _ _ ih | assignment _ _ _ _ ih | call _ _ _ _ ih
  | index _ _ _ _ ih | member _ _ _ _ ih =>
      obtain ⟨slots, hslots⟩ := ih
      exact ⟨_, by rw [flatten, hslots]; rfl⟩

theorem IsTarget.bindsAt {e : Expr} {power : Power} (h : e.IsTarget) (hp : power ≤ .call) :
    e.BindsAt power := by
  rcases h with h | h
  · exact .inl h.1
  · exact .inr (h.2 ▸ hp)

/-- Every operator is tight enough to be read on its own. -/
theorem binds_lowest {e : Expr} {power : Power} {rule : InfixRule}
    (h : e.token.kind.infixRule? = some (power, rule)) : e.Binds .lowest := by
  have hpower := Kind.hasPower_of_infixRule? h
  refine .inr ?_
  rw [Expr.power, Kind.power_of_infixRule? h, Power.lt_iff_rank_lt]
  cases rule with
  | binary => exact Nat.zero_lt_of_lt (InfixRule.hasPower_binary.mp hpower).1
  | assignment | postfixed | call | index | member =>
      obtain rfl := of_decide_eq_true hpower
      decide

theorem isTarget_enclosed (e : Expr) : e.enclosed.IsTarget := .inl ⟨rfl, rfl⟩

theorem wellFormed_enclosed {e : Expr} (h : e.Fits .lowest) : e.enclosed.WellFormed := ⟨rfl, h⟩

/-- An expression that can be stored into and is no part of anything is a name. -/
theorem regroup_eq_self {e : Expr} (ha : e.isAssignable) (hp : e.isPart = false) :
    e.regroup = e := by
  cases e with
  | identifier => rfl
  | index | member => cases hp
  | _ => cases ha

/-- With the parentheses that printing gives it, an expression can be an operand of
anything. -/
theorem wellFormed_regroup {e : Expr} (he : e.WellFormed) (hr : e.isReprintable) :
    e.regroup.IsTarget ∧ e.regroup.WellFormed := by
  induction e using Expr.induct with
  | identifier | number | boolean => exact ⟨.inl ⟨rfl, rfl⟩, he⟩
  | prefixed operator operand span ih =>
      obtain ⟨hrule, ⟨-, hw⟩, hstep⟩ := he
      rw [isReprintable, Bool.and_eq_true, Bool.not_eq_true', Bool.and_eq_false_iff] at hr
      obtain ⟨htarget, hoperand⟩ := ih hw hr.2
      refine ⟨isTarget_enclosed _, wellFormed_enclosed ⟨.inl rfl, hrule, ⟨?_, hoperand⟩, ?_⟩⟩
      · exact htarget.binds (by decide)
      · intro hs
        have hpart : operand.isPart = false := hr.1.resolve_left (by simp [hs])
        rw [regroup_eq_self (hstep hs) hpart]
        exact hstep hs
  | postfixed operand operator span ih =>
      obtain ⟨hrule, ⟨-, hw⟩, hassignable⟩ := he
      rw [isReprintable, Bool.and_eq_true, Bool.not_eq_true'] at hr
      refine ⟨isTarget_enclosed _, wellFormed_enclosed ⟨binds_lowest hrule, hrule, ih hw hr.2, ?_⟩⟩
      rw [regroup_eq_self hassignable hr.1]
      exact hassignable
  | binary left operator right span ihl ihr =>
      obtain ⟨hrule, ⟨-, hleft⟩, -, hright⟩ := he
      rw [isReprintable, Bool.and_eq_true] at hr
      obtain ⟨htarget, hleft⟩ := ihl hleft hr.1
      obtain ⟨htarget', hright⟩ := ihr hright hr.2
      have hpower := InfixRule.hasPower_binary.mp (Kind.hasPower_of_infixRule? hrule)
      have hcall : Rules.standard.power operator.kind < .call := by
        rw [Power.lt_iff_rank_lt, show Power.rank .call = 13 from rfl]
        omega
      refine ⟨isTarget_enclosed _, wellFormed_enclosed ⟨binds_lowest hrule, hrule, ?_, ?_⟩⟩
      · exact ⟨htarget.bindsAt (Nat.le_of_lt hcall), hleft⟩
      · exact ⟨htarget'.binds hcall, hright⟩
  | assignment target operator value span iht ihv =>
      obtain ⟨hrule, ⟨hassignable, htarget⟩, -, hvalue⟩ := he
      rw [isReprintable, Bool.and_eq_true, Bool.and_eq_true, Bool.not_eq_true'] at hr
      obtain ⟨hbinds, hvalue⟩ := ihv hvalue hr.2
      refine ⟨isTarget_enclosed _, wellFormed_enclosed ⟨binds_lowest hrule, hrule, ?_, ?_⟩⟩
      · rw [regroup_eq_self hassignable hr.1.1]
        exact ⟨hassignable, htarget⟩
      · exact ⟨hbinds.binds (by decide), hvalue⟩
  | grouping t inner span ih => exact ih he.2.2 hr
  | call t callee arguments span ihc iha =>
      obtain ⟨hkind, ⟨-, hw⟩, hall⟩ := he
      rw [isReprintable, Bool.and_eq_true] at hr
      have harguments : AllFit (regroupAll arguments) := by
        replace hr := hr.2
        induction arguments with
        | nil => trivial
        | cons e es ihes =>
            rw [List.forall_mem_cons] at iha
            rw [areReprintable, Bool.and_eq_true] at hr
            obtain ⟨htarget, he⟩ := iha.1 hall.1.2 hr.1
            exact ⟨⟨htarget.binds (by decide), he⟩, ihes iha.2 hall.2 hr.2⟩
      exact ⟨.inr ⟨rfl, congrArg Rules.standard.power hkind⟩, hkind, ihc hw hr.1, harguments⟩
  | index t target place span iht ihp =>
      obtain ⟨hkind, ⟨-, hw⟩, -, hplace⟩ := he
      rw [isReprintable, Bool.and_eq_true] at hr
      obtain ⟨htarget', hplace⟩ := ihp hplace hr.2
      have hbinds := binds_lowest (e := .index t target.regroup place.regroup span)
        (congrArg Kind.infixRule? hkind)
      refine ⟨isTarget_enclosed _, wellFormed_enclosed ⟨hbinds, hkind, iht hw hr.1, ?_⟩⟩
      exact ⟨htarget'.binds (by decide), hplace⟩
  | member t target name span ih =>
      obtain ⟨hkind, ⟨-, hw⟩, hname⟩ := he
      rw [isReprintable, Bool.and_eq_true] at hr
      have hbinds := binds_lowest (e := .member t target.regroup name span)
        (congrArg Kind.infixRule? hkind)
      exact ⟨isTarget_enclosed _, wellFormed_enclosed ⟨hbinds, hkind, ih hw hr.2, hname⟩⟩

theorem fits_regroup {e : Expr} (he : e.Fits .lowest) (hr : e.isReprintable) :
    e.regroup.Fits .lowest :=
  let ⟨htarget, hw⟩ := wellFormed_regroup he.2 hr
  ⟨htarget.binds (by decide), hw⟩

end Expr

mutual

theorem Stmt.wellFormed_regroup {s : Stmt} (hs : s.WellFormed) (hr : s.isReprintable) :
    s.regroup.WellFormed := by
  match s with
  | .expression token value span =>
      obtain ⟨slots, hslots⟩ := value.regroup.flatten_eq_first
      exact ⟨Expr.fits_regroup hs.1 hr, by rw [hslots]; rfl⟩
  | .block block => exact Block.wellFormed_regroup hs hr
  | .declaration token name type value span => exact ⟨hs.1, hs.2.1, Expr.fits_regroup hs.2.2 hr⟩
  | .return_ token none span => exact hs
  | .return_ token (some value) span => exact ⟨hs.1, Expr.fits_regroup hs.2 hr⟩
  | .function token name parameters result? body span =>
      exact ⟨hs.1, hs.2.1, hs.2.2.1, Block.wellFormed_regroup hs.2.2.2 hr⟩
  | .conditional (.mk token condition body otherwise span) =>
      exact ⟨hs.1, Conditional.wellFormed_regroup hs.2 hr⟩
  | .while_ token condition body span =>
      rw [Stmt.isReprintable, Bool.and_eq_true] at hr
      exact ⟨hs.1, Expr.fits_regroup hs.2.1 hr.1, Block.wellFormed_regroup hs.2.2 hr.2⟩
  | .loop token body span => exact ⟨hs.1, Block.wellFormed_regroup hs.2 hr⟩

theorem Block.wellFormed_regroup {b : Block} (hb : b.WellFormed) (hr : b.isReprintable) :
    b.regroup.WellFormed := by
  match b with
  | .mk token body span => exact ⟨hb.1, Stmt.allWellFormed_regroup hb.2 hr⟩

theorem Conditional.wellFormed_regroup {branch : Conditional} (hb : branch.WellFormed)
    (hr : branch.isReprintable) : branch.regroup.WellFormed := by
  match branch with
  | .mk token condition body otherwise span =>
      rw [Conditional.isReprintable, Bool.and_eq_true, Bool.and_eq_true] at hr
      exact ⟨Expr.fits_regroup hb.1 hr.1.1, Block.wellFormed_regroup hb.2.1 hr.1.2,
        Otherwise.wellFormed_regroup hb.2.2 hr.2⟩

theorem Otherwise.wellFormed_regroup {otherwise : Otherwise} (ho : otherwise.WellFormed)
    (hr : otherwise.isReprintable) : otherwise.regroup.WellFormed := by
  match otherwise with
  | .nothing => trivial
  | .block block => exact Block.wellFormed_regroup ho hr
  | .elif (.mk token condition body otherwise span) =>
      exact ⟨ho.1, Conditional.wellFormed_regroup ho.2 hr⟩

theorem Stmt.allWellFormed_regroup {ss : List Stmt} (hs : Stmt.AllWellFormed ss)
    (hr : Stmt.areReprintable ss) : Stmt.AllWellFormed (Stmt.regroupAll ss) := by
  match ss with
  | [] => trivial
  | s :: ss =>
      rw [Stmt.areReprintable, Bool.and_eq_true] at hr
      exact ⟨Stmt.wellFormed_regroup hs.1 hr.1, Stmt.allWellFormed_regroup hs.2 hr.2⟩

end

end Frontend
