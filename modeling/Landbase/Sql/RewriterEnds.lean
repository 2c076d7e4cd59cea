import Landbase.Sql.Rewriter

/-! # Where the rewrite loop ends

Every change that a rule reports makes the plan lighter, so the loop comes to a pass that changes nothing unless a pass
throws. Which comparisons of constants a pass comes to depends on what the passes before it have made of the plan; but if
no constant that `LIKE` may come to take as a pattern is rejected, then none throws.
-/

namespace Landbase.Sql.Rewriter
open Landbase.Lib Landbase.Index
open StringMatch (CString stringMatch regexStr)
set_option autoImplicit false

/-! ## Patterns that are not rejected -/

/-- A string that is no regular expression when it is the pattern of `LIKE`. -/
def rejected : Value → Bool
  | .chars t | .texts t => (Regex.parse (regexStr (cString t).chars)).isNone
  | _ => false

namespace Expr

mutual

/-- The constants in an expression. -/
def values : Expr → List Value
  | .value v => [v]
  | .cast _ child => child.values
  | .comparison _ left right => left.values ++ right.values
  | .conjunction _ children => allValues children
  | _ => []

def allValues : List Expr → List Value
  | [] => []
  | e :: es => e.values ++ allValues es

end

mutual

/-- No constant that `LIKE` may come to take as a pattern is rejected. -/
def Accepted : Expr → Prop
  | .cast _ child => child.Accepted
  | .comparison comp left right => left.Accepted ∧ right.Accepted ∧
      (comp = .like ∨ comp = .notLike → ∀ v ∈ right.values, rejected v = false)
  | .conjunction _ children => AllAccepted children
  | _ => True

def AllAccepted : List Expr → Prop
  | [] => True
  | e :: es => e.Accepted ∧ AllAccepted es

end

theorem allAccepted_iff (es : List Expr) : AllAccepted es ↔ ∀ e ∈ es, e.Accepted := by
  induction es with
  | nil => simp [AllAccepted]
  | cons e es ih => rw [AllAccepted, ih, List.forall_mem_cons]

theorem mem_allValues {v : Value} {es : List Expr} : v ∈ allValues es ↔ ∃ e ∈ es, v ∈ e.values := by
  induction es with
  | nil => simp [allValues]
  | cons e es ih => rw [allValues, List.mem_append, ih, List.exists_mem_cons_iff]

/-- The constants of the second expression are in the first one or come from folding, and it is accepted if that one is. -/
structure Becomes (e e' : Expr) : Prop where
  values : ∀ v ∈ e'.values, v ∈ e.values ∨ ∃ b, v = .booleans b
  accepted : e.Accepted → e'.Accepted

namespace Becomes

theorem refl (e : Expr) : Becomes e e := ⟨fun _ hv => Or.inl hv, id⟩

theorem trans {e e' e'' : Expr} (h : Becomes e e') (h' : Becomes e' e'') : Becomes e e'' where
  values v hv := by
    cases h'.values v hv with
    | inl hv => exact h.values v hv
    | inr hv => exact Or.inr hv
  accepted he := h'.accepted (h.accepted he)

theorem cast {child child' : Expr} (castType : AttrType) (h : Becomes child child') :
    Becomes (.cast castType child) (.cast castType child') := ⟨h.values, h.accepted⟩

theorem comparison {comp : CompOp} {left left' right right' : Expr} (hleft : Becomes left left')
    (hright : Becomes right right') : Becomes (.comparison comp left right) (.comparison comp left' right') where
  values v hv := by
    rw [Expr.values, List.mem_append] at hv ⊢
    cases hv with
    | inl hv => exact (hleft.values v hv).imp_left Or.inl
    | inr hv => exact (hright.values v hv).imp_left Or.inr
  accepted he := by
    obtain ⟨hl, hr, hlike⟩ := he
    refine ⟨hleft.accepted hl, hright.accepted hr, fun hcomp v hv => ?_⟩
    rcases hright.values v hv with hv | ⟨b, rfl⟩
    · exact hlike hcomp v hv
    · rfl

theorem conjunction {type : ConjunctionType} {children children' : List Expr}
    (h : ∀ e' ∈ children', ∃ e ∈ children, Becomes e e') :
    Becomes (.conjunction type children) (.conjunction type children') where
  values v hv := by
    rw [Expr.values, mem_allValues] at hv ⊢
    obtain ⟨e', he', hv⟩ := hv
    obtain ⟨e, he, hbecomes⟩ := h e' he'
    exact (hbecomes.values v hv).imp_left fun hv => ⟨e, he, hv⟩
  accepted haccepted := by
    rw [Accepted, allAccepted_iff] at haccepted ⊢
    intro e' he'
    obtain ⟨e, he, hbecomes⟩ := h e' he'
    exact hbecomes.accepted (haccepted e he)

theorem child {type : ConjunctionType} {children : List Expr} {e : Expr} (he : e ∈ children) :
    Becomes (.conjunction type children) e where
  values _ hv := Or.inl (mem_allValues.mpr ⟨e, he, hv⟩)
  accepted haccepted := (allAccepted_iff children).mp haccepted e he

theorem simplify (e : Expr) : Becomes e e.simplify.1 := by
  rcases e.simplify_cases with h | ⟨type, children, rfl, ⟨e', he', changed, h⟩ | ⟨kept, hkept, h⟩⟩ <;> rw [h]
  · exact .refl e
  · exact .child he'
  · exact .conjunction fun e he => ⟨e, hkept.subset he, .refl e⟩

end Becomes

end Expr

theorem Expr.Accepted.throws {e : Expr} {c : Comparison} (h : e.Accepted) (hc : e.constants? = some c) :
    c.throws = false := by
  rw [Expr.eq_of_constants hc] at h
  obtain ⟨-, -, hlike⟩ := h
  by_contra hthrows
  rw [Bool.not_eq_false, Comparison.throws, Bool.and_eq_true, Bool.or_eq_true, beq_iff_eq, beq_iff_eq] at hthrows
  have hright := hlike hthrows.1 c.right (by simp [Expr.values])
  -- whether `string_match` throws is decided by the pattern
  have hrejected : rejected c.right = true := by
    have hmatch := hthrows.2
    unfold rejected
    split at hmatch <;> simp_all [stringMatch]
  rw [hright] at hrejected
  cases hrejected

section

variable (compareValue : Comparison → Bool)

theorem rewriteExpression_becomes :
    (∀ e, e.Becomes (rewriteExpression compareValue e).result.1 ∧
      (e.Accepted → ∀ c ∈ (rewriteExpression compareValue e).compared, c.throws = false)) ∧
    ∀ es, (∀ e' ∈ (rewriteAll compareValue es).result.1, ∃ e ∈ es, e.Becomes e') ∧
      (Expr.AllAccepted es → ∀ c ∈ (rewriteAll compareValue es).compared, c.throws = false) := by
  refine rewriteExpression.mutual_induct compareValue _ _ ?_ ?_ ?_ ?_ ?_ ?_ ?_ ?_
  · intro e c hc
    rw [rewriteExpression_constants hc]
    refine ⟨⟨fun v hv => Or.inr ⟨_, List.mem_singleton.mp hv⟩, fun _ => trivial⟩, fun he d hd => ?_⟩
    rw [List.mem_singleton.mp hd]
    exact he.throws hc
  · intro e hc e' h
    have hsimplify := Expr.Becomes.simplify e
    rw [h] at hsimplify
    rw [rewriteExpression_reported hc h]
    exact ⟨hsimplify, fun _ c hc => by cases hc⟩
  · intro e hc castType child h ih
    have hsimplify := Expr.Becomes.simplify e
    rw [h] at hsimplify
    rw [rewriteExpression_cast hc h]
    exact ⟨hsimplify.trans (ih.1.cast castType), fun he => ih.2 (hsimplify.accepted he)⟩
  · intro e hc comp left right h ihleft ihright
    have hsimplify := Expr.Becomes.simplify e
    rw [h] at hsimplify
    rw [rewriteExpression_comparison hc h]
    refine ⟨hsimplify.trans (ihleft.1.comparison ihright.1), fun he => ?_⟩
    obtain ⟨hl, hr, -⟩ := hsimplify.accepted he
    exact List.forall_mem_append.mpr ⟨ihleft.2 hl, ihright.2 hr⟩
  · intro e hc type children h ih
    have hsimplify := Expr.Becomes.simplify e
    rw [h] at hsimplify
    rw [rewriteExpression_conjunction hc h]
    exact ⟨hsimplify.trans (.conjunction ih.1), fun he => ih.2 (hsimplify.accepted he)⟩
  · intro e hc e' hcast hcomparison hconjunction h
    have hsimplify := Expr.Becomes.simplify e
    rw [h] at hsimplify
    rw [rewriteExpression_leaf hc hcast hcomparison hconjunction h]
    exact ⟨hsimplify, fun _ c hc => by cases hc⟩
  · rw [rewriteAll]
    exact ⟨fun e' he' => (by cases he'), fun _ c hc => (by cases hc)⟩
  · intro e es ih ihs
    rw [rewriteAll]
    refine ⟨fun e' he' => ?_, fun hes => List.forall_mem_append.mpr ⟨ih.2 hes.1, ihs.2 hes.2⟩⟩
    rcases List.mem_cons.mp he' with rfl | he'
    · exact ⟨e, List.mem_cons_self, ih.1⟩
    · obtain ⟨e₀, he₀, hbecomes⟩ := ihs.1 e' he'
      exact ⟨e₀, List.mem_cons_of_mem e he₀, hbecomes⟩

theorem rewriteAll_accepted {es : List Expr} (h : Expr.AllAccepted es) :
    Expr.AllAccepted (rewriteAll compareValue es).result.1 := by
  rw [Expr.allAccepted_iff] at h ⊢
  intro e' he'
  obtain ⟨e, he, hbecomes⟩ := (rewriteExpression_becomes compareValue).2 es |>.1 e' he'
  exact hbecomes.accepted (h e he)

end

mutual

/-- The expressions of a plan are accepted. -/
def LogicalOperator.Accepted : LogicalOperator → Prop
  | .mk _ _ expressions children => Expr.AllAccepted expressions ∧ LogicalOperator.AllAccepted children

def LogicalOperator.AllAccepted : List LogicalOperator → Prop
  | [] => True
  | oper :: opers => oper.Accepted ∧ LogicalOperator.AllAccepted opers

end

theorem LogicalOperator.Accepted.children {oper : LogicalOperator} (h : oper.Accepted) : AllAccepted oper.children := by
  cases oper
  exact h.2

theorem LogicalOperator.Accepted.withChildren {oper : LogicalOperator} {opers : List LogicalOperator} (h : oper.Accepted)
    (hopers : AllAccepted opers) : (oper.withChildren opers).Accepted := by
  cases oper
  exact ⟨h.1, hopers⟩

theorem rewriteExpressions_accepted (compareValue : Comparison → Bool) (oper : LogicalOperator) (h : oper.Accepted) :
    (rewriteExpressions compareValue oper).result.1.Accepted ∧
      ∀ c ∈ (rewriteExpressions compareValue oper).compared, c.throws = false := by
  refine @LogicalOperator.rec
    (fun oper => oper.Accepted → (rewriteExpressions compareValue oper).result.1.Accepted ∧
      ∀ c ∈ (rewriteExpressions compareValue oper).compared, c.throws = false)
    (fun opers => LogicalOperator.AllAccepted opers →
      LogicalOperator.AllAccepted (rewriteChildren compareValue opers).result.1 ∧
        ∀ c ∈ (rewriteChildren compareValue opers).compared, c.throws = false) ?_ ?_ ?_ oper h
  · rintro type predicates expressions children ih ⟨hexpressions, hchildren⟩
    rw [rewriteExpressions]
    have hall := ((rewriteExpression_becomes compareValue).2 expressions).2 hexpressions
    exact ⟨⟨rewriteAll_accepted compareValue hexpressions, (ih hchildren).1⟩,
      List.forall_mem_append.mpr ⟨hall, (ih hchildren).2⟩⟩
  · intro _
    rw [rewriteChildren]
    exact ⟨trivial, fun c hc => by cases hc⟩
  · rintro oper opers ih ihs ⟨hoper, hopers⟩
    rw [rewriteChildren]
    exact ⟨⟨(ih hoper).1, (ihs hopers).1⟩, List.forall_mem_append.mpr ⟨(ih hoper).2, (ihs hopers).2⟩⟩

theorem predicateRewrite_accepted {oper : LogicalOperator} (h : oper.Accepted) : (predicateRewrite oper).1.Accepted := by
  unfold predicateRewrite
  split
  · next v grandChildren =>
    obtain ⟨hexpressions, ⟨-, hgrandChildren⟩, -⟩ := h
    refine ⟨hexpressions, ?_⟩
    cases v.getBoolean
    · trivial
    · exact hgrandChildren
  · exact h

theorem getExprsCanPushdown_accepted (e : Expr) (h : e.Accepted) :
    Expr.AllAccepted (getExprsCanPushdown e).1.toList := by
  refine @Expr.rec
    (fun e => e.Accepted → Expr.AllAccepted (getExprsCanPushdown e).1.toList)
    (fun es => Expr.AllAccepted es → Expr.AllAccepted (pushdownLoop es).1) ?_ ?_ ?_ ?_ ?_ ?_ ?_ ?_ e h
  · exact fun h => ⟨h, trivial⟩
  · exact fun v h => ⟨h, trivial⟩
  · exact fun castType child _ h => ⟨h, trivial⟩
  · intro comp left right _ _ h
    rw [getExprsCanPushdown]
    split_ifs
    · trivial
    · exact ⟨h, trivial⟩
  · intro type children ih h
    cases type with
    | or => exact ⟨h, trivial⟩
    | and => exact ⟨ih h, trivial⟩
  · exact fun h => ⟨h, trivial⟩
  · exact fun _ => trivial
  · rintro child children ih ihs ⟨hchild, hchildren⟩
    have hleft := (Expr.allAccepted_iff _).mp (ih hchild)
    have hright := (Expr.allAccepted_iff _).mp (ihs hchildren)
    exact (Expr.allAccepted_iff _).mpr (List.forall_mem_append.mpr ⟨hleft, hright⟩)

theorem predicatePushdown_accepted {oper : LogicalOperator} (h : oper.Accepted) : (predicatePushdown oper).1.Accepted := by
  unfold predicatePushdown
  split
  · next e predicates' expressions children =>
    obtain ⟨⟨he, -⟩, hchild, -⟩ := h
    have hrest : ((getExprsCanPushdown e).1.getD (.value (.booleans true))).Accepted := by
      have haccepted := getExprsCanPushdown_accepted e he
      cases hrest : (getExprsCanPushdown e).1 with
      | none => trivial
      | some rest =>
        rw [hrest] at haccepted
        exact haccepted.1
    dsimp only
    split_ifs
    · exact ⟨⟨hrest, trivial⟩, hchild, trivial⟩
    · exact ⟨⟨hrest, trivial⟩, hchild, trivial⟩
  · exact h

theorem rewrite_accepted (compareValue : Comparison → Bool) (oper : LogicalOperator) (h : oper.Accepted) :
    (rewrite compareValue oper).result.1.Accepted ∧ ∀ c ∈ (rewrite compareValue oper).compared, c.throws = false := by
  refine rewrite.induct compareValue
    (fun oper => oper.Accepted → (rewrite compareValue oper).result.1.Accepted ∧
      ∀ c ∈ (rewrite compareValue oper).compared, c.throws = false)
    (fun opers => LogicalOperator.AllAccepted opers →
      LogicalOperator.AllAccepted (rewriteOpers compareValue opers).result.1 ∧
        ∀ c ∈ (rewriteOpers compareValue opers).compared, c.throws = false) ?_ ?_ ?_ oper h
  · intro oper r ih h
    obtain ⟨hexpressions, hcompared⟩ := rewriteExpressions_accepted compareValue oper h
    have hrules : r.result.1.Accepted := predicatePushdown_accepted (predicateRewrite_accepted hexpressions)
    obtain ⟨hopers, hoperCompared⟩ := ih hrules.children
    rw [rewrite]
    exact ⟨hrules.withChildren hopers, List.forall_mem_append.mpr ⟨hcompared, hoperCompared⟩⟩
  · intro _
    rw [rewriteOpers]
    exact ⟨trivial, fun c hc => by cases hc⟩
  · rintro oper opers ih ihs ⟨hoper, hopers⟩
    rw [rewriteOpers]
    exact ⟨⟨(ih hoper).1, (ihs hopers).1⟩, List.forall_mem_append.mpr ⟨(ih hoper).2, (ihs hopers).2⟩⟩

section

variable {lib : CompareLib} {memory : ℕ → Comparison → CompareMemory} {oper : LogicalOperator}

theorem LogicalOperator.Accepted.neverThrows (h : oper.Accepted) : NeverThrows lib memory oper := by
  have haccepted : ∀ {n oper'}, Passes lib memory oper n oper' → oper'.Accepted := by
    intro n oper' hpasses
    induction hpasses with
    | start => exact h
    | @again n oper' oper'' _ hpass ih =>
      have hrewrite := (rewrite_accepted (compareValue lib (memory n)) oper' ih).1
      dsimp only [pass] at hpass
      split_ifs at hpass
      rw [Option.some.inj hpass] at hrewrite
      exact hrewrite
  intro n oper' hpasses c hc
  exact (rewrite_accepted (compareValue lib (memory n)) oper' (haccepted hpasses)).2 c hc

/-- The loop comes to a pass that changes nothing, unless a pass throws. For a plan without a rejected pattern none does. -/
theorem ends_iff (lib : CompareLib) (memory : ℕ → Comparison → CompareMemory) (oper : LogicalOperator) :
    (Ends lib memory oper ↔ NeverThrows lib memory oper) ∧ (oper.Accepted → Ends lib memory oper) :=
  ⟨⟨Ends.neverThrows, NeverThrows.ends⟩, fun h => h.neverThrows.ends⟩

/-- `'a' LIKE '('`. -/
def likeParenthesis : Comparison := ⟨.like, .chars [0x61], .chars [0x28]⟩

def Comparison.toExpr (c : Comparison) : Expr := .comparison c.comp (.value c.left) (.value c.right)

/-- The plan of `SELECT … FROM t WHERE 'a' LIKE '('`. -/
def likePlan : LogicalOperator :=
  .mk .projection [] [.field] [.mk .predicate [] [.conjunction .and [likeParenthesis.toExpr]] [.mk .tableGet [] [] []]]

theorem likePlan_not_ends :
    (∀ lib memory, pass lib memory likePlan = none) ∧ ∀ lib memory, ¬Ends lib memory likePlan := by
  have hthrows : likeParenthesis.throws = true := by decide +kernel
  have hpass : ∀ lib memory, pass lib memory likePlan = none := by
    intro lib memory
    -- the conjunction becomes its only child, which is folded when the pass comes to the predicate
    have hfield : rewriteExpression (compareValue lib memory) .field = ⟨(.field, false), []⟩ :=
      rewriteExpression_leaf rfl (by simp) (by simp) (by simp) rfl
    have hconjunction : rewriteExpression (compareValue lib memory) (.conjunction .and [likeParenthesis.toExpr]) =
        ⟨(likeParenthesis.toExpr, true), []⟩ := rewriteExpression_reported rfl rfl
    have hcomparison : rewriteExpression (compareValue lib memory) likeParenthesis.toExpr = ⟨_, [likeParenthesis]⟩ :=
      rewriteExpression_constants rfl
    have hrules : (applyRules (compareValue lib memory) likePlan).result.1 = .mk .projection [] [.field]
        [.mk .predicate [] [likeParenthesis.toExpr] [.mk .tableGet [] [] []]] := by
      simp only [applyRules, likePlan, rewriteExpressions, rewriteChildren, rewriteAll, hfield, hconjunction]
      rfl
    refine pass_eq_none_iff.mpr ⟨likeParenthesis, ?_, hthrows⟩
    rw [rewrite, hrules, LogicalOperator.children, rewriteOpers, rewrite]
    simp [applyRules, rewriteExpressions, rewriteAll, hcomparison]
  refine ⟨hpass, fun lib memory hends => ?_⟩
  obtain ⟨c, hc, hcthrows⟩ := pass_eq_none_iff.mp (hpass lib (memory 0))
  rw [hends.neverThrows 0 _ .start c hc] at hcthrows
  cases hcthrows

end

end Landbase.Sql.Rewriter
