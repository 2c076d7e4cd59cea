import Landbase.Sql.Compare
import Landbase.Sql.StringMatch
import Mathlib.Data.List.TakeWhile

/-! # The rewriter

`OptimizeStage::rewrite` passes over a logical plan until a pass changes nothing: `Rewriter::rewrite` of
`sql/optimizer/rewriter.cpp` with `ExpressionRewriter` and its two rules, `PredicateRewriteRule` and
`PredicatePushdownRewriter`. None of them fails, but two constants that are compared by `LIKE` make `string_match` throw
if the pattern is no regular expression.

A pass is given with the comparisons of constants that it makes.
-/

namespace Landbase.Sql.Rewriter
open Landbase.Lib Landbase.Index
open StringMatch (CString stringMatch regexStr)
set_option autoImplicit false

/-! ## Expressions and plans -/

/-- An expression as the rules see it. `other` is any type that they leave alone: `STAR`, `ARITHMETIC`, `IN`, `EXISTS`,
`VALUELIST`, `SUBQUERY` and `AGGREGATION`. -/
inductive Expr
  | field
  | value (v : Value)
  | cast (castType : AttrType) (child : Expr)
  | comparison (comp : CompOp) (left right : Expr)
  | conjunction (type : ConjunctionType) (children : List Expr)
  | other

inductive LogicalOperatorType
  | calc | tableGet | predicate | projection | join | insert | update | delete | explain | orderBy | aggregation
  deriving DecidableEq

/-- `LogicalOperator`. The predicates are those that have been pushed down to a `TABLE_GET`. -/
inductive LogicalOperator
  | mk (type : LogicalOperatorType) (predicates expressions : List Expr) (children : List LogicalOperator)

namespace LogicalOperator

def type : LogicalOperator → LogicalOperatorType
  | .mk type _ _ _ => type

def children : LogicalOperator → List LogicalOperator
  | .mk _ _ _ children => children

end LogicalOperator

/-- `compare_value` of two constants. -/
structure Comparison where
  comp : CompOp
  left : Value
  right : Value

/-- A result, and the comparisons that were made for it. -/
structure Folded (α : Type) where
  result : α
  compared : List Comparison

/-! ### Sizes -/

mutual

/-- The comparisons and conjunctions in an expression. -/
def Expr.weight : Expr → ℕ
  | .cast _ child => child.weight
  | .comparison _ left right => left.weight + right.weight + 1
  | .conjunction _ children => Expr.weights children + 1
  | _ => 0

def Expr.weights : List Expr → ℕ
  | [] => 0
  | e :: es => e.weight + Expr.weights es

end

mutual

/-- The same in the expressions of a plan, with its operators. -/
def LogicalOperator.weight : LogicalOperator → ℕ
  | .mk _ _ expressions children => Expr.weights expressions + LogicalOperator.weights children + 1

def LogicalOperator.weights : List LogicalOperator → ℕ
  | [] => 0
  | oper :: opers => oper.weight + LogicalOperator.weights opers

end

mutual

def Expr.size : Expr → ℕ
  | .cast _ child => child.size + 1
  | .comparison _ left right => left.size + right.size + 1
  | .conjunction _ children => Expr.sizes children + 1
  | _ => 1

def Expr.sizes : List Expr → ℕ
  | [] => 0
  | e :: es => e.size + Expr.sizes es + 1

end

/-! ## The rules for expressions -/

namespace Expr

/-- The comparison that `ComparisonSimplificationRule` computes. -/
def constants? : Expr → Option Comparison
  | .comparison comp (.value left) (.value right) => some ⟨comp, left, right⟩
  | _ => none

/-- `try_to_get_bool_constant`. -/
def boolConstant? : Expr → Option Bool
  | .value (.booleans b) => some b
  | _ => none

/-- The loop of `ConjunctionSimplificationRule::rewrite`, as in `Expression.simplifyLoop`. -/
def simplifyLoop (type : ConjunctionType) : List Expr → List Expr → Expr ⊕ List Expr
  | kept, [] => .inr kept
  | kept, child :: children =>
    match child.boolConstant? with
    | none => simplifyLoop type (kept ++ [child]) children
    | some constant =>
      if type = .and then
        if constant then simplifyLoop type kept children else .inl (kept.headD child)
      else
        if constant then .inl (kept.headD child) else simplifyLoop type kept children

/-- `ConjunctionSimplificationRule::rewrite`. -/
def simplify : Expr → Expr × Bool
  | .conjunction type children =>
    match simplifyLoop type [] children with
    | .inl child => (child, false)
    | .inr [child] => (child, true)
    | .inr kept => (.conjunction type kept, false)
  | e => (e, false)

/-- The loop takes one child or leaves some of them. -/
theorem simplifyLoop_cases (type : ConjunctionType) (kept children : List Expr) :
    (∃ child ∈ kept ++ children, simplifyLoop type kept children = .inl child) ∨
      ∃ es, es.Sublist (kept ++ children) ∧ simplifyLoop type kept children = .inr es := by
  induction children generalizing kept with
  | nil => exact Or.inr ⟨kept, by simp, rfl⟩
  | cons child children ih =>
    have hskip : (kept ++ children).Sublist (kept ++ child :: children) :=
      (List.Sublist.refl kept).append (List.sublist_cons_self child children)
    have hdrop : (∃ e ∈ kept ++ child :: children, simplifyLoop type kept children = .inl e) ∨
        ∃ es, es.Sublist (kept ++ child :: children) ∧ simplifyLoop type kept children = .inr es := by
      rcases ih kept with ⟨e, he, heq⟩ | ⟨es, hes, heq⟩
      · exact Or.inl ⟨e, hskip.subset he, heq⟩
      · exact Or.inr ⟨es, hes.trans hskip, heq⟩
    have htake : ∃ e ∈ kept ++ child :: children, (.inl (kept.headD child) : Expr ⊕ List Expr) = .inl e := by
      cases kept with
      | nil => exact ⟨child, List.mem_cons_self, rfl⟩
      | cons first kept => exact ⟨first, List.mem_cons_self, rfl⟩
    rw [simplifyLoop]
    cases child.boolConstant? with
    | none =>
      have hih := ih (kept ++ [child])
      rw [List.append_assoc, List.singleton_append] at hih
      exact hih
    | some constant =>
      cases type <;> cases constant <;> first | exact hdrop | exact Or.inl htake

theorem simplify_cases (e : Expr) : e.simplify = (e, false) ∨ ∃ type children, e = .conjunction type children ∧
    ((∃ child ∈ children, ∃ changed, e.simplify = (child, changed)) ∨
      ∃ kept, kept.Sublist children ∧ e.simplify = (.conjunction type kept, false)) := by
  cases e with
  | conjunction type children =>
    refine Or.inr ⟨type, children, rfl, ?_⟩
    rw [simplify]
    rcases simplifyLoop_cases type [] children with ⟨child, hchild, heq⟩ | ⟨es, hes, heq⟩
    · rw [heq]
      exact Or.inl ⟨child, hchild, false, rfl⟩
    · rw [heq]
      split
      · next h => cases h
      · next child h =>
        cases h
        exact Or.inl ⟨child, hes.subset List.mem_cons_self, true, rfl⟩
      · next h =>
        cases h
        exact Or.inr ⟨es, hes, rfl⟩
  | _ => exact Or.inl rfl

theorem sizes_eq_sum (es : List Expr) : sizes es = (es.map fun e => e.size + 1).sum := by
  induction es with
  | nil => rfl
  | cons e es ih =>
    rw [sizes, ih, List.map_cons, List.sum_cons]
    omega

theorem weights_eq_sum (es : List Expr) : weights es = (es.map weight).sum := by
  induction es with
  | nil => rfl
  | cons e es ih => rw [weights, ih, List.map_cons, List.sum_cons]

theorem size_lt_of_mem {e : Expr} {es : List Expr} (h : e ∈ es) : e.size < sizes es := by
  have hmem : e.size + 1 ∈ es.map fun e => e.size + 1 := List.mem_map_of_mem h
  rw [sizes_eq_sum]
  exact List.le_sum_of_mem hmem

theorem sizes_le_of_sublist {es es' : List Expr} (h : es.Sublist es') : sizes es ≤ sizes es' := by
  rw [sizes_eq_sum, sizes_eq_sum]
  exact (h.map _).sum_le_sum fun _ _ => Nat.zero_le _

theorem weight_le_of_mem {e : Expr} {es : List Expr} (h : e ∈ es) : e.weight ≤ weights es := by
  rw [weights_eq_sum]
  exact List.le_sum_of_mem (List.mem_map_of_mem h)

theorem weights_le_of_sublist {es es' : List Expr} (h : es.Sublist es') : weights es ≤ weights es' := by
  rw [weights_eq_sum, weights_eq_sum]
  exact (h.map _).sum_le_sum fun _ _ => Nat.zero_le _

theorem simplify_size (e : Expr) : e.simplify.1.size ≤ e.size := by
  rcases e.simplify_cases with h | ⟨type, children, rfl, ⟨child, hchild, changed, h⟩ | ⟨kept, hkept, h⟩⟩ <;> rw [h]
  · have := size_lt_of_mem hchild
    simp only [size]
    omega
  · have := sizes_le_of_sublist hkept
    simp only [size]
    omega

theorem simplify_weight (e : Expr) : e.simplify.1.weight + e.simplify.2.toNat ≤ e.weight := by
  rcases e.simplify_cases with h | ⟨type, children, rfl, ⟨child, hchild, changed, h⟩ | ⟨kept, hkept, h⟩⟩ <;> rw [h]
  · exact le_rfl
  · have := weight_le_of_mem hchild
    have := changed.toNat_le
    simp only [weight]
    omega
  · have := weights_le_of_sublist hkept
    simp only [weight, Bool.toNat_false]
    omega

end Expr

/-! ## `ExpressionRewriter` -/

section

variable (compareValue : Comparison → Bool)

mutual

/-- `rewrite_expression`. -/
def rewriteExpression (e : Expr) : Folded (Expr × Bool) :=
  match e.constants? with
  | some c => ⟨(.value (.booleans (compareValue c)), true), [c]⟩
  | none =>
    match _h : e.simplify with
    | (e', true) => ⟨(e', true), []⟩
    | (.cast castType child, false) =>
      let r := rewriteExpression child
      ⟨(.cast castType r.result.1, r.result.2), r.compared⟩
    | (.comparison comp left right, false) =>
      let l := rewriteExpression left
      let r := rewriteExpression right
      ⟨(.comparison comp l.result.1 r.result.1, l.result.2 || r.result.2), l.compared ++ r.compared⟩
    | (.conjunction type children, false) =>
      let r := rewriteAll children
      ⟨(.conjunction type r.result.1, r.result.2), r.compared⟩
    | (e', false) => ⟨(e', false), []⟩
termination_by e.size
decreasing_by
  all_goals
    have hsize := e.simplify_size
    rw [_h] at hsize
    simp only [Expr.size] at hsize
    omega

/-- The loops over the children of a conjunction and over the expressions of an operator. -/
def rewriteAll (es : List Expr) : Folded (List Expr × Bool) :=
  match es with
  | [] => ⟨([], false), []⟩
  | e :: es =>
    let r := rewriteExpression e
    let rs := rewriteAll es
    ⟨(r.result.1 :: rs.result.1, r.result.2 || rs.result.2), r.compared ++ rs.compared⟩
termination_by Expr.sizes es
decreasing_by
  all_goals
    simp only [Expr.sizes]
    omega

end

section

variable {compareValue} {e : Expr} (hc : e.constants? = none)
include hc

theorem rewriteExpression_reported {e' : Expr} (h : e.simplify = (e', true)) :
    rewriteExpression compareValue e = ⟨(e', true), []⟩ := by
  rw [rewriteExpression, hc]
  dsimp only
  split <;> next heq => rw [h] at heq; cases heq <;> rfl

theorem rewriteExpression_cast {castType : AttrType} {child : Expr} (h : e.simplify = (.cast castType child, false)) :
    rewriteExpression compareValue e = ⟨(.cast castType (rewriteExpression compareValue child).result.1,
      (rewriteExpression compareValue child).result.2), (rewriteExpression compareValue child).compared⟩ := by
  rw [rewriteExpression, hc]
  dsimp only
  split <;> next heq => rw [h] at heq; cases heq <;> first | rfl | simp_all

theorem rewriteExpression_comparison {comp : CompOp} {left right : Expr}
    (h : e.simplify = (.comparison comp left right, false)) :
    rewriteExpression compareValue e =
      ⟨(.comparison comp (rewriteExpression compareValue left).result.1 (rewriteExpression compareValue right).result.1,
        (rewriteExpression compareValue left).result.2 || (rewriteExpression compareValue right).result.2),
        (rewriteExpression compareValue left).compared ++ (rewriteExpression compareValue right).compared⟩ := by
  rw [rewriteExpression, hc]
  dsimp only
  split <;> next heq => rw [h] at heq; cases heq <;> first | rfl | simp_all

theorem rewriteExpression_conjunction {type : ConjunctionType} {children : List Expr}
    (h : e.simplify = (.conjunction type children, false)) :
    rewriteExpression compareValue e = ⟨(.conjunction type (rewriteAll compareValue children).result.1,
      (rewriteAll compareValue children).result.2), (rewriteAll compareValue children).compared⟩ := by
  rw [rewriteExpression, hc]
  dsimp only
  split <;> next heq => rw [h] at heq; cases heq <;> first | rfl | simp_all

theorem rewriteExpression_leaf {e' : Expr} (hcast : ∀ castType child, e' = .cast castType child → False)
    (hcomparison : ∀ comp left right, e' = .comparison comp left right → False)
    (hconjunction : ∀ type children, e' = .conjunction type children → False) (h : e.simplify = (e', false)) :
    rewriteExpression compareValue e = ⟨(e', false), []⟩ := by
  rw [rewriteExpression, hc]
  dsimp only
  split <;> next heq => rw [h] at heq; cases heq <;> first | rfl | simp_all

end

theorem rewriteExpression_constants {compareValue : Comparison → Bool} {e : Expr} {c : Comparison}
    (h : e.constants? = some c) :
    rewriteExpression compareValue e = ⟨(.value (.booleans (compareValue c)), true), [c]⟩ := by
  rw [rewriteExpression, h]

theorem Expr.eq_of_constants {e : Expr} {c : Comparison} (h : e.constants? = some c) :
    e = .comparison c.comp (.value c.left) (.value c.right) := by
  unfold Expr.constants? at h
  split at h
  · cases h
    rfl
  · cases h

/-- A change that is reported makes the expression lighter, and nothing makes it heavier. -/
theorem rewriteExpression_weight :
    (∀ e, (rewriteExpression compareValue e).result.1.weight + (rewriteExpression compareValue e).result.2.toNat ≤ e.weight) ∧
      ∀ es, Expr.weights (rewriteAll compareValue es).result.1 + (rewriteAll compareValue es).result.2.toNat ≤
        Expr.weights es := by
  have hor : ∀ b b' : Bool, (b || b').toNat ≤ b.toNat + b'.toNat := by decide
  refine rewriteExpression.mutual_induct compareValue _ _ ?_ ?_ ?_ ?_ ?_ ?_ ?_ ?_
  · intro e c hc
    rw [rewriteExpression_constants hc, Expr.eq_of_constants hc]
    simp [Expr.weight]
  · intro e hc e' h
    have hweight := e.simplify_weight
    rw [h] at hweight
    rw [rewriteExpression_reported hc h]
    exact hweight
  · intro e hc castType child h ih
    have hweight := e.simplify_weight
    rw [h] at hweight
    rw [rewriteExpression_cast hc h]
    simp only [Expr.weight] at hweight ⊢
    omega
  · intro e hc comp left right h ihleft ihright
    have hweight := e.simplify_weight
    rw [h] at hweight
    rw [rewriteExpression_comparison hc h]
    have := hor (rewriteExpression compareValue left).result.2 (rewriteExpression compareValue right).result.2
    simp only [Expr.weight] at hweight ⊢
    omega
  · intro e hc type children h ih
    have hweight := e.simplify_weight
    rw [h] at hweight
    rw [rewriteExpression_conjunction hc h]
    simp only [Expr.weight] at hweight ⊢
    omega
  · intro e hc e' hcast hcomparison hconjunction h
    have hweight := e.simplify_weight
    rw [h] at hweight
    rw [rewriteExpression_leaf hc hcast hcomparison hconjunction h]
    exact hweight
  · simp [rewriteAll]
  · intro e es ih ihs
    rw [rewriteAll]
    have := hor (rewriteExpression compareValue e).result.2 (rewriteAll compareValue es).result.2
    simp only [Expr.weights]
    omega

mutual

/-- `ExpressionRewriter::rewrite`. -/
def rewriteExpressions : LogicalOperator → Folded (LogicalOperator × Bool)
  | .mk type predicates expressions children =>
    let r := rewriteAll compareValue expressions
    let rs := rewriteChildren children
    ⟨(.mk type predicates r.result.1 rs.result.1, r.result.2 || rs.result.2), r.compared ++ rs.compared⟩

/-- Its loop over the children. -/
def rewriteChildren : List LogicalOperator → Folded (List LogicalOperator × Bool)
  | [] => ⟨([], false), []⟩
  | oper :: opers =>
    let r := rewriteExpressions oper
    let rs := rewriteChildren opers
    ⟨(r.result.1 :: rs.result.1, r.result.2 || rs.result.2), r.compared ++ rs.compared⟩

end

theorem rewriteExpressions_weight (oper : LogicalOperator) :
    (rewriteExpressions compareValue oper).result.1.weight + (rewriteExpressions compareValue oper).result.2.toNat ≤
      oper.weight := by
  have hor : ∀ b b' : Bool, (b || b').toNat ≤ b.toNat + b'.toNat := by decide
  refine @LogicalOperator.rec
    (fun oper => (rewriteExpressions compareValue oper).result.1.weight +
      (rewriteExpressions compareValue oper).result.2.toNat ≤ oper.weight)
    (fun opers => LogicalOperator.weights (rewriteChildren compareValue opers).result.1 +
      (rewriteChildren compareValue opers).result.2.toNat ≤ LogicalOperator.weights opers) ?_ ?_ ?_ oper
  · intro type predicates expressions children ih
    have hall := (rewriteExpression_weight compareValue).2 expressions
    have := hor (rewriteAll compareValue expressions).result.2 (rewriteChildren compareValue children).result.2
    rw [rewriteExpressions]
    simp only [LogicalOperator.weight]
    omega
  · simp [rewriteChildren]
  · intro oper opers ih ihs
    have := hor (rewriteExpressions compareValue oper).result.2 (rewriteChildren compareValue opers).result.2
    rw [rewriteChildren]
    simp only [LogicalOperator.weights]
    omega

end

/-! ## `PredicateRewriteRule` -/

/-- `PredicateRewriteRule::rewrite`. -/
def predicateRewrite : LogicalOperator → LogicalOperator × Bool
  | .mk type predicates expressions [.mk .predicate _ [.value v] grandChildren] =>
    (.mk type predicates expressions (if v.getBoolean then grandChildren else []), true)
  | oper => (oper, false)

theorem predicateRewrite_weight (oper : LogicalOperator) :
    (predicateRewrite oper).1.weight + (predicateRewrite oper).2.toNat ≤ oper.weight := by
  unfold predicateRewrite
  split
  · next v grandChildren =>
    cases v.getBoolean <;> simp [LogicalOperator.weight, LogicalOperator.weights, Expr.weights, Expr.weight]
  · simp

/-! ## `PredicatePushdownRewriter` -/

def Expr.isField : Expr → Bool
  | .field => true
  | _ => false

def Expr.isValue : Expr → Bool
  | .value _ => true
  | _ => false

/-- The tests of `get_exprs_can_pushdown` for a comparison. -/
def canPushdown (comp : CompOp) (left right : Expr) : Bool :=
  if comp ≠ .equalTo then false
  else if !left.isField && !right.isField then false
  else if !left.isField && !left.isValue && !right.isField && !right.isValue then false
  else true

mutual

/-- `get_exprs_can_pushdown`: what is left of the expression, and what is pushed down. -/
def getExprsCanPushdown : Expr → Option Expr × List Expr
  | .conjunction .or children => (some (.conjunction .or children), [])
  | .conjunction .and children =>
    (some (.conjunction .and (pushdownLoop children).1), (pushdownLoop children).2)
  | .comparison comp left right =>
    if canPushdown comp left right then (none, [.comparison comp left right])
    else (some (.comparison comp left right), [])
  | e => (some e, [])

/-- Its loop over the children of a conjunction. -/
def pushdownLoop : List Expr → List Expr × List Expr
  | [] => ([], [])
  | child :: children =>
    let r := getExprsCanPushdown child
    let rs := pushdownLoop children
    (r.1.toList ++ rs.1, r.2 ++ rs.2)

end

/-- `PredicatePushdownRewriter::rewrite`. -/
def predicatePushdown : LogicalOperator → LogicalOperator × Bool
  | .mk .predicate predicates [e] [.mk .tableGet predicates' expressions children] =>
    let r := getExprsCanPushdown e
    let rest := r.1.getD (.value (.booleans true))
    if r.2 ≠ [] then (.mk .predicate predicates [rest] [.mk .tableGet r.2 expressions children], true)
    else (.mk .predicate predicates [rest] [.mk .tableGet predicates' expressions children], false)
  | oper => (oper, false)

/-- The weight of what may be left of an expression. -/
def Expr.weight? (e : Option Expr) : ℕ := (e.map Expr.weight).getD 0

theorem Expr.weights_append (es es' : List Expr) : weights (es ++ es') = weights es + weights es' := by
  rw [weights_eq_sum, weights_eq_sum, weights_eq_sum, List.map_append, List.sum_append]

/-- What is pushed down is taken from the expression. -/
theorem getExprsCanPushdown_weight (e : Expr) :
    Expr.weight? (getExprsCanPushdown e).1 + (getExprsCanPushdown e).2.length ≤ e.weight := by
  refine @Expr.rec
    (fun e => Expr.weight? (getExprsCanPushdown e).1 + (getExprsCanPushdown e).2.length ≤ e.weight)
    (fun es => Expr.weights (pushdownLoop es).1 + (pushdownLoop es).2.length ≤ Expr.weights es)
    ?_ ?_ ?_ ?_ ?_ ?_ ?_ ?_ e
  · simp [getExprsCanPushdown, Expr.weight?]
  · intro v
    simp [getExprsCanPushdown, Expr.weight?]
  · intro castType child _
    simp [getExprsCanPushdown, Expr.weight?]
  · intro comp left right _ _
    rw [getExprsCanPushdown]
    cases canPushdown comp left right <;> simp [Expr.weight?, Expr.weight]
  · intro type children ih
    cases type with
    | or => simp [getExprsCanPushdown, Expr.weight?]
    | and =>
      simp only [getExprsCanPushdown, Expr.weight?, Option.map_some, Option.getD_some, Expr.weight]
      omega
  · simp [getExprsCanPushdown, Expr.weight?]
  · simp [pushdownLoop]
  · intro child children ih ihs
    have hrest : Expr.weights (getExprsCanPushdown child).1.toList = Expr.weight? (getExprsCanPushdown child).1 := by
      cases (getExprsCanPushdown child).1 <;> simp [Expr.weights, Expr.weight?]
    simp only [pushdownLoop, Expr.weights_append, List.length_append, Expr.weights]
    omega

theorem predicatePushdown_weight (oper : LogicalOperator) :
    (predicatePushdown oper).1.weight + (predicatePushdown oper).2.toNat ≤ oper.weight := by
  unfold predicatePushdown
  split
  · next e predicates' expressions children =>
    have hweight := getExprsCanPushdown_weight e
    have hrest : ((getExprsCanPushdown e).1.getD (.value (.booleans true))).weight =
        Expr.weight? (getExprsCanPushdown e).1 := by
      cases (getExprsCanPushdown e).1 <;> simp [Expr.weight, Expr.weight?]
    dsimp only
    split_ifs with hpushed
    · have := List.length_pos_iff.mpr hpushed
      simp only [LogicalOperator.weight, LogicalOperator.weights, Expr.weights, Bool.toNat_true, hrest]
      omega
    · simp only [LogicalOperator.weight, LogicalOperator.weights, Expr.weights, Bool.toNat_false, hrest]
      omega
  · simp

/-! ## `Rewriter` -/

def LogicalOperator.withChildren : LogicalOperator → List LogicalOperator → LogicalOperator
  | .mk type predicates expressions _, children => .mk type predicates expressions children

theorem LogicalOperator.weight_pos (oper : LogicalOperator) : 0 < oper.weight := by
  cases oper
  exact Nat.succ_pos _

theorem LogicalOperator.weight_withChildren (oper : LogicalOperator) (opers : List LogicalOperator) :
    (oper.withChildren opers).weight + weights oper.children = oper.weight + weights opers := by
  cases oper
  simp only [withChildren, children, weight]
  omega

/-- The three rules, one after the other. -/
def applyRules (compareValue : Comparison → Bool) (oper : LogicalOperator) : Folded (LogicalOperator × Bool) :=
  let r₁ := rewriteExpressions compareValue oper
  let r₂ := predicateRewrite r₁.result.1
  let r₃ := predicatePushdown r₂.1
  ⟨(r₃.1, r₁.result.2 || r₂.2 || r₃.2), r₁.compared⟩

theorem applyRules_weight (compareValue : Comparison → Bool) (oper : LogicalOperator) :
    (applyRules compareValue oper).result.1.weight + (applyRules compareValue oper).result.2.toNat ≤ oper.weight := by
  have hor : ∀ b b' b'' : Bool, (b || b' || b'').toNat ≤ b.toNat + b'.toNat + b''.toNat := by decide
  have h₁ := rewriteExpressions_weight compareValue oper
  have h₂ := predicateRewrite_weight (rewriteExpressions compareValue oper).result.1
  have h₃ := predicatePushdown_weight (predicateRewrite (rewriteExpressions compareValue oper).result.1).1
  have := hor (rewriteExpressions compareValue oper).result.2
    (predicateRewrite (rewriteExpressions compareValue oper).result.1).2
    (predicatePushdown (predicateRewrite (rewriteExpressions compareValue oper).result.1).1).2
  dsimp only [applyRules]
  omega

section

variable (compareValue : Comparison → Bool)

mutual

/-- `Rewriter::rewrite`. -/
def rewrite (oper : LogicalOperator) : Folded (LogicalOperator × Bool) :=
  let r := applyRules compareValue oper
  let rs := rewriteOpers r.result.1.children
  ⟨(r.result.1.withChildren rs.result.1, r.result.2 || rs.result.2), r.compared ++ rs.compared⟩
termination_by (oper.weight, 0)
decreasing_by
  have hweight := applyRules_weight compareValue oper
  have hchildren := (applyRules compareValue oper).result.1.weight_withChildren []
  have hpos := ((applyRules compareValue oper).result.1.withChildren []).weight_pos
  refine Prod.Lex.left _ _ ?_
  rw [LogicalOperator.weights] at hchildren
  omega

/-- Its loop over the children. -/
def rewriteOpers (opers : List LogicalOperator) : Folded (List LogicalOperator × Bool) :=
  match opers with
  | [] => ⟨([], false), []⟩
  | oper :: opers =>
    let r := rewrite oper
    let rs := rewriteOpers opers
    ⟨(r.result.1 :: rs.result.1, r.result.2 || rs.result.2), r.compared ++ rs.compared⟩
termination_by (LogicalOperator.weights opers, 1)
decreasing_by
  · exact Prod.Lex.right' _ (Nat.le_add_right _ _) Nat.zero_lt_one
  · have hpos := oper.weight_pos
    refine Prod.Lex.left _ _ ?_
    rw [LogicalOperator.weights]
    omega

end

theorem rewrite_weight (oper : LogicalOperator) :
    (rewrite compareValue oper).result.1.weight + (rewrite compareValue oper).result.2.toNat ≤ oper.weight := by
  have hor : ∀ b b' : Bool, (b || b').toNat ≤ b.toNat + b'.toNat := by decide
  refine rewrite.induct compareValue
    (fun oper => (rewrite compareValue oper).result.1.weight + (rewrite compareValue oper).result.2.toNat ≤ oper.weight)
    (fun opers => LogicalOperator.weights (rewriteOpers compareValue opers).result.1 +
      (rewriteOpers compareValue opers).result.2.toNat ≤ LogicalOperator.weights opers) ?_ ?_ ?_ oper
  · intro oper r ih
    have hopers : LogicalOperator.weights (rewriteOpers compareValue r.result.1.children).result.1 +
        (rewriteOpers compareValue r.result.1.children).result.2.toNat ≤ LogicalOperator.weights r.result.1.children := ih
    have hrules : r.result.1.weight + r.result.2.toNat ≤ oper.weight := applyRules_weight compareValue oper
    have hchildren := r.result.1.weight_withChildren (rewriteOpers compareValue r.result.1.children).result.1
    have := hor r.result.2 (rewriteOpers compareValue r.result.1.children).result.2
    rw [rewrite]
    change (r.result.1.withChildren (rewriteOpers compareValue r.result.1.children).result.1).weight +
      (r.result.2 || (rewriteOpers compareValue r.result.1.children).result.2).toNat ≤ oper.weight
    omega
  · simp [rewriteOpers]
  · intro oper opers ih ihs
    have := hor (rewrite compareValue oper).result.2 (rewriteOpers compareValue opers).result.2
    rw [rewriteOpers]
    simp only [LogicalOperator.weights]
    omega

end

/-! ## The loop -/

/-- A `char` of a string. -/
def charOf (b : UInt8) : Char := Char.ofNat b.toNat

theorem charOf_ne_zero {b : UInt8} (h : b ≠ 0) : charOf b ≠ Char.ofNat 0 := by
  have hall : ∀ n : Fin 256, Char.ofNat n = Char.ofNat 0 → n = 0 := by decide +kernel
  intro heq
  exact h (UInt8.toNat_inj.mp (congrArg Fin.val (hall ⟨b.toNat, b.toNat_lt⟩ heq)))

/-- `c_str()`. -/
def cString (s : Bytes) : CString where
  chars := (s.takeWhile (· ≠ 0)).map charOf
  noNul := by
    intro h
    obtain ⟨b, hb, heq⟩ := List.mem_map.mp h
    exact charOf_ne_zero (by simpa using List.mem_takeWhile_imp hb) heq

/-- `string_match` throws. -/
def Comparison.throws (c : Comparison) : Bool :=
  (c.comp == .like || c.comp == .notLike) &&
    match c.left, c.right with
    | .chars s, .chars t | .texts s, .texts t => (stringMatch (cString s) (cString t)).isNone
    | _, _ => false

section

variable (lib : CompareLib)

/-- `compare_value`, where `string_match` does not throw. -/
def compareValue (memory : Comparison → CompareMemory) (c : Comparison) : Bool :=
  (c.left.compare { lib with stringMatch := fun s t => (stringMatch (cString s) (cString t)).getD 0 }
    (memory c) c.comp c.right).1

/-- A pass of `OptimizeStage::rewrite`. An exception is `none`. -/
def pass (memory : Comparison → CompareMemory) (oper : LogicalOperator) : Option (LogicalOperator × Bool) :=
  let r := rewrite (compareValue lib memory) oper
  if r.compared.any Comparison.throws then none else some r.result

variable (memory : ℕ → Comparison → CompareMemory)

/-- The plan after passes that have all changed something. What the memory holds may be different in each. -/
inductive Passes (oper : LogicalOperator) : ℕ → LogicalOperator → Prop
  | start : Passes oper 0 oper
  | again {n : ℕ} {oper' oper'' : LogicalOperator} (h : Passes oper n oper')
      (hpass : pass lib (memory n) oper' = some (oper'', true)) : Passes oper (n + 1) oper''

/-- The loop of `OptimizeStage::rewrite` comes to a pass that changes nothing. -/
def Ends (oper : LogicalOperator) : Prop :=
  ∃ n oper' oper'', Passes lib memory oper n oper' ∧ pass lib (memory n) oper' = some (oper'', false)

/-- No pass compares two constants by `LIKE` with a pattern that `std::regex` refuses. -/
def NeverThrows (oper : LogicalOperator) : Prop :=
  ∀ n oper', Passes lib memory oper n oper' →
    ∀ c ∈ (rewrite (compareValue lib (memory n)) oper').compared, c.throws = false

variable {lib memory} {oper oper' oper'' : LogicalOperator} {n : ℕ}

theorem pass_eq_none_iff {memory : Comparison → CompareMemory} :
    pass lib memory oper = none ↔ ∃ c ∈ (rewrite (compareValue lib memory) oper).compared, c.throws = true := by
  dsimp only [pass]
  rw [← List.any_eq_true]
  split_ifs with h <;> simp [h]

theorem pass_weight {memory : Comparison → CompareMemory} (h : pass lib memory oper = some (oper', true)) :
    oper'.weight < oper.weight := by
  have hweight := rewrite_weight (compareValue lib memory) oper
  dsimp only [pass] at h
  split_ifs at h
  rw [Option.some.inj h] at hweight
  simpa using hweight

theorem Passes.unique (h : Passes lib memory oper n oper') (h' : Passes lib memory oper n oper'') : oper' = oper'' := by
  induction h generalizing oper'' with
  | start =>
    cases h'
    rfl
  | again _ hpass ih =>
    cases h' with
    | again h' hpass' =>
      rw [ih h', hpass'] at hpass
      exact (congrArg Prod.fst (Option.some.inj hpass)).symm

theorem Passes.pass_of_lt {m : ℕ} {last : LogicalOperator} (h : Passes lib memory oper n oper')
    (hlast : Passes lib memory oper m last) (hlt : n < m) : ∃ oper'', pass lib (memory n) oper' = some (oper'', true) := by
  induction hlast with
  | start => exact absurd hlt (Nat.not_lt_zero n)
  | @again k mid next hmid hpass ih =>
    rcases Nat.lt_or_eq_of_le (Nat.le_of_lt_succ hlt) with hlt | rfl
    · exact ih hlt
    · exact ⟨next, h.unique hmid ▸ hpass⟩

theorem NeverThrows.ends (h : NeverThrows lib memory oper) : Ends lib memory oper := by
  -- from any plan that has been reached the loop goes on with a lighter one, or ends
  have hreached : ∀ (weight n : ℕ) (oper' : LogicalOperator), oper'.weight ≤ weight → Passes lib memory oper n oper' →
      Ends lib memory oper := by
    intro weight
    induction weight with
    | zero =>
      intro n oper' hweight _
      exact absurd oper'.weight_pos (by omega)
    | succ weight ih =>
      intro n oper' hweight hpasses
      cases hpass : pass lib (memory n) oper' with
      | none =>
        obtain ⟨c, hc, hthrows⟩ := pass_eq_none_iff.mp hpass
        rw [h n oper' hpasses c hc] at hthrows
        cases hthrows
      | some result =>
        obtain ⟨oper'', changed⟩ := result
        cases changed with
        | false => exact ⟨n, oper', oper'', hpasses, hpass⟩
        | true =>
          have hlt := pass_weight hpass
          exact ih (n + 1) oper'' (by omega) (hpasses.again hpass)
  exact hreached oper.weight 0 oper le_rfl .start

theorem Ends.neverThrows (h : Ends lib memory oper) : NeverThrows lib memory oper := by
  intro n oper' hpasses c hc
  obtain ⟨m, last, oper'', hlast, hend⟩ := h
  rw [← Bool.not_eq_true]
  intro hthrows
  have hnone : pass lib (memory n) oper' = none := pass_eq_none_iff.mpr ⟨c, hc, hthrows⟩
  rcases Nat.lt_trichotomy n m with hlt | rfl | hlt
  · obtain ⟨next, hpass⟩ := hpasses.pass_of_lt hlast hlt
    rw [hnone] at hpass
    cases hpass
  · rw [hpasses.unique hlast, hend] at hnone
    cases hnone
  · obtain ⟨next, hpass⟩ := hlast.pass_of_lt hpasses hlt
    rw [hend] at hpass
    cases hpass

end

end Landbase.Sql.Rewriter
