import Landbase.Sql.Expression

/-! # `ConjunctionSimplificationRule`

The rule of `sql/optimizer/conjunction_simplification_rule.cpp` removes the constants of a conjunction. Where a constant
decides the whole, the rule means to put this constant in place of the conjunction, but takes the first child that is
left; and a disjunction of constants only is emptied, which makes it true.
-/

namespace Landbase.Sql
set_option autoImplicit false

namespace Expression

variable {T : Type}

/-! ## The rule -/

/-- `try_to_get_bool_constant`. -/
def boolConstant? : Expression T → Option Bool
  | .value (.booleans b) => some b
  | _ => none

/-- The loop of `ConjunctionSimplificationRule::rewrite`: the children passed so far and those to come. The result is the
child that replaces the whole, or the children that are left. -/
def simplifyLoop (type : ConjunctionType) : List (Expression T) → List (Expression T) → Expression T ⊕ List (Expression T)
  | kept, [] => .inr kept
  | kept, child :: children =>
    match child.boolConstant? with
    | none => simplifyLoop type (kept ++ [child]) children
    | some constant =>
      if type = .and then
        if constant then simplifyLoop type kept children
        -- always be false: `child_exprs.front()`
        else .inl (kept.headD child)
      else
        if constant then .inl (kept.headD child)
        else simplifyLoop type kept children

/-- `ConjunctionSimplificationRule::rewrite`, which always succeeds: the new expression and `change_made`. -/
def simplify : Expression T → Expression T × Bool
  | .conjunction type children =>
    match simplifyLoop type [] children with
    | .inl child => (child, false)
    | .inr [child] => (child, true)
    | .inr kept => (.conjunction type kept, false)
  | e => (e, false)

/-! ## What the loop leaves -/

/-- A constant with the decisive value. -/
def IsDecisive (type : ConjunctionType) (e : Expression T) : Prop := e.boolConstant? = some type.decisive

instance (type : ConjunctionType) : DecidablePred (IsDecisive (T := T) type) := fun _ =>
  inferInstanceAs (Decidable (_ = _))

theorem truth_of_boolConstant {e : Expression T} {b : Bool} (h : e.boolConstant? = some b) (tuple : T) :
    e.truth tuple = some b := by
  unfold boolConstant? at h
  split at h
  · rw [truth_value, Value.getBoolean]
    exact h
  · cases h

theorem simplifyLoop_cons_none {type : ConjunctionType} {kept children : List (Expression T)} {child : Expression T}
    (h : child.boolConstant? = none) :
    simplifyLoop type kept (child :: children) = simplifyLoop type (kept ++ [child]) children := by
  rw [simplifyLoop, h]

theorem simplifyLoop_cons_some {type : ConjunctionType} {kept children : List (Expression T)} {child : Expression T}
    {b : Bool} (h : child.boolConstant? = some b) :
    simplifyLoop type kept (child :: children) =
      if b = type.decisive then .inl (kept.headD child) else simplifyLoop type kept children := by
  rw [simplifyLoop, h]
  cases type <;> cases b <;> rfl

theorem simplifyLoop_of_none {type : ConjunctionType} {kept children : List (Expression T)}
    (h : ∀ child ∈ children, ¬IsDecisive type child) :
    simplifyLoop type kept children = .inr (kept ++ children.filter fun child => child.boolConstant?.isNone) := by
  induction children generalizing kept with
  | nil => simp [simplifyLoop]
  | cons child children ih =>
    have hrest := fun c hc => h c (List.mem_cons_of_mem child hc)
    cases hconstant : child.boolConstant? with
    | none => rw [simplifyLoop_cons_none hconstant, ih hrest, List.append_assoc]; simp [hconstant]
    | some b =>
      have hne : b ≠ type.decisive := fun heq => h child (by simp) (hconstant.trans (congrArg some heq))
      rw [simplifyLoop_cons_some hconstant, if_neg hne, ih hrest]
      simp [hconstant]

/-- Up to the first decisive constant the children that are no constants are kept, and the first of these is taken. -/
theorem simplifyLoop_of_decisive {type : ConjunctionType} {kept before after : List (Expression T)}
    {constant : Expression T} (hbefore : ∀ child ∈ before, ¬IsDecisive type child) (h : IsDecisive type constant) :
    simplifyLoop type kept (before ++ constant :: after) =
      .inl ((kept ++ before.filter fun child => child.boolConstant?.isNone).headD constant) := by
  induction before generalizing kept with
  | nil => rw [List.nil_append, simplifyLoop_cons_some h, if_pos rfl]; simp
  | cons child before ih =>
    have hrest := fun c hc => hbefore c (List.mem_cons_of_mem child hc)
    rw [List.cons_append]
    cases hconstant : child.boolConstant? with
    | none => rw [simplifyLoop_cons_none hconstant, ih hrest, List.append_assoc]; simp [hconstant]
    | some b =>
      have hne : b ≠ type.decisive := fun heq => hbefore child (by simp) (hconstant.trans (congrArg some heq))
      rw [simplifyLoop_cons_some hconstant, if_neg hne, ih hrest]
      simp [hconstant]

/-! ## When the value stays -/

/-- The children in front of the first decisive constant that are no constants. -/
def undecided (type : ConjunctionType) (children : List (Expression T)) : List (Expression T) :=
  (children.takeWhile fun child => ¬IsDecisive type child).filter fun child => child.boolConstant?.isNone

/-- With a decisive constant, the first child that is no constant stands behind it or has the decisive value as well.
Without one, the expression is not a disjunction of constants. -/
def KeepsTruth (type : ConjunctionType) (children : List (Expression T)) (tuple : T) : Prop :=
  if ∃ child ∈ children, IsDecisive type child then
    ∀ child, (undecided type children).head? = some child → child.truth tuple = some type.decisive
  else ¬(type = .or ∧ children ≠ [] ∧ ∀ child ∈ children, child.boolConstant? ≠ none)

theorem truth_of_not_decisive {type : ConjunctionType} {e : Expression T} {b : Bool} (hconstant : e.boolConstant? = some b)
    (h : ¬IsDecisive type e) (tuple : T) : e.truth tuple = some !type.decisive := by
  have hne : b ≠ type.decisive := fun heq => h (hconstant.trans (congrArg some heq))
  rw [truth_of_boolConstant hconstant, Bool.eq_not_of_ne hne]

theorem simplify_of_decisive {type : ConjunctionType} {children : List (Expression T)}
    (h : ∃ child ∈ children, IsDecisive type child) :
    ∃ constant, IsDecisive type constant ∧
      (simplify (.conjunction type children)).1 = (undecided type children).headD constant := by
  obtain ⟨constant, hfind⟩ := Option.isSome_iff_exists.mp (List.find?_isSome (p := fun child => IsDecisive type child)
    |>.mpr (by simpa using h))
  obtain ⟨hconstant, before, after, rfl, hbefore⟩ := List.find?_eq_some_iff_append.mp hfind
  have hconstant : IsDecisive type constant := by simpa using hconstant
  have hbefore : ∀ child ∈ before, ¬IsDecisive type child := by simpa using hbefore
  have htake : (before ++ constant :: after).takeWhile (fun child => ¬IsDecisive type child) = before := by
    rw [List.takeWhile_append_of_pos (by simpa using hbefore), List.takeWhile_cons_of_neg (by simpa using hconstant),
      List.append_nil]
  refine ⟨constant, hconstant, ?_⟩
  rw [simplify, simplifyLoop_of_decisive hbefore hconstant, undecided, htake]
  rfl

/-- Without a decisive constant, the children that are no constants have the value of all of them. -/
theorem exists_decisive_filter {type : ConjunctionType} {children : List (Expression T)} {tuple : T}
    (h : ∀ child ∈ children, ¬IsDecisive type child) :
    (∃ child ∈ children, child.truth tuple = some type.decisive) ↔
      ∃ child ∈ children.filter (fun child => child.boolConstant?.isNone), child.truth tuple = some type.decisive := by
  constructor
  · rintro ⟨child, hchild, htruth⟩
    refine ⟨child, List.mem_filter.mpr ⟨hchild, ?_⟩, htruth⟩
    cases hconstant : child.boolConstant? with
    | none => rfl
    | some b =>
      rw [truth_of_not_decisive hconstant (h child hchild)] at htruth
      exact absurd (Option.some.inj htruth) (by simp)
  · rintro ⟨child, hchild, htruth⟩
    exact ⟨child, (List.mem_filter.mp hchild).1, htruth⟩

theorem truth_simplify_of_none {type : ConjunctionType} {children : List (Expression T)} {tuple : T}
    (htruth : ∀ child ∈ children, ∃ b, child.truth tuple = some b) (h : ∀ child ∈ children, ¬IsDecisive type child)
    (hne : children.filter (fun child => child.boolConstant?.isNone) ≠ []) :
    (simplify (.conjunction type children)).1.truth tuple = (conjunction type children).truth tuple := by
  have hchildren : children ≠ [] := by
    rintro rfl
    exact hne rfl
  have hloop : simplifyLoop type [] children = _ := simplifyLoop_of_none h
  rw [truth_conjunction htruth hchildren]
  simp only [exists_decisive_filter h]
  have hkept : ∀ child ∈ children.filter (fun child => child.boolConstant?.isNone), ∃ b, child.truth tuple = some b :=
    fun child hchild => htruth child (List.mem_filter.mp hchild).1
  generalize children.filter (fun child => child.boolConstant?.isNone) = kept at hne hloop hkept
  rw [List.nil_append] at hloop
  rw [simplify, hloop]
  cases kept with
  | nil => exact absurd rfl hne
  | cons child kept =>
    cases kept with
    | nil =>
      obtain ⟨b, hb⟩ := hkept child (by simp)
      show child.truth tuple = _
      cases type <;> cases b <;> simp [hb, ConjunctionType.decisive]
    | cons child' kept => exact truth_conjunction hkept (by simp)

/-- On a tuple on which the children evaluate without error, the rule keeps the value of a conjunction exactly when
`KeepsTruth` holds. -/
theorem simplify_truth_iff {type : ConjunctionType} {children : List (Expression T)} {tuple : T}
    (h : ∀ child ∈ children, ∃ v, child.getValue tuple = .ok v) :
    (simplify (.conjunction type children)).1.truth tuple = (conjunction type children).truth tuple ↔
      KeepsTruth type children tuple := by
  have htruth : ∀ child ∈ children, ∃ b, child.truth tuple = some b := by
    intro child hchild
    obtain ⟨v, hv⟩ := h child hchild
    exact ⟨v.getBoolean, truth_of_ok hv⟩
  unfold KeepsTruth
  split
  · next hdecisive =>
    obtain ⟨constant, hconstant, hsimplify⟩ := simplify_of_decisive hdecisive
    obtain ⟨child, hchild, hchildDecisive⟩ := hdecisive
    have hwhole : (conjunction type children).truth tuple = some type.decisive := by
      rw [truth_conjunction htruth (List.ne_nil_of_mem hchild),
        if_pos ⟨child, hchild, truth_of_boolConstant hchildDecisive tuple⟩]
    rw [hsimplify, hwhole]
    cases undecided type children with
    | nil => simp [truth_of_boolConstant hconstant tuple]
    | cons first rest => simp
  · next hnone =>
    have hnone : ∀ child ∈ children, ¬IsDecisive type child := fun child hchild hdecisive =>
      hnone ⟨child, hchild, hdecisive⟩
    by_cases hkept : children.filter (fun child => child.boolConstant?.isNone) = []
    · have hall : ∀ child ∈ children, child.boolConstant? ≠ none := by
        intro child hchild hconstant
        have hkeep := List.filter_eq_nil_iff.mp hkept child hchild
        rw [hconstant] at hkeep
        exact hkeep rfl
      have hempty : (simplify (.conjunction type children)).1 = .conjunction type [] := by
        rw [simplify, simplifyLoop_of_none hnone, hkept]
        rfl
      rw [hempty, truth_conjunction_nil]
      by_cases hchildren : children = []
      · simp [hchildren, truth_conjunction_nil]
      · have hfalse : ¬∃ child ∈ children, child.truth tuple = some type.decisive := by
          rw [exists_decisive_filter hnone, hkept]
          simp
        rw [truth_conjunction htruth hchildren, if_neg hfalse]
        have hconstants : (type = .or ∧ children ≠ [] ∧ ∀ child ∈ children, child.boolConstant? ≠ none) ↔ type = .or :=
          ⟨fun hor => hor.1, fun hor => ⟨hor, hchildren, hall⟩⟩
        rw [hconstants]
        cases type <;> simp [ConjunctionType.decisive]
    · refine iff_of_true (truth_simplify_of_none htruth hnone hkept) ?_
      rintro ⟨-, -, hall⟩
      apply hkept
      rw [List.filter_eq_nil_iff]
      intro child hchild
      simpa using hall child hchild

/-- A conjunction with a constant behind a child that is false as well. -/
theorem simplify_truth_same :
    let child : Expression Bool := .other fun tuple => .ok (.booleans tuple)
    (simplify (.conjunction .and [.value (.booleans true), child, .value (.booleans false)])).1.truth false =
      (conjunction .and [.value (.booleans true), child, .value (.booleans false)]).truth false := by
  intro child
  refine (simplify_truth_iff ?_).mpr ?_
  · intro c hc
    simp only [List.mem_cons, List.not_mem_nil, or_false] at hc
    rcases hc with rfl | rfl | rfl
    · exact ⟨_, rfl⟩
    · exact ⟨_, rfl⟩
    · exact ⟨_, rfl⟩
  · rw [KeepsTruth, if_pos ⟨.value (.booleans false), by simp, rfl⟩]
    intro first hfirst
    have hchild : first = child := by
      simpa [undecided, IsDecisive, boolConstant?, ConjunctionType.decisive, child] using hfirst.symm
    rw [hchild]
    rfl

/-- `AND` of a child that is true and the constant `false`. -/
theorem simplify_truth_differs :
    let child : Expression Bool := .other fun tuple => .ok (.booleans tuple)
    (conjunction .and [child, .value (.booleans false)]).truth true = some false ∧
      (simplify (.conjunction .and [child, .value (.booleans false)])).1.truth true = some true :=
  ⟨rfl, rfl⟩

end Expression

end Landbase.Sql
