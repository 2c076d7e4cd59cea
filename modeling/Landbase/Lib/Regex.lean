import Mathlib.Computability.Language
import Mathlib.Tactic

/-! # ECMAScript regular expressions

The syntax and the matching of ECMAScript, with the named classes that C++ adds in brackets. A pattern is read into a tree,
or refused; the tree is matched by backtracking, and all ways to match are listed in their order.

As in libstdc++, a `]` or `}` that closes nothing is a character. A reference may be to any group of the pattern, where
libstdc++ wants one that is closed already. It also copies the operand of a quantifier for each of its bounds and gives up at
100000 states; here neither bounds nor patterns nor strings are too large.

A tree without captures and assertions has a language, and it is composed as the tree is. A tree without negative
lookahead, word boundaries and references to groups matches a string with other characters where it matches the string,
if each of its sets of characters does so.
-/

namespace Landbase.Lib
open scoped Computability
set_option autoImplicit false

/-! ## Trees -/

/-- `\d`, `\s`, `\w` and the classes in `[:` and `:]`. -/
inductive CharClass
  | alnum | alpha | blank | cntrl | digit | graph | lower | print | punct | space | upper | xdigit | word
  deriving DecidableEq

inductive ClassItem
  | range (first last : Char)
  | escape (negated : Bool) (cls : CharClass)
  deriving DecidableEq

inductive Regex
  | empty
  | any
  | set (negated : Bool) (items : List ClassItem)
  | assertBegin
  | assertEnd
  | wordBoundary (negated : Bool)
  | lookahead (negated : Bool) (r : Regex)
  /-- A group with its number. -/
  | group (index : ℕ) (r : Regex)
  | backref (index : ℕ)
  | seq (r s : Regex)
  | alt (r s : Regex)
  /-- A quantifier. The groups in the operand are those after `groups`, `inside` many. -/
  | quantified (r : Regex) (min : ℕ) (max : Option ℕ) (greedy : Bool) (groups inside : ℕ)
  deriving DecidableEq

namespace CharClass

/-- Membership, in the locale `C`. -/
def mem (c : Char) : CharClass → Bool
  | .alnum => c.isAlphanum
  | .alpha => c.isAlpha
  | .blank => c = ' ' || c = '\t'
  | .cntrl => c.toNat < 32 || c.toNat = 127
  | .digit => c.isDigit
  | .graph => 32 < c.toNat && c.toNat < 127
  | .lower => c.isLower
  | .print => 32 ≤ c.toNat && c.toNat < 127
  | .punct => 32 < c.toNat && c.toNat < 127 && !c.isAlphanum
  | .space => c = ' ' || (9 ≤ c.toNat && c.toNat ≤ 13)
  | .upper => c.isUpper
  | .xdigit => c.isDigit || ('a' ≤ c && c ≤ 'f') || ('A' ≤ c && c ≤ 'F')
  | .word => c.isAlphanum || c = '_'

/-- The names that may stand between `[:` and `:]`. -/
def ofName (name : List Char) : Option CharClass :=
  [("alnum", alnum), ("alpha", alpha), ("blank", blank), ("cntrl", cntrl), ("digit", digit), ("graph", graph),
    ("lower", lower), ("print", print), ("punct", punct), ("space", space), ("upper", upper), ("xdigit", xdigit),
    ("d", digit), ("s", space), ("w", word)].lookup (String.ofList name)

end CharClass

def ClassItem.mem (c : Char) : ClassItem → Bool
  | .range first last => first ≤ c && c ≤ last
  | .escape negated cls => cls.mem c != negated

theorem ClassItem.mem_range_self (c d : Char) : mem d (.range c c) = decide (d = c) := by
  rw [mem, Bool.eq_iff_iff, Bool.and_eq_true, decide_eq_true_eq, decide_eq_true_eq, decide_eq_true_eq]
  exact ⟨fun h => Char.le_antisymm h.2 h.1, fun h => h ▸ ⟨Char.le_refl d, Char.le_refl d⟩⟩

namespace Regex

/-- The tree of a character. -/
def char (c : Char) : Regex := .set false [.range c c]

/-! ## Reading a pattern -/

/-- `SyntaxCharacter`, but for `]` and `}`: they mean something only behind a `[` or a `{`. -/
def syntaxCharacters : List Char := ['^', '$', '\\', '.', '*', '+', '?', '(', ')', '[', '{', '|']

def hexValue (c : Char) : Option ℕ :=
  if c.isDigit then some (c.toNat - '0'.toNat)
  else if 'a' ≤ c && c ≤ 'f' then some (c.toNat - 'a'.toNat + 10)
  else if 'A' ≤ c && c ≤ 'F' then some (c.toNat - 'A'.toNat + 10)
  else none

def hexDigits (digits : List Char) : Option Char :=
  (digits.foldlM (fun n c => (hexValue c).map (16 * n + ·)) 0).map Char.ofNat

def decimalValue (digits : List Char) : ℕ := digits.foldl (fun n c => 10 * n + (c.toNat - '0'.toNat)) 0

/-- `ControlEscape`, `c` with a letter, `HexEscapeSequence`, `UnicodeEscapeSequence` and `IdentityEscape`. -/
def characterEscape : List Char → Option (Char × List Char)
  | 'f' :: rest => some (Char.ofNat 12, rest)
  | 'n' :: rest => some (Char.ofNat 10, rest)
  | 'r' :: rest => some (Char.ofNat 13, rest)
  | 't' :: rest => some (Char.ofNat 9, rest)
  | 'v' :: rest => some (Char.ofNat 11, rest)
  | 'c' :: c :: rest => if c.isAlpha then some (Char.ofNat (c.toNat % 32), rest) else none
  | 'x' :: a :: b :: rest => (hexDigits [a, b]).map (·, rest)
  | 'u' :: a :: b :: c :: d :: rest => (hexDigits [a, b, c, d]).map (·, rest)
  | c :: rest => if c.isAlphanum || c = '_' then none else some (c, rest)
  | [] => none

/-- `CharacterClassEscape`. -/
def classEscape : Char → Option ClassItem
  | 'd' => some (.escape false .digit)
  | 'D' => some (.escape true .digit)
  | 's' => some (.escape false .space)
  | 'S' => some (.escape true .space)
  | 'w' => some (.escape false .word)
  | 'W' => some (.escape true .word)
  | _ => none

/-- What stands up to the character and `]`. -/
def untilClose (close : Char) : List Char → Option (List Char × List Char)
  | [] => none
  | c :: rest =>
    if c = close && rest.head? = some ']' then some ([], rest.tail)
    else (untilClose close rest).map fun (name, rest) => (c :: name, rest)

/-- A collating element has its character as its name. -/
def collatingElement : List Char × List Char → Option (ClassItem × List Char)
  | ([c], rest) => some (.range c c, rest)
  | _ => none

/-- `ClassAtom`: a character is the range of it alone. -/
def classAtom : List Char → Option (ClassItem × List Char)
  | '\\' :: 'b' :: rest => some (.range (Char.ofNat 8) (Char.ofNat 8), rest)
  | '\\' :: '0' :: rest => if rest.head?.any Char.isDigit then none else some (.range (Char.ofNat 0) (Char.ofNat 0), rest)
  | '\\' :: c :: rest =>
    match classEscape c with
    | some item => some (item, rest)
    | none => (characterEscape (c :: rest)).map fun (c, rest) => (.range c c, rest)
  | '[' :: ':' :: rest => do
    let (name, rest) ← untilClose ':' rest
    let cls ← CharClass.ofName name
    return (.escape false cls, rest)
  | '[' :: '.' :: rest => (untilClose '.' rest).bind collatingElement
  | '[' :: '=' :: rest => (untilClose '=' rest).bind collatingElement
  | c :: rest => if c = '\\' then none else some (.range c c, rest)
  | [] => none

/-- The range between two atoms, which have to be characters. -/
def classRange : ClassItem → ClassItem → Option ClassItem
  | .range first _, .range last _ => if first ≤ last then some (.range first last) else none
  | _, _ => none

/-- `ClassRanges` and the `]` behind them. Every atom has a character at least. -/
def classRanges : ℕ → List Char → Option (List ClassItem × List Char)
  | 0, _ => none
  | fuel + 1, input =>
    if input.head? = some ']' then some ([], input.tail)
    else do
      let (item, rest) ← classAtom input
      if rest.head? = some '-' && rest.tail.head? ≠ some ']' then
        let (last, rest) ← classAtom rest.tail
        let item ← classRange item last
        let (items, rest) ← classRanges fuel rest
        return (item :: items, rest)
      else
        let (items, rest) ← classRanges fuel rest
        return (item :: items, rest)

/-- `CharacterClass` behind its `[`. -/
def characterClass (input : List Char) : Option (Regex × List Char) :=
  if input.head? = some '^' then (classRanges input.length input.tail).map fun (items, rest) => (.set true items, rest)
  else (classRanges (input.length + 1) input).map fun (items, rest) => (.set false items, rest)

/-- The bounds of `QuantifierPrefix`; no quantifier is `some none`. -/
def quantifierPrefix : List Char → Option (Option (ℕ × Option ℕ) × List Char)
  | '*' :: rest => some (some (0, none), rest)
  | '+' :: rest => some (some (1, none), rest)
  | '?' :: rest => some (some (0, some 1), rest)
  | '{' :: input =>
    let digits := input.takeWhile Char.isDigit
    if digits = [] then none
    else
      match input.dropWhile Char.isDigit with
      | '}' :: rest => some (some (decimalValue digits, some (decimalValue digits)), rest)
      | ',' :: '}' :: rest => some (some (decimalValue digits, none), rest)
      | ',' :: input =>
        let digits' := input.takeWhile Char.isDigit
        match input.dropWhile Char.isDigit with
        | '}' :: rest =>
          if digits' = [] ∨ decimalValue digits' < decimalValue digits then none
          else some (some (decimalValue digits, some (decimalValue digits')), rest)
        | _ => none
      | _ => none
  | input => some (none, input)

/-- An atom with its quantifier, where `groups` had been read before the atom and `groups'` with it. -/
def quantifier (r : Regex) (groups groups' : ℕ) (input : List Char) : Option (Regex × List Char × ℕ) :=
  match quantifierPrefix input with
  | none => none
  | some (none, rest) => some (r, rest, groups')
  | some (some (min, max), '?' :: rest) => some (.quantified r min max false groups (groups' - groups), rest, groups')
  | some (some (min, max), rest) => some (.quantified r min max true groups (groups' - groups), rest, groups')

/-- `AtomEscape` behind its `\`. -/
def atomEscape : List Char → Option (Regex × List Char)
  | [] => none
  | c :: rest =>
    if c = '0' then if rest.head?.any Char.isDigit then none else some (char (Char.ofNat 0), rest)
    else if c.isDigit then
      some (.backref (decimalValue ((c :: rest).takeWhile Char.isDigit)), (c :: rest).dropWhile Char.isDigit)
    else
      match classEscape c with
      | some item => some (.set false [item], rest)
      | none => (characterEscape (c :: rest)).map fun (c, rest) => (char c, rest)

mutual

/-- `Disjunction`: the tree, what is left of the input, and how many groups have been read. -/
def disjunction : ℕ → List Char → ℕ → Option (Regex × List Char × ℕ)
  | 0, _, _ => none
  | fuel + 1, input, groups => do
    let (r, rest, groups) ← alternative fuel input groups
    match rest with
    | '|' :: rest =>
      let (s, rest, groups) ← disjunction fuel rest groups
      return (.alt r s, rest, groups)
    | rest => return (r, rest, groups)

/-- `Alternative`, up to the end, a `|` or a `)`. -/
def alternative : ℕ → List Char → ℕ → Option (Regex × List Char × ℕ)
  | 0, _, _ => none
  | fuel + 1, input, groups =>
    if input = [] ∨ input.head? = some '|' ∨ input.head? = some ')' then some (.empty, input, groups)
    else do
      let (r, rest, groups) ← term fuel input groups
      let (s, rest, groups) ← alternative fuel rest groups
      return (.seq r s, rest, groups)

/-- `Term`: an assertion, or an atom with its quantifier. -/
def term : ℕ → List Char → ℕ → Option (Regex × List Char × ℕ)
  | 0, _, _ => none
  | fuel + 1, input, groups =>
    match input with
    | [] => none
    | '^' :: rest => some (.assertBegin, rest, groups)
    | '$' :: rest => some (.assertEnd, rest, groups)
    | '.' :: rest => quantifier .any groups groups rest
    | '\\' :: 'b' :: rest => some (.wordBoundary false, rest, groups)
    | '\\' :: 'B' :: rest => some (.wordBoundary true, rest, groups)
    | '\\' :: rest => (atomEscape rest).bind fun (r, rest) => quantifier r groups groups rest
    | '[' :: rest => (characterClass rest).bind fun (r, rest) => quantifier r groups groups rest
    | '(' :: '?' :: '=' :: rest => do
      let (r, rest, groups) ← disjunction fuel rest groups
      if rest.head? = some ')' then some (.lookahead false r, rest.tail, groups) else none
    | '(' :: '?' :: '!' :: rest => do
      let (r, rest, groups) ← disjunction fuel rest groups
      if rest.head? = some ')' then some (.lookahead true r, rest.tail, groups) else none
    | '(' :: '?' :: ':' :: rest => do
      let (r, rest, groups') ← disjunction fuel rest groups
      if rest.head? = some ')' then quantifier r groups groups' rest.tail else none
    | '(' :: rest => do
      let (r, rest, groups') ← disjunction fuel rest (groups + 1)
      if rest.head? = some ')' then quantifier (.group (groups + 1) r) groups groups' rest.tail else none
    | c :: rest => if c ∈ syntaxCharacters then none else quantifier (char c) groups groups rest

end

/-- The greatest number of a group that is referred to. -/
def maxBackref : Regex → ℕ
  | .backref index => index
  | .lookahead _ r | .group _ r | .quantified r _ _ _ _ _ => r.maxBackref
  | .seq r s | .alt r s => Nat.max r.maxBackref s.maxBackref
  | _ => 0

/-- `Pattern`. A disjunction, its alternatives and their terms take three calls for a character at most. -/
def parse (pattern : List Char) : Option Regex :=
  match disjunction (3 * pattern.length + 2) pattern 0 with
  | some (r, [], groups) => if r.maxBackref ≤ groups then some r else none
  | _ => none

/-! ## Matching -/

/-- What has been matched, backwards, what is left, and what the groups hold. -/
structure State where
  before : List Char
  rest : List Char
  captures : ℕ → Option (List Char)

def State.start (s : List Char) : State := ⟨[], s, fun _ => none⟩

/-- The state behind a part of what is left. -/
def State.skip (st : State) (u : List Char) : State :=
  { st with before := u.reverse ++ st.before, rest := st.rest.drop u.length }

/-- The groups of a quantifier's operand are forgotten before each iteration. -/
def State.forget (st : State) (groups inside : ℕ) : State :=
  { st with captures := fun i => if groups < i ∧ i ≤ groups + inside then none else st.captures i }

def isLineTerminator (c : Char) : Bool := c.toNat = 10 || c.toNat = 13 || c.toNat = 0x2028 || c.toNat = 0x2029

/-- `RepeatMatcher`. After the least number of iterations, one that matches nothing is refused; so each uses up the minimum
or a character, and the fuel is enough. -/
def iterate (step : State → List State) (greedy : Bool) : ℕ → ℕ → Option ℕ → State → List State
  | 0, _, _, _ => []
  | fuel + 1, min, max, st =>
    if max = some 0 then [st]
    else
      let more := (step st).flatMap fun next =>
        if min = 0 ∧ next.rest.length = st.rest.length then []
        else iterate step greedy fuel (min - 1) (max.map (· - 1)) next
      if min ≠ 0 then more else if greedy then more ++ [st] else st :: more

/-- The ways to match a tree from a state on, the first one first. -/
def run : Regex → State → List State
  | .empty, st => [st]
  | .any, st => if st.rest.head?.any (!isLineTerminator ·) then [st.skip (st.rest.take 1)] else []
  | .set negated items, st =>
    if st.rest.head?.any fun c => (items.any (ClassItem.mem c)) != negated then [st.skip (st.rest.take 1)] else []
  | .assertBegin, st => if st.before = [] then [st] else []
  | .assertEnd, st => if st.rest = [] then [st] else []
  | .wordBoundary negated, st =>
    let left := st.before.head?.any fun c => CharClass.word.mem c
    let right := st.rest.head?.any fun c => CharClass.word.mem c
    if (left != right) != negated then [st] else []
  | .lookahead negated r, st =>
    match (r.run st).head? with
    | none => if negated then [st] else []
    | some found => if negated then [] else [{ st with captures := found.captures }]
  | .group index r, st => (r.run st).map fun found =>
    let captured := (found.before.take (found.before.length - st.before.length)).reverse
    { found with captures := Function.update found.captures index (some captured) }
  | .backref index, st =>
    let captured := (st.captures index).getD []
    if captured.isPrefixOf st.rest then [st.skip captured] else []
  | .seq r s, st => (r.run st).flatMap s.run
  | .alt r s, st => r.run st ++ s.run st
  | .quantified r min max greedy groups inside, st =>
    iterate (fun st => r.run (st.forget groups inside)) greedy (min + st.rest.length + 1) min max st

/-- `std::regex_match`: the whole string is matched. -/
def regexMatch (r : Regex) (s : List Char) : Bool := (r.run (State.start s)).any fun found => found.rest.isEmpty

/-! ## Patterns without groups -/

/-- No quantifier stands here. -/
def NoQuantifier (input : List Char) : Prop := ∀ c, input.head? = some c → c ∉ ['*', '+', '?', '{']

theorem quantifierPrefix_of_noQuantifier {input : List Char} (h : NoQuantifier input) :
    quantifierPrefix input = some (none, input) := by
  cases input with
  | nil => rfl
  | cons c rest =>
    have hc := h c rfl
    simp only [List.mem_cons, List.not_mem_nil, or_false, not_or] at hc
    unfold quantifierPrefix
    split <;> simp_all

theorem quantifier_of_noQuantifier {input : List Char} (h : NoQuantifier input) (r : Regex) (groups groups' : ℕ) :
    quantifier r groups groups' input = some (r, input, groups') := by
  rw [quantifier, quantifierPrefix_of_noQuantifier h]

theorem quantifier_of_bounds {input rest : List Char} {min : ℕ} {max : Option ℕ}
    (h : quantifierPrefix input = some (some (min, max), rest)) (hrest : NoQuantifier rest) (r : Regex)
    (groups groups' : ℕ) :
    quantifier r groups groups' input = some (.quantified r min max true groups (groups' - groups), rest, groups') := by
  have hlazy : ∀ rest', rest ≠ '?' :: rest' := fun rest' heq => hrest '?' (by rw [heq]; rfl) (by decide)
  unfold quantifier
  rw [h]
  split <;> simp_all

/-- The text is read as one term with the tree and no groups, in front of anything but a quantifier. -/
structure Reads (text : List Char) (r : Regex) : Prop where
  start : ∃ c, text.head? = some c ∧ c ∉ ['*', '+', '?', '{', '|', ')']
  term (fuel : ℕ) (rest : List Char) (h : NoQuantifier rest) : Regex.term (fuel + 1) (text ++ rest) 0 = some (r, rest, 0)
  maxBackref : r.maxBackref = 0

/-- An ordinary character is read as itself. -/
theorem reads_char {c : Char} (h : c ∉ syntaxCharacters) : Reads [c] (char c) where
  start := by
    refine ⟨c, rfl, fun hmem => h ?_⟩
    simp only [List.mem_cons, List.not_mem_nil, or_false] at hmem
    simp only [syntaxCharacters, List.mem_cons, List.not_mem_nil, or_false]
    tauto
  term fuel rest hrest := by
    have hquantifier := quantifier_of_noQuantifier hrest (char c) 0 0
    rw [List.singleton_append]
    unfold Regex.term
    split <;> simp_all [syntaxCharacters]
  maxBackref := rfl

/-- The tree of terms in a row. -/
def seqAll (terms : List Regex) : Regex := terms.foldr .seq .empty

section

variable {α : Type} {text : α → List Char} {tree : α → Regex}

theorem noQuantifier_flatMap {l : List α} (h : ∀ a ∈ l, Reads (text a) (tree a)) : NoQuantifier (l.flatMap text) := by
  intro c hc
  cases l with
  | nil => cases hc
  | cons a l =>
    obtain ⟨d, hd, hne⟩ := (h a List.mem_cons_self).start
    have hcd : c = d := by
      rw [List.flatMap_cons, List.head?_append, hd] at hc
      exact (Option.some.inj hc).symm
    subst hcd
    intro hmem
    refine hne ?_
    simp only [List.mem_cons, List.not_mem_nil, or_false] at hmem ⊢
    tauto

theorem alternative_flatMap {l : List α} (h : ∀ a ∈ l, Reads (text a) (tree a)) {fuel : ℕ}
    (hfuel : l.length + 1 < fuel) : alternative fuel (l.flatMap text) 0 = some (seqAll (l.map tree), [], 0) := by
  induction l generalizing fuel with
  | nil =>
    obtain ⟨fuel, rfl⟩ := Nat.exists_eq_add_of_lt hfuel
    rfl
  | cons a l ih =>
    obtain ⟨fuel, rfl⟩ : ∃ n, fuel = n + 2 := ⟨fuel - 2, by rw [List.length_cons] at hfuel; omega⟩
    have hrest := fun b hb => h b (List.mem_cons_of_mem a hb)
    have hread := h a List.mem_cons_self
    obtain ⟨c, hc, hne⟩ := hread.start
    have hhead : ((a :: l).flatMap text).head? = some c := by rw [List.flatMap_cons, List.head?_append, hc]; rfl
    have hmore : ¬((a :: l).flatMap text = [] ∨ ((a :: l).flatMap text).head? = some '|' ∨
        ((a :: l).flatMap text).head? = some ')') := by
      simp only [List.mem_cons, List.not_mem_nil, or_false, not_or] at hne
      rw [hhead]
      rintro (hnil | hbar | hclose)
      · rw [hnil] at hhead
        cases hhead
      · exact hne.2.2.2.2.1 (Option.some.inj hbar)
      · exact hne.2.2.2.2.2 (Option.some.inj hclose)
    have hih : alternative (fuel + 1) (l.flatMap text) 0 = some (seqAll (l.map tree), [], 0) :=
      ih hrest (by rw [List.length_cons] at hfuel; omega)
    rw [alternative, if_neg hmore, List.flatMap_cons, hread.term fuel _ (noQuantifier_flatMap hrest)]
    simp [hih, seqAll]

/-- A pattern that is put together of such texts is read as their terms in a row. -/
theorem parse_flatMap {l : List α} (h : ∀ a ∈ l, Reads (text a) (tree a)) :
    parse (l.flatMap text) = some (seqAll (l.map tree)) := by
  have hlength : l.length ≤ (l.flatMap text).length := by
    induction l with
    | nil => exact Nat.zero_le _
    | cons a l ih =>
      obtain ⟨c, hc, -⟩ := (h a List.mem_cons_self).start
      have hpos : 0 < (text a).length := by
        cases htext : text a with
        | nil => rw [htext] at hc; cases hc
        | cons => simp
      have := ih fun b hb => h b (List.mem_cons_of_mem a hb)
      rw [List.flatMap_cons, List.length_append, List.length_cons]
      omega
  have hbackref : (seqAll (l.map tree)).maxBackref = 0 := by
    clear hlength
    induction l with
    | nil => rfl
    | cons a l ih =>
      have hl := ih fun b hb => h b (List.mem_cons_of_mem a hb)
      simp [seqAll, maxBackref, (h a List.mem_cons_self).maxBackref] at hl ⊢
      exact hl
  cases l with
  | nil => rfl
  | cons a l =>
    have hfuel : (a :: l).length + 1 < 3 * ((a :: l).flatMap text).length + 1 := by
      rw [List.length_cons] at hlength ⊢
      omega
    have halternative := alternative_flatMap h hfuel
    rw [parse, disjunction, halternative]
    simpa using hbackref

end

/-! ## One iteration -/

/-- A state that `iterate` gives is reached by an iteration and more of them, or is the one it is given. -/
theorem mem_iterate_succ {step : State → List State} {greedy : Bool} {fuel min : ℕ} {max : Option ℕ} {st found : State}
    (hmax : max ≠ some 0) : found ∈ iterate step greedy (fuel + 1) min max st ↔
      (∃ next ∈ step st, ¬(min = 0 ∧ next.rest.length = st.rest.length) ∧
        found ∈ iterate step greedy fuel (min - 1) (max.map (· - 1)) next) ∨ (min = 0 ∧ found = st) := by
  have hmore : (found ∈ (step st).flatMap fun next =>
      if min = 0 ∧ next.rest.length = st.rest.length then []
      else iterate step greedy fuel (min - 1) (max.map (· - 1)) next) ↔
        ∃ next ∈ step st, ¬(min = 0 ∧ next.rest.length = st.rest.length) ∧
          found ∈ iterate step greedy fuel (min - 1) (max.map (· - 1)) next := by
    rw [List.mem_flatMap]
    refine exists_congr fun next => and_congr_right fun _ => ?_
    split_ifs with hempty <;> simp [hempty]
  rw [← hmore, iterate, if_neg hmax]
  by_cases hmin : min = 0
  · cases greedy <;> simp [hmin, or_comm]
  · simp [hmin]

/-! ## Languages -/

namespace State

@[simp] theorem skip_nil (st : State) : st.skip [] = st := rfl

@[simp] theorem rest_skip (st : State) (u : List Char) : (st.skip u).rest = st.rest.drop u.length := rfl

@[simp] theorem forget_zero (st : State) (groups : ℕ) : st.forget groups 0 = st := by
  have hnone : ∀ i, ¬(groups < i ∧ i ≤ groups) := by omega
  simp [forget, hnone]

theorem skip_append (st : State) (u v : List Char) : st.skip (u ++ v) = (st.skip u).skip v := by
  simp [skip, List.drop_drop]

theorem append_prefix_iff {st : State} {u v : List Char} : u ++ v <+: st.rest ↔ u <+: st.rest ∧ v <+: (st.skip u).rest := by
  constructor
  · rintro ⟨w, hw⟩
    rw [rest_skip, ← hw, List.append_assoc, List.drop_left]
    exact ⟨List.prefix_append u _, List.prefix_append v w⟩
  · rintro ⟨⟨w, hw⟩, hv⟩
    rw [rest_skip, ← hw, List.drop_left] at hv
    rw [← hw]
    exact (List.prefix_append_right_inj u).mpr hv

end State

/-- A state is reached by matching a word of the language, which is in front of what is left. -/
def State.Reaches (st : State) (L : Language Char) (found : State) : Prop :=
  ∃ u ∈ L, u <+: st.rest ∧ found = st.skip u

/-- The tree matches the words of a language, whatever has been matched before. -/
def HasLanguage (r : Regex) (L : Language Char) : Prop := ∀ st found, found ∈ r.run st ↔ st.Reaches L found

variable {r s : Regex} {L M : Language Char}

theorem State.reaches_one {st found : State} : st.Reaches 1 found ↔ found = st := by
  simp [Reaches, Language.mem_one]

theorem State.reaches_mul {st found : State} : st.Reaches (L * M) found ↔ ∃ mid, st.Reaches L mid ∧ mid.Reaches M found := by
  constructor
  · rintro ⟨w, hw, hfront, rfl⟩
    obtain ⟨u, hu, v, hv, rfl⟩ := Language.mem_mul.mp hw
    obtain ⟨hfront, hfront'⟩ := append_prefix_iff.mp hfront
    exact ⟨st.skip u, ⟨u, hu, hfront, rfl⟩, v, hv, hfront', skip_append st u v⟩
  · rintro ⟨mid, ⟨u, hu, hfront, rfl⟩, v, hv, hfront', rfl⟩
    exact ⟨u ++ v, Language.append_mem_mul hu hv, append_prefix_iff.mpr ⟨hfront, hfront'⟩, (skip_append st u v).symm⟩

theorem State.reaches_add {st found : State} : st.Reaches (L + M) found ↔ st.Reaches L found ∨ st.Reaches M found := by
  simp only [Reaches, Language.mem_add, or_and_right, exists_or]

namespace HasLanguage

theorem empty : HasLanguage .empty 1 := by
  intro st found
  rw [State.reaches_one]
  exact List.mem_singleton

theorem set (negated : Bool) (items : List ClassItem) :
    HasLanguage (.set negated items) {w | ∃ c, w = [c] ∧ (items.any (ClassItem.mem c) != negated) = true} := by
  intro st found
  rw [run]
  cases hrest : st.rest with
  | nil =>
    simp only [List.head?_nil, Option.any_none, Bool.false_eq_true, if_false, List.not_mem_nil, false_iff]
    rintro ⟨_, ⟨c, rfl, -⟩, hfront, -⟩
    rw [hrest] at hfront
    exact List.cons_ne_nil _ _ (List.prefix_nil.mp hfront)
  | cons c rest =>
    constructor
    · intro h
      split_ifs at h with haccept
      · exact ⟨[c], ⟨c, rfl, haccept⟩, hrest ▸ ⟨rest, rfl⟩, List.mem_singleton.mp h⟩
      · cases h
    · rintro ⟨_, ⟨d, rfl, haccept⟩, hfront, rfl⟩
      rw [hrest, List.cons_prefix_cons] at hfront
      obtain rfl := hfront.1
      rw [List.head?_cons, Option.any_some, if_pos haccept]
      exact List.mem_singleton_self _

theorem seq (hr : HasLanguage r L) (hs : HasLanguage s M) : HasLanguage (.seq r s) (L * M) := by
  intro st found
  rw [run, List.mem_flatMap, State.reaches_mul]
  exact exists_congr fun mid => and_congr (hr st mid) (hs mid found)

/-- `{1}`, for an operand without groups. -/
theorem once (hr : HasLanguage r L) (greedy : Bool) (groups : ℕ) :
    HasLanguage (.quantified r 1 (some 1) greedy groups 0) L := by
  intro st found
  have hfuel : 1 + st.rest.length + 1 = st.rest.length + 2 := by omega
  rw [← hr st found, run, hfuel]
  simp [iterate]

/-- The iterations end as soon as one has matched nothing, so every word of the operand has a character. -/
theorem mem_iterate (hr : HasLanguage r L) (hnil : [] ∉ L) (greedy : Bool) {fuel : ℕ} {st : State}
    (hfuel : st.rest.length < fuel) (found : State) :
    found ∈ iterate r.run greedy fuel 0 none st ↔ st.Reaches L∗ found := by
  induction fuel generalizing st with
  | zero => exact absurd hfuel (Nat.not_lt_zero _)
  | succ fuel ih =>
    have hshorter : ∀ mid, st.Reaches L mid → mid.rest.length < st.rest.length := by
      rintro mid ⟨u, hu, hfront, rfl⟩
      have hpos : 0 < u.length := List.length_pos_iff.mpr fun h => hnil (h ▸ hu)
      have := hfront.length_le
      rw [State.rest_skip, List.length_drop]
      omega
    have hmore : (∃ mid ∈ r.run st, ¬(0 = 0 ∧ mid.rest.length = st.rest.length) ∧
        found ∈ iterate r.run greedy fuel 0 none mid) ↔ st.Reaches (L * L∗) found := by
      rw [State.reaches_mul]
      refine exists_congr fun mid => ?_
      rw [hr st mid]
      refine and_congr_right fun hmid => ?_
      have hlt := hshorter mid hmid
      rw [ih (by omega), and_iff_right (by omega)]
    rw [← Language.one_add_self_mul_kstar_eq_kstar, State.reaches_add, State.reaches_one, ← hmore,
      mem_iterate_succ (by simp), or_comm, and_iff_right rfl]
    rfl

/-- `*`, for an operand without groups whose words have a character. -/
theorem star (hr : HasLanguage r L) (hnil : [] ∉ L) (greedy : Bool) (groups : ℕ) :
    HasLanguage (.quantified r 0 none greedy groups 0) L∗ := by
  intro st found
  rw [run]
  simp only [State.forget_zero]
  exact mem_iterate hr hnil greedy (by omega) found

theorem regexMatch_iff (hr : HasLanguage r L) (w : List Char) : r.regexMatch w = true ↔ w ∈ L := by
  rw [regexMatch, List.any_eq_true]
  constructor
  · rintro ⟨found, hfound, hrest⟩
    obtain ⟨u, hu, ⟨v, hv⟩, rfl⟩ := (hr _ _).mp hfound
    have hdrop : w.drop u.length = [] := List.isEmpty_iff.mp hrest
    have hw : u ++ v = w := hv
    rw [← hw, List.drop_left] at hdrop
    rw [← hw, hdrop, List.append_nil]
    exact hu
  · intro hw
    refine ⟨(State.start w).skip w, (hr _ _).mpr ⟨w, hw, List.prefix_rfl, rfl⟩, ?_⟩
    simp [State.start]

end HasLanguage

/-! ## Exchanging characters -/

/-- A state for the string in which the characters have been exchanged. What the groups hold does not matter. -/
def State.Exchanged (f : Char → Char) (st st' : State) : Prop := st'.before = st.before.map f ∧ st'.rest = st.rest.map f

/-- Where the tree matches, it also matches when the characters are exchanged. -/
def Respects (f : Char → Char) (r : Regex) : Prop :=
  ∀ ⦃st st' found⦄, st.Exchanged f st' → found ∈ r.run st → ∃ found' ∈ r.run st', found.Exchanged f found'

namespace Respects

variable {f : Char → Char}

/-- A tree that matches one character. -/
theorem of_skip (accepts : Char → Bool) (haccepts : ∀ c, accepts c = true → accepts (f c) = true)
    (hr : ∀ st, r.run st = if st.rest.head?.any accepts then [st.skip (st.rest.take 1)] else []) : Respects f r := by
  intro st st' found hst hfound
  rw [hr] at hfound
  split_ifs at hfound with hany
  · obtain rfl := List.mem_singleton.mp hfound
    cases hrest : st.rest with
    | nil => rw [hrest] at hany; cases hany
    | cons c rest =>
      rw [hrest, List.head?_cons, Option.any_some] at hany
      have hrest' : st'.rest = f c :: rest.map f := by rw [hst.2, hrest]; rfl
      refine ⟨st'.skip (st'.rest.take 1), ?_, ?_, ?_⟩
      · rw [hr, hrest', List.head?_cons, Option.any_some, if_pos (haccepts c hany)]
        exact List.mem_singleton_self _
      · simp [State.skip, hst.1, hrest', hrest]
      · simp [State.skip, hrest', hrest]
  · cases hfound

theorem any (h : ∀ c, isLineTerminator c = false → isLineTerminator (f c) = false) : Respects f .any :=
  of_skip (!isLineTerminator ·) (by simpa using h) fun _ => rfl

theorem set {negated : Bool} {items : List ClassItem}
    (h : ∀ c, (items.any (ClassItem.mem c) != negated) = true → (items.any (ClassItem.mem (f c)) != negated) = true) :
    Respects f (.set negated items) :=
  of_skip _ h fun _ => rfl

/-- A tree that matches nothing, at some places. -/
theorem of_stay (here : State → Prop) [DecidablePred here] (hhere : ∀ ⦃st st'⦄, st.Exchanged f st' → here st → here st')
    (hr : ∀ st, r.run st = if here st then [st] else []) : Respects f r := by
  intro st st' found hst hfound
  rw [hr] at hfound
  split_ifs at hfound with h
  · obtain rfl := List.mem_singleton.mp hfound
    refine ⟨st', ?_, hst⟩
    rw [hr, if_pos (hhere hst h)]
    exact List.mem_singleton_self _
  · cases hfound

theorem empty : Respects f .empty :=
  of_stay (fun _ => True) (fun _ _ _ _ => trivial) fun _ => rfl

theorem assertBegin : Respects f .assertBegin := by
  refine of_stay _ (fun st st' hst h => ?_) fun _ => rfl
  rw [hst.1, h]
  rfl

theorem assertEnd : Respects f .assertEnd := by
  refine of_stay _ (fun st st' hst h => ?_) fun _ => rfl
  rw [hst.2, h]
  rfl

theorem seq (hr : Respects f r) (hs : Respects f s) : Respects f (.seq r s) := by
  intro st st' found hst hfound
  obtain ⟨mid, hmid, hfound⟩ := List.mem_flatMap.mp hfound
  obtain ⟨mid', hmid', hexchanged⟩ := hr hst hmid
  obtain ⟨found', hfound', hexchanged⟩ := hs hexchanged hfound
  exact ⟨found', List.mem_flatMap.mpr ⟨mid', hmid', hfound'⟩, hexchanged⟩

theorem alt (hr : Respects f r) (hs : Respects f s) : Respects f (.alt r s) := by
  intro st st' found hst hfound
  cases List.mem_append.mp hfound with
  | inl hfound =>
    obtain ⟨found', hfound', hexchanged⟩ := hr hst hfound
    exact ⟨found', List.mem_append_left _ hfound', hexchanged⟩
  | inr hfound =>
    obtain ⟨found', hfound', hexchanged⟩ := hs hst hfound
    exact ⟨found', List.mem_append_right _ hfound', hexchanged⟩

theorem group (hr : Respects f r) (index : ℕ) : Respects f (.group index r) := by
  intro st st' found hst hfound
  obtain ⟨inner, hinner, rfl⟩ := List.mem_map.mp hfound
  obtain ⟨inner', hinner', hexchanged⟩ := hr hst hinner
  exact ⟨_, List.mem_map.mpr ⟨inner', hinner', rfl⟩, hexchanged⟩

theorem lookahead (hr : Respects f r) : Respects f (.lookahead false r) := by
  intro st st' found hst hfound
  rw [run] at hfound
  cases hinner : (r.run st).head? with
  | none => rw [hinner] at hfound; cases hfound
  | some inner =>
    rw [hinner] at hfound
    obtain rfl := List.mem_singleton.mp hfound
    obtain ⟨inner', hinner', -⟩ := hr hst (List.mem_of_head? hinner)
    obtain ⟨first, hfirst⟩ := Option.isSome_iff_exists.mp (List.isSome_head?.mpr (List.ne_nil_of_mem hinner'))
    refine ⟨{ st' with captures := first.captures }, ?_, hst⟩
    rw [run, hfirst]
    exact List.mem_singleton_self _

theorem mem_iterate {step : State → List State} {greedy : Bool} {st st' found : State}
    (hstep : ∀ ⦃st st' found⦄, st.Exchanged f st' → found ∈ step st → ∃ found' ∈ step st', found.Exchanged f found')
    {fuel min : ℕ} {max : Option ℕ} (hst : st.Exchanged f st') (hfound : found ∈ iterate step greedy fuel min max st) :
    ∃ found' ∈ iterate step greedy fuel min max st', found.Exchanged f found' := by
  induction fuel generalizing min max st st' with
  | zero => cases hfound
  | succ fuel ih =>
    by_cases hmax : max = some 0
    · rw [iterate, if_pos hmax] at hfound ⊢
      obtain rfl := List.mem_singleton.mp hfound
      exact ⟨st', List.mem_singleton_self _, hst⟩
    · rcases (mem_iterate_succ hmax).mp hfound with ⟨next, hnext, hempty, hmem⟩ | ⟨hmin, rfl⟩
      · obtain ⟨next', hnext', hexchanged⟩ := hstep hst hnext
        obtain ⟨found', hfound', hfinal⟩ := ih hexchanged hmem
        have hsame : next'.rest.length = st'.rest.length ↔ next.rest.length = st.rest.length := by
          rw [hexchanged.2, hst.2, List.length_map, List.length_map]
        refine ⟨found', (mem_iterate_succ hmax).mpr (Or.inl ⟨next', hnext', ?_, hfound'⟩), hfinal⟩
        rw [hsame]
        exact hempty
      · exact ⟨st', (mem_iterate_succ hmax).mpr (Or.inr ⟨hmin, rfl⟩), hst⟩

theorem quantified (hr : Respects f r) (min : ℕ) (max : Option ℕ) (greedy : Bool) (groups inside : ℕ) :
    Respects f (.quantified r min max greedy groups inside) := by
  intro st st' found hst hfound
  have hlength : st'.rest.length = st.rest.length := by rw [hst.2, List.length_map]
  rw [run] at hfound ⊢
  rw [hlength]
  refine mem_iterate ?_ hst hfound
  intro st st' found hst hfound
  have hforget : (st.forget groups inside).Exchanged f (st'.forget groups inside) := hst
  exact hr hforget hfound

theorem regexMatch_map (hr : Respects f r) {w : List Char} (h : r.regexMatch w = true) :
    r.regexMatch (w.map f) = true := by
  obtain ⟨found, hfound, hrest⟩ := List.any_eq_true.mp h
  have hstart : (State.start w).Exchanged f (State.start (w.map f)) := ⟨rfl, rfl⟩
  obtain ⟨found', hfound', hexchanged⟩ := hr hstart hfound
  refine List.any_eq_true.mpr ⟨found', hfound', ?_⟩
  rw [hexchanged.2, List.isEmpty_iff.mp hrest]
  rfl

end Respects

end Regex

end Landbase.Lib
