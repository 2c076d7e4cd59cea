import Landbase.Lib.Regex

/-! # `LIKE`

`string_match` of `deps/common/lang/comparator.cpp` turns a pattern into a regular expression and matches the string with
it. Only `%` and `_` are turned into something else; the characters that mean something in a regular expression are copied
as they are.

A `char` is a character, and an exception of `std::regex` is `none`.
-/

namespace Landbase.Sql.StringMatch
open Landbase.Lib
open scoped Computability
set_option autoImplicit false

/-! ## `string_match` -/

/-- A string that ends in front of its `NUL`. -/
structure CString where
  chars : List Char
  noNul : Char.ofNat 0 ∉ chars

/-- What the loop of `string_match` appends to `regex_str` for a character. -/
def regexPiece : Char → List Char
  | '%' => ['[', '^', '\'', ']', '*']
  | '_' => ['[', '^', '\'', ']', '{', '1', '}']
  | c => [c]

def regexStr (s2 : List Char) : List Char := s2.flatMap regexPiece

/-- `string_match`. -/
def stringMatch (s1 s2 : CString) : Option ℤ :=
  (Regex.parse (regexStr s2.chars)).map fun pattern => if pattern.regexMatch s1.chars then 0 else -1

/-! ## What `LIKE` means -/

/-- A string is like a pattern. -/
inductive Like : List Char → List Char → Prop
  | nil : Like [] []
  | percent {p u s : List Char} (hu : '\'' ∉ u) (h : Like p s) : Like ('%' :: p) (u ++ s)
  | underscore {p s : List Char} {c : Char} (hc : c ≠ '\'') (h : Like p s) : Like ('_' :: p) (c :: s)
  | char {p s : List Char} {c : Char} (hpercent : c ≠ '%') (hunderscore : c ≠ '_') (h : Like p s) : Like (c :: p) (c :: s)

/-- `string_match` does not throw, and succeeds if and only if the string is like the pattern. -/
def MatchRight (s p : CString) : Prop :=
  ∃ result, stringMatch s p = some result ∧ (result = 0 ↔ Like p.chars s.chars)

/-- No character of the pattern means something in a regular expression. -/
def Ordinary (p : List Char) : Prop := ∀ c ∈ p, c ∉ Regex.syntaxCharacters

/-! ## The regular expression of a pattern -/

/-- `[^']`. -/
def notQuote : Regex := .set true [.range '\'' '\'']

/-- The term that the text for a character is read as. -/
def pieceRegex : Char → Regex
  | '%' => .quantified notQuote 0 none true 0 0
  | '_' => .quantified notQuote 1 (some 1) true 0 0
  | c => .char c

/-- The characters but the quote. -/
def notQuotes : Language Char := {w | ∃ c, w = [c] ∧ c ≠ '\''}

def pieceLanguage : Char → Language Char
  | '%' => notQuotes∗
  | '_' => notQuotes
  | c => {[c]}

theorem hasLanguage_notQuote : notQuote.HasLanguage notQuotes := by
  have haccepts : ∀ c, ([ClassItem.range '\'' '\''].any (ClassItem.mem c) != true) = true ↔ c ≠ '\'' := by
    simp [ClassItem.mem_range_self]
  have hset := Regex.HasLanguage.set true [.range '\'' '\'']
  simp only [haccepts] at hset
  exact hset

theorem nil_notMem_notQuotes : [] ∉ notQuotes := by
  rintro ⟨c, hc, -⟩
  cases hc

theorem hasLanguage_char (c : Char) : (Regex.char c).HasLanguage {[c]} := by
  have haccepts : ∀ d, ([ClassItem.range c c].any (ClassItem.mem d) != false) = true ↔ d = c := by
    simp [ClassItem.mem_range_self]
  have hset := Regex.HasLanguage.set false [.range c c]
  simp only [haccepts, exists_eq_right] at hset
  exact hset

/-- The three kinds of characters in a pattern. -/
theorem piece_cases (c : Char) :
    c = '%' ∨ c = '_' ∨ (c ≠ '%' ∧ c ≠ '_' ∧ regexPiece c = [c] ∧ pieceRegex c = .char c ∧ pieceLanguage c = {[c]}) := by
  by_cases hpercent : c = '%'
  · exact Or.inl hpercent
  · by_cases hunderscore : c = '_'
    · exact Or.inr (Or.inl hunderscore)
    · refine Or.inr (Or.inr ⟨hpercent, hunderscore, ?_, ?_, ?_⟩)
      · unfold regexPiece
        split <;> simp_all
      · unfold pieceRegex
        split <;> simp_all
      · unfold pieceLanguage
        split <;> simp_all

theorem hasLanguage_piece (c : Char) : (pieceRegex c).HasLanguage (pieceLanguage c) := by
  rcases piece_cases c with rfl | rfl | ⟨-, -, -, hregex, hlanguage⟩
  · exact hasLanguage_notQuote.star nil_notMem_notQuotes true 0
  · exact hasLanguage_notQuote.once true 0
  · rw [hregex, hlanguage]
    exact hasLanguage_char c

theorem characterClass_notQuote (rest : List Char) :
    Regex.characterClass ('^' :: '\'' :: ']' :: rest) = some (notQuote, rest) := by
  simp [Regex.characterClass, Regex.classRanges, Regex.classAtom, notQuote]

theorem reads_piece {c : Char} (h : c ∉ Regex.syntaxCharacters) : Regex.Reads (regexPiece c) (pieceRegex c) := by
  rcases piece_cases c with rfl | rfl | ⟨-, -, hpiece, hregex, -⟩
  · refine ⟨⟨'[', rfl, by decide⟩, fun fuel rest hrest => ?_, rfl⟩
    have hterm : Regex.term (fuel + 1) (regexPiece '%' ++ rest) 0 = Regex.quantifier notQuote 0 0 ('*' :: rest) := by
      simp [regexPiece, Regex.term, characterClass_notQuote]
    rw [hterm]
    exact Regex.quantifier_of_bounds rfl hrest notQuote 0 0
  · refine ⟨⟨'[', rfl, by decide⟩, fun fuel rest hrest => ?_, rfl⟩
    have hterm : Regex.term (fuel + 1) (regexPiece '_' ++ rest) 0 =
        Regex.quantifier notQuote 0 0 ('{' :: '1' :: '}' :: rest) := by
      simp [regexPiece, Regex.term, characterClass_notQuote]
    have hbounds : Regex.quantifierPrefix ('{' :: '1' :: '}' :: rest) = some (some (1, some 1), rest) := by
      simp [Regex.quantifierPrefix, Regex.decimalValue]
    rw [hterm]
    exact Regex.quantifier_of_bounds hbounds hrest notQuote 0 0
  · rw [hpiece, hregex]
    exact Regex.reads_char h

/-! ## When the match is right -/

theorem parse_regexStr {p : List Char} (h : Ordinary p) :
    Regex.parse (regexStr p) = some (Regex.seqAll (p.map pieceRegex)) :=
  Regex.parse_flatMap fun c hc => reads_piece (h c hc)

theorem hasLanguage_pieces (p : List Char) :
    (Regex.seqAll (p.map pieceRegex)).HasLanguage (p.map pieceLanguage).prod := by
  induction p with
  | nil => exact Regex.HasLanguage.empty
  | cons c p ih => exact (hasLanguage_piece c).seq ih

theorem mem_notQuotes_kstar (u : List Char) : u ∈ notQuotes∗ ↔ '\'' ∉ u := by
  rw [Language.mem_kstar]
  constructor
  · rintro ⟨words, rfl, hwords⟩ hquote
    obtain ⟨w, hw, hquote⟩ := List.mem_flatten.mp hquote
    obtain ⟨c, rfl, hc⟩ := hwords w hw
    exact hc (List.mem_singleton.mp hquote).symm
  · intro hu
    refine ⟨u.map fun c => [c], (List.flatMap_singleton' u).symm, fun w hw => ?_⟩
    obtain ⟨c, hc, rfl⟩ := List.mem_map.mp hw
    exact ⟨c, rfl, fun h => hu (h ▸ hc)⟩

theorem like_iff (p s : List Char) : Like p s ↔ s ∈ (p.map pieceLanguage).prod := by
  constructor
  · intro h
    induction h with
    | nil => exact Language.nil_mem_one
    | percent hu _ ih => exact Language.append_mem_mul ((mem_notQuotes_kstar _).mpr hu) ih
    | underscore hc _ ih => exact Language.append_mem_mul (a := [_]) ⟨_, rfl, hc⟩ ih
    | @char _ _ c hpercent hunderscore _ ih =>
      have hlanguage : pieceLanguage c = {[c]} := by
        rcases piece_cases c with h | h | h
        · exact absurd h hpercent
        · exact absurd h hunderscore
        · exact h.2.2.2.2
      exact Language.append_mem_mul (a := [c]) (hlanguage ▸ rfl) ih
  · intro h
    induction p generalizing s with
    | nil =>
      rw [(Language.mem_one s).mp h]
      exact .nil
    | cons c p ih =>
      obtain ⟨u, hu, v, hv, rfl⟩ := Language.mem_mul.mp h
      rcases piece_cases c with rfl | rfl | ⟨hpercent, hunderscore, -, -, hlanguage⟩
      · exact .percent ((mem_notQuotes_kstar u).mp hu) (ih v hv)
      · obtain ⟨c, rfl, hc⟩ := hu
        exact .underscore hc (ih v hv)
      · rw [hlanguage] at hu
        obtain rfl := hu
        exact .char hpercent hunderscore (ih v hv)

theorem matchRight_of_ordinary {p : CString} (h : Ordinary p.chars) (s : CString) : MatchRight s p := by
  have hmatch := (hasLanguage_pieces p.chars).regexMatch_iff s.chars
  refine ⟨if (Regex.seqAll (p.chars.map pieceRegex)).regexMatch s.chars then 0 else -1, ?_, ?_⟩
  · rw [stringMatch, parse_regexStr h]
    rfl
  · rw [like_iff, ← hmatch]
    cases (Regex.seqAll (p.chars.map pieceRegex)).regexMatch s.chars <;> decide

/-! ## Patterns with other characters -/

/-- A letter in place of a character that means something in a regular expression. -/
def exchange (c : Char) : Char := if c ∈ Regex.syntaxCharacters then 'a' else c

/-- Nothing in the pattern can match such a character and no other one: there are no escapes, no brackets and no negative
lookahead. -/
def Plain (p : List Char) : Prop := '\\' ∉ p ∧ '[' ∉ p ∧ ¬['(', '?', '!'] <:+: p

theorem Plain.of_suffix {p q : List Char} (h : Plain p) (hq : q <:+ p) : Plain q :=
  ⟨fun hmem => h.1 (hq.subset hmem), fun hmem => h.2.1 (hq.subset hmem), fun hsub => h.2.2 (hsub.trans hq.isInfix)⟩

/-- What the reading of a plain pattern leaves is the text of a part of it again. -/
def Leaves (q rest : List Char) : Prop := ∃ q', q' <:+ q ∧ rest = regexStr q'

theorem regexStr_cons (c : Char) (q : List Char) : regexStr (c :: q) = regexPiece c ++ regexStr q := List.flatMap_cons

theorem regexStr_eq_cons {q rest : List Char} {c : Char} (h : regexStr q = c :: rest) (hc : c ≠ '[') :
    ∃ q', q = c :: q' ∧ rest = regexStr q' := by
  cases q with
  | nil => cases h
  | cons d q =>
    rw [regexStr_cons] at h
    rcases piece_cases d with rfl | rfl | ⟨-, -, hpiece, -, -⟩
    · exact absurd (List.cons.inj h).1.symm hc
    · exact absurd (List.cons.inj h).1.symm hc
    · rw [hpiece] at h
      obtain ⟨rfl, rfl⟩ := List.cons.inj h
      exact ⟨q, rfl, rfl⟩

/-- The same with `(?` in front. -/
theorem regexStr_eq_question {q rest : List Char} {c : Char} (h : regexStr q = '(' :: '?' :: c :: rest) (hc : c ≠ '[') :
    ∃ q', q = '(' :: '?' :: c :: q' ∧ rest = regexStr q' := by
  obtain ⟨q₁, rfl, h₁⟩ := regexStr_eq_cons h (by decide)
  obtain ⟨q₂, rfl, h₂⟩ := regexStr_eq_cons h₁.symm (by decide)
  obtain ⟨q₃, rfl, h₃⟩ := regexStr_eq_cons h₂.symm hc
  exact ⟨q₃, rfl, h₃⟩

theorem dropWhile_regexStr (q : List Char) : (regexStr q).dropWhile Char.isDigit = regexStr (q.dropWhile Char.isDigit) := by
  induction q with
  | nil => rfl
  | cons c q ih =>
    rcases piece_cases c with rfl | rfl | ⟨-, -, hpiece, -, -⟩
    · rfl
    · rfl
    · rw [regexStr_cons, hpiece, List.singleton_append, List.dropWhile_cons, List.dropWhile_cons, ih]
      split_ifs
      · rfl
      · rw [regexStr_cons, hpiece, List.singleton_append]

theorem Leaves.refl (q : List Char) : Leaves q (regexStr q) := ⟨q, List.suffix_rfl, rfl⟩

theorem Leaves.of_suffix {q q' rest : List Char} (h : Leaves q' rest) (hq : q' <:+ q) : Leaves q rest := by
  obtain ⟨q'', hsuffix, hrest⟩ := h
  exact ⟨q'', hsuffix.trans hq, hrest⟩

theorem Leaves.of_eq_cons {q rest : List Char} {c : Char} (h : regexStr q = c :: rest) (hc : c ≠ '[') : Leaves q rest := by
  obtain ⟨q', rfl, hrest⟩ := regexStr_eq_cons h hc
  exact ⟨q', List.suffix_cons c q', hrest⟩

/-- Digits and a character behind them. -/
theorem Leaves.of_dropWhile {q rest : List Char} {c : Char} (h : (regexStr q).dropWhile Char.isDigit = c :: rest)
    (hc : c ≠ '[') : Leaves q rest := by
  rw [dropWhile_regexStr] at h
  exact (Leaves.of_eq_cons h hc).of_suffix (List.dropWhile_suffix _)

theorem quantifierPrefix_leaves (q : List Char) (bounds : Option (ℕ × Option ℕ)) (rest : List Char)
    (h : Regex.quantifierPrefix (regexStr q) = some (bounds, rest)) : Leaves q rest := by
  unfold Regex.quantifierPrefix at h
  split at h
  · next heq =>
    cases h
    exact .of_eq_cons heq (by decide)
  · next heq =>
    cases h
    exact .of_eq_cons heq (by decide)
  · next heq =>
    cases h
    exact .of_eq_cons heq (by decide)
  · next input heq =>
    obtain ⟨q', hsuffix, rfl⟩ := Leaves.of_eq_cons heq (by decide)
    refine Leaves.of_suffix ?_ hsuffix
    dsimp only at h
    split_ifs at h
    split at h
    · next hdigits =>
      cases h
      exact .of_dropWhile hdigits (by decide)
    · next hdigits =>
      cases h
      obtain ⟨q'', hsuffix', hrest⟩ := Leaves.of_dropWhile hdigits (by decide)
      exact (Leaves.of_eq_cons hrest.symm (by decide)).of_suffix hsuffix'
    · next hdigits =>
      obtain ⟨q'', hsuffix', rfl⟩ := Leaves.of_dropWhile hdigits (by decide)
      split at h
      · next hdigits' =>
        split_ifs at h
        cases h
        exact (Leaves.of_dropWhile hdigits' (by decide)).of_suffix hsuffix'
      · cases h
    · cases h
  · cases h
    exact .refl q

variable {fuel groups groups' groups'' : ℕ} {q rest rest' : List Char} {r r' : Regex}

theorem quantifier_leaves {input : List Char}
    (hinput : ∀ bounds rest, Regex.quantifierPrefix input = some (bounds, rest) → Leaves q rest)
    (hr : r.Respects exchange) (h : r.quantifier groups groups' input = some (r', rest, groups'')) :
    r'.Respects exchange ∧ Leaves q rest := by
  unfold Regex.quantifier at h
  split at h
  · cases h
  · next hbounds =>
    cases h
    exact ⟨hr, hinput _ _ hbounds⟩
  · next hbounds =>
    cases h
    obtain ⟨q', hsuffix, hrest⟩ := hinput _ _ hbounds
    exact ⟨hr.quantified _ _ _ _ _, (Leaves.of_eq_cons hrest.symm (by decide)).of_suffix hsuffix⟩
  · next hbounds =>
    cases h
    exact ⟨hr.quantified _ _ _ _ _, hinput _ _ hbounds⟩

/-! ### The trees of plain patterns -/

theorem exchange_cases (c : Char) : exchange c = c ∨ (c ∈ Regex.syntaxCharacters ∧ exchange c = 'a') := by
  unfold exchange
  split_ifs with h
  · exact Or.inr ⟨h, rfl⟩
  · exact Or.inl rfl

theorem respects_notQuote : notQuote.Respects exchange := by
  refine Regex.Respects.set fun c hc => ?_
  rcases exchange_cases c with h | ⟨-, h⟩
  · rw [h]
    exact hc
  · rw [h]
    decide

theorem respects_any : Regex.any.Respects exchange := by
  refine Regex.Respects.any fun c hc => ?_
  rcases exchange_cases c with h | ⟨-, h⟩
  · rw [h]
    exact hc
  · rw [h]
    decide

theorem respects_char {c : Char} (h : c ∉ Regex.syntaxCharacters) : (Regex.char c).Respects exchange := by
  have haccepts : ∀ d, ([ClassItem.range c c].any (ClassItem.mem d) != false) = true ↔ d = c := by
    simp [ClassItem.mem_range_self]
  refine Regex.Respects.set fun d hd => ?_
  obtain rfl := (haccepts d).mp hd
  rcases exchange_cases d with hsame | ⟨hmem, -⟩
  · rw [hsame]
    exact hd
  · exact absurd hmem h

/-- What a call of the parser gives for the text of a plain pattern. -/
def ReadsPlain (parser : List Char → ℕ → Option (Regex × List Char × ℕ)) : Prop :=
  ∀ ⦃q rest groups groups' r⦄, Plain q → parser (regexStr q) groups = some (r, rest, groups') →
    r.Respects exchange ∧ Leaves q rest

/-- The text for `%` or `_`. -/
theorem bracket_plain (hq : Plain q) (heq : regexStr q = '[' :: rest')
    (h : ((Regex.characterClass rest').bind fun (r, rest) => r.quantifier groups groups rest) = some (r, rest, groups')) :
    r.Respects exchange ∧ Leaves q rest := by
  cases q with
  | nil => cases heq
  | cons c q =>
    have hquantifier : ∀ input, (∀ bounds rest, Regex.quantifierPrefix input = some (bounds, rest) → rest = regexStr q) →
        notQuote.quantifier groups groups input = some (r, rest, groups') →
        r.Respects exchange ∧ Leaves (c :: q) rest := by
      intro input hinput h
      refine quantifier_leaves (fun bounds rest hbounds => ?_) respects_notQuote h
      rw [hinput bounds rest hbounds]
      exact (Leaves.refl q).of_suffix (List.suffix_cons c q)
    rw [regexStr_cons] at heq
    rcases piece_cases c with rfl | rfl | ⟨-, -, hpiece, -, -⟩
    · obtain rfl := (List.cons.inj heq).2
      refine hquantifier ('*' :: regexStr q) ?_ (by simpa [characterClass_notQuote] using h)
      rintro bounds rest ⟨rfl, rfl⟩
      rfl
    · obtain rfl := (List.cons.inj heq).2
      refine hquantifier ('{' :: '1' :: '}' :: regexStr q) ?_ (by simpa [characterClass_notQuote] using h)
      intro bounds rest hbounds
      simp [Regex.quantifierPrefix] at hbounds
      exact hbounds.2.symm
    · rw [hpiece] at heq
      exact absurd ((List.cons.inj heq).1 ▸ List.mem_cons_self) hq.2.1

theorem Leaves.closed (h : Leaves q rest) (hclose : rest.head? = some ')') : Leaves q rest.tail := by
  obtain ⟨q', hsuffix, rfl⟩ := h
  obtain ⟨rest, hrest⟩ := List.head?_eq_some_iff.mp hclose
  rw [hrest]
  exact (Leaves.of_eq_cons hrest (by decide)).of_suffix hsuffix

/-- A disjunction up to its `)`, and what becomes of it. -/
theorem parenthesis_plain (hdisjunction : ReadsPlain (Regex.disjunction fuel)) (hq : Plain q)
    (body : Regex → List Char → ℕ → Option (Regex × List Char × ℕ))
    (h : (Regex.disjunction fuel (regexStr q) groups).bind (fun read =>
      if read.2.1.head? = some ')' then body read.1 read.2.1.tail read.2.2 else none) = some (r, rest, groups')) :
    ∃ inner q' groups'', inner.Respects exchange ∧ q' <:+ q ∧
      body inner (regexStr q') groups'' = some (r, rest, groups') := by
  obtain ⟨⟨inner, rest', groups''⟩, hread, h⟩ := Option.bind_eq_some_iff.mp h
  obtain ⟨hinner, hleaves⟩ := hdisjunction hq hread
  split_ifs at h with hclose
  obtain ⟨q', hsuffix, hrest⟩ := hleaves.closed hclose
  exact ⟨inner, q', groups'', hinner, hsuffix, hrest ▸ h⟩

theorem term_plain (hdisjunction : ReadsPlain (Regex.disjunction fuel)) : ReadsPlain (Regex.term (fuel + 1)) := by
  intro q rest groups groups' r hq h
  have hescape : ∀ {rest}, regexStr q ≠ '\\' :: rest := by
    intro rest heq
    obtain ⟨q', rfl, -⟩ := regexStr_eq_cons heq (by decide)
    exact hq.1 List.mem_cons_self
  have hquantifier : ∀ {q' : List Char} {r' : Regex} {groups'' : ℕ}, q' <:+ q → r'.Respects exchange →
      r'.quantifier groups groups'' (regexStr q') = some (r, rest, groups') → r.Respects exchange ∧ Leaves q rest := by
    intro q' r' groups'' hsuffix hr h
    obtain ⟨hr, hleaves⟩ := quantifier_leaves (quantifierPrefix_leaves q') hr h
    exact ⟨hr, hleaves.of_suffix hsuffix⟩
  unfold Regex.term at h
  split at h
  · cases h
  · next heq =>
    cases h
    exact ⟨.assertBegin, .of_eq_cons heq (by decide)⟩
  · next heq =>
    cases h
    exact ⟨.assertEnd, .of_eq_cons heq (by decide)⟩
  · next heq =>
    obtain ⟨q', hsuffix, rfl⟩ := Leaves.of_eq_cons heq (by decide)
    exact hquantifier hsuffix respects_any h
  · next heq => exact absurd heq hescape
  · next heq => exact absurd heq hescape
  · next heq => exact absurd heq hescape
  · next heq => exact bracket_plain hq heq h
  · next heq =>
    obtain ⟨q₁, rfl, rfl⟩ := regexStr_eq_question heq (by decide)
    have hsuffix : q₁ <:+ '(' :: '?' :: '=' :: q₁ := ⟨['(', '?', '='], rfl⟩
    obtain ⟨inner, q', groups'', hinner, hsuffix', h⟩ := parenthesis_plain hdisjunction (hq.of_suffix hsuffix)
      (fun r rest groups => some (.lookahead false r, rest, groups)) h
    cases h
    exact ⟨hinner.lookahead, (Leaves.refl q').of_suffix (hsuffix'.trans hsuffix)⟩
  · next heq =>
    obtain ⟨q₁, rfl, rfl⟩ := regexStr_eq_question heq (by decide)
    exact absurd ⟨[], q₁, rfl⟩ hq.2.2
  · next heq =>
    obtain ⟨q₁, rfl, rfl⟩ := regexStr_eq_question heq (by decide)
    have hsuffix : q₁ <:+ '(' :: '?' :: ':' :: q₁ := ⟨['(', '?', ':'], rfl⟩
    obtain ⟨inner, q', groups'', hinner, hsuffix', h⟩ := parenthesis_plain hdisjunction (hq.of_suffix hsuffix)
      (fun r rest groups' => r.quantifier groups groups' rest) h
    exact hquantifier (hsuffix'.trans hsuffix) hinner h
  · next heq =>
    obtain ⟨q₁, rfl, rfl⟩ := regexStr_eq_cons heq (by decide)
    have hsuffix : q₁ <:+ '(' :: q₁ := ⟨['('], rfl⟩
    obtain ⟨inner, q', groups'', hinner, hsuffix', h⟩ := parenthesis_plain hdisjunction (hq.of_suffix hsuffix)
      (fun r rest groups' => (Regex.group (groups + 1) r).quantifier groups groups' rest) h
    exact hquantifier (hsuffix'.trans hsuffix) (hinner.group _) h
  · next hbracket _ _ _ _ heq =>
    split_ifs at h with hsyntax
    obtain ⟨q', hsuffix, rfl⟩ := Leaves.of_eq_cons heq hbracket
    exact hquantifier hsuffix (respects_char hsyntax) h

theorem alternative_plain (hterm : ReadsPlain (Regex.term fuel)) (halternative : ReadsPlain (Regex.alternative fuel)) :
    ReadsPlain (Regex.alternative (fuel + 1)) := by
  intro q rest groups groups' r hq h
  rw [Regex.alternative] at h
  split_ifs at h with hend
  · cases h
    exact ⟨.empty, .refl q⟩
  · obtain ⟨⟨r₁, rest₁, groups₁⟩, hread, h₁⟩ := Option.bind_eq_some_iff.mp h
    obtain ⟨⟨r₂, rest₂, groups₂⟩, hread', h₂⟩ := Option.bind_eq_some_iff.mp h₁
    obtain ⟨hr₁, q₁, hsuffix, rfl⟩ := hterm hq hread
    obtain ⟨hr₂, hleaves⟩ := halternative (hq.of_suffix hsuffix) hread'
    cases h₂
    exact ⟨hr₁.seq hr₂, hleaves.of_suffix hsuffix⟩

theorem disjunction_plain (halternative : ReadsPlain (Regex.alternative fuel))
    (hdisjunction : ReadsPlain (Regex.disjunction fuel)) : ReadsPlain (Regex.disjunction (fuel + 1)) := by
  intro q rest groups groups' r hq h
  rw [Regex.disjunction] at h
  obtain ⟨⟨r₁, rest₁, groups₁⟩, hread, h⟩ := Option.bind_eq_some_iff.mp h
  obtain ⟨hr₁, q₁, hsuffix, rfl⟩ := halternative hq hread
  dsimp only at h
  split at h
  · next heq =>
    obtain ⟨q₂, rfl, rfl⟩ := regexStr_eq_cons heq (by decide)
    obtain ⟨⟨r₂, rest₂, groups₂⟩, hread', h⟩ := Option.bind_eq_some_iff.mp h
    have hsuffix' := (List.suffix_cons '|' q₂).trans hsuffix
    obtain ⟨hr₂, hleaves⟩ := hdisjunction (hq.of_suffix hsuffix') hread'
    cases h
    exact ⟨hr₁.alt hr₂, hleaves.of_suffix hsuffix'⟩
  · cases h
    exact ⟨hr₁, q₁, hsuffix, rfl⟩

theorem parser_plain (fuel : ℕ) :
    ReadsPlain (Regex.disjunction fuel) ∧ ReadsPlain (Regex.alternative fuel) ∧ ReadsPlain (Regex.term fuel) := by
  induction fuel with
  | zero => exact ⟨fun _ _ _ _ _ _ h => (by cases h), fun _ _ _ _ _ _ h => (by cases h), fun _ _ _ _ _ _ h => (by cases h)⟩
  | succ fuel ih => exact ⟨disjunction_plain ih.2.1 ih.1, alternative_plain ih.2.2 ih.2.1, term_plain ih.1⟩

theorem respects_of_parse {p : List Char} (hp : Plain p) (h : Regex.parse (regexStr p) = some r) : r.Respects exchange := by
  unfold Regex.parse at h
  split at h
  · next hread =>
    split_ifs at h
    cases h
    exact ((parser_plain _).1 hp hread).1
  · cases h

/-! ## Patterns that are not right -/

/-- The string in which `%` stands for nothing and `_` for a letter. -/
def literal (p : List Char) : List Char := (p.filter (· ≠ '%')).map fun c => if c = '_' then 'a' else c

theorem like_literal (p : List Char) : Like p (literal p) := by
  induction p with
  | nil => exact .nil
  | cons c p ih =>
    rcases piece_cases c with rfl | rfl | ⟨hpercent, hunderscore, -⟩
    · exact .percent (u := []) List.not_mem_nil ih
    · exact .underscore (by decide) ih
    · have hliteral : literal (c :: p) = c :: literal p := by simp [literal, hpercent, hunderscore]
      rw [hliteral]
      exact .char hpercent hunderscore ih

theorem mem_of_like {p s : List Char} {c : Char} (h : Like p s) (hc : c ∈ p) (hpercent : c ≠ '%') (hunderscore : c ≠ '_') :
    c ∈ s := by
  induction h with
  | nil => cases hc
  | percent _ _ ih => exact List.mem_append_right _ (ih ((List.mem_cons.mp hc).resolve_left hpercent))
  | underscore _ _ ih => exact List.mem_cons_of_mem _ (ih ((List.mem_cons.mp hc).resolve_left hunderscore))
  | char _ _ _ ih =>
    rcases List.mem_cons.mp hc with rfl | hc
    · exact List.mem_cons_self
    · exact List.mem_cons_of_mem _ (ih hc)

theorem ofNat_zero_notMem_literal (p : CString) : Char.ofNat 0 ∉ literal p.chars := by
  intro hmem
  obtain ⟨c, hc, heq⟩ := List.mem_map.mp hmem
  split_ifs at heq with hunderscore
  · exact absurd heq (by decide)
  · exact p.noNul (heq ▸ (List.mem_filter.mp hc).1)

def literalString (p : CString) : CString := ⟨literal p.chars, ofNat_zero_notMem_literal p⟩

theorem ofNat_zero_notMem_exchange (s : CString) : Char.ofNat 0 ∉ s.chars.map exchange := by
  intro hmem
  obtain ⟨c, hc, heq⟩ := List.mem_map.mp hmem
  rcases exchange_cases c with h | ⟨-, h⟩
  · exact s.noNul ((h.symm.trans heq) ▸ hc)
  · exact absurd (h.symm.trans heq) (by decide)

def exchanged (s : CString) : CString := ⟨s.chars.map exchange, ofNat_zero_notMem_exchange s⟩

theorem exchange_notMem (c : Char) : exchange c ∉ Regex.syntaxCharacters := by
  unfold exchange
  split_ifs with h
  · decide
  · exact h

/-- The string that is like the pattern is matched, or this is wrong; and then the string with other characters in place of
those that mean something is matched as well, which is not like the pattern. -/
theorem ordinary_of_matchRight {p : CString} (hplain : Plain p.chars) (h : ∀ s, MatchRight s p) : Ordinary p.chars := by
  intro c hc hsyntax
  have hpercent : c ≠ '%' := fun heq => absurd (heq ▸ hsyntax) (by decide)
  have hunderscore : c ≠ '_' := fun heq => absurd (heq ▸ hsyntax) (by decide)
  obtain ⟨result, hresult, hzero⟩ := h (literalString p)
  obtain ⟨r, hparse, rfl⟩ := Option.map_eq_some_iff.mp hresult
  have hmatch : r.regexMatch (literal p.chars) = true := by
    by_contra hmatch
    rw [literalString, if_neg hmatch] at hzero
    exact absurd (hzero.mpr (like_literal p.chars)) (by decide)
  obtain ⟨result', hresult', hzero'⟩ := h (exchanged (literalString p))
  rw [stringMatch, hparse, Option.map_some, exchanged, literalString,
    if_pos ((respects_of_parse hplain hparse).regexMatch_map hmatch)] at hresult'
  have hlike := hzero'.mp (Option.some.inj hresult').symm
  obtain ⟨d, -, hd⟩ := List.mem_map.mp (mem_of_like hlike hc hpercent hunderscore)
  exact exchange_notMem d (hd ▸ hsyntax)

/-- The match is right for every string if the pattern has ordinary characters only. For a plain pattern it is right for
every string only then. -/
theorem matchRight_iff (p : CString) : (Ordinary p.chars → ∀ s, MatchRight s p) ∧
    (Plain p.chars → (∀ s, MatchRight s p) → Ordinary p.chars) :=
  ⟨matchRight_of_ordinary, ordinary_of_matchRight⟩

theorem matchRight_iff_start : Ordinary ['a', '%'] ∧ ∀ s, MatchRight s ⟨['a', '%'], by decide⟩ := by
  have hordinary : Ordinary ['a', '%'] := by simp [Ordinary, Regex.syntaxCharacters]
  exact ⟨hordinary, (matchRight_iff ⟨['a', '%'], by decide⟩).1 hordinary⟩

def abc : CString := ⟨['a', 'b', 'c'], by decide⟩

def aDotC : CString := ⟨['a', '.', 'c'], by decide⟩

def parenthesis : CString := ⟨['('], by decide⟩

theorem not_matchRight_dot :
    (stringMatch abc aDotC = some 0 ∧ ¬Like aDotC.chars abc.chars ∧ ¬MatchRight abc aDotC) ∧
      stringMatch abc parenthesis = none ∧ ¬MatchRight abc parenthesis := by
  have hmatch : stringMatch abc aDotC = some 0 := by decide +kernel
  have hlike : ¬Like aDotC.chars abc.chars := by
    intro h
    have hmem := mem_of_like (c := '.') h (by decide) (by decide) (by decide)
    exact absurd hmem (by decide)
  have hthrows : stringMatch abc parenthesis = none := by decide +kernel
  refine ⟨⟨hmatch, hlike, ?_⟩, hthrows, ?_⟩
  · rintro ⟨result, hresult, hzero⟩
    rw [hmatch] at hresult
    exact hlike (hzero.mp (Option.some.inj hresult).symm)
  · rintro ⟨result, hresult, -⟩
    rw [hthrows] at hresult
    cases hresult

end Landbase.Sql.StringMatch
