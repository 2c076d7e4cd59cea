import Mathlib.Tactic

/-! # JSON values

The values of a JSON library whose objects are ordered by their keys, with the operations that build a value member by
member and element by element, and those that read it. Integers are the only numbers.
-/

namespace Landbase.Lib
set_option autoImplicit false

inductive Json
  | null
  | bool (b : Bool)
  | int (i : ℤ)
  | string (s : String)
  | array (elements : List Json)
  | object (members : List (String × Json))

namespace Json

/-! ## Building -/

def insertMember (key : String) (value : Json) : List (String × Json) → List (String × Json)
  | [] => [(key, value)]
  | (k, v) :: members =>
    if key = k then (key, value) :: members
    else if key < k then (key, value) :: (k, v) :: members
    else (k, v) :: insertMember key value members

/-- `json[key] = value`. A null becomes an object; the operation is for objects and null only. -/
def set (json : Json) (key : String) (value : Json) : Json :=
  match json with
  | .object members => .object (insertMember key value members)
  | _ => .object [(key, value)]

/-- `json.append(value)`, for arrays and null. -/
def append (json : Json) (value : Json) : Json :=
  match json with
  | .array elements => .array (elements ++ [value])
  | _ => .array [value]

/-- `json[i] = value`, for arrays and null: the array grows to hold the index. -/
def setAt (json : Json) (i : ℕ) (value : Json) : Json :=
  match json with
  | .array elements => .array ((elements.rightpad (i + 1) .null).set i value)
  | _ => .array ((List.replicate (i + 1) .null).set i value)

/-! ## Reading -/

def lookup (key : String) : List (String × Json) → Json
  | [] => .null
  | (k, v) :: members => if key = k then v else lookup key members

/-- `json[key]`; a member that is not there is null. -/
def get (json : Json) (key : String) : Json :=
  match json with
  | .object members => lookup key members
  | _ => .null

/-- What a loop over the value visits. -/
def elements : Json → List Json
  | .array elements => elements
  | .object members => members.map Prod.snd
  | _ => []

def size (json : Json) : ℕ := json.elements.length

/-- Null, or an array or object without elements. -/
def isEmpty : Json → Bool
  | .null => true
  | .array elements => elements.isEmpty
  | .object members => members.isEmpty
  | _ => false

def isArray : Json → Bool
  | .array _ => true
  | _ => false

def isObject : Json → Bool
  | .object _ => true
  | _ => false

/-- The value is an integer of 32 bits. -/
def asInt? : Json → Option ℤ
  | .int i => if -2 ^ 31 ≤ i ∧ i < 2 ^ 31 then some i else none
  | _ => none

def asString? : Json → Option String
  | .string s => some s
  | _ => none

def isBool : Json → Bool
  | .bool _ => true
  | _ => false

/-- The conversion to a truth value. Strings, arrays and objects have none. -/
def asBool? : Json → Option Bool
  | .null => some false
  | .bool b => some b
  | .int i => some (i != 0)
  | _ => none

/-! ## What is read is what was built -/

theorem lookup_insertMember (key key' : String) (value : Json) (members : List (String × Json)) :
    lookup key' (insertMember key value members) = if key' = key then value else lookup key' members := by
  induction members with
  | nil => rfl
  | cons member members ih =>
    obtain ⟨k, v⟩ := member
    simp only [insertMember]
    split
    · next heq =>
      simp only [lookup, heq]
      split
      · rfl
      · rfl
    · next hne =>
      split
      · simp only [lookup]
      · simp only [lookup, ih]
        by_cases hk : key' = k
        · rw [if_pos hk, if_pos hk, if_neg fun h => hne (h.symm.trans hk)]
        · rw [if_neg hk, if_neg hk]

@[simp] theorem get_set_same (json : Json) (key : String) (value : Json) : (json.set key value).get key = value := by
  cases json with
  | object members => exact (lookup_insertMember key key value members).trans (if_pos rfl)
  | _ => exact if_pos rfl

theorem get_set_of_ne (json : Json) {key key' : String} (value : Json) (h : key' ≠ key) :
    (json.set key value).get key' = json.get key' := by
  cases json with
  | object members => exact (lookup_insertMember key key' value members).trans (if_neg h)
  | _ => exact if_neg h

@[simp] theorem get_null (key : String) : null.get key = .null := rfl

@[simp] theorem isObject_set (json : Json) (key : String) (value : Json) : (json.set key value).isObject = true := by
  cases json <;> rfl

/-- A value that can be extended as an array. -/
def IsSequence (json : Json) : Prop := json = .null ∨ json.isArray = true

theorem elements_foldl {α : Type} {step : Json → α → Json} {f : α → Json} (hstep : ∀ json a, IsSequence json →
      IsSequence (step json a) ∧ (step json a).elements = json.elements ++ [f a]) (l : List α) (json : Json)
    (h : IsSequence json) : (l.foldl step json).elements = json.elements ++ l.map f := by
  induction l generalizing json with
  | nil => exact (List.append_nil _).symm
  | cons a l ih =>
    obtain ⟨hsequence, helements⟩ := hstep json a h
    rw [List.foldl_cons, ih _ hsequence, helements, List.map_cons, List.append_assoc]
    rfl

theorem elements_foldl_append {α : Type} (f : α → Json) (l : List α) :
    (l.foldl (fun (json : Json) a => json.append (f a)) .null).elements = l.map f := by
  refine (elements_foldl (fun json a h => ?_) l .null (Or.inl rfl)).trans (List.nil_append _)
  rcases h with rfl | h
  · exact ⟨Or.inr rfl, rfl⟩
  · cases json with
    | array elements => exact ⟨Or.inr rfl, rfl⟩
    | _ => cases h

theorem isArray_foldl_append {α : Type} (f : α → Json) {l : List α} (h : l ≠ []) :
    (l.foldl (fun (json : Json) a => json.append (f a)) .null).isArray = true := by
  induction l using List.reverseRecOn with
  | nil => exact absurd rfl h
  | append_singleton l a ih =>
    rw [List.foldl_append, List.foldl_cons, List.foldl_nil]
    cases l.foldl (fun (json : Json) a => json.append (f a)) .null <;> rfl

theorem isEmpty_of_isArray {json : Json} (h : json.isArray = true) : json.isEmpty = json.elements.isEmpty := by
  cases json with
  | array elements => rfl
  | _ => cases h

theorem elements_setAt_size (json value : Json) (h : IsSequence json) :
    IsSequence (json.setAt json.size value) ∧ (json.setAt json.size value).elements = json.elements ++ [value] := by
  rcases h with rfl | h
  · exact ⟨Or.inr rfl, rfl⟩
  · cases json with
    | array elements =>
      refine ⟨Or.inr rfl, ?_⟩
      show (elements.rightpad (elements.length + 1) .null).set elements.length value = elements ++ [value]
      rw [List.rightpad, Nat.add_sub_cancel_left]
      simp
    | _ => cases h

theorem elements_get_foldl_setAt {α : Type} (f : α → Json) (key : String) (l : List α) (json : Json)
    (h : IsSequence (json.get key)) :
    (((l.zipIdx (json.get key).size).foldl (fun (json : Json) a => json.set key ((json.get key).setAt a.2 (f a.1)))
      json).get key).elements = (json.get key).elements ++ l.map f := by
  induction l generalizing json with
  | nil => exact (List.append_nil _).symm
  | cons a l ih =>
    obtain ⟨hsequence, helements⟩ := elements_setAt_size (json.get key) (f a) h
    have hget := get_set_same json key ((json.get key).setAt (json.get key).size (f a))
    have hsize : ((json.get key).setAt (json.get key).size (f a)).size = (json.get key).size + 1 := by
      rw [size, helements, List.length_append]
      rfl
    rw [List.zipIdx_cons, List.foldl_cons]
    have hrest := ih (json.set key ((json.get key).setAt (json.get key).size (f a))) (by rwa [hget])
    rw [hget, hsize, helements, List.append_assoc] at hrest
    exact hrest

theorem get_foldl_set_of_ne {α : Type} (f : Json → α → Json) {key key' : String} (hne : key' ≠ key) (l : List α)
    (json : Json) : (l.foldl (fun (json : Json) a => json.set key (f json a)) json).get key' = json.get key' := by
  induction l generalizing json with
  | nil => rfl
  | cons a l ih => rw [List.foldl_cons, ih, get_set_of_ne json _ hne]

end Json

end Landbase.Lib
