import Mathlib.Tactic

/-! # Return codes, page numbers and record identifiers

The vocabulary shared by every storage module of the server: the return codes of `common/rc.h`, the page
and slot numbers of `common/types.h`, and the record identifier of `storage/record/record.h`.

A page number that may be `BP_INVALID_PAGE_NUM` (a parent link, a next-brother link, a root) is an
`Option PageNum` whose `none` is the invalid number. The components of a `RID` stay integers, because
`RID::compare` subtracts them as 32-bit integers and the record store uses negative slots as markers.
-/

namespace Landbase
set_option autoImplicit false

/-! ## Return codes -/

/-- `enum class RC`. -/
inductive RC
  | success | invalidArgument | unimplenment | sqlSyntax | internal | nomem | notfound | empty
  | bufferpoolOpen | bufferpoolNobuf | bufferpoolInvalidPageNum
  | recordOpenned | recordInvalidRid | recordInvalidKey | recordDuplicateKey | recordNomem
  | recordEof | recordNotExist | recordInvisible
  | schemaDbExist | schemaDbNotExist | tupleNotExist | schemaDbNotOpened | schemaTableNotExist
  | schemaTableExist | schemaFieldNotExist | schemaFieldMissing | schemaFieldTypeMismatch
  | schemaIndexNameRepeat
  | ioerrRead | ioerrWrite | ioerrAccess | ioerrOpen | ioerrClose | ioerrSeek | ioerrTooLong | ioerrSync
  | lockedUnlock | lockedNeedWait | lockedConcurrencyConflict
  | fileExist | fileNotExist | fileName | fileBound | fileCreate | fileOpen | fileNotOpened | fileClose
  | fileRemove | fileSeek | fileRead | fileWrite
  | variableNotExists | variableNotValid | logbufFull | failure | failToDeleteFile
  | schemaFieldNotNullable | needTuple
  deriving DecidableEq, Repr

/-! ## Pages, bytes and 32-bit integers -/

/-- A valid page number. -/
abbrev PageNum := ℕ

/-- Raw memory of a record or of a key. -/
abbrev Bytes := List UInt8

/-- The value a 32-bit signed integer takes when it is assigned `x`. -/
def toInt32 (x : ℤ) : ℤ := Int.bmod x (2 ^ 32)

theorem toInt32_of_range {x : ℤ} (hlo : -2 ^ 31 ≤ x) (hhi : x < 2 ^ 31) : toInt32 x = x := by
  unfold toInt32
  rw [Int.bmod_def]
  push_cast
  split <;> omega

/-! ## Record identifiers -/

/-- `struct RID`: the page and the slot of a record. -/
structure RID where
  pageNum : ℤ
  slotNum : ℤ
  deriving DecidableEq, Repr

namespace RID

/-- `RID::compare`, with the two differences taken as 32-bit integers. -/
def compare (rid1 rid2 : RID) : ℤ :=
  let pageDiff := toInt32 (rid1.pageNum - rid2.pageNum)
  if pageDiff ≠ 0 then pageDiff else toInt32 (rid1.slotNum - rid2.slotNum)

/-- Both components are non-negative 32-bit integers, as for every record that is stored in a file. -/
def Valid (rid : RID) : Prop :=
  (0 ≤ rid.pageNum ∧ rid.pageNum < 2 ^ 31) ∧ (0 ≤ rid.slotNum ∧ rid.slotNum < 2 ^ 31)

instance (rid : RID) : Decidable rid.Valid :=
  inferInstanceAs (Decidable ((0 ≤ rid.pageNum ∧ rid.pageNum < 2 ^ 31) ∧ (0 ≤ rid.slotNum ∧ rid.slotNum < 2 ^ 31)))

/-- On valid identifiers no difference overflows. -/
theorem compare_of_valid {r s : RID} (hr : r.Valid) (hs : s.Valid) :
    compare r s = if r.pageNum - s.pageNum ≠ 0 then r.pageNum - s.pageNum else r.slotNum - s.slotNum := by
  obtain ⟨⟨hr1, hr2⟩, hr3, hr4⟩ := hr
  obtain ⟨⟨hs1, hs2⟩, hs3, hs4⟩ := hs
  unfold compare
  rw [toInt32_of_range (by omega) (by omega), toInt32_of_range (by omega) (by omega)]

end RID

end Landbase
