import Landbase.Index.EqualScan
import Landbase.Lib.Cyclic
import Landbase.Trx.MvccTrx
import Landbase.Sql.PredicatePushdown

/-! # Index scans in place of table scans

`PhysicalPlanGenerator::create_plan` for a `TableGetLogicalOperator` looks for an index on the fields of the equalities
among the predicates and builds a key from the bytes of their constants. `IndexScanPhysicalOperator` gets each record of
the entries under this key, filters it and asks the transaction; the page of the record stays open in its
`record_page_handler_` until the next call of `next`, which the loop over filtered and invisible records forgets.
`TableScanPhysicalOperator` takes the records that `RecordFileScanner` has asked the transaction for, one ahead.
-/

namespace Landbase.Sql.IndexPlan
open Landbase.Index
open Landbase.Storage (Record getBit)
open Landbase.Cyclic Landbase.Lib
set_option autoImplicit false

/-! ## Tables and predicates -/

structure FieldMeta where
  name : String
  type : AttrType
  offset : ℕ
  len : ℕ
  deriving DecidableEq

/-- An index of a table with its tree. -/
structure TableIndex where
  fieldMetas : List FieldMeta
  handler : BplusTreeHandler Key
  fits : fieldMetas.length ≤ maxLeafSize := by decide

namespace TableIndex

def layout (index : TableIndex) : KeyLayout where
  attrs := index.fieldMetas.map fun f => ⟨f.type, f.len⟩
  attrOffsets := index.fieldMetas.map FieldMeta.offset
  offsets_length := by rw [List.length_map, List.length_map]
  fits := by rw [List.length_map]; exact index.fits

/-- The key of a record. -/
def key (index : TableIndex) (x : RID × Record) : Key := makeKey index.layout.attrs index.layout.attrOffsets x.2.data x.1

end TableIndex

/-- A table with its records in the order of the record file. -/
structure Table where
  fields : List FieldMeta
  nullOffset : ℕ
  indexes : List TableIndex
  records : List (RID × Record)

/-- A record has a NULL among the fields of the index and so no entry there. -/
def Table.hasNull (table : Table) (index : TableIndex) (record : Record) : Bool :=
  index.fieldMetas.any fun f =>
    getBit (record.data.drop table.nullOffset) (table.fields.findIdx fun field => field.offset = f.offset)

/-- A comparison of a field with a constant. -/
structure Predicate where
  comp : CompOp
  fieldName : String
  value : Value
  fieldLeft : Bool

/-- `Trx::visit_record` of the two kinds of transactions. -/
inductive Transaction
  | vacuous
  | mvcc (trxId : ℤ)

def Transaction.visitRecord (trx : Transaction) (readonly : Bool) (record : Record) : RC :=
  match trx with
  | .vacuous => .success
  | .mvcc trxId => Trx.visitRecord trxId record readonly

/-- `filter` of both operators; `cell` is the value of a field in a record. -/
def filter (cell : String → Record → Value) (compareValues : CompOp → Value → Value → Bool) (predicates : List Predicate)
    (record : Record) : Bool :=
  predicates.all fun p =>
    if p.fieldLeft then Pushdown.compare compareValues p.comp (cell p.fieldName record) p.value
    else Pushdown.compare compareValues p.comp p.value (cell p.fieldName record)

/-! ## The plan -/

def int32Bytes (i : ℤ) : Bytes :=
  let n := (i % 2 ^ 32).toNat
  [UInt8.ofNat n, UInt8.ofNat (n / 2 ^ 8), UInt8.ofNat (n / 2 ^ 16), UInt8.ofNat (n / 2 ^ 24)]

/-- The bits of a float, which is given as a multiple of `2 ^ (-149)`. -/
def floatBits (f : ℤ) : ℕ :=
  let exponent := Nat.log2 f.natAbs - 22
  let magnitude :=
    if f.natAbs < 2 ^ 23 then f.natAbs else exponent * 2 ^ 23 + (f.natAbs / 2 ^ (exponent - 1) - 2 ^ 23)
  if f < 0 then 2 ^ 31 + magnitude else magnitude

/-- What is known of the memory at `Value::data()`. -/
def valueData : Value → Bytes
  | .chars s | .texts s => s ++ [0]
  | .dates d => int32Bytes d
  | .ints i => int32Bytes i
  | .floats f => int32Bytes (floatBits f)
  | .undefined | .booleans _ | .nulls => []

/-- So many bytes from `Value::data()` on; `memory` is what lies behind the value. -/
def dataBytes (memory : Value → ℕ → UInt8) (v : Value) (len : ℕ) : Bytes :=
  (valueData v ++ (List.range len).map (memory v)).take len

/-- The fields and constants of the equalities. -/
def fieldValues (predicates : List Predicate) : List (String × Value) :=
  predicates.filterMap fun p => if p.comp = .equalTo then some (p.fieldName, p.value) else none

/-- `Table::find_index_by_fields`, which compares sets. -/
def Table.findIndexByFields (table : Table) (fieldNames : List String) : Option TableIndex :=
  table.indexes.find? fun index => decide (index.fieldMetas.length = fieldNames.dedup.length) &&
    index.fieldMetas.all fun f => fieldNames.contains f.name

/-- The loop that copies the constants into the key; `none` when a field is not found in the index. -/
def copyValues (memory : Value → ℕ → UInt8) (fieldMetas : List FieldMeta) : Bytes → List (String × Value) → Option Bytes
  | ukey, [] => some ukey
  | ukey, (fieldName, value) :: rest =>
    match fieldMetas.find? fun f => f.name = fieldName with
    | none => none
    | some target => copyValues memory fieldMetas (overwrite ukey target.offset (dataBytes memory value target.len)) rest

inductive Plan
  | tableScan
  | indexScan (index : TableIndex) (ukey : Option Bytes)

/-- `create_plan(TableGetLogicalOperator)`; `garbage` is what the new buffer for the key holds. -/
def createPlan (memory : Value → ℕ → UInt8) (garbage : ℕ → UInt8) (table : Table) (predicates : List Predicate) : Plan :=
  let values := fieldValues predicates
  match table.findIndexByFields (values.map Prod.fst) with
  | none => .tableScan
  | some index =>
    -- only the last constant is looked at
    if (values.getLast?.map fun v => v.2.isNull) = some true then .tableScan
    else .indexScan index
      (copyValues memory index.fieldMetas ((List.range index.layout.ukeyLen).map garbage) values)

/-! ## The operators -/

section

variable (passes : Record → Bool) (visit : Record → RC)

/-- `RecordFileHandler::get_record`. -/
def getRecord (records : List (RID × Record)) (rid : RID) : Option Record :=
  (records.find? fun x => x.1 = rid).map Prod.snd

/-- The calls of `next` of an index scan, for the entries that are left; `opened` is whether `record_page_handler_` has been
left open. -/
def indexRows (records : List (RID × Record)) : Bool → List RID → List RID × RC
  | _, [] => ([], .recordEof)
  | true, _ :: _ => ([], .recordOpenned)
  | false, rid :: rids =>
    match getRecord records rid with
    | none => ([], .recordNotExist)
    | some record =>
      if passes record = false then indexRows records true rids
      else if visit record = .recordInvisible then indexRows records true rids
      else if visit record = .success then
        (rid :: (indexRows records false rids).1, (indexRows records false rids).2)
      else ([], visit record)

/-- The number of steps that a scan of the tree takes at most. -/
def scanFuel (handler : BplusTreeHandler Key) : ℕ := (handler.leafChain.getD []).length + 1

/-- `IndexScanPhysicalOperator`: the records that calls of `next` give until one fails, and its code. It is `none` where the
scanner of the tree stops at an assertion or leaves its buffer. -/
def indexScan (table : Table) (index : TableIndex) (ukey : Bytes) : Option (List RID × RC) :=
  match BplusTreeScanner.openScan index.layout index.handler (some (recordBound ukey)) (some (recordBound ukey)) with
  | none => none
  | some (rc, s) =>
    if rc ≠ .success then some ([], .internal)
    else
      (s.collect (keyOps index.layout.attrs) index.handler (scanFuel index.handler)).map fun rids =>
        indexRows passes visit table.records false rids

/-- The records that `fetch_next_record` stops at, one after the other. -/
def fetched (records : List (RID × Record)) : List (RID × Record) :=
  records.filter fun x => decide (visit x.2 ≠ .recordInvisible)

/-- The calls of `next` of a table scan, where the first record has been fetched. `next` gives a record together with the
code for the one behind it. -/
def tableRows : List (RID × Record) → List RID × RC
  | [] => ([], .recordEof)
  | [x] => (if passes x.2 then [x.1] else [], .recordEof)
  | x :: y :: rest =>
    if visit y.2 ≠ .success then ([], visit y.2)
    else (if passes x.2 then x.1 :: (tableRows (y :: rest)).1 else (tableRows (y :: rest)).1, (tableRows (y :: rest)).2)

/-- `TableScanPhysicalOperator`, with predicates. When the first record cannot be fetched, `open` goes on without a schema;
`next` then fails at the second record or, where this can be fetched, has no schema to use. -/
def tableScan (table : Table) : Option (List RID × RC) :=
  match fetched visit table.records with
  | [] => some ([], .recordEof)
  | x :: rest =>
    if visit x.2 = .success then some (tableRows passes visit (x :: rest))
    else
      match rest with
      | [] => none
      | y :: _ => if visit y.2 = .success then none else some ([], visit y.2)

end

/-! ## When the scans agree -/

section

variable (passes : Record → Bool) (visit : Record → RC)

/-- The plan with the index ends well and gives the records of the table scan. -/
def Agrees (table : Table) (index : TableIndex) (ukey : Option Bytes) : Prop :=
  ∃ key rows rows' rc, ukey = some key ∧ indexScan passes visit table index key = some (rows, .recordEof) ∧
    tableScan passes visit table = some (rows', rc) ∧ rows.Perm rows'

/-- The index has an entry of the record under the key. -/
def Selected (table : Table) (index : TableIndex) (ukey : Bytes) (x : RID × Record) : Prop :=
  table.hasNull index x.2 = false ∧
    attrComparator index.layout.attrs (index.key x).attrs ((recordBound ukey).attrs index.layout) = 0

instance (table : Table) (index : TableIndex) (ukey : Bytes) (x : RID × Record) :
    Decidable (Selected table index ukey x) := inferInstanceAs (Decidable (_ ∧ _))

/-- The records that a table scan gets to. A record that is locked stops the scan already at the record before it. -/
def reached : List (RID × Record) → List (RID × Record)
  | [] => []
  | [x] => [x]
  | x :: y :: rest => if visit y.2 = .success then x :: reached (y :: rest) else []

/-- The table scan has a schema, or fails before it needs one. -/
def Opened : List (RID × Record) → Prop
  | [] => True
  | [x] => visit x.2 = .success
  | x :: y :: _ => visit x.2 = .success ∨ visit y.2 ≠ .success

instance (l : List (RID × Record)) : Decidable (Opened visit l) :=
  match l with
  | [] => inferInstanceAs (Decidable True)
  | [x] => inferInstanceAs (Decidable (visit x.2 = .success))
  | x :: y :: _ => inferInstanceAs (Decidable (visit x.2 = .success ∨ visit y.2 ≠ .success))

/-- What the plan with the index needs. -/
structure Exact (table : Table) (index : TableIndex) (ukey : Bytes) : Prop where
  plain : ∀ a, index.layout.attrs.head? = some a → a.type ≠ .chars
  short : attrLength index.layout.attrs ≤ ukey.length
  first : ∀ x ∈ table.records, ∀ y ∈ table.records, Selected table index ukey x → Selected table index ukey y →
    RID.compare x.1 y.1 < 0 → passes x.2 = true ∧ visit x.2 = .success
  unlocked : ∀ x ∈ table.records, Selected table index ukey x → passes x.2 = true →
    visit x.2 ≠ .lockedConcurrencyConflict
  opened : Opened visit (fetched visit table.records)
  found : ∀ x ∈ reached visit (fetched visit table.records), passes x.2 = true → Selected table index ukey x
  back : ∀ x ∈ table.records, Selected table index ukey x → passes x.2 = true → visit x.2 = .success →
    x ∈ reached visit (fetched visit table.records)

/-- The entries of an index are those of the stored records without a NULL among its fields. -/
structure Maintained (table : Table) (index : TableIndex) (entries : List (Key × RID)) : Prop where
  nodup : (table.records.map Prod.fst).Nodup
  stored : ∀ e ∈ entries, ∃ x ∈ table.records, table.hasNull index x.2 = false ∧ e = (index.key x, x.1)
  held : ∀ x ∈ table.records, table.hasNull index x.2 = false → (index.key x, x.1) ∈ entries

/-! ## The operators -/

/-- The codes of a transaction. -/
def Visits : Prop := ∀ record, visit record = .success ∨ visit record = .recordInvisible ∨
  visit record = .lockedConcurrencyConflict

theorem visits_visitRecord (trx : Transaction) (readonly : Bool) : Visits (trx.visitRecord readonly) := by
  intro record
  cases trx with
  | vacuous => exact Or.inl rfl
  | mvcc trxId =>
    simp only [Transaction.visitRecord, Trx.visitRecord]
    split_ifs <;> simp

variable {passes visit}

theorem tableRows_eq (l : List (RID × Record)) :
    (tableRows passes visit l).1 = ((reached visit l).filter fun x => passes x.2).map Prod.fst := by
  induction l with
  | nil => rfl
  | cons x l ih =>
    cases l with
    | nil =>
      simp only [tableRows, reached, List.filter_cons]
      cases passes x.2 <;> rfl
    | cons y rest =>
      simp only [tableRows, reached]
      by_cases hy : visit y.2 = .success
      · rw [if_neg (not_not.mpr hy), if_pos hy, List.filter_cons, ih]
        cases passes x.2 <;> rfl
      · rw [if_pos hy, if_neg hy]
        rfl

theorem opened_cons {y : RID × Record} (hy : visit y.2 = .success) (rest : List (RID × Record)) :
    Opened visit (y :: rest) := by
  cases rest with
  | nil => exact hy
  | cons z rest => exact Or.inl hy

theorem tableScan_iff (table : Table) (rows : List RID) :
    (∃ rc, tableScan passes visit table = some (rows, rc)) ↔
      Opened visit (fetched visit table.records) ∧
        rows = ((reached visit (fetched visit table.records)).filter fun x => passes x.2).map Prod.fst := by
  rw [tableScan, ← tableRows_eq]
  cases hfetched : fetched visit table.records with
  | nil => simp [tableRows, Opened, eq_comm]
  | cons x rest =>
    by_cases hx : visit x.2 = .success
    · simp [hx, opened_cons hx rest, Prod.ext_iff, eq_comm]
    · cases rest with
      | nil => simp [hx, Opened]
      | cons y rest =>
        by_cases hy : visit y.2 = .success
        · simp [hx, hy, Opened]
        · have hrows : tableRows passes visit (x :: y :: rest) = ([], visit y.2) := by
            rw [tableRows, if_pos hy]
          simp [hx, hy, Opened, hrows, eq_comm]

/-- The record of an entry passes the filter and is visible. -/
def good (passes : Record → Bool) (visit : Record → RC) (x : RID × Record) : Bool :=
  passes x.2 && decide (visit x.2 = .success)

theorem getRecord_eq {records : List (RID × Record)} (hnodup : (records.map Prod.fst).Nodup) {x : RID × Record}
    (hx : x ∈ records) : getRecord records x.1 = some x.2 := by
  have hfind : (records.find? fun y => decide (y.1 = x.1)) = some x := by
    cases hfound : records.find? fun y => decide (y.1 = x.1) with
    | none => exact absurd rfl (of_decide_eq_false (Bool.eq_false_iff.mpr (List.find?_eq_none.mp hfound x hx)))
    | some y =>
      have hy := List.mem_of_find?_eq_some hfound
      have hkey : y.1 = x.1 := by simpa using List.find?_some hfound
      rw [List.inj_on_of_nodup_map hnodup hy hx hkey]
  rw [getRecord, hfind]
  rfl

theorem indexRows_opened_iff {records l : List (RID × Record)} (rows : List RID) :
    indexRows passes visit records true (l.map Prod.fst) = (rows, .recordEof) ↔ l = [] ∧ rows = [] := by
  cases l with
  | nil => simp [indexRows, eq_comm]
  | cons y l => simp [indexRows]

/-- An index scan reaches its end if and only if all records but the last pass, and the last is not locked. -/
theorem indexRows_iff {records selected : List (RID × Record)} (hnodup : (records.map Prod.fst).Nodup)
    (hvisits : Visits visit) (hselected : ∀ x ∈ selected, x ∈ records) (rows : List RID) :
    indexRows passes visit records false (selected.map Prod.fst) = (rows, .recordEof) ↔
      selected.Pairwise (fun x _ => good passes visit x = true) ∧
        (∀ x ∈ selected, passes x.2 = true → visit x.2 ≠ .lockedConcurrencyConflict) ∧
        rows = (selected.filter (good passes visit)).map Prod.fst := by
  induction selected generalizing rows with
  | nil =>
    rw [List.map_nil, indexRows, Prod.mk.injEq, and_iff_left rfl]
    constructor
    · rintro rfl
      exact ⟨List.Pairwise.nil, by simp, rfl⟩
    · rintro ⟨-, -, rfl⟩
      rfl
  | cons x l ih =>
    have hrest := ih fun y hy => hselected y (List.mem_cons_of_mem _ hy)
    rw [List.map_cons, indexRows, getRecord_eq hnodup (hselected x List.mem_cons_self)]
    simp only
    -- a record that does not pass must be the last one
    have hlast : good passes visit x = false → visit x.2 ≠ .lockedConcurrencyConflict ∨ passes x.2 = false →
        ((l = [] ∧ rows = []) ↔ (x :: l).Pairwise (fun x _ => good passes visit x = true) ∧
          (∀ y ∈ x :: l, passes y.2 = true → visit y.2 ≠ .lockedConcurrencyConflict) ∧
          rows = ((x :: l).filter (good passes visit)).map Prod.fst) := by
      intro hgood hunlocked
      constructor
      · rintro ⟨rfl, rfl⟩
        refine ⟨List.pairwise_singleton _ _, ?_, by simp [hgood]⟩
        intro y hy hpasses
        obtain rfl := List.mem_singleton.mp hy
        exact hunlocked.resolve_right (by simp [hpasses])
      · rintro ⟨hpairwise, -, hrows⟩
        cases l with
        | nil => exact ⟨rfl, by simpa [hgood] using hrows⟩
        | cons y l =>
          have hx := (List.pairwise_cons.mp hpairwise).1 y List.mem_cons_self
          rw [hgood] at hx
          cases hx
    by_cases hpasses : passes x.2 = true
    · rw [if_neg (by simp [hpasses])]
      rcases hvisits x.2 with hvisit | hvisit | hvisit
      · have hgood : good passes visit x = true := by simp [good, hpasses, hvisit]
        rw [if_neg (by simp [hvisit]), if_pos hvisit, List.pairwise_cons, List.filter_cons, if_pos hgood, List.map_cons]
        constructor
        · intro heq
          obtain ⟨rfl, heof⟩ := Prod.mk.inj heq
          obtain ⟨hpairwise, hunlocked, hrows⟩ := (hrest _).mp (Prod.ext rfl heof)
          refine ⟨⟨fun _ _ => hgood, hpairwise⟩, ?_, by rw [← hrows]⟩
          intro y hy hpasses'
          rcases List.mem_cons.mp hy with rfl | hy
          · simp [hvisit]
          · exact hunlocked y hy hpasses'
        · rintro ⟨⟨-, hpairwise⟩, hunlocked, rfl⟩
          rw [(hrest _).mpr ⟨hpairwise, fun y hy => hunlocked y (List.mem_cons_of_mem _ hy), rfl⟩]
      · have hgood : good passes visit x = false := by simp [good, hvisit]
        rw [if_pos hvisit, indexRows_opened_iff]
        exact hlast hgood (Or.inl (by simp [hvisit]))
      · rw [if_neg (by simp [hvisit]), if_neg (by simp [hvisit])]
        refine iff_of_false ?_ fun h => h.2.1 x List.mem_cons_self hpasses hvisit
        simp [hvisit]
    · have hgood : good passes visit x = false := by simp [good, hpasses]
      rw [if_pos (by simpa using hpasses), indexRows_opened_iff]
      exact hlast hgood (Or.inr (by simpa using hpasses))

end

/-! ## The entries under the key -/

theorem exists_eq_map {α β : Type} {P : β → Prop} {f : β → α} (l : List α) (h : ∀ a ∈ l, ∃ b, P b ∧ a = f b) :
    ∃ l' : List β, l = l'.map f ∧ ∀ b ∈ l', P b := by
  induction l with
  | nil => exact ⟨[], rfl, by simp⟩
  | cons a l ih =>
    obtain ⟨b, hb, rfl⟩ := h a List.mem_cons_self
    obtain ⟨l', rfl, hl'⟩ := ih fun a ha => h a (List.mem_cons_of_mem _ ha)
    exact ⟨b :: l', rfl, List.forall_mem_cons.mpr ⟨hb, hl'⟩⟩

theorem compare_rid_neg {attrs : List Attr} {ok : Key → Prop} (hattrs : Consistent (keyOps attrs).attrComparator ok)
    (k k' : Key) {u : Key} (hk : ok k) (hk' : ok k') (hu : ok u) (hku : attrComparator attrs k.attrs u.attrs = 0)
    (hku' : attrComparator attrs k'.attrs u.attrs = 0) (hlt : keyComparator attrs k k' < 0) :
    RID.compare k.rid k'.rid < 0 := by
  have hzero : ∀ a b : Key, ok a → ok b → attrComparator attrs a.attrs b.attrs = 0 →
      attrComparator attrs b.attrs a.attrs = 0 := by
    intro a b ha hb hab
    have hneg := hattrs.flip b a hb ha
    have hpos := hattrs.flip a b ha hb
    simp only [keyOps] at hneg hpos
    omega
  have hle := hattrs.trans k u k' hk hu hk' hku.le (hzero k' u hk' hu hku').le
  have hge := hattrs.trans k' u k hk' hu hk hku'.le (hzero k u hk hu hku).le
  have hflip := hattrs.flip k' k hk' hk
  simp only [keyOps] at hle hge hflip
  have hequal : attrComparator attrs k.attrs k'.attrs = 0 := by
    by_contra hne
    have hneg := hattrs.flip k k' hk hk'
    simp only [keyOps] at hneg
    omega
  rw [keyComparator] at hlt
  simpa [hequal] using hlt

theorem exists_selected {B : Type} [Preorder B] [BoundedOrder B] {table : Table} {index : TableIndex}
    {ord : KeyOrder (keyOps index.layout.attrs) B} {entries : List (Key × RID)}
    (hr : Represents ord index.handler entries) (hattrs : Consistent (keyOps index.layout.attrs).attrComparator ord.Known)
    (hm : Maintained table index entries) {ukey : Bytes}
    (hleft : ord.Known ((recordBound ukey).scanLeft index.layout)) :
    ∃ selected : List (RID × Record), (∀ x, x ∈ selected ↔ x ∈ table.records ∧ Selected table index ukey x) ∧
      selected.Pairwise (fun x y => RID.compare x.1 y.1 < 0) ∧
      (entries.filter fun e => attrComparator index.layout.attrs e.1.attrs
        ((recordBound ukey).attrs index.layout) = 0).map Prod.snd = selected.map Prod.fst := by
  have hentries : ∀ e ∈ entries, ∃ x, (x ∈ table.records ∧ table.hasNull index x.2 = false) ∧ e = (index.key x, x.1) := by
    intro e he
    obtain ⟨x, hx, hnull, heq⟩ := hm.stored e he
    exact ⟨x, ⟨hx, hnull⟩, heq⟩
  obtain ⟨xs, rfl, hxs⟩ := exists_eq_map entries hentries
  refine ⟨xs.filter fun x => decide (attrComparator index.layout.attrs (index.key x).attrs
    ((recordBound ukey).attrs index.layout) = 0), ?_, ?_, ?_⟩
  · intro x
    rw [List.mem_filter, decide_eq_true_eq]
    constructor
    · rintro ⟨hx, hequal⟩
      exact ⟨(hxs x hx).1, (hxs x hx).2, hequal⟩
    · rintro ⟨hx, hnull, hequal⟩
      obtain ⟨y, hy, heq⟩ := List.mem_map.mp (hm.held x hx hnull)
      rw [← List.inj_on_of_nodup_map hm.nodup (hxs y hy).1 hx (Prod.mk.inj heq).2]
      refine ⟨hy, ?_⟩
      rw [(Prod.mk.inj heq).1]
      exact hequal
  · have hsorted := List.pairwise_map.mp (List.pairwise_map.mp hr.sorted)
    refine (hsorted.filter _).imp_of_mem ?_
    intro x y hx hy hlt
    rw [List.mem_filter, decide_eq_true_eq] at hx hy
    have hkx : ord.Known (index.key x) := hr.known _ (List.mem_map.mpr ⟨x, hx.1, rfl⟩)
    have hky : ord.Known (index.key y) := hr.known _ (List.mem_map.mpr ⟨y, hy.1, rfl⟩)
    have hlt' : keyComparator index.layout.attrs (index.key x) (index.key y) < 0 :=
      (ord.neg_iff (index.key x) (index.key y) hkx hky).mpr hlt
    exact compare_rid_neg hattrs (index.key x) (index.key y) hkx hky hleft hx.2 hy.2 hlt'
  · rw [List.filter_map, List.map_map]
    rfl

/-! ## Records in order -/

theorem RID.compare_self (rid : RID) : RID.compare rid rid = 0 := by
  simp [RID.compare, toInt32]

theorem RID.compare_asymm {r s : RID} (hr : r.Valid) (hs : s.Valid) (h : RID.compare r s < 0) : ¬RID.compare s r < 0 := by
  rw [(RID.compare_threeWay hr hs).neg_iff] at h
  rw [(RID.compare_threeWay hs hr).neg_iff]
  exact h.asymm

theorem pairwise_iff_forall {selected : List (RID × Record)} {P : RID × Record → Prop}
    (hsorted : selected.Pairwise fun x y => RID.compare x.1 y.1 < 0) (hvalid : ∀ x ∈ selected, x.1.Valid) :
    selected.Pairwise (fun x _ => P x) ↔ ∀ x ∈ selected, ∀ y ∈ selected, RID.compare x.1 y.1 < 0 → P x := by
  constructor
  · intro hpairwise
    have hself : ∀ x ∈ selected, RID.compare x.1 x.1 < 0 → P x := by
      intro x _ hlt
      rw [RID.compare_self] at hlt
      exact absurd hlt (lt_irrefl 0)
    have hforward : selected.Pairwise fun x y => RID.compare x.1 y.1 < 0 → P x := by
      refine hpairwise.imp ?_
      intro x y h _
      exact h
    have hbackward : selected.Pairwise (flip fun x y => RID.compare x.1 y.1 < 0 → P x) := by
      refine hsorted.imp_of_mem ?_
      intro x y hx hy hlt hgt
      exact absurd hgt (RID.compare_asymm (hvalid x hx) (hvalid y hy) hlt)
    intro x hx y hy
    exact List.Pairwise.forall_of_forall_of_flip hself hforward hbackward hx hy
  · intro hall
    refine hsorted.imp_of_mem ?_
    intro x y hx hy hlt
    exact hall x hx y hy hlt

section

variable {passes : Record → Bool} {visit : Record → RC}

theorem reached_sublist (l : List (RID × Record)) : (reached visit l).Sublist l := by
  induction l with
  | nil => exact List.Sublist.refl _
  | cons x l ih =>
    cases l with
    | nil => exact List.Sublist.refl _
    | cons y rest =>
      rw [reached]
      split
      · exact ih.cons_cons x
      · exact List.nil_sublist _

theorem visit_of_mem_reached {l : List (RID × Record)} (hopened : Opened visit l) {x : RID × Record}
    (hx : x ∈ reached visit l) : visit x.2 = .success := by
  induction l with
  | nil => cases hx
  | cons y l ih =>
    cases l with
    | nil =>
      obtain rfl := List.mem_singleton.mp hx
      exact hopened
    | cons z rest =>
      rw [reached] at hx
      split at hx
      · next hz =>
        rcases List.mem_cons.mp hx with rfl | hx
        · exact hopened.resolve_right (not_not.mpr hz)
        · exact ih (opened_cons hz rest) hx
      · cases hx

theorem indexScan_eq_none (table : Table) {index : TableIndex} {ukey : Bytes}
    (h : ¬((∀ a, index.layout.attrs.head? = some a → a.type ≠ .chars) ∧ attrLength index.layout.attrs ≤ ukey.length)) :
    indexScan passes visit table index ukey = none := by
  have hopen : BplusTreeScanner.openScan index.layout index.handler (some (recordBound ukey))
      (some (recordBound ukey)) = none := by
    by_cases hlong : attrLength index.layout.attrs ≤ ukey.length
    · have hchars : ∃ a, index.layout.attrs.head? = some a ∧ a.type = .chars := by
        by_contra hplain
        push Not at hplain
        exact h ⟨hplain, hlong⟩
      obtain ⟨a, ha, hchars⟩ := hchars
      exact openScan_chars index.handler ha hchars ukey
    · exact openScan_outside index.handler (not_le.mp hlong)
  rw [indexScan, hopen]

theorem perm_iff {records selected there : List (RID × Record)} (hnodup : (records.map Prod.fst).Nodup)
    (hsorted : selected.Pairwise fun x y => RID.compare x.1 y.1 < 0) (hselected : ∀ x ∈ selected, x ∈ records)
    (hthere : there.Sublist records) :
    (selected.map Prod.fst).Perm (there.map Prod.fst) ↔ ∀ x, x ∈ selected ↔ x ∈ there := by
  have hselectedNodup : (selected.map Prod.fst).Nodup := by
    refine List.pairwise_map.mpr (hsorted.imp ?_)
    intro x y hlt heq
    rw [heq, RID.compare_self] at hlt
    cases hlt
  rw [List.perm_ext_iff_of_nodup hselectedNodup ((hthere.map Prod.fst).nodup hnodup)]
  have hmem : ∀ {l : List (RID × Record)}, (∀ x ∈ l, x ∈ records) → ∀ x ∈ records, x.1 ∈ l.map Prod.fst → x ∈ l := by
    intro l hl x hx hmem
    obtain ⟨y, hy, heq⟩ := List.mem_map.mp hmem
    exact List.inj_on_of_nodup_map hnodup (hl y hy) hx heq ▸ hy
  constructor
  · intro h x
    constructor
    · intro hx
      exact hmem (fun y hy => hthere.subset hy) x (hselected x hx) ((h x.1).mp (List.mem_map.mpr ⟨x, hx, rfl⟩))
    · intro hx
      exact hmem hselected x (hthere.subset hx) ((h x.1).mpr (List.mem_map.mpr ⟨x, hx, rfl⟩))
  · intro h rid
    constructor
    · intro hrid
      obtain ⟨x, hx, rfl⟩ := List.mem_map.mp hrid
      exact List.mem_map.mpr ⟨x, (h x).mp hx, rfl⟩
    · intro hrid
      obtain ⟨x, hx, rfl⟩ := List.mem_map.mp hrid
      exact List.mem_map.mpr ⟨x, (h x).mpr hx, rfl⟩

/-- The plan with the index, once it is known which records are under the key. -/
theorem agrees_iff_exact {table : Table} {index : TableIndex} {ukey : Bytes} (hvisits : Visits visit)
    (hnodup : (table.records.map Prod.fst).Nodup) {selected : List (RID × Record)}
    (hmem : ∀ x, x ∈ selected ↔ x ∈ table.records ∧ Selected table index ukey x)
    (hsorted : selected.Pairwise fun x y => RID.compare x.1 y.1 < 0) (hvalid : ∀ x ∈ selected, x.1.Valid)
    (hscan : (∀ a, index.layout.attrs.head? = some a → a.type ≠ .chars) → attrLength index.layout.attrs ≤ ukey.length →
      indexScan passes visit table index ukey =
        some (indexRows passes visit table.records false (selected.map Prod.fst))) :
    Agrees passes visit table index (some ukey) ↔ Exact passes visit table index ukey := by
  have hgood : ∀ x, good passes visit x = true ↔ passes x.2 = true ∧ visit x.2 = .success := by simp [good]
  have hrecords : ∀ x ∈ selected, x ∈ table.records := fun x hx => ((hmem x).mp hx).1
  have hthere : (reached visit (fetched visit table.records)).Sublist table.records :=
    (reached_sublist _).trans List.filter_sublist
  have hpassing : ((reached visit (fetched visit table.records)).filter fun x => passes x.2).Sublist table.records :=
    List.filter_sublist.trans hthere
  have hperm := perm_iff hnodup (hsorted.filter (good passes visit))
    (fun x hx => hrecords x (List.mem_of_mem_filter hx)) hpassing
  simp only [List.mem_filter, hgood] at hperm
  constructor
  · rintro ⟨key, rows, rows', rc, hkey, hindex, htable, hrows⟩
    obtain rfl := Option.some.inj hkey
    have hplain : (∀ a, index.layout.attrs.head? = some a → a.type ≠ .chars) ∧
        attrLength index.layout.attrs ≤ ukey.length := by
      by_contra hnot
      rw [indexScan_eq_none table hnot] at hindex
      cases hindex
    rw [hscan hplain.1 hplain.2, Option.some.injEq] at hindex
    obtain ⟨hpairwise, hunlocked, rfl⟩ := (indexRows_iff hnodup hvisits hrecords rows).mp hindex
    obtain ⟨hopened, rfl⟩ := (tableScan_iff table rows').mp ⟨rc, htable⟩
    have hsame := hperm.mp hrows
    refine ⟨hplain.1, hplain.2, ?_, ?_, hopened, ?_, ?_⟩
    · intro x hx y hy hselected hselected' hlt
      exact (hgood x).mp ((pairwise_iff_forall hsorted hvalid).mp hpairwise x ((hmem x).mpr ⟨hx, hselected⟩) y
        ((hmem y).mpr ⟨hy, hselected'⟩) hlt)
    · intro x hx hselected
      exact hunlocked x ((hmem x).mpr ⟨hx, hselected⟩)
    · intro x hx hpasses
      exact ((hmem x).mp ((hsame x).mpr ⟨hx, hpasses⟩).1).2
    · intro x hx hselected hpasses hvisit
      exact ((hsame x).mp ⟨(hmem x).mpr ⟨hx, hselected⟩, hpasses, hvisit⟩).1
  · intro h
    have hpairwise : selected.Pairwise fun x _ => good passes visit x = true := by
      refine (pairwise_iff_forall hsorted hvalid).mpr ?_
      intro x hx y hy hlt
      exact (hgood x).mpr (h.first x (hrecords x hx) y (hrecords y hy) ((hmem x).mp hx).2 ((hmem y).mp hy).2 hlt)
    have hunlocked : ∀ x ∈ selected, passes x.2 = true → visit x.2 ≠ .lockedConcurrencyConflict := by
      intro x hx
      exact h.unlocked x (hrecords x hx) ((hmem x).mp hx).2
    obtain ⟨rc, htable⟩ := (tableScan_iff table _).mpr ⟨h.opened, rfl⟩
    have hindex := (indexRows_iff hnodup hvisits hrecords _).mpr ⟨hpairwise, hunlocked, rfl⟩
    refine ⟨ukey, _, _, rc, rfl, (hscan h.plain h.short).trans (congrArg some hindex), htable, hperm.mpr ?_⟩
    intro x
    constructor
    · rintro ⟨hx, hpasses, hvisit⟩
      exact ⟨h.back x (hrecords x hx) ((hmem x).mp hx).2 hpasses hvisit, hpasses⟩
    · rintro ⟨hx, hpasses⟩
      exact ⟨(hmem x).mpr ⟨hthere.subset hx, h.found x hx hpasses⟩, hpasses, visit_of_mem_reached h.opened hx⟩

end

/-! ## The key -/

theorem length_dataBytes (memory : Value → ℕ → UInt8) (v : Value) (len : ℕ) : (dataBytes memory v len).length = len := by
  simp [dataBytes]

theorem length_copyValues {memory : Value → ℕ → UInt8} {index : TableIndex} {values : List (String × Value)}
    {ukey key : Bytes} (hlen : ukey.length = index.layout.ukeyLen)
    (h : copyValues memory index.fieldMetas ukey values = some key) : key.length = index.layout.ukeyLen := by
  induction values generalizing ukey with
  | nil => exact Option.some.inj h ▸ hlen
  | cons v values ih =>
    rw [copyValues] at h
    cases htarget : index.fieldMetas.find? fun f => decide (f.name = v.1) with
    | none =>
      rw [htarget] at h
      cases h
    | some target =>
      rw [htarget] at h
      refine ih ?_ h
      have hmem : ((⟨target.type, target.len⟩ : Attr), target.offset) ∈
          index.layout.attrs.zip index.layout.attrOffsets := by
        rw [TableIndex.layout, List.zip_map']
        exact List.mem_map.mpr ⟨target, List.mem_of_find?_eq_some htarget, rfl⟩
      have hinside := inside_of_ukeyLen hlen _ hmem
      rw [length_overwrite, hlen]
      rw [length_dataBytes]
      exact hinside

theorem length_of_createPlan {memory : Value → ℕ → UInt8} {garbage : ℕ → UInt8} {table : Table}
    {predicates : List Predicate} {index : TableIndex} {key : Bytes}
    (h : createPlan memory garbage table predicates = .indexScan index (some key)) :
    key.length = index.layout.ukeyLen := by
  rw [createPlan] at h
  cases hindex : table.findIndexByFields ((fieldValues predicates).map Prod.fst) with
  | none =>
    simp only [hindex] at h
    cases h
  | some found =>
    simp only [hindex] at h
    split at h
    · cases h
    · obtain ⟨rfl, hcopy⟩ := Plan.indexScan.inj h
      exact length_copyValues (by simp) hcopy

/-- A tree that calls of insertions and deletions have built, whose comparators order the keys of the calls. -/
structure Reachable (index : TableIndex) (ok : Key → Prop) (entries : List (Key × RID)) : Prop where
  keys : Consistent (keyOps index.layout.attrs).keyComparator ok
  attrs : Consistent (keyOps index.layout.attrs).attrComparator ok
  leafChain : index.handler.leafChain = some entries
  run : ∃ (unique : Bool) (internalMaxSize leafMaxSize : ℕ) (calls : List Call) (rcs : List RC),
    4 ≤ leafMaxSize ∧ 6 ≤ internalMaxSize ∧ (∀ c ∈ calls, ok (c.key index.layout) ∧ Inner c.rid) ∧
      (BplusTreeHandler.create unique internalMaxSize leafMaxSize).run index.layout calls = some (rcs, index.handler)

/-- `CREATE TABLE t(a int)` and `CREATE INDEX i ON t(a)`: the index on the records. -/
def aIndex (records : List (RID × Record)) : TableIndex where
  fieldMetas := [⟨"a", .ints, 1, 4⟩]
  handler := (((BplusTreeHandler.create false 6 4).run { attrs := [⟨.ints, 4⟩], attrOffsets := [1] }
    (records.map fun x => .insertEntry x.2.data x.1)).map Prod.snd).getD (BplusTreeHandler.create false 6 4)

def aTable (records : List (RID × Record)) : Table where
  fields := [⟨"__null", .chars, 0, 1⟩, ⟨"a", .ints, 1, 4⟩]
  nullOffset := 0
  indexes := [aIndex records]
  records := records

/-- `a = i`. -/
def aEquals (i : ℤ) : Predicate := ⟨.equalTo, "a", .ints i, true⟩

def aCell (_ : String) (record : Record) : Value := .ints (intOfBytes (record.data.drop 1))

def sameValue (_ : CompOp) (left right : Value) : Bool := left == right

/-- Two records with different values. -/
def twoValues : List (RID × Record) := [(⟨1, 0⟩, ⟨1, 100, [0, 1, 0, 0, 0]⟩), (⟨1, 1⟩, ⟨1, 100, [0, 2, 0, 0, 0]⟩)]

/-- Two records with the same value, the first inserted by a transaction that has not ended. -/
def uncommitted : List (RID × Record) := [(⟨1, 0⟩, ⟨-7, 100, [0, 1, 0, 0, 0]⟩), (⟨1, 1⟩, ⟨1, 100, [0, 1, 0, 0, 0]⟩)]

theorem createPlan_aTable (records : List (RID × Record)) (i : ℤ) :
    createPlan (fun _ _ => 0) (fun _ => 0) (aTable records) [aEquals i] =
      .indexScan (aIndex records) (some (0 :: int32Bytes i)) := by
  rfl

/-- The key of a record under its identifier. -/
def aEntries (records : List (RID × Record)) : List (Key × RID) := records.map fun x => ((aIndex records).key x, x.1)

theorem aIndex_reachable {records : List (RID × Record)}
    (hrun : ((BplusTreeHandler.create false 6 4).run { attrs := [⟨.ints, 4⟩], attrOffsets := [1] }
      (records.map fun x => .insertEntry x.2.data x.1)).isSome = true)
    (hrids : ∀ x ∈ records, Inner x.1) (hchain : (aIndex records).handler.leafChain = some (aEntries records)) :
    Reachable (aIndex records) (fun k => k.rid.Valid) (aEntries records) := by
  have hexact : ∀ a ∈ [(⟨.ints, 4⟩ : Attr)], a.Exact := by decide
  refine ⟨keyComparator_consistent hexact, attrComparator_consistent hexact _, hchain, ?_⟩
  obtain ⟨⟨rcs, h⟩, hsome⟩ := Option.isSome_iff_exists.mp hrun
  refine ⟨false, 6, 4, _, rcs, by decide, by decide, ?_, hsome.trans ?_⟩
  · intro c hc
    obtain ⟨x, hx, rfl⟩ := List.mem_map.mp hc
    exact ⟨(hrids x hx).1, hrids x hx⟩
  · simp only [aIndex, hsome]
    rfl

theorem aTable_maintained {records : List (RID × Record)} (hnodup : (records.map Prod.fst).Nodup)
    (hnull : ∀ x ∈ records, (aTable records).hasNull (aIndex records) x.2 = false) :
    Maintained (aTable records) (aIndex records) (aEntries records) := by
  refine ⟨hnodup, ?_, ?_⟩
  · intro e he
    obtain ⟨x, hx, rfl⟩ := List.mem_map.mp he
    exact ⟨x, hx, hnull x hx, rfl⟩
  · intro x hx _
    exact List.mem_map.mpr ⟨x, hx, rfl⟩

end Landbase.Sql.IndexPlan
