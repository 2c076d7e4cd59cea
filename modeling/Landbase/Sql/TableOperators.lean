import Landbase.Lib.Transition
import Landbase.Sql.Expression
import Landbase.Storage.ModifyingScan
import Landbase.Storage.RowTuple
import Mathlib.Data.Finset.Sort

/-! # Statements on a table

`INSERT`, `DELETE`, `UPDATE` and `SELECT` as the operators of `sql/operator` run them over the record file of a table without
indexes, with the transactions of `VacuousTrx`, which change the records in their places. Every run is one of a table of rows:
the operators walk over the rows in the order of their identifiers, and change those that the condition picks.
-/

namespace Landbase.Sql.Operators
open Landbase.Buffer Landbase.Index Landbase.Lib Landbase.Meta Landbase.RecordManager Relation
set_option autoImplicit false

abbrev Row := List Value

/-! ## Scans -/

/-- The record file of a table, and a scan on its way over it. -/
structure ScanState where
  file : RecordFileHandler
  scanner : RecordFileScanner

/-- What `next` of an operator answers, the record of its tuple or a code that is not `SUCCESS`, and what it leaves. -/
abbrev Fetched := Except RC Record × ScanState

/-- `TableScanPhysicalOperator::filter`. -/
def TableScanPhysicalOperator.filter (row : Row) : List (Expression Row) → Except RC Bool
  | [] => .ok true
  | expr :: predicates =>
    match expr.getValue row with
    | .error rc => .error rc
    | .ok value => if value.getBoolean then filter row predicates else .ok false

/-- `TableScanPhysicalOperator::open`; no predicate has a sub-query. -/
def TableScanPhysicalOperator.open_ (file : RecordFileHandler) : RC × ScanState :=
  let r := RecordFileScanner.openScan everyRecord noTrx file.pool
  (r.1, ⟨{ file with pool := r.2.1 }, r.2.2⟩)

/-- `has_next` and `next` of the record scanner. -/
def scannerNext (st : ScanState) : Fetched :=
  match st.scanner.nextRecord with
  | none => (.error .recordEof, st)
  | some record =>
    let r := RecordFileScanner.next everyRecord noTrx st.file.pool st.scanner
    (if r.1 = .success then .ok record else .error r.1, ⟨{ st.file with pool := r.2.1 }, r.2.2⟩)

/-- What stands below a `DELETE`, an `UPDATE` or a projection: a table scan with the predicates that were pushed down to it, and
a `PredicatePhysicalOperator` for what is left of the condition. -/
structure TableGet where
  predicates : List (Expression Row)
  predicate : Option (Expression Row)

section
variable (table : TableMeta)

/-- The loop of `TableScanPhysicalOperator::next` and of `PredicatePhysicalOperator::next`: a tuple that fails the test is
passed over. -/
def passing (test : Row → Except RC Bool) (next : ScanState → Option Fetched) : ℕ → ScanState → Option Fetched
  | 0, _ => none
  | rounds + 1, st =>
    (next st).bind fun fetched =>
      match fetched.1 with
      | .error _ => some fetched
      | .ok record =>
        match test (table.rowOf .vacuous record.data) with
        | .error rc => some (.error rc, fetched.2)
        | .ok true => some fetched
        | .ok false => passing test next rounds fetched.2

/-- `TableScanPhysicalOperator::next`. -/
def TableScanPhysicalOperator.next (predicates : List (Expression Row)) : ℕ → ScanState → Option Fetched :=
  passing table (fun row => filter row predicates) fun st => some (scannerNext st)

/-- `PredicatePhysicalOperator::next`. -/
def PredicatePhysicalOperator.next (predicate : Expression Row) (child : ScanState → Option Fetched) :
    ℕ → ScanState → Option Fetched :=
  passing table (fun row => (predicate.getValue row).map Value.getBoolean) child

def TableGet.next (get : TableGet) (rounds : ℕ) : ScanState → Option Fetched :=
  match get.predicate with
  | none => TableScanPhysicalOperator.next table get.predicates rounds
  | some predicate =>
    PredicatePhysicalOperator.next table predicate (TableScanPhysicalOperator.next table get.predicates rounds) rounds

/-! ## Changes -/

/-- The loop of `DeletePhysicalOperator::next` and of `UpdatePhysicalOperator::next`: it ends with `RECORD_EOF` however the child
ends. -/
def changeLoop (child : ScanState → Option Fetched) (change : Record → RecordFileHandler → Option (RC × RecordFileHandler)) :
    ℕ → ScanState → Option (RC × RecordFileHandler)
  | 0, _ => none
  | rounds + 1, st =>
    (child st).bind fun fetched =>
      match fetched.1 with
      | .error _ => some (.recordEof, fetched.2.file)
      | .ok record =>
        (change record fetched.2.file).bind fun r =>
          if r.1 = .success then changeLoop child change rounds ⟨r.2, fetched.2.scanner⟩ else some r

/-- `VacuousTrx::delete_record`. -/
def deleteRecord (record : Record) (file : RecordFileHandler) : Option (RC × RecordFileHandler) := file.deleteRecord record.rid

/-- An expression behind `SET`; of a sub-query, what `executor` makes of it. -/
inductive SetExpr
  | value (v : Value)
  | valueList (values : List Value)
  | subQuery (result : Except RC (List Value))

namespace UpdatePhysicalOperator

/-- The value of a list, and whether it is the only one. -/
def front : List Value → Value × Bool
  | [] => (.nulls, true)
  | v :: values => (v, values.isEmpty)

/-- The value of an expression, and whether `invalid_value_list_` is left as it is. -/
def collect : SetExpr → Except RC (Value × Bool)
  | .value v => .ok (v, true)
  | .valueList values => .ok (front values)
  | .subQuery result => result.map front

variable (lib : CastLib) (memory : DateMemory) (text : Bytes)

/-- The check of a value against its field in `open`, with the value after it. -/
def checkValue (field : FieldMeta) (v : Value) : Value × Bool :=
  if v.isNull then (v, field.nullable)
  else if field.attrType = v.attrType then (v, true)
  else if field.attrType = .dates ∧ v.attrType = .chars then
    (.dates (convertStringToDate lib.overflow memory (v.str.getD [])), true)
  else
    match v.typeCast lib memory text field.attrType with
    | none => (v, false)
    | some change => (change, !decide (change.attrType = .texts ∧ (change.length : ℤ) > field.attrLen))

/-- `value_list_`, with the columns of the values, and `!invalid_value_list_` after `open`. -/
def open_ : List (ℕ × SetExpr) → Except RC (List (ℕ × Value) × Bool)
  | [] => .ok ([], true)
  | (k, expr) :: sets => do
    let collected ← collect expr
    let rest ← open_ sets
    let checked := checkValue lib memory text ((table.columns .vacuous).getD k {}) collected.1
    .ok ((k, checked.1) :: rest.1, collected.2 && checked.2 && rest.2)

/-- The data of `new_record`; `behind` lies behind the values. -/
def newData (behind : ℕ → Memory) (values : List (ℕ × Value)) (data : Memory) : Memory :=
  values.foldl (fun data set =>
    table.setValue .vacuous (behind set.1) data (TableMeta.sysFieldNum .vacuous + set.1) set.2) data

/-- The body of the loop of `next`. -/
def updateRecord (behind : ℕ → Memory) (values : List (ℕ × Value) × Bool) (record : Record) (file : RecordFileHandler) :
    Option (RC × RecordFileHandler) :=
  if values.2 then file.updateRecord (newData table behind values.1 record.data) record.rid else some (.internal, file)

end UpdatePhysicalOperator

/-- What a statement finds around it: what `malloc` gives for each record, what lies behind each value of a row, the
`str_value_` that is left in dates, and the order in which a hash set of pages is walked through. -/
structure Surroundings where
  garbage : ℕ → Memory
  behind : ℕ → ℕ → Memory
  text : Bytes
  order : Finset PageNum → List PageNum
  enumerates : ∀ free, (order free).Nodup ∧ (order free).toFinset = free

variable (lib : CastLib) (memory : DateMemory) (env : Surroundings)

/-- `InsertPhysicalOperator::open`, from the row `k` on. -/
def InsertPhysicalOperator.open_ : ℕ → List Row → RecordFileHandler → Option (RC × RecordFileHandler)
  | _, [], file => some (.success, file)
  | k, row :: rows, file =>
    match table.makeRecord lib memory env.text .vacuous (env.garbage k) (env.behind k) row with
    | .error rc => some (rc, file)
    | .ok data =>
      (file.insertRecord data table.recordSize.toNat (env.order file.freePages)).bind fun r =>
        if r.1 = .success then open_ (k + 1) rows r.2.2 else some (r.1, r.2.2)

/-- The loop over the tuples of a `SELECT`. -/
def selectLoop (child : ScanState → Option Fetched) : ℕ → ScanState → Option (RC × List Row × RecordFileHandler)
  | 0, _ => none
  | rounds + 1, st =>
    (child st).bind fun fetched =>
      match fetched.1 with
      | .error rc => some (RecordFileScanner.endOk rc, [], fetched.2.file)
      | .ok record =>
        (selectLoop child rounds fetched.2).map fun r => (r.1, table.rowOf .vacuous record.data :: r.2.1, r.2.2)

/-! ## Statements -/

inductive Statement
  | insert (valuesList : List (List Value))
  | delete (get : TableGet)
  | update (sets : List (ℕ × SetExpr)) (get : TableGet)
  | select (get : TableGet)

/-- `open` of the child, and what comes behind it. -/
def opened (file : RecordFileHandler) (rest : ScanState → Option (RC × List Row × RecordFileHandler)) :
    Option (RC × List Row × RecordFileHandler) :=
  let r := TableScanPhysicalOperator.open_ file
  if r.1 = .success then rest r.2 else some (r.1, [], r.2.file)

/-- The loops of a statement go on for so many rounds at most. -/
def roundsOf (file : RecordFileHandler) : ℕ := (liveRecords file.pool).length + 1

/-- A statement, from `open` to the last `next`, and `INSERT` from `InsertStmt::create` on: the code, the rows and the file. -/
def exec (stmt : Statement) (file : RecordFileHandler) : Option (RC × List Row × RecordFileHandler) :=
  let rounds := roundsOf file
  match stmt with
  | .insert valuesList =>
    match InsertStmt.create lib memory env.text .vacuous (fun name => if name = table.name then some table else none)
        ⟨table.name, valuesList⟩ with
    | .error rc => some (rc, [], file)
    | .ok created => (InsertPhysicalOperator.open_ table lib memory env 0 created.2 file).map fun r => (r.1, [], r.2)
  | .delete get =>
    opened file fun st => (changeLoop (get.next table rounds) deleteRecord rounds st).map fun r =>
      (RecordFileScanner.endOk r.1, [], r.2)
  | .update sets get =>
    opened file fun st =>
      match UpdatePhysicalOperator.open_ table lib memory env.text sets with
      | .error rc => some (rc, [], st.file)
      | .ok values =>
        (changeLoop (get.next table rounds) (UpdatePhysicalOperator.updateRecord table (env.behind 0) values) rounds st).map fun r =>
          (RecordFileScanner.endOk r.1, [], r.2)
  | .select get => opened file (selectLoop table (get.next table rounds) rounds)

end

/-! ## The table of rows -/

/-- A table: the row under each identifier. -/
abbrev TableRows := RID → Option Row

/-- The identifiers of a table in the order of a scan. -/
def InOrder (rows : TableRows) (ids : List RID) : Prop := ids.Pairwise Precedes ∧ ∀ rid, rid ∈ ids ↔ (rows rid).isSome = true

/-- The first row that a condition picks, with what is behind it, or the code with which the walk ends. -/
def seek (condition : Row → Except RC Bool) (rows : TableRows) : List RID → Except RC (RID × List RID)
  | [] => .error .recordEof
  | rid :: ids =>
    match condition ((rows rid).getD []) with
    | .error rc => .error rc
    | .ok true => .ok (rid, ids)
    | .ok false => seek condition rows ids

/-- The rows that a condition picks, up to one on which it has no value, and the code with which the walk ends. -/
def pick (condition : Row → Except RC Bool) (rows : TableRows) : List RID → List RID × RC
  | [] => ([], .recordEof)
  | rid :: ids =>
    match condition ((rows rid).getD []) with
    | .error rc => ([], rc)
    | .ok true => (rid :: (pick condition rows ids).1, (pick condition rows ids).2)
    | .ok false => pick condition rows ids

/-- What is asked of a row. -/
def andThen (test1 test2 : Row → Except RC Bool) (row : Row) : Except RC Bool :=
  match test1 row with
  | .ok true => test2 row
  | result => result

def TableGet.condition (get : TableGet) : Row → Except RC Bool :=
  match get.predicate with
  | none => fun row => TableScanPhysicalOperator.filter row get.predicates
  | some predicate =>
    andThen (fun row => TableScanPhysicalOperator.filter row get.predicates) fun row =>
      (predicate.getValue row).map Value.getBoolean

section
variable (table : TableMeta) (lib : CastLib) (memory : DateMemory)

/-- The row after `SET`. -/
def setRow (values : List (ℕ × Value)) (row : Row) : Row :=
  values.foldl (fun row set => row.set set.1 (set.2.kept ((table.columns .vacuous).getD set.1 {}).attrLen.toNat)) row

/-- TableRows are added under new identifiers, while there is room. -/
inductive Added (full : Prop) : TableRows → List Row → RC → TableRows → Prop
  | done (rows : TableRows) : Added full rows [] .success rows
  | noRoom (rows : TableRows) (row : Row) (rest : List Row) (hfull : full) : Added full rows (row :: rest) .bufferpoolNobuf rows
  | row {rows rows' : TableRows} {row : Row} {rest : List Row} {rc : RC} (rid : RID) (hnew : rows rid = none)
    (hrest : Added full (Function.update rows rid (some (table.keptRow .vacuous row))) rest rc rows') :
    Added full rows (row :: rest) rc rows'

/-- What a statement does to a table. A condition that has no value on a row ends a `DELETE` or an `UPDATE` there, and the
statement succeeds. -/
def TableStep (text : Bytes) (full : Prop) (rows : TableRows) (rc : RC) (result : List Row) (rows' : TableRows) : Statement → Prop
  | .insert valuesList =>
    result = [] ∧
      match InsertStmt.create lib memory text .vacuous (fun name => if name = table.name then some table else none)
        ⟨table.name, valuesList⟩ with
      | .error e => rc = e ∧ rows' = rows
      | .ok created => Added table full rows created.2 rc rows'
  | .delete get =>
    result = [] ∧ rc = .success ∧ ∃ ids, InOrder rows ids ∧
      rows' = fun rid => if rid ∈ (pick get.condition rows ids).1 then none else rows rid
  | .update sets get =>
    result = [] ∧
      match UpdatePhysicalOperator.open_ table lib memory text sets with
      | .error e => rc = e ∧ rows' = rows
      | .ok values => ∃ ids, InOrder rows ids ∧
        if values.2 then
          rc = .success ∧ rows' = fun rid =>
            if rid ∈ (pick get.condition rows ids).1 then (rows rid).map (setRow table values.1) else rows rid
        else rc = (if (pick get.condition rows ids).1 = [] then .success else .internal) ∧ rows' = rows
  | .select get =>
    ∃ ids, InOrder rows ids ∧ rc = RecordFileScanner.endOk (pick get.condition rows ids).2 ∧
      result = (pick get.condition rows ids).1.filterMap rows ∧ rows' = rows

end

/-! ## Walks -/

section
variable {condition test1 test2 : Row → Except RC Bool} {rows rows' : TableRows} {todo rest : List RID} {rid : RID} {rc : RC}

theorem seek_split (h : seek condition rows todo = .ok (rid, rest)) : ∃ front, todo = front ++ rid :: rest := by
  induction todo with
  | nil => cases h
  | cons first ids ih =>
    rw [seek] at h
    split at h
    · cases h
    · obtain ⟨rfl, rfl⟩ := Prod.mk.inj (Except.ok.inj h)
      exact ⟨[], rfl⟩
    · obtain ⟨front, rfl⟩ := ih h
      exact ⟨first :: front, rfl⟩

theorem pick_error (h : seek condition rows todo = .error rc) : pick condition rows todo = ([], rc) := by
  induction todo with
  | nil =>
    obtain rfl := Except.error.inj h
    rfl
  | cons first ids ih =>
    rw [seek] at h
    rw [pick]
    split at h
    · rw [Except.error.inj h]
    · cases h
    · exact ih h

theorem pick_ok (h : seek condition rows todo = .ok (rid, rest)) :
    pick condition rows todo = (rid :: (pick condition rows rest).1, (pick condition rows rest).2) := by
  induction todo with
  | nil => cases h
  | cons first ids ih =>
    rw [seek] at h
    rw [pick]
    split at h
    · cases h
    · obtain ⟨rfl, rfl⟩ := Prod.mk.inj (Except.ok.inj h)
      rfl
    · exact ih h

theorem mem_pick (h : rid ∈ (pick condition rows todo).1) : rid ∈ todo := by
  induction todo with
  | nil => cases h
  | cons first ids ih =>
    rw [pick] at h
    split at h
    · cases h
    · cases List.mem_cons.mp h with
      | inl heq => exact List.mem_cons.mpr (.inl heq)
      | inr hmem => exact List.mem_cons_of_mem _ (ih hmem)
    · exact List.mem_cons_of_mem _ (ih h)

/-- Where the condition has a value on every row, all rows that it picks are walked through. -/
theorem mem_pick_iff (h : ∀ rid ∈ todo, ∃ b, condition ((rows rid).getD []) = .ok b) :
    rid ∈ (pick condition rows todo).1 ↔ rid ∈ todo ∧ condition ((rows rid).getD []) = .ok true := by
  induction todo with
  | nil => simp [pick]
  | cons first ids ih =>
    have hids := ih fun rid hrid => h rid (List.mem_cons_of_mem _ hrid)
    obtain ⟨b, hb⟩ := h first List.mem_cons_self
    rw [pick, hb, List.mem_cons]
    cases b with
    | false =>
      dsimp only
      rw [hids]
      constructor
      · exact fun hrid => ⟨Or.inr hrid.1, hrid.2⟩
      · rintro ⟨rfl | hrid, htrue⟩
        · rw [hb] at htrue
          cases htrue
        · exact ⟨hrid, htrue⟩
    | true =>
      dsimp only
      rw [List.mem_cons, hids]
      constructor
      · rintro (rfl | hrid)
        · exact ⟨Or.inl rfl, hb⟩
        · exact ⟨Or.inr hrid.1, hrid.2⟩
      · rintro ⟨rfl | hrid, htrue⟩
        · exact Or.inl rfl
        · exact Or.inr ⟨hrid, htrue⟩

/-- A walk looks at nothing but the rows ahead. -/
theorem pick_congr (h : ∀ rid ∈ todo, rows' rid = rows rid) : pick condition rows' todo = pick condition rows todo := by
  induction todo with
  | nil => rfl
  | cons first ids ih => rw [pick, pick, h first List.mem_cons_self, ih fun rid hrid => h rid (List.mem_cons_of_mem _ hrid)]

theorem seek_andThen_error (h : seek test1 rows todo = .error rc) : seek (andThen test1 test2) rows todo = .error rc := by
  induction todo with
  | nil => exact h
  | cons first ids ih =>
    rw [seek] at h
    rw [seek, andThen]
    split at h
    · next heq => rw [heq, Except.error.inj h]
    · cases h
    · next heq =>
      rw [heq]
      exact ih h

variable (test2) in
theorem seek_andThen_ok (h : seek test1 rows todo = .ok (rid, rest)) : seek (andThen test1 test2) rows todo =
    match test2 ((rows rid).getD []) with
    | .error rc => .error rc
    | .ok true => .ok (rid, rest)
    | .ok false => seek (andThen test1 test2) rows rest := by
  induction todo with
  | nil => cases h
  | cons first ids ih =>
    rw [seek] at h
    rw [seek, andThen]
    split at h
    · cases h
    · next heq =>
      obtain ⟨rfl, rfl⟩ := Prod.mk.inj (Except.ok.inj h)
      rw [heq]
    · next heq =>
      rw [heq]
      exact ih h

end

/-! ## Tables and their files -/

/-- A table that is made without fields of a transaction: its columns have room for their numbers, and a page for its record. -/
structure PlainTable where
  table : TableMeta
  tableId : ℤ
  name : String
  attributes : List AttrInfoSqlNode
  created : TableMeta.init .vacuous tableId name attributes = .ok table
  short : TableMeta.recordEnd .vacuous attributes < 2 ^ 31
  whole : ∀ field ∈ table.columns .vacuous, field.Whole
  fits : Fits table.recordSize.toNat

namespace PlainTable
variable (t : PlainTable)

def recordSize : ℕ := t.table.recordSize.toNat

def rowOf (record : Memory) : Row := t.table.rowOf .vacuous record

/-- The rows of a map of records. -/
def rowsIn (store : Store) : TableRows := fun rid => (store rid).map fun bytes => t.rowOf (asMemory bytes)

/-- The rows of a file. -/
def rowsOf (file : RecordFileHandler) : TableRows := fun rid =>
  ((liveRecords file.pool).find? fun r => r.rid = rid).map fun r => t.rowOf r.data

theorem apart : TableMeta.Apart .vacuous t.table := TableMeta.init_apart t.created

/-- A row depends on nothing but the bytes of the record. -/
theorem rowOf_read (data : Memory) : t.rowOf (asMemory (data.read 0 t.recordSize)) = t.rowOf data := by
  have hinside := ((TableMeta.layoutRight_iff t.created).mpr t.short).inside
  refine TableMeta.rowOf_congr t.apart (fun i _ hi k hlo hhi => ?_) t.whole
  have hfield := hinside (t.table.fields.getD i {}) (by rw [List.getD_eq_getElem _ _ hi]; exact List.getElem_mem hi)
  have hk : k < t.recordSize := by
    unfold recordSize
    omega
  rw [asMemory, Memory.read, List.getD_eq_getElem _ _ (by rwa [List.length_map, List.length_range]), List.getElem_map,
    List.getElem_range, Nat.zero_add]

theorem rowsIn_eq {store : Store} {rid : RID} {data : Memory} (h : store rid = some (data.read 0 t.recordSize)) :
    t.rowsIn store rid = some (t.rowOf data) := by
  rw [rowsIn, h, Option.map_some, t.rowOf_read]

theorem rowsIn_update (store : Store) (rid : RID) (bytes : Option Bytes) : t.rowsIn (Function.update store rid bytes) =
    Function.update (t.rowsIn store) rid (bytes.map fun bytes => t.rowOf (asMemory bytes)) := by
  funext rid'
  by_cases heq : rid' = rid
  · rw [heq, rowsIn, Function.update_self, Function.update_self]
  · rw [rowsIn, Function.update_of_ne heq, Function.update_of_ne heq, rowsIn]

theorem isSome_rowsIn (store : Store) (rid : RID) : (t.rowsIn store rid).isSome = (store rid).isSome := Option.isSome_map

theorem rowsOf_eq {file : RecordFileHandler} {store : Store} (h : Keeps t.recordSize file store) :
    t.rowsOf file = t.rowsIn store := by
  funext rid
  have hlive := (liveRecords_spec h).2 rid
  rw [rowsOf]
  cases hfind : (liveRecords file.pool).find? fun r => r.rid = rid with
  | none =>
    cases hstore : store rid with
    | none => rw [rowsIn, hstore]; rfl
    | some data =>
      obtain ⟨r, hr, hrid, -⟩ := (hlive data).mp hstore
      exact absurd (decide_eq_true hrid) (List.find?_eq_none.mp hfind r hr)
  | some r =>
    have hrid : r.rid = rid := by simpa using List.find?_some hfind
    have hstore := (hlive _).mpr ⟨r, List.mem_of_find?_eq_some hfind, hrid, rfl⟩
    rw [t.rowsIn_eq hstore, Option.map_some]

theorem inOrder {file : RecordFileHandler} {store : Store} (h : Keeps t.recordSize file store) :
    InOrder (t.rowsIn store) ((liveRecords file.pool).map Record.rid) := by
  obtain ⟨hsorted, hlive⟩ := liveRecords_spec h
  refine ⟨List.pairwise_map.mpr hsorted, fun rid => ?_⟩
  rw [t.isSome_rowsIn, Option.isSome_iff_exists, List.mem_map]
  constructor
  · rintro ⟨r, hr, hrid⟩
    exact ⟨_, (hlive rid _).mpr ⟨r, hr, hrid, rfl⟩⟩
  · rintro ⟨data, hdata⟩
    obtain ⟨r, hr, hrid, -⟩ := (hlive rid data).mp hdata
    exact ⟨r, hr, hrid⟩

end PlainTable

theorem InOrder.nodup {rows : TableRows} {ids : List RID} (h : InOrder rows ids) : ids.Nodup :=
  h.1.imp fun hlt heq => by
    rw [heq] at hlt
    rcases hlt with hlt | ⟨-, hlt⟩ <;> exact lt_irrefl _ hlt

/-! ## The operators below -/

section
variable (t : PlainTable)

/-- What `next` leaves when the records `todo` are ahead: it has gone to the first that the condition picks. -/
inductive Walked (condition : Row → Except RC Bool) (store : Store) (todo : List RID) : Fetched → Prop
  | stop {rc : RC} {st : ScanState} (hseek : seek condition (t.rowsIn store) todo = .error rc)
    (hkeeps : Keeps t.recordSize st.file store) : Walked condition store todo (.error rc, st)
  | found {record : Record} {rest : List RID} {st : ScanState}
    (hseek : seek condition (t.rowsIn store) todo = .ok (record.rid, rest))
    (hstored : store record.rid = some (record.data.read 0 t.recordSize))
    (hscanning : Scanning t.recordSize store st.file st.scanner rest) : Walked condition store todo (.ok record, st)

/-- With fewer than `bound` records ahead, `next` goes to the first that the condition picks. -/
def Walks (bound : ℕ) (condition : Row → Except RC Bool) (next : ScanState → Option Fetched) : Prop :=
  ∀ (store : Store) (st : ScanState) (todo : List RID), todo.length < bound →
    Scanning t.recordSize store st.file st.scanner todo → ∃ fetched, next st = some fetched ∧ Walked t condition store todo fetched

theorem scannerNext_walks (bound : ℕ) : Walks t bound (fun _ => .ok true) fun st => some (scannerNext st) := by
  intro store st todo _ hscanning
  refine ⟨_, rfl, ?_⟩
  cases todo with
  | nil =>
    cases hscanning with
    | done hkeeps hnone =>
      rw [scannerNext, hnone]
      exact .stop rfl hkeeps
  | cons rid todo =>
    obtain ⟨record, pool, scanner, hrecord, rfl, hstored, hnext, hscanning⟩ := hscanning.next
    rw [scannerNext, hrecord]
    dsimp only
    rw [hnext]
    exact .found rfl hstored hscanning

theorem passing_walks {bound : ℕ} {condition : Row → Except RC Bool} {next : ScanState → Option Fetched}
    (h : Walks t bound condition next) (test : Row → Except RC Bool) :
    Walks t bound (andThen condition test) (passing t.table test next bound) := by
  suffices hrounds : ∀ rounds, rounds ≤ bound → Walks t rounds (andThen condition test) (passing t.table test next rounds) from
    hrounds bound le_rfl
  intro rounds
  induction rounds with
  | zero => exact fun _ store st todo hlength _ => absurd hlength (Nat.not_lt_zero _)
  | succ rounds ih =>
    intro hbound store st todo hlength hscanning
    obtain ⟨fetched, hnext, hwalked⟩ := h store st todo (by omega) hscanning
    rw [passing, hnext, Option.bind_some]
    cases hwalked with
    | stop hseek hkeeps => exact ⟨_, rfl, .stop (seek_andThen_error hseek) hkeeps⟩
    | @found record rest st hseek hstored hahead =>
      obtain ⟨front, rfl⟩ := seek_split hseek
      have hthen := seek_andThen_ok test hseek
      rw [t.rowsIn_eq hstored, Option.getD_some, PlainTable.rowOf] at hthen
      dsimp only
      cases htest : test (t.table.rowOf .vacuous record.data) with
      | error rc =>
        rw [htest] at hthen
        exact ⟨_, rfl, .stop hthen hahead.keeps⟩
      | ok b =>
        rw [htest] at hthen
        cases b with
        | true => exact ⟨_, rfl, .found hthen hstored hahead⟩
        | false =>
          rw [List.length_append, List.length_cons] at hlength
          obtain ⟨fetched, hpassing, hwalked⟩ := ih (by omega) store st rest (by omega) hahead
          refine ⟨fetched, hpassing, ?_⟩
          cases hwalked with
          | stop hseek hkeeps => exact .stop (hthen.trans hseek) hkeeps
          | found hseek hstored hscanning => exact .found (hthen.trans hseek) hstored hscanning

theorem next_walks (get : TableGet) (bound : ℕ) : Walks t bound get.condition (get.next t.table bound) := by
  have hscan := passing_walks t (scannerNext_walks t bound) fun row => TableScanPhysicalOperator.filter row get.predicates
  unfold TableGet.condition TableGet.next
  cases get.predicate with
  | none => exact hscan
  | some predicate => exact passing_walks t hscan _

end

/-! ## Loops -/

section
variable (t : PlainTable)

/-- A call that succeeds on the record of a scan, and makes of its row what `g` says. -/
def Changes (change : Record → RecordFileHandler → Option (RC × RecordFileHandler)) (g : Option Row → Option Row) : Prop :=
  ∀ (store : Store) (file : RecordFileHandler) (record : Record), Keeps t.recordSize file store →
    store record.rid = some (record.data.read 0 t.recordSize) → ∃ file' bytes, change record file = some (.success, file') ∧
      Keeps t.recordSize file' (Function.update store record.rid bytes) ∧ file'.pool.size = file.pool.size ∧
      (bytes.map fun bytes => t.rowOf (asMemory bytes)) = g (t.rowsIn store record.rid)

theorem namesSlot {file : RecordFileHandler} {store : Store} (h : Keeps t.recordSize file store) {rid : RID}
    (hlive : (store rid).isSome = true) : NamesSlot rid := by
  obtain ⟨size, pages, -, hvalid⟩ := h
  obtain ⟨hpos, -, hslot⟩ := hvalid.1.live rid hlive
  refine ⟨fun heq => ?_, hslot⟩
  rw [heq] at hpos
  exact absurd hpos (by decide)

theorem deleteRecord_changes : Changes t deleteRecord fun _ => none := by
  intro store file record hkeeps hstored
  have hlive : (store record.rid).isSome = true := by rw [hstored]; rfl
  have hallowed : (Call.deleteRecord record.rid).Allowed file.freePages := namesSlot t hkeeps hlive
  obtain ⟨⟨rc, rid, data⟩, file', hcall, hanswers, hkeeps'⟩ := call_spec t.fits hkeeps hallowed
  obtain rfl : rc = .success := hanswers.mpr hlive
  obtain ⟨⟨rc', file''⟩, hdelete, hr⟩ := Option.map_eq_some_iff.mp hcall
  obtain ⟨hanswer, rfl⟩ := Prod.mk.inj hr
  obtain rfl := (Answer.mk.inj hanswer).1
  exact ⟨file'', none, hdelete, hkeeps', RecordFileHandler.deleteRecord_size hdelete, rfl⟩

theorem newData_rowOf {behind : ℕ → Memory} {values : List (ℕ × Value)}
    (hvalues : ∀ set ∈ values, ∃ field, (t.table.columns .vacuous)[set.1]? = some field ∧ Suits field set.2) (data : Memory) :
    t.rowOf (UpdatePhysicalOperator.newData t.table behind values data) = setRow t.table values (t.rowOf data) := by
  induction values generalizing data with
  | nil => rfl
  | cons set values ih =>
    obtain ⟨field, hfield, hsuits⟩ := hvalues set List.mem_cons_self
    obtain ⟨hk, rfl⟩ := List.getElem?_eq_some_iff.mp hfield
    have hset := TableMeta.setValue_rowOf t.apart t.whole (behind set.1) data hk hsuits
    have hrest := ih (fun set hset => hvalues set (List.mem_cons_of_mem _ hset))
      (t.table.setValue .vacuous (behind set.1) data (TableMeta.sysFieldNum .vacuous + set.1) set.2)
    rw [PlainTable.rowOf, PlainTable.rowOf, hset] at hrest
    rw [PlainTable.rowOf, PlainTable.rowOf, UpdatePhysicalOperator.newData, List.foldl_cons, setRow, List.foldl_cons,
      List.getD_eq_getElem _ _ hk]
    exact hrest

theorem updateRecord_changes {behind : ℕ → Memory} {values : List (ℕ × Value)}
    (hvalues : ∀ set ∈ values, ∃ field, (t.table.columns .vacuous)[set.1]? = some field ∧ Suits field set.2) :
    Changes t (UpdatePhysicalOperator.updateRecord t.table behind (values, true)) (Option.map (setRow t.table values)) := by
  intro store file record hkeeps hstored
  have hlive : (store record.rid).isSome = true := by rw [hstored]; rfl
  have hallowed : (Call.updateRecord (UpdatePhysicalOperator.newData t.table behind values record.data)
    record.rid).Allowed file.freePages := namesSlot t hkeeps hlive
  obtain ⟨⟨rc, rid, bytes⟩, file', hcall, hanswers, hkeeps'⟩ := call_spec t.fits hkeeps hallowed
  obtain rfl : rc = .success := hanswers.mpr hlive
  obtain ⟨⟨rc', file''⟩, hupdate, hr⟩ := Option.map_eq_some_iff.mp hcall
  obtain ⟨hanswer, rfl⟩ := Prod.mk.inj hr
  obtain rfl := (Answer.mk.inj hanswer).1
  refine ⟨file'', some ((UpdatePhysicalOperator.newData t.table behind values record.data).read 0 t.recordSize), ?_, hkeeps',
    RecordFileHandler.updateRecord_size hupdate, ?_⟩
  · rw [UpdatePhysicalOperator.updateRecord, if_pos rfl]
    exact hupdate
  · rw [Option.map_some, t.rowOf_read, newData_rowOf t hvalues, t.rowsIn_eq hstored, Option.map_some]

variable {bound : ℕ} {condition : Row → Except RC Bool} {next : ScanState → Option Fetched}

/-- The loop changes the records that the condition picks, and no others. -/
theorem changeLoop_changes (hwalks : Walks t bound condition next)
    {change : Record → RecordFileHandler → Option (RC × RecordFileHandler)} {g : Option Row → Option Row}
    (hchanges : Changes t change g) {rounds : ℕ} {store : Store} {st : ScanState} {todo : List RID}
    (hrounds : todo.length < rounds) (hbound : todo.length < bound) (hnodup : todo.Nodup)
    (hscanning : Scanning t.recordSize store st.file st.scanner todo) :
    ∃ file' store', changeLoop next change rounds st = some (.recordEof, file') ∧ Keeps t.recordSize file' store' ∧
      t.rowsIn store' = fun rid =>
        if rid ∈ (pick condition (t.rowsIn store) todo).1 then g (t.rowsIn store rid) else t.rowsIn store rid := by
  induction rounds generalizing store st todo with
  | zero => exact absurd hrounds (Nat.not_lt_zero _)
  | succ rounds ih =>
    obtain ⟨fetched, hnext, hwalked⟩ := hwalks store st todo hbound hscanning
    rw [changeLoop, hnext, Option.bind_some]
    cases hwalked with
    | @stop rc st hseek hkeeps =>
      refine ⟨st.file, store, rfl, hkeeps, ?_⟩
      rw [pick_error hseek]
      funext rid
      rw [if_neg List.not_mem_nil]
    | @found record rest st hseek hstored hahead =>
      obtain ⟨file', bytes, hchange, hkeeps', hsize, hrow⟩ := hchanges store st.file record hahead.keeps hstored
      dsimp only
      rw [hchange, Option.bind_some, if_pos rfl]
      obtain ⟨front, rfl⟩ := seek_split hseek
      rw [List.length_append, List.length_cons] at hrounds hbound
      have htail := (List.nodup_append.mp hnodup).2.1
      have hfresh := (List.nodup_cons.mp htail).1
      have hsame : ∀ rid ∈ rest, rid ≠ record.rid := fun rid hrid heq => hfresh (heq ▸ hrid)
      have hscanning' : Scanning t.recordSize (Function.update store record.rid bytes) (ScanState.mk file' st.scanner).file
          (ScanState.mk file' st.scanner).scanner rest := by
        refine hahead.modify hkeeps' hsize (fun rid hrid => Function.update_of_ne (hsame rid hrid) _ _) fun rid hnone => ?_
        rw [Function.update_of_ne fun heq => by rw [heq, hstored] at hnone; cases hnone]
        exact hnone
      obtain ⟨file'', store'', hloop, hkeeps'', hrows⟩ :=
        ih (by omega) (by omega) (List.nodup_cons.mp htail).2 hscanning'
      refine ⟨file'', store'', hloop, hkeeps'', ?_⟩
      rw [hrows, pick_ok hseek, t.rowsIn_update, hrow, pick_congr fun rid hrid => Function.update_of_ne (hsame rid hrid) _ _]
      funext rid
      by_cases heq : rid = record.rid
      · rw [heq, if_neg fun hmem => hfresh (mem_pick hmem), if_pos List.mem_cons_self, Function.update_self]
      · rw [Function.update_of_ne heq]
        simp only [List.mem_cons, heq, false_or]

/-- A change that is refused ends the loop at the first record. -/
theorem changeLoop_fails (hwalks : Walks t bound condition next)
    {change : Record → RecordFileHandler → Option (RC × RecordFileHandler)} {rc : RC} (hrc : rc ≠ .success)
    (hfails : ∀ record file, change record file = some (rc, file)) {rounds : ℕ} {store : Store} {st : ScanState} {todo : List RID}
    (hrounds : todo.length < rounds) (hbound : todo.length < bound)
    (hscanning : Scanning t.recordSize store st.file st.scanner todo) :
    ∃ file', changeLoop next change rounds st =
      some (if (pick condition (t.rowsIn store) todo).1 = [] then .recordEof else rc, file') ∧ Keeps t.recordSize file' store := by
  obtain ⟨fetched, hnext, hwalked⟩ := hwalks store st todo hbound hscanning
  obtain ⟨rounds, rfl⟩ := Nat.exists_eq_succ_of_ne_zero (Nat.ne_zero_of_lt hrounds)
  rw [changeLoop, hnext, Option.bind_some]
  cases hwalked with
  | @stop _ st hseek hkeeps =>
    rw [pick_error hseek, if_pos rfl]
    exact ⟨st.file, rfl, hkeeps⟩
  | @found record rest st hseek hstored hahead =>
    dsimp only
    rw [hfails, Option.bind_some, if_neg hrc, pick_ok hseek, if_neg (List.cons_ne_nil _ _)]
    exact ⟨st.file, rfl, hahead.keeps⟩

theorem selectLoop_spec (hwalks : Walks t bound condition next) {rounds : ℕ} {store : Store} {st : ScanState} {todo : List RID}
    (hrounds : todo.length < rounds) (hbound : todo.length < bound)
    (hscanning : Scanning t.recordSize store st.file st.scanner todo) :
    ∃ file', selectLoop t.table next rounds st = some (RecordFileScanner.endOk (pick condition (t.rowsIn store) todo).2,
      (pick condition (t.rowsIn store) todo).1.filterMap (t.rowsIn store), file') ∧ Keeps t.recordSize file' store := by
  induction rounds generalizing st todo with
  | zero => exact absurd hrounds (Nat.not_lt_zero _)
  | succ rounds ih =>
    obtain ⟨fetched, hnext, hwalked⟩ := hwalks store st todo hbound hscanning
    rw [selectLoop, hnext, Option.bind_some]
    cases hwalked with
    | @stop rc st hseek hkeeps =>
      rw [pick_error hseek]
      exact ⟨st.file, rfl, hkeeps⟩
    | @found record rest st hseek hstored hahead =>
      obtain ⟨front, rfl⟩ := seek_split hseek
      rw [List.length_append, List.length_cons] at hrounds hbound
      obtain ⟨file', hloop, hkeeps⟩ := ih (by omega) (by omega) hahead
      dsimp only
      rw [hloop, Option.map_some, pick_ok hseek, List.filterMap_cons_some (t.rowsIn_eq hstored)]
      exact ⟨file', rfl, hkeeps⟩

end

/-! ## Values that are stored -/

/-- The values are ones that a field can hold, and no date is to become a string. -/
def Settable (field : FieldMeta) (values : List Value) : Prop :=
  ∀ v ∈ values, v.Proper ∧ ¬(field.attrType = .chars ∧ v.attrType = .dates)

def SetExpr.values : SetExpr → List Value
  | .value v => [v]
  | .valueList values | .subQuery (.ok values) => values
  | .subQuery (.error _) => []

/-- What the statements of a table may hold: parsed values, and columns of the table behind `SET`. -/
def Statement.Allowed (table : TableMeta) : Statement → Prop
  | .insert valuesList => ∀ values ∈ valuesList, ∀ v ∈ values, v.Parsed
  | .update sets _ => ∀ set ∈ sets, ∃ field, (table.columns .vacuous)[set.1]? = some field ∧ Settable field set.2.values
  | .delete _ | .select _ => True

section
variable {lib : CastLib} (memory : DateMemory) (text : Bytes)

theorem collect_settable {field : FieldMeta} {expr : SetExpr} (h : Settable field expr.values) {v : Value} {b : Bool}
    (hcollect : UpdatePhysicalOperator.collect expr = .ok (v, b)) :
    v.Proper ∧ ¬(field.attrType = .chars ∧ v.attrType = .dates) := by
  have hfront : ∀ values, Settable field values → UpdatePhysicalOperator.front values = (v, b) →
      v.Proper ∧ ¬(field.attrType = .chars ∧ v.attrType = .dates) := by
    intro values hvalues hv
    cases values with
    | nil =>
      obtain rfl := (Prod.mk.inj hv).1
      exact ⟨trivial, fun hdates => AttrType.noConfusion hdates.2⟩
    | cons first rest =>
      obtain rfl := (Prod.mk.inj hv).1
      exact hvalues first List.mem_cons_self
  cases expr with
  | value w =>
    obtain rfl := (Prod.mk.inj (Except.ok.inj hcollect)).1
    exact h w List.mem_cons_self
  | valueList values => exact hfront values h (Except.ok.inj hcollect)
  | subQuery result =>
    cases result with
    | error rc => cases hcollect
    | ok values => exact hfront values h (Except.ok.inj hcollect)

/-- A value that leaves the list valid is stored without a conversion. -/
theorem checkValue_suits (hlib : lib.Proper) {field : FieldMeta} (hwhole : field.Whole) {v w : Value} (hproper : v.Proper)
    (hdate : ¬(field.attrType = .chars ∧ v.attrType = .dates))
    (h : UpdatePhysicalOperator.checkValue lib memory text field v = (w, true)) : Suits field w := by
  have hne : field.attrType ≠ .nulls := by
    intro heq
    rw [FieldMeta.Whole, heq] at hwhole
    exact hwhole
  have hsuits : ∀ w : Value, w.Proper → w.attrType = field.attrType → Suits field w := by
    intro w hw htype
    refine ⟨hw, ?_⟩
    rw [if_neg (fun heq => hne (by rw [← htype, heq]; rfl))]
    exact htype
  unfold UpdatePhysicalOperator.checkValue at h
  split at h
  · next hnull =>
    obtain ⟨rfl, hnullable⟩ := Prod.mk.inj h
    exact ⟨hproper, by rw [if_pos (isNull_iff.mp hnull)]; exact hnullable⟩
  split at h
  · next htype =>
    obtain rfl := (Prod.mk.inj h).1
    exact hsuits v hproper htype.symm
  split at h
  · next hdates =>
    obtain rfl := (Prod.mk.inj h).1
    refine hsuits _ ?_ hdates.1.symm
    by_cases hmid : convertStringToDate lib.overflow memory (v.str.getD []) = -1
    · rw [hmid]
      exact ⟨by norm_num, by norm_num⟩
    · have hrange := convert_range lib.overflow hmid
      exact ⟨by omega, by omega⟩
  · split at h
    · exact absurd (Prod.mk.inj h).2 Bool.false_ne_true
    · next hcast =>
      obtain rfl := (Prod.mk.inj h).1
      obtain ⟨hw, htype⟩ := typeCast_spec memory text hlib hproper hdate hcast
      exact hsuits _ hw htype

variable (t : PlainTable)

theorem updateOpen_suits (hlib : lib.Proper) {sets : List (ℕ × SetExpr)}
    (hsets : ∀ set ∈ sets, ∃ field, (t.table.columns .vacuous)[set.1]? = some field ∧ Settable field set.2.values)
    {values : List (ℕ × Value)} (h : UpdatePhysicalOperator.open_ t.table lib memory text sets = .ok (values, true)) :
    ∀ set ∈ values, ∃ field, (t.table.columns .vacuous)[set.1]? = some field ∧ Suits field set.2 := by
  induction sets generalizing values with
  | nil =>
    obtain rfl := (Prod.mk.inj (Except.ok.inj h)).1
    exact fun set hset => absurd hset List.not_mem_nil
  | cons set sets ih =>
    obtain ⟨k, expr⟩ := set
    obtain ⟨field, hfield, hsettable⟩ := hsets (k, expr) List.mem_cons_self
    rw [UpdatePhysicalOperator.open_] at h
    cases hcollect : UpdatePhysicalOperator.collect expr with
    | error rc =>
      rw [hcollect] at h
      cases h
    | ok collected =>
      cases hrest : UpdatePhysicalOperator.open_ t.table lib memory text sets with
      | error rc =>
        rw [hcollect, hrest] at h
        cases h
      | ok rest =>
        rw [hcollect, hrest] at h
        obtain ⟨hvalues, hvalid⟩ := Prod.mk.inj (Except.ok.inj h)
        subst hvalues
        rw [Bool.and_eq_true, Bool.and_eq_true] at hvalid
        rw [List.getD_eq_getElem?_getD, hfield, Option.getD_some] at hvalid ⊢
        obtain ⟨hproper, hdate⟩ := collect_settable hsettable hcollect
        have hsuits := checkValue_suits memory text hlib (t.whole field (List.mem_of_getElem? hfield)) hproper hdate
          (Prod.ext rfl hvalid.1.2)
        intro set hset
        cases List.mem_cons.mp hset with
        | inl heq =>
          rw [heq]
          exact ⟨field, hfield, hsuits⟩
        | inr hmem =>
          exact ih (fun set hset => hsets set (List.mem_cons_of_mem _ hset)) (hrest.trans (congrArg Except.ok
            (Prod.ext rfl hvalid.2))) set hmem

end

/-! ## Statements on the rows -/

section
variable (t : PlainTable) {lib : CastLib} (memory : DateMemory) (env : Surroundings)

theorem size_of_full {file : RecordFileHandler} {store : Store} (h : Keeps t.recordSize file store)
    (hfull : BPFileHeader.full (file.pool.page bpHeaderPage) = true) : BPFileHeader.maxPageNum ≤ file.pool.size := by
  obtain ⟨size, pages, hshows, hvalid⟩ := h
  have hcount := of_decide_eq_true hfull
  rw [hshows.page_eq, hvalid.1.count] at hcount
  rw [hshows.size_eq]
  exact_mod_cast hcount

theorem insertOpen_spec {rows : List Row} (hrows : ∀ row ∈ rows, List.Forall₂ Suits (t.table.columns .vacuous) row) {k : ℕ}
    {file : RecordFileHandler} {store : Store} (hkeeps : Keeps t.recordSize file store) :
    ∃ rc file' store', InsertPhysicalOperator.open_ t.table lib memory env k rows file = some (rc, file') ∧
      Keeps t.recordSize file' store' ∧
      Added t.table (BPFileHeader.maxPageNum ≤ file'.pool.size) (t.rowsIn store) rows rc (t.rowsIn store') := by
  induction rows generalizing k file store with
  | nil => exact ⟨.success, file, store, rfl, hkeeps, .done _⟩
  | cons row rows ih =>
    obtain ⟨data, hdata, hrow⟩ := TableMeta.makeRecord_rowOf t.apart t.whole (hrows row List.mem_cons_self)
      (env.garbage k) (env.behind k)
    rw [InsertPhysicalOperator.open_, hdata]
    have hallowed : (Call.insertRecord data (env.order file.freePages)).Allowed file.freePages := env.enumerates _
    obtain ⟨⟨rc, rid, bytes⟩, file', hcall, hanswers, hkeeps'⟩ := call_spec t.fits hkeeps hallowed
    obtain ⟨⟨rc', rid', file''⟩, hinsert, hr⟩ := Option.map_eq_some_iff.mp hcall
    obtain ⟨hanswer, rfl⟩ := Prod.mk.inj hr
    obtain ⟨rfl, rfl, -⟩ := Answer.mk.inj hanswer
    have hsize := RecordFileHandler.insertRecord_size hinsert
    have hinsert' : file.insertRecord data t.table.recordSize.toNat (env.order file.freePages) = some (rc', rid', file'') := hinsert
    dsimp only
    rw [hinsert', Option.bind_some]
    dsimp only at hanswers hkeeps' hsize ⊢
    rcases hanswers with ⟨rfl, r, rfl, -, hfresh⟩ | ⟨rfl, -, hfull⟩
    · rw [if_pos rfl]
      obtain ⟨rc, last, store', hopen, hlast, hadded⟩ := ih (fun row hrow => hrows row (List.mem_cons_of_mem _ hrow)) hkeeps'
      refine ⟨rc, last, store', hopen, hlast, .row r (by rw [PlainTable.rowsIn, hfresh]; rfl) ?_⟩
      rw [← hrow, ← PlainTable.rowOf, ← t.rowOf_read data]
      have hupdate := t.rowsIn_update store r (some (data.read 0 t.recordSize))
      rw [Option.map_some] at hupdate
      rw [← hupdate]
      exact hadded
    · rw [if_neg (by decide)]
      exact ⟨_, file'', store, rfl, hkeeps', .noRoom _ _ _ ((size_of_full t hkeeps hfull).trans hsize)⟩

/-- The rows of an `INSERT` that is accepted suit the columns. -/
theorem created_suits (hlib : lib.Proper) {text : Bytes} {valuesList : List (List Value)}
    (hvalues : ∀ values ∈ valuesList, ∀ v ∈ values, v.Parsed) {created : TableMeta × List (List Value)}
    (h : InsertStmt.create lib memory text .vacuous (fun name => if name = t.table.name then some t.table else none)
      ⟨t.table.name, valuesList⟩ = .ok created) : ∀ row ∈ created.2, List.Forall₂ Suits (t.table.columns .vacuous) row := by
  unfold InsertStmt.create at h
  split at h
  · cases h
  dsimp only at h
  rw [if_pos rfl] at h
  dsimp only at h
  cases hrows : InsertStmt.checkRows lib memory text (t.table.fields.drop (TrxKit.vacuous.trxFields.length + 1)) valuesList with
  | error rc =>
    rw [hrows] at h
    cases h
  | ok rows =>
    rw [hrows] at h
    obtain rfl := Except.ok.inj h
    exact checkRows_suits memory text hlib hvalues hrows

/-- An open scan has the rows ahead of it, in their order. -/
theorem opened_spec {file : RecordFileHandler} {store : Store} (hkeeps : Keeps t.recordSize file store)
    (rest : ScanState → Option (RC × List Row × RecordFileHandler)) :
    ∃ st ids, opened file rest = rest st ∧ InOrder (t.rowsIn store) ids ∧ ids.length < roundsOf file ∧
      Scanning t.recordSize store st.file st.scanner ids := by
  obtain ⟨pool, scanner, hopen, hscanning⟩ := scanning_open hkeeps
  refine ⟨⟨{ file with pool := pool }, scanner⟩, (liveRecords file.pool).map Record.rid, ?_, t.inOrder hkeeps, ?_, hscanning⟩
  · unfold opened TableScanPhysicalOperator.open_
    rw [hopen]
    rfl
  · rw [List.length_map]
    exact Nat.lt_succ_self _

/-- A statement on the file of a table does to its rows what it says. -/
theorem exec_spec (hlib : lib.Proper) {file : RecordFileHandler} {store : Store} (hkeeps : Keeps t.recordSize file store)
    {stmt : Statement} (hallowed : stmt.Allowed t.table) :
    ∃ rc result file' store', exec t.table lib memory env stmt file = some (rc, result, file') ∧
      Keeps t.recordSize file' store' ∧ TableStep t.table lib memory env.text (BPFileHeader.maxPageNum ≤ file'.pool.size)
        (t.rowsIn store) rc result (t.rowsIn store') stmt := by
  cases stmt with
  | insert valuesList =>
    unfold exec TableStep
    dsimp only
    cases hcreate : InsertStmt.create lib memory env.text .vacuous
        (fun name => if name = t.table.name then some t.table else none) ⟨t.table.name, valuesList⟩ with
    | error rc => exact ⟨rc, [], file, store, rfl, hkeeps, rfl, rfl, rfl⟩
    | ok created =>
      obtain ⟨rc, file', store', hopen, hkeeps', hadded⟩ :=
        insertOpen_spec t memory env (created_suits t memory hlib hallowed hcreate) hkeeps
      dsimp only
      rw [hopen, Option.map_some]
      exact ⟨rc, [], file', store', rfl, hkeeps', rfl, hadded⟩
  | delete get =>
    obtain ⟨st, ids, hopened, horder, hlength, hscanning⟩ := opened_spec t hkeeps fun st =>
      (changeLoop (get.next t.table (roundsOf file)) deleteRecord (roundsOf file) st).map fun r =>
        (RecordFileScanner.endOk r.1, [], r.2)
    obtain ⟨file', store', hloop, hkeeps', hrows⟩ := changeLoop_changes t (next_walks t get (roundsOf file))
      (deleteRecord_changes t) hlength hlength horder.nodup hscanning
    rw [hloop] at hopened
    exact ⟨.success, [], file', store', hopened, hkeeps', rfl, rfl, ids, horder, hrows⟩
  | update sets get =>
    unfold exec TableStep
    dsimp only
    cases hopen : UpdatePhysicalOperator.open_ t.table lib memory env.text sets with
    | error rc =>
      obtain ⟨st, ids, hopened, -, -, hscanning⟩ := opened_spec t hkeeps fun st => some (rc, [], st.file)
      exact ⟨rc, [], st.file, store, hopened, hscanning.keeps, rfl, rfl, rfl⟩
    | ok values =>
      obtain ⟨values, valid⟩ := values
      obtain ⟨st, ids, hopened, horder, hlength, hscanning⟩ := opened_spec t hkeeps fun st =>
        (changeLoop (get.next t.table (roundsOf file))
          (UpdatePhysicalOperator.updateRecord t.table (env.behind 0) (values, valid)) (roundsOf file) st).map fun r =>
            (RecordFileScanner.endOk r.1, [], r.2)
      dsimp only
      cases valid with
      | true =>
        obtain ⟨file', store', hloop, hkeeps', hrows⟩ := changeLoop_changes t (next_walks t get (roundsOf file))
          (updateRecord_changes t (updateOpen_suits memory env.text t hlib hallowed hopen)) hlength hlength horder.nodup hscanning
        rw [hloop] at hopened
        exact ⟨.success, [], file', store', hopened, hkeeps', rfl, ids, horder, rfl, hrows⟩
      | false =>
        have hfails : ∀ record file, UpdatePhysicalOperator.updateRecord t.table (env.behind 0) (values, false) record file =
            some (.internal, file) := fun _ _ => if_neg Bool.false_ne_true
        obtain ⟨file', hloop, hkeeps'⟩ := changeLoop_fails t (next_walks t get (roundsOf file)) RC.noConfusion hfails hlength
          hlength hscanning
        rw [hloop] at hopened
        refine ⟨_, [], file', store, hopened, hkeeps', rfl, ids, horder, ?_⟩
        rw [if_neg Bool.false_ne_true]
        refine ⟨?_, rfl⟩
        split <;> rfl
  | select get =>
    obtain ⟨st, ids, hopened, horder, hlength, hscanning⟩ := opened_spec t hkeeps
      (selectLoop t.table (get.next t.table (roundsOf file)) (roundsOf file))
    obtain ⟨file', hloop, hkeeps'⟩ := selectLoop_spec t (next_walks t get (roundsOf file)) hlength hlength hscanning
    rw [hloop] at hopened
    exact ⟨_, _, file', store, hopened, hkeeps', ids, horder, rfl, rfl, rfl⟩

end

/-! ## Every run -/

section
variable (t : PlainTable) (lib : CastLib) (memory : DateMemory)

/-- A statement on the file of a table. -/
def ExecStep (file file' : RecordFileHandler) : Prop :=
  ∃ (env : Surroundings) (stmt : Statement) (rc : RC) (result : List Row), stmt.Allowed t.table ∧
    exec t.table lib memory env stmt file = some (rc, result, file')

variable {lib memory}

theorem keeps_execStep (hlib : lib.Proper) {file file' : RecordFileHandler} (h : ExecStep t lib memory file file')
    (hkeeps : ∃ store, Keeps t.recordSize file store) : ∃ store, Keeps t.recordSize file' store := by
  obtain ⟨env, stmt, rc, result, hallowed, hexec⟩ := h
  obtain ⟨store, hkeeps⟩ := hkeeps
  obtain ⟨rc', result', file'', store', hexec', hkeeps', -⟩ := exec_spec t memory env hlib hkeeps hallowed
  rw [hexec] at hexec'
  obtain ⟨-, hfile⟩ := Prod.mk.inj (Option.some.inj hexec')
  obtain ⟨-, rfl⟩ := Prod.mk.inj hfile
  exact ⟨store', hkeeps'⟩

end

/-- `t(id int not null, name char(2))`. -/
def nameTable : PlainTable where
  table := ⟨1, "t", [⟨"__null", .chars, false, 0, 1, false⟩, ⟨"id", .ints, false, 1, 4, true⟩, ⟨"name", .chars, true, 5, 2, true⟩],
    [], 7⟩
  tableId := 1
  name := "t"
  attributes := [⟨.ints, "id", 4, false⟩, ⟨.chars, "name", 2, true⟩]
  created := by decide +kernel
  short := by decide +kernel
  whole := by
    intro field hfield
    obtain rfl | rfl : field = ⟨"id", .ints, false, 1, 4, true⟩ ∨ field = ⟨"name", .chars, true, 5, 2, true⟩ := by
      simpa [TableMeta.columns, TableMeta.sysFieldNum, TrxKit.trxFields] using hfield
    · show (4 : ℤ) ≤ 4
      rfl
    · trivial
  fits := by decide

/-- Pages are walked through in their order. -/
def sortedSurroundings : Surroundings where
  garbage _ _ := 255
  behind _ _ _ := 1
  text := []
  order free := free.sort
  enumerates free := ⟨free.sort_nodup _, free.sort_toFinset _⟩

/-- `id = 7`. -/
def idSeven : Expression Row := .other fun row => .ok (.booleans (row.head? == some (.ints 7)))

theorem condition_idSeven (row : Row) : (⟨[idSeven], none⟩ : TableGet).condition row = .ok (row.head? == some (.ints 7)) := by
  show (if row.head? == some (.ints 7) then Except.ok true else .ok false) = _
  cases row.head? == some (.ints 7) <;> rfl

/-- Two rows that have been added to a table without rows. -/
theorem Added.two {table : TableMeta} {full : Prop} {row row' : Row} {rows : TableRows}
    (h : Added table full (fun _ => none) [row, row'] .success rows) :
    ∃ r r', rows r = some (table.keptRow .vacuous row) ∧ rows r' = some (table.keptRow .vacuous row') ∧
      ∀ rid, rid ≠ r → rid ≠ r' → rows rid = none := by
  cases h with
  | row r hr hrest =>
    cases hrest with
    | row r' hr' hrest =>
      cases hrest with
      | done =>
        have hne : r ≠ r' := by
          rintro rfl
          rw [Function.update_self] at hr'
          cases hr'
        refine ⟨r, r', ?_, Function.update_self _ _ _, fun rid hrid hrid' => ?_⟩
        · rw [Function.update_of_ne hne, Function.update_self]
        · rw [Function.update_of_ne hrid', Function.update_of_ne hrid]

end Landbase.Sql.Operators
