import Landbase.Storage.TableMeta
import Landbase.Lib.Memory

/-! # The layout of a record

Where the bitmap of nulls, the fields of the transactions and the fields of the user lie in a record, by `TableMeta::init`;
and what `Table::make_record` of `storage/table/table.cpp` writes there. The number of a field's bit in the bitmap is its
position among all fields.
-/

namespace Landbase.Meta
open Landbase.Index (AttrType)
open Landbase.Lib
set_option autoImplicit false

namespace TableMeta

/-! ## Fields and bits -/

/-- `sys_field_num`. -/
def sysFieldNum (kit : TrxKit) : ℕ := kit.trxFields.length + 1

/-- `null_field`. -/
def nullFieldMeta (kit : TrxKit) (table : TableMeta) : FieldMeta := table.fields.getD (sysFieldNum kit - 1) {}

/-- `field_index`, which looks for the offset. -/
def fieldIndex (table : TableMeta) (fieldMeta : FieldMeta) : ℤ :=
  (table.fields.findIdx? fun field => fieldMeta.attrOffset == field.attrOffset).elim (-1) Nat.cast

/-- Where `bitmap_of_null_field` begins. -/
def nullOffset (kit : TrxKit) (table : TableMeta) : ℕ := (nullFieldMeta kit table).attrOffset.toNat

/-- The bit of a field in the bitmap of a record. -/
def nullBit (kit : TrxKit) (table : TableMeta) (record : Memory) (i : ℕ) : Bool :=
  record.getBit (nullOffset kit table) i

/-! ## `make_record` -/

/-- What `memcpy` leaves of `len` bytes. -/
def copyBytes (record : Memory) (offset : ℕ) (data : Memory) (len : ℕ) : Memory := fun k =>
  if offset ≤ k ∧ k < offset + len then data (k - offset) else record k

/-- `copy_len`: a string that is shorter than the field is copied with its NUL. -/
def copyLen (field : FieldMeta) (length : ℕ) : ℕ :=
  if (field.attrType = .chars ∨ field.attrType = .texts) ∧ length < field.attrLen.toNat then length + 1
  else field.attrLen.toNat

/-- What is done to a field: its bit is set or cleared, or a value is copied, from `data()` with `length()`. -/
inductive FieldWrite
  | setBit
  | clearBit
  | copy (data : Memory) (length : ℕ)

def write (kit : TrxKit) (table : TableMeta) (record : Memory) (i : ℕ) : FieldWrite → Memory
  | .setBit => record.setBit (nullOffset kit table) i
  | .clearBit => record.clearBit (nullOffset kit table) i
  | .copy data length =>
    let field := table.fields.getD i {}
    copyBytes record field.attrOffset.toNat data (copyLen field length)

/-- What `make_record` does for a value: a `NULL`, or what `data()` and `length()` are. -/
def fieldWrites : Option (Memory × ℕ) → List FieldWrite
  | none => [.setBit]
  | some (data, length) => [.clearBit, .copy data length]

/-- The last loop of `make_record`, from field `i` on. -/
def makeRecordLoop (kit : TrxKit) (table : TableMeta) : ℕ → List (Option (Memory × ℕ)) → Memory → Memory
  | _, [], record => record
  | i, value :: values, record =>
    makeRecordLoop kit table (i + 1) values ((fieldWrites value).foldl (fun record w => write kit table record i w) record)

/-! ## The layout -/

/-- The layout is right: fields are apart and inside of the record, there are enough bits, positions are found again, and
what is done to one field leaves the others as they are. -/
structure LayoutRight (kit : TrxKit) (table : TableMeta) : Prop where
  disjoint : table.fields.Pairwise fun f1 f2 => f1.attrOffset + f1.attrLen ≤ f2.attrOffset
  inside : ∀ field ∈ table.fields, 0 ≤ field.attrOffset ∧ field.attrOffset + field.attrLen ≤ table.recordSize
  bits : (table.fields.length : ℤ) ≤ 8 * (nullFieldMeta kit table).attrLen
  index : ∀ i, i < table.fields.length → table.fieldIndex (table.fields.getD i {}) = i
  bit_frame : ∀ (record : Memory) (w : FieldWrite) (i j : ℕ), i < table.fields.length → j < table.fields.length →
    i ≠ sysFieldNum kit - 1 → i ≠ j → nullBit kit table (write kit table record i w) j = nullBit kit table record j
  value_frame : ∀ (record : Memory) (w : FieldWrite) (i j : ℕ), i < table.fields.length → j < table.fields.length →
    i ≠ sysFieldNum kit - 1 → j ≠ sysFieldNum kit - 1 → i ≠ j → ∀ k : ℕ,
      (table.fields.getD j {}).attrOffset ≤ k → k < (table.fields.getD j {}).attrOffset + (table.fields.getD j {}).attrLen →
        write kit table record i w k = record k

/-- Where the last field of a record ends. -/
def recordEnd (kit : TrxKit) (attributes : List AttrInfoSqlNode) : ℤ :=
  (kit.trxFields.map FieldMeta.attrLen).sum + nullFieldLen kit.trxFields.length attributes.length +
    (attributes.map fun attr => toInt32 attr.length).sum

end TableMeta

/-! ## Fields behind each other -/

theorem Laid.end_le {fields : List FieldMeta} {off off' : ℤ} (h : Laid off fields off') (hoff : off < 2 ^ 31) :
    fields.Pairwise fun f1 f2 => f1.attrOffset + f1.attrLen ≤ f2.attrOffset := by
  induction fields generalizing off with
  | nil => exact List.Pairwise.nil
  | cons field fields ih =>
    obtain ⟨hvalid, rfl, hrest⟩ := h
    refine List.pairwise_cons.mpr ⟨fun f hf => ?_, ih hrest (toInt32_mem _).2⟩
    cases fields with
    | nil => cases hf
    | cons next fields =>
      have hstep := toInt32_add_of_nonneg hvalid.offset_nonneg hvalid.offset_lt hvalid.len_pos hvalid.len_lt hrest.nonneg
      have hle := hrest.le f hf
      rwa [hstep] at hle

/-- All fields end inside of the record unless the last end wraps around. -/
theorem Laid.inside_iff {fields : List FieldMeta} {off off' : ℤ} (h : Laid off fields off') (hne : fields ≠ []) :
    (∀ field ∈ fields, field.attrOffset + field.attrLen ≤ off') ↔ off + (fields.map FieldMeta.attrLen).sum < 2 ^ 31 := by
  induction fields generalizing off with
  | nil => exact absurd rfl hne
  | cons field fields ih =>
    obtain ⟨hvalid, rfl, hrest⟩ := h
    have hnonneg := hvalid.offset_nonneg
    have hlt := hvalid.offset_lt
    have hpos := hvalid.len_pos
    have hlen := hvalid.len_lt
    cases fields with
    | nil =>
      have hend : off' = toInt32 (field.attrOffset + field.attrLen) := hrest
      have hmem := (toInt32_mem (field.attrOffset + field.attrLen)).2
      simp only [List.mem_singleton, forall_eq, List.map_cons, List.map_nil, List.sum_cons, List.sum_nil, add_zero, hend]
      constructor
      · intro hle
        omega
      · intro hsum
        rw [toInt32_of_range (by omega) hsum]
    | cons next fields =>
      have hstep := toInt32_add_of_nonneg hnonneg hlt hpos hlen hrest.nonneg
      have hiff := ih hrest (List.cons_ne_nil _ _)
      rw [hstep] at hiff hrest
      have hcons : ((field :: next :: fields).map FieldMeta.attrLen).sum =
          field.attrLen + ((next :: fields).map FieldMeta.attrLen).sum := by rw [List.map_cons, List.sum_cons]
      rw [List.forall_mem_cons, hiff, hcons, ← add_assoc]
      refine and_iff_right_of_imp fun hsum => ?_
      have hinside := hiff.mpr hsum next (by simp)
      have hnext := hrest.2.1
      have hnextpos := hrest.1.len_pos
      omega

namespace TableMeta

/-! ## What `init` lays out -/

theorem initTrxFields_lens (fields : List FieldMeta) (off : ℤ) :
    (initTrxFields fields off).1.map FieldMeta.attrLen = fields.map FieldMeta.attrLen := by
  induction fields generalizing off with
  | nil => rfl
  | cons field fields ih => rw [initTrxFields, List.map_cons, List.map_cons, ih]

theorem initFields_lens {attributes : List AttrInfoSqlNode} {off : ℤ} {rest : List FieldMeta × ℤ}
    (h : initFields attributes off = .ok rest) :
    rest.1.map FieldMeta.attrLen = attributes.map fun attr => toInt32 attr.length := by
  induction attributes generalizing off rest with
  | nil =>
    obtain rfl := Except.ok.inj h
    rfl
  | cons attr attributes ih =>
    rw [initFields] at h
    cases hfield : FieldMeta.init attr.name attr.type attr.nullable off (toInt32 attr.length) true with
    | error rc => rw [hfield] at h; cases h
    | ok field =>
      cases hrest : initFields attributes (toInt32 (off + attr.length)) with
      | error rc => rw [hfield, hrest] at h; cases h
      | ok rest' =>
        rw [hfield, hrest] at h
        obtain rfl := Except.ok.inj h
        rw [List.map_cons, List.map_cons, ih hrest, (FieldMeta.init_eq_ok hfield).1]

/-- The three parts of the fields of an accepted table. -/
theorem init_fields {kit : TrxKit} {tableId : ℤ} {name : String} {attributes : List AttrInfoSqlNode} {table : TableMeta}
    (h : init kit tableId name attributes = .ok table) :
    ∃ trx rest : List FieldMeta, ∃ off : ℤ,
      table.fields = trx ++ nullField off (nullFieldLen kit.trxFields.length attributes.length) :: rest ∧
      trx.map FieldMeta.attrLen = kit.trxFields.map FieldMeta.attrLen ∧
      rest.map FieldMeta.attrLen = attributes.map fun attr => toInt32 attr.length := by
  unfold init at h
  by_cases hblank : isBlank name = true
  · rw [if_pos hblank] at h
    cases h
  by_cases hnil : attributes = []
  · rw [if_neg hblank, if_pos hnil] at h
    cases h
  rw [if_neg hblank, if_neg hnil] at h
  simp only at h
  cases hrest : initFields attributes (toInt32 ((initTrxFields kit.trxFields 0).2 +
      nullFieldLen kit.trxFields.length attributes.length)) with
  | error rc =>
    rw [hrest] at h
    cases h
  | ok rest =>
    rw [hrest] at h
    obtain rfl := Except.ok.inj h
    exact ⟨_, _, _, rfl, initTrxFields_lens _ _, initFields_lens hrest⟩

theorem nullFieldLen_range (trxFieldNum fieldNum : ℕ) :
    -2 ^ 31 ≤ nullFieldLen trxFieldNum fieldNum ∧ nullFieldLen trxFieldNum fieldNum < 2 ^ 31 := by
  obtain ⟨hlo, hhi⟩ := toInt32_mem (trxFieldNum + 1 + fieldNum)
  unfold nullFieldLen
  generalize toInt32 (trxFieldNum + 1 + fieldNum) = num at hlo hhi
  cases le_or_gt 0 num with
  | inl hnum =>
    rw [Int.tdiv_eq_ediv_of_nonneg hnum]
    omega
  | inr hnum =>
    have hneg : num.tdiv 8 = -(-num / 8) := by
      rw [← Int.tdiv_eq_ediv_of_nonneg (by omega), Int.neg_tdiv, neg_neg]
    rw [hneg]
    omega

theorem nullField_attrLen {off len : ℤ} (hlo : -2 ^ 31 ≤ len) (hhi : len < 2 ^ 31) (h : (nullField off len).Valid) :
    (nullField off len).attrLen = len := by
  unfold nullField at h ⊢
  cases hinit : FieldMeta.init "__null" .chars false off (toInt32 len) false with
  | error rc =>
    rw [hinit] at h
    exact absurd h.len_pos (lt_irrefl 0)
  | ok field =>
    obtain ⟨rfl, -⟩ := FieldMeta.init_eq_ok hinit
    exact toInt32_of_range hlo hhi

variable {kit : TrxKit} {tableId : ℤ} {name : String} {attributes : List AttrInfoSqlNode} {table : TableMeta}

/-- The numbers and lengths of the fields of an accepted table. -/
theorem init_lens (h : init kit tableId name attributes = .ok table) :
    (nullFieldMeta kit table).attrLen = nullFieldLen kit.trxFields.length attributes.length ∧
      table.fields.length = kit.trxFields.length + 1 + attributes.length ∧
      (table.fields.map FieldMeta.attrLen).sum = recordEnd kit attributes := by
  obtain ⟨trx, rest, off, hfields, htrx, hrest⟩ := init_fields h
  have hvalid := (init_laid h).1.valid
  obtain ⟨hlo, hhi⟩ := nullFieldLen_range kit.trxFields.length attributes.length
  have htrxlen : trx.length = kit.trxFields.length := by
    have := congrArg List.length htrx
    rwa [List.length_map, List.length_map] at this
  have hrestlen : rest.length = attributes.length := by
    have := congrArg List.length hrest
    rwa [List.length_map, List.length_map] at this
  have hlen := nullField_attrLen hlo hhi (hvalid (nullField off _) (by simp [hfields]))
  have hnull : nullFieldMeta kit table = nullField off (nullFieldLen kit.trxFields.length attributes.length) := by
    simp [nullFieldMeta, sysFieldNum, hfields, ← htrxlen]
  refine ⟨by rw [hnull, hlen], ?_, ?_⟩
  · rw [hfields, List.length_append, List.length_cons]
    omega
  · rw [hfields, List.map_append, List.map_cons, List.sum_append, List.sum_cons, htrx, hrest, hlen, recordEnd]
    ring

/-- The bitmap has more bits than there are fields. -/
theorem init_bits (h : init kit tableId name attributes = .ok table) :
    (table.fields.length : ℤ) < 8 * (nullFieldMeta kit table).attrLen := by
  obtain ⟨hnull, hnum, -⟩ := init_lens h
  have hlaid := (init_laid h).1
  have hcount := hlaid.length_le (by norm_num)
  have hmem : nullFieldMeta kit table ∈ table.fields := by
    rw [nullFieldMeta, List.getD_eq_getElem _ _ (by rw [hnum, sysFieldNum]; omega)]
    exact List.getElem_mem _
  have hpos := (hlaid.valid _ hmem).len_pos
  rw [hnull] at hpos ⊢
  rw [hnum] at hcount ⊢
  push_cast at hcount ⊢
  by_cases hsum : (kit.trxFields.length + 1 + attributes.length : ℤ) < 2 ^ 31
  · rw [nullFieldLen, toInt32_of_range (by omega) hsum, Int.tdiv_eq_ediv_of_nonneg (by omega)]
    omega
  · -- one field more than an `int` counts: the length would be negative
    have heq : (kit.trxFields.length + 1 + attributes.length : ℤ) = 2 ^ 31 := by omega
    rw [nullFieldLen, heq] at hpos
    exact absurd hpos (by decide +kernel)

/-! ## Positions -/

/-- The field at a position is found again by its offset. -/
theorem fieldIndex_getD (hlaid : table.fields.Pairwise fun f1 f2 => f1.attrOffset + f1.attrLen ≤ f2.attrOffset)
    (hvalid : ∀ field ∈ table.fields, field.Valid) {i : ℕ} (hi : i < table.fields.length) :
    table.fieldIndex (table.fields.getD i {}) = i := by
  have hfind : table.fields.findIdx? (fun field => (table.fields.getD i {}).attrOffset == field.attrOffset) = some i := by
    rw [List.findIdx?_eq_some_iff_getElem]
    refine ⟨hi, by rw [List.getD_eq_getElem _ _ hi, beq_self_eq_true], fun j hji => ?_⟩
    have hlt := List.pairwise_iff_getElem.mp hlaid j i (by omega) hi hji
    have hpos := (hvalid _ (List.getElem_mem (show j < table.fields.length by omega))).len_pos
    rw [List.getD_eq_getElem _ _ hi, beq_iff_eq]
    omega
  rw [fieldIndex, hfind]
  rfl

/-! ## What is written -/

theorem copyBytes_of_notMem {record data : Memory} {offset len k : ℕ} (h : k < offset ∨ offset + len ≤ k) :
    copyBytes record offset data len k = record k :=
  if_neg (by omega)

theorem copyLen_le {field : FieldMeta} (h : field.Valid) (length : ℕ) :
    (copyLen field length : ℤ) ≤ field.attrLen := by
  have hpos := h.len_pos
  unfold copyLen
  split_ifs <;> omega

/-- The fields of a table are valid, one behind the other, with a bitmap among them that has a bit for each. -/
structure Apart (kit : TrxKit) (table : TableMeta) : Prop where
  valid : ∀ field ∈ table.fields, field.Valid
  disjoint : table.fields.Pairwise fun f1 f2 => f1.attrOffset + f1.attrLen ≤ f2.attrOffset
  bits : (table.fields.length : ℤ) < 8 * (nullFieldMeta kit table).attrLen
  null_lt : sysFieldNum kit - 1 < table.fields.length

theorem init_apart (h : init kit tableId name attributes = .ok table) : Apart kit table := by
  obtain ⟨-, hnum, -⟩ := init_lens h
  exact ⟨(init_laid h).1.valid, (init_laid h).1.end_le (by norm_num), init_bits h, by rw [hnum, sysFieldNum]; omega⟩

namespace Apart

variable (hapart : Apart kit table)
include hapart

theorem getD_valid {i : ℕ} (hi : i < table.fields.length) : (table.fields.getD i {}).Valid := by
  rw [List.getD_eq_getElem _ _ hi]
  exact hapart.valid _ (List.getElem_mem _)

/-- Two fields at different positions have no byte in common. -/
theorem end_le {i j : ℕ} (hi : i < table.fields.length) (hj : j < table.fields.length) (hne : i ≠ j) :
    (table.fields.getD i {}).attrOffset + (table.fields.getD i {}).attrLen ≤ (table.fields.getD j {}).attrOffset ∨
      (table.fields.getD j {}).attrOffset + (table.fields.getD j {}).attrLen ≤ (table.fields.getD i {}).attrOffset := by
  rw [List.getD_eq_getElem _ _ hi, List.getD_eq_getElem _ _ hj]
  cases Nat.lt_or_gt_of_ne hne with
  | inl hlt => exact Or.inl (List.pairwise_iff_getElem.mp hapart.disjoint i j hi hj hlt)
  | inr hgt => exact Or.inr (List.pairwise_iff_getElem.mp hapart.disjoint j i hj hi hgt)

/-- A byte of the bitmap that holds the bit of a field lies inside the bitmap's field. -/
theorem nullByte_lt {j : ℕ} (hj : j < table.fields.length) :
    (nullOffset kit table + j / 8 : ℤ) < (nullFieldMeta kit table).attrOffset + (nullFieldMeta kit table).attrLen := by
  have hnonneg := (hapart.getD_valid hapart.null_lt).offset_nonneg
  have hbits := hapart.bits
  have hoffset : (nullOffset kit table : ℤ) = (nullFieldMeta kit table).attrOffset := Int.toNat_of_nonneg hnonneg
  omega

/-- A copy into a field leaves the bytes of the other fields. -/
theorem copy_frame {i j k : ℕ} (hi : i < table.fields.length) (hj : j < table.fields.length) (hne : i ≠ j)
    (hlo : (table.fields.getD j {}).attrOffset ≤ k)
    (hhi : (k : ℤ) < (table.fields.getD j {}).attrOffset + (table.fields.getD j {}).attrLen) (record data : Memory)
    (length : ℕ) : write kit table record i (.copy data length) k = record k := by
  have hvalid := hapart.getD_valid hi
  have hoffset := hvalid.offset_nonneg
  have hlen := copyLen_le hvalid length
  have hapart := hapart.end_le hi hj hne
  exact copyBytes_of_notMem (by omega)

/-- A copy into a field other than the bitmap leaves the bits. -/
theorem copy_bit {i j : ℕ} (hi : i < table.fields.length) (hj : j < table.fields.length) (hnull : i ≠ sysFieldNum kit - 1)
    (record data : Memory) (length : ℕ) :
    nullBit kit table (write kit table record i (.copy data length)) j = nullBit kit table record j := by
  have hbyte := hapart.nullByte_lt hj
  have hnonneg := (hapart.getD_valid hapart.null_lt).offset_nonneg
  have hoffset : (nullOffset kit table : ℤ) = (nullFieldMeta kit table).attrOffset := Int.toNat_of_nonneg hnonneg
  refine Memory.getBit_congr (hapart.copy_frame hi hapart.null_lt hnull ?_ (by exact_mod_cast hbyte) record data length)
  push_cast
  rw [hoffset]
  exact le_add_of_nonneg_right (by omega)

theorem bit_frame (record : Memory) (w : FieldWrite) {i j : ℕ} (hi : i < table.fields.length)
    (hj : j < table.fields.length) (hnull : i ≠ sysFieldNum kit - 1) (hne : i ≠ j) :
    nullBit kit table (write kit table record i w) j = nullBit kit table record j := by
  cases w with
  | setBit =>
    simp only [nullBit, write]
    rw [Memory.getBit_setBit, decide_eq_false (Ne.symm hne), Bool.or_false]
  | clearBit =>
    simp only [nullBit, write]
    rw [Memory.getBit_clearBit, decide_eq_true (Ne.symm hne), Bool.and_true]
  | copy data length => exact hapart.copy_bit hi hj hnull record data length

theorem value_frame (record : Memory) (w : FieldWrite) {i j k : ℕ} (hi : i < table.fields.length)
    (hj : j < table.fields.length) (hnull : j ≠ sysFieldNum kit - 1) (hne : i ≠ j)
    (hlo : (table.fields.getD j {}).attrOffset ≤ k)
    (hhi : (k : ℤ) < (table.fields.getD j {}).attrOffset + (table.fields.getD j {}).attrLen) :
    write kit table record i w k = record k := by
  have hbyte := hapart.nullByte_lt hi
  have hnonneg := (hapart.getD_valid hapart.null_lt).offset_nonneg
  have hoffset : (nullOffset kit table : ℤ) = (nullFieldMeta kit table).attrOffset := Int.toNat_of_nonneg hnonneg
  have hbitmap := hapart.end_le hapart.null_lt hj (Ne.symm hnull)
  have hout : k ≠ nullOffset kit table + i / 8 := by
    unfold nullFieldMeta at hoffset hbyte
    omega
  cases w with
  | setBit => exact Function.update_of_ne hout _ _
  | clearBit => exact Function.update_of_ne hout _ _
  | copy data length => exact hapart.copy_frame hi hj hne hlo hhi record data length

end Apart

/-! ## A whole record -/

section
variable (hapart : Apart kit table)
include hapart

/-- The writes for one field leave the bits and the values of the others. -/
theorem foldl_write_frame (writes : List FieldWrite) (record : Memory) {i j : ℕ} (hi : i < table.fields.length)
    (hj : j < table.fields.length) (hinull : i ≠ sysFieldNum kit - 1) (hne : i ≠ j) :
    nullBit kit table (writes.foldl (fun record w => write kit table record i w) record) j = nullBit kit table record j ∧
      (j ≠ sysFieldNum kit - 1 → ∀ k : ℕ, (table.fields.getD j {}).attrOffset ≤ k →
        (k : ℤ) < (table.fields.getD j {}).attrOffset + (table.fields.getD j {}).attrLen →
          writes.foldl (fun record w => write kit table record i w) record k = record k) := by
  induction writes generalizing record with
  | nil => exact ⟨rfl, fun _ _ _ _ => rfl⟩
  | cons w writes ih =>
    obtain ⟨hbit, hvalue⟩ := ih (write kit table record i w)
    refine ⟨hbit.trans (hapart.bit_frame record w hi hj hinull hne), fun hjnull k hlo hhi => ?_⟩
    exact (hvalue hjnull k hlo hhi).trans (hapart.value_frame record w hi hj hjnull hne hlo hhi)

/-- The loop of `make_record` leaves the fields in front of it. -/
theorem makeRecordLoop_frame (values : List (Option (Memory × ℕ))) (record : Memory) {i j : ℕ}
    (hi : sysFieldNum kit ≤ i) (hnum : i + values.length ≤ table.fields.length) (hji : j < i) :
    nullBit kit table (makeRecordLoop kit table i values record) j = nullBit kit table record j ∧
      (j ≠ sysFieldNum kit - 1 → ∀ k : ℕ, (table.fields.getD j {}).attrOffset ≤ k →
        (k : ℤ) < (table.fields.getD j {}).attrOffset + (table.fields.getD j {}).attrLen →
          makeRecordLoop kit table i values record k = record k) := by
  induction values generalizing i record with
  | nil => exact ⟨rfl, fun _ _ _ _ => rfl⟩
  | cons value values ih =>
    rw [List.length_cons] at hnum
    have hsys : 0 < sysFieldNum kit := Nat.succ_pos _
    obtain ⟨hbit, hvalue⟩ := ih ((fieldWrites value).foldl (fun record w => write kit table record i w) record)
      (Nat.le_succ_of_le hi) (by omega) (Nat.lt_succ_of_lt hji)
    obtain ⟨hbit', hvalue'⟩ :=
      foldl_write_frame hapart (fieldWrites value) record (show i < table.fields.length by omega)
        (show j < table.fields.length by omega) (by omega) (Nat.ne_of_gt hji)
    refine ⟨hbit.trans hbit', fun hnull k hlo hhi => ?_⟩
    exact (hvalue hnull k hlo hhi).trans (hvalue' hnull k hlo hhi)

/-- What the writes for a value leave in its field. -/
theorem foldl_write_field (value : Option (Memory × ℕ)) (record : Memory) {i : ℕ} (hi : i < table.fields.length)
    (hnull : i ≠ sysFieldNum kit - 1) :
    nullBit kit table ((fieldWrites value).foldl (fun record w => write kit table record i w) record) i = value.isNone ∧
      ∀ data length, value = some (data, length) → ∀ t < copyLen (table.fields.getD i {}) length,
        (fieldWrites value).foldl (fun record w => write kit table record i w) record
          ((table.fields.getD i {}).attrOffset.toNat + t) = data t := by
  rcases value with _ | ⟨data, length⟩
  · refine ⟨?_, fun _ _ h => absurd h (by simp)⟩
    simp [fieldWrites, nullBit, write, Memory.getBit_setBit]
  · constructor
    · rw [fieldWrites, List.foldl_cons, List.foldl_cons, List.foldl_nil, hapart.copy_bit hi hi hnull]
      simp [nullBit, write, Memory.getBit_clearBit]
    · intro data' length' heq t ht
      obtain ⟨rfl, rfl⟩ := Prod.mk.inj (Option.some.inj heq)
      simp only [fieldWrites, List.foldl_cons, List.foldl_nil, write]
      rw [copyBytes, if_pos (by omega), Nat.add_sub_cancel_left]

/-- In the record that `make_record` fills every value stands in its field, and the bits say which ones are `NULL`. -/
theorem makeRecordLoop_field (values : List (Option (Memory × ℕ))) (record : Memory) {i k : ℕ} (hi : sysFieldNum kit ≤ i)
    (hnum : i + values.length ≤ table.fields.length) (hk : k < values.length) :
    nullBit kit table (makeRecordLoop kit table i values record) (i + k) = (values.get ⟨k, hk⟩).isNone ∧
      ∀ data length, values.get ⟨k, hk⟩ = some (data, length) → ∀ t < copyLen (table.fields.getD (i + k) {}) length,
        makeRecordLoop kit table i values record ((table.fields.getD (i + k) {}).attrOffset.toNat + t) = data t := by
  induction values generalizing i k record with
  | nil => exact absurd hk (Nat.not_lt_zero k)
  | cons value values ih =>
    rw [List.length_cons] at hnum
    cases k with
    | zero =>
      rw [Nat.add_zero]
      have hin : i < table.fields.length := by omega
      have hnull : i ≠ sysFieldNum kit - 1 := by
        have hsys : 0 < sysFieldNum kit := Nat.succ_pos _
        omega
      obtain ⟨hbit, hvalue⟩ := foldl_write_field hapart value record hin hnull
      obtain ⟨hbit', hvalue'⟩ := makeRecordLoop_frame hapart values
        ((fieldWrites value).foldl (fun record w => write kit table record i w) record) (Nat.le_succ_of_le hi) (by omega)
        (Nat.lt_succ_self i)
      refine ⟨hbit'.trans hbit, fun data length heq t ht => ?_⟩
      have hvalid := hapart.getD_valid hin
      have hoffset := hvalid.offset_nonneg
      have hlen := copyLen_le hvalid length
      refine (hvalue' hnull _ ?_ ?_).trans (hvalue data length heq t ht)
      · push_cast
        omega
      · push_cast
        omega
    | succ k =>
      have hshift : i + (k + 1) = i + 1 + k := by omega
      rw [hshift]
      exact ih _ (Nat.le_succ_of_le hi) (by omega) (Nat.lt_of_succ_lt_succ hk)

end

/-- The layout of an accepted table is right unless its records end behind the range of an `int`. -/
theorem layoutRight_iff (h : init kit tableId name attributes = .ok table) :
    LayoutRight kit table ↔ recordEnd kit attributes < 2 ^ 31 := by
  obtain ⟨hlaid, hne, -⟩ := init_laid h
  have hapart := init_apart h
  have hinside := hlaid.inside_iff hne
  rw [zero_add, (init_lens h).2.2] at hinside
  constructor
  · intro hright
    exact hinside.mp fun field hfield => (hright.inside field hfield).2
  · intro hend
    exact {
      disjoint := hapart.disjoint
      inside := fun field hfield => ⟨(hapart.valid field hfield).offset_nonneg, hinside.mpr hend field hfield⟩
      bits := hapart.bits.le
      index := fun i hi => fieldIndex_getD hapart.disjoint hapart.valid hi
      bit_frame := fun record w i j hi hj hnull hij => hapart.bit_frame record w hi hj hnull hij
      value_frame := fun record w i j hi hj _ hnull hij k hlo hhi => hapart.value_frame record w hi hj hnull hij hlo hhi }

/-- The layout of `t(id int not null)` is right. -/
theorem layoutRight_iff_id :
    LayoutRight .mvcc ⟨1, "t",
      [⟨"__trx_xid_begin", .ints, false, 0, 4, false⟩, ⟨"__trx_xid_end", .ints, false, 4, 4, false⟩,
        ⟨"__null", .chars, false, 8, 1, false⟩, ⟨"id", .ints, false, 9, 4, true⟩], [], 13⟩ := by
  have hinit : init .mvcc 1 "t" [⟨.ints, "id", 4, false⟩] = .ok ⟨1, "t",
      [⟨"__trx_xid_begin", .ints, false, 0, 4, false⟩, ⟨"__trx_xid_end", .ints, false, 4, 4, false⟩,
        ⟨"__null", .chars, false, 8, 1, false⟩, ⟨"id", .ints, false, 9, 4, true⟩], [], 13⟩ := by decide +kernel
  exact (layoutRight_iff hinit).mpr (by decide +kernel)

/-- A record of `t(c char(2147483647))` has a size below zero. -/
theorem not_layoutRight_long :
    init .vacuous 1 "t" [⟨.chars, "c", 2147483647, false⟩] = .ok ⟨1, "t",
        [⟨"__null", .chars, false, 0, 1, false⟩, ⟨"c", .chars, false, 1, 2147483647, true⟩], [], -2147483648⟩ ∧
      ¬LayoutRight .vacuous ⟨1, "t",
        [⟨"__null", .chars, false, 0, 1, false⟩, ⟨"c", .chars, false, 1, 2147483647, true⟩], [], -2147483648⟩ := by
  refine ⟨by decide +kernel, fun h => ?_⟩
  have hinside := (h.inside ⟨"__null", .chars, false, 0, 1, false⟩ (by simp)).2
  exact absurd hinside (by decide)

end TableMeta

end Landbase.Meta
