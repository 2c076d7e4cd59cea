import Landbase.Storage.RecordStore

/-! # Scans of a record file

A scan hands out the records that its filter lets pass and that its transaction sees, in the order of pages and slots, with
one record fetched ahead. `record_page_iterator_` goes through the slots of a page and `bp_iterator_` through the pages
behind it. Without a filter and a transaction a scan hands out the map behind the file, and with that the handler refines
the map in every run (`run_refines_store`).
-/

namespace Landbase.RecordManager
open Lib Buffer RecordFileScanner
set_option autoImplicit false

/-- No filter. -/
def everyRecord (_ : Record) : Bool := true

/-- No transaction. -/
def noTrx (_ : Record) : RC := .success

/-- `visit_record` of a transaction that sees some of the records. -/
def visiting (visible : Record → Bool) (record : Record) : RC := if visible record then .success else .recordInvisible

/-! ## The records of a file -/

/-- The slots in use from `start` on. -/
def slotsFrom (page : Memory) (start : ℕ) : List ℕ :=
  Bitmap.settedFrom page pageHeaderSize (PageHeader.recordCapacity page).toNat start

/-- The records of the pages behind `cur`. -/
def recordsBehind (size : ℕ) (pages : PageNum → Memory) (cur : PageNum) : List Record :=
  (List.range' (cur + 1) (size - (cur + 1))).flatMap fun p => (slotsFrom (pages p) 0).map (recordAt (pages p) p)

/-- The records of a file, in the order of pages and slots. -/
def liveRecords (pool : DiskBufferPool) : List Record :=
  recordsBehind (BPFileHeader.pageCount (pool.page bpHeaderPage)).toNat pool.page bpHeaderPage

/-- The records pass the filter and the transaction sees them. -/
def wanted (filter visible : Record → Bool) (record : Record) : Bool := filter record && visible record

/-- The records of the file that a scan is about. -/
def wantedRecords (filter visible : Record → Bool) (pool : DiskBufferPool) : List Record :=
  (liveRecords pool).filter (wanted filter visible)

/-- The wanted records of the slots from `start` on. -/
def wantedFrom (filter visible : Record → Bool) (page : Memory) (pageNum : PageNum) (start : ℕ) : List Record :=
  ((slotsFrom page start).map (recordAt page pageNum)).filter (wanted filter visible)

/-- The order of pages and of the slots of a page. -/
def Precedes (a b : RID) : Prop := a.pageNum < b.pageNum ∨ (a.pageNum = b.pageNum ∧ a.slotNum < b.slotNum)

theorem mem_recordsBehind {size : ℕ} {pages : PageNum → Memory} {r : Record} :
    r ∈ recordsBehind size pages 0 ↔
      ∃ p i, 1 ≤ p ∧ p < size ∧ i ∈ slotsFrom (pages p) 0 ∧ r = RecordFileScanner.recordAt (pages p) p i := by
  rw [recordsBehind, List.mem_flatMap]
  constructor
  · rintro ⟨p, hp, hr⟩
    rw [List.mem_range'_1] at hp
    obtain ⟨i, hi, rfl⟩ := List.mem_map.mp hr
    exact ⟨p, i, by omega, by omega, hi, rfl⟩
  · rintro ⟨p, i, hpos, hp, hi, rfl⟩
    exact ⟨p, List.mem_range'_1.mpr ⟨by omega, by omega⟩, List.mem_map_of_mem hi⟩

theorem recordsBehind_sorted (size : ℕ) (pages : PageNum → Memory) (cur : ℕ) :
    (recordsBehind size pages cur).Pairwise fun a b => Precedes a.rid b.rid := by
  rw [recordsBehind, List.pairwise_flatMap]
  constructor
  · intro p _
    rw [List.pairwise_map]
    refine (Bitmap.settedFrom_sorted _ _ _ _).imp fun hlt => ?_
    exact Or.inr ⟨rfl, Int.ofNat_lt.mpr hlt⟩
  · refine List.Pairwise.imp ?_ List.pairwise_lt_range'
    intro p q hlt a ha b hb
    obtain ⟨i, -, rfl⟩ := List.mem_map.mp ha
    obtain ⟨j, -, rfl⟩ := List.mem_map.mp hb
    exact Or.inl (Int.ofNat_lt.mpr hlt)

theorem Stored.mem_slotsFrom {recordSize size : ℕ} {pages : PageNum → Memory} {store : Store}
    (h : Stored recordSize size pages store) {p : ℕ} (hpos : 1 ≤ p) (hp : p < size) {i : ℕ} :
    i ∈ slotsFrom (pages p) 0 ↔ (store ⟨p, i⟩).isSome = true := by
  have hholds := h.holds p hpos hp
  rw [slotsFrom, Bitmap.mem_settedFrom, hholds.laid.capacity, Int.toNat_natCast]
  constructor
  · rintro ⟨-, hi, hbit⟩
    exact (hholds.used i hi).symm.trans hbit
  · intro hlive
    have hi := hholds.lt_capacity hlive
    exact ⟨Nat.zero_le i, hi, (hholds.used i hi).trans hlive⟩

namespace RecordFileScanner

/-- `bp_iterator_.init`. -/
def initIterator (pool : DiskBufferPool) (scanner : RecordFileScanner) : RecordFileScanner :=
  { scanner with currentPageNum := 0, pageCount := (BPFileHeader.pageCount (pool.page bpHeaderPage)).toNat }

variable (filter : Record → Bool) (visit : Record → RC) in
/-- `open_scan`, on a scanner that may have been used. -/
def reopenScan (pool : DiskBufferPool) (scanner : RecordFileScanner) : RC × DiskBufferPool × RecordFileScanner :=
  let r := fetchNextRecord filter visit pool (scanner.initIterator pool)
  (endOk r.1, r.2)

theorem openScan_eq (filter : Record → Bool) (visit : Record → RC) (pool : DiskBufferPool) :
    openScan filter visit pool = reopenScan filter visit pool ⟨0, 0, none, none, none⟩ := rfl

end RecordFileScanner

/-! ## What a scanner has ahead of it -/

section Ahead

variable (filter visible : Record → Bool)

/-- The scanner has records ahead of it: `here` in the page of `record_page_iterator_`, and `behind` in the pages that
`bp_iterator_` comes to. -/
structure Ahead (recordSize size : ℕ) (pages : PageNum → Memory) (pool : DiskBufferPool) (scanner : RecordFileScanner)
    (here behind : List Record) : Prop where
  shows : Shows recordSize pool size pages
  pageCount : scanner.pageCount = size
  inside : scanner.currentPageNum < size
  place : ((scanner.pageNum = none ∨ scanner.nextSlotNum = none) ∧ here = []) ∨
    ∃ p start, scanner.pageNum = some p ∧ scanner.nextSlotNum = (slotsFrom (pages p) start).head? ∧
      here = wantedFrom filter visible (pages p) p start
  behind : behind = (recordsBehind size pages scanner.currentPageNum).filter (wanted filter visible)

/-- The page of the record is the one of both iterators. -/
def AtRecord (scanner : RecordFileScanner) (record : Record) : Prop :=
  ∃ p : PageNum, scanner.pageNum = some p ∧ scanner.currentPageNum = p ∧ record.rid.pageNum = p

/-- What the loop over the pages leaves, with `behind` in them. -/
inductive FetchedBehind (recordSize size : ℕ) (pages : PageNum → Memory) :
    List Record → RC × DiskBufferPool × RecordFileScanner → Prop
  | eof (pool : DiskBufferPool) (scanner : RecordFileScanner) (hnone : scanner.nextRecord = none)
    (hahead : Ahead filter visible recordSize size pages pool scanner [] []) :
    FetchedBehind recordSize size pages [] (.recordEof, pool, scanner)
  | found (record : Record) (here behind : List Record) (pool : DiskBufferPool) (scanner : RecordFileScanner)
    (hrecord : scanner.nextRecord = some record) (hat : AtRecord scanner record)
    (hahead : Ahead filter visible recordSize size pages pool scanner here behind) :
    FetchedBehind recordSize size pages (record :: (here ++ behind)) (.success, pool, scanner)

/-- What `fetch_next_record` leaves of a scanner with `here` and `behind` ahead of it. -/
inductive FetchedAhead (recordSize size : ℕ) (pages : PageNum → Memory) (before : RecordFileScanner) :
    List Record → List Record → RC × DiskBufferPool × RecordFileScanner → Prop
  | here (record : Record) (here behind : List Record) (pool : DiskBufferPool) (scanner : RecordFileScanner) (p : PageNum)
    (hrecord : scanner.nextRecord = some record) (hrid : record.rid.pageNum = p) (hbefore : before.pageNum = some p)
    (hpage : scanner.pageNum = some p) (hcur : scanner.currentPageNum = before.currentPageNum)
    (hahead : Ahead filter visible recordSize size pages pool scanner here behind) :
    FetchedAhead recordSize size pages before (record :: here) behind (.success, pool, scanner)
  | behind (behind : List Record) (result : RC × DiskBufferPool × RecordFileScanner)
    (hbehind : FetchedBehind filter visible recordSize size pages behind result) :
    FetchedAhead recordSize size pages before [] behind result

variable {filter visible} {recordSize size : ℕ} {pages : PageNum → Memory} {pool : DiskBufferPool}
  {scanner : RecordFileScanner} {here behind : List Record}

/-! ## The rest of a page -/

theorem nextSlot_eq {page : Memory} {start : ℕ}
    (h : start = 0 ∨ RecordPageHandler.inUse page (start - 1) = true) :
    nextSlot page start = (slotsFrom page start).head? :=
  Bitmap.nextSettedBit_eq h

theorem nextSlot_succ {page : Memory} {start i : ℕ} {rest : List ℕ} (h : slotsFrom page start = i :: rest) :
    nextSlot page (i + 1) = rest.head? := by
  have hmem : i ∈ slotsFrom page start := by rw [h]; exact List.mem_cons_self
  have hbit : RecordPageHandler.inUse page (i + 1 - 1) = true := (Bitmap.mem_settedFrom.mp hmem).2.2
  rw [nextSlot_eq (Or.inr hbit), slotsFrom, ← Bitmap.settedFrom_tail h]

/-- Whether the loop of a page goes on behind a record. -/
theorem skipped_iff {record : Record} : (!filter record || decide (visiting visible record = .recordInvisible)) = true ↔
    wanted filter visible record = false := by
  unfold wanted visiting
  cases filter record <;> cases visible record <;> decide

theorem visiting_of_wanted {record : Record} (h : wanted filter visible record = true) :
    visiting visible record = .success := by
  unfold wanted at h
  exact if_pos (Bool.and_eq_true_iff.mp h).2

theorem slotsFrom_length_le (page : Memory) (start : ℕ) :
    (slotsFrom page start).length ≤ (PageHeader.recordCapacity page).toNat := by
  refine le_trans (List.length_filter_le _ _) ?_
  rw [List.length_range']
  omega

/-- The rest of a page has the next wanted record, or none. -/
theorem fetchNextRecordInPage_cases (filter visible : Record → Bool) (page : Memory) (pageNum : PageNum) {rounds start : ℕ}
    (hrounds : (slotsFrom page start).length ≤ rounds) :
    (wantedFrom filter visible page pageNum start = [] ∧
        fetchNextRecordInPage filter (visiting visible) page pageNum rounds (slotsFrom page start).head? =
          (.recordEof, none, none)) ∨
      ∃ i, wantedFrom filter visible page pageNum start =
          recordAt page pageNum i :: wantedFrom filter visible page pageNum (i + 1) ∧
        fetchNextRecordInPage filter (visiting visible) page pageNum rounds (slotsFrom page start).head? =
          (.success, some (recordAt page pageNum i), (slotsFrom page (i + 1)).head?) := by
  induction rounds generalizing start with
  | zero =>
    have hnil := List.length_eq_zero_iff.mp (Nat.le_zero.mp hrounds)
    rw [wantedFrom, hnil]
    exact Or.inl ⟨rfl, rfl⟩
  | succ rounds ih =>
    cases hslots : slotsFrom page start with
    | nil =>
      rw [wantedFrom, hslots]
      exact Or.inl ⟨rfl, rfl⟩
    | cons i rest =>
      have hrest : rest = slotsFrom page (i + 1) := Bitmap.settedFrom_tail hslots
      rw [hslots, List.length_cons, hrest] at hrounds
      rw [wantedFrom, hslots, hrest, List.map_cons, List.head?_cons, fetchNextRecordInPage, nextSlot_succ hslots, hrest]
      by_cases hwanted : wanted filter visible (recordAt page pageNum i) = true
      · have hnot : ¬(!filter (recordAt page pageNum i) ||
            decide (visiting visible (recordAt page pageNum i) = .recordInvisible)) = true := by
          rw [skipped_iff, hwanted]
          exact Bool.noConfusion
        rw [List.filter_cons_of_pos hwanted, if_neg hnot, visiting_of_wanted hwanted]
        exact Or.inr ⟨i, rfl, rfl⟩
      · rw [List.filter_cons_of_neg hwanted, if_pos (skipped_iff.mpr (Bool.eq_false_iff.mpr hwanted))]
        exact ih (Nat.le_of_succ_le_succ hrounds)

theorem fetchInPage_none (filter visible : Record → Bool) {p : PageNum} (hnext : scanner.nextSlotNum = none) :
    fetchInPage filter (visiting visible) pool scanner p =
      (.recordEof, { scanner with nextRecord := none, nextSlotNum := none }) := by
  rw [fetchInPage, hnext, fetchNextRecordInPage]

variable (scanner) in
theorem fetchInPage_cases (filter visible : Record → Bool) {p : PageNum} {start : ℕ} (hpage : pool.page p = pages p)
    (hnext : scanner.nextSlotNum = (slotsFrom (pages p) start).head?) :
    (wantedFrom filter visible (pages p) p start = [] ∧ fetchInPage filter (visiting visible) pool scanner p =
        (.recordEof, { scanner with nextRecord := none, nextSlotNum := none })) ∨
      ∃ i, wantedFrom filter visible (pages p) p start =
          recordAt (pages p) p i :: wantedFrom filter visible (pages p) p (i + 1) ∧
        fetchInPage filter (visiting visible) pool scanner p =
          (.success, { scanner with
            nextRecord := some (recordAt (pages p) p i), nextSlotNum := (slotsFrom (pages p) (i + 1)).head? }) := by
  rw [fetchInPage, hpage, hnext]
  rcases fetchNextRecordInPage_cases filter visible (pages p) p (slotsFrom_length_le (pages p) start) with
    ⟨hnil, hfetch⟩ | ⟨i, hcons, hfetch⟩
  · left
    rw [hfetch]
    exact ⟨hnil, rfl⟩
  · right
    rw [hfetch]
    exact ⟨i, hcons, rfl⟩

/-! ## The pages behind -/

section Pages

variable (hallocated : ∀ p, p < size → BPFileHeader.allocated (pages bpHeaderPage) p = true)

include hallocated

theorem nextPage_eq (h : Shows recordSize pool size pages) (hcount : scanner.pageCount = size) {cur : ℕ}
    (hcur : scanner.currentPageNum = cur) (hinside : cur < size) :
    nextPage pool scanner = (List.range' (cur + 1) (size - (cur + 1))).head? := by
  have hall : Bitmap.settedFrom (pages bpHeaderPage) 8 size (cur + 1) = List.range' (cur + 1) (size - (cur + 1)) := by
    apply List.filter_eq_self.mpr
    intro p hp
    rw [List.mem_range'_1] at hp
    exact hallocated p (by omega)
  have hbit : (pages bpHeaderPage).getBit 8 (cur + 1 - 1) = true := hallocated cur hinside
  rw [nextPage, h.page_eq, hcount, hcur, Bitmap.nextSettedBit_eq (Or.inr hbit), hall]

omit hallocated in
theorem recordsBehind_last {cur : ℕ} (h : ¬ cur + 1 < size) : recordsBehind size pages cur = [] := by
  have hzero : size - (cur + 1) = 0 := by omega
  rw [recordsBehind, hzero]
  rfl

omit hallocated in
theorem range_behind {cur : ℕ} (h : cur + 1 < size) :
    List.range' (cur + 1) (size - (cur + 1)) = (cur + 1) :: List.range' (cur + 1 + 1) (size - (cur + 1 + 1)) := by
  have hlength : size - (cur + 1) = size - (cur + 1 + 1) + 1 := by omega
  rw [hlength, List.range'_succ]

omit hallocated in
theorem recordsBehind_next {cur : ℕ} (h : cur + 1 < size) :
    recordsBehind size pages cur =
      (slotsFrom (pages (cur + 1)) 0).map (recordAt (pages (cur + 1)) (cur + 1)) ++ recordsBehind size pages (cur + 1) := by
  rw [recordsBehind, range_behind h, List.flatMap_cons, recordsBehind]

/-- The loop over the pages comes to the first wanted record behind the page it starts at. -/
theorem fetchPages_behind {rounds : ℕ} (h : Shows recordSize pool size pages) (hcount : scanner.pageCount = size)
    (hplace : scanner.pageNum = none ∨ scanner.nextSlotNum = none) {cur : ℕ} (hcur : scanner.currentPageNum = cur)
    (hinside : cur < size) (hrounds : size ≤ cur + rounds) :
    FetchedBehind filter visible recordSize size pages
      ((recordsBehind size pages cur).filter (wanted filter visible))
      (fetchPages filter (visiting visible) rounds pool scanner) := by
  induction rounds generalizing pool scanner cur with
  | zero => omega
  | succ rounds ih =>
    rw [fetchPages, nextPage_eq hallocated h hcount hcur hinside]
    by_cases hnext : cur + 1 < size
    · obtain ⟨dirty, pool', hget, -, hshows⟩ :=
        h.getThisPage_inside (Int.natCast_nonneg (cur + 1)) (Int.ofNat_lt.mpr hnext)
      rw [Int.toNat_natCast] at hget
      rw [range_behind hnext, List.head?_cons, Option.elim_some, hget, enterPage, nextSlot_eq (Or.inl rfl)]
      let entered : RecordFileScanner := { scanner with
        currentPageNum := cur + 1, pageNum := some (cur + 1), nextSlotNum := (slotsFrom (pages (cur + 1)) 0).head? }
      rcases fetchInPage_cases entered filter visible (hshows.page_eq (cur + 1)) rfl with
        ⟨hnil, hfetch⟩ | ⟨i, hcons, hfetch⟩
      · -- a page that has nothing for the scan
        have hnone : (recordsBehind size pages cur).filter (wanted filter visible) =
            (recordsBehind size pages (cur + 1)).filter (wanted filter visible) := by
          rw [wantedFrom] at hnil
          rw [recordsBehind_next hnext, List.filter_append, hnil, List.nil_append]
        rw [hfetch, orBehind, hnone]
        refine ih hshows ?_ (Or.inr rfl) ?_ hnext (by omega)
        · exact hcount
        · rfl
      · have hfound : (recordsBehind size pages cur).filter (wanted filter visible) =
            recordAt (pages (cur + 1)) (cur + 1) i :: (wantedFrom filter visible (pages (cur + 1)) (cur + 1) (i + 1) ++
              (recordsBehind size pages (cur + 1)).filter (wanted filter visible)) := by
          rw [wantedFrom] at hcons
          rw [recordsBehind_next hnext, List.filter_append, hcons, List.cons_append]
        rw [hfetch, orBehind, hfound]
        · exact .found _ _ _ pool' _ rfl ⟨cur + 1, rfl, rfl, rfl⟩
            ⟨hshows, hcount, hnext, Or.inr ⟨cur + 1, i + 1, rfl, rfl, rfl⟩, rfl⟩
        · exact fun heq => RC.noConfusion heq
    · have hzero : size - (cur + 1) = 0 := by omega
      have hlast : recordsBehind size pages cur = [] := recordsBehind_last hnext
      rw [hlast, hzero]
      refine FetchedBehind.eof pool _ rfl ⟨h, hcount, ?_, Or.inl ⟨hplace, rfl⟩, ?_⟩
      · exact hcur ▸ hinside
      · show [] = (recordsBehind size pages scanner.currentPageNum).filter (wanted filter visible)
        rw [hcur, hlast]
        rfl

/-- `fetch_next_record` comes to the first wanted record ahead. -/
theorem fetchNextRecord_ahead (h : Ahead filter visible recordSize size pages pool scanner here behind) :
    FetchedAhead filter visible recordSize size pages scanner here behind
      (fetchNextRecord filter (visiting visible) pool scanner) := by
  obtain ⟨hshows, hcount, hinside, hplace, rfl⟩ := h
  have hpages : ∀ scanner', scanner'.pageCount = size → scanner'.currentPageNum = scanner.currentPageNum →
      (scanner'.pageNum = none ∨ scanner'.nextSlotNum = none) →
      FetchedAhead filter visible recordSize size pages scanner []
        ((recordsBehind size pages scanner.currentPageNum).filter (wanted filter visible))
        (fetchPages filter (visiting visible) scanner.pageCount pool scanner') := by
    intro scanner' hcount' hcur' hdone
    exact .behind _ _ (fetchPages_behind hallocated hshows hcount' hdone hcur' hinside (by rw [hcount]; omega))
  unfold fetchNextRecord
  rcases hplace with ⟨hdone, rfl⟩ | ⟨p, start, hpage, hnext, rfl⟩
  · cases hpage : scanner.pageNum with
    | none => exact hpages scanner hcount rfl (Or.inl hpage)
    | some p =>
      rw [hpage] at hdone
      have hnext := hdone.resolve_left (by simp)
      dsimp only
      rw [fetchInPage_none filter visible hnext, orBehind]
      exact hpages _ hcount rfl (Or.inr rfl)
  · rw [hpage]
    dsimp only
    rcases fetchInPage_cases scanner filter visible (hshows.page_eq p) hnext with ⟨hnil, hfetch⟩ | ⟨i, hcons, hfetch⟩
    · rw [hfetch, orBehind, hnil]
      exact hpages _ hcount rfl (Or.inr rfl)
    · rw [hfetch, orBehind, hcons]
      · exact .here _ _ _ pool _ p rfl rfl hpage hpage rfl
          ⟨hshows, hcount, hinside, Or.inr ⟨p, i + 1, hpage, rfl, rfl⟩, rfl⟩
      · exact fun heq => RC.noConfusion heq

end Pages

/-- The rest of a scan. -/
theorem collect_ahead (hallocated : ∀ p, p < size → BPFileHeader.allocated (pages bpHeaderPage) p = true)
    (todo : List Record) {before : RecordFileScanner} {result : RC × DiskBufferPool × RecordFileScanner}
    (h : FetchedAhead filter visible recordSize size pages before here behind result) (htodo : todo = here ++ behind)
    {rounds : ℕ} (hrounds : todo.length ≤ rounds) :
    collect filter (visiting visible) rounds (endOk result.1, result.2) = some todo := by
  induction todo generalizing before here behind result rounds with
  | nil =>
    obtain ⟨rfl, rfl⟩ := List.append_eq_nil_iff.mp htodo.symm
    cases h with
    | behind _ _ hbehind =>
      cases hbehind with
      | eof pool scanner hnone hahead =>
        show collect filter (visiting visible) rounds (.success, pool, scanner) = some []
        rw [collect.eq_def]
        dsimp only
        rw [hnone]
  | cons record todo ih =>
    obtain ⟨n, rfl⟩ : ∃ n, rounds = n + 1 := Nat.exists_eq_succ_of_ne_zero (by rw [List.length_cons] at hrounds; omega)
    have hlength : todo.length ≤ n := by
      rw [List.length_cons] at hrounds
      omega
    have hround : ∀ pool scanner here' behind', scanner.nextRecord = some record → todo = here' ++ behind' →
        Ahead filter visible recordSize size pages pool scanner here' behind' →
        collect filter (visiting visible) (n + 1) (.success, pool, scanner) = some (record :: todo) := by
      intro pool scanner here' behind' hrecord htodo' hahead
      have hrest := ih (fetchNextRecord_ahead hallocated hahead) htodo' hlength
      rw [collect.eq_def]
      dsimp only
      rw [hrecord]
      dsimp only
      rw [next, hrest]
      rfl
    cases h with
    | here record' here behind pool scanner p hrecord hrid hbefore hpage hcur hahead =>
      obtain ⟨rfl, htodo'⟩ := List.cons.inj htodo
      exact hround pool scanner here behind hrecord htodo' hahead
    | behind _ _ hbehind =>
      rw [List.nil_append] at htodo
      cases hbehind with
      | eof => cases htodo
      | found record' here behind pool scanner hrecord hat hahead =>
        obtain ⟨rfl, htodo'⟩ := List.cons.inj htodo
        exact hround pool scanner here behind hrecord htodo' hahead

/-! ## Scans of a file -/

theorem liveRecords_eq (hshows : Shows recordSize pool size pages)
    (hcount : BPFileHeader.pageCount (pages bpHeaderPage) = size) :
    liveRecords pool = recordsBehind size pages bpHeaderPage := by
  have hpages : pool.page = pages := funext hshows.page_eq
  rw [liveRecords, hpages, hcount, Int.toNat_natCast]

variable (filter visible scanner) in
/-- A scanner that starts at the first page, whatever is left in the page of its iterator. -/
theorem ahead_first (hshows : Shows recordSize pool size pages) (hcount : BPFileHeader.pageCount (pages bpHeaderPage) = size)
    (hsize : 0 < size)
    (hplace : ((scanner.pageNum = none ∨ scanner.nextSlotNum = none) ∧ here = []) ∨
      ∃ p start, scanner.pageNum = some p ∧ scanner.nextSlotNum = (slotsFrom (pages p) start).head? ∧
        here = wantedFrom filter visible (pages p) p start) :
    Ahead filter visible recordSize size pages pool (scanner.initIterator pool) here
      (wantedRecords filter visible pool) := by
  refine ⟨hshows, ?_, hsize, hplace, ?_⟩
  · show (BPFileHeader.pageCount (pool.page bpHeaderPage)).toNat = size
    rw [hshows.page_eq, hcount, Int.toNat_natCast]
  · rw [wantedRecords, liveRecords_eq hshows hcount]
    rfl

end Ahead

section

variable {recordSize : ℕ} {s : RecordFileHandler} {store : Store}

/-- The file behind a handler that keeps a map, as its scans find it. -/
structure Scannable (recordSize : ℕ) (pool : DiskBufferPool) (size : ℕ) (pages : PageNum → Memory) : Prop where
  shows : Shows recordSize pool size pages
  count : BPFileHeader.pageCount (pages bpHeaderPage) = size
  pos : 0 < size
  allocated : ∀ p, p < size → BPFileHeader.allocated (pages bpHeaderPage) p = true

theorem scannable_of_keeps (h : Keeps recordSize s store) : ∃ size pages, Scannable recordSize s.pool size pages := by
  obtain ⟨size, pages, hshows, hstored, -⟩ := h
  have hpos := hstored.header.pos
  rw [hstored.count] at hpos
  exact ⟨size, pages, hshows, hstored.count, by exact_mod_cast hpos, hstored.allocated⟩

/-- A new scan has the records of the file behind it. -/
theorem fetched_open {pool : DiskBufferPool} {size : ℕ} {pages : PageNum → Memory} (h : Scannable recordSize pool size pages)
    (filter visible : Record → Bool) :
    FetchedAhead filter visible recordSize size pages (initIterator pool ⟨0, 0, none, none, none⟩) []
      (wantedRecords filter visible pool)
      (fetchNextRecord filter (visiting visible) pool (initIterator pool ⟨0, 0, none, none, none⟩)) :=
  fetchNextRecord_ahead h.allocated
    (ahead_first filter visible ⟨0, 0, none, none, none⟩ h.shows h.count h.pos (Or.inl ⟨Or.inl rfl, rfl⟩))

/-- The scans of a file that nothing is taken from hand out what they are about. -/
theorem scan_eq {pool : DiskBufferPool} {size : ℕ} {pages : PageNum → Memory} (h : Scannable recordSize pool size pages)
    (filter visible : Record → Bool) {rounds : ℕ} (hrounds : (wantedRecords filter visible pool).length ≤ rounds) :
    scan filter (visiting visible) rounds pool = some (wantedRecords filter visible pool) := by
  have hcollect := collect_ahead h.allocated (wantedRecords filter visible pool) (fetched_open h filter visible)
    (List.nil_append _).symm hrounds
  rw [scan, openScan_eq]
  exact hcollect

theorem wantedRecords_every (pool : DiskBufferPool) : wantedRecords everyRecord (fun _ => true) pool = liveRecords pool :=
  List.filter_eq_self.mpr fun _ _ => rfl

/-- The records of a file are the map, in the order of pages and slots. -/
theorem liveRecords_spec (h : Keeps recordSize s store) :
    (liveRecords s.pool).Pairwise (fun a b => Precedes a.rid b.rid) ∧
      ∀ rid data, store rid = some data ↔ ∃ r ∈ liveRecords s.pool, r.rid = rid ∧ r.data.read 0 recordSize = data := by
  obtain ⟨size, pages, hshows, hstored, -⟩ := h
  have hread : ∀ p i, 1 ≤ p → p < size →
      (recordAt (pages p) p i).data.read 0 recordSize = RecordPageHandler.record (pages p) i := by
    intro p i hpos hp
    have hlaid := (hstored.holds p hpos hp).laid
    rw [hlaid.record_eq]
    apply List.map_congr_left
    intro j _
    rw [recordAt, hlaid.getRecordData_eq, Nat.zero_add]
  rw [liveRecords_eq hshows hstored.count]
  refine ⟨recordsBehind_sorted size pages bpHeaderPage, fun rid data => ?_⟩
  constructor
  · intro hdata
    obtain ⟨hpos, hlt, hslot⟩ := hstored.live rid (by rw [hdata]; rfl)
    obtain ⟨p, hp⟩ := Int.eq_ofNat_of_zero_le (le_trans Int.one_nonneg hpos)
    obtain ⟨i, hi⟩ := Int.eq_ofNat_of_zero_le hslot
    obtain rfl : rid = ⟨p, i⟩ := by
      cases rid
      exact congrArg₂ RID.mk hp hi
    have hpos' : 1 ≤ p := Int.ofNat_le.mp hpos
    have hlt' : p < size := Int.ofNat_lt.mp hlt
    have hmem := (hstored.mem_slotsFrom hpos' hlt').mpr (by rw [hdata]; rfl)
    refine ⟨_, mem_recordsBehind.mpr ⟨p, i, hpos', hlt', hmem, rfl⟩, rfl, ?_⟩
    rw [hread p i hpos' hlt']
    exact (hstored.holds p hpos' hlt').bytes i data hdata
  · rintro ⟨r, hr, rfl, rfl⟩
    obtain ⟨p, i, hpos, hp, hi, rfl⟩ := mem_recordsBehind.mp hr
    obtain ⟨d, hd⟩ := Option.isSome_iff_exists.mp ((hstored.mem_slotsFrom hpos hp).mp hi)
    rw [hread p i hpos hp, (hstored.holds p hpos hp).bytes i d hd]
    exact hd

/-- A scan hands out the map, in the order of pages and slots. -/
theorem scan_spec (h : Keeps recordSize s store) :
    ∃ records : List Record,
      (∀ rounds, records.length ≤ rounds → scan everyRecord noTrx rounds s.pool = some records) ∧
      records.Pairwise (fun a b => Precedes a.rid b.rid) ∧
      ∀ rid data, store rid = some data ↔ ∃ r ∈ records, r.rid = rid ∧ r.data.read 0 recordSize = data := by
  obtain ⟨size, pages, hscan⟩ := scannable_of_keeps h
  refine ⟨liveRecords s.pool, fun rounds hrounds => ?_, liveRecords_spec h⟩
  rw [← wantedRecords_every] at hrounds ⊢
  exact scan_eq hscan everyRecord (fun _ => true) hrounds

end

/-! ## The record store -/

/-- The handler answers as the map does: a call succeeds on identifiers in use and fails on others, an insertion gives an
identifier that was not in use unless the file is full, a visitor finds the bytes that the map has, `record_num` counts the
bits of each page, and a scan hands out the map in order. -/
structure Refines (recordSize : ℕ) (s : RecordFileHandler) (store : Store) : Prop where
  calls : ∀ call : Call, call.Allowed s.freePages → ∃ answer s', s.call recordSize call = some (answer, s') ∧
    Answers (BPFileHeader.full (s.pool.page bpHeaderPage)) store call answer
  count : ∀ p, 1 ≤ p → p < s.pool.size → PageHeader.recordNum (s.pool.page p) =
    (usedSlots (s.pool.page p) (PageHeader.recordCapacity (s.pool.page p)).toNat).card
  scans : ∃ records : List Record,
    (∀ rounds, records.length ≤ rounds → RecordFileScanner.scan everyRecord noTrx rounds s.pool = some records) ∧
    records.Pairwise (fun a b => Precedes a.rid b.rid) ∧
    ∀ rid data, store rid = some data ↔ ∃ r ∈ records, r.rid = rid ∧ r.data.read 0 recordSize = data

/-- In every run on a new file, for records of which one fits in a page, the handler refines the map. -/
theorem run_refines_store {recordSize : ℕ} (hfits : Fits recordSize) {s : RecordFileHandler} {store : Store}
    (hrun : Run recordSize s store) : Refines recordSize s store := by
  have hkeeps := hrun.keeps hfits
  refine ⟨?_, ?_, scan_spec hkeeps⟩
  · intro call hallowed
    obtain ⟨answer, s', hcall, hanswers, -⟩ := call_spec hfits hkeeps hallowed
    exact ⟨answer, s', hcall, hanswers⟩
  · intro p hpos hp
    obtain ⟨size, pages, hshows, hvalid⟩ := hkeeps
    rw [hshows.size_eq] at hp
    have hholds := hvalid.1.holds p hpos hp
    rw [hshows.page_eq, hholds.laid.capacity, Int.toNat_natCast, hholds.num]

/-- Three records of 250000 bytes, which take two pages; one of them is updated and one is deleted. -/
theorem run_refines_store_three :
    let calls := [Call.insertRecord (fun _ => 1) [], .insertRecord (fun _ => 2) [1], .insertRecord (fun _ => 3) [1],
      .updateRecord (fun _ => 4) ⟨1, 1⟩, .deleteRecord ⟨1, 0⟩]
    ∃ s store, runCalls 250000 .create (fun _ => none) calls = some (s, store) ∧
      [⟨1, 0⟩, ⟨1, 1⟩, ⟨2, 0⟩].map (fun rid => (store rid).isSome) = [false, true, true] ∧ Refines 250000 s store := by
  intro calls
  obtain ⟨⟨s, store⟩, hcalls, hstore⟩ := Option.map_eq_some_iff.mp (show (runCalls 250000 .create (fun _ => none) calls).map
    (fun r => [⟨1, 0⟩, ⟨1, 1⟩, ⟨2, 0⟩].map fun rid => (r.2 rid).isSome) = some [false, true, true] by decide +kernel)
  exact ⟨s, store, hcalls, hstore, run_refines_store (by decide) (Run.create.runCalls hcalls)⟩

end Landbase.RecordManager
