import Landbase.Storage.RecordScan

/-! # Scans of a file that is changed on the way

`DELETE` and `UPDATE` change the record that a scan has handed out last, while `RecordFileScanner` has fetched the next one
already. What it still has ahead are the records in use behind that one, whatever becomes of the records before it.
-/

namespace Landbase.RecordManager
open Lib Buffer RecordFileScanner
set_option autoImplicit false

variable {recordSize size : ℕ} {pages pages' : PageNum → Memory} {store store' : Store} {s : RecordFileHandler}
  {scanner : RecordFileScanner} {here behind : List Record}

/-! ## The size of a file -/

theorem getThisPage_size (pool : DiskBufferPool) (p : ℤ) : (pool.getThisPage p).2.2.size = pool.size := by
  unfold DiskBufferPool.getThisPage
  split
  · rfl
  · split
    · rfl
    · split <;> rfl

theorem flushPage_size (pool : DiskBufferPool) (p : PageNum) : (pool.flushPage p).size = max pool.size (p + 1) := rfl

namespace RecordFileHandler

variable {file file' : RecordFileHandler} {data : Memory} {rid : RID} {rc : RC}

theorem updateRecord_size (h : file.updateRecord data rid = some (rc, file')) : file'.pool.size = file.pool.size := by
  rw [← getThisPage_size file.pool rid.pageNum]
  unfold updateRecord onPage at h
  split at h
  · next heq =>
    obtain ⟨r, -, hr⟩ := Option.map_eq_some_iff.mp h
    obtain ⟨-, rfl⟩ := Prod.mk.inj hr
    rw [heq]
    rfl
  · next heq =>
    obtain ⟨-, rfl⟩ := Prod.mk.inj (Option.some.inj h)
    rw [heq]

theorem deleteRecord_size (h : file.deleteRecord rid = some (rc, file')) : file'.pool.size = file.pool.size := by
  rw [← getThisPage_size file.pool rid.pageNum]
  unfold deleteRecord onPage at h
  split at h
  · next heq =>
    obtain ⟨r, -, hr⟩ := Option.map_eq_some_iff.mp h
    obtain ⟨-, rfl⟩ := Prod.mk.inj hr
    rw [heq]
    rfl
  · next heq =>
    obtain ⟨-, rfl⟩ := Prod.mk.inj (Option.some.inj h)
    rw [heq]

theorem findPage_size (pool : DiskBufferPool) (order : List PageNum) : (findPage pool order).2.2.1.size = pool.size := by
  induction order generalizing pool with
  | nil => rfl
  | cons p rest ih =>
    have hsize := getThisPage_size pool p
    unfold findPage
    split
    · next heq =>
      rw [heq] at hsize
      split
      · rw [ih, ← hsize]
      · exact hsize
    · next heq =>
      rw [heq] at hsize
      exact hsize

theorem insertInto_size {pool : DiskBufferPool} {free : Finset PageNum} {p : PageNum} {rid : Option RID}
    (h : insertInto pool free p data = some (rc, rid, file')) : file'.pool.size = pool.size := by
  obtain ⟨r, -, hr⟩ := Option.map_eq_some_iff.mp h
  obtain ⟨-, hr⟩ := Prod.mk.inj hr
  obtain ⟨-, rfl⟩ := Prod.mk.inj hr
  rfl

theorem allocatePage_size (pool : DiskBufferPool) : pool.size ≤ pool.allocatePage.2.2.size := by
  unfold DiskBufferPool.allocatePage
  cases BPFileHeader.freePage (pool.page bpHeaderPage) with
  | some i =>
    have hsize := getThisPage_size (pool.setFrame bpHeaderPage ⟨BPFileHeader.mark (pool.page bpHeaderPage) i, true⟩) i
    rw [DiskBufferPool.allocateFound]
    split
    · next heq =>
      rw [heq] at hsize
      exact hsize.ge
    · next heq =>
      rw [heq] at hsize
      exact hsize.ge
  | none =>
    rw [DiskBufferPool.allocateFound]
    cases BPFileHeader.full (pool.page bpHeaderPage) with
    | true => exact le_rfl
    | false =>
      rw [if_neg Bool.false_ne_true, flushPage_size]
      exact le_max_left _ _

theorem insertNew_size {recordSize : ℕ} {free : Finset PageNum} {r : RC × Option PageNum × DiskBufferPool} {rid : Option RID}
    (h : insertNew free data recordSize r = some (rc, rid, file')) : r.2.2.size ≤ file'.pool.size := by
  unfold insertNew at h
  split at h
  · next p pool =>
    have hsize := insertInto_size h
    rw [flushPage_size] at hsize
    rw [hsize]
    exact le_max_left _ _
  · obtain ⟨-, h⟩ := Prod.mk.inj (Option.some.inj h)
    obtain ⟨-, rfl⟩ := Prod.mk.inj h
    exact le_rfl

/-- An insertion takes no page away. -/
theorem insertRecord_size {recordSize : ℕ} {order : List PageNum} {rid : Option RID}
    (h : file.insertRecord data recordSize order = some (rc, rid, file')) : file.pool.size ≤ file'.pool.size := by
  rw [← findPage_size file.pool order]
  unfold insertRecord insertFound at h
  split at h
  · next heq =>
    rw [heq]
    exact (insertInto_size h).ge
  · next pool _ heq =>
    rw [heq]
    exact (allocatePage_size pool).trans (insertNew_size h)
  · next heq =>
    obtain ⟨-, h⟩ := Prod.mk.inj (Option.some.inj h)
    obtain ⟨-, rfl⟩ := Prod.mk.inj h
    rw [heq]

end RecordFileHandler

/-! ## Slots -/

namespace Stored

theorem mem_slots (h : Stored recordSize size pages store) {p : ℕ} (hpos : 1 ≤ p) (hp : p < size) {start i : ℕ} :
    i ∈ slotsFrom (pages p) start ↔ start ≤ i ∧ (store ⟨p, i⟩).isSome = true := by
  rw [← h.mem_slotsFrom hpos hp, slotsFrom, slotsFrom, Bitmap.mem_settedFrom, Bitmap.mem_settedFrom]
  exact and_congr_right fun _ => (and_iff_right (Nat.zero_le i)).symm

/-- The slots in use from some slot on depend on nothing but their records in the map. -/
theorem slotsFrom_congr (h : Stored recordSize size pages store) (h' : Stored recordSize size pages' store') {p : ℕ}
    (hpos : 1 ≤ p) (hp : p < size) {start : ℕ}
    (hsame : ∀ i : ℕ, start ≤ i → (store' ⟨p, i⟩).isSome = (store ⟨p, i⟩).isSome) :
    slotsFrom (pages' p) start = slotsFrom (pages p) start := by
  have hholds := h.holds p hpos hp
  have hholds' := h'.holds p hpos hp
  rw [slotsFrom, slotsFrom, hholds.laid.capacity, hholds'.laid.capacity]
  refine List.filter_congr fun i hi => ?_
  rw [List.mem_range'_1] at hi
  rw [Int.toNat_natCast] at hi
  exact (hholds'.used i (by omega)).trans ((hsame i hi.1).trans (hholds.used i (by omega)).symm)

/-- The record of a slot in use has the bytes of the map. -/
theorem recordAt_read (h : Stored recordSize size pages store) {p : ℕ} (hpos : 1 ≤ p) (hp : p < size) {start i : ℕ}
    (hi : i ∈ slotsFrom (pages p) start) : store ⟨p, i⟩ = some ((recordAt (pages p) p i).data.read 0 recordSize) := by
  have hholds := h.holds p hpos hp
  obtain ⟨data, hdata⟩ := Option.isSome_iff_exists.mp ((h.mem_slots hpos hp).mp hi).2
  have hread : (recordAt (pages p) p i).data.read 0 recordSize = RecordPageHandler.record (pages p) i := by
    rw [hholds.laid.record_eq]
    apply List.map_congr_left
    intro j _
    rw [recordAt, hholds.laid.getRecordData_eq, Nat.zero_add]
  rw [hdata, hread, hholds.bytes i data hdata]

end Stored

/-! ## What is ahead -/

/-- The identifiers of records in the slots of a page. -/
def slotRids (p : PageNum) (slots : List ℕ) : List RID := slots.map fun i : ℕ => ⟨p, i⟩

theorem filter_every (l : List Record) : l.filter (wanted everyRecord fun _ => true) = l :=
  List.filter_eq_self.mpr fun _ _ => rfl

theorem rids_wantedFrom (page : Memory) (p : PageNum) (start : ℕ) :
    (wantedFrom everyRecord (fun _ => true) page p start).map Record.rid = slotRids p (slotsFrom page start) := by
  rw [wantedFrom, filter_every, List.map_map]
  rfl

theorem rids_recordsBehind (size : ℕ) (pages : PageNum → Memory) (cur : PageNum) :
    ((recordsBehind size pages cur).filter (wanted everyRecord fun _ => true)).map Record.rid =
      (List.range' (cur + 1) (size - (cur + 1))).flatMap fun q => slotRids q (slotsFrom (pages q) 0) := by
  rw [filter_every, recordsBehind, List.map_flatMap]
  refine congrArg (fun f => List.flatMap f _) (funext fun q => ?_)
  rw [List.map_map]
  rfl

/-- A scan is on its way over the file of a handler that keeps the map: it has fetched the first of some records, and the
others are ahead. -/
inductive Scanning (recordSize : ℕ) (store : Store) (s : RecordFileHandler) (scanner : RecordFileScanner) : List RID → Prop
  | done (hkeeps : Keeps recordSize s store) (hnone : scanner.nextRecord = none) : Scanning recordSize store s scanner []
  | fetched {size : ℕ} {pages : PageNum → Memory} {here behind : List Record} {record : Record}
    (hvalid : Valid recordSize size pages s.freePages store)
    (hahead : Ahead everyRecord (fun _ => true) recordSize size pages s.pool scanner here behind)
    (hrecord : scanner.nextRecord = some record) (hat : AtRecord scanner record)
    (hstored : store record.rid = some (record.data.read 0 recordSize)) :
    Scanning recordSize store s scanner (record.rid :: (here ++ behind).map Record.rid)

/-- The records ahead have the bytes of the map. -/
theorem stored_ahead (hstored : Stored recordSize size pages store) {pool : DiskBufferPool}
    (hahead : Ahead everyRecord (fun _ => true) recordSize size pages pool scanner here behind)
    (hpage : ∀ p, scanner.pageNum = some p → 1 ≤ p ∧ p < size) :
    ∀ r ∈ here ++ behind, store r.rid = some (r.data.read 0 recordSize) := by
  intro r hr
  obtain ⟨-, -, -, hplace, rfl⟩ := hahead
  cases List.mem_append.mp hr with
  | inl hmem =>
    rcases hplace with ⟨-, rfl⟩ | ⟨p, start, hp, -, rfl⟩
    · exact absurd hmem List.not_mem_nil
    · obtain ⟨i, hi, rfl⟩ := List.mem_map.mp (List.mem_of_mem_filter hmem)
      exact hstored.recordAt_read (hpage p hp).1 (hpage p hp).2 hi
  | inr hmem =>
    obtain ⟨q, hq, hmem⟩ := List.mem_flatMap.mp (List.mem_of_mem_filter hmem)
    obtain ⟨i, hi, rfl⟩ := List.mem_map.mp hmem
    rw [List.mem_range'_1] at hq
    exact hstored.recordAt_read (by omega) (by omega) hi

/-- What `fetch_next_record` leaves. -/
theorem scanning_of_fetched {free : Finset PageNum} (hvalid : Valid recordSize size pages free store)
    {before : RecordFileScanner} {result : RC × DiskBufferPool × RecordFileScanner}
    (h : FetchedAhead everyRecord (fun _ => true) recordSize size pages before here behind result)
    (haligned : here ≠ [] → ∀ p, before.pageNum = some p → before.currentPageNum = p)
    (hstored : ∀ r ∈ here ++ behind, store r.rid = some (r.data.read 0 recordSize)) :
    ∃ pool scanner, (endOk result.1, result.2) = (.success, pool, scanner) ∧
      Scanning recordSize store ⟨pool, free⟩ scanner ((here ++ behind).map Record.rid) := by
  cases h with
  | here record here behind pool scanner p hrecord hrid hbefore hpage hcur hahead =>
    refine ⟨pool, scanner, rfl, .fetched hvalid hahead hrecord ⟨p, hpage, ?_, hrid⟩ (hstored _ List.mem_cons_self)⟩
    exact hcur.trans (haligned (List.cons_ne_nil _ _) p hbefore)
  | behind behind result hbehind =>
    cases hbehind with
    | eof pool scanner hnone hahead => exact ⟨pool, scanner, rfl, .done ⟨size, pages, hahead.shows, hvalid⟩ hnone⟩
    | found record here behind pool scanner hrecord hat hahead =>
      exact ⟨pool, scanner, rfl, .fetched hvalid hahead hrecord hat (hstored _ List.mem_cons_self)⟩

/-- A new scan has all records ahead of it. -/
theorem scanning_open (h : Keeps recordSize s store) :
    ∃ pool scanner, openScan everyRecord noTrx s.pool = (.success, pool, scanner) ∧
      Scanning recordSize store { s with pool := pool } scanner ((liveRecords s.pool).map Record.rid) := by
  obtain ⟨size, pages, hshows, hvalid⟩ := h
  have hpos := hvalid.1.header.pos
  rw [hvalid.1.count] at hpos
  have hahead := ahead_first everyRecord (fun _ => true) ⟨0, 0, none, none, none⟩ hshows hvalid.1.count (by exact_mod_cast hpos)
    (Or.inl ⟨Or.inl rfl, rfl⟩)
  have hvisit : noTrx = visiting fun _ => true := rfl
  rw [wantedRecords_every] at hahead
  have hstored := stored_ahead hvalid.1 hahead fun _ hp => nomatch hp
  obtain ⟨pool, scanner, hfetch, hscanning⟩ := scanning_of_fetched hvalid
    (fetchNextRecord_ahead hvalid.1.allocated hahead) (fun hne => absurd rfl hne) hstored
  rw [List.nil_append] at hscanning
  rw [openScan_eq, hvisit]
  exact ⟨pool, scanner, hfetch, hscanning⟩

namespace Scanning

variable {todo : List RID}

theorem keeps (h : Scanning recordSize store s scanner todo) : Keeps recordSize s store := by
  cases h with
  | done hkeeps => exact hkeeps
  | fetched hvalid hahead => exact ⟨_, _, hahead.shows, hvalid⟩

theorem page_bounds (hvalid : Valid recordSize size pages s.freePages store)
    (hahead : Ahead everyRecord (fun _ => true) recordSize size pages s.pool scanner here behind) {record : Record}
    (hat : AtRecord scanner record) (hstored : store record.rid = some (record.data.read 0 recordSize)) {p : PageNum}
    (hp : scanner.pageNum = some p) : 1 ≤ p ∧ p < size := by
  obtain ⟨q, hq, hcur, hrid⟩ := hat
  obtain rfl := Option.some.inj (hp.symm.trans hq)
  have hlive := hvalid.1.live record.rid (by rw [hstored]; rfl)
  have hinside := hahead.inside
  rw [hcur] at hinside
  rw [hrid] at hlive
  exact ⟨by exact_mod_cast hlive.1, hinside⟩

/-- `next` hands out the first of the records. -/
theorem next {rid : RID} (h : Scanning recordSize store s scanner (rid :: todo)) :
    ∃ record pool scanner', scanner.nextRecord = some record ∧ record.rid = rid ∧
      store rid = some (record.data.read 0 recordSize) ∧
      RecordFileScanner.next everyRecord noTrx s.pool scanner = (.success, pool, scanner') ∧
      Scanning recordSize store { s with pool := pool } scanner' todo := by
  cases h with
  | @fetched size pages here behind record hvalid hahead hrecord hat hstored =>
    obtain ⟨pool, scanner', hnext, hscanning⟩ := scanning_of_fetched hvalid
      (fetchNextRecord_ahead hvalid.1.allocated hahead) (fun _ p hp => by
        obtain ⟨q, hq, hcur, -⟩ := hat
        rw [hcur, Option.some.inj (hp.symm.trans hq)])
      (stored_ahead hvalid.1 hahead fun p hp => page_bounds hvalid hahead hat hstored hp)
    exact ⟨record, pool, scanner', hrecord, rfl, hstored, hnext, hscanning⟩

/-- The records ahead stay ahead when other records are changed and none is new. -/
theorem modify (h : Scanning recordSize store s scanner todo) {s' : RecordFileHandler} (hkeeps : Keeps recordSize s' store')
    (hsize : s'.pool.size = s.pool.size) (hsame : ∀ rid ∈ todo, store' rid = store rid)
    (hnew : ∀ rid, store rid = none → store' rid = none) : Scanning recordSize store' s' scanner todo := by
  cases h with
  | done _ hnone => exact .done hkeeps hnone
  | @fetched size pages here behind record hvalid hahead hrecord hat hstored =>
    obtain ⟨size', pages', hshows', hvalid'⟩ := hkeeps
    obtain rfl : size' = size := by rw [← hshows'.size_eq, hsize, hahead.shows.size_eq]
    have hslots : ∀ p start : ℕ, 1 ≤ p → p < size' →
        (∀ rid ∈ slotRids p (slotsFrom (pages p) start), rid ∈ (here ++ behind).map Record.rid) →
          slotsFrom (pages' p) start = slotsFrom (pages p) start := by
      intro p start hpos hp hmem
      refine hvalid.1.slotsFrom_congr hvalid'.1 hpos hp fun i hi => ?_
      cases hlive : store ⟨p, i⟩ with
      | none => rw [hnew _ hlive]
      | some data =>
        have hslot := (hvalid.1.mem_slots hpos hp).mpr ⟨hi, by rw [hlive]; rfl⟩
        rw [hsame _ (List.mem_cons_of_mem _ (hmem _ (List.mem_map_of_mem hslot))), hlive]
    have hbounds : ∀ p, scanner.pageNum = some p → 1 ≤ p ∧ p < size' := fun p hp =>
      page_bounds hvalid hahead hat hstored hp
    obtain ⟨-, hcount, hinside, hplace, rfl⟩ := hahead
    have hlater : ∀ q ∈ List.range' (scanner.currentPageNum + 1) (size' - (scanner.currentPageNum + 1)),
        slotsFrom (pages' q) 0 = slotsFrom (pages q) 0 := by
      intro q hq
      have hq' := List.mem_range'_1.mp hq
      refine hslots q 0 (by omega) (by omega) fun rid hrid => ?_
      rw [List.map_append, rids_recordsBehind]
      exact List.mem_append_right _ (List.mem_flatMap.mpr ⟨q, hq, hrid⟩)
    have hbehind : ((recordsBehind size' pages' scanner.currentPageNum).filter (wanted everyRecord fun _ => true)).map Record.rid =
        ((recordsBehind size' pages scanner.currentPageNum).filter (wanted everyRecord fun _ => true)).map Record.rid := by
      rw [rids_recordsBehind, rids_recordsBehind]
      exact List.flatMap_congr fun q hq => congrArg (slotRids q) (hlater q hq)
    rw [List.map_append, ← hbehind]
    rcases hplace with ⟨hdone, rfl⟩ | ⟨p, start, hpage, hnext, rfl⟩
    · have hstored' := hstored
      rw [← hsame _ List.mem_cons_self] at hstored'
      rw [List.map_nil, List.nil_append, ← List.nil_append (List.filter _ _)]
      exact .fetched hvalid' ⟨hshows', hcount, hinside, .inl ⟨hdone, rfl⟩, rfl⟩ hrecord hat hstored'
    · have hhere : slotsFrom (pages' p) start = slotsFrom (pages p) start := by
        refine hslots p start (hbounds p hpage).1 (hbounds p hpage).2 fun rid hrid => ?_
        rw [List.map_append, rids_wantedFrom]
        exact List.mem_append_left _ hrid
      have hstored' := hstored
      rw [← hsame _ List.mem_cons_self] at hstored'
      rw [rids_wantedFrom, ← hhere, ← rids_wantedFrom, ← List.map_append]
      exact .fetched hvalid' ⟨hshows', hcount, hinside, .inr ⟨p, start, hpage, hhere ▸ hnext, rfl⟩, rfl⟩ hrecord hat hstored'

end Scanning

end Landbase.RecordManager
