import Landbase.Storage.ReopenedScan

/-! # The page that a scan holds

The data of a record is a pointer into the frame of its page, which `record_page_handler_` keeps pinned and latched. Before
`next` returns it fetches the record behind the one that it hands out; when that one is in another page, or when there is
none, the page of the record handed out has been let go of (`staysPinned_iff`).
-/

namespace Landbase.RecordManager
open Lib Buffer RecordFileScanner
set_option autoImplicit false

/-- A scanner with the page whose frame `record_page_handler_` has pinned and latched. -/
structure HeldScanner where
  scanner : RecordFileScanner
  handler : Option PageNum

namespace HeldScanner

section

variable (filter : Record → Bool) (visit : Record → RC)

/-- The result of a page, or of what comes behind it when the page has come to its end. -/
def orBehind (behind : DiskBufferPool → HeldScanner → RC × DiskBufferPool × HeldScanner) (pool : DiskBufferPool)
    (handler : Option PageNum) : RC × RecordFileScanner → RC × DiskBufferPool × HeldScanner
  | (.recordEof, scanner) => behind pool ⟨scanner, handler⟩
  | (rc, scanner) => (rc, pool, ⟨scanner, handler⟩)

/-- A round of the loop of `fetch_next_record`: `cleanup` lets go of the page before, and `init` takes this one. -/
def enterPage (behind : DiskBufferPool → HeldScanner → RC × DiskBufferPool × HeldScanner) (scanner : RecordFileScanner)
    (pageNum : PageNum) : RC × Option Frame × DiskBufferPool → RC × DiskBufferPool × HeldScanner
  | (.success, some frame, pool) =>
    orBehind behind pool (some pageNum) (fetchInPage filter visit pool
      { scanner with currentPageNum := pageNum, pageNum := some pageNum, nextSlotNum := nextSlot frame.data 0 } pageNum)
  | (rc, _, pool) => (rc, pool, ⟨{ scanner with currentPageNum := pageNum }, none⟩)

/-- The end of `fetch_next_record`, which lets go of the last page. -/
def endOfFile (pool : DiskBufferPool) (s : HeldScanner) : RC × DiskBufferPool × HeldScanner :=
  (.recordEof, pool, ⟨{ s.scanner with nextRecord := none }, none⟩)

/-- The loop of `fetch_next_record` over the pages. -/
def fetchPages : ℕ → DiskBufferPool → HeldScanner → RC × DiskBufferPool × HeldScanner
  | 0, pool, s => endOfFile pool s
  | rounds + 1, pool, s =>
    (nextPage pool s.scanner).elim (endOfFile pool s) fun pageNum =>
      enterPage filter visit (fetchPages rounds) s.scanner pageNum (pool.getThisPage pageNum)

/-- `fetch_next_record`. -/
def fetchNextRecord (pool : DiskBufferPool) (s : HeldScanner) : RC × DiskBufferPool × HeldScanner :=
  match s.scanner.pageNum with
  | none => fetchPages filter visit s.scanner.pageCount pool s
  | some pageNum =>
    orBehind (fetchPages filter visit s.scanner.pageCount) pool s.handler (fetchInPage filter visit pool s.scanner pageNum)

/-- `open_scan` of a new scanner. -/
def openScan (pool : DiskBufferPool) : RC × DiskBufferPool × HeldScanner :=
  let r := fetchNextRecord filter visit pool ⟨initIterator pool ⟨0, 0, none, none, none⟩, none⟩
  (endOk r.1, r.2)

/-- `next`, after `has_next`. -/
def next (pool : DiskBufferPool) (s : HeldScanner) : RC × DiskBufferPool × HeldScanner :=
  let r := fetchNextRecord filter visit pool s
  (endOk r.1, r.2)

/-- A scan from which `k` records are taken, or all when there are not so many. -/
def consume : ℕ → RC × DiskBufferPool × HeldScanner → RC × DiskBufferPool × HeldScanner
  | 0, r => r
  | k + 1, r => if r.1 = .success ∧ r.2.2.scanner.nextRecord.isSome then consume k (next filter visit r.2.1 r.2.2) else r

end

/-- When `next` hands out the record `k` of a scan, its page is still held by the scanner. Nothing but the next call of the
scanner changes what it holds. -/
def StaysPinned (filter visible : Record → Bool) (k : ℕ) (pool : DiskBufferPool) : Prop :=
  let before := consume filter (visiting visible) k (openScan filter (visiting visible) pool)
  ∀ record, before.2.2.scanner.nextRecord = some record →
    ∃ p : PageNum, (next filter (visiting visible) before.2.1 before.2.2).2.2.handler = some p ∧ record.rid.pageNum = p

/-! ## The scanner without what it holds -/

/-- A result without the page that is held. -/
def forget (r : RC × DiskBufferPool × HeldScanner) : RC × DiskBufferPool × RecordFileScanner := (r.1, r.2.1, r.2.2.scanner)

section

variable (filter : Record → Bool) (visit : Record → RC)

theorem forget_orBehind {behind : DiskBufferPool → HeldScanner → RC × DiskBufferPool × HeldScanner}
    {behind' : DiskBufferPool → RecordFileScanner → RC × DiskBufferPool × RecordFileScanner}
    (hbehind : ∀ pool s, forget (behind pool s) = behind' pool s.scanner) (pool : DiskBufferPool)
    (handler : Option PageNum) (r : RC × RecordFileScanner) :
    forget (orBehind behind pool handler r) = RecordFileScanner.orBehind behind' pool r := by
  obtain ⟨rc, scanner⟩ := r
  by_cases hrc : rc = .recordEof
  · subst hrc
    exact hbehind pool ⟨scanner, handler⟩
  · rw [orBehind, RecordFileScanner.orBehind]
    · rfl
    · exact hrc
    · exact hrc

theorem forget_enterPage {behind : DiskBufferPool → HeldScanner → RC × DiskBufferPool × HeldScanner}
    {behind' : DiskBufferPool → RecordFileScanner → RC × DiskBufferPool × RecordFileScanner}
    (hbehind : ∀ pool s, forget (behind pool s) = behind' pool s.scanner) (scanner : RecordFileScanner) (pageNum : PageNum)
    (r : RC × Option Frame × DiskBufferPool) : forget (enterPage filter visit behind scanner pageNum r) =
      RecordFileScanner.enterPage filter visit behind' scanner pageNum r := by
  obtain ⟨rc, frame, pool⟩ := r
  by_cases hrc : rc = .success
  · subst hrc
    cases frame with
    | none => rfl
    | some frame => exact forget_orBehind hbehind pool (some pageNum) _
  · rw [enterPage, RecordFileScanner.enterPage]
    · rfl
    · exact fun _ heq => absurd heq hrc
    · exact fun _ heq => absurd heq hrc

theorem forget_fetchPages (rounds : ℕ) (pool : DiskBufferPool) (s : HeldScanner) :
    forget (fetchPages filter visit rounds pool s) = RecordFileScanner.fetchPages filter visit rounds pool s.scanner := by
  induction rounds generalizing pool s with
  | zero => rfl
  | succ rounds ih =>
    rw [fetchPages, RecordFileScanner.fetchPages]
    cases nextPage pool s.scanner with
    | none => rfl
    | some pageNum => exact forget_enterPage filter visit ih s.scanner pageNum _

theorem forget_fetchNextRecord (pool : DiskBufferPool) (s : HeldScanner) :
    forget (fetchNextRecord filter visit pool s) = RecordFileScanner.fetchNextRecord filter visit pool s.scanner := by
  unfold fetchNextRecord RecordFileScanner.fetchNextRecord
  cases s.scanner.pageNum with
  | none => exact forget_fetchPages filter visit _ pool s
  | some pageNum => exact forget_orBehind (forget_fetchPages filter visit _) pool s.handler _

theorem forget_endOk (r : RC × DiskBufferPool × HeldScanner) :
    forget (endOk r.1, r.2) = (endOk (forget r).1, (forget r).2) := rfl

theorem forget_next (pool : DiskBufferPool) (s : HeldScanner) :
    forget (next filter visit pool s) = RecordFileScanner.next filter visit pool s.scanner := by
  rw [next, forget_endOk, forget_fetchNextRecord, RecordFileScanner.next]

theorem forget_openScan (pool : DiskBufferPool) :
    forget (openScan filter visit pool) = RecordFileScanner.openScan filter visit pool := by
  rw [openScan, forget_endOk, forget_fetchNextRecord, openScan_eq, reopenScan]

theorem forget_consume (k : ℕ) (r : RC × DiskBufferPool × HeldScanner) :
    forget (consume filter visit k r) = RecordFileScanner.consume filter visit k (forget r) := by
  induction k generalizing r with
  | zero => rfl
  | succ k ih =>
    unfold consume RecordFileScanner.consume
    by_cases hmore : r.1 = .success ∧ r.2.2.scanner.nextRecord.isSome
    · rw [if_pos hmore, ih, forget_next]
      exact (if_pos hmore).symm
    · rw [if_neg hmore]
      exact (if_neg hmore).symm

end

/-! ## What the scanner holds -/

/-- The page of the record that has been fetched is held, and nothing when there is none. -/
structure Holds (s : HeldScanner) : Prop where
  fetched : ∀ record, s.scanner.nextRecord = some record → s.handler = s.scanner.pageNum
  none : s.scanner.nextRecord = none → s.handler = none

section

variable {filter visible : Record → Bool}

variable (filter visible) in
/-- The rest of a page: its end, or a record. -/
theorem fetchNextRecordInPage_rc (page : Memory) (pageNum : PageNum) (rounds : ℕ) (slot : Option ℕ) :
    (∃ next, fetchNextRecordInPage filter (visiting visible) page pageNum rounds slot = (.recordEof, none, next)) ∨
      ∃ record next,
        fetchNextRecordInPage filter (visiting visible) page pageNum rounds slot = (.success, some record, next) := by
  induction rounds generalizing slot with
  | zero => cases slot <;> exact Or.inl ⟨_, rfl⟩
  | succ rounds ih =>
    cases slot with
    | none => exact Or.inl ⟨_, rfl⟩
    | some i =>
      rw [fetchNextRecordInPage]
      by_cases hwanted : wanted filter visible (recordAt page pageNum i) = true
      · rw [if_neg (by rw [skipped_iff, hwanted]; exact Bool.noConfusion), visiting_of_wanted hwanted]
        exact Or.inr ⟨_, _, rfl⟩
      · rw [if_pos (skipped_iff.mpr (Bool.eq_false_iff.mpr hwanted))]
        exact ih _

theorem holds_orBehind {behind : DiskBufferPool → HeldScanner → RC × DiskBufferPool × HeldScanner}
    (hbehind : ∀ pool s, s.scanner.nextRecord = none → Holds (behind pool s).2.2) (pool : DiskBufferPool)
    {scanner : RecordFileScanner} {pageNum : PageNum} (hpage : scanner.pageNum = some pageNum) :
    Holds (orBehind behind pool (some pageNum) (fetchInPage filter (visiting visible) pool scanner pageNum)).2.2 := by
  rw [fetchInPage]
  rcases fetchNextRecordInPage_rc filter visible (pool.page pageNum) pageNum
    (PageHeader.recordCapacity (pool.page pageNum)).toNat scanner.nextSlotNum with ⟨slot, hfetch⟩ | ⟨record, slot, hfetch⟩
  · rw [hfetch]
    exact hbehind pool _ rfl
  · rw [hfetch]
    refine ⟨fun _ _ => hpage.symm, fun hnone => ?_⟩
    cases hnone

/-- A scanner that has let go of its page, and has no record. -/
theorem holds_released {scanner : RecordFileScanner} (hnone : scanner.nextRecord = none) : Holds ⟨scanner, none⟩ := by
  refine ⟨fun record hrecord => ?_, fun _ => rfl⟩
  rw [hnone] at hrecord
  cases hrecord

theorem holds_enterPage {behind : DiskBufferPool → HeldScanner → RC × DiskBufferPool × HeldScanner}
    (hbehind : ∀ pool s, s.scanner.nextRecord = none → Holds (behind pool s).2.2) {scanner : RecordFileScanner}
    (hnone : scanner.nextRecord = none) (pageNum : PageNum) (r : RC × Option Frame × DiskBufferPool) :
    Holds (enterPage filter (visiting visible) behind scanner pageNum r).2.2 := by
  obtain ⟨rc, frame, pool⟩ := r
  by_cases hrc : rc = .success
  · subst hrc
    cases frame with
    | none => exact holds_released hnone
    | some frame => exact holds_orBehind hbehind pool rfl
  · rw [enterPage]
    · exact holds_released hnone
    · exact fun _ heq => absurd heq hrc

theorem holds_fetchPages (rounds : ℕ) (pool : DiskBufferPool) (s : HeldScanner) (hnone : s.scanner.nextRecord = none) :
    Holds (fetchPages filter (visiting visible) rounds pool s).2.2 := by
  induction rounds generalizing pool s with
  | zero => exact holds_released rfl
  | succ rounds ih =>
    rw [fetchPages]
    cases nextPage pool s.scanner with
    | none => exact holds_released rfl
    | some pageNum => exact holds_enterPage ih hnone pageNum _

theorem holds_fetchNextRecord (pool : DiskBufferPool) (s : HeldScanner) (hheld : s.handler = s.scanner.pageNum)
    (hstart : s.scanner.pageNum = none → s.scanner.nextRecord = none) :
    Holds (fetchNextRecord filter (visiting visible) pool s).2.2 := by
  unfold fetchNextRecord
  cases hpage : s.scanner.pageNum with
  | none => exact holds_fetchPages _ pool s (hstart hpage)
  | some pageNum =>
    dsimp only
    rw [hheld, hpage]
    exact holds_orBehind (fun pool s hnone => holds_fetchPages _ pool s hnone) pool hpage

theorem holds_endOk {r : RC × DiskBufferPool × HeldScanner} (h : Holds r.2.2) : Holds (endOk r.1, r.2).2.2 := h

theorem holds_openScan (pool : DiskBufferPool) : Holds (openScan filter (visiting visible) pool).2.2 := by
  rw [openScan]
  apply holds_endOk
  apply holds_fetchNextRecord
  · rfl
  · exact fun _ => rfl

end

/-! ## Scans of a file -/

section

variable {recordSize size : ℕ} {pages : PageNum → Memory} {pool : DiskBufferPool} {here behind : List Record}
  {records : List Record} {filter visible : Record → Bool} {k : ℕ}

/-- `next` on a scanner that has a record. -/
theorem holds_next {s : HeldScanner} (hholds : Holds s)
    (hafter : After filter visible recordSize size pages records k pool s.scanner here behind) (hk : k < records.length) :
    Holds (next filter (visiting visible) pool s).2.2 := by
  have hr : records[k]? = some records[k] := List.getElem?_eq_getElem hk
  obtain ⟨p, hpage, -, -⟩ := hafter.page _ hr
  refine holds_fetchNextRecord pool s (hholds.fetched _ (hafter.nextRecord.trans hr)) fun hnone => ?_
  rw [hpage] at hnone
  cases hnone

theorem eq_of_forget {r : RC × DiskBufferPool × HeldScanner} {rc : RC} {pool : DiskBufferPool} {scanner : RecordFileScanner}
    (h : forget r = (rc, pool, scanner)) : r = (rc, pool, r.2.2) ∧ r.2.2.scanner = scanner := by
  obtain ⟨rfl, hrest⟩ := Prod.mk.inj h
  obtain ⟨rfl, hscanner⟩ := Prod.mk.inj hrest
  exact ⟨rfl, hscanner⟩

theorem holds_consume (hallocated : ∀ p, p < size → BPFileHeader.allocated (pages bpHeaderPage) p = true) (n : ℕ)
    (hk : k ≤ records.length) {s : HeldScanner} (hholds : Holds s)
    (hafter : After filter visible recordSize size pages records k pool s.scanner here behind) :
    Holds (consume filter (visiting visible) n (.success, pool, s)).2.2 := by
  induction n generalizing k pool s here behind with
  | zero => exact hholds
  | succ n ih =>
    unfold consume
    by_cases hlt : k < records.length
    · have hr : records[k]? = some records[k] := List.getElem?_eq_getElem hlt
      obtain ⟨pool', scanner', here', behind', heq, hafter'⟩ := after_next hallocated hlt hafter
      rw [← forget_next] at heq
      obtain ⟨hnext, hscanner⟩ := eq_of_forget heq
      rw [if_pos ⟨rfl, by rw [hafter.nextRecord, hr]; rfl⟩, hnext]
      exact ih hlt (holds_next hholds hafter hlt) (hscanner ▸ hafter')
    · rw [if_neg (by rw [hafter.nextRecord, List.getElem?_eq_none (not_lt.mp hlt)]; simp)]
      exact hholds

/-- A new scan from which up to `k` records have been taken. -/
theorem holds_open {pool₀ : DiskBufferPool} (h : Scannable recordSize pool₀ size pages) (filter visible : Record → Bool)
    (k : ℕ) : ∃ pool s here behind,
      consume filter (visiting visible) k (openScan filter (visiting visible) pool₀) = (.success, pool, s) ∧ Holds s ∧
      After filter visible recordSize size pages (wantedRecords filter visible pool₀)
        (min k (wantedRecords filter visible pool₀).length) pool s.scanner here behind := by
  obtain ⟨pool, scanner, here, behind, hopen, hafter⟩ := after_open h filter visible 0
  obtain ⟨pool', scanner', here', behind', hconsume, hafter'⟩ := after_open h filter visible k
  rw [Nat.zero_min] at hafter
  rw [← forget_openScan, ← forget_consume] at hopen hconsume
  obtain ⟨heq, hscanner⟩ := eq_of_forget hopen
  obtain ⟨heq', hscanner'⟩ := eq_of_forget hconsume
  rw [consume] at heq hscanner
  have hall := holds_consume h.allocated k (Nat.zero_le _) (holds_openScan pool₀) (hscanner ▸ hafter)
  rw [← heq] at hall
  exact ⟨pool', _, here', behind', heq', hall, hscanner' ▸ hafter'⟩

/-- For every file, every filter and every transaction: the page of the record `k` that a scan hands out is held when
`next` returns, just when the record behind it is one of the same page. -/
theorem staysPinned_iff {s : RecordFileHandler} {store : Store} (h : Keeps recordSize s store)
    (filter visible : Record → Bool) (k : ℕ) : StaysPinned filter visible k s.pool ↔
      ∀ r, (wantedRecords filter visible s.pool)[k]? = some r →
        ∃ r', (wantedRecords filter visible s.pool)[k + 1]? = some r' ∧ r'.rid.pageNum = r.rid.pageNum := by
  obtain ⟨size, pages, hscan⟩ := scannable_of_keeps h
  obtain ⟨pool, t, here, behind, hconsume, hholds, hafter⟩ := holds_open hscan filter visible k
  unfold StaysPinned
  rw [hconsume]
  dsimp only
  cases lt_or_ge k (wantedRecords filter visible s.pool).length with
  | inl hlt =>
    rw [min_eq_left (le_of_lt hlt)] at hafter
    obtain ⟨pool', scanner', here', behind', hnext, hafter'⟩ := after_next hscan.allocated hlt hafter
    rw [← forget_next] at hnext
    obtain ⟨-, rfl⟩ := eq_of_forget hnext
    have hholds' := holds_next hholds hafter hlt
    rw [hafter.nextRecord]
    constructor
    · intro hpinned r hr
      obtain ⟨p, hheld, hrid⟩ := hpinned r hr
      cases hr' : (wantedRecords filter visible s.pool)[k + 1]? with
      | none =>
        rw [hholds'.none (hafter'.nextRecord.trans hr')] at hheld
        cases hheld
      | some r' =>
        obtain ⟨p', hpage, -, hrid'⟩ := hafter'.page r' hr'
        rw [hholds'.fetched r' (hafter'.nextRecord.trans hr'), hpage] at hheld
        exact ⟨r', rfl, by rw [hrid', hrid, Option.some.inj hheld]⟩
    · intro hnear r hr
      obtain ⟨r', hr', hsame⟩ := hnear r hr
      obtain ⟨p', hpage, -, hrid'⟩ := hafter'.page r' hr'
      exact ⟨p', (hholds'.fetched r' (hafter'.nextRecord.trans hr')).trans hpage, hsame.symm.trans hrid'⟩
  | inr hge =>
    -- the scan is at its end
    rw [hafter.nextRecord, min_eq_right hge, List.getElem?_eq_none (le_refl _), List.getElem?_eq_none hge]
    exact iff_of_true (fun _ hr => nomatch hr) (fun _ hr => nomatch hr)

end

/-- The first of two records of a page. -/
theorem staysPinned_iff_two : ∃ s, twoRecords = some s ∧ StaysPinned everyRecord (fun _ => true) 0 s.pool := by
  obtain ⟨s, store, hs, hkeeps⟩ := keeps_twoRecords
  have hwanted : twoRecords.map (fun s => (wantedRecords everyRecord (fun _ => true) s.pool).map Record.rid) =
      some [⟨1, 0⟩, ⟨1, 1⟩] := by decide +kernel
  rw [hs, Option.map_some, Option.some.injEq] at hwanted
  refine ⟨s, hs, (staysPinned_iff hkeeps everyRecord (fun _ => true) 0).mpr fun r hr => ?_⟩
  have hrid : ∀ i : ℕ, ((wantedRecords everyRecord (fun _ => true) s.pool)[i]?).map Record.rid =
      ([⟨1, 0⟩, ⟨1, 1⟩] : List RID)[i]? := by
    intro i
    rw [← hwanted, List.getElem?_map]
  obtain ⟨r', hr', hpage⟩ := Option.map_eq_some_iff.mp (hrid 1)
  have hpage' := hrid 0
  rw [hr, Option.map_some] at hpage'
  exact ⟨r', hr', by rw [hpage, Option.some.inj hpage']⟩

/-- The second record of the page is the last one of the file: its page is let go of before it is handed out. -/
theorem not_staysPinned_two : ∃ s, twoRecords = some s ∧ ¬StaysPinned everyRecord (fun _ => true) 1 s.pool := by
  have hrun : (twoRecords.map fun s =>
      let before := consume everyRecord (visiting fun _ => true) 1 (openScan everyRecord (visiting fun _ => true) s.pool)
      (before.2.2.scanner.nextRecord.map Record.rid,
        (next everyRecord (visiting fun _ => true) before.2.1 before.2.2).2.2.handler)) = some (some ⟨1, 1⟩, none) := by
    decide +kernel
  obtain ⟨s, hs, hscan⟩ := Option.map_eq_some_iff.mp hrun
  obtain ⟨hrecord, hhandler⟩ := Prod.mk.inj hscan
  obtain ⟨record, hrecord, -⟩ := Option.map_eq_some_iff.mp hrecord
  refine ⟨s, hs, fun hpinned => ?_⟩
  obtain ⟨p, hheld, -⟩ := hpinned record hrecord
  rw [hhandler] at hheld
  cases hheld

end HeldScanner

end Landbase.RecordManager
