import Landbase.Storage.RecordScan

/-! # Scans that are opened again

`close_scan` lets go of the page of the record that a scan has fetched ahead, and `open_scan` sends `bp_iterator_` back to
the first page; but `record_page_iterator_` keeps its page and its slot. What is left of that page comes first in the scan
that follows, and then the whole file (`reopens_iff`).
-/

namespace Landbase.RecordManager
open Lib Buffer RecordFileScanner
set_option autoImplicit false

namespace RecordFileScanner

variable (filter : Record → Bool) (visit : Record → RC) in
/-- A scan from which `k` records are taken, or all when there are not so many. -/
def consume : ℕ → RC × DiskBufferPool × RecordFileScanner → RC × DiskBufferPool × RecordFileScanner
  | 0, r => r
  | k + 1, r => if r.1 = .success ∧ r.2.2.nextRecord.isSome then consume k (next filter visit r.2.1 r.2.2) else r

/-- When a scan is closed after `k` records and opened again, it hands out the records of the file. -/
def Reopens (filter visible : Record → Bool) (k : ℕ) (pool : DiskBufferPool) : Prop :=
  let closed := consume filter (visiting visible) k (openScan filter (visiting visible) pool)
  ∀ rounds, (wantedRecords filter visible pool).length ≤ rounds →
    collect filter (visiting visible) rounds (reopenScan filter (visiting visible) closed.2.1 closed.2.2) =
      some (wantedRecords filter visible pool)

end RecordFileScanner

/-! ## Scans from which some records are taken -/

theorem drop_eq_cons {α : Type} {l rest : List α} {k : ℕ} {a : α} (h : l.drop k = a :: rest) :
    l[k]? = some a ∧ l.drop (k + 1) = rest := by
  constructor
  · have hget := congrArg (fun l => l[0]?) h
    simpa using hget
  · rw [← List.tail_drop, h, List.tail_cons]

theorem drop_eq_nil {α : Type} {l : List α} {k : ℕ} (h : l.drop k = []) : l[k]? = none ∧ l.drop (k + 1) = [] := by
  have hlength := List.drop_eq_nil_iff.mp h
  exact ⟨List.getElem?_eq_none hlength, List.drop_eq_nil_of_le (Nat.le_succ_of_le hlength)⟩

section After

variable {filter visible : Record → Bool} {recordSize size : ℕ} {pages : PageNum → Memory} {pool : DiskBufferPool}
  {scanner : RecordFileScanner} {here behind : List Record}

/-- A scan of `records` from which `k` are taken has fetched the next one, and the others are ahead. -/
structure After (filter visible : Record → Bool) (recordSize size : ℕ) (pages : PageNum → Memory) (records : List Record)
    (k : ℕ) (pool : DiskBufferPool) (scanner : RecordFileScanner) (here behind : List Record) : Prop where
  ahead : Ahead filter visible recordSize size pages pool scanner here behind
  nextRecord : scanner.nextRecord = records[k]?
  rest : records.drop (k + 1) = here ++ behind
  page : ∀ record, records[k]? = some record → AtRecord scanner record

theorem after_of_fetched {records : List Record} {k : ℕ} {before : RecordFileScanner}
    {result : RC × DiskBufferPool × RecordFileScanner}
    (h : FetchedAhead filter visible recordSize size pages before here behind result)
    (hrest : records.drop k = here ++ behind)
    (haligned : here ≠ [] → ∀ p, before.pageNum = some p → before.currentPageNum = p) :
    ∃ pool scanner here behind, (endOk result.1, result.2) = (.success, pool, scanner) ∧
      After filter visible recordSize size pages records k pool scanner here behind := by
  cases h with
  | here record here behind pool scanner p hrecord hrid hbefore hpage hcur hahead =>
    obtain ⟨hget, hdrop⟩ := drop_eq_cons hrest
    refine ⟨pool, scanner, here, behind, rfl, hahead, hrecord.trans hget.symm, hdrop, fun r hr => ?_⟩
    obtain rfl := Option.some.inj (hget.symm.trans hr)
    exact ⟨p, hpage, hcur.trans (haligned (List.cons_ne_nil _ _) p hbefore), hrid⟩
  | behind behind result hbehind =>
    cases hbehind with
    | eof pool scanner hnone hahead =>
      obtain ⟨hget, hdrop⟩ := drop_eq_nil hrest
      refine ⟨pool, scanner, [], [], rfl, hahead, hnone.trans hget.symm, hdrop, fun r hr => ?_⟩
      rw [hget] at hr
      cases hr
    | found record here behind pool scanner hrecord hat hahead =>
      obtain ⟨hget, hdrop⟩ := drop_eq_cons hrest
      refine ⟨pool, scanner, here, behind, rfl, hahead, hrecord.trans hget.symm, hdrop, fun r hr => ?_⟩
      obtain rfl := Option.some.inj (hget.symm.trans hr)
      exact hat

theorem mem_here (h : Ahead filter visible recordSize size pages pool scanner here behind) {record : Record}
    (hrecord : record ∈ here) : ∃ p : PageNum, scanner.pageNum = some p ∧ record.rid.pageNum = p := by
  rcases h.place with ⟨-, rfl⟩ | ⟨p, start, hpage, -, rfl⟩
  · exact absurd hrecord List.not_mem_nil
  · obtain ⟨i, -, rfl⟩ := List.mem_map.mp (List.mem_of_mem_filter hrecord)
    exact ⟨p, hpage, rfl⟩

theorem mem_behind (h : Ahead filter visible recordSize size pages pool scanner here behind) {record : Record}
    (hrecord : record ∈ behind) : (scanner.currentPageNum : ℤ) < record.rid.pageNum := by
  rw [h.behind] at hrecord
  obtain ⟨p, hp, hmem⟩ := List.mem_flatMap.mp (List.mem_of_mem_filter hrecord)
  obtain ⟨i, -, rfl⟩ := List.mem_map.mp hmem
  rw [List.mem_range'_1] at hp
  exact Int.ofNat_lt.mpr (Nat.lt_of_succ_le hp.1)

/-- A record is left in the page of the record `k` if the next record is one of that page. -/
theorem After.here_ne_nil_iff {records : List Record} {k : ℕ}
    (h : After filter visible recordSize size pages records k pool scanner here behind) :
    here ≠ [] ↔ ∃ r r', records[k]? = some r ∧ records[k + 1]? = some r' ∧ r'.rid.pageNum = r.rid.pageNum := by
  constructor
  · intro hne
    obtain ⟨r', here', rfl⟩ := List.exists_cons_of_ne_nil hne
    obtain ⟨hget, -⟩ := drop_eq_cons h.rest
    obtain ⟨hlt, -⟩ := List.getElem?_eq_some_iff.mp hget
    have hr : records[k]? = some records[k] := List.getElem?_eq_getElem (Nat.lt_of_succ_lt hlt)
    obtain ⟨p, hpage, hrid⟩ := mem_here h.ahead List.mem_cons_self
    obtain ⟨q, hpage', -, hrid'⟩ := h.page _ hr
    obtain rfl := Option.some.inj (hpage.symm.trans hpage')
    exact ⟨_, r', hr, hget, hrid.trans hrid'.symm⟩
  · rintro ⟨r, r', hr, hr', hsame⟩ rfl
    obtain ⟨p, -, hcur, hrid⟩ := h.page r hr
    have hget : behind[0]? = some r' := by
      rw [← List.nil_append behind, ← h.rest, List.getElem?_drop]
      exact hr'
    have hlt := mem_behind h.ahead (List.mem_of_getElem? hget)
    rw [hcur, hsame, hrid] at hlt
    exact lt_irrefl _ hlt

/-- `next` hands out the record `k`. -/
theorem after_next (hallocated : ∀ p, p < size → BPFileHeader.allocated (pages bpHeaderPage) p = true)
    {records : List Record} {k : ℕ} (hk : k < records.length)
    (h : After filter visible recordSize size pages records k pool scanner here behind) :
    ∃ pool' scanner' here' behind', next filter (visiting visible) pool scanner = (.success, pool', scanner') ∧
      After filter visible recordSize size pages records (k + 1) pool' scanner' here' behind' := by
  obtain ⟨p, hpage, hcur, -⟩ := h.page _ (List.getElem?_eq_getElem hk)
  rw [next]
  exact after_of_fetched (fetchNextRecord_ahead hallocated h.ahead) h.rest fun _ q hq => by
    rw [hcur, Option.some.inj (hpage.symm.trans hq)]

/-- The number of records that a scan has handed out. -/
theorem after_consume (hallocated : ∀ p, p < size → BPFileHeader.allocated (pages bpHeaderPage) p = true)
    {records : List Record} (n : ℕ) {k : ℕ} (hk : k ≤ records.length)
    (h : After filter visible recordSize size pages records k pool scanner here behind) :
    ∃ pool' scanner' here' behind',
      consume filter (visiting visible) n (.success, pool, scanner) = (.success, pool', scanner') ∧
      After filter visible recordSize size pages records (min (k + n) records.length) pool' scanner' here' behind' := by
  induction n generalizing k pool scanner here behind with
  | zero => exact ⟨pool, scanner, here, behind, rfl, by rw [Nat.add_zero, min_eq_left hk]; exact h⟩
  | succ n ih =>
    unfold consume
    by_cases hlt : k < records.length
    · have hr : records[k]? = some records[k] := List.getElem?_eq_getElem hlt
      obtain ⟨pool', scanner', here', behind', heq, hafter⟩ := after_next hallocated hlt h
      rw [if_pos ⟨rfl, by rw [h.nextRecord, hr]; rfl⟩, heq]
      have hsum : k + (n + 1) = k + 1 + n := by omega
      rw [hsum]
      exact ih hlt hafter
    · obtain rfl : k = records.length := le_antisymm hk (not_lt.mp hlt)
      rw [if_neg (by rw [h.nextRecord, List.getElem?_eq_none (le_refl _)]; simp), min_eq_right (Nat.le_add_right _ _)]
      exact ⟨pool, scanner, here, behind, rfl, h⟩

/-- The state of a new scan from which up to `k` records have been taken. -/
theorem after_open {pool : DiskBufferPool} {size : ℕ} {pages : PageNum → Memory} (h : Scannable recordSize pool size pages)
    (filter visible : Record → Bool) (k : ℕ) : ∃ pool' scanner here behind,
      consume filter (visiting visible) k (openScan filter (visiting visible) pool) = (.success, pool', scanner) ∧
      After filter visible recordSize size pages (wantedRecords filter visible pool)
        (min k (wantedRecords filter visible pool).length) pool' scanner here behind := by
  obtain ⟨pool', scanner, here, behind, heq, hafter⟩ := after_of_fetched (k := 0) (fetched_open h filter visible)
    (by rw [List.drop_zero, List.nil_append]) (fun hne => absurd rfl hne)
  obtain ⟨pool'', scanner', here', behind', heq', hafter'⟩ := after_consume h.allocated k (Nat.zero_le _) hafter
  have hopen : openScan filter (visiting visible) pool = (.success, pool', scanner) := by
    rw [openScan_eq]
    exact heq
  rw [Nat.zero_add] at hafter'
  rw [hopen]
  exact ⟨pool'', scanner', here', behind', heq', hafter'⟩

end After

/-! ## The scan that follows -/

section

variable {recordSize : ℕ} {s : RecordFileHandler} {store : Store}

/-- A scan that is opened again after `k` records hands out the records of the file, just when the record that it had
fetched is the last one of its page. -/
theorem reopens_iff (h : Keeps recordSize s store) (filter visible : Record → Bool) (k : ℕ) :
    Reopens filter visible k s.pool ↔ ∀ r r', (wantedRecords filter visible s.pool)[k]? = some r →
      (wantedRecords filter visible s.pool)[k + 1]? = some r' → r'.rid.pageNum ≠ r.rid.pageNum := by
  obtain ⟨size, pages, hscan⟩ := scannable_of_keeps h
  obtain ⟨pool', scanner, here, behind, hconsume, hafter⟩ := after_open hscan filter visible k
  have hwanted : wantedRecords filter visible pool' = wantedRecords filter visible s.pool := by
    rw [wantedRecords, wantedRecords, liveRecords_eq hafter.ahead.shows hscan.count, liveRecords_eq hscan.shows hscan.count]
  have hahead := ahead_first filter visible scanner hafter.ahead.shows hscan.count hscan.pos hafter.ahead.place
  rw [hwanted] at hahead
  have hcollect : ∀ rounds, (here ++ wantedRecords filter visible s.pool).length ≤ rounds →
      collect filter (visiting visible) rounds (reopenScan filter (visiting visible) pool' scanner) =
        some (here ++ wantedRecords filter visible s.pool) := fun rounds hrounds =>
    collect_ahead hscan.allocated _ (fetchNextRecord_ahead hscan.allocated hahead) rfl hrounds
  have hreopens : Reopens filter visible k s.pool ↔ here = [] := by
    unfold Reopens
    rw [hconsume]
    constructor
    · intro hreopens
      have hlength : (wantedRecords filter visible s.pool).length ≤ (here ++ wantedRecords filter visible s.pool).length := by
        rw [List.length_append]
        exact Nat.le_add_left _ _
      have hall := hreopens _ hlength
      rw [hcollect _ (le_refl _)] at hall
      exact List.append_left_eq_self.mp (Option.some.inj hall)
    · rintro rfl
      rw [List.nil_append] at hcollect
      exact hcollect
  rw [hreopens, ← not_ne_iff, hafter.here_ne_nil_iff]
  cases le_or_gt k (wantedRecords filter visible s.pool).length with
  | inl hle =>
    rw [min_eq_left hle]
    constructor
    · exact fun hnone r r' hr hr' hsame => hnone ⟨r, r', hr, hr', hsame⟩
    · rintro hall ⟨r, r', hr, hr', hsame⟩
      exact hall r r' hr hr' hsame
  | inr hgt =>
    rw [min_eq_right (le_of_lt hgt)]
    constructor
    · intro _ r r' hr
      rw [List.getElem?_eq_none (le_of_lt hgt)] at hr
      cases hr
    · rintro - ⟨r, r', hr, -⟩
      rw [List.getElem?_eq_none (le_refl _)] at hr
      cases hr

end

/-- A new file with two records of 4000 bytes, which are in one page. -/
def twoRecords : Option RecordFileHandler :=
  (RecordFileHandler.create.insertRecord (fun _ => 1) 4000 []).bind fun r =>
    (r.2.2.insertRecord (fun _ => 2) 4000 [1]).map fun r => r.2.2

theorem keeps_twoRecords : ∃ s store, twoRecords = some s ∧ Keeps 4000 s store := by
  let calls := [Call.insertRecord (fun _ => 1) [], .insertRecord (fun _ => 2) [1]]
  have hcalls : (runCalls 4000 .create (fun _ => none) calls).isSome = true := by decide +kernel
  obtain ⟨⟨s, store⟩, hcalls⟩ := Option.isSome_iff_exists.mp hcalls
  refine ⟨s, store, ?_, (Run.create.runCalls hcalls).keeps (by decide)⟩
  simp only [calls, runCalls, RecordFileHandler.call] at hcalls
  unfold twoRecords
  cases h₁ : RecordFileHandler.create.insertRecord (fun _ => 1) 4000 [] with
  | none =>
    rw [h₁] at hcalls
    simp at hcalls
  | some r₁ =>
    rw [h₁] at hcalls
    cases h₂ : r₁.2.2.insertRecord (fun _ => 2) 4000 [1] with
    | none => simp [h₂] at hcalls
    | some r₂ =>
      simp [h₂] at hcalls
      simp [h₂, hcalls]

/-- The scan is opened again after the first record of two has been taken: the scan has fetched the last one of the page. -/
theorem reopens_iff_two : ∃ s, twoRecords = some s ∧ Reopens everyRecord (fun _ => true) 1 s.pool := by
  obtain ⟨s, store, hs, hkeeps⟩ := keeps_twoRecords
  refine ⟨s, hs, (reopens_iff hkeeps everyRecord (fun _ => true) 1).mpr fun r r' _ hr' => ?_⟩
  have hwanted : twoRecords.map (fun s => (wantedRecords everyRecord (fun _ => true) s.pool).length) = some 2 := by
    decide +kernel
  rw [hs, Option.map_some, Option.some.injEq] at hwanted
  rw [List.getElem?_eq_none (le_of_eq hwanted)] at hr'
  cases hr'

/-- The scan is opened again before anything is taken: the second record comes first, and once more at its place. -/
theorem not_reopens_two : ∃ s, twoRecords = some s ∧ ¬Reopens everyRecord (fun _ => true) 0 s.pool := by
  have hrun : (twoRecords.map fun s =>
      let closed := consume everyRecord (visiting fun _ => true) 0 (openScan everyRecord (visiting fun _ => true) s.pool)
      ((wantedRecords everyRecord (fun _ => true) s.pool).map Record.rid,
        (collect everyRecord (visiting fun _ => true) 5
          (reopenScan everyRecord (visiting fun _ => true) closed.2.1 closed.2.2)).map fun records =>
            records.map Record.rid)) =
      some ([⟨1, 0⟩, ⟨1, 1⟩], some [⟨1, 1⟩, ⟨1, 0⟩, ⟨1, 1⟩]) := by decide +kernel
  obtain ⟨s, hs, hscans⟩ := Option.map_eq_some_iff.mp hrun
  obtain ⟨hwanted, hcollect⟩ := Prod.mk.inj hscans
  refine ⟨s, hs, fun hreopens => ?_⟩
  have hlength : (wantedRecords everyRecord (fun _ => true) s.pool).length ≤ 5 := by
    rw [← List.length_map (f := Record.rid), hwanted]
    decide
  rw [hreopens 5 hlength, Option.map_some, hwanted] at hcollect
  exact absurd hcollect (by decide)

end Landbase.RecordManager
