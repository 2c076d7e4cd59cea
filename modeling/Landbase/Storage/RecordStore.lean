import Landbase.Buffer.FileHeader
import Landbase.Storage.RecordPage

/-! # The record store

What a record file is for: a map from record identifiers to the bytes stored under them. Every call on a
`RecordFileHandler` is a step of this map, whatever pages the hash set of free pages offers first.

Identifiers name slots of record pages: page 0 is the header of the buffer pool's file.
-/

namespace Landbase.RecordManager
open Lib Buffer
set_option autoImplicit false

/-! ## The pages of a file -/

/-- The pool shows a file of `size` pages with these contents, whatever of it is in frames. A frame that is not dirty and the
file differ in the bytes of records at most. -/
structure Shows (recordSize : ℕ) (pool : DiskBufferPool) (size : ℕ) (pages : PageNum → Memory) : Prop where
  size_eq : pool.size = size
  page_eq : ∀ p, pool.page p = pages p
  framed : ∀ p, size ≤ p → pool.frames p = none
  clean : ∀ p, 1 ≤ p → ∀ frame, pool.frames p = some frame → frame.dirty = false →
    SameOutside recordSize frame.data (pool.file p)

namespace Shows

variable {recordSize : ℕ} {pool : DiskBufferPool} {size : ℕ} {pages : PageNum → Memory}

theorem page_setFrame (pool : DiskBufferPool) (p : PageNum) (frame : Frame) :
    (pool.setFrame p frame).page = Function.update pool.page p frame.data := by
  funext q
  by_cases hq : q = p
  · rw [hq, Function.update_self, DiskBufferPool.page, DiskBufferPool.setFrame]
    dsimp only
    rw [Function.update_self]
  · rw [Function.update_of_ne hq, DiskBufferPool.page, DiskBufferPool.setFrame]
    dsimp only
    rw [Function.update_of_ne hq, DiskBufferPool.page]

theorem page_flushPage (pool : DiskBufferPool) (p : PageNum) : (pool.flushPage p).page = pool.page := by
  funext q
  by_cases hq : q = p
  · rw [hq, DiskBufferPool.page, DiskBufferPool.flushPage]
    dsimp only
    rw [Function.update_self]
  · rw [DiskBufferPool.page, DiskBufferPool.flushPage]
    dsimp only
    rw [Function.update_of_ne hq, Function.update_of_ne hq]
    rfl

theorem setFrame (h : Shows recordSize pool size pages) {p : PageNum} (hp : p < size) (frame : Frame)
    (hframe : 1 ≤ p → frame.dirty = false → SameOutside recordSize frame.data (pool.file p)) :
    Shows recordSize (pool.setFrame p frame) size (Function.update pages p frame.data) := by
  have hpages : pool.page = pages := funext h.page_eq
  refine ⟨h.size_eq, fun q => by rw [page_setFrame, hpages], fun q hq => ?_, fun q hpos frame' hframe' hclean => ?_⟩
  · have hne : q ≠ p := Nat.ne_of_gt (lt_of_lt_of_le hp hq)
    rw [DiskBufferPool.setFrame]
    dsimp only
    rw [Function.update_of_ne hne, h.framed q hq]
  · rw [DiskBufferPool.setFrame] at hframe'
    dsimp only at hframe'
    by_cases hqp : q = p
    · rw [hqp, Function.update_self] at hframe'
      rw [← Option.some.inj hframe'] at hclean ⊢
      rw [hqp] at hpos ⊢
      exact hframe hpos hclean
    · rw [Function.update_of_ne hqp] at hframe'
      exact h.clean q hpos frame' hframe' hclean

/-- A frame that is dirty. -/
theorem setDirty (h : Shows recordSize pool size pages) {p : PageNum} (hp : p < size) (data : Memory) :
    Shows recordSize (pool.setFrame p ⟨data, true⟩) size (Function.update pages p data) :=
  h.setFrame hp ⟨data, true⟩ fun _ hclean => Bool.noConfusion hclean

/-- A page is set and flushed. -/
theorem rewrite (h : Shows recordSize pool size pages) (p : PageNum) (frame : Frame) :
    Shows recordSize ((pool.setFrame p frame).flushPage p) (max size (p + 1)) (Function.update pages p frame.data) := by
  have hpages : pool.page = pages := funext h.page_eq
  refine ⟨?_, fun q => by rw [page_flushPage, page_setFrame, hpages], fun q hq => ?_,
    fun q hpos frame' hframe' hclean => ?_⟩
  · rw [DiskBufferPool.flushPage, DiskBufferPool.setFrame]
    dsimp only
    rw [h.size_eq]
  · have hne : q ≠ p := Nat.ne_of_gt (lt_of_lt_of_le (Nat.lt_succ_self p) (le_trans (le_max_right _ _) hq))
    rw [DiskBufferPool.flushPage, DiskBufferPool.setFrame]
    dsimp only
    rw [Function.update_of_ne hne, Function.update_of_ne hne, h.framed q (le_trans (le_max_left _ _) hq)]
  · rw [DiskBufferPool.flushPage] at hframe' ⊢
    dsimp only at hframe' ⊢
    by_cases hqp : q = p
    · rw [hqp, Function.update_self] at hframe'
      rw [hqp, Function.update_self, ← Option.some.inj hframe']
      exact SameOutside.refl _ _
    · rw [Function.update_of_ne hqp, DiskBufferPool.setFrame] at hframe'
      dsimp only at hframe'
      rw [Function.update_of_ne hqp] at hframe' ⊢
      exact h.clean q hpos frame' hframe' hclean

theorem getThisPage_inside (h : Shows recordSize pool size pages) {p : ℤ} (hpos : 0 ≤ p) (hp : p < size) :
    ∃ dirty pool', pool.getThisPage p = (.success, some ⟨pages p.toNat, dirty⟩, pool') ∧
      pool'.frames p.toNat = some ⟨pages p.toNat, dirty⟩ ∧ Shows recordSize pool' size pages := by
  have hpage := h.page_eq p.toNat
  rw [DiskBufferPool.getThisPage, if_neg (not_lt.mpr hpos), h.size_eq]
  rw [DiskBufferPool.page] at hpage
  cases hframe : pool.frames p.toNat with
  | some frame =>
    rw [hframe] at hpage
    obtain ⟨data, dirty⟩ := frame
    dsimp only at hpage
    rw [hpage] at hframe
    exact ⟨dirty, pool, by rw [hpage], hframe, h⟩
  | none =>
    rw [hframe] at hpage
    dsimp only at hpage ⊢
    have hlt : p.toNat < size := by omega
    have hset := h.setFrame hlt ⟨pages p.toNat, false⟩ fun _ _ => by
      rw [hpage]
      exact SameOutside.refl _ _
    dsimp only at hset
    rw [Function.update_eq_self] at hset
    refine ⟨false, _, by rw [if_pos hp, hpage], ?_, hset⟩
    rw [DiskBufferPool.setFrame]
    dsimp only
    rw [Function.update_self]

theorem getThisPage_outside (recordSize : ℕ) (pages : PageNum → Memory) {p : ℤ} (hp : p < 0 ∨ size ≤ p) :
    ∃ rc, rc ≠ .success ∧ ∀ pool, Shows recordSize pool size pages → pool.getThisPage p = (rc, none, pool) := by
  by_cases hneg : p < 0
  · refine ⟨.ioerrSeek, by decide, fun pool _ => ?_⟩
    rw [DiskBufferPool.getThisPage, if_pos hneg]
  · refine ⟨.ioerrRead, by decide, fun pool h => ?_⟩
    rw [DiskBufferPool.getThisPage, if_neg hneg, h.framed p.toNat (by omega), h.size_eq]
    dsimp only
    rw [if_neg (by omega)]

end Shows

/-! ## The map behind a file -/

/-- What a record file is for: the bytes under each identifier. -/
abbrev Store := RID → Option Bytes

/-- The pages hold the map: every page but the header is a page of records. -/
structure Stored (recordSize size : ℕ) (pages : PageNum → Memory) (store : Store) : Prop where
  header : BPFileHeader.Ok (pages bpHeaderPage)
  count : BPFileHeader.pageCount (pages bpHeaderPage) = size
  allocated : ∀ p, p < size → BPFileHeader.allocated (pages bpHeaderPage) p = true
  holds : ∀ p, 1 ≤ p → p < size → Holds recordSize (pages p) fun i => store ⟨p, i⟩
  live : ∀ rid, (store rid).isSome = true → 1 ≤ rid.pageNum ∧ rid.pageNum < size ∧ 0 ≤ rid.slotNum

namespace Stored

variable {recordSize size : ℕ} {pages : PageNum → Memory} {store : Store}

theorem size_le (h : Stored recordSize size pages store) : size ≤ BPFileHeader.maxPageNum := by
  have hbound := h.header.bound
  rw [h.count] at hbound
  exact_mod_cast hbound

theorem freePage_eq (h : Stored recordSize size pages store) : BPFileHeader.freePage (pages bpHeaderPage) = none := by
  have hall : BPFileHeader.allocatedSet (pages bpHeaderPage) = Finset.range size := by
    ext p
    rw [BPFileHeader.mem_allocatedSet, Finset.mem_range]
    constructor
    · rintro ⟨hmax, hbit⟩
      have hlt := h.header.below p hmax hbit
      rw [h.count] at hlt
      exact_mod_cast hlt
    · intro hp
      exact ⟨lt_of_lt_of_le hp h.size_le, h.allocated p hp⟩
  apply if_neg
  rw [h.header.count, h.count, hall, Finset.card_range]
  exact lt_irrefl _

/-- One page is written, and one record of the map is another. -/
theorem write (h : Stored recordSize size pages store) {p : PageNum} (hpos : 1 ≤ p) (hp : p < size) {page : Memory}
    {i : ℕ} {data : Option Bytes} (hpage : Holds recordSize page (Function.update (fun i => store ⟨p, i⟩) i data)) :
    Stored recordSize size (Function.update pages p page) (Function.update store ⟨p, i⟩ data) := by
  have hheader : Function.update pages p page bpHeaderPage = pages bpHeaderPage :=
    Function.update_of_ne (Nat.ne_of_lt hpos) _ _
  refine ⟨?_, ?_, ?_, ?_, ?_⟩
  · rw [hheader]
    exact h.header
  · rw [hheader]
    exact h.count
  · rw [hheader]
    exact h.allocated
  · intro q hqpos hq
    by_cases hqp : q = p
    · have hrow : (fun j : ℕ => Function.update store ⟨p, i⟩ data ⟨q, j⟩) =
          Function.update (fun j : ℕ => store ⟨p, j⟩) i data := by
        funext j
        by_cases hji : j = i
        · rw [hqp, hji, Function.update_self, Function.update_self]
        · have hne : (⟨q, j⟩ : RID) ≠ ⟨p, i⟩ := by
            intro heq
            exact hji (Int.ofNat.inj (RID.mk.inj heq).2)
          rw [Function.update_of_ne hne, Function.update_of_ne hji, hqp]
      rw [hrow, hqp, Function.update_self]
      exact hpage
    · have hrow : (fun j : ℕ => Function.update store ⟨p, i⟩ data ⟨q, j⟩) = fun j : ℕ => store ⟨q, j⟩ := by
        funext j
        have hne : (⟨q, j⟩ : RID) ≠ ⟨p, i⟩ := by
          intro heq
          exact hqp (Int.ofNat.inj (RID.mk.inj heq).1)
        rw [Function.update_of_ne hne]
      rw [hrow, Function.update_of_ne hqp]
      exact h.holds q hqpos hq
  · intro rid hrid
    by_cases heq : rid = ⟨p, i⟩
    · rw [heq]
      exact ⟨Int.ofNat_le.mpr hpos, Int.ofNat_lt.mpr hp, Int.natCast_nonneg i⟩
    · rw [Function.update_of_ne heq] at hrid
      exact h.live rid hrid

/-- The file gets an empty page more. -/
theorem extend (h : Stored recordSize size pages store) (hroom : size < BPFileHeader.maxPageNum) {page : Memory}
    (hpage : Holds recordSize page fun _ => none) :
    Stored recordSize (size + 1)
      (Function.update (Function.update pages bpHeaderPage (BPFileHeader.extend (pages bpHeaderPage) size)) size page)
      store := by
  have hsize : 1 ≤ size := by
    have hpos := h.header.pos
    rw [h.count] at hpos
    exact_mod_cast hpos
  have hheader : Function.update (Function.update pages bpHeaderPage (BPFileHeader.extend (pages bpHeaderPage) size)) size
      page bpHeaderPage = BPFileHeader.extend (pages bpHeaderPage) size := by
    have hne : bpHeaderPage ≠ size := Nat.ne_of_lt hsize
    rw [Function.update_of_ne hne, Function.update_self]
  have hcount := h.header.pageCount_extend (i := size)
  refine ⟨?_, ?_, ?_, ?_, ?_⟩
  · rw [hheader]
    exact h.header.extend h.count.symm hroom
  · rw [hheader, hcount, h.count]
    rfl
  · intro p hp
    rw [hheader]
    simp only [BPFileHeader.extend, BPFileHeader.allocated_setAllocated, BPFileHeader.allocated_setPageCount,
      BPFileHeader.allocated_setAllocatedPages, Bool.or_eq_true, decide_eq_true_eq]
    cases Nat.lt_succ_iff_lt_or_eq.mp hp with
    | inl hlt => exact Or.inl (h.allocated p hlt)
    | inr heq => exact Or.inr heq
  · intro q hqpos hq
    by_cases hqsize : q = size
    · have hrow : (fun i : ℕ => store ⟨q, i⟩) = fun _ => none := by
        funext i
        by_contra hsome
        have hlt := (h.live ⟨q, i⟩ (Option.isSome_iff_ne_none.mpr hsome)).2.1
        dsimp only at hlt
        omega
      rw [hrow, hqsize, Function.update_self]
      exact hpage
    · have hne : q ≠ bpHeaderPage := Nat.ne_of_gt hqpos
      rw [Function.update_of_ne hqsize, Function.update_of_ne hne]
      exact h.holds q hqpos (by omega)
  · intro rid hrid
    have hlive := h.live rid hrid
    omega

end Stored

/-! ## Calls -/

/-- A call on a record file. `order` is the order in which the hash set of free pages is walked through. -/
inductive Call
  | insertRecord (data : Memory) (order : List PageNum)
  | updateRecord (data : Memory) (rid : RID)
  | deleteRecord (rid : RID)
  | visitRecord (rid : RID) (visitor : Bytes → Bytes)

/-- What a call returns: the code, the identifier that an insertion gives, the bytes that a visitor finds. -/
structure Answer where
  rc : RC
  rid : Option RID
  data : Option Bytes

/-- The identifier is one of a slot of a record page. -/
def NamesSlot (rid : RID) : Prop := rid.pageNum ≠ bpHeaderPage ∧ 0 ≤ rid.slotNum

instance (rid : RID) : Decidable (NamesSlot rid) :=
  inferInstanceAs (Decidable (rid.pageNum ≠ bpHeaderPage ∧ 0 ≤ rid.slotNum))

/-- The set of free pages is walked through once, and identifiers name slots. -/
def Call.Allowed (free : Finset PageNum) : Call → Prop
  | .insertRecord _ order => order.Nodup ∧ order.toFinset = free
  | .updateRecord _ rid | .deleteRecord rid | .visitRecord rid _ => NamesSlot rid

instance (free : Finset PageNum) (call : Call) : Decidable (call.Allowed free) :=
  match call with
  | .insertRecord _ order => inferInstanceAs (Decidable (order.Nodup ∧ order.toFinset = free))
  | .updateRecord _ rid => inferInstanceAs (Decidable (NamesSlot rid))
  | .deleteRecord rid => inferInstanceAs (Decidable (NamesSlot rid))
  | .visitRecord rid _ => inferInstanceAs (Decidable (NamesSlot rid))

namespace RecordFileHandler

/-- One call. -/
def call (recordSize : ℕ) (s : RecordFileHandler) : Call → Option (Answer × RecordFileHandler)
  | .insertRecord data order => (s.insertRecord data recordSize order).map fun r => (⟨r.1, r.2.1, none⟩, r.2.2)
  | .updateRecord data rid => (s.updateRecord data rid).map fun r => (⟨r.1, none, none⟩, r.2)
  | .deleteRecord rid => (s.deleteRecord rid).map fun r => (⟨r.1, none, none⟩, r.2)
  | .visitRecord rid visitor => (s.visitRecord rid visitor).map fun r => (⟨r.1, none, r.2.1⟩, r.2.2)

end RecordFileHandler

/-- The step of the map, from the answer of the call. -/
def Store.apply (recordSize : ℕ) (store : Store) : Call → Answer → Store
  | .insertRecord data _, ⟨.success, some rid, _⟩ => Function.update store rid (some (data.read 0 recordSize))
  | .updateRecord data rid, ⟨.success, _, _⟩ => Function.update store rid (some (data.read 0 recordSize))
  | .deleteRecord rid, ⟨.success, _, _⟩ => Function.update store rid none
  | .visitRecord rid visitor, ⟨.success, _, some data⟩ =>
    Function.update store rid (some ((asMemory (visitor data)).read 0 recordSize))
  | _, _ => store

/-- The answer is that of the map: a new identifier was not in use, unless the file has no room for another page; an
identifier can be updated, deleted or visited if and only if it is in use, and a visitor finds its bytes. -/
def Answers (full : Bool) (store : Store) : Call → Answer → Prop
  | .insertRecord _ _, answer =>
    (answer.rc = .success ∧ ∃ rid, answer.rid = some rid ∧ NamesSlot rid ∧ store rid = none) ∨
      (answer.rc = .bufferpoolNobuf ∧ answer.rid = none ∧ full = true)
  | .updateRecord _ rid, answer | .deleteRecord rid, answer => answer.rc = .success ↔ (store rid).isSome = true
  | .visitRecord rid _, answer => (answer.rc = .success ↔ (store rid).isSome = true) ∧ answer.data = store rid

/-- The pages hold the map, and the free pages are pages of records. -/
def Valid (recordSize size : ℕ) (pages : PageNum → Memory) (free : Finset PageNum) (store : Store) : Prop :=
  Stored recordSize size pages store ∧ ∀ p ∈ free, 1 ≤ p ∧ p < size

/-- A call on any handler with these pages and free pages gives this answer and leads to those pages and free pages,
whatever of the file is in frames. -/
def Leads (recordSize size : ℕ) (pages : PageNum → Memory) (free : Finset PageNum) (call : Call) (answer : Answer)
    (size' : ℕ) (pages' : PageNum → Memory) (free' : Finset PageNum) : Prop :=
  ∀ pool, Shows recordSize pool size pages → ∃ pool', Shows recordSize pool' size' pages' ∧
    (⟨pool, free⟩ : RecordFileHandler).call recordSize call = some (answer, ⟨pool', free'⟩)

/-- The answer is right, and the pages that the call leads to hold the new map. -/
def Step (recordSize size : ℕ) (pages : PageNum → Memory) (free : Finset PageNum) (store : Store) (call : Call) : Prop :=
  ∃ answer size' pages' free', Leads recordSize size pages free call answer size' pages' free' ∧
    Answers (BPFileHeader.full (pages bpHeaderPage)) store call answer ∧
    Valid recordSize size' pages' free' (store.apply recordSize call answer)

section Calls

open RecordFileHandler

variable {recordSize size : ℕ} {pages : PageNum → Memory} {free : Finset PageNum} {store : Store}

/-- The pages that the loop over the free pages passes over are full. -/
theorem findPage_spec (pages : PageNum → Memory) {order : List PageNum} (horder : ∀ p ∈ order, p < size) :
    ∃ found rest, (∀ p ∈ rest, p ∈ order) ∧
      (∀ p, found = some p → p ∈ order ∧ RecordPageHandler.isFull (pages p) = false) ∧
      ∀ pool, Shows recordSize pool size pages → ∃ pool', Shows recordSize pool' size pages ∧
        findPage pool order = (.success, found, pool', rest) := by
  induction order with
  | nil =>
    refine ⟨none, [], fun p hp => hp, ?_, fun pool h => ⟨pool, h, rfl⟩⟩
    intro p hp
    cases hp
  | cons p order ih =>
    obtain ⟨found, rest, hrest, hfound, hfind⟩ := ih fun q hq => horder q (List.mem_cons_of_mem p hq)
    have hp := horder p List.mem_cons_self
    have hget : ∀ pool, Shows recordSize pool size pages → ∃ dirty pool',
        pool.getThisPage p = (.success, some ⟨pages p, dirty⟩, pool') ∧ Shows recordSize pool' size pages := by
      intro pool h
      obtain ⟨dirty, pool', hget, -, h'⟩ := h.getThisPage_inside (Int.natCast_nonneg p) (Int.ofNat_lt.mpr hp)
      exact ⟨dirty, pool', hget, h'⟩
    by_cases hfull : RecordPageHandler.isFull (pages p) = true
    · refine ⟨found, rest, fun q hq => List.mem_cons_of_mem p (hrest q hq),
        fun q hq => ⟨List.mem_cons_of_mem p (hfound q hq).1, (hfound q hq).2⟩, fun pool h => ?_⟩
      obtain ⟨dirty, pool₁, hget, h₁⟩ := hget pool h
      obtain ⟨pool₂, h₂, hfind⟩ := hfind pool₁ h₁
      refine ⟨pool₂, h₂, ?_⟩
      rw [findPage, hget]
      dsimp only
      rw [if_pos hfull, hfind]
    · refine ⟨some p, p :: order, fun q hq => hq, ?_, fun pool h => ?_⟩
      · intro q hq
        cases hq
        exact ⟨List.mem_cons_self, Bool.eq_false_of_not_eq_true hfull⟩
      · obtain ⟨dirty, pool₁, hget, h₁⟩ := hget pool h
        refine ⟨pool₁, h₁, ?_⟩
        rw [findPage, hget]
        dsimp only
        rw [if_neg hfull]

theorem insertInto_spec (hvalid : Valid recordSize size pages free store) {p : PageNum} (hpos : 1 ≤ p) (hp : p < size)
    (hroom : RecordPageHandler.isFull (pages p) = false) (data : Memory) :
    ∃ rid pages', NamesSlot rid ∧ store rid = none ∧
      Valid recordSize size pages' free (Function.update store rid (some (data.read 0 recordSize))) ∧
      ∀ pool, Shows recordSize pool size pages → ∃ pool', Shows recordSize pool' size pages' ∧
        insertInto pool free p data = some (.success, some rid, ⟨pool', free⟩) := by
  obtain ⟨i, page', hi, hnone, hinsert, hpage⟩ := (hvalid.1.holds p hpos hp).insertRecord hroom data
  refine ⟨⟨p, i⟩, _, ⟨fun heq => Nat.ne_of_gt hpos (Int.ofNat.inj heq), Int.natCast_nonneg i⟩, hnone,
    ⟨hvalid.1.write hpos hp hpage, hvalid.2⟩, fun pool h => ⟨_, h.setDirty hp page', ?_⟩⟩
  rw [insertInto, h.page_eq, hinsert]
  rfl

theorem allocatePage_spec (hstored : Stored recordSize size pages store) :
    (BPFileHeader.full (pages bpHeaderPage) = true ∧
      ∀ pool, Shows recordSize pool size pages → pool.allocatePage = (.bufferpoolNobuf, none, pool)) ∨
    size < BPFileHeader.maxPageNum ∧ ∀ pool, Shows recordSize pool size pages → ∃ pool',
      Shows recordSize pool' (size + 1) (Function.update
        (Function.update pages bpHeaderPage (BPFileHeader.extend (pages bpHeaderPage) size)) size fun _ => 0) ∧
      pool.allocatePage = (.success, some size, pool') := by
  have hsize : bpHeaderPage < size := by
    have hpos := hstored.header.pos
    rw [hstored.count] at hpos
    exact_mod_cast hpos
  have halloc : ∀ pool, Shows recordSize pool size pages → pool.allocatePage = pool.allocateFound none := by
    intro pool h
    rw [DiskBufferPool.allocatePage, h.page_eq, hstored.freePage_eq]
  by_cases hfull : BPFileHeader.full (pages bpHeaderPage) = true
  · left
    refine ⟨hfull, fun pool h => ?_⟩
    rw [halloc pool h, DiskBufferPool.allocateFound, h.page_eq, if_pos hfull]
  · right
    have hroom : size < BPFileHeader.maxPageNum := by
      rw [BPFileHeader.full, decide_eq_true_eq, hstored.count, Int.ofNat_le] at hfull
      exact not_le.mp hfull
    refine ⟨hroom, fun pool h => ?_⟩
    have happend := (h.setDirty hsize (BPFileHeader.extend (pages bpHeaderPage) size)).rewrite size ⟨fun _ => 0, false⟩
    rw [max_eq_right (Nat.le_succ size)] at happend
    refine ⟨_, happend, ?_⟩
    rw [halloc pool h, DiskBufferPool.allocateFound, h.page_eq, if_neg hfull, hstored.count, Int.toNat_natCast]

theorem insertRecord_step (hfits : Fits recordSize) (hvalid : Valid recordSize size pages free store) (data : Memory)
    {order : List PageNum} (horder : order.toFinset = free) :
    Step recordSize size pages free store (.insertRecord data order) := by
  have hbounds : ∀ p ∈ order, 1 ≤ p ∧ p < size := fun p hp =>
    hvalid.2 p (by rw [← horder]; exact List.mem_toFinset.mpr hp)
  obtain ⟨found, rest, hrest, hfound, hfind⟩ := findPage_spec pages fun p hp => (hbounds p hp).2
  have hfree : ∀ p ∈ rest.toFinset, 1 ≤ p ∧ p < size := fun p hp => hbounds p (hrest p (List.mem_toFinset.mp hp))
  cases found with
  | some p =>
    obtain ⟨hp, hroom⟩ := hfound p rfl
    obtain ⟨rid, pages', hnames, hnone, hvalid', hinsert⟩ :=
      insertInto_spec ⟨hvalid.1, hfree⟩ (hbounds p hp).1 (hbounds p hp).2 hroom data
    refine ⟨⟨.success, some rid, none⟩, size, pages', rest.toFinset, fun pool h => ?_,
      Or.inl ⟨rfl, rid, rfl, hnames, hnone⟩, hvalid'⟩
    obtain ⟨pool₁, h₁, hfind⟩ := hfind pool h
    obtain ⟨pool₂, h₂, hinsert⟩ := hinsert pool₁ h₁
    refine ⟨pool₂, h₂, ?_⟩
    rw [call, RecordFileHandler.insertRecord, hfind, insertFound, hinsert]
    rfl
  | none =>
    -- no page has room: the file gets another one, or it cannot
    rcases allocatePage_spec hvalid.1 with ⟨hfull, halloc⟩ | ⟨hlt, halloc⟩
    · refine ⟨⟨.bufferpoolNobuf, none, none⟩, size, pages, rest.toFinset, fun pool h => ?_, Or.inr ⟨rfl, rfl, hfull⟩,
        hvalid.1, hfree⟩
      obtain ⟨pool₁, h₁, hfind⟩ := hfind pool h
      refine ⟨pool₁, h₁, ?_⟩
      rw [call, RecordFileHandler.insertRecord, hfind, insertFound, halloc pool₁ h₁]
      rfl
    · have hsize : 1 ≤ size := by
        have hpos := hvalid.1.header.pos
        rw [hvalid.1.count] at hpos
        exact_mod_cast hpos
      have hempty := Holds.initEmptyPage hfits fun _ => 0
      have hisFull : RecordPageHandler.isFull (initEmptyPage (fun _ => 0) recordSize) = false := by
        rw [← Bool.not_eq_true, hempty.isFull_iff]
        intro hall
        have hused := hall 0 (capacity_pos hfits)
        rw [hempty.used 0 (capacity_pos hfits)] at hused
        cases hused
      have hfree' : ∀ q ∈ insert size rest.toFinset, 1 ≤ q ∧ q < size + 1 := by
        intro q hq
        cases Finset.mem_insert.mp hq with
        | inl heq =>
          rw [heq]
          exact ⟨hsize, Nat.lt_succ_self size⟩
        | inr hmem => exact ⟨(hfree q hmem).1, Nat.lt_succ_of_lt (hfree q hmem).2⟩
      obtain ⟨rid, pages', hnames, hnone, hvalid', hinsert⟩ := insertInto_spec ⟨hvalid.1.extend hlt hempty, hfree'⟩
        hsize (Nat.lt_succ_self size) (by rw [Function.update_self]; exact hisFull) data
      refine ⟨⟨.success, some rid, none⟩, size + 1, pages', insert size rest.toFinset, fun pool h => ?_,
        Or.inl ⟨rfl, rid, rfl, hnames, hnone⟩, hvalid'⟩
      obtain ⟨pool₁, h₁, hfind⟩ := hfind pool h
      obtain ⟨pool₂, h₂, halloc⟩ := halloc pool₁ h₁
      have hpage : pool₂.page size = fun _ => 0 := by rw [h₂.page_eq, Function.update_self]
      have hinit := h₂.rewrite size ⟨initEmptyPage (fun _ => 0) recordSize, false⟩
      rw [Function.update_idem, max_self] at hinit
      obtain ⟨pool₃, h₃, hinsert⟩ := hinsert _ hinit
      refine ⟨pool₃, h₃, ?_⟩
      rw [call, RecordFileHandler.insertRecord, hfind, insertFound, halloc, insertNew, hpage, hinsert]
      rfl

/-- An identifier that names a slot is one of a page of the file, or it is not in use. -/
theorem getThisPage_cases (hvalid : Valid recordSize size pages free store) {rid : RID} (hrid : NamesSlot rid) :
    (∃ p i : ℕ, rid = ⟨p, i⟩ ∧ 1 ≤ p ∧ p < size ∧ ∀ pool, Shows recordSize pool size pages →
        ∃ dirty pool', pool.getThisPage rid.pageNum = (.success, some ⟨pages p, dirty⟩, pool') ∧
          pool'.frames p = some ⟨pages p, dirty⟩ ∧ Shows recordSize pool' size pages) ∨
      store rid = none ∧ ∃ rc, rc ≠ .success ∧
        ∀ pool, Shows recordSize pool size pages → pool.getThisPage rid.pageNum = (rc, none, pool) := by
  obtain ⟨hpage, hslot⟩ := hrid
  by_cases hinside : 0 ≤ rid.pageNum ∧ rid.pageNum < size
  · left
    have hpos : rid.pageNum ≠ 0 := hpage
    refine ⟨rid.pageNum.toNat, rid.slotNum.toNat, ?_, by omega, by omega, fun pool h => ?_⟩
    · rw [Int.toNat_of_nonneg hinside.1, Int.toNat_of_nonneg hslot]
    · exact h.getThisPage_inside hinside.1 hinside.2
  · right
    refine ⟨?_, Shows.getThisPage_outside recordSize pages (by omega)⟩
    by_contra hsome
    have hlive := hvalid.1.live rid (Option.isSome_iff_ne_none.mpr hsome)
    omega

theorem Store.apply_of_fail (recordSize : ℕ) (store : Store) (call : Call) {answer : Answer}
    (h : answer.rc ≠ .success) : store.apply recordSize call answer = store := by
  obtain ⟨rc, rid, data⟩ := answer
  cases call <;> cases rc <;> first | exact absurd rfl h | rfl

theorem Shows.setFrame_same {pool : DiskBufferPool} (h : Shows recordSize pool size pages) {p : PageNum} (hp : p < size)
    {dirty : Bool} (hframe : pool.frames p = some ⟨pages p, dirty⟩) :
    Shows recordSize (pool.setFrame p ⟨pages p, dirty⟩) size pages := by
  have hset := h.setFrame hp ⟨pages p, dirty⟩ fun hpos hclean => h.clean p hpos _ hframe hclean
  rwa [Function.update_eq_self] at hset

/-- A call that fails on an identifier that is not in use leaves pages and map as they were. -/
theorem Step.of_fail (hvalid : Valid recordSize size pages free store) {call : Call} (answer : Answer)
    (hrc : answer.rc ≠ .success) (hanswers : Answers (BPFileHeader.full (pages bpHeaderPage)) store call answer)
    (hleads : Leads recordSize size pages free call answer size pages free) :
    Step recordSize size pages free store call := by
  refine ⟨answer, size, pages, free, hleads, hanswers, ?_⟩
  rw [Store.apply_of_fail recordSize store call hrc]
  exact hvalid

theorem success_iff_of_none {rc : RC} (hrc : rc ≠ .success) {rid : RID} (hnone : store rid = none) :
    rc = .success ↔ (store rid).isSome = true := by
  refine iff_of_false hrc ?_
  rw [hnone]
  exact Bool.false_ne_true

theorem updateRecord_step (hvalid : Valid recordSize size pages free store) (data : Memory) {rid : RID}
    (hrid : NamesSlot rid) : Step recordSize size pages free store (.updateRecord data rid) := by
  rcases getThisPage_cases hvalid hrid with ⟨p, i, rfl, hpos, hp, hget⟩ | ⟨hnone, rc, hrc, hget⟩
  · rcases (hvalid.1.holds p hpos hp).updateRecord data (Int.natCast_nonneg i) with
      ⟨hlive, page', hupdate, hpage⟩ | ⟨hnone, rc, hrc, hupdate⟩
    · refine ⟨⟨.success, none, none⟩, size, _, free, fun pool h => ?_, iff_of_true rfl hlive,
        hvalid.1.write hpos hp hpage, hvalid.2⟩
      obtain ⟨dirty, pool', hget, -, h'⟩ := hget pool h
      refine ⟨_, h'.setDirty hp page', ?_⟩
      rw [call, RecordFileHandler.updateRecord, hget, onPage, hupdate]
      rfl
    · refine Step.of_fail hvalid ⟨rc, none, none⟩ hrc (success_iff_of_none hrc hnone) fun pool h => ?_
      obtain ⟨dirty, pool', hget, hframe, h'⟩ := hget pool h
      refine ⟨_, h'.setFrame_same hp hframe, ?_⟩
      rw [call, RecordFileHandler.updateRecord, hget, onPage, hupdate]
      rfl
  · refine Step.of_fail hvalid ⟨rc, none, none⟩ hrc (success_iff_of_none hrc hnone) fun pool h => ⟨pool, h, ?_⟩
    rw [call, RecordFileHandler.updateRecord, hget pool h]
    cases rc <;> rfl

theorem deleteRecord_step (hvalid : Valid recordSize size pages free store) {rid : RID} (hrid : NamesSlot rid) :
    Step recordSize size pages free store (.deleteRecord rid) := by
  rcases getThisPage_cases hvalid hrid with ⟨p, i, rfl, hpos, hp, hget⟩ | ⟨hnone, rc, hrc, hget⟩
  · rcases (hvalid.1.holds p hpos hp).deleteRecord (Int.natCast_nonneg i) with
      ⟨hlive, page', hdelete, hpage⟩ | ⟨hnone, rc, hrc, hdelete⟩
    · have hfree : ∀ q ∈ insert p free, 1 ≤ q ∧ q < size := by
        intro q hq
        rcases Finset.mem_insert.mp hq with rfl | hmem
        · exact ⟨hpos, hp⟩
        · exact hvalid.2 q hmem
      refine ⟨⟨.success, none, none⟩, size, _, insert p free, fun pool h => ?_, iff_of_true rfl hlive,
        hvalid.1.write hpos hp hpage, hfree⟩
      obtain ⟨dirty, pool', hget, -, h'⟩ := hget pool h
      refine ⟨_, h'.setDirty hp page', ?_⟩
      rw [call, RecordFileHandler.deleteRecord, hget, onPage, hdelete]
      rfl
    · refine Step.of_fail hvalid ⟨rc, none, none⟩ hrc (success_iff_of_none hrc hnone) fun pool h => ?_
      obtain ⟨dirty, pool', hget, hframe, h'⟩ := hget pool h
      refine ⟨_, h'.setFrame_same hp hframe, ?_⟩
      rw [call, RecordFileHandler.deleteRecord, hget, onPage, hdelete]
      dsimp only
      rw [Option.map_some, if_neg hrc]
      rfl
  · refine Step.of_fail hvalid ⟨rc, none, none⟩ hrc (success_iff_of_none hrc hnone) fun pool h => ⟨pool, h, ?_⟩
    rw [call, RecordFileHandler.deleteRecord, hget pool h]
    cases rc <;> rfl

theorem visitRecord_step (hvalid : Valid recordSize size pages free store) {rid : RID} (hrid : NamesSlot rid)
    (visitor : Bytes → Bytes) : Step recordSize size pages free store (.visitRecord rid visitor) := by
  rcases getThisPage_cases hvalid hrid with ⟨p, i, rfl, hpos, hp, hget⟩ | ⟨hnone, rc, hrc, hget⟩
  · have hholds := hvalid.1.holds p hpos hp
    rcases hholds.getRecord (Int.natCast_nonneg i) with ⟨data, hdata, hvisit⟩ | ⟨hnone, rc, hrc, hvisit⟩
    · rw [Int.toNat_natCast] at hdata
      have hlive : (store ⟨p, i⟩).isSome = true := by rw [hdata]; rfl
      refine ⟨⟨.success, none, some data⟩, size, _, free, fun pool h => ?_,
        ⟨iff_of_true rfl hlive, hdata.symm⟩,
        hvalid.1.write hpos hp (hholds.setRecord hlive (asMemory (visitor data))), hvalid.2⟩
      obtain ⟨dirty, pool', hget, hframe, h'⟩ := hget pool h
      refine ⟨_, h'.setFrame hp ⟨RecordPageHandler.setRecord (pages p) i (asMemory (visitor data)), dirty⟩
        fun _ hclean => (h'.clean p hpos _ hframe hclean).setRecord hholds hlive _, ?_⟩
      rw [call, RecordFileHandler.visitRecord, hget, onPage, hvisit]
      rfl
    · refine Step.of_fail hvalid ⟨rc, none, none⟩ hrc ⟨success_iff_of_none hrc hnone, hnone.symm⟩ fun pool h => ?_
      obtain ⟨dirty, pool', hget, -, h'⟩ := hget pool h
      refine ⟨pool', h', ?_⟩
      rw [call, RecordFileHandler.visitRecord, hget, onPage, hvisit]
      rfl
  · refine Step.of_fail hvalid ⟨rc, none, none⟩ hrc ⟨success_iff_of_none hrc hnone, hnone.symm⟩ fun pool h =>
      ⟨pool, h, ?_⟩
    rw [call, RecordFileHandler.visitRecord, hget pool h]
    cases rc <;> rfl

/-- Every call is a step of the map. -/
theorem call_step (hfits : Fits recordSize) (hvalid : Valid recordSize size pages free store) {call : Call}
    (hallowed : call.Allowed free) : Step recordSize size pages free store call := by
  cases call with
  | insertRecord data order => exact insertRecord_step hfits hvalid data hallowed.2
  | updateRecord data rid => exact updateRecord_step hvalid data hallowed
  | deleteRecord rid => exact deleteRecord_step hvalid hallowed
  | visitRecord rid visitor => exact visitRecord_step hvalid hallowed visitor

end Calls

/-! ## Every run -/

/-- What the pool shows holds the map. -/
def Keeps (recordSize : ℕ) (s : RecordFileHandler) (store : Store) : Prop :=
  ∃ size pages, Shows recordSize s.pool size pages ∧ Valid recordSize size pages s.freePages store

/-- The states that calls on a new file lead to, with the map that their answers make. -/
inductive Run (recordSize : ℕ) : RecordFileHandler → Store → Prop
  | create : Run recordSize .create fun _ => none
  | call {s s' : RecordFileHandler} {store : Store} (call : Call) (answer : Answer) (hrun : Run recordSize s store)
    (hallowed : call.Allowed s.freePages) (hcall : s.call recordSize call = some (answer, s')) :
    Run recordSize s' (store.apply recordSize call answer)

/-- A sequence of calls, with the map that the answers make. -/
def runCalls (recordSize : ℕ) : RecordFileHandler → Store → List Call → Option (RecordFileHandler × Store)
  | s, store, [] => some (s, store)
  | s, store, call :: calls =>
    if call.Allowed s.freePages then
      match s.call recordSize call with
      | none => none
      | some (answer, s') => runCalls recordSize s' (store.apply recordSize call answer) calls
    else none

theorem Run.runCalls {recordSize : ℕ} {s s' : RecordFileHandler} {store store' : Store} (hrun : Run recordSize s store)
    {calls : List Call} (h : runCalls recordSize s store calls = some (s', store')) : Run recordSize s' store' := by
  induction calls generalizing s store with
  | nil =>
    obtain ⟨rfl, rfl⟩ := Prod.mk.inj (Option.some.inj h)
    exact hrun
  | cons call calls ih =>
    simp only [RecordManager.runCalls] at h
    split at h
    · next hallowed =>
      split at h
      · cases h
      · next answer s₁ hcall => exact ih (.call call answer hrun hallowed hcall) h
    · cases h

theorem keeps_create (recordSize : ℕ) : Keeps recordSize .create fun _ => none := by
  have hheader : DiskBufferPool.create.page bpHeaderPage = File.createdHeader := by
    rw [DiskBufferPool.page, DiskBufferPool.create]
    dsimp only
    rw [Function.update_self]
  have hcount : BPFileHeader.pageCount File.createdHeader = 1 := by
    simp only [File.createdHeader, BPFileHeader.pageCount_setAllocated]
    exact BPFileHeader.pageCount_setPageCount (by norm_num) (by norm_num)
  have hframes : ∀ p, 1 ≤ p → DiskBufferPool.create.frames p = none := by
    intro p hp
    have hne : p ≠ bpHeaderPage := Nat.ne_of_gt hp
    rw [DiskBufferPool.create]
    dsimp only
    rw [Function.update_of_ne hne]
  refine ⟨1, DiskBufferPool.create.page, ⟨rfl, fun p => rfl, hframes, ?_⟩, ⟨?_, ?_, ?_, ?_, ?_⟩, ?_⟩
  · intro p hp frame hframe
    rw [RecordFileHandler.create, hframes p hp] at hframe
    cases hframe
  · rw [hheader]
    exact BPFileHeader.ok_created
  · rw [hheader]
    exact hcount
  · intro p hp
    obtain rfl : p = bpHeaderPage := Nat.lt_one_iff.mp hp
    rw [hheader]
    exact BPFileHeader.ok_created.self
  · intro p hpos hp
    omega
  · intro rid hrid
    cases hrid
  · intro p hp
    exact absurd hp (Finset.notMem_empty p)

theorem call_spec {recordSize : ℕ} (hfits : Fits recordSize) {s : RecordFileHandler} {store : Store}
    (hkeeps : Keeps recordSize s store) {call : Call} (hallowed : call.Allowed s.freePages) :
    ∃ answer s', s.call recordSize call = some (answer, s') ∧
      Answers (BPFileHeader.full (s.pool.page bpHeaderPage)) store call answer ∧
      Keeps recordSize s' (store.apply recordSize call answer) := by
  obtain ⟨size, pages, hshows, hvalid⟩ := hkeeps
  obtain ⟨answer, size', pages', free', hleads, hanswers, hvalid'⟩ := call_step hfits hvalid hallowed
  obtain ⟨pool', hshows', hcall⟩ := hleads s.pool hshows
  rw [hshows.page_eq]
  exact ⟨answer, _, hcall, hanswers, size', pages', hshows', hvalid'⟩

theorem Run.keeps {recordSize : ℕ} (hfits : Fits recordSize) {s : RecordFileHandler} {store : Store}
    (hrun : Run recordSize s store) : Keeps recordSize s store := by
  induction hrun with
  | create => exact keeps_create recordSize
  | call call answer _ hallowed hcall ih =>
    obtain ⟨answer', s'', hcall', -, hkeeps⟩ := call_spec hfits ih hallowed
    rw [hcall] at hcall'
    obtain ⟨rfl, rfl⟩ := Prod.mk.inj (Option.some.inj hcall')
    exact hkeeps

end Landbase.RecordManager
