import Landbase.Lib.SnapshotStore
import Landbase.Trx.OwnWrites
import Landbase.Trx.Snapshot

/-! # `MvccTrx` as a snapshot store

The versions and the ids of the transactions are read as a `SnapshotStore` whose keys are the addresses of the versions:
what is committed, what every running transaction works on, and what it has written. `visit_record` answers by it, and the
calls move it on, as long as they keep clear of three things: a deletion of a version that some running transaction does
not see yet (`Harmless`), of a version the transaction has inserted itself (`OwnOrder`), and an update that an index refuses.
-/

namespace Landbase.Trx
open Landbase.Storage Landbase.Lib Relation
set_option autoImplicit false

/-! ## The store that the versions stand for -/

/-- What a slot holds for everybody who starts now. -/
def committedValue : Option Record → Option Bytes
  | none => none
  | some record =>
    if 0 < record.beginXid ∧ (record.endXid < 0 ∨ record.endXid = maxTrxId) then some record.data else none

/-- What a slot held when the transaction with this id started. -/
def snapshotValue (trxId : ℤ) : Option Record → Option Bytes
  | none => none
  | some record =>
    if 0 < record.beginXid ∧ (record.endXid < 0 ∨ (record.beginXid ≤ trxId ∧ trxId ≤ record.endXid)) then some record.data
    else none

/-- What the transaction has made of a slot: it has filled it, emptied it, or left it alone. -/
def writtenValue (trxId : ℤ) : Option Record → Option (Option Bytes)
  | none => none
  | some record =>
    if record.beginXid = -trxId then some (some record.data) else if record.endXid = -trxId then some none else none

theorem writtenValue_of_ne {trxId : ℤ} {record : Record} (hbegin : record.beginXid ≠ -trxId) (hend : record.endXid ≠ -trxId) :
    writtenValue trxId (some record) = none := by
  rw [writtenValue, if_neg hbegin, if_neg hend]

def View.snapshotTrx (v : View) (s : ℕ) : SnapshotTrx (ℕ × RID) Bytes where
  snapshot addr := snapshotValue (v.trxId s) (v.version addr)
  writes addr := writtenValue (v.trxId s) (v.version addr)

def storeOf (v : View) : SnapshotStore ℕ (ℕ × RID) Bytes where
  committed addr := committedValue (v.version addr)
  trx s := if (v.trxes s).started then some (v.snapshotTrx s) else none

theorem storeOf_trx {v : View} {s : ℕ} (hs : v.Running s) : (storeOf v).trx s = some (v.snapshotTrx s) := if_pos hs

theorem running_of_trx {v : View} {s : ℕ} {t : SnapshotTrx (ℕ × RID) Bytes} (h : (storeOf v).trx s = some t) :
    v.Running s ∧ t = v.snapshotTrx s := by
  unfold storeOf at h
  dsimp only at h
  split at h
  · next hs => exact ⟨hs, (Option.some.inj h).symm⟩
  · cases h

theorem storeOf_congr {v v' : View} (hversion : v'.version = v.version) (hrunning : ∀ s, v'.Running s ↔ v.Running s)
    (hid : ∀ s, v'.trxId s = v.trxId s) : storeOf v' = storeOf v := by
  have htrx : (storeOf v').trx = (storeOf v).trx := by
    funext s
    have hsame : v'.snapshotTrx s = v.snapshotTrx s := by
      unfold View.snapshotTrx
      rw [hversion, hid]
    by_cases hs : v.Running s
    · rw [storeOf_trx hs, storeOf_trx ((hrunning s).mpr hs), hsame]
    · exact (if_neg fun h => hs ((hrunning s).mp h)).trans (if_neg hs).symm
  have hcommitted : (storeOf v').committed = (storeOf v).committed := by
    unfold storeOf
    rw [hversion]
  exact SnapshotStore.ext hcommitted htrx

/-- A session without a transaction, or with another one; the rest is as before. -/
theorem storeOf_eq_setTrx {v v' : View} {s : ℕ} {committed : ℕ × RID → Option Bytes}
    {t : Option (SnapshotTrx (ℕ × RID) Bytes)} (hcommitted : (storeOf v').committed = committed)
    (hs : (storeOf v').trx s = t) (hother : ∀ s', s' ≠ s → (storeOf v').trx s' = (storeOf v).trx s') :
    storeOf v' = SnapshotStore.setTrx ⟨committed, (storeOf v).trx⟩ s t := by
  have htrx : (storeOf v').trx = Function.update (storeOf v).trx s t := by
    funext s'
    by_cases heq : s' = s
    · rw [heq, Function.update_self, hs]
    · rw [Function.update_of_ne heq, hother s' heq]
  exact SnapshotStore.ext hcommitted htrx

/-- The same for a transaction that runs before and after: it works on the same values. -/
theorem storeOf_trx_eq {v v' : View} {s : ℕ} (hrunning : v'.Running s ↔ v.Running s)
    (hsame : v.Running s → v'.snapshotTrx s = v.snapshotTrx s) : (storeOf v').trx s = (storeOf v).trx s := by
  by_cases hs : v.Running s
  · rw [storeOf_trx hs, storeOf_trx (hrunning.mpr hs), hsame hs]
  · exact (if_neg fun h => hs (hrunning.mp h)).trans (if_neg hs).symm

theorem snapshotTrx_congr {v v' : View} {s : ℕ}
    (hsnapshot : ∀ addr, snapshotValue (v'.trxId s) (v'.version addr) = snapshotValue (v.trxId s) (v.version addr))
    (hwritten : ∀ addr, writtenValue (v'.trxId s) (v'.version addr) = writtenValue (v.trxId s) (v.version addr)) :
    v'.snapshotTrx s = v.snapshotTrx s := by
  unfold View.snapshotTrx
  rw [funext hsnapshot, funext hwritten]

/-! ## One write -/

/-- A single slot is written: nothing else changes. -/
theorem storeOf_setVersion {v : View} {s : ℕ} (hs : v.Running s) {addr : ℕ × RID} {record : Record}
    (change : Option Bytes) (hcommitted : committedValue (some record) = committedValue (v.version addr))
    (hsnapshot : ∀ t, v.Running t → snapshotValue (v.trxId t) (some record) = snapshotValue (v.trxId t) (v.version addr))
    (hwritten : writtenValue (v.trxId s) (some record) = some change)
    (hfree : ∀ t, v.Running t → writtenValue (v.trxId t) (v.version addr) = none)
    (hother : ∀ t, v.Running t → t ≠ s → writtenValue (v.trxId t) (some record) = none)
    (hread : snapshotValue (v.trxId s) (v.version addr) = committedValue (v.version addr)) :
    (storeOf v).Step (storeOf (v.setVersion addr record)) := by
  have hversion : ∀ addr', addr' ≠ addr → (v.setVersion addr record).version addr' = v.version addr' :=
    fun addr' hne => Function.update_of_ne hne _ _
  have hself : (v.setVersion addr record).version addr = some record := Function.update_self _ _ _
  have hsame : (storeOf (v.setVersion addr record)).committed = (storeOf v).committed := by
    funext addr'
    show committedValue _ = committedValue _
    by_cases heq : addr' = addr
    · rw [heq, hself, hcommitted]
    · rw [hversion addr' heq]
  have hsnap : ∀ t, v.Running t → ∀ addr', snapshotValue (v.trxId t) ((v.setVersion addr record).version addr') =
      snapshotValue (v.trxId t) (v.version addr') := by
    intro t ht addr'
    by_cases heq : addr' = addr
    · rw [heq, hself, hsnapshot t ht]
    · rw [hversion addr' heq]
  have hmine : (storeOf (v.setVersion addr record)).trx s = some { v.snapshotTrx s with
      writes := overlay (fun addr' => if addr' = addr then some change else none) (v.snapshotTrx s).writes } := by
    rw [storeOf_trx (show (v.setVersion addr record).Running s from hs)]
    unfold View.snapshotTrx overlay
    rw [Option.some.injEq, SnapshotTrx.mk.injEq]
    refine ⟨funext (hsnap s hs), funext fun addr' => ?_⟩
    show writtenValue (v.trxId s) _ = _
    by_cases heq : addr' = addr
    · rw [heq, hself, hwritten]
      simp
    · rw [hversion addr' heq]
      simp [heq]
  have hrest : ∀ t, t ≠ s → (storeOf (v.setVersion addr record)).trx t = (storeOf v).trx t := by
    intro t hne
    refine storeOf_trx_eq Iff.rfl fun ht => snapshotTrx_congr (hsnap t ht) fun addr' => ?_
    show writtenValue (v.trxId t) _ = _
    by_cases heq : addr' = addr
    · rw [heq, hself, hother t ht hne, hfree t ht]
    · rw [hversion addr' heq]
  rw [storeOf_eq_setTrx hsame hmine hrest]
  refine SnapshotStore.Step.write _ (storeOf_trx hs) fun addr' hchange => ?_
  have heq : addr' = addr := by
    by_contra hne
    exact hchange (if_neg hne)
  rw [heq]
  refine ⟨fun t trx hne ht => ?_, fun trx ht _ => ?_⟩
  · obtain ⟨hrunning, rfl⟩ := running_of_trx ht
    exact hfree t hrunning
  · obtain ⟨-, rfl⟩ := running_of_trx ht
    exact hread

/-- A transaction fills a free slot. -/
theorem storeOf_create {v : View} (hv : Ids v) {s : ℕ} (hs : v.Running s) {addr : ℕ × RID} (hfree : v.version addr = none)
    (data : Bytes) : (storeOf v).Step (storeOf (v.setVersion addr ⟨-v.trxId s, maxTrxId, data⟩)) := by
  have hids := hv.ids s hs
  refine storeOf_setVersion hs (some data) ?_ ?_ ?_ ?_ ?_ ?_
  · rw [hfree]
    exact if_neg (by simp only; omega)
  · intro t ht
    rw [hfree]
    exact if_neg (by simp only; omega)
  · exact if_pos rfl
  · intro t ht
    rw [hfree]
    rfl
  · intro t ht hne
    have hidt := hv.ids t ht
    have hdistinct : v.trxId t ≠ v.trxId s := fun heq => hne (hv.distinct t s ht hs heq)
    have hmax : 0 < maxTrxId := by decide
    exact writtenValue_of_ne (by dsimp only; omega) (by dsimp only; omega)
  · rw [hfree]
    rfl

/-- A transaction empties a slot whose version everybody sees. -/
theorem storeOf_mark {v : View} (hv : Ids v) {s : ℕ} (hs : v.Running s) {addr : ℕ × RID} {record : Record}
    (hrecord : v.version addr = some record) (hbegin : 0 < record.beginXid) (hend : record.endXid = maxTrxId)
    (hold : ∀ t, v.Running t → record.beginXid ≤ v.trxId t) :
    (storeOf v).Step (storeOf (v.setVersion addr { record with endXid := -v.trxId s })) := by
  have hids := hv.ids s hs
  have hmax := hv.current_lt
  have hcommitted : committedValue (some record) = some record.data := if_pos ⟨hbegin, Or.inr hend⟩
  have hsnapshot : ∀ t, v.Running t → snapshotValue (v.trxId t) (some record) = some record.data := by
    intro t ht
    have hidt := hv.ids t ht
    have hbefore := hold t ht
    exact if_pos ⟨hbegin, Or.inr ⟨hbefore, by omega⟩⟩
  have hneg : -v.trxId s < 0 := by omega
  refine storeOf_setVersion hs none ?_ ?_ ?_ ?_ ?_ ?_
  · rw [hrecord, hcommitted]
    exact if_pos ⟨hbegin, Or.inl hneg⟩
  · intro t ht
    rw [hrecord, hsnapshot t ht]
    exact if_pos ⟨hbegin, Or.inl hneg⟩
  · unfold writtenValue
    dsimp only
    rw [if_neg (by omega), if_pos rfl]
  · intro t ht
    have hidt := hv.ids t ht
    rw [hrecord]
    exact writtenValue_of_ne (by omega) (by omega)
  · intro t ht hne
    have hidt := hv.ids t ht
    have hdistinct : v.trxId t ≠ v.trxId s := fun heq => hne (hv.distinct t s ht hs heq)
    exact writtenValue_of_ne (by dsimp only; omega) (by dsimp only; omega)
  · rw [hrecord, hsnapshot s hs, hcommitted]

/-! ## Begin -/

theorem storeOf_start {v : View} (hv : Inv v) {s : ℕ} (hs : ¬v.Running s) : (storeOf v).Step (storeOf (v.startTrx s)) := by
  have hnonneg := hv.current_nonneg
  have hlt := hv.current_lt
  have hmine : (storeOf (v.startTrx s)).trx s = some ⟨(storeOf v).committed, fun _ => none⟩ := by
    rw [storeOf_trx ((v.startTrx_running s s).mpr (Or.inl rfl))]
    unfold View.snapshotTrx
    rw [Option.some.injEq, SnapshotTrx.mk.injEq, View.startTrx_trxId, if_pos rfl, View.startTrx_version]
    refine ⟨funext fun addr => ?_, funext fun addr => ?_⟩
    · show _ = committedValue (v.version addr)
      cases hrecord : v.version addr with
      | none => rfl
      | some record =>
        have hrange := hv.range addr record hrecord
        have hhigh := hrange.end_high
        have hbegin := hrange.begin_high
        refine if_congr ?_ rfl rfl
        omega
    · cases hrecord : v.version addr with
      | none => rfl
      | some record =>
        have hrange := hv.range addr record hrecord
        have hbegin := hrange.begin_low
        have hend := hrange.end_low
        exact writtenValue_of_ne (by omega) (by omega)
  have hrest : ∀ t, t ≠ s → (storeOf (v.startTrx s)).trx t = (storeOf v).trx t := by
    intro t hne
    have hid : (v.startTrx s).trxId t = v.trxId t := by rw [View.startTrx_trxId, if_neg hne]
    refine storeOf_trx_eq ?_ fun _ => snapshotTrx_congr (fun addr => ?_) (fun addr => ?_)
    · rw [View.startTrx_running]
      exact or_iff_right hne
    · rw [hid, View.startTrx_version]
    · rw [hid, View.startTrx_version]
  rw [storeOf_eq_setTrx rfl hmine hrest]
  exact SnapshotStore.Step.begin (if_neg hs)

/-! ## Commit and rollback -/

/-- A version that its own transaction has inserted is not marked; a committed one that is marked was committed before
every running transaction, and its deletion is an operation of the transaction that marked it. -/
structure Orderly (v : View) : Prop where
  whole : ∀ addr record, v.version addr = some record → record.beginXid < 0 → record.endXid = maxTrxId
  old : ∀ addr record, v.version addr = some record → 0 < record.beginXid → record.endXid < 0 →
    ∀ t, v.Running t → record.beginXid ≤ v.trxId t
  gone : ∀ addr record, v.version addr = some record → 0 < record.beginXid → record.endXid < 0 → ∃ t, Gone v t addr

/-- What a slot is to a running transaction: it has filled it, it has emptied it, or it has nothing to do with it. -/
inductive Slot (v : View) (s : ℕ) (addr : ℕ × RID) : Prop
  | filled (record : Record) (hrecord : v.version addr = some record) (hbegin : record.beginXid = -v.trxId s)
      (hend : record.endXid = maxTrxId) (hop : ⟨.insert, addr.1, addr.2⟩ ∈ v.operations s)
  | emptied (record : Record) (hrecord : v.version addr = some record) (hbegin : 0 < record.beginXid)
      (hend : record.endXid = -v.trxId s) (hop : ⟨.delete, addr.1, addr.2⟩ ∈ v.operations s)
  | other (hop : addr ∉ (v.operations s).map Operation.addr)
      (hwritten : writtenValue (v.trxId s) (v.version addr) = none)

theorem Orderly.slot {v : View} (ho : Orderly v) (hv : Inv v) {s : ℕ} (hs : v.Running s) (addr : ℕ × RID) :
    Slot v s addr := by
  have hids := hv.ids s hs
  have hmax := hv.current_lt
  cases hrecord : v.version addr with
  | none =>
    refine .other (fun hmem => ?_) (by rw [hrecord]; rfl)
    obtain ⟨op, hop, haddr⟩ := List.mem_map.mp hmem
    exact hv.fresh_addr hrecord hop haddr
  | some record =>
    have hrange := hv.range addr record hrecord
    by_cases hbegin : record.beginXid = -v.trxId s
    · obtain ⟨-, s', hs', hid, hop⟩ := hv.uncommitted addr record hrecord (by omega)
      obtain rfl := hv.distinct s s' hs hs' (by omega)
      exact .filled record hrecord hbegin (ho.whole addr record hrecord (by omega)) hop
    · by_cases hend : record.endXid = -v.trxId s
      · have hpos : 0 < record.beginXid := by
          by_contra hneg
          have hne := hrange.begin_ne
          have hwhole := ho.whole addr record hrecord (by omega)
          omega
        obtain ⟨t, ht, ⟨marked, hmarked, -, hmark⟩, hop⟩ := ho.gone addr record hrecord hpos (by omega)
        obtain rfl := Option.some.inj (hmarked.symm.trans hrecord)
        obtain rfl := hv.distinct s t hs ht (by omega)
        exact .emptied _ hrecord hpos hend hop
      · refine .other (fun hmem => ?_) ?_
        · obtain ⟨op, hop, rfl⟩ := List.mem_map.mp hmem
          obtain ⟨stored, hstored, hcase⟩ := hv.stored hop
          obtain rfl := Option.some.inj (hstored.symm.trans hrecord)
          rcases hcase with ⟨-, hb⟩ | ⟨-, -, he⟩
          · exact hbegin hb
          · exact hend he
        · rw [hrecord]
          exact writtenValue_of_ne hbegin hend

/-- Whatever became of the slots of a transaction, the others work on the same values. -/
theorem storeOf_end {v v' : View} {s : ℕ} (hid : ∀ t, v'.trxId t = v.trxId t)
    (hrunning : ∀ t, v'.Running t ↔ t ≠ s ∧ v.Running t)
    (hsnapshot : ∀ t, v.Running t → t ≠ s → ∀ addr,
      snapshotValue (v.trxId t) (v'.version addr) = snapshotValue (v.trxId t) (v.version addr))
    (hwritten : ∀ t, v.Running t → t ≠ s → ∀ addr,
      writtenValue (v.trxId t) (v'.version addr) = writtenValue (v.trxId t) (v.version addr)) :
    storeOf v' = SnapshotStore.setTrx ⟨fun addr => committedValue (v'.version addr), (storeOf v).trx⟩ s none := by
  refine storeOf_eq_setTrx rfl (if_neg fun hs => ((hrunning s).mp hs).1 rfl) fun t hne => ?_
  refine storeOf_trx_eq ((hrunning t).trans (and_iff_right hne)) fun ht => ?_
  refine snapshotTrx_congr (fun addr => ?_) (fun addr => ?_)
  · rw [hid]
    exact hsnapshot t ht hne addr
  · rw [hid]
    exact hwritten t ht hne addr

theorem storeOf_commit {v : View} (ho : Orderly v) (hv : Inv v) {s : ℕ} (hs : v.Running s) (hlt : v.current + 1 < maxTrxId)
    {version : ℕ × RID → Option Record}
    (hwalk : Walked (commitRecord (v.trxId s) (v.current + 1)) (v.operations s) v.version version) :
    (storeOf v).Step (storeOf ({ v with current := v.current + 1 }.endTrx s version)) := by
  have hids := hv.ids s hs
  have hfilled : ∀ {addr record}, v.version addr = some record → record.beginXid = -v.trxId s →
      ⟨.insert, addr.1, addr.2⟩ ∈ v.operations s → version addr = some { record with beginXid := v.current + 1 } := by
    intro addr record hrecord hbegin hop
    obtain ⟨stored, slot, hstored, hslot, hnew⟩ := hwalk.here _ hop
    obtain rfl := Option.some.inj (hstored.symm.trans hrecord)
    obtain rfl := Option.some.inj ((if_pos hbegin).symm.trans hslot)
    exact hnew
  have hemptied : ∀ {addr record}, v.version addr = some record → record.endXid = -v.trxId s →
      ⟨.delete, addr.1, addr.2⟩ ∈ v.operations s → version addr = some { record with endXid := v.current + 1 } := by
    intro addr record hrecord hend hop
    obtain ⟨stored, slot, hstored, hslot, hnew⟩ := hwalk.here _ hop
    obtain rfl := Option.some.inj (hstored.symm.trans hrecord)
    obtain rfl := Option.some.inj ((if_pos hend).symm.trans hslot)
    exact hnew
  have hcommitted : (fun addr => committedValue (version addr)) =
      fun addr => ((v.snapshotTrx s).writes addr).getD ((storeOf v).committed addr) := by
    funext addr
    show committedValue (version addr) = (writtenValue (v.trxId s) (v.version addr)).getD (committedValue (v.version addr))
    cases ho.slot hv hs addr with
    | filled record hrecord hbegin hend hop =>
      rw [hfilled hrecord hbegin hop, hrecord]
      unfold committedValue writtenValue
      dsimp only
      rw [if_pos hbegin, if_pos ⟨by omega, Or.inr hend⟩]
      rfl
    | emptied record hrecord hbegin hend hop =>
      rw [hemptied hrecord hend hop, hrecord]
      unfold committedValue writtenValue
      dsimp only
      rw [if_neg (show ¬record.beginXid = -v.trxId s by omega), if_pos hend, if_neg (by omega)]
      rfl
    | other hop hwritten =>
      rw [hwalk.other addr hop, hwritten]
      rfl
  have hid : ∀ t, ({ v with current := v.current + 1 }.endTrx s version).trxId t = v.trxId t :=
    fun t => View.endTrx_trxId _ s t version
  have hrunning : ∀ t, ({ v with current := v.current + 1 }.endTrx s version).Running t ↔ t ≠ s ∧ v.Running t :=
    fun t => View.endTrx_running _ s t version
  rw [storeOf_end hid hrunning]
  · exact hcommitted ▸ SnapshotStore.Step.commit (storeOf_trx hs)
  · intro t ht hne addr
    have hidt := hv.ids t ht
    show snapshotValue _ (version addr) = _
    cases ho.slot hv hs addr with
    | filled record hrecord hbegin hend hop =>
      rw [hfilled hrecord hbegin hop, hrecord]
      unfold snapshotValue
      dsimp only
      rw [if_neg (by omega), if_neg (by omega)]
    | emptied record hrecord hbegin hend hop =>
      have hold := ho.old addr record hrecord hbegin (by omega) t ht
      rw [hemptied hrecord hend hop, hrecord]
      unfold snapshotValue
      dsimp only
      rw [if_pos (by omega), if_pos (by omega)]
    | other hop hwritten => rw [hwalk.other addr hop]
  · intro t ht hne addr
    have hidt := hv.ids t ht
    have hdistinct : v.trxId t ≠ v.trxId s := fun heq => hne (hv.distinct t s ht hs heq)
    show writtenValue _ (version addr) = _
    cases ho.slot hv hs addr with
    | filled record hrecord hbegin hend hop =>
      rw [hfilled hrecord hbegin hop, hrecord]
      rw [writtenValue_of_ne (by dsimp only; omega) (by dsimp only; omega), writtenValue_of_ne (by omega) (by omega)]
    | emptied record hrecord hbegin hend hop =>
      rw [hemptied hrecord hend hop, hrecord]
      rw [writtenValue_of_ne (by dsimp only; omega) (by dsimp only; omega), writtenValue_of_ne (by omega) (by omega)]
    | other hop hwritten => rw [hwalk.other addr hop]

theorem storeOf_rollback {v : View} (ho : Orderly v) (hv : Inv v) {s : ℕ} (hs : v.Running s)
    {version : ℕ × RID → Option Record}
    (hwalk : Walked (rollbackRecord (v.trxId s)) (v.operations s) v.version version) :
    (storeOf v).Step (storeOf (v.endTrx s version)) := by
  have hids := hv.ids s hs
  have hmax := hv.current_lt
  have hfilled : ∀ {addr}, ⟨.insert, addr.1, addr.2⟩ ∈ v.operations s → version addr = none := by
    intro addr hop
    obtain ⟨stored, slot, hstored, hslot, hnew⟩ := hwalk.here _ hop
    obtain rfl := Option.some.inj hslot
    exact hnew
  have hemptied : ∀ {addr record}, v.version addr = some record → record.endXid = -v.trxId s →
      ⟨.delete, addr.1, addr.2⟩ ∈ v.operations s → version addr = some { record with endXid := maxTrxId } := by
    intro addr record hrecord hend hop
    obtain ⟨stored, slot, hstored, hslot, hnew⟩ := hwalk.here _ hop
    obtain rfl := Option.some.inj (hstored.symm.trans hrecord)
    obtain rfl := Option.some.inj ((if_pos hend).symm.trans hslot)
    exact hnew
  have hcommitted : (fun addr => committedValue (version addr)) = (storeOf v).committed := by
    funext addr
    show committedValue (version addr) = committedValue (v.version addr)
    cases ho.slot hv hs addr with
    | filled record hrecord hbegin hend hop =>
      rw [hfilled hop, hrecord]
      exact (if_neg (by omega)).symm
    | emptied record hrecord hbegin hend hop =>
      rw [hemptied hrecord hend hop, hrecord]
      unfold committedValue
      dsimp only
      rw [if_pos ⟨hbegin, Or.inr rfl⟩, if_pos (by omega)]
    | other hop hwritten => rw [hwalk.other addr hop]
  rw [storeOf_end (fun t => View.endTrx_trxId v s t version) (fun t => View.endTrx_running v s t version)]
  · exact hcommitted ▸ SnapshotStore.Step.rollback (storeOf_trx hs)
  · intro t ht hne addr
    have hidt := hv.ids t ht
    show snapshotValue _ (version addr) = _
    cases ho.slot hv hs addr with
    | filled record hrecord hbegin hend hop =>
      rw [hfilled hop, hrecord]
      exact (if_neg (by omega)).symm
    | emptied record hrecord hbegin hend hop =>
      have hold := ho.old addr record hrecord hbegin (by omega) t ht
      rw [hemptied hrecord hend hop, hrecord]
      unfold snapshotValue
      dsimp only
      rw [if_pos (by omega), if_pos (by omega)]
    | other hop hwritten => rw [hwalk.other addr hop]
  · intro t ht hne addr
    have hidt := hv.ids t ht
    have hdistinct : v.trxId t ≠ v.trxId s := fun heq => hne (hv.distinct t s ht hs heq)
    show writtenValue _ (version addr) = _
    cases ho.slot hv hs addr with
    | filled record hrecord hbegin hend hop =>
      rw [hfilled hop, hrecord]
      rw [writtenValue_of_ne (by omega) (by omega)]
      rfl
    | emptied record hrecord hbegin hend hop =>
      rw [hemptied hrecord hend hop, hrecord]
      rw [writtenValue_of_ne (by dsimp only; omega) (by dsimp only; omega), writtenValue_of_ne (by omega) (by omega)]
    | other hop hwritten => rw [hwalk.other addr hop]

/-! ## Every call -/

/-- What a transaction marks is committed, unmarked, and older than every running transaction. -/
theorem marks_newest {v : View} (hv : Inv v) {s : ℕ} (hs : v.Running s) {act : Act} (hharmless : Harmless v s act)
    (horder : OwnOrder v s act) {addr : ℕ × RID} {record : Record} (hmarks : act.Marks v s addr record) :
    0 < record.beginXid ∧ record.endXid = maxTrxId ∧ ∀ t, v.Running t → record.beginXid ≤ v.trxId t := by
  obtain ⟨htarget, hrecord⟩ := hmarks.target
  obtain ⟨hbegin, hend⟩ := horder.newest hv hs htarget hrecord
  have hrange := hv.range addr record hrecord
  have hids := hv.ids s hs
  refine ⟨hbegin, hend, fun t ht => ?_⟩
  by_cases heq : t = s
  · have hvisit := horder.1 addr htarget record hrecord
    rw [visit_write hids.1 record hrange.begin_ne hrange.end_ne] at hvisit
    rw [heq]
    omega
  · obtain ⟨-, hsees⟩ := (hharmless.marks addr record hmarks).resolve_left (by omega)
    have hvisit := hsees t ht heq
    have hidt := hv.ids t ht
    have hmax : 0 < maxTrxId := by decide
    rw [visit_read hidt.1 record hrange.begin_ne hrange.end_ne] at hvisit
    omega

/-- A transaction that ends leaves no mark behind. -/
theorem Gone.unmarked {v v' : View} {s : ℕ} {act : Act} {rc : RC} {addr : ℕ × RID} (hg : Gone v s addr) (hv : Inv v)
    (h : Effect v s act rc v') (hends : act.IsCommit ∨ act.IsRollback) {record : Record}
    (hrecord : v'.version addr = some record) : 0 < record.endXid := by
  have hnonneg := hv.current_nonneg
  obtain ⟨-, -, hop⟩ := hg
  cases h with
  | commit hstarted order version hwalk =>
    obtain ⟨stored, slot, -, hslot, hnew⟩ := hwalk.here _ hop
    simp only [commitRecord] at hslot
    split at hslot
    · obtain rfl := Option.some.inj hslot
      obtain rfl := Option.some.inj (hnew.symm.trans hrecord)
      dsimp only
      omega
    · cases hslot
  | rollback hstarted order version hwalk =>
    obtain ⟨stored, slot, -, hslot, hnew⟩ := hwalk.here _ hop
    simp only [rollbackRecord] at hslot
    split at hslot
    · obtain rfl := Option.some.inj hslot
      obtain rfl := Option.some.inj (hnew.symm.trans hrecord)
      show 0 < maxTrxId
      decide
    · cases hslot
  | _ => exact (hends.elim id id).elim

theorem Orderly.step {v v' : View} {s : ℕ} {act : Act} {rc : RC} (ho : Orderly v) (hv : Inv v) (h : Effect v s act rc v')
    (hharmless : Harmless v s act) (horder : OwnOrder v s act) (hrc : act.target ≠ none → rc = .success) : Orderly v' := by
  have hnonneg := hv.current_nonneg
  have hmarked : ∀ {addr record}, v.Running s → act.Marks v s addr record → 0 < record.beginXid :=
    fun hs hmarks => (marks_newest hv hs hharmless horder hmarks).1
  refine ⟨?_, ?_, ?_⟩
  · intro addr record' hrecord' hbegin
    have hchange := hv.change h hharmless.proper addr
    generalize hslot : v.version addr = slot at hchange
    rw [hrecord'] at hchange
    generalize hslot' : some record' = slot' at hchange
    cases hchange with
    | same => exact ho.whole addr record' (by rw [hslot, hslot']) hbegin
    | created hs data =>
      obtain rfl := Option.some.inj hslot'
      rfl
    | marked hs record hmarks hcase =>
      obtain rfl := Option.some.inj hslot'
      have hpos := hmarked hs hmarks
      dsimp only at hbegin
      omega
    | insertCommitted record hact hop hb =>
      obtain rfl := Option.some.inj hslot'
      dsimp only at hbegin
      omega
    | deleteCommitted record hact hop hb he =>
      obtain rfl := Option.some.inj hslot'
      dsimp only at hbegin
      omega
    | insertUndone record hact hop hb => cases hslot'
    | deleteUndone record hact hop hb he =>
      obtain rfl := Option.some.inj hslot'
      rfl
  · intro addr record' hrecord' hbegin hend t ht
    have hchange := hv.change h hharmless.proper addr
    generalize hslot : v.version addr = slot at hchange
    rw [hrecord'] at hchange
    generalize hslot' : some record' = slot' at hchange
    cases hchange with
    | same =>
      have hrecord : v.version addr = some record' := by rw [hslot, hslot']
      rcases h.running_before ht with ⟨hrunning, hid, -⟩ | ⟨-, -, -, hid⟩
      · rw [hid]
        exact ho.old addr record' hrecord hbegin hend t hrunning
      · have hrange := (hv.range addr record' hrecord).begin_high
        omega
    | created hs data =>
      obtain rfl := Option.some.inj hslot'
      have hids := hv.ids s hs
      dsimp only at hbegin
      omega
    | marked hs record hmarks hcase =>
      obtain rfl := Option.some.inj hslot'
      rcases h.running_before ht with ⟨hrunning, hid, -⟩ | ⟨rfl, -, -, -⟩
      · rw [hid]
        exact (marks_newest hv hs hharmless horder hmarks).2.2 t hrunning
      · exact hmarks.elim
    | insertCommitted record hact hop hb =>
      obtain rfl := Option.some.inj hslot'
      have hids := hv.ids s (hv.running_of_mem hop)
      have hwhole := ho.whole addr record hslot (by omega)
      dsimp only at hend
      rw [hwhole] at hend
      exact absurd hend (by decide)
    | deleteCommitted record hact hop hb he =>
      obtain rfl := Option.some.inj hslot'
      dsimp only at hend
      omega
    | insertUndone record hact hop hb => cases hslot'
    | deleteUndone record hact hop hb he =>
      obtain rfl := Option.some.inj hslot'
      exact absurd (show maxTrxId < 0 from hend) (by decide)
  · intro addr record' hrecord' hbegin hend
    have hchange := hv.change h hharmless.proper addr
    generalize hslot : v.version addr = slot at hchange
    rw [hrecord'] at hchange
    generalize hslot' : some record' = slot' at hchange
    cases hchange with
    | same =>
      obtain ⟨t, hgone⟩ := ho.gone addr record' (by rw [hslot, hslot']) hbegin hend
      by_cases hends : s = t ∧ (act.IsCommit ∨ act.IsRollback)
      · obtain ⟨rfl, hact⟩ := hends
        have hpos := hgone.unmarked hv h hact hrecord'
        omega
      · refine ⟨t, hgone.step hv h horder fun heq => ?_⟩
        exact not_or.mp fun hact => hends ⟨heq, hact⟩
    | created hs data =>
      obtain rfl := Option.some.inj hslot'
      have hids := hv.ids s hs
      dsimp only at hbegin
      omega
    | marked hs record hmarks hcase =>
      obtain rfl := hrc (by rw [hmarks.target.1]; exact Option.some_ne_none _)
      exact ⟨s, Gone.of_write hv h horder hmarks.target.1⟩
    | insertCommitted record hact hop hb =>
      obtain rfl := Option.some.inj hslot'
      have hids := hv.ids s (hv.running_of_mem hop)
      have hwhole := ho.whole addr record hslot (by omega)
      dsimp only at hend
      rw [hwhole] at hend
      exact absurd hend (by decide)
    | deleteCommitted record hact hop hb he =>
      obtain rfl := Option.some.inj hslot'
      dsimp only at hend
      omega
    | insertUndone record hact hop hb => cases hslot'
    | deleteUndone record hact hop hb he =>
      obtain rfl := Option.some.inj hslot'
      exact absurd (show maxTrxId < 0 from hend) (by decide)

theorem storeOf_addOperation (v : View) (s : ℕ) (op : Operation) : storeOf (v.addOperation s op) = storeOf v :=
  storeOf_congr rfl (fun t => View.addOperation_running v s t op) fun t => View.addOperation_trxId v s t op

theorem storeOf_step {v v' : View} {s : ℕ} {act : Act} {rc : RC} (ho : Orderly v) (hv : Inv v) (h : Effect v s act rc v')
    (hharmless : Harmless v s act) (horder : OwnOrder v s act) (hrc : act.target ≠ none → rc = .success)
    (hlt : v'.current < maxTrxId) : ReflTransGen SnapshotStore.Step (storeOf v) (storeOf v') := by
  cases h with
  | start hstarted hops =>
    refine ReflTransGen.single (storeOf_start hv fun hs => ?_)
    rw [View.Running, hstarted] at hs
    cases hs
  | insert hstarted table data rid hfree rc hrc =>
    rw [storeOf_addOperation]
    exact ReflTransGen.single (storeOf_create hv.toIds hstarted hfree data)
  | delete hstarted table rid record hrecord hnew =>
    have hmarks : (Act.deleteRecord table rid).Marks v s (table, rid) record := ⟨rfl, hrecord, hnew⟩
    obtain ⟨hbegin, hend, hold⟩ := marks_newest hv hstarted hharmless horder hmarks
    rw [storeOf_addOperation]
    exact ReflTransGen.single (storeOf_mark hv.toIds hstarted hrecord hbegin hend hold)
  | updateRefused hstarted table rid newData newRid record hrecord hvisit rc hrefused =>
    exact absurd (hrc (Option.some_ne_none _)) hrefused
  | update hstarted table rid newData newRid record hrecord hfree hvisit =>
    have hmarks : (Act.updateRecord table rid newData newRid).Marks v s (table, rid) record := ⟨rfl, hrecord, hvisit⟩
    obtain ⟨hbegin, hend, hold⟩ := marks_newest hv hstarted hharmless horder hmarks
    have hne : (table, newRid) ≠ (table, rid) := by
      intro heq
      rw [heq, hrecord] at hfree
      cases hfree
    have hfree' : (v.setVersion (table, rid) { record with endXid := -v.trxId s }).version (table, newRid) = none := by
      rw [View.setVersion_version, Function.update_of_ne hne, hfree]
    rw [storeOf_addOperation, storeOf_addOperation]
    refine (ReflTransGen.single (storeOf_mark hv.toIds hstarted hrecord hbegin hend hold)).tail ?_
    have hids : Ids (v.setVersion (table, rid) { record with endXid := -v.trxId s }) :=
      ⟨hv.current_nonneg, hv.current_lt, hv.ids, hv.distinct⟩
    exact storeOf_create hids hstarted hfree' newData
  | commit hstarted order version hwalk => exact ReflTransGen.single (storeOf_commit ho hv hstarted hlt hwalk)
  | rollback hstarted order version hwalk => exact ReflTransGen.single (storeOf_rollback ho hv hstarted hwalk)
  | _ => exact ReflTransGen.refl

/-! ## Answers -/

/-- What `visit_record` answers: a reader gets what the store holds for its transaction, and a writer the same, unless
another running transaction has emptied the slot. -/
structure Answers (v : View) : Prop where
  reader : ∀ s addr record, v.Running s → v.version addr = some record →
    (v.snapshotTrx s).value addr = if visitRecord (v.trxId s) record true = .success then some record.data else none
  writer : ∀ s addr record, v.Running s → v.version addr = some record →
    (∀ t, v.Running t → t ≠ s → (v.snapshotTrx t).writes addr ≠ some none) →
      visitRecord (v.trxId s) record false = visitRecord (v.trxId s) record true
  conflict : ∀ s t addr record, v.Running s → v.Running t → t ≠ s → v.version addr = some record →
    (v.snapshotTrx t).writes addr = some none → visitRecord (v.trxId s) record false = .lockedConcurrencyConflict

theorem answers {v : View} (ho : Orderly v) (hv : Inv v) : Answers v where
  reader s addr record hs hrecord := by
    have hids := hv.ids s hs
    have hrange := hv.range addr record hrecord
    have hne := hrange.end_ne
    have hvisit := visit_read hids.1 record hrange.begin_ne hne
    show (writtenValue (v.trxId s) (v.version addr)).getD (snapshotValue (v.trxId s) (v.version addr)) = _
    rw [hrecord]
    by_cases hown : record.beginXid = -v.trxId s
    · rw [if_pos (hvisit.mpr (Or.inl hown)), writtenValue, if_pos hown]
      rfl
    · by_cases hmine : record.endXid = -v.trxId s
      · rw [if_neg (fun h => by have := hvisit.mp h; omega), writtenValue, if_neg hown, if_pos hmine]
        rfl
      · rw [writtenValue_of_ne hown hmine]
        refine if_congr ?_ rfl rfl
        rw [hvisit]
        omega
  writer s addr record hs hrecord hothers := by
    have hne := (hv.range addr record hrecord).begin_ne
    by_cases hmark : 0 < record.beginXid ∧ record.endXid < 0
    · obtain ⟨t, ht, ⟨stored, hstored, -, hend⟩, -⟩ := ho.gone addr record hrecord hmark.1 hmark.2
      obtain rfl := Option.some.inj (hstored.symm.trans hrecord)
      have hidt := hv.ids t ht
      have hwritten : (v.snapshotTrx t).writes addr = some none := by
        show writtenValue (v.trxId t) (v.version addr) = some none
        rw [hrecord, writtenValue, if_neg (by omega), if_pos hend]
      have hself : t = s := by
        by_contra hother
        exact hothers t ht hother hwritten
      have hown : ¬-stored.endXid ≠ v.trxId s := by
        rw [← hself]
        omega
      unfold visitRecord
      rw [if_neg hown, if_neg hown]
      rfl
    · unfold visitRecord
      split_ifs <;> first | rfl | omega
  conflict s t addr record hs ht hne hrecord hwritten := by
    have hids := hv.ids s hs
    have hidt := hv.ids t ht
    have hdistinct : v.trxId t ≠ v.trxId s := fun heq => hne (hv.distinct t s ht hs heq)
    change writtenValue (v.trxId t) (v.version addr) = some none at hwritten
    rw [hrecord] at hwritten
    unfold writtenValue at hwritten
    dsimp only at hwritten
    split at hwritten
    · cases hwritten
    · split at hwritten
      · next hbegin hend =>
        have hwhole := ho.whole addr record hrecord
        have hmax : 0 < maxTrxId := by decide
        unfold visitRecord
        rw [if_neg (by omega), if_neg (by omega), if_pos (by omega), if_neg Bool.false_ne_true, if_pos (by omega)]
      · cases hwritten

/-! ## Runs -/

/-- A call that keeps clear of the three things, while ids are left. -/
def Call (db db' : Db) : Prop :=
  ∃ s act rc, act.Possible db s ∧ Harmless db.view s act ∧ OwnOrder db.view s act ∧ db.step s act = some (rc, db') ∧
    (act.target ≠ none → rc = .success) ∧ db'.currentTrxId < maxTrxId

/-- Both invariants. -/
def Steady (db : Db) : Prop := Orderly db.view ∧ Inv db.view

theorem steady_step (db db' : Db) (hcall : Call db db') (h : Steady db) : Steady db' := by
  obtain ⟨s, act, rc, hpossible, hharmless, horder, hstep, hrc, hlt⟩ := hcall
  have heffect := step_effect hpossible hstep
  exact ⟨h.1.step h.2 heffect hharmless horder hrc, h.2.step heffect hharmless.proper hlt⟩

theorem steady_fresh {db : Db} (hfresh : db.Fresh) : Steady db := by
  have hnone : ∀ addr record, db.view.version addr ≠ some record := by
    intro addr record hrecord
    rw [show db.view.version addr = none from hfresh.records addr] at hrecord
    cases hrecord
  exact ⟨⟨fun addr record h => absurd h (hnone addr record), fun addr record h => absurd h (hnone addr record),
    fun addr record h => absurd h (hnone addr record)⟩, hfresh.inv⟩

theorem storeOf_fresh {db : Db} (hfresh : db.Fresh) : storeOf db.view = SnapshotStore.empty := by
  refine SnapshotStore.ext (funext fun addr => ?_) (funext fun s => if_neg ?_)
  · show committedValue (db.version addr) = none
    rw [hfresh.records addr]
    rfl
  · show ¬(db.trxes s).started = true
    rw [(hfresh.idle s).1]
    exact Bool.false_ne_true

/-- Every run is one of a store with snapshot isolation, and all answers come from this store. -/
theorem run_snapshotStore {db₀ db : Db} (hfresh : db₀.Fresh) (hrun : ReflTransGen Call db₀ db) :
    ReflTransGen SnapshotStore.Step SnapshotStore.empty (storeOf db.view) ∧ (storeOf db.view).Isolated ∧
      Answers db.view := by
  have hstep : ∀ db db', Steady db → Call db db' →
      ReflTransGen SnapshotStore.Step (storeOf db.view) (storeOf db'.view) := by
    rintro db db' ⟨ho, hv⟩ ⟨s, act, rc, hpossible, hharmless, horder, hcall, hrc, hlt⟩
    exact storeOf_step ho hv (step_effect hpossible hcall) hharmless horder hrc hlt
  have hstore := refines_run steady_step hstep hrun (steady_fresh hfresh)
  rw [storeOf_fresh hfresh] at hstore
  obtain ⟨ho, hv⟩ := keeps_run steady_step hrun (steady_fresh hfresh)
  exact ⟨hstore, SnapshotStore.Isolated.run hstore SnapshotStore.isolated_empty, answers ho hv⟩

/-- A transaction inserts a row, and another one starts. -/
theorem run_snapshotStore_insert :
    let tables : ℕ → Table := fun _ => ⟨[], 0, [], fun _ => none⟩
    ∃ db, (Db.create tables).runActs [(1, Act.startIfNeed), (1, .insertRecord 0 [7] ⟨1, 0⟩), (0, .startIfNeed)] = some db ∧
      ReflTransGen SnapshotStore.Step SnapshotStore.empty (storeOf db.view) ∧ (storeOf db.view).Isolated ∧
        Answers db.view := by
  intro tables
  have hquiet : ∀ v s act, act = .startIfNeed ∨ act = .insertRecord 0 [7] ⟨1, 0⟩ →
      Harmless v s act ∧ OwnOrder v s act ∧ (act.target ≠ none → RC.success = .success) := by
    rintro v s act (rfl | rfl)
    · exact ⟨harmless_of_quiet (fun _ _ h => h.elim) (fun h => h.elim), ownOrder_of_none rfl, fun _ => rfl⟩
    · exact ⟨harmless_of_quiet (fun _ _ h => h.elim) (fun h => h.elim), ownOrder_of_none rfl, fun _ => rfl⟩
  have hcall : ∀ {db db' s act}, (act = .startIfNeed ∨ act = .insertRecord 0 [7] ⟨1, 0⟩) → act.Possible db s →
      db.step s act = some (.success, db') → db'.currentTrxId < maxTrxId → Call db db' := by
    intro db db' s act hact hpossible hstep hlt
    obtain ⟨hharmless, horder, hrc⟩ := hquiet db.view s act hact
    exact ⟨s, act, .success, hpossible, hharmless, horder, hstep, hrc, hlt⟩
  let next : Db → ℕ → Act → Db := fun db s act => ((db.step s act).getD (.internal, db)).2
  let db₁ := next (Db.create tables) 1 .startIfNeed
  let db₂ := next db₁ 1 (.insertRecord 0 [7] ⟨1, 0⟩)
  let db₃ := next db₂ 0 .startIfNeed
  have h₁ : Call (Db.create tables) db₁ := hcall (s := 1) (Or.inl rfl) trivial rfl (show (1 : ℤ) < maxTrxId by decide)
  have h₂ : Call db₁ db₂ := hcall (s := 1) (Or.inr rfl) ⟨rfl, rfl⟩ rfl (show (1 : ℤ) < maxTrxId by decide)
  have h₃ : Call db₂ db₃ := hcall (s := 0) (Or.inl rfl) trivial rfl (show (2 : ℤ) < maxTrxId by decide)
  exact ⟨db₃, rfl, run_snapshotStore (create_fresh fun _ => rfl) (((ReflTransGen.single h₁).tail h₂).tail h₃)⟩

end Landbase.Trx
