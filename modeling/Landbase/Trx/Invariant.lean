import Landbase.Trx.Steps

/-! # The invariant of the transactions

`Inv` ties the hidden fields of the versions to the running transactions: ids are distinct and below the counter, a
negative `__trx_xid_begin` belongs to a running transaction that has the insertion among its operations, and the
operations of a transaction find the versions as it has left them. It is kept by every call, as long as no transaction
deletes an uncommitted version of another one (`Proper`), which a visit before the deletion rules out.
-/

namespace Landbase.Trx
open Landbase.Storage
set_option autoImplicit false

/-! ## Visibility -/

/-- A transaction may write its own versions, and those that were committed before it and are not marked. -/
theorem visit_write {trxId : ℤ} (hid : 0 < trxId) (record : Record) (hbegin : record.beginXid ≠ 0)
    (hend : record.endXid ≠ 0) : visitRecord trxId record false = .success ↔
    record.beginXid = -trxId ∨
      (0 < record.beginXid ∧ record.beginXid ≤ trxId ∧ 0 < record.endXid ∧ trxId ≤ record.endXid) := by
  simp only [visitRecord, Bool.false_eq_true, if_false]
  split_ifs <;> simp only [true_iff, false_iff] <;> omega

/-- A transaction reads its own versions, those that are valid for its id, and all committed ones that another
transaction has marked. -/
theorem visit_read {trxId : ℤ} (hid : 0 < trxId) (record : Record) (hbegin : record.beginXid ≠ 0)
    (hend : record.endXid ≠ 0) : visitRecord trxId record true = .success ↔
    record.beginXid = -trxId ∨ (0 < record.beginXid ∧
      ((0 < record.endXid ∧ record.beginXid ≤ trxId ∧ trxId ≤ record.endXid) ∨
        (record.endXid < 0 ∧ record.endXid ≠ -trxId))) := by
  simp only [visitRecord, if_true]
  split_ifs <;> simp only [true_iff, false_iff] <;> omega

/-! ## Operation sets -/

theorem OperationSet.mem_insert (set : OperationSet) (op other : Operation) :
    other ∈ (set.insert op).2.toList ↔
      other ∈ set.toList ∨ (other = op ∧ op.addr ∉ set.toList.map Operation.addr) := by
  unfold OperationSet.insert
  split
  · next h => simp [h]
  · next h => simp [h]

theorem OperationSet.eq_of_addr (set : OperationSet) {op other : Operation} (hop : op ∈ set.toList)
    (hother : other ∈ set.toList) (haddr : op.addr = other.addr) : op = other :=
  List.inj_on_of_nodup_map set.nodup hop hother haddr

namespace View

variable (v : View)

def trxId (s : ℕ) : ℤ := (v.trxes s).trxId

def Running (s : ℕ) : Prop := (v.trxes s).started = true

def operations (s : ℕ) : List Operation := (v.trxes s).operations.toList

end View

/-! ## The view after an effect -/

namespace View

variable (v : View) (s s' : ℕ) (addr : ℕ × RID) (record : Record) (op : Operation)

@[simp] theorem setVersion_version : (v.setVersion addr record).version = Function.update v.version addr (some record) := rfl

@[simp] theorem setVersion_current : (v.setVersion addr record).current = v.current := rfl

@[simp] theorem setVersion_trxId : (v.setVersion addr record).trxId s = v.trxId s := rfl

@[simp] theorem setVersion_running : (v.setVersion addr record).Running s ↔ v.Running s := Iff.rfl

@[simp] theorem setVersion_operations : (v.setVersion addr record).operations s = v.operations s := rfl

@[simp] theorem addOperation_version : (v.addOperation s op).version = v.version := rfl

@[simp] theorem addOperation_current : (v.addOperation s op).current = v.current := rfl

@[simp] theorem addOperation_trxId : (v.addOperation s op).trxId s' = v.trxId s' := by
  unfold trxId addOperation setTrx
  by_cases h : s' = s
  · subst h
    simp
  · simp [h]

@[simp] theorem addOperation_running : (v.addOperation s op).Running s' ↔ v.Running s' := by
  unfold Running addOperation setTrx
  by_cases h : s' = s
  · subst h
    simp
  · simp [h]

theorem mem_addOperation (other : Operation) :
    other ∈ (v.addOperation s op).operations s' ↔ other ∈ v.operations s' ∨
      (s' = s ∧ other = op ∧ op.addr ∉ (v.operations s).map Operation.addr) := by
  unfold operations addOperation setTrx
  by_cases h : s' = s
  · subst h
    simp only [Function.update_self, OperationSet.mem_insert, true_and]
  · simp [h]

@[simp] theorem startTrx_version : (v.startTrx s).version = v.version := rfl

@[simp] theorem startTrx_current : (v.startTrx s).current = v.current + 1 := rfl

theorem startTrx_trxId : (v.startTrx s).trxId s' = if s' = s then v.current + 1 else v.trxId s' := by
  unfold trxId startTrx setTrx
  by_cases h : s' = s <;> simp [h]

theorem startTrx_running : (v.startTrx s).Running s' ↔ s' = s ∨ v.Running s' := by
  unfold Running startTrx setTrx
  by_cases h : s' = s <;> simp [h]

@[simp] theorem startTrx_operations : (v.startTrx s).operations s' = v.operations s' := by
  unfold operations startTrx setTrx
  by_cases h : s' = s
  · subst h
    simp
  · simp [h]

variable (version : ℕ × RID → Option Record)

@[simp] theorem endTrx_version : (v.endTrx s version).version = version := rfl

@[simp] theorem endTrx_current : (v.endTrx s version).current = v.current := rfl

@[simp] theorem endTrx_trxId : (v.endTrx s version).trxId s' = v.trxId s' := by
  unfold trxId endTrx setTrx
  by_cases h : s' = s
  · subst h
    simp
  · simp [h]

theorem endTrx_running : (v.endTrx s version).Running s' ↔ s' ≠ s ∧ v.Running s' := by
  unfold Running endTrx setTrx
  by_cases h : s' = s <;> simp [h]

theorem endTrx_operations : (v.endTrx s version).operations s' = if s' = s then [] else v.operations s' := by
  unfold operations endTrx setTrx
  by_cases h : s' = s <;> simp [h, OperationSet.empty]

end View

/-! ## The invariant -/

/-- The numbers that a version can carry when the counter stands at `current`. -/
structure InRange (current : ℤ) (record : Record) : Prop where
  begin_ne : record.beginXid ≠ 0
  begin_low : -current ≤ record.beginXid
  begin_high : record.beginXid ≤ current
  end_ne : record.endXid ≠ 0
  end_low : -current ≤ record.endXid
  end_high : record.endXid ≤ current ∨ record.endXid = maxTrxId

/-- The ids of the running transactions. -/
structure Ids (v : View) : Prop where
  current_nonneg : 0 ≤ v.current
  current_lt : v.current < maxTrxId
  ids : ∀ s, v.Running s → 0 < v.trxId s ∧ v.trxId s ≤ v.current
  distinct : ∀ s s', v.Running s → v.Running s' → v.trxId s = v.trxId s' → s = s'

structure Inv (v : View) : Prop extends Ids v where
  idle : ∀ s, ¬ v.Running s → v.operations s = []
  range : ∀ addr record, v.version addr = some record → InRange v.current record
  uncommitted : ∀ addr record, v.version addr = some record → record.beginXid < 0 →
    (record.endXid = maxTrxId ∨ record.endXid = record.beginXid) ∧
      ∃ s, v.Running s ∧ record.beginXid = -v.trxId s ∧ (⟨.insert, addr.1, addr.2⟩ : Operation) ∈ v.operations s
  kinds : ∀ s, ∀ op ∈ v.operations s, op.type ≠ .update
  inserts : ∀ s, ∀ op ∈ v.operations s, op.type = .insert →
    ∃ record, v.version op.addr = some record ∧ record.beginXid = -v.trxId s
  deletes : ∀ s, ∀ op ∈ v.operations s, op.type = .delete →
    ∃ record, v.version op.addr = some record ∧ 0 < record.beginXid ∧ record.endXid = -v.trxId s

/-- A transaction does not delete what another one has inserted and not committed. -/
def Proper (v : View) (s : ℕ) : Act → Prop
  | .deleteRecord table rid => ∀ record, v.version (table, rid) = some record → record.endXid = maxTrxId →
      record.beginXid < 0 → record.beginXid = -v.trxId s
  | _ => True

theorem Ids.mono {v v' : View} (h : Ids v) (hcurrent : v.current ≤ v'.current) (hlt : v'.current < maxTrxId)
    (hrunning : ∀ s, v'.Running s → v.Running s) (hid : ∀ s, v'.trxId s = v.trxId s) : Ids v' where
  current_nonneg := le_trans h.current_nonneg hcurrent
  current_lt := hlt
  ids s hs := by
    have hids := h.ids s (hrunning s hs)
    rw [hid]
    exact ⟨hids.1, le_trans hids.2 hcurrent⟩
  distinct s s' hs hs' heq := by
    rw [hid, hid] at heq
    exact h.distinct s s' (hrunning s hs) (hrunning s' hs') heq

theorem Ids.startTrx {v : View} (hv : Ids v) {s : ℕ} (hlt : v.current + 1 < maxTrxId) : Ids (v.startTrx s) := by
  have hnonneg := hv.current_nonneg
  refine ⟨?_, hlt, ?_, ?_⟩
  · show 0 ≤ v.current + 1
    omega
  · intro s' hs'
    rw [View.startTrx_trxId, View.startTrx_current]
    by_cases heq : s' = s
    · rw [if_pos heq]
      omega
    · rw [if_neg heq]
      have hids := hv.ids s' (((v.startTrx_running s s').mp hs').resolve_left heq)
      omega
  · intro s₁ s₂ h₁ h₂ heq
    rw [View.startTrx_running] at h₁ h₂
    rw [View.startTrx_trxId, View.startTrx_trxId] at heq
    by_cases hs₁ : s₁ = s <;> by_cases hs₂ : s₂ = s
    · rw [hs₁, hs₂]
    · rw [if_pos hs₁, if_neg hs₂] at heq
      have hids := hv.ids s₂ (h₂.resolve_left hs₂)
      omega
    · rw [if_neg hs₁, if_pos hs₂] at heq
      have hids := hv.ids s₁ (h₁.resolve_left hs₁)
      omega
    · rw [if_neg hs₁, if_neg hs₂] at heq
      exact hv.distinct s₁ s₂ (h₁.resolve_left hs₁) (h₂.resolve_left hs₂) heq

theorem InRange.mono {current current' : ℤ} {record : Record} (h : InRange current record) (hle : current ≤ current') :
    InRange current' record where
  begin_ne := h.begin_ne
  begin_low := by have := h.begin_low; omega
  begin_high := by have := h.begin_high; omega
  end_ne := h.end_ne
  end_low := by have := h.end_low; omega
  end_high := by
    cases h.end_high with
    | inl h => exact Or.inl (by omega)
    | inr h => exact Or.inr h

namespace Inv

variable {v : View}

theorem running_of_mem (hv : Inv v) {s : ℕ} {op : Operation} (hop : op ∈ v.operations s) : v.Running s := by
  by_contra hs
  rw [hv.idle s hs] at hop
  cases hop

theorem stored (hv : Inv v) {s : ℕ} {op : Operation} (hop : op ∈ v.operations s) :
    ∃ record, v.version op.addr = some record ∧
      ((op.type = .insert ∧ record.beginXid = -v.trxId s) ∨
        (op.type = .delete ∧ 0 < record.beginXid ∧ record.endXid = -v.trxId s)) := by
  cases htype : op.type with
  | insert =>
    obtain ⟨record, hrecord, hbegin⟩ := hv.inserts s op hop htype
    exact ⟨record, hrecord, Or.inl ⟨rfl, hbegin⟩⟩
  | delete =>
    obtain ⟨record, hrecord, hrest⟩ := hv.deletes s op hop htype
    exact ⟨record, hrecord, Or.inr ⟨rfl, hrest⟩⟩
  | update => exact absurd htype (hv.kinds s op hop)

theorem session_unique (hv : Inv v) {s s' : ℕ} {op op' : Operation} (hop : op ∈ v.operations s)
    (hop' : op' ∈ v.operations s') (haddr : op.addr = op'.addr) : s = s' := by
  have hs := hv.running_of_mem hop
  have hs' := hv.running_of_mem hop'
  have hpos := (hv.ids s hs).1
  have hpos' := (hv.ids s' hs').1
  obtain ⟨record, hrecord, hcase⟩ := hv.stored hop
  obtain ⟨record', hrecord', hcase'⟩ := hv.stored hop'
  rw [haddr, hrecord'] at hrecord
  obtain rfl := Option.some.inj hrecord
  apply hv.distinct s s' hs hs'
  rcases hcase with ⟨-, hb⟩ | ⟨-, hb, he⟩ <;> rcases hcase' with ⟨-, hb'⟩ | ⟨-, hb', he'⟩ <;> omega

theorem fresh_addr (hv : Inv v) {addr : ℕ × RID} (hfree : v.version addr = none) {s : ℕ} {op : Operation}
    (hop : op ∈ v.operations s) : op.addr ≠ addr := by
  rintro rfl
  obtain ⟨record, hrecord, -⟩ := hv.stored hop
  rw [hfree] at hrecord
  cases hrecord

theorem untouched (hv : Inv v) {addr : ℕ × RID} {record : Record} (hrecord : v.version addr = some record)
    (hbegin : 0 < record.beginXid) (hend : 0 < record.endXid) {s : ℕ} {op : Operation} (hop : op ∈ v.operations s) :
    op.addr ≠ addr := by
  rintro rfl
  have hpos := (hv.ids s (hv.running_of_mem hop)).1
  obtain ⟨record', hrecord', hcase⟩ := hv.stored hop
  rw [hrecord] at hrecord'
  obtain rfl := Option.some.inj hrecord'
  rcases hcase with ⟨-, hb⟩ | ⟨-, -, he⟩ <;> omega

/-! ## The invariant is kept -/

theorem startTrx (hv : Inv v) {s : ℕ} (hs : ¬ v.Running s) (hlt : v.current + 1 < maxTrxId) : Inv (v.startTrx s) := by
  have hops := hv.idle s hs
  have hid : ∀ s', v.Running s' → (v.startTrx s).trxId s' = v.trxId s' := by
    intro s' hs'
    rw [View.startTrx_trxId, if_neg]
    rintro rfl
    exact hs hs'
  refine ⟨hv.toIds.startTrx hlt, ?_, ?_, ?_, ?_, ?_, ?_⟩
  · intro s' hs'
    rw [View.startTrx_running, not_or] at hs'
    rw [View.startTrx_operations]
    exact hv.idle s' hs'.2
  · intro addr record hrecord
    exact (hv.range addr record hrecord).mono (by simp)
  · intro addr record hrecord hbegin
    obtain ⟨hend, s', hs', hid', hop⟩ := hv.uncommitted addr record hrecord hbegin
    refine ⟨hend, s', (v.startTrx_running s s').mpr (Or.inr hs'), ?_, ?_⟩
    · rw [hid s' hs']
      exact hid'
    · rw [View.startTrx_operations]
      exact hop
  · intro s' op hop
    rw [View.startTrx_operations] at hop
    exact hv.kinds s' op hop
  · intro s' op hop htype
    rw [View.startTrx_operations] at hop
    rw [hid s' (hv.running_of_mem hop)]
    exact hv.inserts s' op hop htype
  · intro s' op hop htype
    rw [View.startTrx_operations] at hop
    rw [hid s' (hv.running_of_mem hop)]
    exact hv.deletes s' op hop htype

theorem insertVersion (hv : Inv v) {s : ℕ} (hs : v.Running s) {table : ℕ} {rid : RID}
    (hfree : v.version (table, rid) = none) (data : Bytes) :
    Inv ((v.setVersion (table, rid) ⟨-v.trxId s, maxTrxId, data⟩).addOperation s ⟨.insert, table, rid⟩) := by
  have hids := hv.ids s hs
  have hlt := hv.current_lt
  have hnew : (⟨.insert, table, rid⟩ : Operation).addr ∉ (v.operations s).map Operation.addr := by
    intro hmem
    obtain ⟨op, hop, haddr⟩ := List.mem_map.mp hmem
    exact hv.fresh_addr hfree hop haddr
  have hold : ∀ {s' : ℕ} {op : Operation}, op ∈ v.operations s' →
      Function.update v.version (table, rid) (some ⟨-v.trxId s, maxTrxId, data⟩) op.addr = v.version op.addr := by
    intro s' op hop
    exact Function.update_of_ne (hv.fresh_addr hfree hop) _ _
  refine ⟨hv.toIds.mono (le_refl _) hlt (fun s' hs' => by simpa using hs') (fun s' => by simp), ?_, ?_, ?_, ?_, ?_, ?_⟩
  · intro s' hs'
    have hs'' : ¬ v.Running s' := by simpa using hs'
    rw [List.eq_nil_iff_forall_not_mem]
    intro op hop
    rw [View.mem_addOperation] at hop
    rcases hop with hop | ⟨rfl, -⟩
    · rw [View.setVersion_operations, hv.idle s' hs''] at hop
      cases hop
    · exact hs'' hs
  · intro addr record hrecord
    by_cases haddr : addr = (table, rid)
    · subst haddr
      obtain rfl : _ = record := by simpa using hrecord
      refine ⟨?_, ?_, ?_, ?_, ?_, Or.inr rfl⟩ <;> simp only [View.addOperation_current, View.setVersion_current] <;>
        unfold maxTrxId at * <;> omega
    · exact hv.range addr record (by simpa [Function.update_of_ne haddr] using hrecord)
  · intro addr record hrecord hbegin
    by_cases haddr : addr = (table, rid)
    · subst haddr
      obtain rfl : _ = record := by simpa using hrecord
      refine ⟨Or.inl rfl, s, by simpa using hs, by simp, ?_⟩
      rw [View.mem_addOperation]
      exact Or.inr ⟨rfl, rfl, hnew⟩
    · have hrecord' : v.version addr = some record := by simpa [Function.update_of_ne haddr] using hrecord
      obtain ⟨hend, s', hs', hid, hop⟩ := hv.uncommitted addr record hrecord' hbegin
      refine ⟨hend, s', by simpa using hs', by simpa using hid, ?_⟩
      rw [View.mem_addOperation]
      exact Or.inl hop
  · intro s' op hop
    rw [View.mem_addOperation] at hop
    rcases hop with hop | ⟨-, rfl, -⟩
    · exact hv.kinds s' op hop
    · simp
  · intro s' op hop htype
    rw [View.mem_addOperation] at hop
    rcases hop with hop | ⟨rfl, rfl, -⟩
    · obtain ⟨record, hrecord, hbegin⟩ := hv.inserts s' op hop htype
      refine ⟨record, ?_, by simpa using hbegin⟩
      rw [View.addOperation_version, View.setVersion_version, hold hop]
      exact hrecord
    · exact ⟨_, Function.update_self _ _ _, by simp⟩
  · intro s' op hop htype
    rw [View.mem_addOperation] at hop
    rcases hop with hop | ⟨-, rfl, -⟩
    · obtain ⟨record, hrecord, hbegin⟩ := hv.deletes s' op hop htype
      refine ⟨record, ?_, by simpa using hbegin⟩
      rw [View.addOperation_version, View.setVersion_version, hold hop]
      exact hrecord
    · cases htype

theorem mark (hv : Inv v) {s : ℕ} (hs : v.Running s) {addr : ℕ × RID} {record : Record}
    (hrecord : v.version addr = some record) (hown : record.beginXid < 0 → record.beginXid = -v.trxId s)
    (hunmarked : 0 < record.beginXid → 0 < record.endXid) :
    Inv (v.setVersion addr { record with endXid := -v.trxId s }) := by
  have hids := hv.ids s hs
  have hrange := hv.range addr record hrecord
  refine ⟨hv.toIds.mono (le_refl _) hv.current_lt (fun _ => id) (fun _ => rfl), hv.idle, ?_, ?_, hv.kinds, ?_, ?_⟩
  · intro addr' record' hrecord'
    by_cases haddr : addr' = addr
    · subst haddr
      obtain rfl : _ = record' := by simpa using hrecord'
      refine ⟨hrange.begin_ne, hrange.begin_low, hrange.begin_high, ?_, ?_, Or.inl ?_⟩ <;>
        simp only [View.setVersion_current] <;> omega
    · exact hv.range addr' record' (by simpa [Function.update_of_ne haddr] using hrecord')
  · intro addr' record' hrecord' hbegin
    by_cases haddr : addr' = addr
    · subst haddr
      obtain rfl : _ = record' := by simpa using hrecord'
      exact ⟨Or.inr (hown hbegin).symm, (hv.uncommitted addr' record hrecord hbegin).2⟩
    · exact hv.uncommitted addr' record' (by simpa [Function.update_of_ne haddr] using hrecord') hbegin
  · intro s' op hop htype
    obtain ⟨record', hrecord', hbegin⟩ := hv.inserts s' op hop htype
    by_cases haddr : op.addr = addr
    · rw [haddr, hrecord] at hrecord'
      obtain rfl := Option.some.inj hrecord'
      refine ⟨{ record with endXid := -v.trxId s }, ?_, hbegin⟩
      rw [haddr, View.setVersion_version, Function.update_self]
    · exact ⟨record', by rw [View.setVersion_version, Function.update_of_ne haddr]; exact hrecord', hbegin⟩
  · intro s' op hop htype
    obtain ⟨record', hrecord', hbegin, hend⟩ := hv.deletes s' op hop htype
    have haddr : op.addr ≠ addr := by
      intro haddr
      rw [haddr, hrecord] at hrecord'
      obtain rfl := Option.some.inj hrecord'
      have hpos := hv.ids s' (hv.running_of_mem hop)
      have hmarked := hunmarked hbegin
      omega
    exact ⟨record', by rw [View.setVersion_version, Function.update_of_ne haddr]; exact hrecord', hbegin, hend⟩

/-- The deletion of a marked version becomes an operation, unless its insertion is one already. -/
theorem addDelete (hv : Inv v) {s : ℕ} (hs : v.Running s) {table : ℕ} {rid : RID} {record : Record}
    (hrecord : v.version (table, rid) = some record) (hown : record.beginXid < 0 → record.beginXid = -v.trxId s)
    (hend : record.endXid = -v.trxId s) : Inv (v.addOperation s ⟨.delete, table, rid⟩) := by
  refine ⟨hv.toIds.mono (le_refl _) hv.current_lt (fun s' hs' => by simpa using hs') (fun s' => by simp), ?_,
    hv.range, ?_, ?_, ?_, ?_⟩
  · intro s' hs'
    rw [List.eq_nil_iff_forall_not_mem]
    intro op hop
    have hs'' : ¬ v.Running s' := by simpa using hs'
    rw [View.mem_addOperation, hv.idle s' hs''] at hop
    rcases hop with hop | ⟨rfl, -⟩
    · cases hop
    · exact hs'' hs
  · intro addr record' hrecord' hbegin
    obtain ⟨hcase, s', hs', hid, hop⟩ := hv.uncommitted addr record' hrecord' hbegin
    refine ⟨hcase, s', by simpa using hs', by simpa using hid, ?_⟩
    rw [View.mem_addOperation]
    exact Or.inl hop
  · intro s' op hop
    rw [View.mem_addOperation] at hop
    rcases hop with hop | ⟨-, rfl, -⟩
    · exact hv.kinds s' op hop
    · simp
  · intro s' op hop htype
    rw [View.mem_addOperation] at hop
    rcases hop with hop | ⟨-, rfl, -⟩
    · simpa using hv.inserts s' op hop htype
    · cases htype
  · intro s' op hop htype
    rw [View.mem_addOperation] at hop
    rcases hop with hop | ⟨rfl, rfl, hnew⟩
    · simpa using hv.deletes s' op hop htype
    · refine ⟨record, hrecord, ?_, by simpa using hend⟩
      by_contra hbegin
      have hneg : record.beginXid < 0 := by
        have hne := (hv.range _ record hrecord).begin_ne
        omega
      obtain ⟨-, s₀, hs₀, hid₀, hop₀⟩ := hv.uncommitted _ record hrecord hneg
      obtain rfl : s₀ = s' := hv.distinct s₀ s' hs₀ hs (by have := hown hneg; omega)
      exact hnew (List.mem_map.mpr ⟨_, hop₀, rfl⟩)

theorem endTrx (hv : Inv v) {s : ℕ} (hs : v.Running s) {current : ℤ} (hcurrent : v.current ≤ current)
    (hlt : current < maxTrxId) {f : Operation → Record → Option (Option Record)}
    {version : ℕ × RID → Option Record} (hwalk : Walked f (v.operations s) v.version version)
    (hsettled : ∀ op ∈ v.operations s, ∀ record, v.version op.addr = some record → ∀ record',
      f op record = some (some record') → 0 < record'.beginXid ∧ InRange current record') :
    Inv ({ v with current := current }.endTrx s version) := by
  have hids := hv.ids s hs
  -- the versions of the other transactions are not touched
  have hother : ∀ {s' : ℕ} {op : Operation}, op ∈ v.operations s' → s' ≠ s → version op.addr = v.version op.addr := by
    intro s' op hop hne
    apply hwalk.other
    intro hmem
    obtain ⟨op', hop', haddr⟩ := List.mem_map.mp hmem
    exact hne (hv.session_unique hop' hop haddr).symm
  have hops : ∀ {s' : ℕ} {op : Operation}, op ∈ ({ v with current := current }.endTrx s version).operations s' →
      s' ≠ s ∧ op ∈ v.operations s' := by
    intro s' op hop
    rw [View.endTrx_operations] at hop
    split at hop
    · cases hop
    · next hne => exact ⟨hne, hop⟩
  refine ⟨hv.toIds.mono hcurrent hlt (fun s' hs' => ((View.endTrx_running _ s s' version).mp hs').2) (fun s' => by
    rw [View.endTrx_trxId]; rfl), ?_, ?_, ?_, ?_, ?_, ?_⟩
  · intro s' hs'
    rw [View.endTrx_operations]
    split
    · rfl
    · next hne =>
      apply hv.idle
      intro hrunning
      exact hs' ((View.endTrx_running _ s s' version).mpr ⟨hne, hrunning⟩)
  · intro addr record hrecord
    by_cases hmem : addr ∈ (v.operations s).map Operation.addr
    · obtain ⟨op, hop, rfl⟩ := List.mem_map.mp hmem
      obtain ⟨old, slot, hold, hslot, hnew⟩ := hwalk.here op hop
      rw [View.endTrx_version, hnew] at hrecord
      exact (hsettled op hop old hold record (by rw [hslot, hrecord])).2
    · rw [View.endTrx_version, hwalk.other addr hmem] at hrecord
      exact (hv.range addr record hrecord).mono hcurrent
  · intro addr record hrecord hbegin
    by_cases hmem : addr ∈ (v.operations s).map Operation.addr
    · obtain ⟨op, hop, rfl⟩ := List.mem_map.mp hmem
      obtain ⟨old, slot, hold, hslot, hnew⟩ := hwalk.here op hop
      rw [View.endTrx_version, hnew] at hrecord
      have hpos := (hsettled op hop old hold record (by rw [hslot, hrecord])).1
      omega
    · rw [View.endTrx_version, hwalk.other addr hmem] at hrecord
      obtain ⟨hcase, s', hs', hid, hop⟩ := hv.uncommitted addr record hrecord hbegin
      have hne : s' ≠ s := by
        rintro rfl
        exact hmem (List.mem_map.mpr ⟨_, hop, rfl⟩)
      refine ⟨hcase, s', (View.endTrx_running _ s s' version).mpr ⟨hne, hs'⟩, by rw [View.endTrx_trxId]; exact hid, ?_⟩
      rw [View.endTrx_operations, if_neg hne]
      exact hop
  · intro s' op hop
    exact hv.kinds s' op (hops hop).2
  · intro s' op hop htype
    obtain ⟨hne, hop⟩ := hops hop
    rw [View.endTrx_version, hother hop hne, View.endTrx_trxId]
    exact hv.inserts s' op hop htype
  · intro s' op hop htype
    obtain ⟨hne, hop⟩ := hops hop
    rw [View.endTrx_version, hother hop hne, View.endTrx_trxId]
    exact hv.deletes s' op hop htype

theorem step (hv : Inv v) {s : ℕ} {act : Act} {rc : RC} {v' : View} (h : Effect v s act rc v')
    (hproper : Proper v s act) (hlt : v'.current < maxTrxId) : Inv v' := by
  have hwrite : ∀ {addr : ℕ × RID} {record : Record}, v.Running s → v.version addr = some record →
      Trx.visitRecord (v.trxes s).trxId record false = .success →
      (record.beginXid < 0 → record.beginXid = -v.trxId s) ∧ (0 < record.beginXid → 0 < record.endXid) := by
    intro addr record hs hrecord hvisit
    have hids := hv.ids s hs
    have hrange := hv.range addr record hrecord
    have hcase := (visit_write hids.1 record hrange.begin_ne hrange.end_ne).mp hvisit
    exact ⟨fun _ => by omega, fun _ => by omega⟩
  cases h with
  | running hstarted => exact hv
  | start hstarted hops =>
    refine hv.startTrx (fun hs => ?_) hlt
    rw [View.Running, hstarted] at hs
    cases hs
  | insert hstarted table data rid hfree rc hrc => exact hv.insertVersion hstarted hfree data
  | insertRefused table data rid rc hrc => exact hv
  | deleteOld table rid record hrecord hpos hold => exact hv
  | delete hstarted table rid record hrecord hnew =>
    have hown := hproper record hrecord hnew
    have hmarked := hv.mark hstarted hrecord hown (fun _ => by rw [hnew]; decide)
    exact hmarked.addDelete hstarted (Function.update_self _ _ _) hown rfl
  | updateConflict table rid newData newRid record hrecord hvisit => exact hv
  | updateRefused hstarted table rid newData newRid record hrecord hvisit rc hrc =>
    obtain ⟨hown, hunmarked⟩ := hwrite hstarted hrecord hvisit
    exact hv.mark hstarted hrecord hown hunmarked
  | update hstarted table rid newData newRid record hrecord hfree hvisit =>
    obtain ⟨hown, hunmarked⟩ := hwrite hstarted hrecord hvisit
    have hmarked := (hv.mark hstarted hrecord hown hunmarked).addDelete hstarted (Function.update_self _ _ _) hown rfl
    have hne : (table, newRid) ≠ (table, rid) := by
      intro heq
      rw [heq, hrecord] at hfree
      cases hfree
    have hrunning : (View.addOperation _ s ⟨.delete, table, rid⟩).Running s :=
      (View.addOperation_running (v.setVersion (table, rid) { record with endXid := -v.trxId s }) s s _).mpr hstarted
    have hfree' : (v.setVersion (table, rid) { record with endXid := -v.trxId s }).version (table, newRid) = none := by
      rw [View.setVersion_version, Function.update_of_ne hne]
      exact hfree
    have hinsert := hmarked.insertVersion hrunning hfree' newData
    rw [View.addOperation_trxId] at hinsert
    exact hinsert
  | visit table rid readonly record hrecord => exact hv
  | commit hstarted order version hwalk =>
    refine hv.endTrx hstarted (show v.current ≤ v.current + 1 by omega) hlt hwalk ?_
    intro op hop record hrecord record' hf
    have hnonneg := hv.current_nonneg
    have hrange := (hv.range op.addr record hrecord).mono (show v.current ≤ v.current + 1 by omega)
    obtain ⟨stored, hstored, hcase⟩ := hv.stored hop
    rw [hrecord] at hstored
    obtain rfl := Option.some.inj hstored
    unfold commitRecord at hf
    rcases hcase with ⟨htype, hbegin⟩ | ⟨htype, hbegin, hend⟩
    · simp only [htype] at hf
      obtain rfl := Option.some.inj (Option.some.inj ((if_pos hbegin).symm.trans hf))
      refine ⟨show 0 < v.current + 1 by omega, ?_, ?_, le_refl _, hrange.end_ne, hrange.end_low, hrange.end_high⟩
      · show v.current + 1 ≠ 0
        omega
      · show -(v.current + 1) ≤ v.current + 1
        omega
    · simp only [htype] at hf
      obtain rfl := Option.some.inj (Option.some.inj ((if_pos hend).symm.trans hf))
      refine ⟨hbegin, hrange.begin_ne, hrange.begin_low, hrange.begin_high, ?_, ?_, Or.inl (le_refl _)⟩
      · show v.current + 1 ≠ 0
        omega
      · show -(v.current + 1) ≤ v.current + 1
        omega
  | rollback hstarted order version hwalk =>
    refine hv.endTrx hstarted (le_refl _) hlt hwalk ?_
    intro op hop record hrecord record' hf
    have hnonneg := hv.current_nonneg
    have hrange := hv.range op.addr record hrecord
    obtain ⟨stored, hstored, hcase⟩ := hv.stored hop
    rw [hrecord] at hstored
    obtain rfl := Option.some.inj hstored
    unfold rollbackRecord at hf
    rcases hcase with ⟨htype, -⟩ | ⟨htype, hbegin, hend⟩
    · simp [htype] at hf
    · simp only [htype] at hf
      obtain rfl := Option.some.inj (Option.some.inj ((if_pos hend).symm.trans hf))
      refine ⟨hbegin, hrange.begin_ne, hrange.begin_low, hrange.begin_high, ?_, ?_, Or.inr rfl⟩
      · show maxTrxId ≠ 0
        decide
      · show -v.current ≤ maxTrxId
        unfold maxTrxId
        omega

end Inv

/-! ## What a call does to one version -/

/-- The call puts the mark of the transaction on this version. -/
def Act.Marks (v : View) (s : ℕ) (addr : ℕ × RID) (record : Record) : Act → Prop
  | .deleteRecord table rid =>
    addr = (table, rid) ∧ v.version addr = some record ∧ record.endXid = maxTrxId
  | .updateRecord table rid _ _ =>
    addr = (table, rid) ∧ v.version addr = some record ∧ Trx.visitRecord (v.trxId s) record false = .success
  | _ => False

def Act.IsCommit : Act → Prop
  | .commit _ => True
  | _ => False

def Act.IsRollback : Act → Prop
  | .rollback _ => True
  | _ => False

/-- The ways in which a call of session `s` changes the version at an address. -/
inductive Change (v : View) (s : ℕ) (act : Act) (addr : ℕ × RID) : Option Record → Option Record → Prop
  | same (slot : Option Record) : Change v s act addr slot slot
  | created (hs : v.Running s) (data : Bytes) : Change v s act addr none (some ⟨-v.trxId s, maxTrxId, data⟩)
  | marked (hs : v.Running s) (record : Record) (hmarks : act.Marks v s addr record)
      (hcase : record.beginXid = -v.trxId s ∨ (0 < record.beginXid ∧ 0 < record.endXid)) :
      Change v s act addr (some record) (some { record with endXid := -v.trxId s })
  | insertCommitted (record : Record) (hact : act.IsCommit) (hop : ⟨.insert, addr.1, addr.2⟩ ∈ v.operations s)
      (hbegin : record.beginXid = -v.trxId s) :
      Change v s act addr (some record) (some { record with beginXid := v.current + 1 })
  | deleteCommitted (record : Record) (hact : act.IsCommit) (hop : ⟨.delete, addr.1, addr.2⟩ ∈ v.operations s)
      (hbegin : 0 < record.beginXid) (hend : record.endXid = -v.trxId s) :
      Change v s act addr (some record) (some { record with endXid := v.current + 1 })
  | insertUndone (record : Record) (hact : act.IsRollback) (hop : ⟨.insert, addr.1, addr.2⟩ ∈ v.operations s)
      (hbegin : record.beginXid = -v.trxId s) : Change v s act addr (some record) none
  | deleteUndone (record : Record) (hact : act.IsRollback) (hop : ⟨.delete, addr.1, addr.2⟩ ∈ v.operations s)
      (hbegin : 0 < record.beginXid) (hend : record.endXid = -v.trxId s) :
      Change v s act addr (some record) (some { record with endXid := maxTrxId })

namespace Inv

variable {v : View} {s : ℕ} {act : Act}

theorem change_mark (hs : v.Running s) {addr : ℕ × RID} {record : Record} (hrecord : v.version addr = some record)
    (hmarks : act.Marks v s addr record)
    (hcase : record.beginXid = -v.trxId s ∨ (0 < record.beginXid ∧ 0 < record.endXid)) (addr' : ℕ × RID) :
    Change v s act addr' (v.version addr')
      (Function.update v.version addr (some { record with endXid := -v.trxId s }) addr') := by
  by_cases haddr : addr' = addr
  · rw [haddr, hrecord, Function.update_self]
    exact Change.marked hs record hmarks hcase
  · rw [Function.update_of_ne haddr]
    exact Change.same _

theorem change_create (hs : v.Running s) {addr : ℕ × RID} (hfree : v.version addr = none) (data : Bytes)
    (addr' : ℕ × RID) :
    Change v s act addr' (v.version addr')
      (Function.update v.version addr (some ⟨-v.trxId s, maxTrxId, data⟩) addr') := by
  by_cases haddr : addr' = addr
  · rw [haddr, hfree, Function.update_self]
    exact Change.created hs data
  · rw [Function.update_of_ne haddr]
    exact Change.same _

theorem stored_at (hv : Inv v) {op : Operation} (hop : op ∈ v.operations s) {record : Record}
    (hrecord : v.version op.addr = some record) :
    (op = ⟨.insert, op.addr.1, op.addr.2⟩ ∧ record.beginXid = -v.trxId s) ∨
      (op = ⟨.delete, op.addr.1, op.addr.2⟩ ∧ 0 < record.beginXid ∧ record.endXid = -v.trxId s) := by
  obtain ⟨stored, hstored, hcase⟩ := hv.stored hop
  rw [hrecord] at hstored
  obtain rfl := Option.some.inj hstored
  obtain ⟨type, table, rid⟩ := op
  rcases hcase with ⟨htype, hbegin⟩ | ⟨htype, hbegin, hend⟩
  · exact Or.inl ⟨by rw [show type = .insert from htype]; rfl, hbegin⟩
  · exact Or.inr ⟨by rw [show type = .delete from htype]; rfl, hbegin, hend⟩

theorem foreign (hv : Inv v) {op : Operation} (hop : op ∈ v.operations s) {t : ℕ} (ht : v.Running t) (hne : s ≠ t)
    {record : Record} (hrecord : v.version op.addr = some record) :
    record.beginXid ≠ -v.trxId t ∧ record.endXid ≠ -v.trxId t := by
  have hs := hv.running_of_mem hop
  have hids := hv.ids s hs
  have hidt := hv.ids t ht
  have hdistinct : v.trxId s ≠ v.trxId t := fun heq => hne (hv.distinct s t hs ht heq)
  have hmax := hv.current_lt
  have hrange := hv.range _ record hrecord
  rcases hv.stored_at hop hrecord with ⟨-, hbegin⟩ | ⟨-, hbegin, hend⟩
  · obtain ⟨hcase, -⟩ := hv.uncommitted _ record hrecord (by omega)
    omega
  · omega

/-- Every call changes each version in one of these ways. -/
theorem change (hv : Inv v) {rc : RC} {v' : View} (h : Effect v s act rc v') (hproper : Proper v s act)
    (addr : ℕ × RID) : Change v s act addr (v.version addr) (v'.version addr) := by
  have hwrite : ∀ {addr : ℕ × RID} {record : Record}, v.Running s → v.version addr = some record →
      Trx.visitRecord (v.trxId s) record false = .success →
      record.beginXid = -v.trxId s ∨ (0 < record.beginXid ∧ 0 < record.endXid) := by
    intro addr record hs hrecord hvisit
    have hids := hv.ids s hs
    have hrange := hv.range addr record hrecord
    have hcase := (visit_write hids.1 record hrange.begin_ne hrange.end_ne).mp hvisit
    omega
  cases h with
  | running hstarted => exact Change.same _
  | start hstarted hops => exact Change.same _
  | insert hstarted table data rid hfree rc hrc => exact change_create hstarted hfree data addr
  | insertRefused table data rid rc hrc => exact Change.same _
  | deleteOld table rid record hrecord hpos hold => exact Change.same _
  | delete hstarted table rid record hrecord hnew =>
    have hmarks : (Act.deleteRecord table rid).Marks v s (table, rid) record := ⟨rfl, hrecord, hnew⟩
    refine change_mark hstarted hrecord hmarks ?_ addr
    have hne := (hv.range _ record hrecord).begin_ne
    have hown := hproper record hrecord hnew
    have hend : 0 < record.endXid := by
      rw [hnew]
      decide
    cases lt_or_gt_of_ne hne with
    | inl hneg => exact Or.inl (hown hneg)
    | inr hpos => exact Or.inr ⟨hpos, hend⟩
  | updateConflict table rid newData newRid record hrecord hvisit => exact Change.same _
  | updateRefused hstarted table rid newData newRid record hrecord hvisit rc hrc =>
    have hmarks : (Act.updateRecord table rid newData newRid).Marks v s (table, rid) record := ⟨rfl, hrecord, hvisit⟩
    exact change_mark hstarted hrecord hmarks (hwrite hstarted hrecord hvisit) addr
  | update hstarted table rid newData newRid record hrecord hfree hvisit =>
    show Change v s _ addr (v.version addr) (Function.update (Function.update v.version (table, rid)
      (some { record with endXid := -v.trxId s })) (table, newRid) (some ⟨-v.trxId s, maxTrxId, newData⟩) addr)
    by_cases haddr : addr = (table, newRid)
    · rw [haddr, hfree, Function.update_self]
      exact Change.created hstarted newData
    · have hmarks : (Act.updateRecord table rid newData newRid).Marks v s (table, rid) record := ⟨rfl, hrecord, hvisit⟩
      rw [Function.update_of_ne haddr]
      exact change_mark hstarted hrecord hmarks (hwrite hstarted hrecord hvisit) addr
  | visit table rid readonly record hrecord => exact Change.same _
  | commit hstarted order version hwalk =>
    show Change v s _ addr (v.version addr) (version addr)
    by_cases hmem : addr ∈ (v.operations s).map Operation.addr
    · obtain ⟨op, hop, rfl⟩ := List.mem_map.mp hmem
      obtain ⟨record, slot, hrecord, hslot, hnew⟩ := hwalk.here op hop
      rw [hrecord, hnew]
      rcases hv.stored_at hop hrecord with ⟨heq, hbegin⟩ | ⟨heq, hbegin, hend⟩
      · rw [heq, commitRecord] at hslot
        obtain rfl := Option.some.inj ((if_pos hbegin).symm.trans hslot)
        exact Change.insertCommitted record trivial (heq ▸ hop) hbegin
      · rw [heq, commitRecord] at hslot
        obtain rfl := Option.some.inj ((if_pos hend).symm.trans hslot)
        exact Change.deleteCommitted record trivial (heq ▸ hop) hbegin hend
    · rw [hwalk.other addr hmem]
      exact Change.same _
  | rollback hstarted order version hwalk =>
    show Change v s _ addr (v.version addr) (version addr)
    by_cases hmem : addr ∈ (v.operations s).map Operation.addr
    · obtain ⟨op, hop, rfl⟩ := List.mem_map.mp hmem
      obtain ⟨record, slot, hrecord, hslot, hnew⟩ := hwalk.here op hop
      rw [hrecord, hnew]
      rcases hv.stored_at hop hrecord with ⟨heq, hbegin⟩ | ⟨heq, hbegin, hend⟩
      · rw [heq, rollbackRecord] at hslot
        obtain rfl := Option.some.inj hslot
        exact Change.insertUndone record trivial (heq ▸ hop) hbegin
      · rw [heq, rollbackRecord] at hslot
        obtain rfl := Option.some.inj ((if_pos hend).symm.trans hslot)
        exact Change.deleteUndone record trivial (heq ▸ hop) hbegin hend
    · rw [hwalk.other addr hmem]
      exact Change.same _

end Inv

/-! ## Runs -/

/-- A call of some session that satisfies `P`. -/
def Step (P : View → ℕ → Act → Prop) (db db' : Db) : Prop :=
  ∃ s act rc, act.Possible db s ∧ P db.view s act ∧ db.step s act = some (rc, db')

/-- A database without records and transactions. -/
structure Db.Fresh (db : Db) : Prop where
  current : db.currentTrxId = 0
  idle : ∀ s, (db.trxes s).started = false ∧ (db.trxes s).operations.toList = []
  records : ∀ addr, db.version addr = none

theorem Db.Fresh.inv {db : Db} (h : db.Fresh) : Inv db.view where
  current_nonneg := le_of_eq h.current.symm
  current_lt := by
    show db.currentTrxId < maxTrxId
    rw [h.current]
    decide
  ids s hs := by
    rw [View.Running, show (db.view.trxes s).started = false from (h.idle s).1] at hs
    cases hs
  distinct s s' hs := by
    rw [View.Running, show (db.view.trxes s).started = false from (h.idle s).1] at hs
    cases hs
  idle s _ := (h.idle s).2
  range addr record hrecord := by
    rw [show db.view.version addr = none from h.records addr] at hrecord
    cases hrecord
  uncommitted addr record hrecord := by
    rw [show db.view.version addr = none from h.records addr] at hrecord
    cases hrecord
  kinds s op hop := by
    rw [View.operations, show (db.view.trxes s).operations.toList = [] from (h.idle s).2] at hop
    cases hop
  inserts s op hop := by
    rw [View.operations, show (db.view.trxes s).operations.toList = [] from (h.idle s).2] at hop
    cases hop
  deletes s op hop := by
    rw [View.operations, show (db.view.trxes s).operations.toList = [] from (h.idle s).2] at hop
    cases hop

theorem create_fresh {tables : ℕ → Table} (h : ∀ addr, versionOf tables addr = none) : (Db.create tables).Fresh where
  current := rfl
  idle _ := ⟨rfl, rfl⟩
  records := h

theorem runActs_cons {db db₁ db₂ : Db} {s : ℕ} {act : Act} {rc : RC} {acts : List (ℕ × Act)}
    (hpossible : act.Possible db s) (hcall : db.step s act = some (rc, db₁)) (h : db₁.runActs acts = some db₂) :
    db.runActs ((s, act) :: acts) = some db₂ := by
  rw [Db.runActs, if_pos hpossible, hcall]
  exact h

theorem runActs_cons_inv {db db₂ : Db} {s : ℕ} {act : Act} {acts : List (ℕ × Act)}
    (h : db.runActs ((s, act) :: acts) = some db₂) :
    act.Possible db s ∧ ∃ rc db₁, db.step s act = some (rc, db₁) ∧ db₁.runActs acts = some db₂ := by
  unfold Db.runActs at h
  split at h
  · next hpossible =>
    simp only [Option.bind_eq_bind, Option.bind_eq_some_iff] at h
    obtain ⟨⟨rc, db₁⟩, hcall, hrest⟩ := h
    exact ⟨hpossible, rc, db₁, hcall, hrest⟩
  · cases h

theorem runActs_steps {P : View → ℕ → Act → Prop} {acts : List (ℕ × Act)} {db db' : Db}
    (hP : ∀ i (hi : i < acts.length) db₁, db.runActs (acts.take i) = some db₁ →
      P db₁.view (acts.get ⟨i, hi⟩).1 (acts.get ⟨i, hi⟩).2)
    (h : db.runActs acts = some db') : Relation.ReflTransGen (Step P) db db' := by
  induction acts generalizing db with
  | nil =>
    obtain rfl : db = db' := by simpa [Db.runActs] using h
    exact Relation.ReflTransGen.refl
  | cons call acts ih =>
    obtain ⟨s, act⟩ := call
    obtain ⟨hpossible, rc, db₁, hcall, hrest⟩ := runActs_cons_inv h
    have hstep : Step P db db₁ := ⟨s, act, rc, hpossible, hP 0 (by simp) db rfl, hcall⟩
    refine Relation.ReflTransGen.head hstep (ih ?_ hrest)
    intro i hi db₂ hdb₂
    exact hP (i + 1) (Nat.succ_lt_succ hi) db₂ (runActs_cons hpossible hcall hdb₂)

theorem runActs_append (db : Db) (acts acts' : List (ℕ × Act)) :
    db.runActs (acts ++ acts') = (db.runActs acts).bind fun db => db.runActs acts' := by
  induction acts generalizing db with
  | nil => rfl
  | cons call acts ih =>
    obtain ⟨s, act⟩ := call
    rw [List.cons_append, Db.runActs, Db.runActs]
    split
    · cases db.step s act with
      | none => rfl
      | some result => exact ih result.2
    · rfl

theorem runActs_observed {α : Type} {db db' : Db} {acts : List (ℕ × Act)} {f : Db → α} {a : α}
    (hrun : db.runActs acts = some db') (h : (db.runActs acts).map f = some a) : f db' = a := by
  rw [hrun] at h
  exact Option.some.inj h

theorem Effect.trxes_of_ne {v v' : View} {s s' : ℕ} {act : Act} {rc : RC} (h : Effect v s act rc v') (hne : s' ≠ s) :
    v'.trxes s' = v.trxes s' := by
  cases h with
  | start hstarted hops => exact Function.update_of_ne hne _ _
  | insert hstarted table data rid hfree rc hrc => exact Function.update_of_ne hne _ _
  | delete hstarted table rid record hrecord hnew => exact Function.update_of_ne hne _ _
  | update hstarted table rid newData newRid record hrecord hfree hvisit =>
    rw [View.addOperation_twice]
    exact Function.update_of_ne hne _ _
  | commit hstarted order version hwalk => exact Function.update_of_ne hne _ _
  | rollback hstarted order version hwalk => exact Function.update_of_ne hne _ _
  | _ => rfl

theorem runActs_trxes {acts : List (ℕ × Act)} {db db' : Db} (h : db.runActs acts = some db') {s : ℕ}
    (hs : ∀ call ∈ acts, s ≠ call.1) : db'.trxes s = db.trxes s := by
  induction acts generalizing db with
  | nil =>
    obtain rfl : db = db' := by simpa [Db.runActs] using h
    rfl
  | cons call acts ih =>
    obtain ⟨session, act⟩ := call
    obtain ⟨hpossible, rc, db₁, hcall, hrest⟩ := runActs_cons_inv h
    rw [ih hrest (fun c hc => hs c (by simp [hc]))]
    exact (step_effect hpossible hcall).trxes_of_ne (hs (session, act) (by simp))

theorem Effect.current_le {v v' : View} {s : ℕ} {act : Act} {rc : RC} (h : Effect v s act rc v') :
    v.current ≤ v'.current := by
  cases h with
  | start hstarted hops => exact le_of_lt (Int.lt_succ v.current)
  | commit hstarted order version hwalk => exact le_of_lt (Int.lt_succ v.current)
  | _ => exact le_refl _

theorem current_le_of_run {P : View → ℕ → Act → Prop} {db db' : Db} (h : Relation.ReflTransGen (Step P) db db') :
    db.currentTrxId ≤ db'.currentTrxId := by
  induction h with
  | refl => exact le_refl _
  | tail _ hstep ih =>
    obtain ⟨s, act, rc, hpossible, -, hrun⟩ := hstep
    exact le_trans ih (step_effect hpossible hrun).current_le

/-- The invariant holds in every state that is reached while ids are left. -/
theorem Inv.run {P : View → ℕ → Act → Prop} (hP : ∀ v s act, P v s act → Proper v s act) {db db' : Db}
    (hv : Inv db.view) (h : Relation.ReflTransGen (Step P) db db') (hlt : db'.currentTrxId < maxTrxId) :
    Inv db'.view := by
  induction h with
  | refl => exact hv
  | tail _ hstep ih =>
    obtain ⟨s, act, rc, hpossible, hp, hrun⟩ := hstep
    have heffect := step_effect hpossible hrun
    exact (ih (lt_of_le_of_lt heffect.current_le hlt)).step heffect (hP _ _ _ hp) hlt

end Landbase.Trx
