import Landbase.Common.Basic
import Landbase.Lib.Cyclic

/-! # `RingBuffer`

The ring buffer of `net/ring_buffer.cpp`, through which everything that is sent to a client passes. It keeps the position
where the next byte is written and the number of bytes that have not been read; the position of the first of these is
computed from the two. All of these are 32-bit integers.

A copy between the buffer and other memory is `none` where it leaves the memory. The abstract buffer is a queue of bytes
(`Fifo`), and a ring buffer `Represents` the queue that lies in it cyclically in front of the write position.
-/

namespace Landbase.Net
set_option autoImplicit false

open Cyclic

/-! ## Copying -/

/-- The `n` bytes from `pos` on. -/
def load (memory : Bytes) (pos n : ℤ) : Option Bytes :=
  if 0 ≤ pos ∧ 0 ≤ n ∧ pos + n ≤ memory.length then some ((memory.drop pos.toNat).take n.toNat) else none

/-- The memory with these bytes from `pos` on. -/
def store (memory : Bytes) (pos : ℤ) (bytes : Bytes) : Option Bytes :=
  if 0 ≤ pos ∧ pos + bytes.length ≤ memory.length then some (overwrite memory pos.toNat bytes) else none

theorem load_nat {memory : Bytes} {pos n : ℕ} (h : pos + n ≤ memory.length) :
    load memory pos n = some ((memory.drop pos).take n) := by
  rw [load, if_pos (by omega), Int.toNat_natCast, Int.toNat_natCast]

theorem store_nat {memory bytes : Bytes} {pos : ℕ} (h : pos + bytes.length ≤ memory.length) :
    store memory pos bytes = some (overwrite memory pos bytes) := by
  rw [store, if_pos (by omega), Int.toNat_natCast]

theorem length_of_load {memory bytes : Bytes} {pos n : ℤ} (h : load memory pos n = some bytes) :
    (bytes.length : ℤ) = n := by
  unfold load at h
  split at h
  · obtain rfl := Option.some.inj h
    rw [List.length_take, List.length_drop]
    omega
  · cases h

/-! ## The buffer -/

structure RingBuffer where
  buffer_ : Bytes
  dataSize : ℤ
  writePos : ℤ

namespace RingBuffer

/-- `RingBuffer::RingBuffer(int32_t size)`. -/
def create (size : ℕ) : RingBuffer := ⟨List.replicate size 0, 0, 0⟩

def capacity (rb : RingBuffer) : ℤ := toInt32 rb.buffer_.length

def size (rb : RingBuffer) : ℤ := rb.dataSize

def remain (rb : RingBuffer) : ℤ := toInt32 (rb.capacity - rb.size)

/-- The `%` of the source keeps the sign of the dividend. -/
def readPos (rb : RingBuffer) : ℤ := (toInt32 (rb.writePos - rb.size + rb.capacity)).tmod rb.capacity

/-- `RingBuffer::buffer`, which always succeeds: the position of `buf` in `buffer_`, and `read_size`. -/
def buffer (rb : RingBuffer) : ℤ × ℤ :=
  if rb.size = 0 then (0, 0)
  else (rb.readPos, if rb.readPos < rb.writePos then toInt32 (rb.writePos - rb.readPos)
    else toInt32 (rb.capacity - rb.readPos))

/-- `RingBuffer::forward`. -/
def forward (rb : RingBuffer) (size : ℤ) : RC × RingBuffer :=
  if size ≤ 0 then (.invalidArgument, rb)
  else if rb.size < size then (.invalidArgument, rb)
  else (.success, { rb with dataSize := toInt32 (rb.dataSize - size) })

/-- The loop of `RingBuffer::read`; `out` is what has been copied to `buf`. -/
def readLoop : ℕ → RingBuffer → ℤ → Bytes → Option (RC × Bytes × RingBuffer)
  | 0, _, _, _ => none
  | fuel + 1, rb, size, out =>
    if (out.length : ℤ) < size ∧ 0 < rb.size then
      let (pos, tmpSize) := rb.buffer
      let copySize := min (size - out.length) tmpSize
      (load rb.buffer_ pos copySize).bind fun piece =>
        let (rc, rb) := rb.forward copySize
        if rc = .success then readLoop fuel rb size (out ++ piece) else some (rc, out ++ piece, rb)
    else some (.success, out, rb)

/-- `RingBuffer::read`: the code, the bytes copied to `buf`, and the buffer. A round that does not end the loop copies at
least one byte. -/
def read (rb : RingBuffer) (size : ℤ) : Option (RC × Bytes × RingBuffer) :=
  if size < 0 then some (.invalidArgument, [], rb) else readLoop (size.toNat + 1) rb size []

/-- The loop of `RingBuffer::write`. -/
def writeLoop : ℕ → RingBuffer → Bytes → ℤ → ℤ → Option (RC × ℤ × RingBuffer)
  | 0, _, _, _, _ => none
  | fuel + 1, rb, data, size, writeSize =>
    if writeSize < size ∧ 0 < rb.remain then
      let tmpBufSize :=
        if rb.readPos ≤ rb.writePos then toInt32 (rb.capacity - rb.writePos) else toInt32 (rb.readPos - rb.writePos)
      let copySize := min (size - writeSize) tmpBufSize
      (load data writeSize copySize).bind fun piece =>
        (store rb.buffer_ rb.writePos piece).bind fun buffer_ =>
          writeLoop fuel ⟨buffer_, toInt32 (rb.dataSize + copySize), (toInt32 (rb.writePos + copySize)).tmod rb.capacity⟩
            data size (writeSize + copySize)
    else some (.success, writeSize, rb)

/-- `RingBuffer::write`: the code, `write_size`, and the buffer. Every round of the loop copies at least one byte, or
comes back forever. -/
def write (rb : RingBuffer) (data : Bytes) (size : ℤ) : Option (RC × ℤ × RingBuffer) :=
  if size < 0 then some (.invalidArgument, 0, rb) else writeLoop (size.toNat + 1) rb data size 0

/-- `RingBuffer::clear`. -/
def clear (rb : RingBuffer) : RingBuffer := ⟨rb.buffer_, 0, 0⟩

end RingBuffer

/-! ## Calls and the queue -/

inductive Op
  | write (data : Bytes) (size : ℤ)
  | read (size : ℤ)
  | buffer
  | forward (size : ℤ)
  | clear

/-- What the callers promise: sizes are 32-bit integers, and `data` points to at least `size` bytes. -/
def Op.Allowed : Op → Prop
  | .write data size => -2 ^ 31 ≤ size ∧ size < 2 ^ 31 ∧ size ≤ data.length
  | .read size => -2 ^ 31 ≤ size ∧ size < 2 ^ 31
  | .forward size => -2 ^ 31 ≤ size ∧ size < 2 ^ 31
  | .buffer => True
  | .clear => True

/-- The code, the reported size, and the bytes that are delivered. -/
structure Reply where
  rc : RC
  size : ℤ
  bytes : Bytes

/-- `buffer` delivers the bytes that its pointer and its size are about. -/
def RingBuffer.step (rb : RingBuffer) : Op → Option (Reply × RingBuffer)
  | .write data size => (rb.write data size).map fun (rc, writeSize, rb') => (⟨rc, writeSize, []⟩, rb')
  | .read size => (rb.read size).map fun (rc, out, rb') => (⟨rc, out.length, out⟩, rb')
  | .buffer => (load rb.buffer_ rb.buffer.1 rb.buffer.2).map fun bytes => (⟨.success, rb.buffer.2, bytes⟩, rb)
  | .forward size => some (⟨(rb.forward size).1, 0, []⟩, (rb.forward size).2)
  | .clear => some (⟨.success, 0, []⟩, rb.clear)

def RingBuffer.run (rb : RingBuffer) : List Op → Option (List Reply × RingBuffer)
  | [] => some ([], rb)
  | op :: ops => do
    let (reply, rb) ← rb.step op
    let (replies, rb) ← rb.run ops
    some (reply :: replies, rb)

theorem RingBuffer.run_cons {rb rb' : RingBuffer} {op : Op} {ops : List Op} {reply : Reply} {replies : List Reply}
    (h : rb.run (op :: ops) = some (reply :: replies, rb')) :
    ∃ rb₁, rb.step op = some (reply, rb₁) ∧ rb₁.run ops = some (replies, rb') := by
  simp only [RingBuffer.run, Option.bind_eq_bind, Option.bind_eq_some_iff, Option.some.injEq, Prod.mk.injEq,
    List.cons.injEq] at h
  obtain ⟨⟨_, rb₁⟩, hstep, ⟨_, _⟩, hrun, ⟨rfl, rfl⟩, rfl⟩ := h
  exact ⟨rb₁, hstep, hrun⟩

/-- A call of a queue of at most `c` bytes. -/
inductive Fifo (c : ℕ) : Bytes → Op → Reply → Bytes → Prop
  | write {q data : Bytes} {size : ℕ} :
      Fifo c q (.write data size) ⟨.success, (min size (c - q.length) : ℕ), []⟩
        (q ++ data.take (min size (c - q.length)))
  | read {q : Bytes} {size : ℕ} :
      Fifo c q (.read size) ⟨.success, (min size q.length : ℕ), q.take size⟩ (q.drop size)
  | buffer {q : Bytes} {n : ℕ} (hle : n ≤ q.length) (hpos : q ≠ [] → 0 < n) :
      Fifo c q .buffer ⟨.success, n, q.take n⟩ q
  | forward {q : Bytes} {size : ℕ} (hpos : 0 < size) (hle : size ≤ q.length) :
      Fifo c q (.forward size) ⟨.success, 0, []⟩ (q.drop size)
  | clear {q : Bytes} : Fifo c q .clear ⟨.success, 0, []⟩ []
  | refuseWrite {q data : Bytes} {size : ℤ} (h : size < 0) : Fifo c q (.write data size) ⟨.invalidArgument, 0, []⟩ q
  | refuseRead {q : Bytes} {size : ℤ} (h : size < 0) : Fifo c q (.read size) ⟨.invalidArgument, 0, []⟩ q
  | refuseForward {q : Bytes} {size : ℤ} (h : size ≤ 0 ∨ (q.length : ℤ) < size) :
      Fifo c q (.forward size) ⟨.invalidArgument, 0, []⟩ q

/-- The calls of a queue in order, with what they answered. -/
inductive FifoRun (c : ℕ) : Bytes → List Op → List Reply → Bytes → Prop
  | nil {q : Bytes} : FifoRun c q [] [] q
  | cons {q q' q'' : Bytes} {op : Op} {reply : Reply} {ops : List Op} {replies : List Reply}
      (hhead : Fifo c q op reply q') (htail : FifoRun c q' ops replies q'') :
      FifoRun c q (op :: ops) (reply :: replies) q''

theorem Fifo.length_le {c : ℕ} {q q' : Bytes} {op : Op} {reply : Reply} (h : Fifo c q op reply q') (hq : q.length ≤ c) :
    q'.length ≤ c := by
  cases h with
  | write =>
    rw [List.length_append, List.length_take]
    omega
  | read =>
    rw [List.length_drop]
    omega
  | forward hpos hle =>
    rw [List.length_drop]
    omega
  | clear => exact Nat.zero_le c
  | buffer | refuseWrite | refuseRead | refuseForward => exact hq

/-! ## What a ring buffer holds -/

/-- The queue lies in the buffer cyclically, and its end is the write position. -/
structure Represents (c : ℕ) (rb : RingBuffer) (q : Bytes) : Prop where
  length : rb.buffer_.length = c
  nonneg : 0 ≤ rb.writePos
  lt : rb.writePos < c
  size : rb.dataSize = q.length
  le : q.length ≤ c
  contents : window rb.buffer_ (rb.writePos.toNat + (c - q.length)) q.length = q

namespace Represents

variable {c : ℕ} {rb : RingBuffer} {q : Bytes}

theorem create (hc : 1 ≤ c) : Represents c (RingBuffer.create c) [] :=
  ⟨List.length_replicate, le_rfl, Int.natCast_pos.mpr hc, rfl, Nat.zero_le c, rfl⟩

theorem capacity_eq (h : Represents c rb q) (hc : c < 2 ^ 31) : rb.capacity = c := by
  rw [RingBuffer.capacity, h.length, toInt32_of_range (by omega) (by omega)]

theorem remain_eq (h : Represents c rb q) (hc : c < 2 ^ 31) : rb.remain = (c - q.length : ℕ) := by
  have hle := h.le
  rw [RingBuffer.remain, h.capacity_eq hc, RingBuffer.size, h.size, toInt32_of_range (by omega) (by omega)]
  omega

/-- The read position is the start of the queue while the sum of two positions fits in 32 bits. -/
theorem readPos_eq (h : Represents c rb q) (hc : c ≤ 2 ^ 30) :
    ∃ r : ℕ, rb.readPos = r ∧ (rb.writePos.toNat + (c - q.length)) % c = r ∧ r < c ∧
      r = if q.length ≤ rb.writePos.toNat then rb.writePos.toNat - q.length
        else rb.writePos.toNat + (c - q.length) := by
  have hle := h.le
  have hlt := h.lt
  have hnonneg := h.nonneg
  refine ⟨_, ?_, rfl, Nat.mod_lt _ (by omega), ?_⟩
  · rw [RingBuffer.readPos, h.capacity_eq (by omega), RingBuffer.size, h.size,
      toInt32_of_range (by omega) (by omega)]
    rw [show rb.writePos - (q.length : ℤ) + c = ((rb.writePos.toNat + (c - q.length) : ℕ) : ℤ) by omega]
    exact (Int.ofNat_tmod _ _).symm
  · split
    · rw [Nat.mod_eq_sub_mod (by omega), Nat.mod_eq_of_lt (by omega)]
      omega
    · exact Nat.mod_eq_of_lt (by omega)

/-- The part of a queue that `buffer` shows: up to the write position, or up to the end of the buffer. -/
theorem buffer_eq (h : Represents c rb q) (hc : c ≤ 2 ^ 30) (hq : q ≠ []) :
    ∃ r m : ℕ, rb.buffer = ((r : ℤ), (m : ℤ)) ∧ 0 < m ∧ m ≤ q.length ∧ ∀ k ≤ m, load rb.buffer_ r k = some (q.take k) := by
  have hle := h.le
  have hlt := h.lt
  have hnonneg := h.nonneg
  have hpos : 0 < q.length := List.length_pos_of_ne_nil hq
  obtain ⟨r, hread, hr, hrlt, hmod⟩ := h.readPos_eq hc
  have hprefix : ∀ k, k ≤ q.length → r + k ≤ c → load rb.buffer_ r k = some (q.take k) := by
    intro k hk hend
    rw [load_nat (by rw [h.length]; exact hend)]
    have hcontents : window rb.buffer_ r q.length = q := by
      refine (window_congr ?_ _).trans h.contents
      rw [h.length, ← hr, Nat.mod_mod]
    rw [← take_window (by rw [h.length]; exact hend) hk, hcontents]
  refine ⟨r, if r < rb.writePos.toNat then rb.writePos.toNat - r else c - r, ?_, ?_, ?_, ?_⟩
  · rw [RingBuffer.buffer, if_neg (by rw [RingBuffer.size, h.size]; omega), hread, h.capacity_eq (by omega),
      toInt32_of_range (by omega) (by omega), toInt32_of_range (by omega) (by omega), Prod.mk.injEq]
    refine ⟨rfl, ?_⟩
    split_ifs <;> omega
  · split_ifs at hmod ⊢ <;> omega
  · split_ifs at hmod ⊢ <;> omega
  · intro k hk
    apply hprefix <;> split_ifs at hmod hk <;> omega

theorem forward_eq (h : Represents c rb q) (hc : c < 2 ^ 31) {k : ℕ} (hpos : 0 < k) (hk : k ≤ q.length) :
    ∃ rb', rb.forward k = (.success, rb') ∧ Represents c rb' (q.drop k) := by
  have hle := h.le
  have hlt := h.lt
  have hnonneg := h.nonneg
  refine ⟨⟨rb.buffer_, q.length - k, rb.writePos⟩, ?_, h.length, hnonneg, hlt, ?_, ?_, ?_⟩
  · rw [RingBuffer.forward, if_neg (by omega), if_neg (by rw [RingBuffer.size, h.size]; omega), h.size,
      toInt32_of_range (by omega) (by omega)]
  · rw [List.length_drop]
    show (q.length : ℤ) - k = _
    omega
  · rw [List.length_drop]
    omega
  · have hdrop := congrArg (List.drop k) h.contents
    rw [drop_window hk (by rw [h.length]; exact hle)] at hdrop
    rw [List.length_drop, ← hdrop]
    congr 1
    show rb.writePos.toNat + (c - (q.length - k)) = _
    omega

/-- The free bytes behind the write position: up to the end of the buffer, or up to the queue. -/
theorem tmpBufSize_eq (h : Represents c rb q) (hc : c ≤ 2 ^ 30) (hroom : q.length < c) :
    ∃ tmp : ℕ, (if rb.readPos ≤ rb.writePos then toInt32 (rb.capacity - rb.writePos)
        else toInt32 (rb.readPos - rb.writePos)) = (tmp : ℤ) ∧
      0 < tmp ∧ tmp ≤ c - q.length ∧ rb.writePos + tmp ≤ c := by
  have hlt := h.lt
  have hnonneg := h.nonneg
  obtain ⟨r, hread, -, hrlt, hmod⟩ := h.readPos_eq hc
  refine ⟨if r ≤ rb.writePos.toNat then c - rb.writePos.toNat else r - rb.writePos.toNat, ?_, ?_, ?_, ?_⟩
  · rw [hread, h.capacity_eq (by omega), toInt32_of_range (by omega) (by omega), toInt32_of_range (by omega) (by omega)]
    split_ifs <;> omega
  all_goals split_ifs at hmod ⊢ <;> omega

theorem write_round (h : Represents c rb q) (hc : c ≤ 2 ^ 30) (piece : Bytes) (hroom : piece.length ≤ c - q.length)
    (hend : rb.writePos + piece.length ≤ c) :
    ∃ buffer_, store rb.buffer_ rb.writePos piece = some buffer_ ∧
      Represents c ⟨buffer_, toInt32 (rb.dataSize + piece.length),
        (toInt32 (rb.writePos + piece.length)).tmod rb.capacity⟩ (q ++ piece) := by
  have hle := h.le
  have hlt := h.lt
  have hnonneg := h.nonneg
  have hlength := h.length
  generalize hw : rb.writePos.toNat = w
  have hpos : rb.writePos = (w : ℤ) := by omega
  have hlength' : (overwrite rb.buffer_ w piece).length = c := by
    rw [length_overwrite (by omega), hlength]
  rw [hpos] at hend ⊢
  refine ⟨overwrite rb.buffer_ w piece, store_nat (by omega), ?_⟩
  have hnext : (toInt32 ((w : ℤ) + piece.length)).tmod rb.capacity = ((w + piece.length) % c : ℕ) := by
    rw [h.capacity_eq (by omega), toInt32_of_range (by omega) (by omega), ← Int.natCast_add]
    exact (Int.ofNat_tmod _ _).symm
  rw [hnext, h.size, toInt32_of_range (by omega) (by omega)]
  have hjoin : window (overwrite rb.buffer_ w piece) (w + (c - q.length)) (q.length + piece.length) = q ++ piece := by
    rw [window_overwrite (by omega) _ (by omega), ← hw, h.contents]
    rw [hlength, show w + (c - q.length) + q.length = w + c by omega, Nat.add_mod_right, Nat.mod_eq_of_lt (by omega)]
  refine ⟨hlength', Int.natCast_nonneg _, ?_, ?_, ?_, ?_⟩
  · exact Int.ofNat_lt.mpr (Nat.mod_lt _ (by omega))
  · rw [List.length_append, Int.natCast_add]
  · rw [List.length_append]
    omega
  · rw [List.length_append]
    refine (window_congr ?_ _).trans hjoin
    have hstart : w + piece.length + (c - (q.length + piece.length)) = w + (c - q.length) := by omega
    rw [hlength', Int.toNat_natCast, Nat.mod_add_mod, hstart]

theorem min_sub_natCast {size done : ℕ} (h : done ≤ size) (tmp : ℕ) :
    min ((size : ℤ) - done) (tmp : ℤ) = (min (size - done) tmp : ℕ) := by
  rw [← Int.natCast_sub h, ← Nat.cast_min]

theorem min_round {left tmp free : ℕ} (h : tmp ≤ free) :
    min left free = min left tmp + min (left - min left tmp) (free - min left tmp) := by omega

theorem readLoop_eq (hc : c ≤ 2 ^ 30) (size fuel : ℕ) (out : Bytes) {rb : RingBuffer} {q : Bytes} (h : Represents c rb q)
    (hout : out.length ≤ size) (hfuel : size - out.length < fuel) :
    ∃ rb', RingBuffer.readLoop fuel rb size out = some (.success, out ++ q.take (size - out.length), rb') ∧
      Represents c rb' (q.drop (size - out.length)) := by
  induction fuel generalizing rb q out with
  | zero => omega
  | succ fuel ih =>
    rw [RingBuffer.readLoop]
    by_cases hmore : (out.length : ℤ) < size ∧ 0 < rb.size
    · have hq : q ≠ [] := by
        rintro rfl
        rw [RingBuffer.size, h.size] at hmore
        exact absurd hmore.2 (lt_irrefl 0)
      obtain ⟨r, m, hbuffer, hpos, hm, hload⟩ := h.buffer_eq hc hq
      generalize hk : min (size - out.length) m = k
      have hcopy : min ((size : ℤ) - out.length) (m : ℤ) = (k : ℤ) := by rw [min_sub_natCast hout, hk]
      obtain ⟨rb₁, hforward, h₁⟩ := h.forward_eq (by omega) (k := k) (by omega) (by omega)
      have htaken : (out ++ q.take k).length = out.length + k := by
        rw [List.length_append, List.length_take]
        omega
      obtain ⟨rb₂, hloop, h₂⟩ := ih (out ++ q.take k) h₁ (by omega) (by omega)
      have hrest : size - out.length = k + (size - (out ++ q.take k).length) := by omega
      refine ⟨rb₂, ?_, ?_⟩
      · rw [if_pos hmore, hbuffer]
        simp only [hcopy, hload k (by omega), Option.bind_some, hforward, if_true]
        rw [hloop, hrest, List.take_add, List.append_assoc]
      · rw [hrest, ← List.drop_drop]
        exact h₂
    · refine ⟨rb, ?_, ?_⟩
      · rw [if_neg hmore]
        have htake : q.take (size - out.length) = [] := by
          rw [List.take_eq_nil_iff]
          by_contra hnot
          have hpos := List.length_pos_of_ne_nil (not_or.mp hnot).2
          have hsize : rb.size = q.length := h.size
          omega
        rw [htake, List.append_nil]
      · have hdrop : q.drop (size - out.length) = q := by
          cases Nat.eq_zero_or_pos (size - out.length) with
          | inl hzero => rw [hzero, List.drop_zero]
          | inr hpos =>
            have hsize : rb.size = q.length := h.size
            have hnil : q = [] := List.eq_nil_of_length_eq_zero (by omega)
            rw [hnil, List.drop_nil]
        rw [hdrop]
        exact h

theorem writeLoop_eq (hc : c ≤ 2 ^ 30) {data : Bytes} {size : ℕ} (hdata : size ≤ data.length) (fuel writeSize : ℕ)
    {rb : RingBuffer} {q : Bytes} (h : Represents c rb q) (hwrite : writeSize ≤ size)
    (hfuel : size - writeSize < fuel) :
    ∃ rb', RingBuffer.writeLoop fuel rb data size writeSize =
        some (.success, ((writeSize + min (size - writeSize) (c - q.length) : ℕ) : ℤ), rb') ∧
      Represents c rb' (q ++ (data.drop writeSize).take (min (size - writeSize) (c - q.length))) := by
  induction fuel generalizing rb q writeSize with
  | zero => omega
  | succ fuel ih =>
    have hle := h.le
    have hlt := h.lt
    have hnonneg := h.nonneg
    rw [RingBuffer.writeLoop]
    by_cases hmore : (writeSize : ℤ) < size ∧ 0 < rb.remain
    · have hroom : q.length < c := by
        have hremain := h.remain_eq (by omega)
        omega
      obtain ⟨tmp, htmp, hpos, hfree, hend⟩ := h.tmpBufSize_eq hc hroom
      generalize hk : min (size - writeSize) tmp = k
      have hcopy : min ((size : ℤ) - writeSize) (tmp : ℤ) = (k : ℤ) := by rw [min_sub_natCast hwrite, hk]
      have hkpos : 0 < k := by omega
      have hktmp : k ≤ tmp := by omega
      have hksize : writeSize + k ≤ size := by omega
      have hless : size - (writeSize + k) < fuel := by
        clear htmp hk
        omega
      generalize hpiece : (data.drop writeSize).take k = piece
      have hlength : piece.length = k := by
        rw [← hpiece, List.length_take, List.length_drop]
        omega
      obtain ⟨buffer_, hstore, h₁⟩ := h.write_round hc piece (by omega) (by omega)
      rw [hlength] at h₁
      obtain ⟨rb₂, hloop, h₂⟩ := ih (writeSize + k) h₁ hksize hless
      have hsum : min (size - writeSize) (c - q.length) =
          k + min (size - (writeSize + k)) (c - (q ++ piece).length) := by
        rw [List.length_append, hlength, min_round hfree, hk, Nat.sub_sub, Nat.sub_sub]
      refine ⟨rb₂, ?_, ?_⟩
      · rw [if_pos hmore]
        simp only [htmp, hcopy, load_nat (show writeSize + k ≤ data.length by omega), hpiece, Option.bind_some, hstore]
        rw [← Int.natCast_add, hloop, hsum, Nat.add_assoc]
      · rw [hsum, List.take_add, hpiece, List.drop_drop, ← List.append_assoc]
        exact h₂
    · have hnone : min (size - writeSize) (c - q.length) = 0 := by
        have hremain := h.remain_eq (by omega)
        omega
      rw [if_neg hmore, hnone]
      refine ⟨rb, rfl, ?_⟩
      rw [List.take_zero, List.append_nil]
      exact h

theorem write_eq (h : Represents c rb q) (hc : c ≤ 2 ^ 30) {data : Bytes} {size : ℕ} (hdata : size ≤ data.length) :
    ∃ rb', rb.write data size = some (.success, ((min size (c - q.length) : ℕ) : ℤ), rb') ∧
      Represents c rb' (q ++ data.take (min size (c - q.length))) := by
  obtain ⟨rb', hloop, h'⟩ := writeLoop_eq hc hdata (size + 1) 0 h (Nat.zero_le size) (by omega)
  rw [Nat.sub_zero, Nat.zero_add] at hloop
  rw [Nat.sub_zero, List.drop_zero] at h'
  refine ⟨rb', ?_, h'⟩
  rw [RingBuffer.write, if_neg (by omega), Int.toNat_natCast, ← hloop]
  rfl

/-- Every call answers as a queue does, and leaves a buffer that represents the new queue. -/
theorem step (h : Represents c rb q) (hc : c ≤ 2 ^ 30) {op : Op} (hallowed : op.Allowed) :
    ∃ reply rb' q', rb.step op = some (reply, rb') ∧ Fifo c q op reply q' ∧ Represents c rb' q' := by
  cases op with
  | write data size =>
    obtain ⟨-, -, hdata⟩ := hallowed
    by_cases hneg : size < 0
    · exact ⟨_, rb, q, by rw [RingBuffer.step, RingBuffer.write, if_pos hneg]; rfl, .refuseWrite hneg, h⟩
    · obtain ⟨n, rfl⟩ := Int.eq_ofNat_of_zero_le (not_lt.mp hneg)
      obtain ⟨rb', hwrite, h'⟩ := h.write_eq hc (show n ≤ data.length by omega)
      exact ⟨_, rb', _, by rw [RingBuffer.step, hwrite]; rfl, .write, h'⟩
  | read size =>
    by_cases hneg : size < 0
    · exact ⟨_, rb, q, by rw [RingBuffer.step, RingBuffer.read, if_pos hneg]; rfl, .refuseRead hneg, h⟩
    · obtain ⟨n, rfl⟩ := Int.eq_ofNat_of_zero_le (not_lt.mp hneg)
      obtain ⟨rb', hloop, h'⟩ := readLoop_eq hc n (n + 1) [] h (Nat.zero_le n) (by simp)
      rw [List.length_nil, Nat.sub_zero, List.nil_append] at hloop
      rw [List.length_nil, Nat.sub_zero] at h'
      refine ⟨_, rb', _, ?_, .read, h'⟩
      rw [RingBuffer.step, RingBuffer.read, if_neg hneg, Int.toNat_natCast, hloop]
      simp [List.length_take]
  | buffer =>
    by_cases hq : q = []
    · subst hq
      have hsize : rb.size = 0 := h.size
      have hbuffer : rb.buffer = (0, 0) := by rw [RingBuffer.buffer, if_pos hsize]
      refine ⟨⟨.success, (0 : ℕ), ([] : Bytes).take 0⟩, rb, [], ?_, .buffer le_rfl (fun hne => absurd rfl hne), h⟩
      rw [RingBuffer.step, hbuffer, load, if_pos (by simp)]
      rfl
    · obtain ⟨r, m, hbuffer, hpos, hm, hload⟩ := h.buffer_eq hc hq
      refine ⟨⟨.success, (m : ℕ), q.take m⟩, rb, q, ?_, .buffer hm (fun _ => hpos), h⟩
      rw [RingBuffer.step, hbuffer, hload m le_rfl]
      rfl
  | forward size =>
    by_cases hbad : size ≤ 0 ∨ (q.length : ℤ) < size
    · refine ⟨_, rb, q, ?_, .refuseForward hbad, h⟩
      have hforward : rb.forward size = (.invalidArgument, rb) := by
        rw [RingBuffer.forward]
        split_ifs with hpos hle
        · rfl
        · rfl
        · rw [RingBuffer.size, h.size] at hle
          omega
      rw [RingBuffer.step, hforward]
    · obtain ⟨n, rfl⟩ := Int.eq_ofNat_of_zero_le (show 0 ≤ size by omega)
      obtain ⟨rb', hforward, h'⟩ := h.forward_eq (by omega) (k := n) (by omega) (by omega)
      refine ⟨_, rb', _, ?_, .forward (show 0 < n by omega) (by omega), h'⟩
      rw [RingBuffer.step, hforward]
  | clear =>
    have hlt := h.lt
    have hnonneg := h.nonneg
    exact ⟨_, _, _, rfl, .clear, h.length, le_rfl, show (0 : ℤ) < c by omega, rfl, Nat.zero_le c, rfl⟩

theorem run (hc : c ≤ 2 ^ 30) {ops : List Op} (hallowed : ∀ op ∈ ops, op.Allowed) {rb : RingBuffer} {q : Bytes}
    (h : Represents c rb q) :
    ∃ replies rb' q', rb.run ops = some (replies, rb') ∧ FifoRun c q ops replies q' ∧ Represents c rb' q' := by
  induction ops generalizing rb q with
  | nil => exact ⟨[], rb, q, rfl, .nil, h⟩
  | cons op ops ih =>
    obtain ⟨reply, rb₁, q₁, hstep, hfifo, h₁⟩ := h.step hc (hallowed op (by simp))
    obtain ⟨replies, rb₂, q₂, hrun, hfifos, h₂⟩ := ih (fun op hop => hallowed op (by simp [hop])) h₁
    refine ⟨reply :: replies, rb₂, q₂, ?_, .cons hfifo hfifos, h₂⟩
    simp [RingBuffer.run, hstep, hrun]

end Represents

/-! ## Large buffers -/

theorem toInt32_of_overflow {x : ℤ} (hlo : 2 ^ 31 ≤ x) (hhi : x < 2 ^ 32 + 2 ^ 31) : toInt32 x = x - 2 ^ 32 := by
  unfold toInt32
  rw [Int.bmod_def]
  push_cast
  split <;> omega

theorem write_create {c : ℕ} (hc : 2 ≤ c) (hlt : c < 2 ^ 31) {data : Bytes} (hdata : data.length = c - 1) :
    (RingBuffer.create c).write data (c - 1 : ℕ) =
      some (.success, ((c - 1 : ℕ) : ℤ), ⟨overwrite (List.replicate c 0) 0 data, (c - 1 : ℕ), (c - 1 : ℕ)⟩) := by
  have hfit : ∀ k : ℕ, k ≤ c → toInt32 k = k := fun k hk => toInt32_of_range (by omega) (by omega)
  have hcapacity : ∀ {rb : RingBuffer}, rb.buffer_.length = c → rb.capacity = c := by
    intro rb hlength
    rw [RingBuffer.capacity, hlength, hfit c le_rfl]
  clear hlt
  -- the arithmetic comes first: `omega` would look into `toInt32`
  have hpos : c - 1 ≠ 0 := by omega
  have hle : c - 1 ≤ c := by omega
  have hmod : (c - 1) % c = c - 1 := Nat.mod_eq_of_lt (by omega)
  have hcopy : min (((c - 1 : ℕ) : ℤ) - (0 : ℕ)) (c : ℤ) = (c - 1 : ℕ) := by omega
  have hmore : ((0 : ℕ) : ℤ) < (c - 1 : ℕ) ∧ (0 : ℤ) < c := by omega
  have hnonneg : ¬((c - 1 : ℕ) : ℤ) < 0 := by omega
  have hnew : (RingBuffer.create c).capacity = c := hcapacity List.length_replicate
  have hremain : (RingBuffer.create c).remain = c := by
    rw [RingBuffer.remain, hnew]
    exact (congrArg toInt32 (sub_zero _)).trans (hfit c le_rfl)
  have hread : (RingBuffer.create c).readPos = (0 : ℕ) := by
    rw [RingBuffer.readPos, hnew]
    have hsum : toInt32 ((RingBuffer.create c).writePos - (RingBuffer.create c).size + c) = c :=
      (congrArg toInt32 (zero_add _)).trans (hfit c le_rfl)
    rw [hsum, Int.tmod_self, Int.natCast_zero]
  have hbuffer : (RingBuffer.create c).buffer_ = List.replicate c 0 := rfl
  have hsize : (RingBuffer.create c).dataSize = (0 : ℕ) := rfl
  have hwritePos : (RingBuffer.create c).writePos = (0 : ℕ) := rfl
  have hpiece : load data (0 : ℕ) (c - 1 : ℕ) = some data := by
    rw [load_nat (by rw [hdata, Nat.zero_add]), List.drop_zero, List.take_of_length_le hdata.le]
  have hstore : store (List.replicate c 0) (0 : ℕ) data = some (overwrite (List.replicate c 0) 0 data) :=
    store_nat (by rw [List.length_replicate, hdata, Nat.zero_add]; exact hle)
  have hfull : toInt32 ((c : ℤ) - (0 : ℕ)) = c := by
    rw [Int.natCast_zero, sub_zero, hfit c le_rfl]
  have hnext : toInt32 (((0 : ℕ) : ℤ) + (c - 1 : ℕ)) = (c - 1 : ℕ) := by
    rw [Int.natCast_zero, zero_add, hfit _ hle]
  have hwrap : ((c - 1 : ℕ) : ℤ).tmod c = (c - 1 : ℕ) := by rw [← Int.ofNat_tmod, hmod]
  rw [RingBuffer.write, if_neg hnonneg, Int.toNat_natCast, ← Int.natCast_zero, RingBuffer.writeLoop, hremain, if_pos hmore]
  simp only [hread, hnew, hbuffer, hsize, hwritePos, hfull, le_refl, if_true, hcopy, hpiece, hstore, Option.bind_some, hnext,
    hwrap]
  obtain ⟨fuel, hfuel⟩ := Nat.exists_eq_succ_of_ne_zero hpos
  rw [hfuel, RingBuffer.writeLoop, if_neg (by simp), ← hfuel]
  simp

theorem forward_allButOne {c : ℕ} (hc : 2 ^ 30 < c) (hlt : c < 2 ^ 31) (buffer_ : Bytes) :
    RingBuffer.forward ⟨buffer_, (c - 1 : ℕ), (c - 1 : ℕ)⟩ (c - 2 : ℕ) = (.success, ⟨buffer_, 1, (c - 1 : ℕ)⟩) := by
  have hone : toInt32 (((c - 1 : ℕ) : ℤ) - (c - 2 : ℕ)) = 1 := by
    rw [toInt32_of_range (by omega) (by omega)]
    omega
  have henough : ¬RingBuffer.size ⟨buffer_, (c - 1 : ℕ), (c - 1 : ℕ)⟩ < (c - 2 : ℕ) :=
    show ¬((c - 1 : ℕ) : ℤ) < (c - 2 : ℕ) by omega
  rw [RingBuffer.forward, if_neg (by omega), if_neg henough, hone]

theorem buffer_allButOne {c : ℕ} (hc : 2 ≤ c) (hlt : c < 2 ^ 31) {buffer_ : Bytes} (hlength : buffer_.length = c) :
    RingBuffer.buffer ⟨buffer_, (c - 1 : ℕ), (c - 1 : ℕ)⟩ = (0, ((c - 1 : ℕ) : ℤ)) := by
  have hsize : RingBuffer.size ⟨buffer_, (c - 1 : ℕ), (c - 1 : ℕ)⟩ ≠ 0 := show ((c - 1 : ℕ) : ℤ) ≠ 0 by omega
  have hfirst : (0 : ℤ) < (c - 1 : ℕ) := by omega
  have hshown : toInt32 (((c - 1 : ℕ) : ℤ) - 0) = (c - 1 : ℕ) := by
    rw [sub_zero, toInt32_of_range (by omega) (by omega)]
  have hcapacity : RingBuffer.capacity ⟨buffer_, (c - 1 : ℕ), (c - 1 : ℕ)⟩ = c := by
    rw [RingBuffer.capacity, hlength, toInt32_of_range (by omega) (by omega)]
  have hread : RingBuffer.readPos ⟨buffer_, (c - 1 : ℕ), (c - 1 : ℕ)⟩ = 0 := by
    have hsum : toInt32 (((c - 1 : ℕ) : ℤ) - (c - 1 : ℕ) + c) = c := by
      rw [sub_self, zero_add, toInt32_of_range (by omega) (by omega)]
    rw [RingBuffer.readPos, hcapacity]
    exact (congrArg (fun x => Int.tmod x c) hsum).trans Int.tmod_self
  rw [RingBuffer.buffer, if_neg hsize, hread, if_pos hfirst, hshown]

/-- With one byte left, at the last position but one, the sum of `read_pos` overflows: the pointer of `buffer` lies before
the buffer, or the bytes from the beginning of the buffer are shown. -/
theorem buffer_overflow {c : ℕ} (hc : 2 ^ 30 < c) (hlt : c < 2 ^ 31) {buffer_ : Bytes} (hlength : buffer_.length = c) :
    let rb : RingBuffer := ⟨buffer_, 1, (c - 1 : ℕ)⟩
    load rb.buffer_ rb.buffer.1 rb.buffer.2 = none ∨ rb.buffer = (0, ((c - 1 : ℕ) : ℤ)) := by
  intro rb
  have hcapacity : rb.capacity = c := by
    rw [RingBuffer.capacity, hlength, toInt32_of_range (by omega) (by omega)]
  have hsum : toInt32 (((c - 1 : ℕ) : ℤ) - 1 + c) = -((2 ^ 32 + 2 - 2 * c : ℕ) : ℤ) := by
    rw [toInt32_of_overflow (by omega) (by omega)]
    omega
  have hread : rb.readPos = -(((2 ^ 32 + 2 - 2 * c) % c : ℕ) : ℤ) := by
    rw [RingBuffer.readPos, hcapacity]
    exact (congrArg (fun x => Int.tmod x c) hsum).trans (Int.neg_tmod _ _)
  generalize (2 ^ 32 + 2 - 2 * c) % c = r at hread
  have hbuffer : rb.buffer.1 = rb.readPos := by
    rw [RingBuffer.buffer, if_neg (show rb.size ≠ 0 from one_ne_zero)]
  rcases Nat.eq_zero_or_pos r with rfl | hpos
  · right
    have hfirst : rb.readPos < rb.writePos := by
      rw [hread]
      show -((0 : ℕ) : ℤ) < (c - 1 : ℕ)
      omega
    have hshown : toInt32 (rb.writePos - rb.readPos) = (c - 1 : ℕ) := by
      rw [hread]
      show toInt32 (((c - 1 : ℕ) : ℤ) - -((0 : ℕ) : ℤ)) = _
      rw [toInt32_of_range (by omega) (by omega)]
      omega
    rw [RingBuffer.buffer, if_neg (show rb.size ≠ 0 from one_ne_zero), if_pos hfirst, hshown, hread]
    rfl
  · left
    rw [load, if_neg]
    rw [hbuffer, hread]
    omega

/-! ## The buffer is a queue -/

/-- Every sequence of calls gets the answers of a queue of at most `c` bytes. -/
def IsFifo (c : ℕ) : Prop :=
  ∀ ops : List Op, (∀ op ∈ ops, op.Allowed) →
    ∃ replies rb q, (RingBuffer.create c).run ops = some (replies, rb) ∧ FifoRun c [] ops replies q ∧ q.length ≤ c

theorem Fifo.length_of_write {c : ℕ} {q q' data : Bytes} {size : ℕ} {reply : Reply}
    (h : Fifo c q (.write data size) reply q') (hdata : size ≤ data.length) :
    q'.length = q.length + min size (c - q.length) := by
  generalize hop : Op.write data size = op at h
  cases h with
  | write =>
    obtain ⟨rfl, hsize⟩ := Op.write.inj hop
    rw [List.length_append, List.length_take, ← Int.ofNat.inj hsize]
    omega
  | refuseWrite hneg =>
    obtain ⟨-, rfl⟩ := Op.write.inj hop
    omega
  | _ => cases hop

theorem Fifo.length_of_forward {c : ℕ} {q q' : Bytes} {size : ℕ} {reply : Reply}
    (h : Fifo c q (.forward size) reply q') (hpos : 0 < size) (hle : size ≤ q.length) :
    q'.length = q.length - size := by
  generalize hop : Op.forward size = op at h
  cases h with
  | forward =>
    rw [List.length_drop, ← Int.ofNat.inj (Op.forward.inj hop)]
  | refuseForward hbad =>
    have hsize := Op.forward.inj hop
    omega
  | _ => cases hop

theorem Fifo.length_of_buffer {c : ℕ} {q q' : Bytes} {reply : Reply} (h : Fifo c q .buffer reply q') :
    reply.bytes.length ≤ q.length := by
  cases h with
  | buffer hle hpos => exact List.length_take_le' _ _

/-- Writing all bytes but one, reading all of them but one, and looking at the last. -/
def overflowing (c : ℕ) : List Op :=
  [.write (List.replicate (c - 1) 0) (c - 1 : ℕ), .forward (c - 2 : ℕ), .buffer]

theorem overflowing_allowed {c : ℕ} (hlt : c < 2 ^ 31) : ∀ op ∈ overflowing c, op.Allowed := by
  intro op hop
  simp only [overflowing, List.mem_cons, List.not_mem_nil, or_false] at hop
  rcases hop with rfl | rfl | rfl
  · refine ⟨by omega, by omega, ?_⟩
    rw [List.length_replicate]
  · exact ⟨by omega, by omega⟩
  · trivial

theorem not_fifo_overflowing {c : ℕ} (hc : 2 ^ 30 < c) (hlt : c < 2 ^ 31) :
    ¬∃ replies rb q, (RingBuffer.create c).run (overflowing c) = some (replies, rb) ∧
      FifoRun c [] (overflowing c) replies q ∧ q.length ≤ c := by
  rintro ⟨replies, rb, q, hrun, hfifo, -⟩
  have hlength : (overwrite (List.replicate c 0) 0 (List.replicate (c - 1) (0 : UInt8))).length = c := by
    rw [length_overwrite, List.length_replicate]
    rw [List.length_replicate, List.length_replicate]
    omega
  have hwrite := write_create (by omega) hlt (List.length_replicate (n := c - 1) (a := (0 : UInt8)))
  generalize overwrite (List.replicate c 0) 0 (List.replicate (c - 1) (0 : UInt8)) = buffer_ at hlength hwrite
  have hforward := forward_allButOne hc hlt buffer_
  -- the queue behind the two calls holds one byte
  rw [overflowing] at hfifo
  cases hfifo with
  | cons hfifo₁ hrest =>
  cases hrest with
  | cons hfifo₂ hrest =>
  cases hrest with
  | cons hfifo₃ hrest =>
  cases hrest with
  | nil =>
  next q₁ reply₁ q₂ reply₂ reply₃ =>
  have hlength₁ := hfifo₁.length_of_write (by rw [List.length_replicate])
  rw [List.length_nil] at hlength₁
  have hlength₂ := hfifo₂.length_of_forward (by omega) (by omega)
  have hlength₃ := hfifo₃.length_of_buffer
  have hshown : RingBuffer.step ⟨buffer_, 1, (c - 1 : ℕ)⟩ .buffer = some (reply₃, rb) := by
    obtain ⟨rb₁, hstep₁, hrun₁⟩ := RingBuffer.run_cons hrun
    obtain ⟨rb₂, hstep₂, hrun₂⟩ := RingBuffer.run_cons hrun₁
    obtain ⟨rb₃, hstep₃, hrun₃⟩ := RingBuffer.run_cons hrun₂
    rw [RingBuffer.step, hwrite] at hstep₁
    obtain rfl := (Prod.mk.inj (Option.some.inj hstep₁)).2
    rw [RingBuffer.step, hforward] at hstep₂
    obtain rfl := (Prod.mk.inj (Option.some.inj hstep₂)).2
    obtain rfl := (Prod.mk.inj (Option.some.inj hrun₃)).2
    exact hstep₃
  rw [RingBuffer.step] at hshown
  obtain ⟨bytes, hload, hreply⟩ := Option.map_eq_some_iff.mp hshown
  cases buffer_overflow hc hlt hlength with
  | inl hnone =>
    rw [hnone] at hload
    cases hload
  | inr hsome =>
    rw [hsome] at hload
    have hbytes := length_of_load hload
    rw [← (Prod.mk.inj hreply).1] at hlength₃
    have hlong : bytes.length ≤ q₂.length := hlength₃
    omega

theorem isFifo_iff (c : ℕ) (hpos : 1 ≤ c) (hlt : c < 2 ^ 31) : IsFifo c ↔ c ≤ 2 ^ 30 := by
  constructor
  · intro h
    by_contra hc
    exact not_fifo_overflowing (not_le.mp hc) hlt (h (overflowing c) (overflowing_allowed hlt))
  · intro hc ops hallowed
    obtain ⟨replies, rb, q, hrun, hfifo, hrep⟩ := (Represents.create hpos).run hc hallowed
    exact ⟨replies, rb, q, hrun, hfifo, hrep.le⟩

theorem isFifo_three : 1 ≤ 3 ∧ 3 < 2 ^ 31 ∧ IsFifo 3 :=
  ⟨by decide, by decide, (isFifo_iff 3 (by decide) (by decide)).mpr (by decide)⟩

/-- A buffer of `2 ^ 30 + 1` bytes. -/
theorem not_isFifo_large : (∀ op ∈ overflowing (2 ^ 30 + 1), op.Allowed) ∧
    ¬∃ replies rb q, (RingBuffer.create (2 ^ 30 + 1)).run (overflowing (2 ^ 30 + 1)) = some (replies, rb) ∧
      FifoRun (2 ^ 30 + 1) [] (overflowing (2 ^ 30 + 1)) replies q ∧ q.length ≤ 2 ^ 30 + 1 :=
  ⟨overflowing_allowed (by decide), not_fifo_overflowing (by decide) (by decide)⟩

end Landbase.Net
