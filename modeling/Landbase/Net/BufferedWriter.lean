import Landbase.Net.RingBuffer

/-! # `BufferedWriter`

The writer of `net/buffered_writer.cpp`, which collects what is sent to a client in a `RingBuffer` and hands it to the
descriptor in pieces whose sizes the kernel chooses.

The kernel is a `Channel`: the answers that the coming calls of `::write` get, and the bytes it has accepted. A call
returns `none` when the answers are used up or when memory outside of the buffer is read.
-/

namespace Landbase.Net
set_option autoImplicit false

/-! ## The descriptor -/

/-- What a call of `::write` does: accept up to `n` bytes, or fail with `EAGAIN`, with `EINTR` or with another error. -/
inductive SysWrite
  | accept (n : ℕ) | again | intr | error
  deriving DecidableEq

structure Channel where
  script : List SysWrite
  accepted : Bytes

/-- The inner loop of `flush_internal`: `::write` until it accepts something. `none` inside is an error. -/
def writeSome (size : ℕ) : List SysWrite → Option (Option ℕ × List SysWrite)
  | [] => none
  | .accept n :: script => if min n size = 0 then writeSome size script else some (some (min n size), script)
  | .again :: script => writeSome size script
  | .intr :: script => writeSome size script
  | .error :: script => some (none, script)

/-! ## The writer -/

structure BufferedWriter where
  fd : ℤ
  buffer : RingBuffer

namespace BufferedWriter

def create (fd : ℤ) (size : ℕ) : BufferedWriter := ⟨fd, .create size⟩

/-- The outer loop of `flush_internal`. What `forward` returns is not looked at. -/
def flushLoop : ℕ → BufferedWriter → Channel → ℤ → ℤ → Option (RC × BufferedWriter × Channel)
  | 0, _, _, _, _ => none
  | fuel + 1, w, ch, size, writeSize =>
    if 0 < w.buffer.size ∧ writeSize < size then
      (load w.buffer.buffer_ w.buffer.buffer.1 w.buffer.buffer.2).bind fun bytes =>
        (writeSome bytes.length ch.script).bind fun (taken, script) =>
          match taken with
          | none => some (.ioerrWrite, w, ⟨script, ch.accepted⟩)
          | some n => flushLoop fuel ⟨w.fd, (w.buffer.forward n).2⟩ ⟨script, ch.accepted ++ bytes.take n⟩ size
              (toInt32 (writeSize + n))
    else some (.success, w, ch)

/-- `BufferedWriter::flush_internal`. Every round takes at least one answer. -/
def flushInternal (w : BufferedWriter) (ch : Channel) (size : ℤ) : Option (RC × BufferedWriter × Channel) :=
  if w.fd < 0 then some (.invalidArgument, w, ch) else flushLoop (ch.script.length + 1) w ch size 0

/-- `BufferedWriter::write`, with `write_size`. -/
def write (w : BufferedWriter) (ch : Channel) (data : Bytes) (size : ℤ) : Option (RC × ℤ × BufferedWriter × Channel) :=
  if w.fd < 0 then some (.invalidArgument, 0, w, ch)
  else
    (if w.buffer.remain = 0 then w.flushInternal ch size else some (.success, w, ch)).bind fun (rc, w, ch) =>
      if rc ≠ .success then some (rc, 0, w, ch)
      else (w.buffer.write data size).map fun (rc, writeSize, rb) => (rc, writeSize, ⟨w.fd, rb⟩, ch)

def writenLoop : ℕ → BufferedWriter → Channel → Bytes → ℤ → ℤ → Option (RC × BufferedWriter × Channel)
  | 0, _, _, _, _, _ => none
  | fuel + 1, w, ch, data, size, writeSize =>
    if writeSize < size then
      (w.write ch (data.drop writeSize.toNat) (size - writeSize)).bind fun (rc, tmpWriteSize, w, ch) =>
        if rc ≠ .success then some (rc, w, ch) else writenLoop fuel w ch data size (writeSize + tmpWriteSize)
    else some (.success, w, ch)

/-- `BufferedWriter::writen`. Every round that does not fail writes at least one byte, or comes back forever. -/
def writen (w : BufferedWriter) (ch : Channel) (data : Bytes) (size : ℤ) : Option (RC × BufferedWriter × Channel) :=
  if w.fd < 0 then some (.invalidArgument, w, ch) else writenLoop (size.toNat + 1) w ch data size 0

def flushRounds : ℕ → BufferedWriter → Channel → Option (RC × BufferedWriter × Channel)
  | 0, _, _ => none
  | fuel + 1, w, ch =>
    if 0 < w.buffer.size then
      (w.flushInternal ch w.buffer.size).bind fun (rc, w, ch) =>
        if rc ≠ .success then some (rc, w, ch) else flushRounds fuel w ch
    else some (.success, w, ch)

/-- `BufferedWriter::flush`. There are not more rounds than answers. -/
def flush (w : BufferedWriter) (ch : Channel) : Option (RC × BufferedWriter × Channel) :=
  if w.fd < 0 then some (.invalidArgument, w, ch) else flushRounds (ch.script.length + 2) w ch

end BufferedWriter

inductive Call
  | writen (data : Bytes) (size : ℤ)
  | flush

/-- The caller's promise: `size` is a 32-bit integer, and `data` points to at least as many bytes. -/
def Call.Allowed : Call → Prop
  | .writen data size => -2 ^ 31 ≤ size ∧ size < 2 ^ 31 ∧ size ≤ data.length
  | .flush => True

/-- The bytes that a call is asked to write. -/
def Call.bytes : Call → Bytes
  | .writen data size => data.take size.toNat
  | .flush => []

def BufferedWriter.call (w : BufferedWriter) (ch : Channel) : Call → Option (RC × BufferedWriter × Channel)
  | .writen data size => w.writen ch data size
  | .flush => w.flush ch

def BufferedWriter.run (w : BufferedWriter) (ch : Channel) : List Call → Option (List RC × BufferedWriter × Channel)
  | [] => some ([], w, ch)
  | call :: calls => do
    let (rc, w, ch) ← w.call ch call
    let (rcs, w, ch) ← w.run ch calls
    some (rc :: rcs, w, ch)

/-! ## Answers -/

def SysWrite.positive : SysWrite → Bool
  | .accept n => 0 < n
  | _ => false

/-- How many bytes will have been accepted at least, when the answers are used up. -/
def Channel.room (ch : Channel) : ℕ := ch.accepted.length + ch.script.countP SysWrite.positive

/-- The inner loop ends with the first positive answer, if there is one. -/
def EndsPositive (size : ℕ) (script : List SysWrite) : Prop :=
  (writeSome size script = none ∧ script.countP SysWrite.positive = 0) ∨
    ∃ n script', writeSome size script = some (some n, script') ∧ 0 < n ∧ n ≤ size ∧ SysWrite.error ∉ script' ∧
      script.countP SysWrite.positive = script'.countP SysWrite.positive + 1 ∧ script'.length < script.length

theorem EndsPositive.cons {size : ℕ} {script : List SysWrite} (h : EndsPositive size script) {answer : SysWrite}
    (hnot : answer.positive = false) (heq : writeSome size (answer :: script) = writeSome size script) :
    EndsPositive size (answer :: script) := by
  have hcount : (answer :: script).countP SysWrite.positive = script.countP SysWrite.positive :=
    List.countP_cons_of_neg (by simp [hnot])
  unfold EndsPositive
  rw [heq, hcount]
  rcases h with hnone | ⟨n, script', hsome, hpos, hle, hclean, hone, hlt⟩
  · exact Or.inl hnone
  · exact Or.inr ⟨n, script', hsome, hpos, hle, hclean, hone, hlt.trans (Nat.lt_succ_self _)⟩

theorem endsPositive_of_clean {size : ℕ} (hsize : 0 < size) {script : List SysWrite}
    (hclean : SysWrite.error ∉ script) : EndsPositive size script := by
  induction script with
  | nil => exact Or.inl ⟨rfl, rfl⟩
  | cons answer script ih =>
    have hrest : SysWrite.error ∉ script := fun h => hclean (List.mem_cons_of_mem _ h)
    cases answer with
    | again => exact (ih hrest).cons rfl rfl
    | intr => exact (ih hrest).cons rfl rfl
    | error => exact absurd List.mem_cons_self hclean
    | accept n =>
      rcases Nat.eq_zero_or_pos n with rfl | hn
      · exact (ih hrest).cons rfl (by rw [writeSome, Nat.zero_min, if_pos rfl])
      · refine Or.inr ⟨min n size, script, ?_, by omega, by omega, hrest, ?_, Nat.lt_succ_self _⟩
        · rw [writeSome, if_neg (by omega)]
        · rw [List.countP_cons_of_pos (by simp [SysWrite.positive, hn])]

/-! ## What has been written -/

/-- What has been sent so far is what the descriptor accepted and what is still in the buffer; no answer to come is an
error. -/
structure Sent (c : ℕ) (w : BufferedWriter) (ch : Channel) (sent q : Bytes) : Prop where
  represents : Represents c w.buffer q
  fd : ¬w.fd < 0
  stream : ch.accepted ++ q = sent
  clean : SysWrite.error ∉ ch.script

/-- A call that either lacks answers, so that fewer than `bound` bytes are accepted, or succeeds. -/
def Returns (ch : Channel) (bound : ℕ) (result : Option (RC × BufferedWriter × Channel))
    (post : BufferedWriter → Channel → Prop) : Prop :=
  (result = none ∧ ch.room < bound) ∨
    ∃ w ch', result = some (.success, w, ch') ∧ ch.room ≤ ch'.room ∧ post w ch'

theorem Returns.mono {ch : Channel} {bound : ℕ} {result : Option (RC × BufferedWriter × Channel)}
    {post post' : BufferedWriter → Channel → Prop} (h : Returns ch bound result post)
    (himp : ∀ w ch', post w ch' → post' w ch') : Returns ch bound result post' := by
  rcases h with hnone | ⟨w, ch', hsome, hroom, hpost⟩
  · exact Or.inl hnone
  · exact Or.inr ⟨w, ch', hsome, hroom, himp w ch' hpost⟩

theorem Returns.of_room {ch ch₁ : Channel} {bound : ℕ} {result : Option (RC × BufferedWriter × Channel)}
    {post : BufferedWriter → Channel → Prop} (h : Returns ch₁ bound result post) (hroom : ch.room ≤ ch₁.room) :
    Returns ch bound result post := by
  rcases h with ⟨hnone, hlt⟩ | ⟨w, ch', hsome, hle, hpost⟩
  · exact Or.inl ⟨hnone, hroom.trans_lt hlt⟩
  · exact Or.inr ⟨w, ch', hsome, hroom.trans hle, hpost⟩

theorem flushLoop_round {w : BufferedWriter} {ch : Channel} {size writeSize pos m : ℤ} {fuel n : ℕ} {bytes : Bytes}
    {script : List SysWrite} {rb : RingBuffer} (hmore : 0 < w.buffer.size ∧ writeSize < size)
    (hbuffer : w.buffer.buffer = (pos, m)) (hload : load w.buffer.buffer_ pos m = some bytes)
    (htake : writeSome bytes.length ch.script = some (some n, script)) (hforward : (w.buffer.forward n).2 = rb) :
    BufferedWriter.flushLoop (fuel + 1) w ch size writeSize =
      BufferedWriter.flushLoop fuel ⟨w.fd, rb⟩ ⟨script, ch.accepted ++ bytes.take n⟩ size (toInt32 (writeSize + n)) := by
  rw [BufferedWriter.flushLoop, if_pos hmore, hbuffer, hload, Option.bind_some, htake, Option.bind_some, ← hforward]

theorem flush_of_flushInternal {w : BufferedWriter} (ch : Channel) (hfd : ¬w.fd < 0) (hsize : 0 < w.buffer.size) :
    (w.flushInternal ch w.buffer.size = none → w.flush ch = none) ∧
      ∀ w₁ ch₁, w.flushInternal ch w.buffer.size = some (.success, w₁, ch₁) → ¬0 < w₁.buffer.size →
        w.flush ch = some (.success, w₁, ch₁) := by
  constructor
  · intro hnone
    rw [BufferedWriter.flush, if_neg hfd, BufferedWriter.flushRounds, if_pos hsize, hnone, Option.bind_none]
  · intro w₁ ch₁ hsome hempty
    rw [BufferedWriter.flush, if_neg hfd, BufferedWriter.flushRounds, if_pos hsize, hsome, Option.bind_some]
    simp [BufferedWriter.flushRounds, hempty]

namespace Sent

variable {c : ℕ} {w : BufferedWriter} {ch : Channel} {sent q : Bytes}

theorem length_eq (h : Sent c w ch sent q) : sent.length = ch.accepted.length + q.length := by
  rw [← h.stream, List.length_append]

theorem flushLoop (hc : c ≤ 2 ^ 30) (size : ℤ) (fuel writeSize : ℕ) {w : BufferedWriter} {ch : Channel} {q : Bytes}
    (h : Sent c w ch sent q) (hfuel : ch.script.length < fuel) (hfit : writeSize + q.length ≤ 2 ^ 30) :
    Returns ch sent.length (BufferedWriter.flushLoop fuel w ch size writeSize) fun w' ch' =>
      ∃ q', Sent c w' ch' sent q' ∧ q'.length ≤ q.length ∧
        (q' = [] ∨ size ≤ ((writeSize + (q.length - q'.length) : ℕ) : ℤ)) := by
  induction fuel generalizing w ch q writeSize with
  | zero => omega
  | succ fuel ih =>
    by_cases hmore : 0 < w.buffer.size ∧ (writeSize : ℤ) < size
    · have hq : q ≠ [] := by
        rintro rfl
        rw [RingBuffer.size, h.represents.size] at hmore
        exact absurd hmore.1 (lt_irrefl 0)
      obtain ⟨r, m, hbuffer, hpos, hm, hload⟩ := h.represents.buffer_eq hc hq
      have hlength : (q.take m).length = m := by
        rw [List.length_take]
        omega
      rcases endsPositive_of_clean hpos h.clean with ⟨hnone, hcount⟩ | ⟨n, script', hsome, hn, hle, hclean, hcount, hlt⟩
      · refine Or.inl ⟨?_, ?_⟩
        · rw [BufferedWriter.flushLoop, if_pos hmore, hbuffer, hload m le_rfl, Option.bind_some, hlength, hnone,
            Option.bind_none]
        · have hlen := List.length_pos_of_ne_nil hq
          rw [Channel.room, hcount, h.length_eq]
          omega
      · obtain ⟨rb', hforward, hrep⟩ := h.represents.forward_eq (by omega) hn (hle.trans hm)
        have hnext : Sent c ⟨w.fd, rb'⟩ ⟨script', ch.accepted ++ (q.take m).take n⟩ sent (q.drop n) := by
          refine ⟨hrep, h.fd, ?_, hclean⟩
          rw [List.take_take, min_eq_left hle, List.append_assoc, List.take_append_drop, h.stream]
        have hdrop : (q.drop n).length = q.length - n := List.length_drop
        have hless : script'.length < fuel := by omega
        have hfit' : writeSize + n + (q.drop n).length ≤ 2 ^ 30 := by omega
        have hroom : ch.room ≤ Channel.room ⟨script', ch.accepted ++ (q.take m).take n⟩ := by
          have htaken : (ch.accepted ++ (q.take m).take n).length = ch.accepted.length + n := by
            rw [List.length_append, List.take_take, min_eq_left hle, List.length_take]
            omega
          show ch.accepted.length + ch.script.countP SysWrite.positive ≤
            (ch.accepted ++ (q.take m).take n).length + script'.countP SysWrite.positive
          rw [hcount, htaken]
          omega
        have hsum : toInt32 ((writeSize : ℤ) + n) = ((writeSize + n : ℕ) : ℤ) := by
          rw [toInt32_of_range (by omega) (by omega), Int.natCast_add]
        rw [flushLoop_round hmore hbuffer (hload m le_rfl) (by rw [hlength]; exact hsome) (congrArg Prod.snd hforward),
          hsum]
        clear hsum
        refine ((ih (writeSize + n) hnext hless hfit').of_room hroom).mono ?_
        rintro w' ch' ⟨q', hsent, hle', hdone⟩
        refine ⟨q', hsent, by omega, hdone.imp_right fun hsize => ?_⟩
        omega
    · rw [BufferedWriter.flushLoop, if_neg hmore]
      refine Or.inr ⟨w, ch, rfl, le_rfl, q, h, le_rfl, ?_⟩
      cases not_and_or.mp hmore with
      | inl hempty =>
        left
        rw [RingBuffer.size, h.represents.size] at hempty
        exact List.eq_nil_of_length_eq_zero (by omega)
      | inr hdone =>
        right
        omega

theorem flushInternal (h : Sent c w ch sent q) (hc : c ≤ 2 ^ 30) (size : ℤ) :
    Returns ch sent.length (w.flushInternal ch size) fun w' ch' =>
      ∃ q', Sent c w' ch' sent q' ∧ (q' = [] ∨ size ≤ ((q.length - q'.length : ℕ) : ℤ)) := by
  have hle := h.represents.le
  rw [BufferedWriter.flushInternal, if_neg h.fd]
  refine (Sent.flushLoop hc size _ 0 h (Nat.lt_succ_self _) (by omega)).mono ?_
  rintro w' ch' ⟨q', hsent, -, hdone⟩
  rw [Nat.zero_add] at hdone
  exact ⟨q', hsent, hdone⟩

theorem write (h : Sent c w ch sent q) (hpos : 1 ≤ c) (hc : c ≤ 2 ^ 30) {data : Bytes} {size : ℕ} (hsize : 0 < size)
    (hdata : size ≤ data.length) :
    (w.write ch data size = none ∧ ch.room < sent.length) ∨
      ∃ (n : ℕ) (w' : BufferedWriter) (ch' : Channel) (q' : Bytes), w.write ch data size = some (.success, (n : ℤ), w', ch') ∧
        0 < n ∧ n ≤ size ∧ ch.room ≤ ch'.room ∧ Sent c w' ch' (sent ++ data.take n) q' := by
  have hready : Returns ch sent.length
      (if w.buffer.remain = 0 then w.flushInternal ch size else some (.success, w, ch)) fun w' ch' =>
        ∃ q', Sent c w' ch' sent q' ∧ q'.length < c := by
    have hremain := h.represents.remain_eq (by omega)
    have hle := h.represents.le
    split
    · next hfull =>
      refine (h.flushInternal hc size).mono ?_
      rintro w' ch' ⟨q', hsent, hdone⟩
      refine ⟨q', hsent, ?_⟩
      rcases hdone with rfl | henough
      · exact hpos
      · omega
    · next hroom => exact Or.inr ⟨w, ch, rfl, le_rfl, q, h, by omega⟩
  rw [BufferedWriter.write, if_neg h.fd]
  rcases hready with ⟨hnone, hlt⟩ | ⟨w₁, ch₁, hsome, hroom, q₁, hsent, hless⟩
  · exact Or.inl ⟨by rw [hnone, Option.bind_none], hlt⟩
  · obtain ⟨rb', hwrite, hrep⟩ := hsent.represents.write_eq hc hdata
    refine Or.inr ⟨min size (c - q₁.length), ⟨w₁.fd, rb'⟩, ch₁, _, ?_, by omega, by omega, hroom, hrep, hsent.fd, ?_,
      hsent.clean⟩
    · rw [hsome, Option.bind_some]
      simp [hwrite]
    · rw [← List.append_assoc, hsent.stream]

theorem writenLoop (hpos : 1 ≤ c) (hc : c ≤ 2 ^ 30) {data : Bytes} {size : ℕ} (hdata : size ≤ data.length)
    (fuel writeSize : ℕ) {w : BufferedWriter} {ch : Channel} {sent q : Bytes} (h : Sent c w ch sent q)
    (hle : writeSize ≤ size) (hfuel : size - writeSize < fuel) :
    Returns ch (sent.length + (size - writeSize)) (BufferedWriter.writenLoop fuel w ch data size writeSize)
      fun w' ch' => ∃ q', Sent c w' ch' (sent ++ (data.drop writeSize).take (size - writeSize)) q' := by
  induction fuel generalizing w ch sent q writeSize with
  | zero => omega
  | succ fuel ih =>
    rw [BufferedWriter.writenLoop]
    by_cases hmore : (writeSize : ℤ) < size
    · rw [if_pos hmore, Int.toNat_natCast, ← Int.natCast_sub hle]
      have hdata' : size - writeSize ≤ (data.drop writeSize).length := by
        rw [List.length_drop]
        omega
      rcases h.write hpos hc (show 0 < size - writeSize by omega) hdata' with
        ⟨hnone, hlt⟩ | ⟨n, w₁, ch₁, q₁, hsome, hn, hnle, hroom, hsent⟩
      · refine Or.inl ⟨by rw [hnone, Option.bind_none], by omega⟩
      · rw [hsome, Option.bind_some]
        show Returns ch _ (if RC.success ≠ .success then _ else BufferedWriter.writenLoop fuel w₁ ch₁ data size
          ((writeSize : ℤ) + n)) _
        rw [if_neg (by simp), ← Int.natCast_add]
        have hrest := (ih (writeSize + n) hsent (by omega) (by omega)).of_room hroom
        have hlength : ((data.drop writeSize).take n).length = n := by
          rw [List.length_take]
          omega
        have hsplit : size - writeSize = n + (size - (writeSize + n)) := by omega
        rw [List.length_append, hlength, Nat.add_assoc, ← hsplit] at hrest
        refine hrest.mono ?_
        rintro w' ch' ⟨q', hsent'⟩
        refine ⟨q', ?_⟩
        rw [hsplit, List.take_add, List.drop_drop, ← List.append_assoc]
        exact hsent'
    · have hend : size - writeSize = 0 := by omega
      rw [if_neg hmore, hend, List.take_zero, List.append_nil]
      exact Or.inr ⟨w, ch, rfl, le_rfl, q, h⟩

theorem writen (h : Sent c w ch sent q) (hpos : 1 ≤ c) (hc : c ≤ 2 ^ 30) {data : Bytes} {size : ℤ}
    (hdata : size ≤ data.length) :
    Returns ch (sent ++ data.take size.toNat).length (w.writen ch data size)
      fun w' ch' => ∃ q', Sent c w' ch' (sent ++ data.take size.toNat) q' := by
  rw [BufferedWriter.writen, if_neg h.fd]
  by_cases hneg : size ≤ 0
  · rw [BufferedWriter.writenLoop, if_neg (by omega), Int.toNat_of_nonpos hneg, List.take_zero, List.append_nil]
    exact Or.inr ⟨w, ch, rfl, le_rfl, q, h⟩
  · obtain ⟨n, rfl⟩ := Int.eq_ofNat_of_zero_le (show 0 ≤ size by omega)
    have hloop := Sent.writenLoop hpos hc (show n ≤ data.length by omega) (n + 1) 0 h (Nat.zero_le n) (by omega)
    rw [Nat.sub_zero, List.drop_zero, Int.natCast_zero] at hloop
    rw [Int.toNat_natCast, List.length_append, List.length_take, min_eq_left (by omega)]
    exact hloop

theorem flush (h : Sent c w ch sent q) (hc : c ≤ 2 ^ 30) :
    Returns ch sent.length (w.flush ch) fun w' ch' => Sent c w' ch' sent [] := by
  have hsize : w.buffer.size = q.length := h.represents.size
  by_cases hmore : 0 < w.buffer.size
  · rcases h.flushInternal hc w.buffer.size with ⟨hnone, hlt⟩ | ⟨w₁, ch₁, hsome, hroom, q₁, hsent, hdone⟩
    · exact Or.inl ⟨(flush_of_flushInternal ch h.fd hmore).1 hnone, hlt⟩
    · have hempty : q₁ = [] := by
        cases hdone with
        | inl hnil => exact hnil
        | inr henough =>
          rw [hsize] at henough
          exact List.eq_nil_of_length_eq_zero (by omega)
      subst hempty
      have hzero : ¬0 < w₁.buffer.size := by
        rw [RingBuffer.size, hsent.represents.size]
        simp
      exact Or.inr ⟨w₁, ch₁, (flush_of_flushInternal ch h.fd hmore).2 w₁ ch₁ hsome hzero, hroom, hsent⟩
  · have hempty : q = [] := List.eq_nil_of_length_eq_zero (by omega)
    subst hempty
    refine Or.inr ⟨w, ch, ?_, le_rfl, h⟩
    rw [BufferedWriter.flush, if_neg h.fd, BufferedWriter.flushRounds, if_neg hmore]

theorem run (hpos : 1 ≤ c) (hc : c ≤ 2 ^ 30) {calls : List Call} (hallowed : ∀ call ∈ calls, call.Allowed)
    {w : BufferedWriter} {ch : Channel} {sent q : Bytes} (h : Sent c w ch sent q) :
    (w.run ch calls = none ∧ ch.room < (sent ++ (calls.map Call.bytes).flatten).length) ∨
      ∃ rcs w' ch' q', w.run ch calls = some (rcs, w', ch') ∧ ch.room ≤ ch'.room ∧
        Sent c w' ch' (sent ++ (calls.map Call.bytes).flatten) q' := by
  induction calls generalizing w ch sent q with
  | nil => exact Or.inr ⟨[], w, ch, q, rfl, le_rfl, by simpa using h⟩
  | cons call calls ih =>
    have hcall : Returns ch (sent ++ call.bytes).length (w.call ch call) fun w' ch' =>
        ∃ q', Sent c w' ch' (sent ++ call.bytes) q' := by
      cases call with
      | writen data size => exact h.writen hpos hc (hallowed (.writen data size) (by simp)).2.2
      | flush =>
        rw [Call.bytes, List.append_nil]
        exact (h.flush hc).mono fun w' ch' hsent => ⟨[], hsent⟩
    rw [List.map_cons, List.flatten_cons, ← List.append_assoc]
    rcases hcall with ⟨hnone, hlt⟩ | ⟨w₁, ch₁, hsome, hroom, q₁, hsent⟩
    · refine Or.inl ⟨by simp [BufferedWriter.run, hnone], ?_⟩
      rw [List.length_append]
      omega
    · rcases ih (fun call hcall => hallowed call (by simp [hcall])) hsent with
        ⟨hnone, hlt⟩ | ⟨rcs, w₂, ch₂, q₂, hrest, hroom', hsent'⟩
      · exact Or.inl ⟨by simp [BufferedWriter.run, hsome, hnone], hroom.trans_lt hlt⟩
      · exact Or.inr ⟨.success :: rcs, w₂, ch₂, q₂, by simp [BufferedWriter.run, hsome, hrest], hroom.trans hroom', hsent'⟩

end Sent

/-! ## The stream arrives -/

/-- Calls of `writen` and `flush`, and a last `flush`. -/
def BufferedWriter.runFlush (w : BufferedWriter) (ch : Channel) (calls : List Call) :
    Option (RC × BufferedWriter × Channel) :=
  (w.run ch calls).bind fun (_, w, ch) => w.flush ch

/-- Whatever the kernel answers short of an error, a flush that returns has passed on the bytes of all calls in order; and
it does return when there are as many positive answers as bytes. -/
def Intact (c : ℕ) : Prop :=
  ∀ (fd : ℤ) (calls : List Call) (script : List SysWrite), 0 ≤ fd → (∀ call ∈ calls, call.Allowed) →
    SysWrite.error ∉ script →
      (∀ rc w ch, (BufferedWriter.create fd c).runFlush ⟨script, []⟩ calls = some (rc, w, ch) →
        rc = .success ∧ ch.accepted = (calls.map Call.bytes).flatten) ∧
      ((calls.map Call.bytes).flatten.length ≤ script.countP SysWrite.positive →
        ((BufferedWriter.create fd c).runFlush ⟨script, []⟩ calls).isSome)

theorem intact_of_le {c : ℕ} (hpos : 1 ≤ c) (hc : c ≤ 2 ^ 30) : Intact c := by
  intro fd calls script hfd hallowed hclean
  have hnew : Sent c (BufferedWriter.create fd c) ⟨script, []⟩ [] [] :=
    ⟨Represents.create hpos, not_lt.mpr hfd, rfl, hclean⟩
  have hroom : Channel.room ⟨script, []⟩ = script.countP SysWrite.positive := Nat.zero_add _
  have hresult : Returns ⟨script, []⟩ (calls.map Call.bytes).flatten.length
      ((BufferedWriter.create fd c).runFlush ⟨script, []⟩ calls) fun w ch =>
        Sent c w ch (calls.map Call.bytes).flatten [] := by
    rcases Sent.run hpos hc hallowed hnew with ⟨hnone, hlt⟩ | ⟨rcs, w₁, ch₁, q₁, hrun, hle, hsent⟩
    · exact Or.inl ⟨by rw [BufferedWriter.runFlush, hnone, Option.bind_none], hlt⟩
    · rw [BufferedWriter.runFlush, hrun, Option.bind_some]
      exact (hsent.flush hc).of_room hle
  rcases hresult with ⟨hnone, hlt⟩ | ⟨w', ch', hsome, -, hsent⟩
  · rw [hnone]
    refine ⟨?_, fun hle => ?_⟩
    · intro rc w ch h
      cases h
    · omega
  · rw [hsome]
    refine ⟨?_, fun _ => rfl⟩
    intro rc w ch h
    simp only [Option.some.injEq, Prod.mk.injEq] at h
    obtain ⟨rfl, rfl, rfl⟩ := h
    refine ⟨rfl, ?_⟩
    rw [← hsent.stream, List.append_nil]

/-! ## Large buffers -/

/-- As many bytes as fit but one, all zero but the last. -/
def markedLast (c : ℕ) : Bytes := List.replicate (c - 2) 0 ++ [1]

theorem length_markedLast {c : ℕ} (hc : 2 ≤ c) : (markedLast c).length = c - 1 := by
  rw [markedLast, List.length_append, List.length_replicate, List.length_singleton]
  omega

/-- The descriptor accepts all bytes but one of them, and then one byte with each call. -/
def allButOne (c : ℕ) : List SysWrite := .accept (c - 2) :: List.replicate c (.accept 1)

theorem allButOne_clean (c : ℕ) : SysWrite.error ∉ allButOne c := by
  simp [allButOne]

theorem countP_allButOne {c : ℕ} : c ≤ (allButOne c).countP SysWrite.positive := by
  have hcount : (List.replicate c (SysWrite.accept 1)).countP SysWrite.positive = c := by
    simp [List.countP_replicate, SysWrite.positive]
  exact hcount.ge.trans (List.sublist_cons_self _ _).countP_le

theorem writen_markedLast {c : ℕ} (hc : 2 ≤ c) (hlt : c < 2 ^ 31) {fd : ℤ} (hfd : 0 ≤ fd) (ch : Channel) :
    ∃ buffer_ : Bytes, buffer_.length = c ∧ buffer_.take (c - 1) = markedLast c ∧
      (BufferedWriter.create fd c).writen ch (markedLast c) (c - 1 : ℕ) =
        some (.success, ⟨fd, ⟨buffer_, (c - 1 : ℕ), (c - 1 : ℕ)⟩⟩, ch) := by
  have hdata := length_markedLast hc
  have hwrite := write_create hc hlt hdata
  have hremain : (BufferedWriter.create fd c).buffer.remain ≠ 0 := by
    rw [BufferedWriter.create, (Represents.create (by omega)).remain_eq hlt]
    simp only [List.length_nil]
    omega
  have hpos : ((0 : ℕ) : ℤ) < (c - 1 : ℕ) := by omega
  have hopen : ¬(BufferedWriter.create fd c).fd < 0 := not_lt.mpr hfd
  have hbuffered : (BufferedWriter.create fd c).write ch (markedLast c) (c - 1 : ℕ) =
      some (.success, ((c - 1 : ℕ) : ℤ),
        ⟨fd, ⟨Cyclic.overwrite (List.replicate c 0) 0 (markedLast c), (c - 1 : ℕ), (c - 1 : ℕ)⟩⟩, ch) := by
    rw [BufferedWriter.write, if_neg hopen, if_neg hremain, Option.bind_some]
    simp only [BufferedWriter.create, hwrite, ne_eq, not_true_eq_false, if_false, Option.map_some]
  refine ⟨Cyclic.overwrite (List.replicate c 0) 0 (markedLast c), ?_, ?_, ?_⟩
  · rw [Cyclic.length_overwrite, List.length_replicate]
    rw [List.length_replicate]
    omega
  · rw [Cyclic.overwrite, List.take_zero, List.nil_append, ← hdata, List.take_left]
  · obtain ⟨fuel, hfuel⟩ := Nat.exists_eq_succ_of_ne_zero (show c - 1 ≠ 0 by omega)
    rw [BufferedWriter.writen, if_neg hopen, Int.toNat_natCast, ← Int.natCast_zero,
      BufferedWriter.writenLoop, if_pos hpos, Int.toNat_natCast, List.drop_zero, Int.natCast_zero, sub_zero, hbuffered,
      Option.bind_some]
    simp [hfuel, BufferedWriter.writenLoop]

/-- The pointer of the second round lies before the buffer, or the first byte is sent again in place of the last. -/
theorem flush_markedLast {c : ℕ} (hc : 2 ^ 30 < c) (hlt : c < 2 ^ 31) {fd : ℤ} (hfd : 0 ≤ fd) {buffer_ : Bytes}
    (hlength : buffer_.length = c) (hbytes : buffer_.take (c - 1) = markedLast c) :
    BufferedWriter.flush ⟨fd, ⟨buffer_, (c - 1 : ℕ), (c - 1 : ℕ)⟩⟩ ⟨allButOne c, []⟩ = none ∨
      ∃ w' ch', BufferedWriter.flush ⟨fd, ⟨buffer_, (c - 1 : ℕ), (c - 1 : ℕ)⟩⟩ ⟨allButOne c, []⟩ =
        some (.success, w', ch') ∧ ch'.accepted = List.replicate (c - 1) 0 := by
  have hdata := length_markedLast (show 2 ≤ c by omega)
  have hload : load buffer_ 0 (c - 1 : ℕ) = some (markedLast c) := by
    rw [← Int.natCast_zero, load_nat (by omega), List.drop_zero, hbytes]
  have hopen : ¬fd < 0 := not_lt.mpr hfd
  have hsizes : min (c - 2) (c - 1) = c - 2 ∧ c - 2 ≠ 0 ∧ min 1 (c - 1) = 1 := by omega
  have hmore : (0 : ℤ) < (c - 1 : ℕ) := by omega
  have hmore' : ((c - 2 : ℕ) : ℤ) < (c - 1 : ℕ) := by omega
  have hall : List.replicate (c - 2) (0 : UInt8) ++ [0] = List.replicate (c - 1) 0 := by
    rw [← List.replicate_succ', show c - 2 + 1 = c - 1 by omega]
  have htake : (markedLast c).take (c - 2) = List.replicate (c - 2) 0 := by
    rw [markedLast, List.take_left' List.length_replicate]
  have hfirst : (markedLast c).take 1 = [0] := by
    obtain ⟨n, hn⟩ := Nat.exists_eq_succ_of_ne_zero hsizes.2.1
    rw [markedLast, hn]
    rfl
  obtain ⟨n, hn⟩ := Nat.exists_eq_succ_of_ne_zero (show c ≠ 0 by omega)
  have hanswers : List.replicate c (SysWrite.accept 1) = .accept 1 :: List.replicate n (.accept 1) := by
    rw [hn, List.replicate_succ]
  have hmore₁ : 0 < (BufferedWriter.buffer ⟨fd, ⟨buffer_, (c - 1 : ℕ), (c - 1 : ℕ)⟩⟩).size ∧ (0 : ℤ) < (c - 1 : ℕ) :=
    ⟨hmore, hmore⟩
  have hmore₂ : 0 < (BufferedWriter.buffer ⟨fd, ⟨buffer_, 1, (c - 1 : ℕ)⟩⟩).size ∧ ((c - 2 : ℕ) : ℤ) < (c - 1 : ℕ) :=
    ⟨one_pos, hmore'⟩
  have hanswer₁ : writeSome (markedLast c).length (allButOne c) = some (some (c - 2), List.replicate c (.accept 1)) := by
    rw [hdata, allButOne, writeSome, hsizes.1, if_neg hsizes.2.1]
  have hanswer₂ : writeSome (markedLast c).length (List.replicate c (.accept 1)) =
      some (some 1, List.replicate n (.accept 1)) := by
    rw [hdata, hanswers, writeSome, hsizes.2.2, if_neg one_ne_zero]
  have hforward₂ : (RingBuffer.forward ⟨buffer_, 1, (c - 1 : ℕ)⟩ (1 : ℕ)).2 = ⟨buffer_, 0, (c - 1 : ℕ)⟩ := rfl
  have hsum₁ : toInt32 (0 + ((c - 2 : ℕ) : ℤ)) = (c - 2 : ℕ) := by
    rw [zero_add, toInt32_of_range (by omega) (by omega)]
  have hround₁ : ∀ fuel, BufferedWriter.flushLoop (fuel + 1) ⟨fd, ⟨buffer_, (c - 1 : ℕ), (c - 1 : ℕ)⟩⟩
      ⟨allButOne c, []⟩ (c - 1 : ℕ) 0 = BufferedWriter.flushLoop fuel ⟨fd, ⟨buffer_, 1, (c - 1 : ℕ)⟩⟩
        ⟨List.replicate c (.accept 1), List.replicate (c - 2) 0⟩ (c - 1 : ℕ) (c - 2 : ℕ) := by
    intro fuel
    rw [flushLoop_round hmore₁ (buffer_allButOne (show 2 ≤ c by omega) hlt hlength) hload hanswer₁
      (congrArg Prod.snd (forward_allButOne hc hlt buffer_)), hsum₁, List.nil_append, htake]
  have hinternal : BufferedWriter.flushInternal ⟨fd, ⟨buffer_, (c - 1 : ℕ), (c - 1 : ℕ)⟩⟩ ⟨allButOne c, []⟩
      (c - 1 : ℕ) = BufferedWriter.flushLoop (c + 1) ⟨fd, ⟨buffer_, 1, (c - 1 : ℕ)⟩⟩
        ⟨List.replicate c (.accept 1), List.replicate (c - 2) 0⟩ (c - 1 : ℕ) (c - 2 : ℕ) := by
    have hfuel : (allButOne c).length = c + 1 := by rw [allButOne, List.length_cons, List.length_replicate]
    rw [BufferedWriter.flushInternal, if_neg hopen, hfuel, hround₁]
  have hflush := flush_of_flushInternal ⟨allButOne c, []⟩ hopen hmore₁.1
  rcases buffer_overflow hc hlt hlength with hnone | hshown
  · refine Or.inl (hflush.1 (hinternal.trans ?_))
    rw [BufferedWriter.flushLoop, if_pos hmore₂, hnone, Option.bind_none]
  · have hend : BufferedWriter.flushLoop (c + 1) ⟨fd, ⟨buffer_, 1, (c - 1 : ℕ)⟩⟩
        ⟨List.replicate c (.accept 1), List.replicate (c - 2) 0⟩ (c - 1 : ℕ) (c - 2 : ℕ) =
          some (.success, ⟨fd, ⟨buffer_, 0, (c - 1 : ℕ)⟩⟩, ⟨List.replicate n (.accept 1), List.replicate (c - 1) 0⟩) := by
      have hdone : ¬(0 < (BufferedWriter.buffer ⟨fd, ⟨buffer_, 0, (c - 1 : ℕ)⟩⟩).size ∧
          toInt32 (((c - 2 : ℕ) : ℤ) + (1 : ℕ)) < (c - 1 : ℕ)) := fun h => absurd h.1 (lt_irrefl 0)
      have hsucc : ∀ w ch size writeSize, BufferedWriter.flushLoop c w ch size writeSize =
          BufferedWriter.flushLoop (n + 1) w ch size writeSize := fun _ _ _ _ => by rw [hn]
      rw [flushLoop_round hmore₂ hshown hload hanswer₂ hforward₂, hfirst, hall, hsucc, BufferedWriter.flushLoop,
        if_neg hdone]
    exact Or.inr ⟨_, _, hflush.2 _ _ (hinternal.trans hend) (lt_irrefl 0), rfl⟩

theorem not_intact {c : ℕ} (hc : 2 ^ 30 < c) (hlt : c < 2 ^ 31) :
    ¬(∀ rc w ch, (BufferedWriter.create 0 c).runFlush ⟨allButOne c, []⟩ [.writen (markedLast c) (c - 1 : ℕ)] =
        some (rc, w, ch) → ch.accepted = markedLast c) ∨
      (BufferedWriter.create 0 c).runFlush ⟨allButOne c, []⟩ [.writen (markedLast c) (c - 1 : ℕ)] = none := by
  obtain ⟨buffer_, hlength, hbytes, hwriten⟩ := writen_markedLast (show 2 ≤ c by omega) hlt le_rfl ⟨allButOne c, []⟩
  have hrun : (BufferedWriter.create 0 c).runFlush ⟨allButOne c, []⟩ [.writen (markedLast c) (c - 1 : ℕ)] =
      BufferedWriter.flush ⟨0, ⟨buffer_, (c - 1 : ℕ), (c - 1 : ℕ)⟩⟩ ⟨allButOne c, []⟩ := by
    simp [BufferedWriter.runFlush, BufferedWriter.run, BufferedWriter.call, hwriten]
  rw [hrun]
  rcases flush_markedLast hc hlt le_rfl hlength hbytes with hnone | ⟨w, ch, hsome, haccepted⟩
  · exact Or.inr hnone
  · refine Or.inl fun h => ?_
    have hlast := congrArg List.getLast? ((h _ _ _ hsome).symm.trans haccepted)
    rw [markedLast, List.getLast?_append, show c - 1 = c - 2 + 1 by omega, List.replicate_succ',
      List.getLast?_append] at hlast
    simp at hlast

/-- What a writer with a buffer of `c` bytes passes on is intact while the positions of two bytes add up in 32 bits. -/
theorem intact_iff (c : ℕ) (hpos : 1 ≤ c) (hlt : c < 2 ^ 31) : Intact c ↔ c ≤ 2 ^ 30 := by
  refine ⟨fun h => ?_, intact_of_le hpos⟩
  by_contra hc
  have hlarge : 2 ^ 30 < c := not_le.mp hc
  have hdata := length_markedLast (show 2 ≤ c by omega)
  have hbytes : ([Call.writen (markedLast c) (c - 1 : ℕ)].map Call.bytes).flatten = markedLast c := by
    simp [Call.bytes, ← hdata]
  have hallowed : ∀ call ∈ [Call.writen (markedLast c) (c - 1 : ℕ)], call.Allowed := by
    intro call hcall
    rw [List.mem_singleton.mp hcall]
    exact ⟨by omega, by omega, by omega⟩
  obtain ⟨hexact, hreturns⟩ := h 0 _ (allButOne c) le_rfl hallowed (allButOne_clean c)
  rw [hbytes] at hexact hreturns
  cases not_intact hlarge hlt with
  | inl hwrong => exact hwrong fun rc w ch hsome => (hexact rc w ch hsome).2
  | inr hnone =>
    have hsome := hreturns (hdata.le.trans ((Nat.sub_le c 1).trans countP_allButOne))
    rw [hnone] at hsome
    cases hsome

theorem intact_three : 1 ≤ 3 ∧ 3 < 2 ^ 31 ∧ Intact 3 :=
  ⟨by decide, by decide, (intact_iff 3 (by decide) (by decide)).mpr (by decide)⟩

/-- A buffer of `2 ^ 30 + 1` bytes, `2 ^ 30` bytes written, and a descriptor that accepts all but one of them first. -/
theorem not_intact_large :
    let c := 2 ^ 30 + 1
    let result := (BufferedWriter.create 0 c).runFlush ⟨allButOne c, []⟩ [.writen (markedLast c) (c - 1 : ℕ)]
    SysWrite.error ∉ allButOne c ∧ (markedLast c).length ≤ (allButOne c).countP SysWrite.positive ∧
      (¬(∀ rc w ch, result = some (rc, w, ch) → ch.accepted = markedLast c) ∨ result = none) := by
  intro c result
  refine ⟨allButOne_clean c, ?_, not_intact (by decide) (by decide)⟩
  rw [length_markedLast (by decide)]
  exact (Nat.sub_le c 1).trans countP_allButOne

end Landbase.Net
