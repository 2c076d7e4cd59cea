import Landbase.Common.Basic

/-! # Integers and strings of variable length

What `store_lenenc_int` and `store_lenenc_string` of `net/mysql_communicator.cpp` write into a packet, and how the other
side reads it: the first byte is the value itself, or says how many bytes of it follow, lowest byte first.
-/

namespace Landbase.Net
set_option autoImplicit false

/-! ## Little-endian numbers -/

/-- The lowest `n` bytes of a number, which is what `memcpy(buf, &value, n)` copies. -/
def lowBytes : ℕ → ℕ → Bytes
  | 0, _ => []
  | n + 1, value => UInt8.ofNat value :: lowBytes n (value / 256)

/-- The number that bytes in this order stand for. -/
def ofLowBytes : Bytes → ℕ
  | [] => 0
  | byte :: bytes => byte.toNat + 256 * ofLowBytes bytes

theorem lowBytes_length (n value : ℕ) : (lowBytes n value).length = n := by
  induction n generalizing value with
  | zero => rfl
  | succ n ih => rw [lowBytes, List.length_cons, ih]

/-- The bytes keep the value modulo their range. -/
theorem ofLowBytes_lowBytes (n value : ℕ) : ofLowBytes (lowBytes n value) = value % 256 ^ n := by
  induction n generalizing value with
  | zero => rw [pow_zero, Nat.mod_one, lowBytes, ofLowBytes]
  | succ n ih =>
    have hbyte : (UInt8.ofNat value).toNat = value % 256 := UInt8.toNat_ofNat'
    rw [lowBytes, ofLowBytes, ih, hbyte, pow_succ', Nat.mod_mul]

/-! ## What is written -/

/-- `store_lenenc_int`: the bytes it puts into the buffer, and the length it returns. -/
def storeLenencInt (value : UInt64) : Bytes × ℤ :=
  if value < 251 then ([value.toUInt8], 1)
  else if value < (2 : UInt64) <<< 16 then (0xFC :: lowBytes 2 value.toNat, 3)
  else if value < (2 : UInt64) <<< 24 then (0xFD :: lowBytes 3 value.toNat, 4)
  else (0xFE :: lowBytes 8 value.toNat, 9)

/-- `store_fix_length_string`. `none` is a copy from behind the end of the string; a length below zero becomes a
`size_t` that is larger than every memory. -/
def storeFixLengthString (s : Bytes) (len : ℤ) : Option (Bytes × ℤ) :=
  if len = 0 then some ([], 0)
  else if 0 < len ∧ len ≤ s.length + 1 then some ((s ++ [0]).take len.toNat, len)
  else none

/-- `store_lenenc_string` on the string that has these bytes in front of its NUL. -/
def storeLenencString (s : Bytes) : Option (Bytes × ℤ) :=
  let len := toInt32 s.length
  let head := storeLenencInt (UInt64.ofInt len)
  (storeFixLengthString s len).map fun tail => (head.1 ++ tail.1, toInt32 (head.2 + len))

/-! ## What is read -/

/-- The integer at the front of a packet by the rule of the protocol, and how many bytes it takes. -/
def lenencInt : Bytes → Option (ℕ × ℕ)
  | [] => none
  | first :: rest =>
    if first < 251 then some (first.toNat, 1)
    else if first = 0xFC then if rest.length < 2 then none else some (ofLowBytes (rest.take 2), 3)
    else if first = 0xFD then if rest.length < 3 then none else some (ofLowBytes (rest.take 3), 4)
    else if first = 0xFE then if rest.length < 8 then none else some (ofLowBytes (rest.take 8), 9)
    else none

/-- The string at the front of a packet, and how many bytes it takes with its length. -/
def lenencString (bytes : Bytes) : Option (Bytes × ℕ) :=
  (lenencInt bytes).bind fun (len, pos) =>
    if (bytes.drop pos).length < len then none else some ((bytes.drop pos).take len, pos + len)

/-! ## Reading what was written -/

/-- What the bytes of `store_lenenc_int` keep of a value. -/
def keptLenenc (value : ℕ) : ℕ :=
  if value < 251 then value
  else if value < 2 * 2 ^ 16 then value % 2 ^ 16
  else if value < 2 * 2 ^ 24 then value % 2 ^ 24
  else value

/-- A value that is written with fewer bytes than it has: the bounds of two and of three bytes are twice too high. -/
def Truncated (value : ℕ) : Prop := (2 ^ 16 ≤ value ∧ value < 2 * 2 ^ 16) ∨ (2 ^ 24 ≤ value ∧ value < 2 * 2 ^ 24)

theorem keptLenenc_eq_iff (value : ℕ) : keptLenenc value = value ↔ ¬Truncated value := by
  unfold keptLenenc Truncated
  split_ifs <;> omega

theorem keptLenenc_le (value : ℕ) : keptLenenc value ≤ value := by
  unfold keptLenenc
  split_ifs <;> first | exact le_rfl | exact Nat.mod_le _ _

theorem lenencInt_wide {first : UInt8} {n len : ℕ} (value : ℕ) (rest : Bytes)
    (h : ∀ bytes : Bytes, lenencInt (first :: bytes) =
      if bytes.length < n then none else some (ofLowBytes (bytes.take n), len)) :
    lenencInt (first :: lowBytes n value ++ rest) = some (value % 256 ^ n, len) := by
  have hlength : ¬(lowBytes n value ++ rest).length < n := by
    rw [List.length_append, lowBytes_length]
    omega
  have htake : (lowBytes n value ++ rest).take n = lowBytes n value := List.take_left' (lowBytes_length n value)
  rw [List.cons_append, h, if_neg hlength, htake, ofLowBytes_lowBytes]

/-- The reader takes exactly the bytes that were written, and finds what they keep. -/
theorem lenencInt_storeLenencInt (value : UInt64) (rest : Bytes) :
    ∃ n : ℕ, lenencInt ((storeLenencInt value).1 ++ rest) = some (keptLenenc value.toNat, n) ∧
      (n : ℤ) = (storeLenencInt value).2 := by
  have h64 := value.toNat_lt
  unfold storeLenencInt keptLenenc
  simp only [UInt64.lt_iff_toNat_lt]
  by_cases h1 : value.toNat < 251
  · have hbyte : value.toUInt8.toNat = value.toNat := by
      rw [UInt64.toNat_toUInt8]
      omega
    refine ⟨1, ?_, by simp [h1]⟩
    have hfirst : value.toUInt8 < 251 := by
      rw [UInt8.lt_iff_toNat_lt, hbyte]
      exact h1
    simp [h1, lenencInt, hfirst, hbyte]
  · by_cases h2 : value.toNat < 131072
    · refine ⟨3, ?_, by simp [h1, h2]⟩
      simpa [h1, h2] using lenencInt_wide value.toNat rest (fun bytes => rfl) (n := 2)
    · by_cases h3 : value.toNat < 33554432
      · refine ⟨4, ?_, by simp [h1, h2, h3]⟩
        simpa [h1, h2, h3] using lenencInt_wide value.toNat rest (fun bytes => rfl) (n := 3)
      · refine ⟨9, ?_, by simp [h1, h2, h3]⟩
        have hwhole : value.toNat % 18446744073709551616 = value.toNat := Nat.mod_eq_of_lt h64
        simpa [h1, h2, h3, hwhole] using lenencInt_wide value.toNat rest (fun bytes => rfl) (n := 8)

/-- What is written is read back with the length that was returned, whatever stands behind it. -/
def IntRoundTrips (value : UInt64) : Prop :=
  ∀ rest, ∃ n : ℕ, lenencInt ((storeLenencInt value).1 ++ rest) = some (value.toNat, n) ∧
    (n : ℤ) = (storeLenencInt value).2

/-- What is written is read back as the string. -/
def StringRoundTrips (s : Bytes) : Prop :=
  ∃ bytes len, storeLenencString s = some (bytes, len) ∧
    ∀ rest, ∃ n, lenencString (bytes ++ rest) = some (s, n)

theorem intRoundTrips_iff (value : UInt64) : IntRoundTrips value ↔ ¬Truncated value.toNat := by
  rw [← keptLenenc_eq_iff]
  constructor
  · intro h
    obtain ⟨n, hread, -⟩ := h []
    obtain ⟨m, hkept, -⟩ := lenencInt_storeLenencInt value []
    rw [hkept, Option.some.injEq, Prod.mk.injEq] at hread
    exact hread.1
  · intro h rest
    obtain ⟨n, hkept, hlen⟩ := lenencInt_storeLenencInt value rest
    rw [h] at hkept
    exact ⟨n, hkept, hlen⟩

theorem storeLenencInt_length (value : UInt64) : ((storeLenencInt value).1.length : ℤ) = (storeLenencInt value).2 := by
  unfold storeLenencInt
  split_ifs <;> simp [lowBytes_length]

theorem storeFixLengthString_nat {s : Bytes} {len : ℕ} (h : len ≤ s.length) :
    storeFixLengthString s len = some (s.take len, (len : ℤ)) := by
  unfold storeFixLengthString
  by_cases hzero : (len : ℤ) = 0
  · have hlen : len = 0 := by exact_mod_cast hzero
    rw [if_pos hzero, hlen, List.take_zero]
    rfl
  · rw [if_neg hzero, if_pos (by omega), Int.toNat_natCast, List.take_append_of_le_length h]

/-- The string is read back as far as the length that its own length has kept. -/
theorem lenencString_store {s : Bytes} {len : ℕ} (h : len ≤ s.length) (hlen : len < 2 ^ 31) (rest : Bytes) :
    ∃ n, lenencString ((storeLenencInt (UInt64.ofInt len)).1 ++ s.take len ++ rest) =
      some (s.take (keptLenenc len), n) := by
  have hvalue : (UInt64.ofInt len).toNat = len := by
    have hmod : ((len : ℤ) % 2 ^ 64).toNat = len := by omega
    rw [UInt64.ofInt, hmod, UInt64.toNat_ofNat']
    omega
  obtain ⟨pos, hread, hpos⟩ := lenencInt_storeLenencInt (UInt64.ofInt len) (s.take len ++ rest)
  have hhead : (storeLenencInt (UInt64.ofInt len)).1.length = pos := by
    have := storeLenencInt_length (UInt64.ofInt len)
    omega
  have hkept := keptLenenc_le len
  have hroom : ¬(s.take len ++ rest).length < keptLenenc len := by
    rw [List.length_append, List.length_take]
    omega
  refine ⟨pos + keptLenenc len, ?_⟩
  rw [List.append_assoc, lenencString, hread, Option.bind_some, hvalue]
  simp only
  rw [← hhead, List.drop_left, if_neg hroom, List.take_append_of_le_length (by rw [List.length_take]; omega),
    List.take_take, min_eq_left hkept]

theorem storeLenencString_nat {s : Bytes} {len : ℕ} (hlen : toInt32 s.length = len) (h : len ≤ s.length) :
    storeLenencString s = some ((storeLenencInt (UInt64.ofInt len)).1 ++ s.take len,
      toInt32 ((storeLenencInt (UInt64.ofInt len)).2 + len)) := by
  unfold storeLenencString
  rw [hlen]
  simp only [storeFixLengthString_nat h, Option.map_some]

theorem storeLenencString_neg {s : Bytes} (hlen : toInt32 s.length < 0) : storeLenencString s = none := by
  have hcopy : storeFixLengthString s (toInt32 s.length) = none := by
    rw [storeFixLengthString, if_neg (by omega), if_neg (by omega)]
  unfold storeLenencString
  simp only [hcopy, Option.map_none]

/-- A length that is an `int` is read back, and the string with it, if and only if nothing is cut from it. -/
theorem stringRoundTrips_nat {s : Bytes} {len : ℕ} (hlen : toInt32 s.length = len) (hle : len ≤ s.length)
    (hlt : len < 2 ^ 31) : StringRoundTrips s ↔ len = s.length ∧ keptLenenc len = len := by
  have hread := lenencString_store hle hlt
  rw [StringRoundTrips, storeLenencString_nat hlen hle]
  constructor
  · rintro ⟨bytes, len', hstore, hback⟩
    obtain ⟨n, hn⟩ := hback []
    obtain ⟨m, hm⟩ := hread []
    rw [Option.some.injEq, Prod.mk.injEq] at hstore
    rw [hstore.1] at hm
    have htake : s.take (keptLenenc len) = s := by
      rw [hm, Option.some.injEq, Prod.mk.injEq] at hn
      exact hn.1
    have hlength := congrArg List.length htake
    have hkept := keptLenenc_le len
    rw [List.length_take] at hlength
    omega
  · rintro ⟨heq, hkept⟩
    refine ⟨_, _, rfl, fun rest => ?_⟩
    obtain ⟨n, hn⟩ := hread rest
    rw [hkept] at hn
    rw [heq, List.take_length] at hn ⊢
    exact ⟨n, hn⟩

theorem stringRoundTrips_iff (s : Bytes) : StringRoundTrips s ↔ s.length < 2 ^ 31 ∧ ¬Truncated s.length := by
  have hle : toInt32 s.length ≤ s.length := by
    unfold toInt32
    rw [Int.bmod_def]
    push_cast
    split <;> omega
  cases lt_or_ge (toInt32 s.length) 0 with
  | inl hneg =>
    -- a length above the range of an `int`: the copy leaves the memory
    rw [StringRoundTrips, storeLenencString_neg hneg]
    constructor
    · rintro ⟨bytes, len, hstore, -⟩
      cases hstore
    · rintro ⟨hshort, -⟩
      rw [toInt32_of_range (by omega) (by omega)] at hneg
      omega
  | inr hpos =>
    obtain ⟨len, hlen⟩ := Int.eq_ofNat_of_zero_le hpos
    have hlt : len < 2 ^ 31 := by
      have := Int.bmod_lt (x := s.length) (m := 2 ^ 32) (by norm_num)
      unfold toInt32 at hlen
      omega
    rw [stringRoundTrips_nat hlen (by omega) hlt, ← keptLenenc_eq_iff]
    constructor
    · rintro ⟨rfl, hkept⟩
      exact ⟨hlt, hkept⟩
    · rintro ⟨hshort, hkept⟩
      have heq : len = s.length := by
        rw [toInt32_of_range (by omega) (by omega)] at hlen
        exact_mod_cast hlen.symm
      exact ⟨heq, heq ▸ hkept⟩

/-- Integers are read back outside of the two bands of values that are cut, and strings when their length is an `int`
outside of them. -/
theorem lenenc_round_trip (value : UInt64) (s : Bytes) :
    (IntRoundTrips value ↔ ¬Truncated value.toNat) ∧
      (StringRoundTrips s ↔ s.length < 2 ^ 31 ∧ ¬Truncated s.length) :=
  ⟨intRoundTrips_iff value, stringRoundTrips_iff s⟩

/-- The first value that is cut is read back as zero. -/
theorem lenenc_65536 : lenencInt (storeLenencInt 65536).1 = some (0, 3) ∧ ¬IntRoundTrips 65536 := by
  have hread : lenencInt (storeLenencInt 65536).1 = some (0, 3) := by decide +kernel
  refine ⟨hread, fun h => ?_⟩
  obtain ⟨n, hback, -⟩ := h []
  rw [List.append_nil, hread, Option.some.injEq, Prod.mk.injEq] at hback
  exact absurd hback.1 (by decide)

end Landbase.Net
