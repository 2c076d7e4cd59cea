import Mathlib.Tactic

/-! # Windows of a cyclic list

`window l start n` is the `n` elements of `l` that follow the position `start`, the end of the list being followed by its
beginning. A queue in a cyclic buffer is such a window: dropping from its front moves the start, and writing behind its
end makes it longer.
-/

namespace Landbase.Cyclic
set_option autoImplicit false

variable {α : Type*} {l d : List α} {start n m pos : ℕ}

def window (l : List α) (start n : ℕ) : List α := (l.rotate start).take n

/-- The list with the elements from `pos` on replaced by those of `d`. -/
def overwrite (l : List α) (pos : ℕ) (d : List α) : List α := l.take pos ++ (d ++ l.drop (pos + d.length))

theorem length_overwrite (h : pos + d.length ≤ l.length) : (overwrite l pos d).length = l.length := by
  simp only [overwrite, List.length_append, List.length_take, List.length_drop]
  omega

theorem getElem?_overwrite (h : pos + d.length ≤ l.length) (i : ℕ) :
    (overwrite l pos d)[i]? = if pos ≤ i ∧ i < pos + d.length then d[i - pos]? else l[i]? := by
  have hpos : pos ≤ l.length := by omega
  rw [overwrite, List.getElem?_append, List.length_take, min_eq_left hpos]
  by_cases hi : i < pos
  · rw [if_pos hi, if_neg (by omega), List.getElem?_take_of_lt hi]
  · rw [if_neg hi, List.getElem?_append]
    by_cases hd : i - pos < d.length
    · rw [if_pos hd, if_pos (by omega)]
    · rw [if_neg hd, if_neg (by omega), List.getElem?_drop]
      congr 1
      omega

theorem length_window (h : n ≤ l.length) : (window l start n).length = n := by
  rw [window, List.length_take, List.length_rotate, min_eq_left h]

theorem window_congr {start' : ℕ} (h : start % l.length = start' % l.length) (n : ℕ) :
    window l start n = window l start' n := by
  rw [window, window, ← List.rotate_mod l start, h, List.rotate_mod]

theorem getElem?_window {i : ℕ} (hi : i < n) (h : n ≤ l.length) :
    (window l start n)[i]? = l[(start + i) % l.length]? := by
  rw [window, List.getElem?_take_of_lt hi, List.getElem?_rotate (by omega), Nat.add_comm]

theorem drop_window (hm : m ≤ n) (h : n ≤ l.length) : (window l start n).drop m = window l (start + m) (n - m) := by
  apply List.ext_getElem?
  intro i
  by_cases hi : i < n - m
  · rw [List.getElem?_drop, getElem?_window (by omega) h, getElem?_window hi (by omega), Nat.add_assoc]
  · rw [List.getElem?_eq_none, List.getElem?_eq_none]
    · rw [length_window (by omega)]
      omega
    · rw [List.length_drop, length_window h]
      omega

theorem take_window (hend : start + m ≤ l.length) (hm : m ≤ n) :
    (window l start n).take m = (l.drop start).take m := by
  rw [window, List.take_take, min_eq_left hm, List.rotate_eq_drop_append_take (by omega), List.take_append_of_le_length]
  rw [List.length_drop]
  omega

theorem window_overwrite (hroom : n + d.length ≤ l.length) (hpos : pos = (start + n) % l.length)
    (hend : pos + d.length ≤ l.length) :
    window (overwrite l pos d) start (n + d.length) = window l start n ++ d := by
  rcases Nat.eq_zero_or_pos l.length with hzero | hlength
  · have hn : n = 0 := by omega
    have hd : d = [] := List.eq_nil_of_length_eq_zero (by omega)
    simp [hn, hd, window]
  have hfull : n + d.length ≤ (overwrite l pos d).length := by
    rw [length_overwrite hend]
    exact hroom
  have hlt : start % l.length < l.length := Nat.mod_lt _ hlength
  have hat : ∀ i, i ≤ l.length → (start + i) % l.length =
      if start % l.length + i < l.length then start % l.length + i else start % l.length + i - l.length := by
    intro i hi
    rw [← Nat.mod_add_mod]
    split
    · next hin => exact Nat.mod_eq_of_lt hin
    · next hout => rw [Nat.mod_eq_sub_mod (by omega), Nat.mod_eq_of_lt (by omega)]
  rw [hat n (by omega)] at hpos
  apply List.ext_getElem?
  intro i
  by_cases hi : i < n + d.length
  · rw [getElem?_window hi hfull, length_overwrite hend, getElem?_overwrite hend, List.getElem?_append,
      length_window (by omega), hat i (by omega)]
    by_cases hold : i < n
    · rw [if_pos hold, getElem?_window hold (by omega), hat i (by omega), if_neg]
      split_ifs at hpos ⊢ <;> omega
    · rw [if_neg hold, if_pos]
      · congr 1
        split_ifs at hpos ⊢ <;> omega
      · split_ifs at hpos ⊢ <;> omega
  · rw [List.getElem?_eq_none, List.getElem?_eq_none]
    · rw [List.length_append, length_window (by omega)]
      omega
    · rw [length_window hfull]
      omega

end Landbase.Cyclic
