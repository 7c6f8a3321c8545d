import Ashd.Common.Bytes

/-!
# Blocks of memory

A block that `malloc` returned is represented by the bytes written to it so
far, from its start on. `peek` and `poke` are reading and `memcpy`ing at an
offset; `srealloc` to `n` bytes keeps `b.take n`.

The window `[h, d)` of a block, `peek b h (d - h)`, is what a buffer with a head
index `h` and a fill index `d` holds. The lemmas say what appending, compacting,
reallocating and consuming do to it.
-/

namespace Ashd

/-- The `n` bytes at offset `off`. -/
def peek (b : Bytes) (off n : ℕ) : Bytes := (b.drop off).take n

/-- `memcpy(b + off, data, len)` with `len` the length of `data`. -/
def poke (b : Bytes) (off : ℕ) (data : Bytes) : Bytes :=
  b.take off ++ data ++ b.drop (off + data.length)

@[simp] theorem peek_zero (b : Bytes) (off : ℕ) : peek b off 0 = [] := by simp [peek]

theorem length_peek {b : Bytes} {off n : ℕ} (h : off + n ≤ b.length) :
    (peek b off n).length = n := by
  simp [peek]; omega

theorem length_poke {b : Bytes} {off : ℕ} (h : off ≤ b.length) (data : Bytes) :
    (poke b off data).length = max b.length (off + data.length) := by
  simp [poke]; omega

/-- Writing behind a window lengthens it. -/
theorem peek_poke_end {b : Bytes} {h d : ℕ} (hhd : h ≤ d) (hd : d ≤ b.length) (data : Bytes) :
    peek (poke b d data) h (d + data.length - h) = peek b h (d - h) ++ data := by
  have hl : (b.take d).length = d := by simp [hd]
  unfold peek poke
  rw [List.append_assoc, List.drop_append_of_le_length (by omega), List.take_append,
    List.length_drop, hl, List.take_of_length_le (by simp; omega),
    show d + data.length - h - (d - h) = data.length by omega, List.take_left']
  · rw [List.drop_take]
  · rfl

/-- Writing behind a window leaves it as it is. -/
theorem peek_poke_of_le {b : Bytes} {h d off : ℕ} (hoff : d ≤ off) (hd : off ≤ b.length)
    (data : Bytes) : peek (poke b off data) h (d - h) = peek b h (d - h) := by
  have hl : (b.take off).length = off := by simp [hd]
  unfold peek poke
  by_cases hhd : h ≤ d
  · rw [List.append_assoc, List.drop_append_of_le_length (by omega),
      List.take_append_of_le_length (by simp; omega), List.drop_take, List.take_take,
      min_eq_left (by omega)]
  · simp [show d - h = 0 by omega]

/-- `memmove` of a window to the start of its block. -/
theorem peek_poke_zero (b data : Bytes) : peek (poke b 0 data) 0 data.length = data := by
  simp [peek, poke]

theorem peek_take {b : Bytes} {n h d : ℕ} (hd : d ≤ n) :
    peek (b.take n) h (d - h) = peek b h (d - h) := by
  unfold peek
  rw [List.drop_take, List.take_take, min_eq_left (by omega)]

/-- Consuming `k` bytes from the front of a window. -/
theorem peek_eq_append {b : Bytes} {h d k : ℕ} (hk : h + k ≤ d) :
    peek b h (d - h) = peek b h k ++ peek b (h + k) (d - (h + k)) := by
  unfold peek
  rw [show d - h = k + (d - (h + k)) by omega, List.take_add, List.drop_drop]

end Ashd
