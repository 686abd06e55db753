import Mathlib

namespace VDLinux.Base.Ring

open List

variable {α : Type*}

/-- Copies `data` over the cells from `off` on. -/
def overwrite (cells : List α) (off : ℕ) (data : List α) : List α :=
  cells.take off ++ data ++ cells.drop (off + data.length)

/-- Writes `data` from `pos` on, in two copies if it reaches the end of the cells. -/
def store (cells : List α) (pos : ℕ) (data : List α) : List α :=
  let off := pos % cells.length
  let l := min data.length (cells.length - off)
  overwrite (overwrite cells off (data.take l)) 0 (data.drop l)

/-- Reads `n` cells from `pos` on, in two copies if they reach the end. -/
def load (cells : List α) (pos n : ℕ) : List α :=
  let off := pos % cells.length
  let l := min n (cells.length - off)
  (cells.drop off).take l ++ cells.take (n - l)

/-- From `pos` on the cells hold the elements of `q`. -/
def Holds (cells : List α) (pos : ℕ) (q : List α) : Prop := q <+: cells.rotate pos

variable {cells data q : List α} {pos n : ℕ}

theorem length_overwrite {off : ℕ} (h : off + data.length ≤ cells.length) :
    (overwrite cells off data).length = cells.length := by
  simp only [overwrite, length_append, length_take, length_drop]
  omega

theorem rotate_eq_of_mod (cells : List α) {pos pos' : ℕ}
    (h : pos % cells.length = pos' % cells.length) : cells.rotate pos = cells.rotate pos' := by
  rw [← rotate_mod, h, rotate_mod]

theorem store_of_mod {pos' : ℕ} (h : pos % cells.length = pos' % cells.length) :
    store cells pos data = store cells pos' data := by
  rw [store, store, h]

section Access

variable (h0 : 0 < cells.length)
include h0

theorem length_store (pos : ℕ) (data : List α) (h : data.length ≤ cells.length) :
    (store cells pos data).length = cells.length := by
  have hoff : pos % cells.length < cells.length := Nat.mod_lt _ h0
  have h1 : (overwrite cells (pos % cells.length)
      (data.take (min data.length (cells.length - pos % cells.length)))).length = cells.length := by
    apply length_overwrite
    rw [length_take]
    omega
  simp only [store]
  rw [length_overwrite, h1]
  rw [h1, length_drop]
  omega

theorem load_eq (h : n ≤ cells.length) : load cells pos n = (cells.rotate pos).take n := by
  have hoff : pos % cells.length < cells.length := Nat.mod_lt _ h0
  rw [load, ← rotate_mod, rotate_eq_drop_append_take hoff.le, take_append,
    length_drop]
  rcases Nat.le_total n (cells.length - pos % cells.length) with hn | hn
  · rw [Nat.min_eq_left hn, Nat.sub_self, Nat.sub_eq_zero_of_le hn, take_zero, take_zero]
  · have htail : ∀ m, cells.length - pos % cells.length ≤ m →
        (cells.drop (pos % cells.length)).take m = cells.drop (pos % cells.length) := fun m hm =>
      take_of_length_le (by rw [length_drop]; exact hm)
    rw [Nat.min_eq_right hn, take_take, Nat.min_eq_left (by omega), htail _ le_rfl, htail _ hn]

theorem store_singleton (pos : ℕ) (c : α) :
    store cells pos [c] = overwrite cells (pos % cells.length) [c] := by
  have hoff : pos % cells.length < cells.length := Nat.mod_lt _ h0
  have hl : min 1 (cells.length - pos % cells.length) = 1 := by omega
  simp [store, hl, overwrite]

theorem rotate_store (pos : ℕ) (data : List α) (h : data.length ≤ cells.length) :
    (store cells pos data).rotate pos = data ++ (cells.rotate pos).drop data.length := by
  have hoff : pos % cells.length < cells.length := Nat.mod_lt _ h0
  have hlen := length_store h0 pos data h
  rw [← rotate_mod, hlen, ← rotate_mod cells, rotate_eq_drop_append_take hoff.le]
  generalize hp : pos % cells.length = off at hoff
  have htake : (cells.take off).length = off := by
    rw [length_take]
    omega
  rcases Nat.le_total data.length (cells.length - off) with hd | hd
  · -- one copy
    have hstore : store cells pos data = cells.take off ++ (data ++ cells.drop (off + data.length)) := by
      simp [store, hp, Nat.min_eq_left hd, overwrite]
    rw [hstore]
    have hrot := rotate_append_length_eq (cells.take off) (data ++ cells.drop (off + data.length))
    rw [htake] at hrot
    rw [hrot, append_assoc, drop_append_of_le_length (by rw [length_drop]; exact hd),
      drop_drop]
  · -- two copies: the second covers the first cells
    have hstore : store cells pos data =
        (data.drop (cells.length - off) ++ (cells.take off).drop (data.length - (cells.length - off))) ++
          data.take (cells.length - off) := by
      have hl : (data.take (cells.length - off)).length = cells.length - off := by
        rw [length_take, Nat.min_eq_left hd]
      have hall : cells.drop (off + (cells.length - off)) = [] := drop_eq_nil_of_le (by omega)
      have hcut : (data.drop (cells.length - off)).length ≤ (cells.take off).length := by
        rw [length_drop]
        omega
      simp only [store, hp, Nat.min_eq_right hd, overwrite, hl, hall, take_zero, List.nil_append,
        append_nil, Nat.zero_add]
      rw [drop_append_of_le_length hcut, length_drop, append_assoc]
    have hfirst : (data.drop (cells.length - off) ++
        (cells.take off).drop (data.length - (cells.length - off))).length = off := by
      rw [length_append, length_drop, length_drop, htake]
      omega
    have hrot := rotate_append_length_eq (data.drop (cells.length - off) ++
      (cells.take off).drop (data.length - (cells.length - off))) (data.take (cells.length - off))
    rw [hfirst] at hrot
    have hdrop : (cells.drop off).length ≤ data.length := by rwa [length_drop]
    rw [hstore, hrot, ← append_assoc, take_append_drop, drop_append,
      drop_eq_nil_of_le hdrop, List.nil_append, length_drop]

end Access

variable (h : Holds cells pos q)
include h

theorem Holds.of_mod {pos' : ℕ} (hp : pos % cells.length = pos' % cells.length) :
    Holds cells pos' q := by
  rwa [Holds, ← rotate_eq_of_mod cells hp]

theorem Holds.length_le : q.length ≤ cells.length :=
  (List.IsPrefix.length_le h).trans_eq (length_rotate cells pos)

theorem Holds.load (h0 : 0 < cells.length) (hn : n ≤ q.length) : load cells pos n = q.take n := by
  rw [load_eq h0 (hn.trans h.length_le)]
  obtain ⟨rest, hrest⟩ := h
  rw [← hrest, take_append_of_le_length hn]

theorem Holds.skip (hn : n ≤ q.length) : Holds cells (pos + n) (q.drop n) := by
  have hle := hn.trans h.length_le
  obtain ⟨rest, hrest⟩ := h
  rw [Holds, ← rotate_rotate, ← hrest,
    rotate_eq_drop_append_take (by rw [hrest, length_rotate]; exact hle),
    drop_append_of_le_length hn, append_assoc]
  exact prefix_append _ _

theorem Holds.store (h0 : 0 < cells.length) (data : List α)
    (hn : q.length + data.length ≤ cells.length) :
    Holds (store cells (pos + q.length) data) pos (q ++ data) := by
  have hlen := length_store h0 (pos + q.length) data (by omega)
  obtain ⟨rest, hrest⟩ := h
  have hrl : rest.length = cells.length - q.length := by
    have := congrArg List.length hrest
    rw [length_append, length_rotate] at this
    omega
  -- from the end of the queue the cells are the free ones and then the queue
  have hfree : cells.rotate (pos + q.length) = rest ++ q := by
    rw [← rotate_rotate, ← hrest, rotate_append_length_eq]
  have hstore := rotate_store h0 (pos + q.length) data (by omega)
  rw [hfree, drop_append_of_le_length (by omega), ← append_assoc] at hstore
  have hback : (pos + q.length + (data ++ rest.drop data.length).length) % cells.length =
      pos % cells.length := by
    rw [length_append, length_drop, hrl]
    have he : pos + q.length + (data.length + (cells.length - q.length - data.length)) =
        pos + cells.length := by omega
    rw [he, Nat.add_mod_right]
  rw [Holds, rotate_eq_of_mod _ (hlen.symm ▸ hback.symm), ← rotate_rotate, hstore,
    rotate_append_length_eq, ← append_assoc]
  exact prefix_append _ _

end VDLinux.Base.Ring
