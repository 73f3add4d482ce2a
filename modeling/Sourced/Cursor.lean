import Mathlib.Data.List.Basic

/-!
# Reading a growing list from the front

A list grows at its end, and a reader takes its elements one by one from the
front. The reader's position is all there is to know: what has been taken is
the beginning of the list up to it, what is left the rest, and neither changes
its order when the list grows.
-/

namespace Cursor

variable {α : Type}

/-- **The next element and the position after it**; at the end there is none,
and the position stays. -/
def next (l : List α) (pos : ℕ) : Option α × ℕ :=
  match l[pos]? with
  | some x => (some x, pos + 1)
  | none => (none, pos)

variable {l : List α} {pos pos' : ℕ} {x : α} {o : Option α}

/-- **An element taken is the next of the list.** -/
theorem take_next (h : next l pos = (o, pos')) : l.take pos' = l.take pos ++ o.toList := by
  unfold next at h
  cases hx : l[pos]? with
  | none =>
    rw [hx] at h
    obtain ⟨rfl, rfl⟩ := Prod.mk.inj h
    exact (List.append_nil _).symm
  | some x =>
    rw [hx] at h
    obtain ⟨rfl, rfl⟩ := Prod.mk.inj h
    rw [List.take_add_one, hx]

/-- **It is the first of what was left.** -/
theorem drop_next (h : next l pos = (o, pos')) : l.drop pos = o.toList ++ l.drop pos' := by
  unfold next at h
  cases hx : l[pos]? with
  | none =>
    rw [hx] at h
    obtain ⟨rfl, rfl⟩ := Prod.mk.inj h
    rfl
  | some x =>
    rw [hx] at h
    obtain ⟨rfl, rfl⟩ := Prod.mk.inj h
    obtain ⟨hlt, rfl⟩ := List.getElem?_eq_some_iff.mp hx
    exact List.drop_eq_getElem_cons hlt

theorem drop_of_next_none (h : next l pos = (none, pos')) : l.drop pos = [] := by
  unfold next at h
  cases hx : l[pos]? with
  | none => exact List.drop_eq_nil_of_le (List.getElem?_eq_none_iff.mp hx)
  | some x =>
    rw [hx] at h
    cases (Prod.mk.inj h).1

/-- An element taken moves the position by one. -/
theorem pos_of_next_some (h : next l pos = (some x, pos')) : pos' = pos + 1 := by
  unfold next at h
  cases hx : l[pos]? with
  | none =>
    rw [hx] at h
    cases (Prod.mk.inj h).1
  | some y =>
    rw [hx] at h
    exact (Prod.mk.inj h).2.symm

/-- The position stays within the list. -/
theorem next_le (hle : pos ≤ l.length) (h : next l pos = (o, pos')) : pos' ≤ l.length := by
  unfold next at h
  cases hx : l[pos]? with
  | none =>
    rw [hx] at h
    exact (Prod.mk.inj h).2 ▸ hle
  | some x =>
    rw [hx] at h
    obtain ⟨hlt, -⟩ := List.getElem?_eq_some_iff.mp hx
    exact (Prod.mk.inj h).2 ▸ hlt

/-- Without an element the position is where it was. -/
theorem pos_of_next_none (h : next l pos = (none, pos')) : pos' = pos := by
  unfold next at h
  cases hx : l[pos]? with
  | none =>
    rw [hx] at h
    exact (Prod.mk.inj h).2.symm
  | some x =>
    rw [hx] at h
    cases (Prod.mk.inj h).1

end Cursor
