import Mathlib.Data.List.Range
import Mathlib.Data.List.Infix

/-!
# Numbered lists

A log numbers its records: the record appended to a log of `n` records gets
the number `n + 1`. `Numbered num l` says that the list `l` carries the
numbers `1, 2, …, n` in order, where `num` reads the number of a record.

The number of a record is then its position, which is what lets a reader cut
a log by number (`Numbered.filter_lt`) and a writer tell from a length alone
what a log contains. Several continuations of one numbered list cannot all be
appended unless all but one are empty (`Numbered.append_flatten_iff`).
-/

variable {α : Type} {num : α → ℕ} {l l₁ l₂ : List α} {x : α}

/-- **The list carries the numbers `1, 2, …` in order.** -/
def Numbered (num : α → ℕ) (l : List α) : Prop :=
  l.map num = List.range' 1 l.length

instance (num : α → ℕ) (l : List α) : Decidable (Numbered num l) :=
  inferInstanceAs (Decidable (l.map num = List.range' 1 l.length))

namespace Numbered

@[simp] theorem nil : Numbered num [] := rfl

/-- A numbered list continued: the second part goes on from the length of the
first. -/
theorem append_iff :
    Numbered num (l₁ ++ l₂)
      ↔ Numbered num l₁ ∧ l₂.map num = List.range' (l₁.length + 1) l₂.length := by
  unfold Numbered
  rw [List.map_append, List.length_append, ← List.range'_append_1, Nat.add_comm 1 l₁.length]
  constructor
  · intro h
    exact List.append_inj h (by simp)
  · rintro ⟨h₁, h₂⟩
    rw [h₁, h₂]

/-- **Appending a record with the next number.** -/
theorem concat (h : Numbered num l) (hx : num x = l.length + 1) :
    Numbered num (l ++ [x]) := by
  rw [append_iff]
  exact ⟨h, by simp [hx]⟩

theorem of_initial (h : Numbered num l₂) (hp : l₁ <+: l₂) : Numbered num l₁ := by
  obtain ⟨l, rfl⟩ := hp
  exact (append_iff.mp h).1

/-- The number a continuation starts with. -/
theorem num_head {a : List α} (h : Numbered num (l ++ a)) :
    ∀ x ∈ a.head?, num x = l.length + 1 := by
  intro x hx
  cases a with
  | nil => cases hx
  | cons y a =>
    obtain rfl := Option.some.inj hx
    have hmap := (append_iff.mp h).2
    rw [List.map_cons, List.length_cons, List.range'_succ] at hmap
    exact (List.cons.inj hmap).1

/-- **Two continuations of one numbered list exclude each other**: where the
second starts with the number the first starts with, one of them is empty. -/
theorem eq_nil_or_eq_nil {a b : List α} (h : Numbered num (l ++ a ++ b))
    (hb : ∀ x ∈ b.head?, num x = l.length + 1) : a = [] ∨ b = [] := by
  cases b with
  | nil => exact Or.inr rfl
  | cons y b =>
    -- both lengths fix the first number of `b`
    have hy : num y = (l ++ a).length + 1 := h.num_head y rfl
    rw [hb y rfl, List.length_append] at hy
    exact Or.inl (List.length_eq_zero_iff.mp (by omega))

theorem num_head_flatten {as : List (List α)} (has : ∀ a ∈ as, Numbered num (l ++ a)) :
    ∀ x ∈ as.flatten.head?, num x = l.length + 1 := by
  induction as with
  | nil => intro x hx; cases hx
  | cons a as ih =>
    cases a with
    | nil => exact ih (fun a ha => has a (List.mem_cons_of_mem _ ha))
    | cons y a => exact (has (y :: a) List.mem_cons_self).num_head

/-- **Continuations of one numbered list**, all appended one after the other,
leave it numbered exactly where no two of them have records. -/
theorem append_flatten_iff {as : List (List α)} (hl : Numbered num l)
    (has : ∀ a ∈ as, Numbered num (l ++ a)) :
    Numbered num (l ++ as.flatten) ↔ as.Pairwise (fun a b => a = [] ∨ b = []) := by
  induction as with
  | nil => simp [hl]
  | cons a as ih =>
    have has' : ∀ b ∈ as, Numbered num (l ++ b) := fun b hb => has b (List.mem_cons_of_mem _ hb)
    rw [List.flatten_cons, ← List.append_assoc, List.pairwise_cons]
    by_cases ha : a = []
    · subst ha
      rw [List.append_nil, ih has']
      exact ⟨fun h => ⟨fun b _ => Or.inl rfl, h⟩, fun h => h.2⟩
    · constructor
      · intro h
        have hnil : as.flatten = [] := (eq_nil_or_eq_nil h (num_head_flatten has')).resolve_left ha
        have hall : ∀ b ∈ as, b = [] := fun b hb => List.flatten_eq_nil_iff.mp hnil b hb
        exact ⟨fun b hb => Or.inr (hall b hb),
          List.pairwise_of_forall_mem_list (fun b hb _ _ => Or.inl (hall b hb))⟩
      · rintro ⟨h, -⟩
        have hnil : as.flatten = [] :=
          List.flatten_eq_nil_iff.mpr (fun b hb => (h b hb).resolve_left ha)
        rw [hnil, List.append_nil]
        exact has a List.mem_cons_self

/-- Where no two lists have records, each is a prefix of all of them joined. -/
theorem prefix_flatten {as : List (List α)}
    (h : as.Pairwise (fun a b => a = [] ∨ b = [])) {a : List α} (ha : a ∈ as) :
    a <+: as.flatten := by
  induction as with
  | nil => cases ha
  | cons b as ih =>
    rw [List.pairwise_cons] at h
    rw [List.flatten_cons]
    rcases List.mem_cons.mp ha with rfl | hmem
    · exact List.prefix_append _ _
    · rcases h.1 a hmem with rfl | rfl
      · exact ih h.2 hmem
      · exact List.nil_prefix

theorem num_getElem (h : Numbered num l) (i : ℕ) (hi : i < l.length) :
    num l[i] = i + 1 := by
  have hmap : (l.map num)[i]? = (List.range' 1 l.length)[i]? := congrArg (fun m => m[i]?) h
  rw [List.getElem?_map, List.getElem?_eq_getElem hi, List.getElem?_range' hi] at hmap
  have hnum : num l[i] = 1 + 1 * i := Option.some.inj hmap
  omega

/-- **Cutting by number is cutting by position**: the records numbered above
`v` are those after the first `v`. -/
theorem filter_lt (h : Numbered num l) (v : ℕ) :
    l.filter (fun y => decide (v < num y)) = l.drop v := by
  conv_lhs => rw [← List.take_append_drop v l]
  rw [List.filter_append]
  have hlow : (l.take v).filter (fun y => decide (v < num y)) = [] := by
    refine List.filter_eq_nil_iff.mpr (fun y hy => ?_)
    obtain ⟨i, hi, rfl⟩ := List.mem_iff_getElem.mp hy
    rw [List.getElem_take, h.num_getElem]
    simp only [List.length_take] at hi
    simp only [decide_eq_true_eq]
    omega
  have hhigh : (l.drop v).filter (fun y => decide (v < num y)) = l.drop v := by
    refine List.filter_eq_self.mpr (fun y hy => ?_)
    obtain ⟨i, hi, rfl⟩ := List.mem_iff_getElem.mp hy
    rw [List.getElem_drop, h.num_getElem]
    simp only [decide_eq_true_eq]
    omega
  rw [hlow, hhigh, List.nil_append]

end Numbered
