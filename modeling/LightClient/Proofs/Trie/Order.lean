import LightClient.Trie.Path

/-! The left-to-right order of bit strings. `Parts pre a b` says that `a` and `b`
run together along `pre` and then part, `a` to the left; of two strings either
one is a prefix of the other or they part. -/

namespace LightClient.Trie

/-- `a` goes left and `b` goes right after the common prefix `pre`. -/
def Parts (pre a b : List Bool) : Prop := pre ++ [false] <+: a ∧ pre ++ [true] <+: b

/-- `a` lies to the left of `b`, and neither is a prefix of the other. -/
def Before (a b : List Bool) : Prop := ∃ pre, Parts pre a b

/-- A string cannot go left and right after the same prefix. -/
theorem left_right_absurd {pre a : List Bool} (hl : pre ++ [false] <+: a)
    (hr : pre ++ [true] <+: a) : False := by
  have h := List.prefix_of_prefix_length_le hl hr (by simp)
  have h := h.eq_of_length (by simp)
  simp at h

theorem length_append_bit_le {pre c : List Bool} {x : Bool} :
    (pre ++ [x]).length ≤ c.length ↔ pre.length < c.length := by
  rw [List.length_append, List.length_singleton]
  exact Iff.rfl

namespace Parts

theorem mono {pre a b a' b' : List Bool} (h : Parts pre a b) (ha : a <+: a') (hb : b <+: b') :
    Parts pre a' b' :=
  ⟨h.1.trans ha, h.2.trans hb⟩

theorem prefix_left {pre a b : List Bool} (h : Parts pre a b) : pre <+: a :=
  (List.prefix_append pre [false]).trans h.1

theorem prefix_right {pre a b : List Bool} (h : Parts pre a b) : pre <+: b :=
  (List.prefix_append pre [true]).trans h.2

theorem length_lt_left {pre a b : List Bool} (h : Parts pre a b) : pre.length < a.length :=
  length_append_bit_le.mp h.1.length_le

/-- A prefix of the left string that is longer than `pre` parts from `b` as well. -/
theorem of_prefix_left {pre a b c : List Bool} (h : Parts pre a b) (hc : c <+: a)
    (hlen : pre.length < c.length) : Parts pre c b :=
  ⟨List.prefix_of_prefix_length_le h.1 hc (length_append_bit_le.mpr hlen), h.2⟩

theorem of_prefix_right {pre a b c : List Bool} (h : Parts pre a b) (hc : c <+: b)
    (hlen : pre.length < c.length) : Parts pre a c :=
  ⟨h.1, List.prefix_of_prefix_length_le h.2 hc (length_append_bit_le.mpr hlen)⟩

/-- A common prefix of two strings that part is a prefix of where they part. -/
theorem prefix_of_prefixes {pre a b c : List Bool} (h : Parts pre a b) (ha : c <+: a)
    (hb : c <+: b) : c <+: pre := by
  by_cases hlen : c.length ≤ pre.length
  · exact List.prefix_of_prefix_length_le ha h.prefix_left hlen
  · exfalso
    have hl := List.prefix_of_prefix_length_le h.1 ha
      (length_append_bit_le.mpr (by omega))
    exact left_right_absurd (hl.trans hb) h.2

theorem unique {pre pre' a b : List Bool} (h : Parts pre a b) (h' : Parts pre' a b) :
    pre = pre' := by
  have hle := h'.prefix_of_prefixes h.prefix_left h.prefix_right
  have hge := h.prefix_of_prefixes h'.prefix_left h'.prefix_right
  exact hle.eq_of_length_le hge.length_le

theorem not_prefix {pre a b : List Bool} (h : Parts pre a b) : ¬ a <+: b := fun hab =>
  left_right_absurd (h.1.trans hab) h.2

theorem not_prefix' {pre a b : List Bool} (h : Parts pre a b) : ¬ b <+: a := fun hba =>
  left_right_absurd h.1 (h.2.trans hba)

/-- Strings that part one after the other part at different depths. -/
theorem length_ne {p q a b c : List Bool} (hab : Parts p a b) (hbc : Parts q b c) :
    p.length ≠ q.length := by
  intro heq
  have hpq := (List.prefix_of_prefix_length_le hab.prefix_right hbc.prefix_left
    (Nat.le_of_eq heq)).eq_of_length heq
  subst hpq
  exact left_right_absurd hbc.1 hab.2

/-- Where `a` parts from `b` and `b` from `c`, the shorter of the two prefixes is
where `a` parts from `c`. -/
theorem trans {p q a b c : List Bool} (hab : Parts p a b) (hbc : Parts q b c) :
    Parts (if p.length < q.length then p else q) a c := by
  split
  · rename_i hlt
    have hpq := List.prefix_of_prefix_length_le hab.2 hbc.prefix_left
      (length_append_bit_le.mpr hlt)
    exact ⟨hab.1, hpq.trans hbc.prefix_right⟩
  · rename_i hge
    have hne := hab.length_ne hbc
    have hqp := List.prefix_of_prefix_length_le hbc.1 hab.prefix_right
      (length_append_bit_le.mpr (by omega))
    exact ⟨hqp.trans hab.prefix_left, hbc.2⟩

end Parts

namespace Before

theorem trans {a b c : List Bool} (hab : Before a b) (hbc : Before b c) : Before a c := by
  obtain ⟨p, hp⟩ := hab
  obtain ⟨q, hq⟩ := hbc
  exact ⟨_, hp.trans hq⟩

theorem not_prefix {a b : List Bool} (h : Before a b) : ¬ a <+: b := by
  obtain ⟨_, hp⟩ := h
  exact hp.not_prefix

theorem not_prefix' {a b : List Bool} (h : Before a b) : ¬ b <+: a := by
  obtain ⟨_, hp⟩ := h
  exact hp.not_prefix'

theorem ne {a b : List Bool} (h : Before a b) : a ≠ b := by
  rintro rfl
  exact h.not_prefix (List.prefix_refl _)

theorem asymm {a b : List Bool} (h : Before a b) : ¬ Before b a := fun h' =>
  (h.trans h').ne rfl

end Before

/-- Of two bit strings one is a prefix of the other, or they part. -/
theorem prefix_or_before (a b : List Bool) :
    a <+: b ∨ b <+: a ∨ Before a b ∨ Before b a := by
  induction a generalizing b with
  | nil => exact Or.inl List.nil_prefix
  | cons x as ih =>
    cases b with
    | nil => exact Or.inr (Or.inl List.nil_prefix)
    | cons y bs =>
      by_cases hxy : x = y
      · subst hxy
        rcases ih bs with h | h | ⟨pre, h⟩ | ⟨pre, h⟩
        · exact Or.inl (List.cons_prefix_cons.mpr ⟨rfl, h⟩)
        · exact Or.inr (Or.inl (List.cons_prefix_cons.mpr ⟨rfl, h⟩))
        · refine Or.inr (Or.inr (Or.inl ⟨x :: pre, ?_⟩))
          exact ⟨List.cons_prefix_cons.mpr ⟨rfl, h.1⟩, List.cons_prefix_cons.mpr ⟨rfl, h.2⟩⟩
        · refine Or.inr (Or.inr (Or.inr ⟨x :: pre, ?_⟩))
          exact ⟨List.cons_prefix_cons.mpr ⟨rfl, h.1⟩, List.cons_prefix_cons.mpr ⟨rfl, h.2⟩⟩
      · refine Or.inr (Or.inr ?_)
        cases x <;> cases y
        · exact absurd rfl hxy
        · exact Or.inl ⟨[], by simp [Parts]⟩
        · exact Or.inr ⟨[], by simp [Parts]⟩
        · exact absurd rfl hxy

/-! ## The lexicographic order -/

theorem compare_append (pre a b : List Bool) : compare (pre ++ a) (pre ++ b) = compare a b := by
  induction pre with
  | nil => rfl
  | cons x pre ih =>
    rw [List.cons_append, List.cons_append, ← ih]
    simp [compare, List.compareLex_cons_cons]

theorem Parts.compare_eq {pre a b : List Bool} (h : Parts pre a b) : compare a b = .lt := by
  obtain ⟨⟨a, rfl⟩, ⟨b, rfl⟩⟩ := h
  rw [List.append_assoc, List.append_assoc, compare_append]
  rfl

theorem Before.compare_eq {a b : List Bool} (h : Before a b) : compare a b = .lt := by
  obtain ⟨_, hp⟩ := h
  exact hp.compare_eq

theorem compare_eq_compare_length {a b : List Bool} (h : a <+: b) :
    compare a b = compare a.length b.length := by
  obtain ⟨t, rfl⟩ := h
  have happ : compare (a ++ []) (a ++ t) = compare ([] : List Bool) t := compare_append a [] t
  rw [List.append_nil] at happ
  rw [happ, List.length_append]
  cases t with
  | nil => simp
  | cons x t =>
    have : compare a.length (a.length + (x :: t).length) = .lt := by
      rw [Nat.compare_eq_lt]
      simp
    rw [this]
    rfl

theorem compare_eq_gt_of_above {a b : List Bool} (h : b <+: a) (hne : ¬ a <+: b) :
    compare a b = .gt := by
  have hlt : b.length < a.length := by
    apply Nat.lt_of_le_of_ne h.length_le
    intro hlen
    exact hne (h.eq_of_length hlen ▸ List.prefix_refl _)
  rw [Std.OrientedOrd.eq_swap (a := a), compare_eq_compare_length h, Nat.compare_eq_lt.mpr hlt]
  rfl

/-- Strings in lexicographic order, the first no prefix of the second, part in
that order. -/
theorem before_of_compare {a b : List Bool} (hab : ¬ a <+: b) (hcmp : compare a b ≠ .gt) :
    Before a b := by
  rcases prefix_or_before a b with h | h | h | h
  · exact absurd h hab
  · exact absurd (compare_eq_gt_of_above h hab) hcmp
  · exact h
  · exfalso
    apply hcmp
    rw [Std.OrientedOrd.eq_swap (a := a), h.compare_eq]
    rfl

end LightClient.Trie
