import Os377.Lib.Links

/-!
# Circular lists

A list whose last node leads back to its first: `Seg next b (b :: rest) b`. From every node
of it one gets to every other one (`Seg.reach`), in fewer steps than there are nodes.
-/

namespace Os377.Lib

variable {α : Type*} {next : α → α} {b p q u t : α} {l rest : List α}

theorem Seg.split_mem (h : Seg next p l q) (hu : u ∈ l) :
    ∃ as bs, l = as ++ u :: bs ∧ Seg next p as u ∧ Seg next u (u :: bs) q := by
  obtain ⟨as, bs, rfl⟩ := List.append_of_mem hu
  obtain ⟨r, has, hbs⟩ := seg_append.mp h
  obtain rfl : r = u := hbs.1
  exact ⟨as, bs, rfl, has, hbs⟩

/-- From one node of a circle to another one, for the first time. -/
theorem Seg.reach (h : Seg next b (b :: rest) b) (hnodup : (b :: rest).Nodup)
    (hu : u ∈ b :: rest) (ht : t ∈ b :: rest) :
    ∃ as, Seg next u as t ∧ t ∉ as ∧ as.length ≤ rest.length ∧ ∀ a ∈ as, a ∈ b :: rest := by
  obtain ⟨xs, ys, heq, hxs, hys⟩ := h.split_mem hu
  have hlen := congrArg List.length heq
  rw [List.length_append, List.length_cons, List.length_cons] at hlen
  rw [heq, List.nodup_append] at hnodup
  obtain ⟨hnx, hny, hdisj⟩ := hnodup
  rw [heq] at ht
  rcases List.mem_append.mp ht with ht | ht
  · -- once around
    obtain ⟨as, bs, rfl, has, -⟩ := hxs.split_mem ht
    rw [List.length_append, List.length_cons] at hlen
    refine ⟨u :: ys ++ as, seg_append.mpr ⟨b, hys, has⟩, fun hmem => ?_, ?_, fun a ha => ?_⟩
    · rcases List.mem_append.mp hmem with hmem | hmem
      · exact hdisj t ht t hmem rfl
      · exact (List.nodup_append.mp hnx).2.2 t hmem t List.mem_cons_self rfl
    · rw [List.length_append, List.length_cons]
      omega
    · rw [heq]
      rcases List.mem_append.mp ha with ha | ha
      · exact List.mem_append_right _ ha
      · exact List.mem_append_left _ (List.mem_append_left _ ha)
  · obtain ⟨as, bs, hsplit, has, -⟩ := hys.split_mem ht
    have hlen' := congrArg List.length hsplit
    rw [List.length_append, List.length_cons, List.length_cons] at hlen'
    refine ⟨as, has, fun hmem => ?_, by omega, fun a ha => ?_⟩
    · rw [hsplit] at hny
      exact (List.nodup_append.mp hny).2.2 t hmem t List.mem_cons_self rfl
    · rw [heq, hsplit]
      exact List.mem_append_right _ (List.mem_append_left _ ha)

/-- Once around, from what follows a node. -/
theorem Seg.around (h : Seg next b (b :: rest) b) (hnodup : (b :: rest).Nodup)
    (hu : u ∈ b :: rest) : ∃ as, Seg next (next u) as u ∧ u ∉ as ∧ as.length = rest.length ∧
      ∀ a, a ∈ as ∨ a = u ↔ a ∈ b :: rest := by
  obtain ⟨xs, ys, heq, hxs, -, hys⟩ := h.split_mem hu
  have hlen := congrArg List.length heq
  rw [List.length_append, List.length_cons, List.length_cons] at hlen
  rw [heq, List.nodup_append, List.nodup_cons] at hnodup
  obtain ⟨-, ⟨hny, -⟩, hdisj⟩ := hnodup
  refine ⟨ys ++ xs, seg_append.mpr ⟨b, hys, hxs⟩, fun hmem => ?_, ?_, fun a => ?_⟩
  · rcases List.mem_append.mp hmem with hmem | hmem
    · exact hny hmem
    · exact hdisj u hmem u List.mem_cons_self rfl
  · rw [List.length_append]
    omega
  · rw [heq, List.mem_append, List.mem_append, List.mem_cons]
    tauto

/-- The first node with `stop`, if there is one. -/
theorem Seg.find (stop : α → Prop) [DecidablePred stop] (h : Seg next p l u) :
    (∃ t as, Seg next p as t ∧ stop t ∧ as.length ≤ l.length ∧ ∀ a ∈ as, ¬ stop a ∧ a ∈ l) ∨
      ∀ a, a ∈ l ∨ a = u → ¬ stop a := by
  induction l generalizing p with
  | nil =>
      obtain rfl : p = u := h
      by_cases hp : stop p
      · exact Or.inl ⟨p, [], rfl, hp, Nat.le_refl _, fun a ha => absurd ha List.not_mem_nil⟩
      · refine Or.inr fun a ha => ?_
        rcases ha with ha | rfl
        · exact absurd ha List.not_mem_nil
        · exact hp
  | cons a l ih =>
      obtain ⟨rfl, h⟩ := h
      by_cases hp : stop p
      · exact Or.inl ⟨p, [], rfl, hp, Nat.zero_le _, fun a ha => absurd ha List.not_mem_nil⟩
      · rcases ih h with ⟨t, as, has, ht, hlen, hall⟩ | hnone
        · refine Or.inl ⟨t, p :: as, ⟨rfl, has⟩, ht, Nat.succ_le_succ hlen, fun a ha => ?_⟩
          rcases List.mem_cons.mp ha with rfl | ha
          · exact ⟨hp, List.mem_cons_self⟩
          · exact ⟨(hall a ha).1, List.mem_cons_of_mem p (hall a ha).2⟩
        · refine Or.inr fun a ha => ?_
          rw [List.mem_cons] at ha
          rcases ha with (rfl | ha) | ha
          · exact hp
          · exact hnone a (Or.inl ha)
          · exact hnone a (Or.inr ha)

end Os377.Lib
