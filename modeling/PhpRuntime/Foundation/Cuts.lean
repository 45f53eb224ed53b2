import Mathlib.Data.List.Infix
import Mathlib.Data.Nat.Find

/-! # Cutting a list at the occurrences of another

The occurrences are taken from left to right and do not overlap. Elements are compared by what
`fold` makes of them.
-/

namespace PhpRuntime.Cuts

variable {α β : Type*}

/-- The pieces of a list between the leftmost occurrences of `d` that do not overlap. -/
inductive Cut (fold : α → β) (d : List α) : List α → List (List α) → Prop where
  | whole {s : List α} (absent : ∀ q, ¬ d.map fold <+: (s.drop q).map fold) : Cut fold d s [s]
  | next {front found back : List α} {pieces : List (List α)}
      (same : found.map fold = d.map fold)
      (first : ∀ q < front.length, ¬ d.map fold <+: ((front ++ (found ++ back)).drop q).map fold)
      (rest : Cut fold d back pieces) : Cut fold d (front ++ (found ++ back)) (front :: pieces)

section Pieces

variable {fold : α → β} {d s : List α} {pieces : List (List α)}

theorem Cut.ne_nil (cut : Cut fold d s pieces) : pieces ≠ [] := by
  cases cut <;> simp

theorem Cut.length_pos (cut : Cut fold d s pieces) : 0 < pieces.length :=
  List.length_pos_of_ne_nil cut.ne_nil

theorem Cut.of_nil (cut : Cut fold d s pieces) (isNil : s = []) (nonempty : d ≠ []) :
    pieces = [[]] := by
  cases cut with
  | whole absent => rw [isNil]
  | next same first rest =>
      rw [List.append_eq_nil_iff, List.append_eq_nil_iff] at isNil
      rw [isNil.2.1, List.map_nil, eq_comm, List.map_eq_nil_iff] at same
      exact absurd same nonempty

theorem exists_cut (fold : α → β) (nonempty : d ≠ []) (s : List α) :
    ∃ pieces, Cut fold d s pieces := by
  classical
  induction size : s.length using Nat.strong_induction_on generalizing s with
  | _ n induction =>
      by_cases occurs : ∃ q, d.map fold <+: (s.drop q).map fold
      · -- the first occurrence, and the cut of what is behind it
        have here := Nat.find_spec occurs
        have before := fun q (below : q < Nat.find occurs) => Nat.find_min occurs below
        generalize Nat.find occurs = p at here before
        have fits := here.length_le
        have positive := List.length_pos_of_ne_nil nonempty
        have same := List.prefix_iff_eq_take.mp here
        simp only [List.length_map, List.length_drop] at fits same
        rcases induction (s.length - (p + d.length)) (by omega) (s.drop (p + d.length))
          (by simp) with ⟨pieces, cut⟩
        have parts : s.take p ++ ((s.drop p).take d.length ++ s.drop (p + d.length)) = s := by
          rw [← List.drop_drop, List.take_append_drop, List.take_append_drop]
        have first : ∀ q < (s.take p).length, ¬ d.map fold <+:
            ((s.take p ++
              ((s.drop p).take d.length ++ s.drop (p + d.length))).drop q).map fold := by
          intro q below
          rw [parts]
          exact before q (Nat.lt_of_lt_of_le below (List.length_take_le p s))
        have whole := Cut.next (by rw [List.map_take, ← same]) first cut
        rw [parts] at whole
        exact ⟨s.take p :: pieces, whole⟩
      · exact ⟨[s], .whole (not_exists.mp occurs)⟩

/-- There is at most one piece for each element, and one more. -/
theorem Cut.length_le (cut : Cut fold d s pieces) (nonempty : d ≠ []) :
    pieces.length ≤ s.length + 1 := by
  induction cut with
  | whole absent => simp
  | next same first rest induction =>
      have positive := List.length_pos_of_ne_nil nonempty
      have sizes := congrArg List.length same
      simp only [List.length_map] at sizes
      simp only [List.length_cons, List.length_append]
      omega

theorem intercalate_cons {piece : List α} (more : pieces ≠ []) :
    List.intercalate d (piece :: pieces) = piece ++ (d ++ List.intercalate d pieces) := by
  cases pieces with
  | nil => exact absurd rfl more
  | cons next pieces => simp [List.intercalate_cons_cons]

/-- What is in front of a piece, and what is behind. -/
theorem intercalate_drop {i : Nat} (inside : i < pieces.length) :
    (pieces.take i).flatMap (· ++ d) ++ List.intercalate d (pieces.drop i) =
      List.intercalate d pieces := by
  induction pieces generalizing i with
  | nil => cases inside
  | cons piece pieces induction =>
      cases i with
      | zero => simp
      | succ i =>
          have inside := Nat.lt_of_succ_lt_succ inside
          have more : pieces ≠ [] := List.ne_nil_of_length_pos (by omega)
          rw [intercalate_cons more, ← induction inside]
          simp

/-- The pieces are put together again. -/
theorem Cut.intercalate (cut : Cut id d s pieces) : List.intercalate d pieces = s := by
  induction cut with
  | whole absent => simp
  | next same first rest induction =>
      rw [List.map_id, List.map_id] at same
      rw [intercalate_cons rest.ne_nil, induction, same]

/-- A list with nothing but occurrences. -/
theorem cut_replicate (fold : α → β) (a : α) (n : Nat) :
    Cut fold [a] (List.replicate n a) (List.replicate (n + 1) []) := by
  induction n with
  | zero => exact .whole fun q => by simp
  | succ n induction => exact @Cut.next _ _ fold [a] [] [a] _ _ rfl (by simp) induction

/-- No piece has another occurrence in it. -/
theorem Cut.free (cut : Cut id d s pieces) (nonempty : d ≠ []) :
    ∀ piece ∈ pieces, ¬ d <:+: piece := by
  induction cut with
  | whole absent =>
      intro piece member
      rw [List.mem_singleton.mp member]
      rintro ⟨before, behind, equal⟩
      apply absent before.length
      rw [← equal, List.append_assoc, List.drop_left, List.map_id, List.map_id]
      exact List.prefix_append d behind
  | next same first rest induction =>
      intro piece member
      cases member with
      | tail _ member => exact induction piece member
      | head =>
          rintro ⟨before, behind, equal⟩
          have positive := List.length_pos_of_ne_nil nonempty
          apply first before.length
          · rw [← equal]
            simp
            omega
          · rw [← equal, List.append_assoc, List.append_assoc, List.drop_left, List.map_id,
              List.map_id]
            exact List.prefix_append d _

end Pieces

end PhpRuntime.Cuts
