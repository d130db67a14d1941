import Mathlib.Data.List.Forall2

/-! Frames in a stream, and a reader that has only a part of the stream. -/

namespace Jullop

variable {α β : Type}

/-- The reader takes a frame whole, whatever comes behind it, and takes nothing as
long as only a part of it is there. -/
structure Framed (read : List α → Option (β × List α)) (Frame : β → List α → Prop) : Prop where
  nil : read [] = none
  whole : ∀ {b w}, Frame b w → ∀ rest, read (w ++ rest) = some (b, rest)
  part : ∀ {b p rest}, Frame b (p ++ rest) → rest ≠ [] → read p = none

/-- The frames that the reader takes one after the other, `limit` of them at most. -/
def readAll (read : List α → Option (β × List α)) : (limit : Nat) → List α → List β
  | 0, _ => []
  | limit + 1, xs =>
    match read xs with
    | none => []
    | some (b, rest) => b :: readAll read limit rest

section

variable {read : List α → Option (β × List α)} {Frame : β → List α → Prop}

theorem readAll_of_none {xs : List α} (h : read xs = none) (limit : Nat) :
    readAll read limit xs = [] := by
  cases limit with
  | zero => rfl
  | succ limit => simp only [readAll, h]

theorem Framed.ne_nil (h : Framed read Frame) {b : β} {w : List α} (hw : Frame b w) : w ≠ [] := by
  rintro rfl
  have hread := h.whole hw []
  rw [List.nil_append, h.nil] at hread
  cases hread

/-- Of a stream of frames that has arrived in part, the reader takes the frames that
are there whole. -/
theorem Framed.readAll_prefix (h : Framed read Frame) {bs : List β} {ws : List (List α)}
    (hw : List.Forall₂ Frame bs ws) {xs : List α} (hxs : xs <+: ws.flatten) {limit : Nat}
    (hlimit : xs.length ≤ limit) :
    ∃ k ≤ ws.length, readAll read limit xs = bs.take k ∧ (ws.take k).flatten <+: xs ∧
      (k < ws.length → ¬ (ws.take (k + 1)).flatten <+: xs) := by
  induction hw generalizing xs limit with
  | nil =>
    rw [List.flatten_nil, List.prefix_nil] at hxs
    subst hxs
    exact ⟨0, Nat.le_refl 0, by rw [readAll_of_none h.nil]; rfl, by simp, by simp⟩
  | @cons b w bs ws hbw _ ih =>
    rw [List.flatten_cons] at hxs
    by_cases hwhole : w <+: xs
    · obtain ⟨ys, rfl⟩ := hwhole
      have hpos := List.length_pos_of_ne_nil (h.ne_nil hbw)
      rw [List.length_append] at hlimit
      obtain ⟨limit, rfl⟩ := Nat.exists_eq_add_one_of_ne_zero (n := limit) (by omega)
      have hshort : ys.length ≤ limit := by omega
      obtain ⟨k, hk, hread, hprefix, hnext⟩ := ih ((List.prefix_append_right_inj w).mp hxs) hshort
      refine ⟨k + 1, by simpa using hk, ?_, ?_, fun hlt => ?_⟩
      · simp only [readAll, h.whole hbw, hread, List.take_succ_cons]
      · rw [List.take_succ_cons, List.flatten_cons]
        exact (List.prefix_append_right_inj w).mpr hprefix
      · rw [List.take_succ_cons, List.flatten_cons, List.prefix_append_right_inj]
        exact hnext (by simpa using hlt)
    · -- the first frame is not there whole
      obtain ⟨rest, hrest⟩ : xs <+: w :=
        (List.prefix_or_prefix_of_prefix hxs (List.prefix_append w _)).resolve_right hwhole
      have hne : rest ≠ [] := by
        rintro rfl
        rw [List.append_nil] at hrest
        exact hwhole (hrest ▸ List.prefix_rfl)
      have hnone := h.part (hrest ▸ hbw) hne
      refine ⟨0, Nat.zero_le _, by rw [readAll_of_none hnone]; rfl, by simp, fun _ => ?_⟩
      simpa using hwhole

end

end Jullop
