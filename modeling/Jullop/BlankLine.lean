import Jullop.HttpParser
import Mathlib.Data.List.Induction

/-! The check of `is_complete`: where it stops, and on which bytes it waits. -/

namespace Jullop

namespace HttpParser

/-- Neither a blank line nor a CR that something other than LF follows. -/
structure OpenTail (t : List UInt8) : Prop where
  stray : ∀ c, [CR, c] <:+: t → c = LF
  lf : ¬ [LF, LF] <:+: t
  crlf : ¬ [LF, CR, LF] <:+: t

theorem openTail_cons {c : UInt8} {cs : List UInt8} :
    OpenTail (c :: cs) ↔ OpenTail cs ∧ (c = CR → ∀ d ∈ cs.head?, d = LF) ∧
      (c = LF → cs.head? ≠ some LF ∧ ¬ [CR, LF] <+: cs) := by
  constructor
  · rintro ⟨hstray, hlf, hcrlf⟩
    simp only [List.infix_cons_iff, List.cons_prefix_cons, not_or, not_and] at hstray hlf hcrlf
    refine ⟨⟨fun d hd => hstray d (.inr hd), hlf.2, hcrlf.2⟩, ?_, ?_⟩
    · rintro rfl d hd
      obtain ⟨ds, rfl⟩ := List.head?_eq_some_iff.mp hd
      exact hstray d (.inl ⟨rfl, by simp⟩)
    · rintro rfl
      refine ⟨fun h => ?_, hcrlf.1 rfl⟩
      obtain ⟨ds, rfl⟩ := List.head?_eq_some_iff.mp h
      exact hlf.1 rfl (by simp)
  · rintro ⟨⟨hstray, hlf, hcrlf⟩, hcr, hlf'⟩
    constructor
    · intro d hd
      simp only [List.infix_cons_iff, List.cons_prefix_cons] at hd
      rcases hd with ⟨rfl, ds, rfl⟩ | hd
      · exact hcr rfl d (by simp)
      · exact hstray d hd
    · intro h
      simp only [List.infix_cons_iff, List.cons_prefix_cons] at h
      rcases h with ⟨rfl, ds, rfl⟩ | h
      · exact (hlf' rfl).1 (by simp)
      · exact hlf h
    · intro h
      simp only [List.infix_cons_iff, List.cons_prefix_cons] at h
      rcases h with ⟨rfl, h⟩ | h
      · exact (hlf' rfl).2 h
      · exact hcrlf h

theorem openTail_nil : OpenTail [] := ⟨by simp, by simp, by simp⟩

theorem isCompleteLoop_lf (k : Nat) (cs : List UInt8) :
    isCompleteLoop k (LF :: cs) = if k + 1 = 2 then .ok () else isCompleteLoop (k + 1) cs := by
  rw [isCompleteLoop.eq_def]
  simp

theorem isCompleteLoop_other {c : UInt8} (hcr : c ≠ CR) (hlf : c ≠ LF) (k : Nat)
    (cs : List UInt8) : isCompleteLoop k (c :: cs) = isCompleteLoop 0 cs := by
  rw [isCompleteLoop.eq_def]
  simp [hcr, hlf]

/-- After one line end the loop behaves as if it had just seen an LF. -/
def seen : Nat → List UInt8 → List UInt8
  | 0, t => t
  | _ + 1, t => LF :: t

theorem isCompleteLoop_incomplete_iff {k : Nat} (hk : k < 2) (t : List UInt8) :
    isCompleteLoop k t = .error .incomplete ↔ OpenTail (seen k t) := by
  fun_induction isCompleteLoop k t with
  | case1 k =>
    have hopen : OpenTail (seen k []) := by
      cases k <;> simp [seen, openTail_cons, openTail_nil]
    simp [hopen]
  | case2 k =>
    have hopen : OpenTail (seen k [CR]) := by
      cases k <;> simp [seen, openTail_cons, openTail_nil]
    simp [hopen]
  | case3 k d ds hd =>
    cases k <;> simp [seen, openTail_cons, hd]
  | case4 k d ds hd hk' =>
    obtain rfl : k = 1 := by omega
    have hd : d = LF := by simpa using hd
    simp [seen, openTail_cons, hd]
  | case5 k d ds hd hk' ih =>
    obtain rfl : k = 0 := by omega
    have hd : d = LF := by simpa using hd
    refine (ih (by omega)).trans ?_
    simp [seen, openTail_cons, hd]
  | case6 k cs hc hk' =>
    obtain rfl : k = 1 := by omega
    simp [seen, openTail_cons]
  | case7 k cs hc hk' ih =>
    obtain rfl : k = 0 := by omega
    refine (ih (by omega)).trans ?_
    simp [seen]
  | case8 k c cs hcr hlf ih =>
    refine (ih (by omega)).trans ?_
    have hcr' : CR ≠ c := fun he => hcr he.symm
    cases k <;> simp [seen, openTail_cons, hcr, hlf, hcr']

/-- The loop stops at the first byte that ends an open tail: at the LF of a blank
line with success, at any other byte with an error. -/
theorem isCompleteLoop_snoc {k : Nat} (hk : k < 2) {t : List UInt8} {c : UInt8}
    (h : isCompleteLoop k t = .error .incomplete) :
    isCompleteLoop k (t ++ [c]) = .error .incomplete ∨
      (c = LF ∧ isCompleteLoop k (t ++ [c]) = .ok ()) ∨
      (c ≠ LF ∧ isCompleteLoop k (t ++ [c]) = .error .malformed) := by
  fun_induction isCompleteLoop k t with
  | case1 k =>
    by_cases hcr : c = CR
    · simp [isCompleteLoop, hcr]
    · by_cases hlf : c = LF
      · by_cases hk' : k + 1 = 2
        · simp [isCompleteLoop, hlf, hk']
        · simp [isCompleteLoop, hlf, hk']
      · simp [isCompleteLoop, hcr, hlf]
  | case2 k =>
    by_cases hlf : c = LF
    · by_cases hk' : k + 1 = 2
      · simp [isCompleteLoop, hlf, hk']
      · simp [isCompleteLoop, hlf, hk']
    · simp [isCompleteLoop, hlf]
  | case3 k d ds hd => cases h
  | case4 k d ds hd hk' => cases h
  | case5 k d ds hd hk' ih => simpa [isCompleteLoop, hd, hk'] using ih (by omega) h
  | case6 k cs hc hk' => cases h
  | case7 k cs hc hk' ih =>
    rw [List.cons_append, isCompleteLoop_lf, if_neg hc]
    exact ih (by omega) h
  | case8 k d cs hcr hlf ih =>
    rw [List.cons_append, isCompleteLoop_other hcr hlf]
    exact ih (by omega) h

theorem isCompleteLoop_append {k : Nat} {t : List UInt8} 
    (h : isCompleteLoop k t ≠ .error .incomplete) (more : List UInt8) :
    isCompleteLoop k (t ++ more) = isCompleteLoop k t := by
  fun_induction isCompleteLoop k t with
  | case1 k => exact absurd rfl h
  | case2 k => exact absurd rfl h
  | case3 k d ds hd => simp [isCompleteLoop, hd]
  | case4 k d ds hd hk => simp [isCompleteLoop, hd, hk]
  | case5 k d ds hd hk ih => simpa [isCompleteLoop, hd, hk] using ih h
  | case6 k cs hk => rw [List.cons_append, isCompleteLoop_lf, if_pos hk]
  | case7 k cs hk _ ih =>
    rw [List.cons_append, isCompleteLoop_lf, if_neg hk]
    exact ih h
  | case8 k d cs hcr hlf ih =>
    rw [List.cons_append, isCompleteLoop_other hcr hlf]
    exact ih h

def Plain (x : List UInt8) : Prop := ∀ c ∈ x, c ≠ CR ∧ c ≠ LF

theorem openTail_plain {x : List UInt8} (hx : Plain x) (y : List UInt8) :
    OpenTail (x ++ y) ↔ OpenTail y := by
  induction x with
  | nil => rfl
  | cons c x ih =>
    have hc := hx c (by simp)
    rw [List.cons_append, openTail_cons, ih fun d hd => hx d (by simp [hd])]
    simp [hc.1, hc.2]

theorem OpenTail.of_infix {t t' : List UInt8} (h : OpenTail t) (hi : t' <:+: t) : OpenTail t' where
  stray c hc := h.stray c (hc.trans hi)
  lf hc := h.lf (hc.trans hi)
  crlf hc := h.crlf (hc.trans hi)

theorem openTail_snoc {t : List UInt8} {d : UInt8} (h : OpenTail (t ++ [d])) (hd : d ≠ CR ∧ d ≠ LF)
    (c : UInt8) : OpenTail (t ++ [d] ++ [c]) := by
  have hlast : ∀ l u w, l ++ [u, w] <:+ t ++ [d] ++ [c] → u = d := by
    rintro l u w ⟨s, hs⟩
    have hs' : (s ++ l ++ [u]) ++ [w] = (t ++ [d]) ++ [c] := by simpa using hs
    have hs'' := (List.append_inj' hs' rfl).1
    exact List.cons.inj (List.append_inj' hs'' rfl).2 |>.1
  refine ⟨fun x hx => ?_, fun hx => ?_, fun hx => ?_⟩
  · rcases List.infix_concat_iff.mp hx with hx | hx
    · exact absurd (hlast [] CR x hx).symm hd.1
    · exact h.stray x hx
  · rcases List.infix_concat_iff.mp hx with hx | hx
    · exact absurd (hlast [] LF LF hx).symm hd.2
    · exact h.lf hx
  · rcases List.infix_concat_iff.mp hx with hx | hx
    · exact absurd (hlast [LF] CR LF hx).symm hd.1
    · exact h.crlf hx

/-- The bytes stop being an open tail at this `c`. -/
def Halts (t : List UInt8) (c : UInt8) : Prop :=
  ∃ q, OpenTail q ∧ ¬ OpenTail (q ++ [c]) ∧ q ++ [c] <+: t

theorem exists_halts {t : List UInt8} (h : ¬ OpenTail t) : ∃ c, Halts t c := by
  induction t using List.reverseRecOn with
  | nil => exact absurd openTail_nil h
  | append_singleton t c ih =>
    by_cases ht : OpenTail t
    · exact ⟨c, t, ht, h, List.prefix_rfl⟩
    · obtain ⟨d, q, hq, hd, hpre⟩ := ih ht
      exact ⟨d, q, hq, hd, hpre.trans (List.prefix_append _ _)⟩

theorem isCompleteLoop_of_halts {t : List UInt8} {c : UInt8} (h : Halts t c) :
    isCompleteLoop 0 t = if c = LF then .ok () else .error .malformed := by
  obtain ⟨q, hq, hc, more, rfl⟩ := h
  have hwait : isCompleteLoop 0 q = .error .incomplete :=
    (isCompleteLoop_incomplete_iff (by omega) q).mpr hq
  have hstop : isCompleteLoop 0 (q ++ [c]) ≠ .error .incomplete := by
    rwa [ne_eq, isCompleteLoop_incomplete_iff (by omega)]
  rw [isCompleteLoop_append hstop]
  rcases isCompleteLoop_snoc (c := c) (by omega) hwait with h | ⟨hlf, h⟩ | ⟨hne, h⟩
  · exact absurd h hstop
  · rw [h, if_pos hlf]
  · rw [h, if_neg hne]

theorem isComplete_incomplete_iff (buf : List UInt8) (lastLen : Nat) :
    isComplete buf lastLen = .error .incomplete ↔ OpenTail (buf.drop (lastLen - 3)) :=
  isCompleteLoop_incomplete_iff (by omega) _

theorem isComplete_ok_iff (buf : List UInt8) (lastLen : Nat) :
    isComplete buf lastLen = .ok () ↔ Halts (buf.drop (lastLen - 3)) LF := by
  constructor
  · intro h
    have hopen : ¬ OpenTail (buf.drop (lastLen - 3)) := by
      rw [← isComplete_incomplete_iff, h]
      simp
    obtain ⟨c, hc⟩ := exists_halts hopen
    by_cases hlf : c = LF
    · rwa [hlf] at hc
    · rw [isComplete, isCompleteLoop_of_halts hc, if_neg hlf] at h
      cases h
  · intro h
    rw [isComplete, isCompleteLoop_of_halts h, if_pos rfl]

theorem isComplete_malformed_iff (buf : List UInt8) (lastLen : Nat) :
    isComplete buf lastLen = .error .malformed ↔
      ∃ c, c ≠ LF ∧ Halts (buf.drop (lastLen - 3)) c := by
  constructor
  · intro h
    have hopen : ¬ OpenTail (buf.drop (lastLen - 3)) := by
      rw [← isComplete_incomplete_iff, h]
      simp
    obtain ⟨c, hc⟩ := exists_halts hopen
    refine ⟨c, ?_, hc⟩
    rintro rfl
    rw [isComplete, isCompleteLoop_of_halts hc, if_pos rfl] at h
    cases h
  · rintro ⟨c, hne, h⟩
    rw [isComplete, isCompleteLoop_of_halts h, if_neg hne]

theorem isComplete_append {buf : List UInt8} {lastLen : Nat} (hlen : lastLen ≤ buf.length)
    (h : isComplete buf lastLen ≠ .error .incomplete) (more : List UInt8) :
    isComplete (buf ++ more) lastLen = isComplete buf lastLen := by
  rw [isComplete, List.drop_append_of_le_length (by omega)]
  exact isCompleteLoop_append h more

theorem isComplete_cr_cr {buf : List UInt8} {lastLen : Nat} (hlen : lastLen ≤ buf.length)
    (h : isComplete buf lastLen = .error .incomplete) (more : List UInt8) :
    isComplete (buf ++ CR :: CR :: more) lastLen = .error .malformed := by
  rw [isComplete] at h ⊢
  rw [List.drop_append_of_le_length (by omega)]
  generalize buf.drop (lastLen - 3) = t at h ⊢
  have happ : t ++ CR :: CR :: more = t ++ [CR] ++ [CR] ++ more := by simp
  have hmalformed : isCompleteLoop 0 (t ++ [CR] ++ [CR]) = .error .malformed := by
    rcases isCompleteLoop_snoc (c := CR) (by omega) h with h1 | ⟨hlf, -⟩ | ⟨-, h1⟩
    · rcases isCompleteLoop_snoc (c := CR) (by omega) h1 with h2 | ⟨hlf, -⟩ | ⟨-, h2⟩
      · rw [isCompleteLoop_incomplete_iff (by omega)] at h2
        have hstray := h2.stray CR ⟨t, [], by simp [seen]⟩
        exact absurd hstray cr_ne_lf
      · exact absurd hlf cr_ne_lf
      · exact h2
    · exact absurd hlf cr_ne_lf
    · rw [isCompleteLoop_append (by simp [h1]), h1]
  have hne : isCompleteLoop 0 (t ++ [CR] ++ [CR]) ≠ .error .incomplete := by
    rw [hmalformed]
    simp
  rw [happ, isCompleteLoop_append hne, hmalformed]

end HttpParser

end Jullop
