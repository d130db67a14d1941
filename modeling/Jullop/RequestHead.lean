import Jullop.HttpParser

/-! The request heads that the parser accepts, and the inputs on which it waits
for more, both as languages of their own. -/

namespace Jullop

namespace HttpParser

open Scanner

def IsToken (t : List UInt8) : Prop := ∀ c ∈ t, tokenMove c = .go

def IsText (t : List UInt8) : Prop := ∀ c ∈ t, eolMove c = .go

def IsName (n : List UInt8) : Prop := n ≠ [] ∧ ∀ c ∈ n, nameMove c = .go

instance (t : List UInt8) : Decidable (IsToken t) :=
  List.decidableBAll (fun c => tokenMove c = .go) t

instance (t : List UInt8) : Decidable (IsText t) :=
  List.decidableBAll (fun c => eolMove c = .go) t

instance (n : List UInt8) : Decidable (IsName n) :=
  @instDecidableAnd _ _ _ (List.decidableBAll (fun c => nameMove c = .go) n)

inductive Eol : List UInt8 → Prop
  | crlf : Eol [CR, LF]
  | lf : Eol [LF]

def Lead (l : List UInt8) : Prop := l = [] ∨ Eol l

inductive Target : List UInt8 → Prop
  | intro {l m t : List UInt8} (hl : Lead l) (hm : IsToken m) (ht : IsToken t) :
      Target (l ++ (m ++ SP :: (t ++ [SP])))

inductive OpenTarget : List UInt8 → Prop
  | cr : OpenTarget [CR]
  | method {l m : List UInt8} (hl : Lead l) (hm : IsToken m) : OpenTarget (l ++ m)
  | path {l m t : List UInt8} (hl : Lead l) (hm : IsToken m) (ht : IsToken t) :
      OpenTarget (l ++ (m ++ SP :: t))

inductive Version : List UInt8 → Prop
  | intro {d : UInt8} (hlow : 0x30 ≤ d) (hhigh : d ≤ 0x39) :
      Version [0x48, 0x54, 0x54, 0x50, 0x2f, 0x31, 0x2e, d]

/-- A header line without its line end; the first header cannot be folded. -/
inductive Field : (count : Nat) → List UInt8 → Prop
  | named {k : Nat} {n t : List UInt8} (hn : IsName n) (ht : IsText t) : Field k (n ++ 0x3a :: t)
  | folded {k : Nat} {c : UInt8} {t : List UInt8} (hc : c = SP ∨ c = HT) (ht : IsText t) :
      Field (k + 1) (c :: t)

inductive OpenField (count : Nat) : List UInt8 → Prop
  | name {n : List UInt8} (hn : IsName n) : OpenField count n
  | text {l : List UInt8} (hl : Field count l) : OpenField count l
  | cr {l : List UInt8} (hl : Field count l) : OpenField count (l ++ [CR])

/-- So many header lines, the first of them with the given number. -/
inductive Fields : (count lines : Nat) → List UInt8 → Prop
  | none {k : Nat} : Fields k 0 []
  | more {k n : Nat} {l e ls : List UInt8} (hl : Field k l) (he : Eol e)
      (hls : Fields (k + 1) n ls) : Fields k (n + 1) (l ++ (e ++ ls))

inductive OpenFields : (count room : Nat) → List UInt8 → Prop
  | done {k n : Nat} : OpenFields k n []
  | cr {k n : Nat} : OpenFields k n [CR]
  | line {k n : Nat} {l : List UInt8} (hl : OpenField k l) : OpenFields k (n + 1) l
  | more {k n : Nat} {l e ls : List UInt8} (hl : Field k l) (he : Eol e)
      (hls : OpenFields (k + 1) n ls) : OpenFields k (n + 1) (l ++ (e ++ ls))

/-- A request head with so many header lines, up to its blank line. -/
inductive Head (lines : Nat) : List UInt8 → Prop
  | intro {q v e ls e' : List UInt8} (hq : Target q) (hv : Version v) (he : Eol e)
      (hls : Fields 0 lines ls) (he' : Eol e') : Head lines (q ++ (v ++ (e ++ (ls ++ e'))))

/-- An unfinished request head. Nothing is asked of the version before nine
bytes have arrived from its start. -/
inductive OpenHead (room : Nat) : List UInt8 → Prop
  | target {q : List UInt8} (hq : OpenTarget q) : OpenHead room q
  | version {q w : List UInt8} (hq : Target q) (hw : w.length < 9) : OpenHead room (q ++ w)
  | cr {q v : List UInt8} (hq : Target q) (hv : Version v) : OpenHead room (q ++ (v ++ [CR]))
  | fields {q v e ls : List UInt8} (hq : Target q) (hv : Version v) (he : Eol e)
      (hls : OpenFields 0 room ls) : OpenHead room (q ++ (v ++ (e ++ ls)))

variable {pos : Nat} {out : HttpRequest} {xs : List UInt8}

theorem lineEnd_nil (p : Parse Unit) :
    lineEnd p ⟨pos, [], out⟩ = (.error .incomplete, ⟨pos, [], out⟩) := by
  simp [lineEnd, bind_apply]

theorem lineEnd_cr (p : Parse Unit) :
    lineEnd p ⟨pos, [CR], out⟩ = (.error .incomplete, ⟨pos + 1, [], out⟩) := by
  simp [lineEnd, expectChar, bind_apply]

theorem lineEnd_eol {e : List UInt8} (he : Eol e) (p : Parse Unit) :
    lineEnd p ⟨pos, e ++ xs, out⟩ = (.ok (), ⟨pos + e.length, xs, out⟩) := by
  cases he with
  | crlf => simp [lineEnd, expectChar, bind_apply]
  | lf => simp [lineEnd, bind_apply]

theorem lineEnd_stray {c : UInt8} (hc : c ≠ LF) (p : Parse Unit) :
    (lineEnd p ⟨pos, CR :: c :: xs, out⟩).1 = .error .malformed := by
  simp [lineEnd, expectChar, bind_apply, hc]

theorem lineEnd_other {c : UInt8} (hcr : c ≠ CR) (hlf : c ≠ LF) (p : Parse Unit) :
    lineEnd p ⟨pos, c :: xs, out⟩ = p ⟨pos, c :: xs, out⟩ := by
  simp [lineEnd, bind_apply, hcr, hlf]

theorem eol_cases (xs : List UInt8) :
    xs = [] ∨ xs = [CR] ∨ (∃ e ys, Eol e ∧ xs = e ++ ys) ∨
      (∃ c ys, c ≠ LF ∧ xs = CR :: c :: ys) ∨ ∃ c ys, c ≠ CR ∧ c ≠ LF ∧ xs = c :: ys := by
  rcases xs with _ | ⟨c, xs⟩
  · exact .inl rfl
  · by_cases hcr : c = CR
    · subst hcr
      rcases xs with _ | ⟨d, xs⟩
      · exact .inr (.inl rfl)
      · by_cases hd : d = LF
        · subst hd
          exact .inr (.inr (.inl ⟨_, xs, .crlf, rfl⟩))
        · exact .inr (.inr (.inr (.inl ⟨d, xs, hd, rfl⟩)))
    · by_cases hlf : c = LF
      · subst hlf
        exact .inr (.inr (.inl ⟨_, xs, .lf, rfl⟩))
      · exact .inr (.inr (.inr (.inr ⟨c, xs, hcr, hlf, rfl⟩)))

theorem tokenMove_halt {c : UInt8} (h : tokenMove c = .halt) : c = SP := by
  by_contra hc
  simp only [tokenMove, hc, if_false] at h
  split at h <;> cases h

theorem tokenMove_space : tokenMove SP = .halt := by decide

theorem IsToken.ne_space {t : List UInt8} (ht : IsToken t) : ∀ c ∈ t, c ≠ SP := by
  rintro c hc rfl
  exact absurd (ht SP hc) (by rw [tokenMove_space]; decide)

theorem Lead.ne_space {l : List UInt8} (hl : Lead l) : ∀ c ∈ l, c ≠ SP := by
  rcases hl with rfl | he
  · simp
  · cases he <;> simp [SP, CR, LF]

theorem advanceToken_waits {t : List UInt8} (ht : IsToken t) :
    (advanceToken ⟨pos, t, out⟩).1 = .error .incomplete := by
  simp [advanceToken, bind_apply, scan_waits ht]

theorem advanceToken_read {t : List UInt8} (ht : IsToken t) :
    advanceToken ⟨pos, t ++ SP :: xs, out⟩ =
      (.ok ⟨pos, t.length⟩, ⟨pos + t.length, SP :: xs, out⟩) := by
  simp [advanceToken, bind_apply, scan_halts ht tokenMove_space]

theorem token_cases (xs : List UInt8) :
    IsToken xs ∨ (∃ t ys, IsToken t ∧ xs = t ++ SP :: ys) ∨
      ∀ pos out, (advanceToken ⟨pos, xs, out⟩).1 = .error .malformed := by
  rcases span_cases tokenMove xs with h | ⟨t, c, ys, hxs, ht, hc⟩ | h
  · exact .inl h
  · obtain rfl := tokenMove_halt hc
    exact .inr (.inl ⟨t, ys, ht, hxs⟩)
  · refine .inr (.inr fun pos out => ?_)
    simp [advanceToken, bind_apply, scan_error (s := ⟨pos, xs, out⟩) h]

theorem tokenMove_plain {c : UInt8} (hc : tokenMove c ≠ .bad) : c ≠ CR ∧ c ≠ LF := by
  constructor
  · rintro rfl
    exact hc (by decide)
  · rintro rfl
    exact hc (by decide)

theorem lead_read {l : List UInt8} (hl : Lead l) {c : UInt8} (hc : tokenMove c ≠ .bad) :
    lineEnd (pure ()) ⟨pos, l ++ c :: xs, out⟩ = (.ok (), ⟨pos + l.length, c :: xs, out⟩) := by
  rcases hl with rfl | he
  · exact lineEnd_other (tokenMove_plain hc).1 (tokenMove_plain hc).2 _
  · exact lineEnd_eol he _

theorem parseMethodPath_of_method {m : List UInt8} (hm : IsToken m) :
    (parseMethodPath ⟨pos, m, out⟩).1 = .error .incomplete :=
  fst_bind_error (advanceToken_waits hm)

theorem parseMethodPath_of_path {m t : List UInt8} (hm : IsToken m) (ht : IsToken t) :
    (parseMethodPath ⟨pos, m ++ SP :: t, out⟩).1 = .error .incomplete := by
  rw [parseMethodPath, bind_ok (advanceToken_read hm), bind_ok (setOutput_apply _ _),
    bind_ok (advance_cons _ _ _ _)]
  exact fst_bind_error (advanceToken_waits ht)

theorem parseMethodPath_read {m t : List UInt8} (hm : IsToken m) (ht : IsToken t) :
    parseMethodPath ⟨pos, m ++ SP :: (t ++ SP :: xs), out⟩ =
      (.ok (), ⟨pos + m.length + 1 + t.length + 1, xs,
        { out with method := some ⟨pos, m.length⟩,
                   path := some ⟨pos + m.length + 1, t.length⟩ }⟩) := by
  rw [parseMethodPath, bind_ok (advanceToken_read hm)]
  simp [bind_apply, advanceToken_read ht]

theorem parseMethodPath_cases (xs : List UInt8) :
    IsToken xs ∨ (∃ m t, IsToken m ∧ IsToken t ∧ xs = m ++ SP :: t) ∨
      (∃ m t ys, IsToken m ∧ IsToken t ∧ xs = m ++ SP :: (t ++ SP :: ys)) ∨
      ∀ pos out, (parseMethodPath ⟨pos, xs, out⟩).1 = .error .malformed := by
  rcases token_cases xs with h | ⟨m, ys, hm, rfl⟩ | h
  · exact .inl h
  · rcases token_cases ys with h | ⟨t, zs, ht, rfl⟩ | h
    · exact .inr (.inl ⟨m, ys, hm, h, rfl⟩)
    · exact .inr (.inr (.inl ⟨m, t, zs, hm, ht, rfl⟩))
    · refine .inr (.inr (.inr fun pos out => ?_))
      rw [parseMethodPath, bind_ok (advanceToken_read hm), bind_ok (setOutput_apply _ _),
        bind_ok (advance_cons _ _ _ _)]
      exact fst_bind_error (h _ _)
  · exact .inr (.inr (.inr fun pos out => fst_bind_error (h pos out)))

theorem parseTarget_of_open (h : OpenTarget xs) :
    (parseTarget ⟨pos, xs, out⟩).1 = .error .incomplete := by
  cases h with
  | cr => simp [parseTarget, bind_apply, lineEnd_cr]
  | @method l m hl hm =>
    rcases m with _ | ⟨c, cs⟩
    · rcases hl with rfl | he
      · simp [parseTarget, bind_apply, lineEnd_nil]
      · rw [parseTarget, bind_ok (lineEnd_eol he _)]
        exact parseMethodPath_of_method hm
    · rw [parseTarget, bind_ok (lead_read hl (by simp [hm c (by simp)]))]
      exact parseMethodPath_of_method hm
  | @path l m t hl hm ht =>
    rw [parseTarget]
    rcases m with _ | ⟨c, cs⟩
    · rw [List.nil_append, bind_ok (lead_read hl (by decide))]
      exact parseMethodPath_of_path hm ht
    · rw [List.cons_append, bind_ok (lead_read hl (by simp [hm c (by simp)]))]
      exact parseMethodPath_of_path hm ht

theorem parseTarget_of_parts (pos : Nat) (out : HttpRequest) (xs : List UInt8) {l m t : List UInt8}
    (hl : Lead l) (hm : IsToken m) (ht : IsToken t) :
    parseTarget ⟨pos, l ++ (m ++ SP :: (t ++ SP :: xs)), out⟩ =
      (.ok (), ⟨pos + l.length + m.length + 1 + t.length + 1, xs,
        { out with method := some ⟨pos + l.length, m.length⟩,
                   path := some ⟨pos + l.length + m.length + 1, t.length⟩ }⟩) := by
  have hlead : lineEnd (pure ()) ⟨pos, l ++ (m ++ SP :: (t ++ SP :: xs)), out⟩ =
      (.ok (), ⟨pos + l.length, m ++ SP :: (t ++ SP :: xs), out⟩) := by
    rcases m with _ | ⟨c, cs⟩
    · exact lead_read hl (by decide)
    · exact lead_read hl (by simp [hm c (by simp)])
  rw [parseTarget, bind_ok hlead, parseMethodPath_read hm ht]

theorem parseTarget_read (pos : Nat) (out : HttpRequest) (xs : List UInt8) {q : List UInt8} (h : Target q) :
    ∃ out', parseTarget ⟨pos, q ++ xs, out⟩ = (.ok (), ⟨pos + q.length, xs, out'⟩) ∧
      out'.numHeaders = out.numHeaders ∧
      (out.Within pos → out'.Within (pos + q.length)) := by
  obtain @⟨l, m, t, hl, hm, ht⟩ := h
  refine ⟨{ out with method := some ⟨pos + l.length, m.length⟩,
                     path := some ⟨pos + l.length + m.length + 1, t.length⟩ }, ?_, rfl, ?_⟩
  · simp only [List.append_assoc, List.cons_append, List.nil_append]
    rw [parseTarget_of_parts pos out xs hl hm ht]
    simp only [List.length_append, List.length_cons, List.length_nil, Prod.mk.injEq,
      Cursor.mk.injEq, true_and, and_true]
    omega
  · intro hin
    simp only [HttpRequest.Within, HttpRequest.slices, List.mem_append, Option.mem_toList,
      Option.some.injEq, List.length_append, List.length_cons, List.length_nil] at hin ⊢
    rintro s ((rfl | rfl) | hs)
    · simp only
      omega
    · simp only
      omega
    · have hs := hin s (.inr hs)
      omega

theorem parseTarget_cases (xs : List UInt8) :
    OpenTarget xs ∨ (∃ q ys, Target q ∧ xs = q ++ ys) ∨
      ∀ pos out, (parseTarget ⟨pos, xs, out⟩).1 = .error .malformed := by
  have hlead : ∀ l ys, Lead l → (∀ pos out, lineEnd (pure ()) ⟨pos, l ++ ys, out⟩ =
      (.ok (), ⟨pos + l.length, ys, out⟩)) → xs = l ++ ys →
      OpenTarget xs ∨ (∃ q ys, Target q ∧ xs = q ++ ys) ∨
        ∀ pos out, (parseTarget ⟨pos, xs, out⟩).1 = .error .malformed := by
    intro l ys hl hread hxs
    subst hxs
    rcases parseMethodPath_cases ys with hm | ⟨m, t, hm, ht, rfl⟩ | ⟨m, t, zs, hm, ht, rfl⟩ | hbad
    · exact .inl (.method hl hm)
    · exact .inl (.path hl hm ht)
    · exact .inr (.inl ⟨_, zs, .intro hl hm ht, by simp⟩)
    · refine .inr (.inr fun pos out => ?_)
      rw [parseTarget, bind_ok (hread pos out)]
      exact hbad _ _
  rcases eol_cases xs with rfl | rfl | ⟨e, ys, he, rfl⟩ | ⟨c, ys, hc, rfl⟩ | ⟨c, ys, hcr, hlf, rfl⟩
  · exact .inl (.method (.inl rfl) (by simp [IsToken]) : OpenTarget ([] ++ []))
  · exact .inl .cr
  · exact hlead e ys (.inr he) (fun _ _ => lineEnd_eol he _) rfl
  · exact .inr (.inr fun pos out => fst_bind_error (lineEnd_stray hc _))
  · exact hlead [] (c :: ys) (.inl rfl) (fun _ _ => lineEnd_other hcr hlf _) rfl

theorem parseHttpVersion_waits (h : xs.length < 9) :
    parseHttpVersion ⟨pos, xs, out⟩ = (.error .incomplete, ⟨pos, xs, out⟩) :=
  bind_error (by simp [require, h])

theorem parseHttpVersion_read (pos : Nat) (out : HttpRequest) {v : List UInt8} (hv : Version v) (hxs : xs ≠ []) :
    ∃ out', parseHttpVersion ⟨pos, v ++ xs, out⟩ = (.ok (), ⟨pos + v.length, xs, out'⟩) ∧
      out'.numHeaders = out.numHeaders ∧
      (out.Within pos → out'.Within (pos + v.length)) := by
  obtain @⟨d, hlow, hhigh⟩ := hv
  have hlen : 0 < xs.length := List.length_pos_of_ne_nil hxs
  have hreq : ¬ xs.length + 8 < 9 := by omega
  have hlow' : ¬ d < 0x30 := UInt8.not_lt.mpr hlow
  have hhigh' : ¬ 0x39 < d := UInt8.not_lt.mpr hhigh
  refine ⟨{ out with minorVersion := (d.toNat : Int) - 0x30 }, ?_, rfl, ?_⟩
  · simp [parseHttpVersion, parseInt, require, expectChar, bind_apply, hreq, hlow', hhigh']
  · intro hin
    exact HttpRequest.Within.mono (m := pos) hin (Nat.le_add_right _ _)

theorem expectChar_next {ch : UInt8} {p : Parse Unit} (hxs : xs ≠ [])
    (h : ((expectChar ch >>= fun _ => p) ⟨pos, xs, out⟩).1 ≠ .error .malformed) :
    ∃ ys, xs = ch :: ys ∧ (p ⟨pos + 1, ys, out⟩).1 ≠ .error .malformed := by
  rcases xs with _ | ⟨c, ys⟩
  · exact absurd rfl hxs
  · by_cases hc : c = ch
    · subst hc
      refine ⟨ys, rfl, ?_⟩
      simpa [expectChar, bind_apply] using h
    · simp [expectChar, bind_apply, hc] at h

theorem parseHttpVersion_cases (xs : List UInt8) :
    xs.length < 9 ∨ (∃ v ys, Version v ∧ ys ≠ [] ∧ xs = v ++ ys) ∨
      ∀ pos out, (parseHttpVersion ⟨pos, xs, out⟩).1 = .error .malformed := by
  by_cases hlen : xs.length < 9
  · exact .inl hlen
  · refine .inr (or_iff_not_imp_right.mpr fun h => ?_)
    simp only [not_forall] at h
    obtain ⟨pos, out, h⟩ := h
    have hreq : (require 9 : Parse Unit) ⟨pos, xs, out⟩ = (.ok (), ⟨pos, xs, out⟩) := by
      simp [require, hlen]
    rw [parseHttpVersion, bind_ok hreq] at h
    have hne : ∀ {ys : List UInt8} {n : Nat}, ys.length + n = xs.length → n < 9 → ys ≠ [] := by
      rintro ys n hn h9 rfl
      simp only [List.length_nil] at hn
      omega
    obtain ⟨x1, hx1, h⟩ := expectChar_next (hne (n := 0) rfl (by omega)) h
    obtain ⟨x2, hx2, h⟩ := expectChar_next (hne (n := 1) (by simp [hx1]) (by omega)) h
    obtain ⟨x3, hx3, h⟩ := expectChar_next (hne (n := 2) (by simp [hx1, hx2]) (by omega)) h
    obtain ⟨x4, hx4, h⟩ := expectChar_next (hne (n := 3) (by simp [hx1, hx2, hx3]) (by omega)) h
    obtain ⟨x5, hx5, h⟩ :=
      expectChar_next (hne (n := 4) (by simp [hx1, hx2, hx3, hx4]) (by omega)) h
    obtain ⟨x6, hx6, h⟩ :=
      expectChar_next (hne (n := 5) (by simp [hx1, hx2, hx3, hx4, hx5]) (by omega)) h
    obtain ⟨x7, hx7, hint⟩ :=
      expectChar_next (hne (n := 6) (by simp [hx1, hx2, hx3, hx4, hx5, hx6]) (by omega)) h
    subst hx7 hx6 hx5 hx4 hx3 hx2 hx1
    rcases x7 with _ | ⟨d, ys⟩
    · simp at hlen
    · by_cases hd : d < 0x30 ∨ 0x39 < d
      · simp [parseInt, bind_apply, hd] at hint
      · rw [not_or, UInt8.not_lt, UInt8.not_lt] at hd
        refine ⟨_, ys, .intro hd.1 hd.2, ?_, rfl⟩
        rintro rfl
        simp at hlen

theorem eolMove_cr : eolMove CR = .halt := by decide

theorem eolMove_lf : eolMove LF = .halt := by decide

theorem getTokenToEol_waits {t : List UInt8} (ht : IsText t) :
    (getTokenToEol ⟨pos, t, out⟩).1 = .error .incomplete := by
  simp [getTokenToEol, bind_apply, scan_waits ht]

theorem getTokenToEol_cr {t : List UInt8} (ht : IsText t) :
    (getTokenToEol ⟨pos, t ++ [CR], out⟩).1 = .error .incomplete := by
  simp [getTokenToEol, bind_apply, scan_halts ht eolMove_cr, lineEnd_cr]

theorem getTokenToEol_read {t e : List UInt8} (ht : IsText t) (he : Eol e) :
    getTokenToEol ⟨pos, t ++ (e ++ xs), out⟩ =
      (.ok ⟨pos, t.length⟩, ⟨pos + t.length + e.length, xs, out⟩) := by
  have hscan : scan eolMove ⟨pos, t ++ (e ++ xs), out⟩ =
      (.ok t.length, ⟨pos + t.length, e ++ xs, out⟩) := by
    cases he with
    | crlf => exact scan_halts ht eolMove_cr _ _ _
    | lf => exact scan_halts ht eolMove_lf _ _ _
  simp [getTokenToEol, bind_apply, hscan, lineEnd_eol he]

theorem getTokenToEol_cases (xs : List UInt8) :
    IsText xs ∨ (∃ t, IsText t ∧ xs = t ++ [CR]) ∨
      (∃ t e ys, IsText t ∧ Eol e ∧ xs = t ++ (e ++ ys)) ∨
      ∀ pos out, (getTokenToEol ⟨pos, xs, out⟩).1 = .error .malformed := by
  rcases span_cases eolMove xs with h | ⟨t, c, ys, hxs, ht, hc⟩ | h
  · exact .inl h
  · have hread : ∀ pos out, getTokenToEol ⟨pos, xs, out⟩ =
        (lineEnd (stop .malformed) >>= fun _ => pure ⟨pos, t.length⟩)
          ⟨pos + t.length, c :: ys, out⟩ := by
      intro pos out
      simp [getTokenToEol, bind_apply, hxs, scan_halts ht hc]
    rcases eol_cases (c :: ys) with h | h | ⟨e, zs, he, h⟩ | ⟨d, zs, hd, h⟩ | ⟨d, zs, hcr, hlf, h⟩
    · cases h
    · exact .inr (.inl ⟨t, ht, by rw [hxs, h]⟩)
    · exact .inr (.inr (.inl ⟨t, e, zs, ht, he, by rw [hxs, h]⟩))
    · refine .inr (.inr (.inr fun pos out => ?_))
      rw [hread, h]
      exact fst_bind_error (lineEnd_stray hd _)
    · refine .inr (.inr (.inr fun pos out => ?_))
      rw [hread, h]
      exact fst_bind_error (by rw [lineEnd_other hcr hlf]; rfl)
  · refine .inr (.inr (.inr fun pos out => ?_))
    simp [getTokenToEol, bind_apply, scan_error (s := ⟨pos, xs, out⟩) h]

theorem nameMove_colon : nameMove 0x3a = .halt := by decide

theorem nameMove_halt {c : UInt8} (h : nameMove c = .halt) : c = 0x3a := by
  by_contra hc
  simp only [nameMove, hc, if_false] at h
  split at h <;> cases h

theorem blankMove_cases (c : UInt8) : blankMove c = .go ∨ blankMove c = .halt := by
  rw [blankMove]
  split <;> simp

theorem isText_blanks {b : List UInt8} (hb : ∀ c ∈ b, blankMove c = .go) : IsText b := by
  intro c hc
  have hblank := hb c hc
  simp only [blankMove] at hblank
  split at hblank
  · rename_i h
    simp only [Bool.or_eq_true, decide_eq_true_eq] at h
    rcases h with rfl | rfl <;> decide
  · cases hblank

theorem headerName_waits {n : List UInt8} (hn : ∀ c ∈ n, nameMove c = .go) :
    (headerName ⟨pos, n, out⟩).1 = .error .incomplete := by
  simp [headerName, bind_apply, scan_waits hn]

theorem headerName_blanks (pos : Nat) (out : HttpRequest) {n b : List UInt8} (hn : IsName n) (hb : ∀ c ∈ b, blankMove c = .go) :
    (headerName ⟨pos, n ++ 0x3a :: b, out⟩).1 = .error .incomplete := by
  simp [headerName, bind_apply, scan_halts hn.2 nameMove_colon, hn.1, scan_waits hb]

theorem headerName_read (pos : Nat) (out : HttpRequest) (xs : List UInt8) {n b : List UInt8} {c : UInt8} (hn : IsName n)
    (hb : ∀ c ∈ b, blankMove c = .go) (hc : blankMove c = .halt) :
    headerName ⟨pos, n ++ 0x3a :: (b ++ c :: xs), out⟩ =
      (.ok (some ⟨pos, n.length⟩), ⟨pos + n.length + 1 + b.length, c :: xs, out⟩) := by
  simp [headerName, bind_apply, scan_halts hn.2 nameMove_colon, hn.1, scan_halts hb hc]

theorem blanks_cases (xs : List UInt8) :
    (∀ c ∈ xs, blankMove c = .go) ∨
      ∃ b c ys, xs = b ++ c :: ys ∧ (∀ c ∈ b, blankMove c = .go) ∧ blankMove c = .halt := by
  induction xs with
  | nil => exact .inl (by simp)
  | cons c xs ih =>
    rcases blankMove_cases c with hc | hc
    · rcases ih with h | ⟨b, d, ys, hxs, hb, hd⟩
      · exact .inl (by simpa [hc] using h)
      · exact .inr ⟨c :: b, d, ys, by simp [hxs], by simpa [hc] using hb, hd⟩
    · exact .inr ⟨[], c, xs, rfl, by simp, hc⟩

theorem headerName_cases (xs : List UInt8) :
    (∀ c ∈ xs, nameMove c = .go) ∨ (∃ n ys, IsName n ∧ xs = n ++ 0x3a :: ys) ∨
      ∀ pos out, (headerName ⟨pos, xs, out⟩).1 = .error .malformed := by
  rcases span_cases nameMove xs with h | ⟨n, c, ys, hxs, hn, hc⟩ | h
  · exact .inl h
  · obtain rfl := nameMove_halt hc
    by_cases hnil : n = []
    · refine .inr (.inr fun pos out => ?_)
      have hlen : n.length = 0 := by simp [hnil]
      simp [headerName, bind_apply, hxs, scan_halts hn hc, hlen]
    · exact .inr (.inl ⟨n, ys, ⟨hnil, hn⟩, hxs⟩)
  · refine .inr (.inr fun pos out => ?_)
    simp [headerName, bind_apply, scan_error (s := ⟨pos, xs, out⟩) h]

theorem nameMove_not_blank {c : UInt8} (h : nameMove c = .go) : c ≠ SP ∧ c ≠ HT := by
  constructor
  · rintro rfl
    exact absurd h (by decide)
  · rintro rfl
    exact absurd h (by decide)

theorem parseHeader_named {c : UInt8} (hc : c ≠ SP ∧ c ≠ HT) :
    parseHeader ⟨pos, c :: xs, out⟩ = (headerName >>= headerValue) ⟨pos, c :: xs, out⟩ := by
  simp [parseHeader, bind_apply, hc.1, hc.2]

theorem parseHeader_folded {c : UInt8} (hc : c = SP ∨ c = HT) (hk : out.numHeaders ≠ 0) :
    parseHeader ⟨pos, c :: xs, out⟩ = headerValue none ⟨pos, c :: xs, out⟩ := by
  rcases hc with rfl | rfl <;> simp [parseHeader, bind_apply, hk]

theorem headerValue_read {t e : List UInt8} (ht : IsText t) (he : Eol e) (name : Option Slice) :
    headerValue name ⟨pos, t ++ (e ++ xs), out⟩ =
      (.ok (), ⟨pos + t.length + e.length, xs,
        { out with headers := out.headers ++ [⟨name, ⟨pos, t.length⟩⟩],
                   numHeaders := out.numHeaders + 1 }⟩) := by
  rw [headerValue, bind_ok (getTokenToEol_read ht he), setOutput_apply]

theorem isText_blank {c : UInt8} (hc : c = SP ∨ c = HT) {t : List UInt8} (ht : IsText t) :
    IsText (c :: t) := by
  intro d hd
  rcases List.mem_cons.mp hd with rfl | hd
  · rcases hc with rfl | rfl <;> decide
  · exact ht d hd

theorem parseHeader_name {n : List UInt8} (hn : IsName n) :
    (parseHeader ⟨pos, n, out⟩).1 = .error .incomplete := by
  rcases n with _ | ⟨c, cs⟩
  · exact absurd rfl hn.1
  · rw [parseHeader_named (nameMove_not_blank (hn.2 c (by simp)))]
    exact fst_bind_error (headerName_waits hn.2)

theorem parseHeader_after_name {n b : List UInt8} {c : UInt8} (hn : IsName n)
    (hb : ∀ c ∈ b, blankMove c = .go) (hc : blankMove c = .halt) :
    parseHeader ⟨pos, n ++ 0x3a :: (b ++ c :: xs), out⟩ =
      headerValue (some ⟨pos, n.length⟩) ⟨pos + n.length + 1 + b.length, c :: xs, out⟩ := by
  have hread := headerName_read pos out xs hn hb hc
  rcases n with _ | ⟨d, ds⟩
  · exact absurd rfl hn.1
  · rw [List.cons_append, parseHeader_named (nameMove_not_blank (hn.2 d (by simp))), ← List.cons_append,
      bind_ok hread]

theorem parseHeader_blanks {n b : List UInt8} (hn : IsName n)
    (hb : ∀ c ∈ b, blankMove c = .go) :
    (parseHeader ⟨pos, n ++ 0x3a :: b, out⟩).1 = .error .incomplete := by
  have hwaits := headerName_blanks pos out hn hb
  rcases n with _ | ⟨d, ds⟩
  · exact absurd rfl hn.1
  · rw [List.cons_append, parseHeader_named (nameMove_not_blank (hn.2 d (by simp)))]
    exact fst_bind_error hwaits

theorem parseHeader_of_text {k : Nat} {l : List UInt8} (h : Field k l)
    (hk : out.numHeaders = k) : (parseHeader ⟨pos, l, out⟩).1 = .error .incomplete := by
  cases h with
  | @named k n t hn ht =>
    rcases blanks_cases t with hb | ⟨b, c, ys, rfl, hb, hc⟩
    · exact parseHeader_blanks hn hb
    · rw [parseHeader_after_name hn hb hc]
      exact fst_bind_error (getTokenToEol_waits fun x hx => ht x (by simp [List.mem_append.mpr, hx]))
  | @folded k c t hc ht =>
    rw [parseHeader_folded hc (by omega)]
    exact fst_bind_error (getTokenToEol_waits (isText_blank hc ht))

theorem blankMove_cr : blankMove CR = .halt := by decide

theorem blankMove_lf : blankMove LF = .halt := by decide

theorem blanks_then (ys : List UInt8) {t : List UInt8} {c : UInt8} (ht : IsText t)
    (hc : blankMove c = .halt) :
    ∃ b t' d zs, t = b ++ t' ∧ (∀ c ∈ b, blankMove c = .go) ∧ blankMove d = .halt ∧ IsText t' ∧
      t' ++ c :: ys = d :: zs := by
  rcases blanks_cases t with hb | ⟨b, d, zs, rfl, hb, hd⟩
  · exact ⟨t, [], c, ys, by simp, hb, hc, by simp [IsText], rfl⟩
  · exact ⟨b, d :: zs, d, zs ++ c :: ys, rfl, hb, hd, fun x hx => ht x (List.mem_append_right b hx),
      rfl⟩

theorem parseHeader_of_cr {k : Nat} {l : List UInt8} (h : Field k l)
    (hk : out.numHeaders = k) : (parseHeader ⟨pos, l ++ [CR], out⟩).1 = .error .incomplete := by
  cases h with
  | @named k n t hn ht =>
    obtain ⟨b, t', d, zs, rfl, hb, hd, ht', hds⟩ := blanks_then [] ht blankMove_cr
    have hxs : n ++ 0x3a :: (b ++ t') ++ [CR] = n ++ 0x3a :: (b ++ d :: zs) := by
      rw [← hds]
      simp
    rw [hxs, parseHeader_after_name hn hb hd, ← hds]
    exact fst_bind_error (getTokenToEol_cr ht')
  | @folded k c t hc ht =>
    rw [List.cons_append, parseHeader_folded hc (by omega), ← List.cons_append]
    exact fst_bind_error (getTokenToEol_cr (isText_blank hc ht))

theorem parseHeader_of_open (pos : Nat) {k : Nat} (h : OpenField k xs) (hk : out.numHeaders = k) :
    (parseHeader ⟨pos, xs, out⟩).1 = .error .incomplete := by
  cases h with
  | name hn => exact parseHeader_name hn
  | text hl => exact parseHeader_of_text hl hk
  | cr hl => exact parseHeader_of_cr hl hk

def Stored (pos : Nat) (out : HttpRequest) (pos' : Nat) (out' : HttpRequest) : Prop :=
  out'.numHeaders = out.numHeaders + 1 ∧ (out.Within pos → out'.Within pos')

theorem stored {stop : Nat} {name : Option Slice} {value : Slice} (hstart : pos ≤ stop)
    (hname : ∀ s ∈ name, s.start + s.len ≤ stop) (hvalue : value.start + value.len ≤ stop) :
    Stored pos out stop
      { out with headers := out.headers ++ [⟨name, value⟩], numHeaders := out.numHeaders + 1 } := by
  refine ⟨rfl, fun hin s hs => ?_⟩
  simp only [HttpRequest.slices, List.flatMap_append, List.flatMap_cons, List.flatMap_nil,
    List.append_nil, PhrHeader.slices, List.mem_append, Option.mem_toList, List.mem_singleton] at hs
  rcases hs with hs | hs | hs | rfl
  · have hs' : s ∈ out.slices := by
      simp only [HttpRequest.slices, List.mem_append, Option.mem_toList]
      exact .inl hs
    exact Nat.le_trans (hin s hs') hstart
  · exact Nat.le_trans (hin s (List.mem_append_right _ hs)) hstart
  · exact hname s hs
  · exact hvalue

theorem parseHeader_read (pos : Nat) (xs : List UInt8) {k : Nat} {l e : List UInt8} (h : Field k l) (he : Eol e)
    (hk : out.numHeaders = k) :
    ∃ out', parseHeader ⟨pos, l ++ (e ++ xs), out⟩ =
      (.ok (), ⟨pos + (l.length + e.length), xs, out'⟩) ∧
      Stored pos out (pos + (l.length + e.length)) out' := by
  cases h with
  | @named k n t hn ht =>
    have hstart : ∃ c ys, e ++ xs = c :: ys ∧ blankMove c = .halt := by
      cases he with
      | crlf => exact ⟨CR, LF :: xs, rfl, blankMove_cr⟩
      | lf => exact ⟨LF, xs, rfl, blankMove_lf⟩
    obtain ⟨c, ys, hys, hc⟩ := hstart
    obtain ⟨b, t', d, zs, rfl, hb, hd, ht', hds⟩ := blanks_then ys ht hc
    have hxs : n ++ 0x3a :: (b ++ t') ++ (e ++ xs) = n ++ 0x3a :: (b ++ d :: zs) := by
      rw [← hds, ← hys]
      simp
    rw [hxs, parseHeader_after_name hn hb hd, ← hds, ← hys, headerValue_read ht' he]
    have hlen : pos + ((n ++ 0x3a :: (b ++ t')).length + e.length) =
        pos + n.length + 1 + b.length + t'.length + e.length := by
      simp only [List.length_append, List.length_cons]
      omega
    rw [hlen]
    refine ⟨_, rfl, stored (by omega) ?_ (by simp only; omega)⟩
    intro s hs
    obtain rfl := Option.mem_some_iff.mp hs
    simp only
    omega
  | @folded k c t hc ht =>
    rw [List.cons_append, parseHeader_folded hc (by omega), ← List.cons_append,
      headerValue_read (isText_blank hc ht) he, Nat.add_assoc]
    exact ⟨_, rfl, stored (by omega) (by simp) (by simp only; omega)⟩

theorem folded_cases (k : Nat) {c : UInt8} (hc : c = SP ∨ c = HT) (xs : List UInt8) :
    OpenField (k + 1) (c :: xs) ∨
      (∃ l e ys, Field (k + 1) l ∧ Eol e ∧ c :: xs = l ++ (e ++ ys)) ∨
      ∀ pos out, (getTokenToEol ⟨pos, c :: xs, out⟩).1 = .error .malformed := by
  have htail : ∀ {t}, IsText (c :: t) → IsText t := fun ht x hx => ht x (List.mem_cons_of_mem c hx)
  have hplain : c ≠ CR ∧ c ≠ LF := by
    rcases hc with rfl | rfl <;> decide
  rcases getTokenToEol_cases (c :: xs) with ht | ⟨t, ht, h⟩ | ⟨t, e, ys, ht, he, h⟩ | hbad
  · exact .inl (.text (.folded hc (htail ht)))
  · rcases t with _ | ⟨d, t⟩
    · exact absurd (List.head_eq_of_cons_eq h) hplain.1
    · obtain ⟨rfl, hxs⟩ := List.cons.inj h
      rw [h]
      exact .inl (.cr (.folded hc (htail ht)))
  · rcases t with _ | ⟨d, t⟩
    · cases he with
      | crlf => exact absurd (List.head_eq_of_cons_eq h) hplain.1
      | lf => exact absurd (List.head_eq_of_cons_eq h) hplain.2
    · obtain ⟨rfl, hxs⟩ := List.cons.inj h
      exact .inr (.inl ⟨_, e, ys, .folded hc (htail ht), he, h⟩)
  · exact .inr (.inr hbad)

theorem named_cases (k : Nat) {n : List UInt8} (hn : IsName n) (ys : List UInt8) :
    OpenField k (n ++ 0x3a :: ys) ∨
      (∃ l e zs, Field k l ∧ Eol e ∧ n ++ 0x3a :: ys = l ++ (e ++ zs)) ∨
      ∀ pos out, (parseHeader ⟨pos, n ++ 0x3a :: ys, out⟩).1 = .error .malformed := by
  rcases blanks_cases ys with hb | ⟨b, d, zs, rfl, hb, hd⟩
  · exact .inl (.text (.named hn (isText_blanks hb)))
  · have happ : ∀ {t : List UInt8}, IsText t → IsText (b ++ t) := by
      intro t ht x hx
      rcases List.mem_append.mp hx with hx | hx
      · exact isText_blanks hb x hx
      · exact ht x hx
    rcases getTokenToEol_cases (d :: zs) with ht | ⟨t, ht, h⟩ | ⟨t, e, ys, ht, he, h⟩ | hbad
    · exact .inl (.text (.named hn (happ ht)))
    · have hl : n ++ 0x3a :: (b ++ d :: zs) = (n ++ 0x3a :: (b ++ t)) ++ [CR] := by
        rw [h]
        simp
      rw [hl]
      exact .inl (.cr (.named hn (happ ht)))
    · refine .inr (.inl ⟨_, e, ys, .named hn (happ ht), he, ?_⟩)
      rw [h]
      simp
    · refine .inr (.inr fun pos out => ?_)
      rw [parseHeader_after_name hn hb hd]
      exact fst_bind_error (hbad _ _)

theorem parseHeader_cases (k : Nat) (c : UInt8) (xs : List UInt8) :
    OpenField k (c :: xs) ∨ (∃ l e ys, Field k l ∧ Eol e ∧ c :: xs = l ++ (e ++ ys)) ∨
      ∀ pos out, out.numHeaders = k →
        (parseHeader ⟨pos, c :: xs, out⟩).1 = .error .malformed := by
  by_cases hfold : k ≠ 0 ∧ (c = SP ∨ c = HT)
  · obtain ⟨k, rfl⟩ := Nat.exists_eq_succ_of_ne_zero hfold.1
    rcases folded_cases k hfold.2 xs with h | h | hbad
    · exact .inl h
    · exact .inr (.inl h)
    · refine .inr (.inr fun pos out hk => ?_)
      rw [parseHeader_folded hfold.2 (by omega)]
      exact fst_bind_error (hbad _ _)
  · rcases headerName_cases (c :: xs) with hn | ⟨n, ys, hn, h⟩ | hbad
    · exact .inl (.name ⟨by simp, hn⟩)
    · rw [h]
      rcases named_cases k hn ys with h | h | hbad
      · exact .inl h
      · exact .inr (.inl h)
      · exact .inr (.inr fun pos out _ => hbad pos out)
    · refine .inr (.inr fun pos out hk => ?_)
      have hif : ¬ (out.numHeaders ≠ 0 ∧ (c = SP ∨ c = HT)) := by rwa [hk]
      have hname : parseHeader ⟨pos, c :: xs, out⟩ =
          (headerName >>= headerValue) ⟨pos, c :: xs, out⟩ := by
        simp only [parseHeader, bind_apply, current_cons, output_apply, Bool.and_eq_true,
          decide_eq_true_eq, Bool.or_eq_true, hif, if_false]
      rw [hname]
      exact fst_bind_error (hbad _ _)

theorem Field.start {k : Nat} {l : List UInt8} (h : Field k l) :
    ∃ c cs, c ≠ CR ∧ c ≠ LF ∧ l = c :: cs := by
  cases h with
  | @named k n t hn ht =>
    rcases n with _ | ⟨c, cs⟩
    · exact absurd rfl hn.1
    · have hc := hn.2 c (by simp)
      refine ⟨c, cs ++ 0x3a :: t, ?_, ?_, rfl⟩
      · rintro rfl
        exact absurd hc (by decide)
      · rintro rfl
        exact absurd hc (by decide)
  | @folded k c t hc ht =>
    rcases hc with rfl | rfl
    · exact ⟨SP, t, by decide, by decide, rfl⟩
    · exact ⟨HT, t, by decide, by decide, rfl⟩

theorem OpenField.start {k : Nat} {l : List UInt8} (h : OpenField k l) :
    ∃ c cs, c ≠ CR ∧ c ≠ LF ∧ l = c :: cs := by
  cases h with
  | name hn =>
    obtain ⟨c, cs, hcr, hlf, hl⟩ := (Field.named (k := k) hn (t := []) (by simp [IsText])).start
    rcases l with _ | ⟨d, ds⟩
    · exact absurd rfl hn.1
    · obtain ⟨rfl, -⟩ := List.cons.inj hl
      exact ⟨d, ds, hcr, hlf, rfl⟩
  | text hl => exact hl.start
  | cr hl =>
    obtain ⟨c, cs, hcr, hlf, rfl⟩ := hl.start
    exact ⟨c, cs ++ [CR], hcr, hlf, rfl⟩

theorem parseHeaders_nil (room : Nat) :
    (parseHeaders room ⟨pos, [], out⟩).1 = .error .incomplete := by
  cases room <;> rw [parseHeaders, lineEnd_nil]

theorem parseHeaders_cr (room : Nat) :
    (parseHeaders room ⟨pos, [CR], out⟩).1 = .error .incomplete := by
  cases room <;> rw [parseHeaders, lineEnd_cr]

theorem parseHeaders_eol (room : Nat) {e : List UInt8} (he : Eol e) :
    parseHeaders room ⟨pos, e ++ xs, out⟩ = (.ok (), ⟨pos + e.length, xs, out⟩) := by
  cases room <;> rw [parseHeaders, lineEnd_eol he]

theorem parseHeaders_other {c : UInt8} (hcr : c ≠ CR) (hlf : c ≠ LF) (room : Nat) :
    parseHeaders (room + 1) ⟨pos, c :: xs, out⟩ =
      (parseHeader >>= fun _ => parseHeaders room) ⟨pos, c :: xs, out⟩ := by
  rw [parseHeaders, lineEnd_other hcr hlf]

theorem parseHeaders_full {c : UInt8} (hcr : c ≠ CR) (hlf : c ≠ LF) :
    (parseHeaders 0 ⟨pos, c :: xs, out⟩).1 = .error .malformed := by
  rw [parseHeaders, lineEnd_other hcr hlf, stop_apply]

theorem parseHeaders_field (pos : Nat) {k : Nat} {l e : List UInt8} (hl : Field k l) (he : Eol e)
    (hk : out.numHeaders = k) (xs : List UInt8) :
    ∃ out', Stored pos out (pos + (l.length + e.length)) out' ∧
      ∀ room, parseHeaders (room + 1) ⟨pos, l ++ (e ++ xs), out⟩ =
        parseHeaders room ⟨pos + (l.length + e.length), xs, out'⟩ := by
  obtain ⟨out', hread, hk'⟩ := parseHeader_read pos xs hl he hk
  obtain ⟨c, cs, hcr, hlf, rfl⟩ := hl.start
  refine ⟨out', hk', fun room => ?_⟩
  rw [List.cons_append] at hread ⊢
  rw [parseHeaders_other hcr hlf, bind_ok hread]

theorem parseHeaders_of_open {k room : Nat} (h : OpenFields k room xs)
    (hk : out.numHeaders = k) : (parseHeaders room ⟨pos, xs, out⟩).1 = .error .incomplete := by
  induction h generalizing pos out with
  | done => exact parseHeaders_nil _
  | cr => exact parseHeaders_cr _
  | line hl =>
    have hopen := parseHeader_of_open pos hl hk
    obtain ⟨c, cs, hcr, hlf, rfl⟩ := hl.start
    rw [parseHeaders_other hcr hlf]
    exact fst_bind_error hopen
  | more hl he hls ih =>
    obtain ⟨out', hst, heq⟩ := parseHeaders_field _ hl he hk _
    rw [heq]
    exact ih (by rw [hst.1, hk])

/-- The result does not depend on the limit, as long as the headers fit. -/
theorem parseHeaders_read (pos : Nat) (xs : List UInt8) {k n : Nat} {ls e : List UInt8} (h : Fields k n ls) (he : Eol e)
    (hk : out.numHeaders = k) :
    ∃ out', out'.numHeaders = k + n ∧
      (out.Within pos → out'.Within (pos + (ls.length + e.length))) ∧
      ∀ room, n ≤ room → parseHeaders room ⟨pos, ls ++ (e ++ xs), out⟩ =
        (.ok (), ⟨pos + (ls.length + e.length), xs, out'⟩) := by
  induction h generalizing pos out with
  | none =>
    refine ⟨out, hk, fun hin => hin.mono (Nat.le_add_right _ _), fun room _ => ?_⟩
    simpa using parseHeaders_eol room he
  | @more k n l e' ls hl he' hls ih =>
    obtain ⟨out', hst, heq⟩ := parseHeaders_field pos hl he' hk (ls ++ (e ++ xs))
    obtain ⟨out'', hk'', hin'', hread⟩ :=
      ih (pos + (l.length + e'.length)) (by rw [hst.1, hk])
    have hlen : pos + ((l ++ (e' ++ ls)).length + e.length) =
        pos + (l.length + e'.length) + (ls.length + e.length) := by
      simp only [List.length_append]
      omega
    rw [hlen]
    refine ⟨out'', by omega, fun hin => hin'' (hst.2 hin), fun room hroom => ?_⟩
    obtain ⟨room, rfl⟩ := Nat.exists_eq_succ_of_ne_zero (n := room) (by omega)
    simp only [List.append_assoc]
    rw [heq, hread room (by omega)]

theorem parseHeaders_of_many {k n room : Nat} {ls : List UInt8} (h : Fields k n ls)
    (hk : out.numHeaders = k) (hroom : room < n) :
    (parseHeaders room ⟨pos, ls ++ xs, out⟩).1 = .error .malformed := by
  induction h generalizing pos out room with
  | none => omega
  | @more k n l e' ls hl he' hls ih =>
    rw [List.append_assoc, List.append_assoc]
    cases room with
    | zero =>
      obtain ⟨c, cs, hcr, hlf, rfl⟩ := hl.start
      exact parseHeaders_full hcr hlf
    | succ room =>
      obtain ⟨out', hst, heq⟩ := parseHeaders_field pos hl he' hk (ls ++ xs)
      rw [heq]
      exact ih (by rw [hst.1, hk]) (by omega)

theorem parseHeaders_cases (k room : Nat) (xs : List UInt8) :
    OpenFields k room xs ∨
      (∃ n ls e ys, Fields k n ls ∧ Eol e ∧ n ≤ room ∧ xs = ls ++ (e ++ ys)) ∨
      ∀ pos out, out.numHeaders = k →
        (parseHeaders room ⟨pos, xs, out⟩).1 = .error .malformed := by
  induction room generalizing k xs with
  | zero =>
    rcases eol_cases xs with rfl | rfl | ⟨e, ys, he, rfl⟩ | ⟨c, ys, hc, rfl⟩ |
      ⟨c, ys, hcr, hlf, rfl⟩
    · exact .inl .done
    · exact .inl .cr
    · exact .inr (.inl ⟨0, [], e, ys, .none, he, Nat.le_refl 0, rfl⟩)
    · exact .inr (.inr fun pos out _ => lineEnd_stray hc _)
    · exact .inr (.inr fun pos out _ => parseHeaders_full hcr hlf)
  | succ room ih =>
    rcases eol_cases xs with rfl | rfl | ⟨e, ys, he, rfl⟩ | ⟨c, ys, hc, rfl⟩ |
      ⟨c, ys, hcr, hlf, rfl⟩
    · exact .inl .done
    · exact .inl .cr
    · exact .inr (.inl ⟨0, [], e, ys, .none, he, Nat.zero_le _, rfl⟩)
    · exact .inr (.inr fun pos out _ => lineEnd_stray hc _)
    · rcases parseHeader_cases k c ys with h | ⟨l, e, zs, hl, he, h⟩ | hbad
      · exact .inl (.line h)
      · rw [h]
        rcases ih (k + 1) zs with hopen | ⟨n, ls, e', ws, hls, he', hn, rfl⟩ | hbad
        · exact .inl (.more hl he hopen)
        · exact .inr (.inl ⟨n + 1, _, e', ws, .more hl he hls, he', by omega, by simp⟩)
        · refine .inr (.inr fun pos out hk => ?_)
          obtain ⟨out', hst, heq⟩ := parseHeaders_field pos hl he hk zs
          rw [heq]
          exact hbad _ _ (by rw [hst.1, hk])
      · refine .inr (.inr fun pos out hk => ?_)
        rw [parseHeaders_other hcr hlf]
        exact fst_bind_error (hbad pos out hk)

def parseFromVersion (room : Nat) : Parse Unit := do
  parseHttpVersion
  lineEnd (stop .malformed)
  parseHeaders room

theorem parseRequest_of_target (pos : Nat) {q : List UInt8} (h : Target q) (hk : out.numHeaders = 0)
    (xs : List UInt8) :
    ∃ out', out'.numHeaders = 0 ∧ (out.Within pos → out'.Within (pos + q.length)) ∧
      ∀ room, parseRequest room ⟨pos, q ++ xs, out⟩ =
        parseFromVersion room ⟨pos + q.length, xs, out'⟩ := by
  obtain ⟨out', hread, hk', hin⟩ := parseTarget_read pos out xs h
  exact ⟨out', hk'.trans hk, hin, fun room => by rw [parseRequest, bind_ok hread]; rfl⟩

theorem parseFromVersion_of_version (pos : Nat) {v : List UInt8} (hv : Version v) (hk : out.numHeaders = 0)
    (hxs : xs ≠ []) :
    ∃ out', out'.numHeaders = 0 ∧ (out.Within pos → out'.Within (pos + v.length)) ∧
      ∀ room, parseFromVersion room ⟨pos, v ++ xs, out⟩ =
        (lineEnd (stop .malformed) >>= fun _ => parseHeaders room) ⟨pos + v.length, xs, out'⟩ := by
  obtain ⟨out', hread, hk', hin⟩ := parseHttpVersion_read pos out hv hxs
  exact ⟨out', hk'.trans hk, hin, fun room => by rw [parseFromVersion, bind_ok hread]⟩

theorem Eol.append_ne_nil {e : List UInt8} (he : Eol e) (xs : List UInt8) : e ++ xs ≠ [] := by
  cases he <;> simp

theorem parseFromVersion_of_line (pos : Nat) {v e : List UInt8} (hv : Version v) (he : Eol e)
    (hk : out.numHeaders = 0) (xs : List UInt8) :
    ∃ out', out'.numHeaders = 0 ∧
      (out.Within pos → out'.Within (pos + (v.length + e.length))) ∧
      ∀ room, parseFromVersion room ⟨pos, v ++ (e ++ xs), out⟩ =
        parseHeaders room ⟨pos + (v.length + e.length), xs, out'⟩ := by
  obtain ⟨out', hk', hin, heq⟩ :=
    parseFromVersion_of_version pos hv hk (he.append_ne_nil xs)
  refine ⟨out', hk', fun h => (hin h).mono (by omega), fun room => ?_⟩
  rw [heq room, bind_ok (lineEnd_eol he _), Nat.add_assoc]

theorem parseRequest_of_version (pos : Nat) (out : HttpRequest) {q w : List UInt8} (hq : Target q) (hw : w.length < 9)
    (hk : out.numHeaders = 0) (room : Nat) :
    (parseRequest room ⟨pos, q ++ w, out⟩).1 = .error .incomplete ∧
      (parseRequest room ⟨pos, q ++ w, out⟩).2.out.numHeaders = 0 := by
  obtain ⟨out', hk', hin, heq⟩ := parseRequest_of_target pos hq hk w
  rw [heq, parseFromVersion, bind_error (parseHttpVersion_waits hw)]
  exact ⟨rfl, hk'⟩

theorem parseRequest_of_open (pos : Nat) (out : HttpRequest) {room : Nat} (h : OpenHead room xs) (hk : out.numHeaders = 0) :
    (parseRequest room ⟨pos, xs, out⟩).1 = .error .incomplete := by
  cases h with
  | target hq => exact fst_bind_error (parseTarget_of_open hq)
  | version hq hw => exact (parseRequest_of_version _ _ hq hw hk room).1
  | cr hq hv =>
    obtain ⟨out', hk', -, heq⟩ := parseRequest_of_target pos hq hk _
    obtain ⟨out'', -, -, heq'⟩ := parseFromVersion_of_version _ hv hk' (List.cons_ne_nil CR [])
    rw [heq, heq']
    exact fst_bind_error (by rw [lineEnd_cr])
  | fields hq hv he hls =>
    obtain ⟨out', hk', -, heq⟩ := parseRequest_of_target pos hq hk _
    obtain ⟨out'', hk'', -, heq'⟩ := parseFromVersion_of_line _ hv he hk' _
    rw [heq, heq']
    exact parseHeaders_of_open hls hk''

theorem parseRequest_read (pos : Nat) (out : HttpRequest) (xs : List UInt8) {n : Nat} {b : List UInt8} (h : Head n b) (hk : out.numHeaders = 0) :
    ∃ out', out'.numHeaders = n ∧ (out.Within pos → out'.Within (pos + b.length)) ∧
      ∀ room, n ≤ room → parseRequest room ⟨pos, b ++ xs, out⟩ =
        (.ok (), ⟨pos + b.length, xs, out'⟩) := by
  obtain @⟨q, v, e, ls, e', hq, hv, he, hls, he'⟩ := h
  obtain ⟨out1, hk1, hin1, heq1⟩ :=
    parseRequest_of_target pos hq hk (v ++ (e ++ (ls ++ (e' ++ xs))))
  obtain ⟨out2, hk2, hin2, heq2⟩ :=
    parseFromVersion_of_line (pos + q.length) hv he hk1 (ls ++ (e' ++ xs))
  obtain ⟨out3, hk3, hin3, heq3⟩ :=
    parseHeaders_read (pos + q.length + (v.length + e.length)) xs hls he' hk2
  have hlen : pos + (q ++ (v ++ (e ++ (ls ++ e')))).length =
      pos + q.length + (v.length + e.length) + (ls.length + e'.length) := by
    simp only [List.length_append]
    omega
  rw [hlen]
  refine ⟨out3, by omega, fun hin => hin3 (hin2 (hin1 hin)), fun room hroom => ?_⟩
  simp only [List.append_assoc]
  rw [heq1, heq2, heq3 room hroom]

theorem parseRequest_of_many (pos : Nat) (out : HttpRequest) (xs : List UInt8) {n room : Nat} {b : List UInt8} (h : Head n b)
    (hk : out.numHeaders = 0) (hroom : room < n) :
    (parseRequest room ⟨pos, b ++ xs, out⟩).1 = .error .malformed := by
  obtain @⟨q, v, e, ls, e', hq, hv, he, hls, he'⟩ := h
  simp only [List.append_assoc]
  obtain ⟨out1, hk1, -, heq1⟩ :=
    parseRequest_of_target pos hq hk (v ++ (e ++ (ls ++ (e' ++ xs))))
  obtain ⟨out2, hk2, -, heq2⟩ :=
    parseFromVersion_of_line (pos + q.length) hv he hk1 (ls ++ (e' ++ xs))
  rw [heq1, heq2]
  exact parseHeaders_of_many hls hk2 hroom

theorem parseRequest_cases (room : Nat) (xs : List UInt8) :
    OpenHead room xs ∨ (∃ n b ys, Head n b ∧ n ≤ room ∧ xs = b ++ ys) ∨
      ∀ pos out, out.numHeaders = 0 →
        (parseRequest room ⟨pos, xs, out⟩).1 = .error .malformed := by
  rcases parseTarget_cases xs with hq | ⟨q, ys, hq, rfl⟩ | hbad
  · exact .inl (.target hq)
  · rcases parseHttpVersion_cases ys with hw | ⟨v, zs, hv, hzs, rfl⟩ | hbad
    · exact .inl (.version hq hw)
    · have hmalformed : (∀ pos out, (lineEnd (stop .malformed) ⟨pos, zs, out⟩).1 =
            .error .malformed) → ∀ pos (out : HttpRequest), out.numHeaders = 0 →
          (parseRequest room ⟨pos, q ++ (v ++ zs), out⟩).1 = .error .malformed := by
        intro hbad pos out hk
        obtain ⟨out1, hk1, -, heq1⟩ := parseRequest_of_target pos hq hk (v ++ zs)
        obtain ⟨out2, -, -, heq2⟩ := parseFromVersion_of_version (pos + q.length) hv hk1 hzs
        rw [heq1, heq2]
        exact fst_bind_error (hbad _ _)
      rcases eol_cases zs with rfl | rfl | ⟨e, ws, he, rfl⟩ | ⟨c, ws, hc, rfl⟩ |
        ⟨c, ws, hcr, hlf, rfl⟩
      · exact absurd rfl hzs
      · exact .inl (.cr hq hv)
      · rcases parseHeaders_cases 0 room ws with hls | ⟨n, ls, e', us, hls, he', hn, rfl⟩ | hbad
        · exact .inl (.fields hq hv he hls)
        · exact .inr (.inl ⟨n, _, us, .intro hq hv he hls he', hn, by simp⟩)
        · refine .inr (.inr fun pos out hk => ?_)
          obtain ⟨out1, hk1, -, heq1⟩ := parseRequest_of_target pos hq hk (v ++ (e ++ ws))
          obtain ⟨out2, hk2, -, heq2⟩ :=
            parseFromVersion_of_line (pos + q.length) hv he hk1 ws
          rw [heq1, heq2]
          exact hbad _ _ hk2
      · exact .inr (.inr (hmalformed fun pos out => lineEnd_stray hc _))
      · exact .inr (.inr (hmalformed fun pos out => by rw [lineEnd_other hcr hlf, stop_apply]))
    · refine .inr (.inr fun pos out hk => ?_)
      obtain ⟨out1, hk1, -, heq1⟩ := parseRequest_of_target pos hq hk ys
      rw [heq1]
      exact fst_bind_error (hbad _ _)
  · exact .inr (.inr fun pos out _ => fst_bind_error (hbad pos out))

theorem parseRequest_incomplete_iff (pos : Nat) (out : HttpRequest) {room : Nat} (hk : out.numHeaders = 0) :
    (parseRequest room ⟨pos, xs, out⟩).1 = .error .incomplete ↔ OpenHead room xs := by
  refine ⟨fun h => ?_, fun h => parseRequest_of_open _ _ h hk⟩
  rcases parseRequest_cases room xs with hopen | ⟨n, b, ys, hb, hn, rfl⟩ | hbad
  · exact hopen
  · obtain ⟨out', -, -, heq⟩ := parseRequest_read pos _ ys hb hk
    rw [heq room hn] at h
    cases h
  · rw [hbad pos out hk] at h
    cases h

theorem parseRequest_eq_ok {room : Nat} {s : Cursor UInt8 HttpRequest} (hk : out.numHeaders = 0)
    (h : parseRequest room ⟨pos, xs, out⟩ = (.ok (), s)) :
    ∃ b, Head s.out.numHeaders b ∧ s.out.numHeaders ≤ room ∧ xs = b ++ s.rest ∧
      s.pos = pos + b.length ∧ (out.Within pos → s.out.Within s.pos) := by
  have hfst : (parseRequest room ⟨pos, xs, out⟩).1 = .ok () := by rw [h]
  rcases parseRequest_cases room xs with hopen | ⟨n, b, ys, hb, hn, rfl⟩ | hbad
  · rw [parseRequest_of_open _ _ hopen hk] at hfst
    cases hfst
  · obtain ⟨out', hk', hin, heq⟩ := parseRequest_read pos _ ys hb hk
    rw [heq room hn] at h
    obtain rfl := (Prod.mk.inj h).2
    exact ⟨b, by rwa [hk'], Nat.le_trans (Nat.le_of_eq hk') hn, rfl, rfl, hin⟩
  · rw [hbad pos out hk] at hfst
    cases hfst

/-! More input does not change a verdict. -/

theorem stable_expectChar (ch : UInt8) : Stable (expectChar ch) :=
  .bind .current fun _ => .ite (.stop _) .advance

theorem stable_lineEnd {p : Parse Unit} (hp : Stable p) : Stable (lineEnd p) :=
  .bind .current fun _ => .ite (.bind .advance fun _ => stable_expectChar _) (.ite .advance hp)

theorem stable_advanceToken : Stable advanceToken :=
  .bind .position fun _ => .bind (.scan _) fun _ => .pure _

theorem stable_parseTarget : Stable parseTarget :=
  .bind (stable_lineEnd (.pure _)) fun _ =>
    .bind stable_advanceToken fun _ => .bind (.setOutput _) fun _ => .bind .advance fun _ =>
      .bind stable_advanceToken fun _ => .bind (.setOutput _) fun _ => .advance

theorem stable_parseInt : Stable parseInt :=
  .bind .current fun _ => .ite (.stop _) (.bind (.setOutput _) fun _ => .advance)

theorem stable_parseHttpVersion : Stable parseHttpVersion :=
  .bind (.require _) fun _ => .bind (stable_expectChar _) fun _ =>
    .bind (stable_expectChar _) fun _ => .bind (stable_expectChar _) fun _ =>
    .bind (stable_expectChar _) fun _ => .bind (stable_expectChar _) fun _ =>
    .bind (stable_expectChar _) fun _ => .bind (stable_expectChar _) fun _ => stable_parseInt

theorem stable_headerName : Stable headerName :=
  .bind .position fun _ => .bind (.scan _) fun _ =>
    .ite (.stop _) (.bind .advance fun _ => .bind (.scan _) fun _ => .pure _)

theorem stable_headerValue (name : Option Slice) : Stable (headerValue name) :=
  .bind (.bind .position fun _ => .bind (.scan _) fun _ =>
    .bind (stable_lineEnd (.stop _)) fun _ => .pure _) fun _ => .setOutput _

theorem stable_parseHeader : Stable parseHeader :=
  .bind .current fun _ => .bind .output fun _ =>
    .ite (.bind (.pure _) fun _ => stable_headerValue _)
      (.bind stable_headerName fun _ => stable_headerValue _)

theorem stable_parseHeaders (room : Nat) : Stable (parseHeaders room) := by
  induction room with
  | zero => exact stable_lineEnd (.stop _)
  | succ room ih => exact stable_lineEnd (.bind stable_parseHeader fun _ => ih)

theorem stable_parseRequest (room : Nat) : Stable (parseRequest room) :=
  .bind stable_parseTarget fun _ => .bind stable_parseHttpVersion fun _ =>
    .bind (stable_lineEnd (.stop _)) fun _ => stable_parseHeaders room

theorem clearRequest_within (n : Nat) : clearRequest.Within n := by
  simp [HttpRequest.Within, HttpRequest.slices, clearRequest]

/-- A whole head gives the same request whatever follows it and whatever the
limit, as long as its headers fit. -/
theorem parseRequest_head {n : Nat} {b : List UInt8} (h : Head n b) :
    ∃ out, out.numHeaders = n ∧ out.Within b.length ∧ ∀ room more, n ≤ room →
      parseRequest room ⟨0, b ++ more, clearRequest⟩ = (.ok (), ⟨b.length, more, out⟩) := by
  obtain ⟨out, hk, hin, hread⟩ :=
    parseRequest_read 0 clearRequest [] h rfl
  rw [Nat.zero_add] at hin
  refine ⟨out, hk, hin (clearRequest_within 0), fun room more hroom => ?_⟩
  have hext := (stable_parseRequest room).ok (hread room hroom) more
  simpa [Cursor.extend] using hext

theorem Head.prefix_eq {n n' : Nat} {b b' : List UInt8} (h : Head n b) (h' : Head n' b')
    (hpre : b' <+: b) : b' = b := by
  obtain ⟨more, rfl⟩ := hpre
  obtain ⟨out, -, -, hread⟩ := parseRequest_head h
  obtain ⟨out', -, -, hread'⟩ := parseRequest_head h'
  have hok := hread (n + n') [] (by omega)
  rw [List.append_nil, hread' (n + n') more (by omega)] at hok
  simp only [Prod.mk.injEq, Cursor.mk.injEq, true_and] at hok
  rw [hok.2.1, List.append_nil]

/-! Without room for headers their number stays zero. -/

section Keeps

variable {τ : Type} {f : HttpRequest → τ}

theorem keeps_expectChar (ch : UInt8) : Keeps f (expectChar ch) :=
  .bind .current fun _ => .ite (.stop _) .advance

theorem keeps_lineEnd {p : Parse Unit} (hp : Keeps f p) : Keeps f (lineEnd p) :=
  .bind .current fun _ => .ite (.bind .advance fun _ => keeps_expectChar _) (.ite .advance hp)

theorem keeps_advanceToken : Keeps f advanceToken :=
  .bind .position fun _ => .bind (.scan _) fun _ => .pure _

theorem keeps_getTokenToEol : Keeps f getTokenToEol :=
  .bind .position fun _ => .bind (.scan _) fun _ => .bind (keeps_lineEnd (.stop _)) fun _ => .pure _

theorem keeps_parseHttpVersion (hf : ∀ r v, f { r with minorVersion := v } = f r) :
    Keeps f parseHttpVersion :=
  .bind (.require _) fun _ => .bind (keeps_expectChar _) fun _ =>
    .bind (keeps_expectChar _) fun _ => .bind (keeps_expectChar _) fun _ =>
    .bind (keeps_expectChar _) fun _ => .bind (keeps_expectChar _) fun _ =>
    .bind (keeps_expectChar _) fun _ => .bind (keeps_expectChar _) fun _ =>
    .bind .current fun _ => .ite (.stop _) (.bind (.setOutput fun r => hf r _) fun _ => .advance)

theorem keeps_headerName : Keeps f headerName :=
  .bind .position fun _ => .bind (.scan _) fun _ => .ite (.stop _)
    (.bind .advance fun _ => .bind (.scan _) fun _ => .pure _)

end Keeps

theorem keeps_parseTarget : Keeps HttpRequest.numHeaders parseTarget :=
  .bind (keeps_lineEnd (.pure _)) fun _ =>
    .bind keeps_advanceToken fun _ => .bind (.setOutput fun _ => rfl) fun _ =>
      .bind .advance fun _ => .bind keeps_advanceToken fun _ =>
        .bind (.setOutput fun _ => rfl) fun _ => .advance

theorem keeps_parseRequest : Keeps HttpRequest.numHeaders (parseRequest 0) :=
  .bind keeps_parseTarget fun _ => .bind (keeps_parseHttpVersion fun _ _ => rfl) fun _ =>
    .bind (keeps_lineEnd (.stop _)) fun _ => keeps_lineEnd (.stop _)

theorem keeps_parseHeaders (room : Nat) : Keeps HttpRequest.path (parseHeaders room) := by
  induction room with
  | zero => exact keeps_lineEnd (.stop _)
  | succ room ih =>
    have hvalue : ∀ name, Keeps HttpRequest.path (headerValue name) := fun name =>
      .bind keeps_getTokenToEol fun _ => .setOutput fun _ => rfl
    have hheader : Keeps HttpRequest.path parseHeader :=
      .bind .current fun _ => .bind .output fun _ =>
        .ite (.bind (.pure _) fun _ => hvalue _) (.bind keeps_headerName fun _ => hvalue _)
    exact keeps_lineEnd (.bind hheader fun _ => ih)

theorem parseTarget_path {pos : Nat} {xs : List UInt8} {out : HttpRequest}
    {s : Cursor UInt8 HttpRequest} (h : parseTarget ⟨pos, xs, out⟩ = (.ok (), s)) :
    ∃ before t ys, (∀ c ∈ before, c ≠ SP) ∧ IsToken t ∧
      xs = (before ++ [SP]) ++ (t ++ SP :: ys) ∧
      s.out.path = some ⟨pos + (before ++ [SP]).length, t.length⟩ := by
  rcases parseTarget_cases xs with hopen | ⟨q, ys, hq, rfl⟩ | hbad
  · have hwait : (parseTarget ⟨pos, xs, out⟩).1 = .error .incomplete := parseTarget_of_open hopen
    rw [h] at hwait
    cases hwait
  · obtain @⟨l, m, t, hl, hm, ht⟩ := hq
    have hparts := parseTarget_of_parts pos out ys hl hm ht
    refine ⟨l ++ m, t, ys, ?_, ht, by simp, ?_⟩
    · intro c hc
      rcases List.mem_append.mp hc with hc | hc
      · exact hl.ne_space c hc
      · exact hm.ne_space c hc
    simp only [List.append_assoc, List.cons_append, List.nil_append] at h
    rw [hparts] at h
    cases h
    simp [Nat.add_assoc]
  · have hfst := hbad pos out
    rw [h] at hfst
    cases hfst

/-- The path of a finished request is a token of the input. -/
theorem parseRequest_path {room : Nat} {xs : List UInt8} {out : HttpRequest}
    {s : Cursor UInt8 HttpRequest} (h : parseRequest room ⟨0, xs, out⟩ = (.ok (), s)) :
    ∃ before t ys, (∀ c ∈ before, c ≠ SP) ∧ IsToken t ∧
      xs = (before ++ [SP]) ++ (t ++ SP :: ys) ∧
      s.out.path = some ⟨(before ++ [SP]).length, t.length⟩ := by
  rw [parseRequest] at h
  rcases bind_cases parseTarget _ ⟨0, xs, out⟩ with ⟨a, s', htarget, hrest⟩ | ⟨e, s', -, hrest⟩
  · obtain ⟨before, t, ys, hbefore, ht, hxs, hpath⟩ := parseTarget_path htarget
    have hkeeps : Keeps HttpRequest.path (do
        parseHttpVersion
        lineEnd (stop .malformed)
        parseHeaders room) :=
      .bind (keeps_parseHttpVersion fun _ _ => rfl) fun _ =>
        .bind (keeps_lineEnd (.stop _)) fun _ => keeps_parseHeaders room
    have hkeep := hkeeps s'
    rw [hrest] at h
    rw [h] at hkeep
    refine ⟨before, t, ys, hbefore, ht, hxs, ?_⟩
    rw [hkeep, hpath, Nat.zero_add]
  · rw [hrest] at h
    cases h

end HttpParser

end Jullop
