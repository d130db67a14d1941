import Jullop.ChunkedDecoder
import Jullop.RequestHead

/-! The chunked bodies that `phr_decode_chunked` accepts, as a language of their
own, and what an application gets that hands it a stream in fragments. -/

namespace Jullop

namespace ChunkedDecoder

open Transducer

def IsHex (ds : List UInt8) : Prop := ∀ c ∈ ds, decodeHex c ≠ none

/-- The number that a line of hexadecimal digits stands for, behind digits worth
`n`. -/
def hexValue (n : Nat) (ds : List UInt8) : Nat :=
  ds.foldl (fun n c => n * 16 + (decodeHex c).getD 0) n

/-- The rest of a line with its LF. -/
def Line (l : List UInt8) : Prop := ∃ text, LF ∉ text ∧ l = text ++ [LF]

/-- The line behind the digits of a size: its first byte is none of them. -/
def Ext (l : List UInt8) : Prop := Line l ∧ ∀ c ∈ l.head?, decodeHex c = none

/-- Line feed behind any number of carriage returns. -/
def Break (e : List UInt8) : Prop := ∃ k, e = List.replicate k CR ++ [LF]

/-- Lines up to an empty one. A line begins with any number of carriage returns. -/
inductive Trailer : List UInt8 → Prop
  | last {e : List UInt8} (he : Break e) : Trailer e
  | line {k : Nat} {c : UInt8} {l ls : List UInt8} (hcr : c ≠ CR) (hlf : c ≠ LF) (hl : Line l)
      (hls : Trailer ls) : Trailer (List.replicate k CR ++ c :: (l ++ ls))

/-- A size in at most sixteen digits, with its line. -/
inductive Size : (n : Nat) → List UInt8 → Prop
  | intro {ds l : List UInt8} (hne : ds ≠ []) (hlen : ds.length ≤ 16) (hds : IsHex ds)
      (hl : Ext l) : Size (hexValue 0 ds) (ds ++ l)

/-- `Body t b out`: the bytes `b` are a chunked coding of `out`, with a trailer if
`t`. -/
inductive Body (t : Bool) : List UInt8 → List UInt8 → Prop
  | last {l e : List UInt8} (hl : Size 0 l) (he : if t then Trailer e else e = []) :
      Body t (l ++ e) []
  | chunk {l data e b out : List UInt8} (hl : Size data.length l) (hne : data ≠ [])
      (he : Break e) (hb : Body t b out) : Body t (l ++ (data ++ (e ++ b))) (data ++ out)

/-! The rest of a body from each state of the decoder. -/

/-- A word of the one language and then one of the other. -/
def Then (A P : List UInt8 → Prop) (xs : List UInt8) : Prop := ∃ a b, A a ∧ P b ∧ xs = a ++ b

def AfterCrlf (t : Bool) (xs out : List UInt8) : Prop := Then Break (Body t · out) xs

def AfterData (t : Bool) (n : Nat) (xs out : List UInt8) : Prop :=
  ∃ data ys out', data.length = n ∧ AfterCrlf t ys out' ∧ xs = data ++ ys ∧ out = data ++ out'

/-- Behind the line of a chunk of `n` bytes. -/
def AfterSize (t : Bool) (n : Nat) (xs out : List UInt8) : Prop :=
  if n = 0 then (if t then Trailer xs else xs = []) ∧ out = [] else AfterData t n xs out

def AfterExt (t : Bool) (n : Nat) (xs out : List UInt8) : Prop :=
  Then Line (AfterSize t n · out) xs

/-- Behind `k` digits worth `n`. -/
def AfterDigits (t : Bool) (k n : Nat) (xs out : List UInt8) : Prop :=
  ∃ ds ys, (k = 0 → ds ≠ []) ∧ k + ds.length ≤ 16 ∧ IsHex ds ∧
    Then Ext (AfterSize t (hexValue n ds) · out) ys ∧ xs = ds ++ ys

def Rest (d : ChunkedDecoder) (xs out : List UInt8) : Prop :=
  match d.state with
  | .inChunkSize => AfterDigits d.consumeTrailer d.hexCount d.bytesLeftInChunk xs out
  | .inChunkExt => AfterExt d.consumeTrailer d.bytesLeftInChunk xs out
  | .inChunkData => AfterData d.consumeTrailer d.bytesLeftInChunk xs out
  | .inChunkCrlf => AfterCrlf d.consumeTrailer xs out
  | .inTrailersLineHead => Trailer xs ∧ out = []
  | .inTrailersLineMiddle => Then Line Trailer xs ∧ out = []

variable {t : Bool} {c : UInt8} {xs out : List UInt8}

theorem line_cons : Line (c :: xs) ↔ c = LF ∧ xs = [] ∨ c ≠ LF ∧ Line xs := by
  constructor
  · rintro ⟨text, hlf, he⟩
    rcases text with _ | ⟨d, text⟩
    · simp only [List.nil_append, List.cons.injEq] at he
      exact .inl he
    · simp only [List.cons_append, List.cons.injEq] at he
      obtain ⟨rfl, rfl⟩ := he
      simp only [List.mem_cons, not_or] at hlf
      exact .inr ⟨fun h => hlf.1 h.symm, text, hlf.2, rfl⟩
  · rintro (⟨rfl, rfl⟩ | ⟨hc, text, hlf, rfl⟩)
    · exact ⟨[], by simp, rfl⟩
    · refine ⟨c :: text, ?_, rfl⟩
      simp only [List.mem_cons, not_or]
      exact ⟨fun h => hc h.symm, hlf⟩

theorem not_line_nil : ¬ Line [] := by
  rintro ⟨text, -, he⟩
  simp at he

theorem break_cons : Break (c :: xs) ↔ c = LF ∧ xs = [] ∨ c = CR ∧ Break xs := by
  constructor
  · rintro ⟨k, he⟩
    rcases k with _ | k
    · simp only [List.replicate_zero, List.nil_append, List.cons.injEq] at he
      exact .inl he
    · simp only [List.replicate_succ, List.cons_append, List.cons.injEq] at he
      exact .inr ⟨he.1, k, he.2⟩
  · rintro (⟨rfl, rfl⟩ | ⟨rfl, k, rfl⟩)
    · exact ⟨0, rfl⟩
    · exact ⟨k + 1, rfl⟩

theorem not_break_nil : ¬ Break [] := by
  rintro ⟨k, he⟩
  simp at he

theorem not_trailer_nil : ¬ Trailer [] := by
  intro h
  generalize he : ([] : List UInt8) = ys at h
  cases h with
  | last hb => exact not_break_nil (he ▸ hb)
  | line _ _ _ _ => simp at he

section

variable {P : List UInt8 → Prop}

theorem then_line_cons : Then Line P (c :: xs) ↔ c = LF ∧ P xs ∨ c ≠ LF ∧ Then Line P xs := by
  constructor
  · rintro ⟨_ | ⟨d, l⟩, b, hl, hb, he⟩
    · exact absurd hl not_line_nil
    · simp only [List.cons_append, List.cons.injEq] at he
      obtain ⟨rfl, rfl⟩ := he
      rcases line_cons.mp hl with ⟨hc, rfl⟩ | ⟨hc, hl⟩
      · exact .inl ⟨hc, hb⟩
      · exact .inr ⟨hc, l, b, hl, hb, rfl⟩
  · rintro (⟨hc, hp⟩ | ⟨hc, l, b, hl, hb, rfl⟩)
    · exact ⟨[c], xs, line_cons.mpr (.inl ⟨hc, rfl⟩), hp, rfl⟩
    · exact ⟨c :: l, b, line_cons.mpr (.inr ⟨hc, hl⟩), hb, rfl⟩

theorem then_break_cons : Then Break P (c :: xs) ↔ c = LF ∧ P xs ∨ c = CR ∧ Then Break P xs := by
  constructor
  · rintro ⟨_ | ⟨d, l⟩, b, hl, hb, he⟩
    · exact absurd hl not_break_nil
    · simp only [List.cons_append, List.cons.injEq] at he
      obtain ⟨rfl, rfl⟩ := he
      rcases break_cons.mp hl with ⟨hc, rfl⟩ | ⟨hc, hl⟩
      · exact .inl ⟨hc, hb⟩
      · exact .inr ⟨hc, l, b, hl, hb, rfl⟩
  · rintro (⟨hc, hp⟩ | ⟨hc, l, b, hl, hb, rfl⟩)
    · exact ⟨[c], xs, break_cons.mpr (.inl ⟨hc, rfl⟩), hp, rfl⟩
    · exact ⟨c :: l, b, break_cons.mpr (.inr ⟨hc, hl⟩), hb, rfl⟩

theorem then_ext_iff (hc : decodeHex c = none) : Then Ext P (c :: xs) ↔ Then Line P (c :: xs) := by
  constructor
  · rintro ⟨l, b, hl, hb, he⟩
    exact ⟨l, b, hl.1, hb, he⟩
  · rintro ⟨_ | ⟨d, l⟩, b, hl, hb, he⟩
    · exact absurd hl not_line_nil
    · obtain rfl : c = d := (List.cons.inj he).1
      refine ⟨c :: l, b, ⟨hl, ?_⟩, hb, he⟩
      simpa using hc

theorem not_then_ext (hc : decodeHex c ≠ none) : ¬ Then Ext P (c :: xs) := by
  rintro ⟨_ | ⟨d, l⟩, b, hl, -, he⟩
  · exact not_line_nil hl.1
  · obtain rfl : c = d := (List.cons.inj he).1
    exact hc (hl.2 c rfl)

theorem not_then_nil {A : List UInt8 → Prop} (h : ¬ A []) : ¬ Then A P [] := by
  rintro ⟨a, b, ha, -, he⟩
  rw [(List.append_eq_nil_iff.mp he.symm).1] at ha
  exact h ha

end

theorem trailer_cons :
    Trailer (c :: xs) ↔
      c = CR ∧ Trailer xs ∨ c = LF ∧ xs = [] ∨ c ≠ CR ∧ c ≠ LF ∧ Then Line Trailer xs := by
  constructor
  · intro h
    generalize he : c :: xs = ys at h
    cases h with
    | last hb =>
      rw [← he] at hb
      rcases break_cons.mp hb with h | ⟨hc, hb⟩
      · exact .inr (.inl h)
      · exact .inl ⟨hc, .last hb⟩
    | @line k d l ls hcr hlf hl hls =>
      rcases k with _ | k
      · simp only [List.replicate_zero, List.nil_append, List.cons.injEq] at he
        obtain ⟨rfl, rfl⟩ := he
        exact .inr (.inr ⟨hcr, hlf, l, ls, hl, hls, rfl⟩)
      · simp only [List.replicate_succ, List.cons_append, List.cons.injEq] at he
        obtain ⟨rfl, rfl⟩ := he
        exact .inl ⟨rfl, .line hcr hlf hl hls⟩
  · rintro (⟨rfl, h⟩ | ⟨rfl, rfl⟩ | ⟨hcr, hlf, l, ls, hl, hls, rfl⟩)
    · cases h with
      | last hb => exact .last (break_cons.mpr (.inr ⟨rfl, hb⟩))
      | @line k d l ls hcr hlf hl hls => exact .line (k := k + 1) hcr hlf hl hls
    · exact .last ⟨0, rfl⟩
    · exact .line (k := 0) hcr hlf hl hls

theorem afterData_cons {n : Nat} (hn : 0 < n) :
    AfterData t n (c :: xs) out ↔
      ∃ out', out = [c] ++ out' ∧
        if n = 1 then AfterCrlf t xs out' else AfterData t (n - 1) xs out' := by
  constructor
  · rintro ⟨_ | ⟨d, data⟩, ys, out', hlen, hys, he, rfl⟩
    · exact absurd hlen (Nat.ne_of_lt hn)
    · simp only [List.cons_append, List.cons.injEq] at he
      obtain ⟨rfl, rfl⟩ := he
      rw [List.length_cons] at hlen
      refine ⟨data ++ out', rfl, ?_⟩
      by_cases hone : n = 1
      · obtain rfl : data = [] := List.eq_nil_of_length_eq_zero (by omega)
        rw [if_pos hone]
        exact hys
      · rw [if_neg hone]
        exact ⟨data, ys, out', by omega, hys, rfl, rfl⟩
  · rintro ⟨out', rfl, h⟩
    by_cases hone : n = 1
    · rw [if_pos hone] at h
      exact ⟨[c], xs, out', hone.symm, h, rfl, rfl⟩
    · rw [if_neg hone] at h
      obtain ⟨data, ys, out'', hlen, hys, rfl, rfl⟩ := h
      exact ⟨c :: data, ys, out'', by rw [List.length_cons]; omega, hys, rfl, rfl⟩

theorem afterDigits_digit {k n v : Nat} (hv : decodeHex c = some v) :
    AfterDigits t k n (c :: xs) out ↔ AfterDigits t (k + 1) (n * 16 + v) xs out := by
  constructor
  · rintro ⟨_ | ⟨d, ds⟩, ys, -, hlen, hds, hys, he⟩
    · rw [List.nil_append] at he
      subst he
      exact absurd hys (not_then_ext (by simp [hv]))
    · simp only [List.cons_append, List.cons.injEq] at he
      obtain ⟨rfl, rfl⟩ := he
      rw [List.length_cons] at hlen
      refine ⟨ds, ys, by simp, by omega, fun x hx => hds x (by simp [hx]), ?_, rfl⟩
      simpa only [hexValue, List.foldl_cons, hv, Option.getD_some] using hys
  · rintro ⟨ds, ys, -, hlen, hds, hys, rfl⟩
    refine ⟨c :: ds, ys, by simp, by rw [List.length_cons]; omega, ?_, ?_, rfl⟩
    · rintro x (_ | ⟨_, hx⟩)
      · simp [hv]
      · exact hds x hx
    · simpa only [hexValue, List.foldl_cons, hv, Option.getD_some] using hys

theorem not_afterDigits_full {n : Nat} (hc : decodeHex c ≠ none) :
    ¬ AfterDigits t 16 n (c :: xs) out := by
  rintro ⟨ds, ys, -, hlen, -, hys, he⟩
  obtain rfl : ds = [] := List.eq_nil_of_length_eq_zero (by omega)
  rw [List.nil_append] at he
  subst he
  exact not_then_ext hc hys

theorem afterDigits_end {k n : Nat} (hc : decodeHex c = none) (hlen : k ≤ 16) :
    AfterDigits t k n (c :: xs) out ↔ k ≠ 0 ∧ AfterExt t n (c :: xs) out := by
  constructor
  · rintro ⟨_ | ⟨d, ds⟩, ys, hk, -, hds, hys, he⟩
    · rw [List.nil_append] at he
      subst he
      exact ⟨fun h => hk h rfl, (then_ext_iff hc).mp hys⟩
    · obtain rfl : c = d := (List.cons.inj he).1
      exact absurd hc (hds c (by simp))
  · rintro ⟨hk, h⟩
    exact ⟨[], c :: xs, fun h => absurd h hk, hlen, by simp [IsHex], (then_ext_iff hc).mpr h, rfl⟩

theorem size_iff {n : Nat} {l : List UInt8} :
    Size n l ↔ ∃ ds l', ds ≠ [] ∧ ds.length ≤ 16 ∧ IsHex ds ∧ Ext l' ∧ n = hexValue 0 ds ∧
      l = ds ++ l' := by
  constructor
  · rintro ⟨hne, hlen, hds, hl⟩
    exact ⟨_, _, hne, hlen, hds, hl, rfl, rfl⟩
  · rintro ⟨ds, l', hne, hlen, hds, hl, rfl, rfl⟩
    exact .intro hne hlen hds hl

theorem body_iff : Body t xs out ↔ AfterDigits t 0 0 xs out := by
  constructor
  · intro h
    cases h with
    | @last l e hl he =>
      obtain ⟨ds, l', hne, hlen, hds, hl', hn, rfl⟩ := size_iff.mp hl
      refine ⟨ds, l' ++ e, fun _ => hne, by omega, hds, ⟨l', e, hl', ?_, rfl⟩, by simp⟩
      simpa [AfterSize, ← hn] using he
    | @chunk l data e b out hl hne he hb =>
      obtain ⟨ds, l', hds0, hlen, hds, hl', hn, rfl⟩ := size_iff.mp hl
      refine ⟨ds, l' ++ (data ++ (e ++ b)), fun _ => hds0, by omega, hds, ⟨l', _, hl', ?_, rfl⟩,
        by simp⟩
      have hpos : ¬ hexValue 0 ds = 0 := by
        rw [← hn]
        exact fun h => hne (List.eq_nil_of_length_eq_zero h)
      simp only [AfterSize, hpos, if_false]
      exact ⟨data, e ++ b, out, hn, ⟨e, b, he, hb, rfl⟩, rfl, rfl⟩
  · rintro ⟨ds, ys, hne, hlen, hds, ⟨l, zs, hl, hzs, rfl⟩, rfl⟩
    have hsize : Size (hexValue 0 ds) (ds ++ l) := .intro (hne rfl) (by omega) hds hl
    simp only [AfterSize] at hzs
    split at hzs
    · rename_i hzero
      obtain ⟨he, rfl⟩ := hzs
      rw [hzero] at hsize
      rw [← List.append_assoc]
      exact .last hsize he
    · rename_i hpos
      obtain ⟨data, ys, out', hdata, ⟨e, b, he, hb, rfl⟩, rfl, rfl⟩ := hzs
      rw [← List.append_assoc]
      refine .chunk (hdata ▸ hsize) ?_ he hb
      rintro rfl
      exact hpos hdata.symm

theorem not_rest_nil {d : ChunkedDecoder} (h : d.Sound) : ¬ Rest d [] out := by
  cases hs : d.state with
  | inChunkSize =>
    simp only [Rest, hs]
    rintro ⟨ds, ys, -, -, -, hys, he⟩
    rw [(List.append_eq_nil_iff.mp he.symm).2] at hys
    exact not_then_nil (fun hl => not_line_nil hl.1) hys
  | inChunkExt =>
    simp only [Rest, hs]
    exact not_then_nil not_line_nil
  | inChunkData =>
    simp only [Sound, hs] at h
    simp only [Rest, hs]
    rintro ⟨data, ys, out', hlen, -, he, -⟩
    rw [(List.append_eq_nil_iff.mp he.symm).1] at hlen
    exact absurd hlen (Nat.ne_of_lt h.2.1)
  | inChunkCrlf =>
    simp only [Rest, hs]
    exact not_then_nil not_break_nil
  | inTrailersLineHead =>
    simp only [Rest, hs]
    exact fun hr => not_trailer_nil hr.1
  | inTrailersLineMiddle =>
    simp only [Rest, hs]
    exact fun hr => not_then_nil not_line_nil hr.1

/-- What a reply says of the words that begin with the byte it is for. -/
def Replies (d : ChunkedDecoder) (c : UInt8) : Reply ChunkedDecoder UInt8 → Prop
  | .next d' out =>
    d'.Sound ∧ ∀ xs o, Rest d (c :: xs) o ↔ ∃ o', o = out ++ o' ∧ Rest d' xs o'
  | .last d' => d'.Sound ∧ ∀ xs o, Rest d (c :: xs) o ↔ xs = [] ∧ o = []
  | .refuse => ∀ xs o, ¬ Rest d (c :: xs) o

theorem exists_nil_append {P : List UInt8 → Prop} {o : List UInt8} :
    (∃ o', o = [] ++ o' ∧ P o') ↔ P o := by
  simp

theorem readExt_replies {d : ChunkedDecoder} (h : d.Sound) (hs : d.state = .inChunkExt)
    (c : UInt8) : Replies d c (readExt d c) := by
  have hrest : ∀ xs o, Rest d (c :: xs) o ↔
      c = LF ∧ AfterSize d.consumeTrailer d.bytesLeftInChunk xs o ∨ c ≠ LF ∧ Rest d xs o := by
    intro xs o
    simp only [Rest, hs]
    exact then_line_cons
  simp only [Sound, hs] at h
  by_cases hlf : c = LF
  · by_cases hleft : d.bytesLeftInChunk = 0
    · by_cases htrail : d.consumeTrailer = true
      · have hread : readExt d c = .next { d with state := .inTrailersLineHead } [] := by
          simp [readExt, hlf, hleft, htrail]
        rw [hread]
        refine ⟨⟨h.1, hleft⟩, fun xs o => ?_⟩
        rw [hrest, exists_nil_append]
        simp [hlf, AfterSize, hleft, htrail, Rest]
      · have hread : readExt d c = .last d := by
          simp [readExt, hlf, hleft, htrail]
        rw [hread]
        refine ⟨by simpa only [Sound, hs] using h, fun xs o => ?_⟩
        rw [hrest]
        simp [hlf, AfterSize, hleft, htrail]
    · have hread : readExt d c = .next { d with state := .inChunkData } [] := by
        simp [readExt, hlf, hleft]
      rw [hread]
      refine ⟨⟨h.1, Nat.pos_of_ne_zero hleft, h.2⟩, fun xs o => ?_⟩
      rw [hrest, exists_nil_append]
      simp [hlf, AfterSize, hleft, Rest]
  · have hread : readExt d c = .next d [] := by
      simp [readExt, hlf]
    rw [hread]
    refine ⟨by simpa only [Sound, hs] using h, fun xs o => ?_⟩
    rw [hrest, exists_nil_append]
    simp [hlf]

theorem Replies.congr {d d' : ChunkedDecoder} {r : Reply ChunkedDecoder UInt8}
    (h : ∀ xs o, Rest d (c :: xs) o ↔ Rest d' (c :: xs) o) (hr : Replies d' c r) :
    Replies d c r := by
  cases r with
  | next e out => exact ⟨hr.1, fun xs o => (h xs o).trans (hr.2 xs o)⟩
  | last e => exact ⟨hr.1, fun xs o => (h xs o).trans (hr.2 xs o)⟩
  | refuse => exact fun xs o => fun hrest => hr xs o ((h xs o).mp hrest)

section

variable {d : ChunkedDecoder} (h : d.Sound)
include h

theorem read_replies_size (hs : d.state = .inChunkSize) (c : UInt8) : Replies d c (read d c) := by
  have hlt := h.size_lt hs
  cases hv : decodeHex c with
  | none =>
    have hrest : ∀ xs o, Rest d (c :: xs) o ↔
        d.hexCount ≠ 0 ∧ AfterExt d.consumeTrailer d.bytesLeftInChunk (c :: xs) o := by
      intro xs o
      simp only [Rest, hs]
      simp only [Sound, hs] at h
      exact afterDigits_end hv h.1
    by_cases hn : d.hexCount = 0
    · have hread : read d c = .refuse := by
        simp only [read, hs, hv, hn, if_true]
      rw [hread]
      intro xs o hr
      exact ((hrest xs o).mp hr).1 hn
    · have hread : read d c = readExt { d with hexCount := 0, state := .inChunkExt } c := by
        simp only [read, hs, hv, hn, if_false]
      rw [hread]
      have hext : ({ d with hexCount := 0, state := .inChunkExt } : ChunkedDecoder).Sound :=
        ⟨rfl, hlt⟩
      refine Replies.congr (fun xs o => ?_) (readExt_replies hext rfl c)
      rw [hrest]
      simp [hn, Rest]
  | some v =>
    by_cases hn : d.hexCount = 16
    · have hread : read d c = .refuse := by
        simp only [read, hs, hv, hn, if_true]
      rw [hread]
      intro xs o
      simp only [Rest, hs, hn]
      exact not_afterDigits_full (by simp [hv])
    · have hread : read d c = .next
          { d with bytesLeftInChunk := d.bytesLeftInChunk * 16 + v, hexCount := d.hexCount + 1 }
          [] := by
        simp only [read, hs, hv, hn, if_false]
      have hdigit := h.digit_lt hs hn (decodeHex_lt hv)
      rw [hread]
      simp only [Sound, hs] at h
      refine ⟨?_, fun xs o => ?_⟩
      · simp only [Sound, hs]
        exact ⟨by omega, hdigit.1⟩
      · rw [exists_nil_append]
        simp only [Rest, hs]
        exact afterDigits_digit hv

theorem read_replies_data (hs : d.state = .inChunkData) (c : UInt8) : Replies d c (read d c) := by
  simp only [Sound, hs] at h
  simp only [read, hs]
  refine ⟨?_, fun xs o => ?_⟩
  · by_cases hone : d.bytesLeftInChunk = 1
    · simp [Sound, hone, h.1]
    · simp only [Sound, hone, if_false]
      exact ⟨h.1, by omega, by omega⟩
  · simp only [Rest, hs]
    rw [afterData_cons h.2.1]
    by_cases hone : d.bytesLeftInChunk = 1
    · simp only [hone, if_true]
    · simp only [hone, if_false]

theorem read_replies_crlf (hs : d.state = .inChunkCrlf) (c : UInt8) : Replies d c (read d c) := by
  have hrest : ∀ xs o, Rest d (c :: xs) o ↔
      c = LF ∧ Body d.consumeTrailer xs o ∨ c = CR ∧ Rest d xs o := by
    intro xs o
    simp only [Rest, hs]
    exact then_break_cons
  by_cases hcr : c = CR
  · have hread : read d c = .next d [] := by
      simp only [read, hs, hcr, if_true]
    rw [hread]
    refine ⟨h, fun xs o => ?_⟩
    rw [hrest, exists_nil_append]
    simp [hcr]
  · simp only [Sound, hs] at h
    by_cases hlf : c = LF
    · have hread : read d c = .next { d with state := .inChunkSize } [] := by
        simp [read, hs, hlf]
      rw [hread]
      refine ⟨by simp [Sound, h], fun xs o => ?_⟩
      rw [hrest, exists_nil_append, body_iff]
      simp [hlf, Rest, h]
    · have hread : read d c = .refuse := by
        simp [read, hs, hcr, hlf]
      rw [hread]
      intro xs o hr
      simpa [hcr, hlf] using (hrest xs o).mp hr

theorem read_replies_head (hs : d.state = .inTrailersLineHead) (c : UInt8) :
    Replies d c (read d c) := by
  have hrest : ∀ xs o, Rest d (c :: xs) o ↔ Trailer (c :: xs) ∧ o = [] := by
    intro xs o
    simp only [Rest, hs]
  by_cases hcr : c = CR
  · have hread : read d c = .next d [] := by
      simp only [read, hs, hcr, if_true]
    rw [hread]
    refine ⟨h, fun xs o => ?_⟩
    rw [hrest, exists_nil_append, trailer_cons]
    simp [hcr, Rest, hs]
  · by_cases hlf : c = LF
    · have hread : read d c = .last d := by
        simp [read, hs, hlf]
      rw [hread]
      refine ⟨h, fun xs o => ?_⟩
      rw [hrest, trailer_cons]
      simp [hlf]
    · have hread : read d c = .next { d with state := .inTrailersLineMiddle } [] := by
        simp only [read, hs, hcr, hlf, if_false]
      rw [hread]
      refine ⟨by simpa only [Sound, hs] using h, fun xs o => ?_⟩
      rw [hrest, exists_nil_append, trailer_cons]
      simp [hcr, hlf, Rest]

theorem read_replies_middle (hs : d.state = .inTrailersLineMiddle) (c : UInt8) :
    Replies d c (read d c) := by
  have hrest : ∀ xs o, Rest d (c :: xs) o ↔ Then Line Trailer (c :: xs) ∧ o = [] := by
    intro xs o
    simp only [Rest, hs]
  by_cases hlf : c = LF
  · have hread : read d c = .next { d with state := .inTrailersLineHead } [] := by
      simp only [read, hs, hlf, if_true]
    rw [hread]
    refine ⟨by simpa only [Sound, hs] using h, fun xs o => ?_⟩
    rw [hrest, exists_nil_append, then_line_cons]
    simp [hlf, Rest]
  · have hread : read d c = .next d [] := by
      simp only [read, hs, hlf, if_false]
    rw [hread]
    refine ⟨h, fun xs o => ?_⟩
    rw [hrest, exists_nil_append, then_line_cons]
    simp [hlf, Rest, hs]

theorem read_replies (c : UInt8) : Replies d c (read d c) := by
  cases hs : d.state with
  | inChunkSize => exact read_replies_size h hs c
  | inChunkExt =>
    have hread : read d c = readExt d c := by
      simp only [read, hs]
    rw [hread]
    exact readExt_replies h hs c
  | inChunkData => exact read_replies_data h hs c
  | inChunkCrlf => exact read_replies_crlf h hs c
  | inTrailersLineHead => exact read_replies_head h hs c
  | inTrailersLineMiddle => exact read_replies_middle h hs c

end

theorem Replies.of_read {d : ChunkedDecoder} (h : d.Sound) {r : Reply ChunkedDecoder UInt8}
    (hr : read d c = r) : Replies d c r := hr ▸ read_replies h c

theorem derives : Derives read Sound Rest where
  nil := not_rest_nil
  next h hr := Replies.of_read h hr
  last h hr := Replies.of_read h hr
  refuse h hr := Replies.of_read h hr

/-! From every state a body can still be completed. -/

theorem exists_body (t : Bool) : ∃ b out, Body t b out := by
  have hdigit : IsHex [0x30] := by
    simp only [IsHex, List.mem_singleton, forall_eq]
    decide
  have hsize : Size 0 ([0x30] ++ [LF]) :=
    .intro (by simp) (by simp) hdigit ⟨line_cons.mpr (.inl ⟨rfl, rfl⟩), by simp; decide⟩
  cases t with
  | false => exact ⟨_, [], .last hsize rfl⟩
  | true => exact ⟨_, [], .last hsize (Trailer.last ⟨0, rfl⟩)⟩

theorem exists_afterCrlf (t : Bool) : ∃ xs out, AfterCrlf t xs out := by
  obtain ⟨b, out, hb⟩ := exists_body t
  exact ⟨LF :: b, out, [LF], b, ⟨0, rfl⟩, hb, rfl⟩

theorem exists_afterData (t : Bool) (n : Nat) : ∃ xs out, AfterData t n xs out := by
  obtain ⟨ys, out, hys⟩ := exists_afterCrlf t
  exact ⟨_, _, List.replicate n 0, ys, out, List.length_replicate, hys, rfl, rfl⟩

theorem exists_afterSize (t : Bool) (n : Nat) : ∃ xs out, AfterSize t n xs out := by
  by_cases hn : n = 0
  · cases t with
    | false => exact ⟨[], [], by simp [AfterSize, hn]⟩
    | true => exact ⟨[LF], [], by simpa [AfterSize, hn] using Trailer.last ⟨0, rfl⟩⟩
  · obtain ⟨xs, out, hxs⟩ := exists_afterData t n
    exact ⟨xs, out, by simpa [AfterSize, hn] using hxs⟩

theorem exists_afterExt (t : Bool) (n : Nat) : ∃ xs out, AfterExt t n (LF :: xs) out := by
  obtain ⟨xs, out, hxs⟩ := exists_afterSize t n
  exact ⟨xs, out, then_line_cons.mpr (.inl ⟨rfl, hxs⟩)⟩

theorem exists_rest {d : ChunkedDecoder} (h : d.Sound) : ∃ xs out, Rest d xs out := by
  cases hs : d.state with
  | inChunkSize =>
    simp only [Sound, hs] at h
    simp only [Rest, hs]
    have hlf : decodeHex LF = none := by decide
    by_cases hn : d.hexCount = 0
    · obtain ⟨xs, out, hxs⟩ := exists_afterExt d.consumeTrailer (d.bytesLeftInChunk * 16 + 0)
      refine ⟨0x30 :: LF :: xs, out, ?_⟩
      rw [afterDigits_digit (v := 0) (by decide), afterDigits_end hlf (by omega)]
      exact ⟨by omega, hxs⟩
    · obtain ⟨xs, out, hxs⟩ := exists_afterExt d.consumeTrailer d.bytesLeftInChunk
      exact ⟨LF :: xs, out, (afterDigits_end hlf h.1).mpr ⟨hn, hxs⟩⟩
  | inChunkExt =>
    simp only [Rest, hs]
    obtain ⟨xs, out, hxs⟩ := exists_afterExt d.consumeTrailer d.bytesLeftInChunk
    exact ⟨_, out, hxs⟩
  | inChunkData =>
    simp only [Rest, hs]
    exact exists_afterData _ _
  | inChunkCrlf =>
    simp only [Rest, hs]
    exact exists_afterCrlf _
  | inTrailersLineHead =>
    simp only [Rest, hs]
    exact ⟨[LF], [], .last ⟨0, rfl⟩, rfl⟩
  | inTrailersLineMiddle =>
    simp only [Rest, hs]
    exact ⟨[LF, LF], [], then_line_cons.mpr (.inl ⟨rfl, .last ⟨0, rfl⟩⟩), rfl⟩

/-! Streams of fragments. -/

/-- An application that hands the decoder the fragments of a stream one after the
other, as long as it is told that more is to come. -/
def decodeStream (t : Bool) (xs : List (List UInt8)) :
    Option (Result ChunkedDecoder UInt8 UInt8) :=
  feed (fun d x => (phrDecodeChunked d x).map Call.result) (zeroed t) xs

theorem decodeStream_eq_run (t : Bool) {xs : List (List UInt8)} (h : ∀ x ∈ xs, x.length < 2 ^ 63) :
    decodeStream t xs = some (run read (zeroed t) xs.flatten) := by
  have hinv : ∀ d x, Sound d → Sound (run read d x).state := fun _ x hd => derives.inv_state hd x
  refine feed_eq_run ?_ hinv (sound_zeroed t)
  intro d x hx hd
  obtain ⟨k, hk, hresult, -⟩ := phrDecodeChunked_eq_run hd (h x hx)
  rw [hk, Option.map_some, hresult]

theorem rest_zeroed : Rest (zeroed t) xs out ↔ Body t xs out := body_iff.symm

/-- However a stream is cut into fragments, to decode them one call after the
other is to decode the stream with a single call, inside the buffer each time. -/
theorem decodeStream_eq_call (t : Bool) {xs : List (List UInt8)} (h : xs.flatten.length < 2 ^ 63) :
    ∃ k, phrDecodeChunked (zeroed t) xs.flatten = some k ∧ k.buf.length = xs.flatten.length ∧
      decodeStream t xs = some k.result := by
  obtain ⟨k, hk, hresult, hlen⟩ := phrDecodeChunked_eq_run (sound_zeroed t) h
  refine ⟨k, hk, hlen, ?_⟩
  rw [hresult]
  refine decodeStream_eq_run t fun x hx => ?_
  have hle := (List.sublist_flatten_of_mem hx).length_le
  omega

theorem decodeStream_eq_call_cut :
    ∃ k, phrDecodeChunked (zeroed false)
          [[0x33, CR], [LF, 0x61, 0x62], [0x63, CR, LF, 0x30, LF, 0x78]].flatten = some k ∧
      k.buf.length = [[0x33, CR], [LF, 0x61, 0x62], [0x63, CR, LF, 0x30, LF, 0x78]].flatten.length ∧
      decodeStream false [[0x33, CR], [LF, 0x61, 0x62], [0x63, CR, LF, 0x30, LF, 0x78]] =
        some k.result :=
  decodeStream_eq_call false (by decide)

/-- The decoder comes to the end of a stream exactly on a chunked body, with the
bytes that the body stands for and those that follow it. -/
theorem decodeStream_done_iff {xs : List (List UInt8)} (h : ∀ x ∈ xs, x.length < 2 ^ 63)
    (rest : List UInt8) :
    (∃ d, decodeStream t xs = some ⟨.done rest, d, out⟩) ↔
      ∃ b, Body t b out ∧ xs.flatten = b ++ rest := by
  have hdone := derives.done_iff (sound_zeroed t) xs.flatten rest out
  simp only [decodeStream_eq_run t h, Option.some.injEq, hdone, rest_zeroed]
  constructor
  · rintro ⟨b, he, hb⟩
    exact ⟨b, hb, he⟩
  · rintro ⟨b, hb, he⟩
    exact ⟨b, he, hb⟩

theorem decodeStream_done_cut :
    ∃ b, Body false b [0x61, 0x62, 0x63] ∧
      [[0x33, CR], [LF, 0x61, 0x62], [0x63, CR, LF, 0x30, LF, 0x78]].flatten = b ++ [0x78] :=
  (decodeStream_done_iff (by simp) [0x78]).mp ⟨⟨0, false, 0, .inChunkExt⟩, by decide⟩

/-- Of any other stream it asks for more as long as some continuation makes a body
of it, and refuses it as soon as none does. -/
theorem decodeStream_verdict {xs : List (List UInt8)} (h : ∀ x ∈ xs, x.length < 2 ^ 63) :
    ∃ r, decodeStream t xs = some r ∧
      (r.verdict = .more ↔ ∃ ys out, ys ≠ [] ∧ Body t (xs.flatten ++ ys) out) ∧
      (r.verdict = .refused ↔ ∀ ys b rest out, xs.flatten ++ ys = b ++ rest → ¬ Body t b out) := by
  have hmore := derives.more_iff (fun _ hd => exists_rest hd) (sound_zeroed t) xs.flatten
  simp only [rest_zeroed] at hmore
  refine ⟨_, decodeStream_eq_run t h, hmore, ?_⟩
  constructor
  · intro hv ys b rest out he hb
    obtain ⟨d, hd⟩ := (derives.done_iff (sound_zeroed t) _ _ _).mpr ⟨b, he, rest_zeroed.mpr hb⟩
    rw [run_append_of_ne (by rw [hv]; simp)] at hd
    simpa [Result.extend, hv, Verdict.extend] using congrArg Result.verdict hd
  · intro hnone
    cases hv : (run read (zeroed t) xs.flatten).verdict with
    | more =>
      obtain ⟨ys, out, -, hb⟩ := hmore.mp hv
      exact absurd hb (hnone ys _ [] out (by simp))
    | refused => rfl
    | done rest =>
      have hrun : run read (zeroed t) xs.flatten = ⟨.done rest, (run read (zeroed t) xs.flatten).state,
          (run read (zeroed t) xs.flatten).out⟩ := by
        rw [← hv]
      obtain ⟨b, he, hb⟩ := (derives.done_iff (sound_zeroed t) _ _ _).mp ⟨_, hrun⟩
      exact absurd (rest_zeroed.mp hb) (hnone [] b rest _ (by simpa using he))

/-- The last chunk of a body with a trailer can be continued, three bytes of data with
a fourth behind them cannot. -/
theorem decodeStream_verdict_open :
    (∃ ys out, ys ≠ [] ∧ Body true ([[0x30, CR], [LF]].flatten ++ ys) out) ∧
      ∀ ys b rest out, [[0x33, LF], [0x61, 0x62, 0x63, 0x64]].flatten ++ ys = b ++ rest →
        ¬ Body false b out := by
  have hmore : (decodeStream true [[0x30, CR], [LF]]).map Result.verdict = some .more := by decide
  have hrefused : (decodeStream false [[0x33, LF], [0x61, 0x62, 0x63, 0x64]]).map Result.verdict =
      some .refused := by decide
  obtain ⟨r, hr, hopen, -⟩ := @decodeStream_verdict true [[0x30, CR], [LF]] (by simp)
  obtain ⟨r', hr', -, hclosed⟩ := @decodeStream_verdict false [[0x33, LF], [0x61, 0x62, 0x63, 0x64]]
    (by simp)
  rw [hr, Option.map_some, Option.some.injEq] at hmore
  rw [hr', Option.map_some, Option.some.injEq] at hrefused
  exact ⟨hopen.mp hmore, hclosed.mp hrefused⟩

theorem readExt_out (d : ChunkedDecoder) (c : UInt8) : (readExt d c).out = [] := by
  simp only [readExt, apply_ite Reply.out, Reply.out_next, Reply.out_last, ite_self]

theorem read_out (d : ChunkedDecoder) (c : UInt8) :
    (read d c).out = if phrDecodeChunkedIsInData d then [c] else [] := by
  cases hs : d.state with
  | inChunkSize =>
    have hdata : phrDecodeChunkedIsInData d = false := by simp [phrDecodeChunkedIsInData, hs]
    simp only [read, hs, hdata]
    cases decodeHex c with
    | none => simp [apply_ite Reply.out, readExt_out]
    | some v => simp [apply_ite Reply.out]
  | inChunkExt => simp [read, phrDecodeChunkedIsInData, hs, readExt_out]
  | _ => simp [read, phrDecodeChunkedIsInData, hs, apply_ite Reply.out]

/-- While more is to come, `phr_decode_chunked_is_in_data` tells whether the byte
that comes next, whichever it is, will be handed out. -/
theorem decodeStream_snoc_byte {xs : List (List UInt8)} {d : ChunkedDecoder}
    (h : ∀ x ∈ xs, x.length < 2 ^ 63) (hmore : decodeStream t xs = some ⟨.more, d, out⟩)
    (c : UInt8) :
    ∃ r, decodeStream t (xs ++ [[c]]) = some r ∧
      r.out = if phrDecodeChunkedIsInData d then out ++ [c] else out := by
  have hall : ∀ x ∈ xs ++ [[c]], x.length < 2 ^ 63 := by
    intro x hx
    rcases List.mem_append.mp hx with hx | hx
    · exact h x hx
    · rw [List.mem_singleton.mp hx]
      simp
  rw [decodeStream_eq_run t h, Option.some.injEq] at hmore
  refine ⟨_, decodeStream_eq_run t hall, ?_⟩
  have hflat : (xs ++ [[c]]).flatten = xs.flatten ++ [c] := by simp
  rw [hflat, run_append_more (by rw [hmore]), hmore]
  change out ++ (run read d [c]).out = _
  rw [run_singleton_out, read_out]
  split
  · rfl
  · rw [List.append_nil]

theorem decodeStream_snoc_byte_in_chunk :
    ∃ r, decodeStream false ([[0x33, LF, 0x61]] ++ [[0x62]]) = some r ∧
      r.out = if phrDecodeChunkedIsInData ⟨2, false, 0, .inChunkData⟩ then [0x61] ++ [0x62]
        else [0x61] :=
  have hmore : decodeStream false [[0x33, LF, 0x61]] =
      some ⟨.more, ⟨2, false, 0, .inChunkData⟩, [0x61]⟩ := by decide
  decodeStream_snoc_byte (by simp) hmore 0x62

end ChunkedDecoder

end Jullop
