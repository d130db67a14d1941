import Jullop.RequestHead
import Jullop.ResponseParser

/-! What the parser reads from a head: the languages of `RequestHead` with the
content of each word, which is the content of the slices that the parser leaves. -/

namespace Jullop

namespace HttpParser

open Scanner

/-- A header line without its line end. The value begins behind the blanks. -/
inductive FieldOf : (count : Nat) → HeaderContent → List UInt8 → Prop
  | named {k : Nat} {n b v : List UInt8} (hn : IsName n) (hb : ∀ c ∈ b, blankMove c = .go)
      (hv : IsText v) (hstart : ∀ c ∈ v.head?, blankMove c = .halt) :
      FieldOf k (some n, v) (n ++ 0x3a :: (b ++ v))
  | folded {k : Nat} {c : UInt8} {t : List UInt8} (hc : c = SP ∨ c = HT) (ht : IsText t) :
      FieldOf (k + 1) (none, c :: t) (c :: t)

/-- Header lines, the first of them with the given number. -/
inductive Block : (count : Nat) → List HeaderContent → List UInt8 → Prop
  | nil {k : Nat} : Block k [] []
  | cons {k : Nat} {f : HeaderContent} {fs : List HeaderContent} {l e ls : List UInt8}
      (hl : FieldOf k f l) (he : Eol e) (hls : Block (k + 1) fs ls) :
      Block k (f :: fs) (l ++ (e ++ ls))

/-- `HTTP/1.` and the digit of the minor version. -/
def versionText (d : UInt8) : List UInt8 := [0x48, 0x54, 0x54, 0x50, 0x2f, 0x31, 0x2e, d]

def digitValue (d : UInt8) : Int := (d.toNat : Int) - 0x30

/-- A request line with its line end, behind an empty line if there is one. -/
inductive RequestLine : (method path : List UInt8) → (minorVersion : Int) → List UInt8 → Prop
  | intro {l m t e : List UInt8} {d : UInt8} (hl : Lead l) (hm : IsToken m) (ht : IsToken t)
      (hlow : 0x30 ≤ d) (hhigh : d ≤ 0x39) (he : Eol e) :
      RequestLine m t (digitValue d) (l ++ (m ++ SP :: (t ++ SP :: (versionText d ++ e))))

/-- A request head, up to its blank line. -/
inductive RequestOf : RequestContent → List UInt8 → Prop
  | intro {m t q ls e : List UInt8} {v : Int} {fs : List HeaderContent} (hq : RequestLine m t v q)
      (hls : Block 0 fs ls) (he : Eol e) : RequestOf ⟨some m, some t, v, fs⟩ (q ++ (ls ++ e))

theorem read_between (before t after : List UInt8) :
    Slice.read (before ++ (t ++ after)) ⟨before.length, t.length⟩ = t := by
  rw [Slice.read, List.drop_left, List.take_left]

theorem FieldOf.field {k : Nat} {f : HeaderContent} {l : List UInt8} (h : FieldOf k f l) :
    Field k l := by
  cases h with
  | named hn hb hv _ =>
    refine .named hn fun c hc => ?_
    rcases List.mem_append.mp hc with hc | hc
    · exact isText_blanks hb c hc
    · exact hv c hc
  | folded hc ht => exact .folded hc ht

theorem Field.exists_fieldOf {k : Nat} {l : List UInt8} (h : Field k l) : ∃ f, FieldOf k f l := by
  cases h with
  | @named k n t hn ht =>
    rcases blanks_cases t with hb | ⟨b, c, v, rfl, hb, hc⟩
    · exact ⟨(some n, []), by simpa using FieldOf.named hn hb (v := []) (by simp [IsText]) (by simp)⟩
    · refine ⟨(some n, c :: v), .named hn hb (fun x hx => ht x (by simp [hx])) ?_⟩
      simpa using hc
  | folded hc ht => exact ⟨_, .folded hc ht⟩

theorem Fields.exists_block {k n : Nat} {ls : List UInt8} (h : Fields k n ls) :
    ∃ fs, fs.length = n ∧ Block k fs ls := by
  induction h with
  | none => exact ⟨[], rfl, .nil⟩
  | more hl he _ ih =>
    obtain ⟨fs, hlen, hfs⟩ := ih
    obtain ⟨f, hf⟩ := hl.exists_fieldOf
    exact ⟨f :: fs, by rw [List.length_cons, hlen], .cons hf he hfs⟩

/-- The value begins at the first byte behind the blanks, or at the line end. -/
theorem exists_value_start {v e : List UInt8} (hstart : ∀ c ∈ v.head?, blankMove c = .halt)
    (he : Eol e) (xs : List UInt8) : ∃ c ys, v ++ (e ++ xs) = c :: ys ∧ blankMove c = .halt := by
  rcases v with _ | ⟨c, v⟩
  · cases he with
    | crlf => exact ⟨CR, LF :: xs, rfl, blankMove_cr⟩
    | lf => exact ⟨LF, xs, rfl, blankMove_lf⟩
  · exact ⟨c, v ++ (e ++ xs), rfl, hstart c rfl⟩

/-- A header line is read as its content. -/
theorem parseHeader_content {k : Nat} {f : HeaderContent} {l e : List UInt8} (h : FieldOf k f l)
    (he : Eol e) (before xs : List UInt8) {out : HttpRequest} (hk : out.numHeaders = k) :
    ∃ hd : PhrHeader, hd.content (before ++ (l ++ (e ++ xs))) = f ∧
      parseHeader ⟨before.length, l ++ (e ++ xs), out⟩ =
        (.ok (), ⟨before.length + (l.length + e.length), xs,
          { out with headers := out.headers ++ [hd], numHeaders := out.numHeaders + 1 }⟩) := by
  cases h with
  | @named k n b v hn hb hv hstart =>
    obtain ⟨c, ys, hys, hc⟩ := exists_value_start hstart he xs
    refine ⟨⟨some ⟨before.length, n.length⟩, ⟨before.length + n.length + 1 + b.length, v.length⟩⟩,
      ?_, ?_⟩
    · have hname := read_between before n (0x3a :: (b ++ v) ++ (e ++ xs))
      have hvalue := read_between (before ++ (n ++ 0x3a :: b)) v (e ++ xs)
      have hpos : (before ++ (n ++ 0x3a :: b)).length = before.length + n.length + 1 + b.length := by
        simp only [List.length_append, List.length_cons]
        omega
      rw [hpos] at hvalue
      simp only [List.append_assoc, List.cons_append] at hname hvalue
      simp only [PhrHeader.content, Option.map_some, List.append_assoc, List.cons_append, hname,
        hvalue]
    · have hlen : before.length + ((n ++ 0x3a :: (b ++ v)).length + e.length) =
          before.length + n.length + 1 + b.length + v.length + e.length := by
        simp only [List.length_append, List.length_cons]
        omega
      rw [List.append_assoc, List.cons_append, List.append_assoc, hlen, hys,
        parseHeader_after_name hn hb hc, ← hys, headerValue_read hv he]
  | @folded k c t hc ht =>
    refine ⟨⟨none, ⟨before.length, (c :: t).length⟩⟩, ?_, ?_⟩
    · simp only [PhrHeader.content, Option.map_none, read_between]
    · rw [List.cons_append, parseHeader_folded hc (by omega), ← List.cons_append,
        headerValue_read (isText_blank hc ht) he, Nat.add_assoc]

/-- A block of header lines is read as its content, as long as the headers fit. -/
theorem parseHeaders_content {k : Nat} {fs : List HeaderContent} {ls e : List UInt8}
    (h : Block k fs ls) (he : Eol e) (before xs : List UInt8) {out : HttpRequest}
    (hk : out.numHeaders = k) :
    ∃ hs : List PhrHeader, hs.map (PhrHeader.content (before ++ (ls ++ (e ++ xs)))) = fs ∧
      ∀ room, fs.length ≤ room →
        parseHeaders room ⟨before.length, ls ++ (e ++ xs), out⟩ =
          (.ok (), ⟨before.length + (ls.length + e.length), xs,
            { out with headers := out.headers ++ hs, numHeaders := k + fs.length }⟩) := by
  induction h generalizing before out with
  | nil =>
    refine ⟨[], rfl, fun room _ => ?_⟩
    rw [List.nil_append, parseHeaders_eol room he]
    simp [← hk]
  | @cons k f fs l e' ls hl he' hls ih =>
    obtain ⟨hd, hcontent, hparse⟩ := parseHeader_content hl he' before (ls ++ (e ++ xs)) hk
    -- the lines behind this one begin where it ends
    have hnext : ({ out with headers := out.headers ++ [hd], numHeaders := out.numHeaders + 1 } :
        HttpRequest).numHeaders = k + 1 := by rw [hk]
    obtain ⟨hs, hcontents, hread⟩ := ih (before ++ (l ++ e')) hnext
    have hpos : (before ++ (l ++ e')).length = before.length + (l.length + e'.length) := by
      simp only [List.length_append]
    simp only [List.append_assoc] at hcontents hcontent ⊢
    refine ⟨hd :: hs, by rw [List.map_cons, hcontent, hcontents], fun room hroom => ?_⟩
    obtain ⟨c, cs, hcr, hlf, hstart⟩ := hl.field.start
    obtain ⟨room, rfl⟩ := Nat.exists_eq_add_one_of_ne_zero (n := room) (by
      rw [List.length_cons] at hroom
      omega)
    rw [hpos] at hread
    rw [hstart, List.cons_append, parseHeaders_other hcr hlf, ← List.cons_append, ← hstart,
      bind_ok hparse, hread room (by rw [List.length_cons] at hroom; omega)]
    simp only [List.append_assoc, List.singleton_append, List.length_append, List.length_cons,
      Prod.mk.injEq, Cursor.mk.injEq, HttpRequest.mk.injEq, true_and]
    constructor <;> omega

theorem parseHttpVersion_digit {d : UInt8} (hlow : 0x30 ≤ d) (hhigh : d ≤ 0x39) (pos : Nat)
    {xs : List UInt8} (hxs : xs ≠ []) (out : HttpRequest) :
    parseHttpVersion ⟨pos, versionText d ++ xs, out⟩ =
      (.ok (), ⟨pos + 8, xs, { out with minorVersion := digitValue d }⟩) := by
  have hlen : 0 < xs.length := List.length_pos_of_ne_nil hxs
  have hreq : ¬ xs.length + 8 < 9 := by omega
  have hlow' : ¬ d < 0x30 := UInt8.not_lt.mpr hlow
  have hhigh' : ¬ 0x39 < d := UInt8.not_lt.mpr hhigh
  simp [parseHttpVersion, parseInt, require, expectChar, bind_apply, hreq, hlow', hhigh', versionText,
    digitValue]

theorem parseRequest_line {m t q : List UInt8} {v : Int} (h : RequestLine m t v q) :
    ∃ method path, (∀ xs, Slice.read (q ++ xs) method = m ∧ Slice.read (q ++ xs) path = t) ∧
      ∀ room xs, parseRequest room ⟨0, q ++ xs, clearRequest⟩ =
        parseHeaders room ⟨q.length, xs, ⟨some method, some path, v, [], 0⟩⟩ := by
  obtain @⟨l, m, t, e, d, hl, hm, ht, hlow, hhigh, he⟩ := h
  refine ⟨⟨0 + l.length, m.length⟩, ⟨0 + l.length + m.length + 1, t.length⟩, fun xs => ?_, ?_⟩
  · have hmethod := read_between l m (SP :: (t ++ SP :: (versionText d ++ e)) ++ xs)
    have hpath := read_between (l ++ (m ++ [SP])) t (SP :: (versionText d ++ e) ++ xs)
    have hpos : (l ++ (m ++ [SP])).length = 0 + l.length + m.length + 1 := by
      simp only [List.length_append, List.length_singleton]
      omega
    rw [hpos] at hpath
    rw [Nat.zero_add] at hpath ⊢
    simp only [List.append_assoc, List.cons_append, List.nil_append] at hmethod hpath ⊢
    exact ⟨hmethod, hpath⟩
  · intro room xs
    have htarget := parseTarget_of_parts 0 clearRequest (versionText d ++ (e ++ xs)) hl hm ht
    have hversion := parseHttpVersion_digit hlow hhigh (0 + l.length + m.length + 1 + t.length + 1)
      (he.append_ne_nil xs)
    have hlen : (l ++ (m ++ SP :: (t ++ SP :: (versionText d ++ e)))).length =
        0 + l.length + m.length + 1 + t.length + 1 + 8 + e.length := by
      simp only [List.length_append, List.length_cons, versionText, List.length_nil]
      omega
    simp only [List.append_assoc, List.cons_append] at htarget ⊢
    rw [parseRequest, bind_ok htarget, bind_ok (hversion _), bind_ok (lineEnd_eol he _), hlen]
    rfl

theorem map_content_take {hs : List PhrHeader} {fs : List HeaderContent} {buf : List UInt8}
    (h : hs.map (PhrHeader.content buf) = fs) :
    (hs.take fs.length).map (PhrHeader.content buf) = fs := by
  rw [← h, List.length_map, List.take_length]

/-- A request head is read as its content, as long as the headers fit. -/
theorem parseRequest_content {c : RequestContent} {b : List UInt8} (h : RequestOf c b)
    (xs : List UInt8) :
    ∃ r : HttpRequest, r.content (b ++ xs) = c ∧ ∀ room, c.headers.length ≤ room →
      parseRequest room ⟨0, b ++ xs, clearRequest⟩ = (.ok (), ⟨b.length, xs, r⟩) := by
  obtain @⟨m, t, q, ls, e, v, fs, hq, hls, he⟩ := h
  obtain ⟨method, path, hslices, hline⟩ := parseRequest_line hq
  obtain ⟨hmethod, hpath⟩ := hslices (ls ++ (e ++ xs))
  obtain ⟨hs, hcontents, hread⟩ := parseHeaders_content hls he q xs
    (show HttpRequest.numHeaders ⟨some method, some path, v, [], 0⟩ = 0 from rfl)
  refine ⟨⟨some method, some path, v, hs, fs.length⟩, ?_, fun room hroom => ?_⟩
  · rw [List.append_assoc, List.append_assoc]
    have hheaders := map_content_take hcontents
    simp only [HttpRequest.content, Option.map_some, hmethod, hpath]
    exact congrArg _ hheaders
  · rw [List.append_assoc, List.append_assoc, hline, hread room hroom]
    simp only [List.length_append, Nat.zero_add, List.nil_append]

theorem Head.exists_requestOf {n : Nat} {b : List UInt8} (h : Head n b) :
    ∃ c : RequestContent, c.headers.length = n ∧ RequestOf c b := by
  obtain @⟨q, v, e, ls, e', hq, hv, he, hls, he'⟩ := h
  obtain @⟨l, m, t, hl, hm, ht⟩ := hq
  obtain @⟨d, hlow, hhigh⟩ := hv
  obtain ⟨fs, hlen, hfs⟩ := hls.exists_block
  refine ⟨⟨some m, some t, digitValue d, fs⟩, hlen, ?_⟩
  have hrequest := RequestOf.intro (.intro hl hm ht hlow hhigh he) hfs he'
  simpa only [versionText, List.append_assoc, List.cons_append, List.nil_append] using hrequest

theorem Block.fields {k : Nat} {fs : List HeaderContent} {ls : List UInt8} (h : Block k fs ls) :
    Fields k fs.length ls := by
  induction h with
  | nil => exact .none
  | cons hl he _ ih => exact .more hl.field he ih

theorem RequestOf.head {c : RequestContent} {b : List UInt8} (h : RequestOf c b) :
    Head c.headers.length b := by
  obtain @⟨m, t, q, ls, e', v, fs, hq, hls, he'⟩ := h
  obtain @⟨l, m, t, e, d, hl, hm, ht, hlow, hhigh, he⟩ := hq
  have hhead : Head fs.length ((l ++ (m ++ SP :: (t ++ [SP]))) ++ (versionText d ++ (e ++ (ls ++ e')))) :=
    .intro (.intro hl hm ht) (.intro hlow hhigh) he hls.fields he'
  simp only [List.append_assoc, List.cons_append, List.nil_append] at hhead ⊢
  exact hhead

/-- The parser accepts a buffer exactly if a request head stands at its start, and
then what it leaves is the length and the content of that head. -/
theorem phrParseRequest_accepts_iff {buf : List UInt8} (hlen : buf.length < 2 ^ 31)
    (r : HttpRequest) (n : Nat) (c : RequestContent) :
    (∃ r', phrParseRequest buf r 0 = ((n : Int), r') ∧ r'.content buf = c) ↔
      ∃ b rest, (RequestOf c b ∧ c.headers.length ≤ r.numHeaders) ∧ buf = b ++ rest ∧
        b.length = n := by
  rw [phrParseRequest_eq_gated]
  refine gated_accepts_iff clearRequest (parseRequest r.numHeaders) (HttpRequest.content · buf)
    (fun c b => RequestOf c b ∧ c.headers.length ≤ r.numHeaders) hlen (fun s hs => ?_)
    (fun c b rest hb hbuf => ?_) n c
  · obtain ⟨b, hb, hroom, hbuf, -, -⟩ := parseRequest_eq_ok rfl hs
    obtain ⟨c, hc, hrequest⟩ := hb.exists_requestOf
    exact ⟨c, b, ⟨hrequest, by omega⟩, hbuf⟩
  · subst hbuf
    obtain ⟨r', hcontent, hread⟩ := parseRequest_content hb.1 rest
    exact ⟨r', hcontent, hread _ hb.2⟩

theorem phrParseRequest_accepts_iff_get :
    ∃ b rest, (RequestOf ⟨some (ascii "GET"), some (ascii "/a"), 1,
        [(some (ascii "Host"), ascii "b")]⟩ b ∧ 1 ≤ 100) ∧
      ascii "GET /a HTTP/1.1\r\nHost: b\r\n\r\nmore" = b ++ rest ∧ b.length = 28 := by
  have hlen : (ascii "GET /a HTTP/1.1\r\nHost: b\r\n\r\nmore").length < 2 ^ 31 := by
    decide +kernel
  have hparse : (phrParseRequest (ascii "GET /a HTTP/1.1\r\nHost: b\r\n\r\nmore")
      ⟨none, none, 0, [], 100⟩ 0).map id
        (HttpRequest.content · (ascii "GET /a HTTP/1.1\r\nHost: b\r\n\r\nmore")) =
      (((28 : Nat) : Int),
        ⟨some (ascii "GET"), some (ascii "/a"), 1, [(some (ascii "Host"), ascii "b")]⟩) := by
    decide +kernel
  exact (phrParseRequest_accepts_iff hlen _ 28 _).mp (exists_of_map_eq hparse)

theorem parseHeaders_of_ok {pos room : Nat} {xs : List UInt8} {out : HttpRequest}
    {s : Cursor UInt8 HttpRequest} (hk : out.numHeaders = 0)
    (hs : parseHeaders room ⟨pos, xs, out⟩ = (.ok (), s)) :
    ∃ fs ls e, (Block 0 fs ls ∧ Eol e ∧ fs.length ≤ room) ∧ xs = ls ++ (e ++ s.rest) := by
  have hfst : (parseHeaders room ⟨pos, xs, out⟩).1 = .ok () := by rw [hs]
  rcases parseHeaders_cases 0 room xs with hopen | ⟨n, ls, e, ys, hls, he, hn, rfl⟩ | hbad
  · rw [parseHeaders_of_open hopen hk] at hfst
    cases hfst
  · obtain ⟨fs, hlen, hfs⟩ := hls.exists_block
    obtain ⟨out', -, -, hread⟩ := parseHeaders_read pos ys hls he hk
    rw [hread room hn] at hs
    cases hs
    exact ⟨fs, ls, e, ⟨hfs, he, by omega⟩, rfl⟩
  · rw [hbad pos out hk] at hfst
    cases hfst

theorem parseHeaders_read_block {buf : List UInt8} (room : Nat) (fs : List HeaderContent)
    (b rest : List UInt8)
    (h : ∃ ls e, (Block 0 fs ls ∧ Eol e ∧ fs.length ≤ room) ∧ b = ls ++ e)
    (hbuf : buf = b ++ rest) :
    ∃ r : HttpRequest, (r.headers.take r.numHeaders).map (PhrHeader.content buf) = fs ∧
      parseHeaders room ⟨0, buf, clearRequest⟩ = (.ok (), ⟨b.length, rest, r⟩) := by
  obtain ⟨ls, e, ⟨hls, he, hroom⟩, rfl⟩ := h
  obtain ⟨hs, hcontents, hread⟩ :=
    parseHeaders_content hls he [] rest (show clearRequest.numHeaders = 0 from rfl)
  rw [List.append_assoc] at hbuf
  subst hbuf
  refine ⟨{ clearRequest with headers := hs, numHeaders := fs.length }, map_content_take hcontents, ?_⟩
  have hparse := hread room hroom
  simp only [List.length_nil, Nat.zero_add] at hparse
  rw [hparse, List.length_append]
  rfl

/-- The same for a buffer that is to hold headers alone. -/
theorem phrParseHeaders_accepts_iff {buf : List UInt8} (hlen : buf.length < 2 ^ 31)
    (maxHeaders n : Nat) (fs : List HeaderContent) :
    (∃ hs k, phrParseHeaders buf maxHeaders 0 = ((n : Int), hs, k) ∧
        (hs.take k).map (PhrHeader.content buf) = fs) ↔
      ∃ ls e rest, (Block 0 fs ls ∧ Eol e ∧ fs.length ≤ maxHeaders) ∧ buf = ls ++ (e ++ rest) ∧
        ls.length + e.length = n := by
  have haccepts := gated_accepts_iff clearRequest (parseHeaders maxHeaders)
    (fun r => (r.headers.take r.numHeaders).map (PhrHeader.content buf))
    (fun fs b => ∃ ls e, (Block 0 fs ls ∧ Eol e ∧ fs.length ≤ maxHeaders) ∧ b = ls ++ e) hlen
    (fun s hs => by
      obtain ⟨fs, ls, e, hb, hbuf⟩ := parseHeaders_of_ok rfl hs
      exact ⟨fs, ls ++ e, ⟨ls, e, hb, rfl⟩, by rw [hbuf, List.append_assoc]⟩)
    (parseHeaders_read_block maxHeaders) n fs
  constructor
  · rintro ⟨hs, k, hparse, hfs⟩
    obtain ⟨r, hr, rfl, rfl⟩ : ∃ r, gated buf 0 clearRequest (parseHeaders maxHeaders) =
        ((n : Int), r) ∧ r.headers = hs ∧ r.numHeaders = k := by
      simp only [phrParseHeaders, Prod.map, id_eq, Prod.mk.injEq] at hparse
      obtain ⟨hn, hhs, hk⟩ := hparse
      exact ⟨_, Prod.ext hn rfl, hhs, hk⟩
    obtain ⟨b, rest, ⟨ls, e, hb, rfl⟩, hbuf, rfl⟩ := haccepts.mp ⟨r, hr, hfs⟩
    exact ⟨ls, e, rest, hb, by rw [hbuf, List.append_assoc], List.length_append.symm⟩
  · rintro ⟨ls, e, rest, hb, hbuf, hn⟩
    obtain ⟨r, hr, hfs⟩ := haccepts.mpr ⟨ls ++ e, rest, ⟨ls, e, hb, rfl⟩,
      by rw [hbuf, List.append_assoc], by rw [List.length_append, hn]⟩
    refine ⟨r.headers, r.numHeaders, ?_, hfs⟩
    rw [phrParseHeaders, hr]
    rfl

theorem phrParseHeaders_accepts_iff_folded :
    ∃ ls e rest, (Block 0 [(some (ascii "Host"), ascii "a"), (none, ascii " b")] ls ∧ Eol e ∧
        2 ≤ 2) ∧
      ascii "Host: a\r\n b\n\r\nmore" = ls ++ (e ++ rest) ∧ ls.length + e.length = 14 := by
  have hlen : (ascii "Host: a\r\n b\n\r\nmore").length < 2 ^ 31 := by
    decide +kernel
  have hparse : (phrParseHeaders (ascii "Host: a\r\n b\n\r\nmore") 2 0).map id
      (fun p => (p.1.take p.2).map (PhrHeader.content (ascii "Host: a\r\n b\n\r\nmore"))) =
      (((14 : Nat) : Int), [(some (ascii "Host"), ascii "a"), (none, ascii " b")]) := by
    decide +kernel
  obtain ⟨⟨hs, k⟩, hr, hfs⟩ := exists_of_map_eq hparse
  exact (phrParseHeaders_accepts_iff hlen 2 14 _).mp ⟨hs, k, hr, hfs⟩

end HttpParser

end Jullop
