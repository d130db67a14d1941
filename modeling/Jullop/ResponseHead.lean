import Jullop.HeadContent

/-! The response heads that `phr_parse_response` accepts, with their content. -/

namespace Jullop

namespace HttpParser

open Scanner

def IsDigit (c : UInt8) : Prop := 0x30 ≤ c ∧ c ≤ 0x39

instance (c : UInt8) : Decidable (IsDigit c) := instDecidableAnd

/-- A status line with its line end. -/
inductive StatusLine : (minorVersion status : Int) → (msg : List UInt8) → List UInt8 → Prop
  | intro {d x y z : UInt8} {t e : List UInt8} (hd : IsDigit d) (hx : IsDigit x) (hy : IsDigit y)
      (hz : IsDigit z) (ht : IsText t) (he : Eol e) :
      StatusLine (digitValue d) (100 * digitValue x + 10 * digitValue y + digitValue z) t
        (versionText d ++ SP :: x :: y :: z :: SP :: (t ++ e))

/-- A response head, up to its blank line. -/
inductive ResponseOf : ResponseContent → List UInt8 → Prop
  | intro {v st : Int} {t q ls e : List UInt8} {fs : List HeaderContent} (hq : StatusLine v st t q)
      (hls : Block 0 fs ls) (he : Eol e) : ResponseOf ⟨v, st, some t, fs⟩ (q ++ (ls ++ e))

variable {pos : Nat} {xs : List UInt8} {out : ParsedResponse}

theorem onShared_eq {β : Type} {p : Parse β} {r : Except Stop β} {s : Cursor UInt8 HttpRequest}
    (h : p ⟨pos, xs, out.shared⟩ = (r, s)) :
    onShared p ⟨pos, xs, out⟩ = (r, ⟨s.pos, s.rest, out.setShared s.out⟩) := zoom_eq h

theorem skipSpace_read : skipSpace ⟨pos, SP :: xs, out⟩ = (.ok (), ⟨pos + 1, xs, out⟩) := by
  simp [skipSpace, bind_apply]

theorem parseDigit_read {c : UInt8} (hc : IsDigit c) (store : Int → ParsedResponse → ParsedResponse) :
    parseDigit store ⟨pos, c :: xs, out⟩ = (.ok (), ⟨pos + 1, xs, store (digitValue c) out⟩) := by
  have hlow : ¬ c < 0x30 := UInt8.not_lt.mpr hc.1
  have hhigh : ¬ 0x39 < c := UInt8.not_lt.mpr hc.2
  simp [parseDigit, bind_apply, hlow, hhigh, digitValue]

theorem parseInt3_read {x y z : UInt8} (hx : IsDigit x) (hy : IsDigit y) (hz : IsDigit z) :
    parseInt3 ⟨pos, x :: y :: z :: xs, out⟩ =
      (.ok (), ⟨pos + 1 + 1 + 1, xs,
        { out with status := 100 * digitValue x + 10 * digitValue y + digitValue z }⟩) := by
  rw [parseInt3, bind_ok (parseDigit_read hx _), bind_ok (parseDigit_read hy _), parseDigit_read hz]

theorem parseMsg_read {t e : List UInt8} (ht : IsText t) (he : Eol e) :
    parseMsg ⟨pos, t ++ (e ++ xs), out⟩ =
      (.ok (), ⟨pos + t.length + e.length, xs, { out with msg := some ⟨pos, t.length⟩ }⟩) := by
  rw [parseMsg, bind_ok (onShared_eq (getTokenToEol_read ht he))]
  rfl

theorem parseResponse_line {v st : Int} {t q : List UInt8} (h : StatusLine v st t q) :
    ∃ msg, (∀ xs, Slice.read (q ++ xs) msg = t) ∧
      ∀ room xs, parseResponse room ⟨0, q ++ xs, clearResponse⟩ =
        onShared (parseHeaders room) ⟨q.length, xs, ⟨v, st, some msg, [], 0⟩⟩ := by
  obtain @⟨d, x, y, z, t, e, hd, hx, hy, hz, ht, he⟩ := h
  refine ⟨⟨0 + 8 + 1 + 1 + 1 + 1 + 1, t.length⟩, fun xs => ?_, fun room xs => ?_⟩
  · have hread := read_between (versionText d ++ [SP, x, y, z, SP]) t (e ++ xs)
    simpa [versionText] using hread
  · have hversion := parseHttpVersion_digit hd.1 hd.2 0
      (List.cons_ne_nil SP (x :: y :: z :: SP :: (t ++ (e ++ xs)))) clearResponse.shared
    have hrequire : ∀ out : ParsedResponse,
        require 4 ⟨0 + 8 + 1, x :: y :: z :: SP :: (t ++ (e ++ xs)), out⟩ =
          (.ok (), ⟨0 + 8 + 1, x :: y :: z :: SP :: (t ++ (e ++ xs)), out⟩) := by
      intro out
      simp [require]
    have hlen : (versionText d ++ SP :: x :: y :: z :: SP :: (t ++ e)).length =
        0 + 8 + 1 + 1 + 1 + 1 + 1 + t.length + e.length := by
      simp only [List.length_append, List.length_cons, versionText, List.length_nil]
      omega
    simp only [List.append_assoc, List.cons_append] at hversion ⊢
    rw [hlen, parseResponse, bind_ok (onShared_eq hversion), bind_ok skipSpace_read, bind_ok (hrequire _),
      bind_ok (parseInt3_read hx hy hz), bind_ok skipSpace_read, bind_ok (parseMsg_read ht he)]
    rfl

/-- A response head is read as its content, as long as the headers fit. -/
theorem parseResponse_content {c : ResponseContent} {b : List UInt8} (h : ResponseOf c b)
    (xs : List UInt8) :
    ∃ r : ParsedResponse, r.content (b ++ xs) = c ∧ ∀ room, c.headers.length ≤ room →
      parseResponse room ⟨0, b ++ xs, clearResponse⟩ = (.ok (), ⟨b.length, xs, r⟩) := by
  obtain @⟨v, st, t, q, ls, e, fs, hq, hls, he⟩ := h
  obtain ⟨msg, hmsg, hline⟩ := parseResponse_line hq
  obtain ⟨hs, hcontents, hread⟩ := parseHeaders_content hls he q xs
    (show (ParsedResponse.shared ⟨v, st, some msg, [], 0⟩).numHeaders = 0 from rfl)
  refine ⟨⟨v, st, some msg, hs, fs.length⟩, ?_, fun room hroom => ?_⟩
  · rw [List.append_assoc, List.append_assoc]
    simp only [ParsedResponse.content, Option.map_some, hmsg, map_content_take hcontents]
  · rw [List.append_assoc, List.append_assoc, hline, onShared_eq (hread room hroom)]
    simp [ParsedResponse.setShared, ParsedResponse.shared]

/-! A parse that comes to its end has read a head. -/

theorem exists_of_bind_ok {β γ : Type} {p : ParseResponse β} {f : β → ParseResponse γ}
    {s s' : Cursor UInt8 ParsedResponse} {b : γ} (h : (p >>= f) s = (.ok b, s')) :
    ∃ a u, p s = (.ok a, u) ∧ f a u = (.ok b, s') := by
  rcases bind_cases p f s with ⟨a, u, hs, hb⟩ | ⟨e, u, hs, hb⟩
  · exact ⟨a, u, hs, hb ▸ h⟩
  · rw [hb] at h
    cases h

theorem parseHttpVersion_of_ok {s : Cursor UInt8 ParsedResponse}
    (h : onShared parseHttpVersion ⟨pos, xs, out⟩ = (.ok (), s)) :
    ∃ d, IsDigit d ∧ xs = versionText d ++ s.rest := by
  have hfst : (parseHttpVersion ⟨pos, xs, out.shared⟩).1 = .ok () := congrArg Prod.fst h
  rcases parseHttpVersion_cases xs with hw | ⟨v, ys, @⟨d, hlow, hhigh⟩, hys, rfl⟩ | hbad
  · rw [parseHttpVersion_waits hw] at hfst
    cases hfst
  · have hread := onShared_eq (parseHttpVersion_digit hlow hhigh pos hys out.shared)
    have hrest := congrArg (Cursor.rest ·.2) (h.symm.trans hread)
    exact ⟨d, ⟨hlow, hhigh⟩, congrArg (versionText d ++ ·) (Eq.symm hrest)⟩
  · rw [hbad] at hfst
    cases hfst

theorem skipSpace_of_ok {s : Cursor UInt8 ParsedResponse}
    (h : skipSpace ⟨pos, xs, out⟩ = (.ok (), s)) : xs = SP :: s.rest := by
  rcases xs with _ | ⟨c, xs⟩
  · simp [skipSpace, bind_apply] at h
  · by_cases hc : c = SP
    · rw [hc, skipSpace_read] at h
      cases h
      rw [hc]
    · simp [skipSpace, bind_apply, hc] at h

theorem require_of_ok {n : Nat} {s : Cursor UInt8 ParsedResponse}
    (h : require n ⟨pos, xs, out⟩ = (.ok (), s)) : xs = s.rest := by
  simp only [require] at h
  split at h
  · cases h
  · cases h
    rfl

theorem parseDigit_of_ok {store : Int → ParsedResponse → ParsedResponse}
    {s : Cursor UInt8 ParsedResponse} (h : parseDigit store ⟨pos, xs, out⟩ = (.ok (), s)) :
    ∃ c, IsDigit c ∧ xs = c :: s.rest := by
  rcases xs with _ | ⟨c, xs⟩
  · simp [parseDigit, bind_apply] at h
  · by_cases hc : IsDigit c
    · rw [parseDigit_read hc] at h
      cases h
      exact ⟨c, hc, rfl⟩
    · have hbad : c < 0x30 ∨ 0x39 < c := by
        rw [IsDigit, not_and_or, UInt8.not_le, UInt8.not_le] at hc
        exact hc
      simp [parseDigit, bind_apply, hbad] at h

theorem parseInt3_of_ok {s : Cursor UInt8 ParsedResponse}
    (h : parseInt3 ⟨pos, xs, out⟩ = (.ok (), s)) :
    ∃ x y z, IsDigit x ∧ IsDigit y ∧ IsDigit z ∧ xs = x :: y :: z :: s.rest := by
  obtain ⟨_, u, hu, h'⟩ := exists_of_bind_ok h
  obtain ⟨_, v, hv, hw⟩ := exists_of_bind_ok h'
  obtain ⟨x, hx, hxs⟩ := parseDigit_of_ok hu
  obtain ⟨y, hy, hys⟩ := parseDigit_of_ok hv
  obtain ⟨z, hz, hzs⟩ := parseDigit_of_ok hw
  exact ⟨x, y, z, hx, hy, hz, by rw [hxs, hys, hzs]⟩

theorem parseMsg_of_ok {s : Cursor UInt8 ParsedResponse}
    (h : parseMsg ⟨pos, xs, out⟩ = (.ok (), s)) :
    ∃ t e, IsText t ∧ Eol e ∧ xs = t ++ (e ++ s.rest) := by
  obtain ⟨a, u, hu, hset⟩ := exists_of_bind_ok h
  have hfst : (getTokenToEol ⟨pos, xs, out.shared⟩).1 = .ok a := congrArg Prod.fst hu
  rcases getTokenToEol_cases xs with ht | ⟨t, ht, rfl⟩ | ⟨t, e, ys, ht, he, rfl⟩ | hbad
  · rw [getTokenToEol_waits ht] at hfst
    cases hfst
  · rw [getTokenToEol_cr ht] at hfst
    cases hfst
  · rw [parseMsg_read ht he] at h
    cases h
    exact ⟨t, e, ht, he, rfl⟩
  · rw [hbad] at hfst
    cases hfst

theorem parseResponse_of_ok {room : Nat} {s : Cursor UInt8 ParsedResponse}
    (h : parseResponse room ⟨0, xs, clearResponse⟩ = (.ok (), s)) :
    ∃ c b, (ResponseOf c b ∧ c.headers.length ≤ room) ∧ xs = b ++ s.rest := by
  have hparse := h
  rw [parseResponse] at h
  obtain ⟨_, s1, h1, h⟩ := exists_of_bind_ok h
  obtain ⟨_, s2, h2, h⟩ := exists_of_bind_ok h
  obtain ⟨_, s3, h3, h⟩ := exists_of_bind_ok h
  obtain ⟨_, s4, h4, h⟩ := exists_of_bind_ok h
  obtain ⟨_, s5, h5, h⟩ := exists_of_bind_ok h
  obtain ⟨_, s6, h6, -⟩ := exists_of_bind_ok h
  obtain ⟨d, hd, hxs⟩ := parseHttpVersion_of_ok h1
  have hsp := skipSpace_of_ok h2
  have hreq := require_of_ok h3
  obtain ⟨x, y, z, hx, hy, hz, hdigits⟩ := parseInt3_of_ok h4
  have hsp' := skipSpace_of_ok h5
  obtain ⟨t, e, ht, he, hmsg⟩ := parseMsg_of_ok h6
  have hline := StatusLine.intro hd hx hy hz ht he
  have hall : xs = versionText d ++ SP :: x :: y :: z :: SP :: (t ++ e) ++ s6.rest := by
    rw [hxs, hsp, hreq, hdigits, hsp', hmsg]
    simp only [List.append_assoc, List.cons_append]
  obtain ⟨msg, -, hrest⟩ := parseResponse_line hline
  rw [hall, hrest] at hparse
  rcases hheaders : parseHeaders room ⟨_, s6.rest, _⟩ with ⟨u | u, s7⟩
  · rw [onShared_eq hheaders] at hparse
    cases hparse
  · obtain ⟨fs, ls, e', ⟨hfs, he', hroom⟩, hls⟩ := parseHeaders_of_ok rfl hheaders
    rw [onShared_eq hheaders] at hparse
    cases hparse
    refine ⟨_, _, ⟨.intro hline hfs he', hroom⟩, ?_⟩
    rw [hall, hls]
    simp only [List.append_assoc]

/-- The parser accepts a buffer exactly if a response head stands at its start, and
then what it leaves is the length and the content of that head. -/
theorem phrParseResponse_accepts_iff {buf : List UInt8} (hlen : buf.length < 2 ^ 31)
    (maxHeaders n : Nat) (c : ResponseContent) :
    (∃ r, phrParseResponse buf maxHeaders 0 = ((n : Int), r) ∧ r.content buf = c) ↔
      ∃ b rest, (ResponseOf c b ∧ c.headers.length ≤ maxHeaders) ∧ buf = b ++ rest ∧
        b.length = n := by
  refine gated_accepts_iff clearResponse (parseResponse maxHeaders) (ParsedResponse.content · buf)
    (fun c b => ResponseOf c b ∧ c.headers.length ≤ maxHeaders) hlen
    (fun s hs => parseResponse_of_ok hs) (fun c b rest hb hbuf => ?_) n c
  subst hbuf
  obtain ⟨r, hcontent, hread⟩ := parseResponse_content hb.1 rest
  exact ⟨r, hcontent, hread _ hb.2⟩

theorem phrParseResponse_accepts_iff_not_found :
    ∃ b rest, (ResponseOf ⟨0, 404, some (ascii "Not Found"), [(some (ascii "Server"), ascii "a")]⟩ b ∧
        1 ≤ 1) ∧
      ascii "HTTP/1.0 404 Not Found\r\nServer: a\r\n\r\nmore" = b ++ rest ∧ b.length = 37 := by
  have hlen : (ascii "HTTP/1.0 404 Not Found\r\nServer: a\r\n\r\nmore").length < 2 ^ 31 := by
    decide +kernel
  have hparse : (phrParseResponse (ascii "HTTP/1.0 404 Not Found\r\nServer: a\r\n\r\nmore") 1 0).map
      id (ParsedResponse.content · (ascii "HTTP/1.0 404 Not Found\r\nServer: a\r\n\r\nmore")) =
      (((37 : Nat) : Int),
        ⟨0, 404, some (ascii "Not Found"), [(some (ascii "Server"), ascii "a")]⟩) := by
    decide +kernel
  exact (phrParseResponse_accepts_iff hlen 1 37 _).mp (exists_of_map_eq hparse)

end HttpParser

end Jullop
