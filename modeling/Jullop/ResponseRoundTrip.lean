import Jullop.Response
import Jullop.ResponseHead

/-! What `http_response_init` formats is what `phr_parse_response` reads: the round
trip of a response head. -/

namespace Jullop

open HttpParser OutputBuffer

/-- The header as a client has it. -/
def HttpHeader.content (h : HttpHeader) : HeaderContent :=
  (some (formatString h.nameLen h.name), formatString h.valueLen h.value)

/-- A header whose name and value keep to the syntax of a header line. A blank at
the start of the value would be taken for one in front of it. -/
structure HttpHeader.Sendable (h : HttpHeader) : Prop where
  name : IsName (formatString h.nameLen h.name)
  value : IsText (formatString h.valueLen h.value)
  start : ∀ c ∈ (formatString h.valueLen h.value).head?, blankMove c = .halt

theorem digits_isDigit {n : Nat} {b : UInt8} (h : b ∈ ascii (toString n)) : IsDigit b := by
  rw [ascii, Nat.toString_eq_repr, Nat.toList_repr, List.mem_map] at h
  obtain ⟨c, hc, rfl⟩ := h
  obtain ⟨hlow, hbyte⟩ := digit_toNat hc
  have hdigit := Nat.isDigit_of_mem_toDigits (by decide) (by decide) hc
  simp only [Char.isDigit, Bool.and_eq_true, decide_eq_true_eq] at hdigit
  have hhigh : c.toNat ≤ 57 := hdigit.2
  constructor
  · rw [UInt8.le_iff_toNat_le]
    exact hlow
  · rw [UInt8.le_iff_toNat_le, hbyte]
    exact hhigh

/-- The three digits of a status code. -/
theorem digits_of_status {n : Nat} (hlow : 100 ≤ n) (hhigh : n < 1000) :
    ∃ x y z, IsDigit x ∧ IsDigit y ∧ IsDigit z ∧ ascii (toString n) = [x, y, z] ∧
      (n : Int) = 100 * digitValue x + 10 * digitValue y + digitValue z := by
  have hvalue := readDecimal_digits n
  have hdigit := @digits_isDigit n
  have hlen : (ascii (toString n)).length ≤ 3 := by
    rw [ascii_length]
    exact Nat.repr_length _ 3 (by omega) hhigh
  generalize ascii (toString n) = l at hvalue hdigit hlen
  have hbyte : ∀ {b : UInt8}, b ∈ l → 48 ≤ b.toNat ∧ b.toNat ≤ 57 := fun hb =>
    ⟨UInt8.le_iff_toNat_le.mp (hdigit hb).1, UInt8.le_iff_toNat_le.mp (hdigit hb).2⟩
  rcases l with _ | ⟨x, _ | ⟨y, _ | ⟨z, _ | ⟨w, l⟩⟩⟩⟩
  · simp only [readDecimal, List.foldl_nil] at hvalue
    omega
  · have hx := hbyte (b := x) (by simp)
    simp only [readDecimal, List.foldl_cons, List.foldl_nil] at hvalue
    omega
  · have hx := hbyte (b := x) (by simp)
    have hy := hbyte (b := y) (by simp)
    simp only [readDecimal, List.foldl_cons, List.foldl_nil] at hvalue
    omega
  · have hx := hbyte (b := x) (by simp)
    have hy := hbyte (b := y) (by simp)
    have hz := hbyte (b := z) (by simp)
    simp only [readDecimal, List.foldl_cons, List.foldl_nil] at hvalue
    refine ⟨x, y, z, hdigit (by simp), hdigit (by simp), hdigit (by simp), rfl, ?_⟩
    simp only [digitValue]
    omega
  · simp only [List.length_cons] at hlen
    omega

theorem getReason_text (n : Nat) : IsText (ascii (getReason n)) := by
  unfold getReason
  split <;> decide

theorem ascii_crlf : ascii "\r\n" = [CR, LF] := by decide

theorem statusLine_of_status {n : Nat} (hlow : 100 ≤ n) (hhigh : n < 1000) :
    StatusLine 1 n (ascii (getReason n)) (statusLine n) := by
  obtain ⟨x, y, z, hx, hy, hz, hdigits, hn⟩ := digits_of_status hlow hhigh
  have hversion : ascii "HTTP/1.1 " = versionText 0x31 ++ [SP] := by decide
  have hspace : ascii " " = [SP] := by decide
  have hminor : digitValue 0x31 = 1 := by decide
  have hline := StatusLine.intro (show IsDigit 0x31 by decide) hx hy hz (getReason_text n) .crlf
  rw [← hn, hminor] at hline
  simpa only [statusLine, hversion, hspace, hdigits, ascii_crlf, List.append_assoc,
    List.cons_append, List.nil_append] using hline

theorem fieldOf_space {n v : List UInt8} (hn : IsName n) (hv : IsText v)
    (hstart : ∀ c ∈ v.head?, blankMove c = .halt) (k : Nat) :
    FieldOf k (some n, v) (n ++ (0x3a :: SP :: v)) := by
  have hblank : ∀ c ∈ [SP], blankMove c = .go := by
    intro c hc
    rw [List.mem_singleton.mp hc]
    decide
  exact .named hn hblank hv hstart

theorem HttpHeader.line_eq (h : HttpHeader) :
    h.line = (formatString h.nameLen h.name ++ (0x3a :: SP :: formatString h.valueLen h.value)) ++
      [CR, LF] := by
  have hcolon : ascii ": " = [0x3a, SP] := by decide
  have hjoin : ∀ n v : List UInt8, n ++ [0x3a, SP] ++ v ++ [CR, LF] =
      (n ++ (0x3a :: SP :: v)) ++ [CR, LF] := by
    intro n v
    simp only [List.append_assoc, List.cons_append, List.nil_append]
  rw [HttpHeader.line, hcolon, ascii_crlf]
  exact hjoin _ _

theorem block_of_headers {hs : List HttpHeader} (h : ∀ x ∈ hs, x.Sendable) (k : Nat) :
    Block k (hs.map HttpHeader.content) (hs.map HttpHeader.line).flatten := by
  induction hs generalizing k with
  | nil => exact .nil
  | cons x hs ih =>
    obtain ⟨hname, hvalue, hstart⟩ := h x (by simp)
    have hrest := ih (fun y hy => h y (by simp [hy])) (k + 1)
    rw [List.map_cons, List.map_cons, List.flatten_cons, HttpHeader.line_eq, List.append_assoc]
    exact .cons (fieldOf_space hname hvalue hstart k) .crlf hrest

/-- The head that `http_response_init` formats. -/
def responseHead (statusCode : Nat) (headers : List HttpHeader) : List UInt8 :=
  (statusLine statusCode :: headers.map HttpHeader.line).flatten ++ ascii "\r\n"

/-- The lines of a response make a head that says what they were made from. -/
theorem responseOf_lines {n : Nat} (hlow : 100 ≤ n) (hhigh : n < 1000) {hs : List HttpHeader}
    (h : ∀ x ∈ hs, x.Sendable) :
    ResponseOf ⟨1, n, some (ascii (getReason n)), hs.map HttpHeader.content⟩
      (responseHead n hs) := by
  have hresponse := ResponseOf.intro (statusLine_of_status hlow hhigh) (block_of_headers h 0) .crlf
  rwa [responseHead, List.flatten_cons, List.append_assoc, ascii_crlf]

/-- A head in front of any bytes is parsed as what it says. -/
theorem phrParseResponse_of_head {c : ResponseContent} {head : List UInt8} (h : ResponseOf c head)
    (rest : List UInt8) {maxHeaders : Nat} (hmax : c.headers.length ≤ maxHeaders)
    (hlen : head.length < 2 ^ 31) :
    ∃ r : ParsedResponse, phrParseResponse (head ++ rest) maxHeaders 0 = ((head.length : Int), r) ∧
      r.content (head ++ rest) = c := by
  obtain ⟨r, hcontent, hread⟩ := parseResponse_content h rest
  have hgated : phrParseResponse (head ++ rest) maxHeaders 0 =
      returned (parseResponse maxHeaders ⟨0, head ++ rest, clearResponse⟩) := rfl
  refine ⟨r, ?_, hcontent⟩
  rw [hgated, hread maxHeaders hmax, returned, toInt_of_lt hlen]

end Jullop
