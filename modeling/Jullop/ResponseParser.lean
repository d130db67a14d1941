import Jullop.RequestContext

/-! The response parser and the header parser of `picohttpparser.c`. They share
the functions for the version, the lines and the headers with the request parser. -/

namespace Jullop

/-- The arguments that `phr_parse_response` fills in. -/
structure ParsedResponse where
  minorVersion : Int
  status : Int
  msg : Option Slice
  headers : List PhrHeader
  numHeaders : Nat
  deriving DecidableEq, Repr

/-- The arguments that the functions shared with the request parser fill in. -/
def ParsedResponse.shared (r : ParsedResponse) : HttpRequest :=
  ⟨none, none, r.minorVersion, r.headers, r.numHeaders⟩

def ParsedResponse.setShared (q : HttpRequest) (r : ParsedResponse) : ParsedResponse :=
  { r with minorVersion := q.minorVersion, headers := q.headers, numHeaders := q.numHeaders }

namespace HttpParser

open Scanner

variable {β : Type}

abbrev ParseResponse := Scanner UInt8 ParsedResponse

def onShared (p : Parse β) : ParseResponse β := zoom ParsedResponse.shared ParsedResponse.setShared p

def skipSpace : ParseResponse Unit := do
  let c ← current
  if c ≠ SP then stop .malformed else advance

/-- `PARSE_INT` for one of the digits of `PARSE_INT_3`. -/
def parseDigit (store : Int → ParsedResponse → ParsedResponse) : ParseResponse Unit := do
  let c ← current
  if c < 0x30 || 0x39 < c then stop .malformed
  else do
    setOutput (store ((c.toNat : Int) - 0x30))
    advance

def parseInt3 : ParseResponse Unit := do
  parseDigit fun d r => { r with status := 100 * d }
  parseDigit fun d r => { r with status := r.status + 10 * d }
  parseDigit fun d r => { r with status := r.status + d }

def parseMsg : ParseResponse Unit := do
  let msg ← onShared getTokenToEol
  setOutput fun r => { r with msg := some msg }

def parseResponse (maxHeaders : Nat) : ParseResponse Unit := do
  onShared parseHttpVersion
  skipSpace
  require 4
  parseInt3
  skipSpace
  parseMsg
  onShared (parseHeaders maxHeaders)

def clearResponse : ParsedResponse :=
  { minorVersion := -1, status := 0, msg := none, headers := [], numHeaders := 0 }

/-- The value returned when a parse that began at the start of the buffer ends. -/
def returned {σ : Type} : Except Stop Unit × Cursor UInt8 σ → Int × σ
  | (.error e, s) => (Stop.ret e, s.out)
  | (.ok (), s) => (toInt s.pos, s.out)

/-- A parse of the buffer, behind the test for a blank line. -/
def gated {σ : Type} (buf : List UInt8) (lastLen : Nat) (clear : σ) (p : Scanner UInt8 σ Unit) :
    Int × σ :=
  match (if lastLen ≠ 0 then isComplete buf lastLen else .ok ()) with
  | .error e => (Stop.ret e, clear)
  | .ok () => returned (p ⟨0, buf, clear⟩)

/-- `maxHeaders` is `*num_headers` at the call. -/
def phrParseResponse (buf : List UInt8) (maxHeaders lastLen : Nat) : Int × ParsedResponse :=
  gated buf lastLen clearResponse (parseResponse maxHeaders)

/-- Only the headers and their number are arguments here. -/
def phrParseHeaders (buf : List UInt8) (maxHeaders lastLen : Nat) : Int × List PhrHeader × Nat :=
  (gated buf lastLen clearRequest (parseHeaders maxHeaders)).map id
    fun r => (r.headers, r.numHeaders)

/-- What the parser leaves, read from the buffer. -/
structure ResponseContent where
  minorVersion : Int
  status : Int
  msg : Option (List UInt8)
  headers : List (Option (List UInt8) × List UInt8)
  deriving DecidableEq, Repr

end HttpParser

open HttpParser

/-- A header as it is read: its name, which a continuation line has none of, and
its value. -/
abbrev HeaderContent := Option (List UInt8) × List UInt8

def PhrHeader.content (buf : List UInt8) (h : PhrHeader) : HeaderContent :=
  (h.name.map (Slice.read buf), h.value.read buf)

def ParsedResponse.content (r : ParsedResponse) (buf : List UInt8) : ResponseContent where
  minorVersion := r.minorVersion
  status := r.status
  msg := r.msg.map (Slice.read buf)
  headers := (r.headers.take r.numHeaders).map (PhrHeader.content buf)

namespace HttpParser

theorem forall_byte {P : UInt8 → Prop} (h : ∀ n < 256, P (UInt8.ofNat n)) (c : UInt8) : P c := by
  have hc := h c.toNat c.toNat_lt
  rwa [UInt8.ofNat_toNat] at hc

theorem phrParseRequest_eq_gated (buf : List UInt8) (r : HttpRequest) (lastLen : Nat) :
    phrParseRequest buf r lastLen = gated buf lastLen clearRequest (parseRequest r.numHeaders) := by
  cases hcheck : (if lastLen ≠ 0 then isComplete buf lastLen else .ok ()) with
  | error e => simp only [phrParseRequest, gated, hcheck]
  | ok u =>
    simp only [phrParseRequest, gated, hcheck]
    rcases parseRequest r.numHeaders ⟨0, buf, clearRequest⟩ with ⟨_ | _, s⟩ <;> rfl

/-- A parse that comes to its end behind the words of a language, with the content
of the word, returns a length exactly if a word of that length is at the start. -/
theorem gated_accepts_iff {σ C : Type} {buf : List UInt8} (clear : σ) (p : Scanner UInt8 σ Unit)
    (content : σ → C) (L : C → List UInt8 → Prop) (hlen : buf.length < 2 ^ 31)
    (hok : ∀ s, p ⟨0, buf, clear⟩ = (.ok (), s) → ∃ c b, L c b ∧ buf = b ++ s.rest)
    (hread : ∀ c b rest, L c b → buf = b ++ rest →
      ∃ r, content r = c ∧ p ⟨0, buf, clear⟩ = (.ok (), ⟨b.length, rest, r⟩))
    (n : Nat) (c : C) :
    (∃ r, gated buf 0 clear p = ((n : Int), r) ∧ content r = c) ↔
      ∃ b rest, L c b ∧ buf = b ++ rest ∧ b.length = n := by
  have hgated : gated buf 0 clear p = returned (p ⟨0, buf, clear⟩) := rfl
  have hpos : ∀ {b rest : List UInt8}, buf = b ++ rest → toInt b.length = b.length := by
    rintro b rest rfl
    rw [List.length_append] at hlen
    exact Int.bmod_eq_of_le (n := (b.length : Int)) (m := 2 ^ 32) (by omega) (by omega)
  rw [hgated]
  constructor
  · rintro ⟨r, hr, rfl⟩
    rcases hs : p ⟨0, buf, clear⟩ with ⟨e | u, s⟩
    · rw [hs] at hr
      have hret : Stop.ret e = n := congrArg Prod.fst hr
      cases e <;> simp only [Stop.ret] at hret <;> omega
    · obtain ⟨c, b, hb, hbuf⟩ := hok s hs
      obtain ⟨r', rfl, hr'⟩ := hread c b s.rest hb hbuf
      rw [hr', returned, hpos hbuf, Prod.mk.injEq] at hr
      obtain ⟨hn, rfl⟩ := hr
      exact ⟨b, s.rest, hb, hbuf, by omega⟩
  · rintro ⟨b, rest, hb, hbuf, rfl⟩
    obtain ⟨r, hc, hr⟩ := hread c b rest hb hbuf
    exact ⟨r, by rw [hr, returned, hpos hbuf], hc⟩

theorem exists_of_map_eq {σ C : Type} {p : Int × σ} {content : σ → C} {n : Int} {c : C}
    (h : p.map id content = (n, c)) : ∃ r, p = (n, r) ∧ content r = c := by
  obtain ⟨m, r⟩ := p
  rw [Prod.map_apply, Prod.mk.injEq] at h
  exact ⟨r, by rw [← h.1, id_eq], h.2⟩

end HttpParser

end Jullop
