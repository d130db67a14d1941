import Jullop.BlockScan
import Jullop.ResponseParser

/-! The parsers of `picohttpparser.c` with the fast paths that the preprocessor
selects: 16 bytes at a time with SSE 4.2, and a loop that is unrolled eight times
without. They do what the plain parsers do. -/

namespace Jullop

namespace HttpParser

open Scanner

/-- Whether `__SSE4_2__` is defined. -/
inductive Build
  | sse42
  | portable
  deriving DecidableEq, Repr

abbrev FastParse := Checked UInt8 HttpRequest

abbrev FastParseResponse := Checked UInt8 ParsedResponse

/-- A byte in one of the ranges, of which each is given by its ends. -/
def inRanges : (ranges : List UInt8) → UInt8 → Bool
  | low :: high :: ranges, c => low ≤ c && c ≤ high || inRanges ranges c
  | _, _ => false

def tokenRanges : List UInt8 := [0o000, 0o040, 0o177, 0o177]

def eolRanges : List UInt8 := [0o000, 0o010, 0o012, 0o037, 0o177, 0o177]

def nameRanges : List UInt8 :=
  [0x00, 0x20, 0x22, 0x22, 0x28, 0x29, 0x2c, 0x2c, 0x2f, 0x2f, 0x3a, 0x40, 0x5b, 0x5d, 0x7b, 0xff]

/-- The test at `NonPrintable`. -/
def isCtl (c : UInt8) : Bool := c < 0o40 && c ≠ HT || c = 0o177

/-- The unrolled loop of `get_token_to_eol`. Every turn passes over a byte. -/
def unrolled : (turns : Nat) → List UInt8 → Option (Nat × Bool)
  | 0, _ => none
  | turns + 1, xs =>
    if 8 ≤ xs.length then do
      -- eight times `DOIT`
      let (n, nonPrintable) ← Checked.searchBlocks 1 (fun c => !isPrintableAscii c) 8 xs
      if nonPrintable then
        let c ← xs[n]?
        if isCtl c then return (n, true)
        let (m, found) ← unrolled turns (xs.drop (n + 1))
        return (n + 1 + m, found)
      else
        let (m, found) ← unrolled turns (xs.drop n)
        return (n + m, found)
    else some (0, false)

def checkEof {σ : Type} : Scanner UInt8 σ Unit := do
  let _ ← current

namespace Build

variable (b : Build)

/-- The index of `_mm_cmpestri` is the place in the block of the first byte in the
ranges, or 16. -/
def findcharFast (ranges buf : List UInt8) : Option (Nat × Bool) :=
  match b with
  | .sse42 =>
    if 16 ≤ buf.length then Checked.searchBlocks 16 (inRanges ranges) (buf.length / 16) buf
    else some (0, false)
  | .portable => some (0, false)

def searchEol (buf : List UInt8) : Option (Nat × Bool) :=
  match b with
  | .sse42 => findcharFast .sse42 eolRanges buf
  | .portable => unrolled (buf.length + 1) buf

def advanceToken : FastParse Slice := do
  let tokStart ← Checked.lift position
  let toklen ← Checked.scanAfter (b.findcharFast tokenRanges) fun found => do
    (if found then pure () else checkEof)
    let _ ← scan tokenMove
  return ⟨tokStart, toklen⟩

def getTokenToEol : FastParse Slice := do
  let tokenStart ← Checked.lift position
  let tokenLen ← Checked.scanAfter b.searchEol fun found => do
    if found then pure () else
      let _ ← scan eolMove
  Checked.lift (lineEnd (stop .malformed))
  return ⟨tokenStart, tokenLen⟩

def headerName : FastParse (Option Slice) := do
  let start ← Checked.lift position
  let len ← Checked.scanAfter (b.findcharFast nameRanges) fun found => do
    (if found then pure () else checkEof)
    let _ ← scan nameMove
  if len = 0 then Checked.lift (stop .malformed)
  else do
    Checked.lift advance
    let _ ← Checked.lift (scan blankMove)
    return some ⟨start, len⟩

def headerValue (name : Option Slice) : FastParse Unit := do
  let value ← b.getTokenToEol
  Checked.lift (setOutput fun r =>
    { r with headers := r.headers ++ [⟨name, value⟩], numHeaders := r.numHeaders + 1 })

def parseHeader : FastParse Unit := do
  let c ← Checked.lift current
  let r ← Checked.lift output
  let name ← if r.numHeaders ≠ 0 && (c = SP || c = HT) then pure none else b.headerName
  b.headerValue name

/-- `lineEnd`, where what else to do has fast paths. -/
def lineEndOr (otherwise : FastParse Unit) : FastParse Unit := do
  let c ← Checked.lift current
  if c = CR then Checked.lift do advance; expectChar LF
  else if c = LF then Checked.lift advance
  else otherwise

def parseHeaders : (room : Nat) → FastParse Unit
  | 0 => Checked.lift (lineEnd (stop .malformed))
  | room + 1 => lineEndOr do
      b.parseHeader
      parseHeaders room

def parseMethodPath : FastParse Unit := do
  let method ← b.advanceToken
  Checked.lift (setOutput fun r => { r with method := some method })
  Checked.lift advance
  let path ← b.advanceToken
  Checked.lift (setOutput fun r => { r with path := some path })
  Checked.lift advance

def parseTarget : FastParse Unit := do
  Checked.lift (lineEnd (pure ()))
  b.parseMethodPath

def parseRequest (maxHeaders : Nat) : FastParse Unit := do
  b.parseTarget
  Checked.lift parseHttpVersion
  Checked.lift (lineEnd (stop .malformed))
  b.parseHeaders maxHeaders

def parseMsg : FastParseResponse Unit := do
  let msg ← Checked.zoom ParsedResponse.shared ParsedResponse.setShared b.getTokenToEol
  Checked.lift (setOutput fun r => { r with msg := some msg })

def parseResponse (maxHeaders : Nat) : FastParseResponse Unit := do
  Checked.lift (onShared parseHttpVersion)
  Checked.lift skipSpace
  Checked.lift (require 4)
  Checked.lift parseInt3
  Checked.lift skipSpace
  b.parseMsg
  Checked.zoom ParsedResponse.shared ParsedResponse.setShared (b.parseHeaders maxHeaders)

/-- `none` is a read past the end of the buffer. -/
def gated {σ : Type} (buf : List UInt8) (lastLen : Nat) (clear : σ) (q : Checked UInt8 σ Unit) :
    Option (Int × σ) :=
  match (if lastLen ≠ 0 then isComplete buf lastLen else .ok ()) with
  | .error e => some (Stop.ret e, clear)
  | .ok () => (q ⟨0, buf, clear⟩).map returned

def phrParseRequest (buf : List UInt8) (r : HttpRequest) (lastLen : Nat) :
    Option (Int × HttpRequest) :=
  gated buf lastLen clearRequest (b.parseRequest r.numHeaders)

def phrParseResponse (buf : List UInt8) (maxHeaders lastLen : Nat) : Option (Int × ParsedResponse) :=
  gated buf lastLen clearResponse (b.parseResponse maxHeaders)

def phrParseHeaders (buf : List UInt8) (maxHeaders lastLen : Nat) :
    Option (Int × List PhrHeader × Nat) :=
  (gated buf lastLen clearRequest (b.parseHeaders maxHeaders)).map
    fun p => p.map id fun r => (r.headers, r.numHeaders)

end Build

/-! The searches stop where the plain loops do not go on. -/

open Checked

theorem tokenMove_go : ∀ c, inRanges tokenRanges c = false → tokenMove c = .go :=
  forall_byte (by decide +kernel)

/-- The ranges hold `|` and `~` too, over which the loop then goes on. -/
theorem nameMove_go : ∀ c, inRanges nameRanges c = false → nameMove c = .go :=
  forall_byte (by decide +kernel)

theorem eolMove_eq : ∀ c, eolMove c = if inRanges eolRanges c = true then .halt else .go :=
  forall_byte (by decide +kernel)

theorem inRanges_printable : ∀ c, isPrintableAscii c = true → inRanges eolRanges c = false :=
  forall_byte (by decide +kernel)

theorem inRanges_nonPrintable : ∀ c, isPrintableAscii c = false → inRanges eolRanges c = isCtl c :=
  forall_byte (by decide +kernel)

theorem findcharFast_passed (b : Build) (ranges xs : List UInt8) :
    ∃ n found, b.findcharFast ranges xs = some (n, found) ∧ Passed (inRanges ranges) xs n found := by
  cases b with
  | portable => exact ⟨0, false, rfl, .nothing _ xs⟩
  | sse42 =>
    by_cases hlen : 16 ≤ xs.length
    · obtain ⟨n, found, hn, hpassed, -⟩ :=
        searchBlocks_passed (inRanges ranges) (Nat.div_mul_le_self xs.length 16)
      exact ⟨n, found, by rw [Build.findcharFast, if_pos hlen, hn], hpassed⟩
    · exact ⟨0, false, by rw [Build.findcharFast, if_neg hlen], .nothing _ xs⟩

/-- The bytes that a turn of the unrolled loop passes over, and then those of the
turns that follow. -/
theorem passed_drop {p : UInt8 → Bool} {xs : List UInt8} {n m : Nat} {found : Bool}
    (hn : n ≤ xs.length) (hbefore : ∀ x ∈ xs.take n, p x = false)
    (h : Passed p (xs.drop n) m found) : Passed p xs (n + m) found := by
  have happ := h.append hbefore
  rwa [List.take_append_drop, List.length_take, Nat.min_eq_left hn] at happ

theorem unrolled_passed {turns : Nat} {xs : List UInt8} (h : xs.length < turns) :
    ∃ n found, unrolled turns xs = some (n, found) ∧ Passed (inRanges eolRanges) xs n found := by
  induction turns generalizing xs with
  | zero => omega
  | succ turns ih =>
    by_cases hlen : 8 ≤ xs.length
    · obtain ⟨n, nonPrintable, hn, hpassed, hall⟩ :=
        searchBlocks_passed (fun c => !isPrintableAscii c) (show 8 * 1 ≤ xs.length from hlen)
      have hle := hpassed.le
      have hbefore : ∀ x ∈ xs.take n, inRanges eolRanges x = false := by
        intro x hx
        exact inRanges_printable x (by simpa using hpassed.before x hx)
      cases nonPrintable with
      | false =>
        have hn8 := hall rfl
        have hshort : (xs.drop n).length < turns := by
          rw [List.length_drop]
          omega
        obtain ⟨m, found, hm, hrest⟩ := ih hshort
        refine ⟨n + m, found, ?_, passed_drop hle hbefore hrest⟩
        simp [unrolled, hlen, hn, hm]
      | true =>
        obtain ⟨c, hc, hprint⟩ := hpassed.here rfl
        have hctl := inRanges_nonPrintable c (by simpa using hprint)
        rw [Option.mem_def] at hc
        by_cases hend : isCtl c = true
        · refine ⟨n, true, by simp [unrolled, hlen, hn, hc, hend], hle, hbefore, fun _ => ?_⟩
          exact ⟨c, hc, hctl.trans hend⟩
        · have hshort : (xs.drop (n + 1)).length < turns := by
            rw [List.length_drop]
            omega
          obtain ⟨m, found, hm, hrest⟩ := ih hshort
          have hlt : n < xs.length := (List.getElem?_eq_some_iff.mp hc).1
          have hpast : ∀ x ∈ xs.take (n + 1), inRanges eolRanges x = false := by
            intro x hx
            rw [List.take_add_one, hc, Option.toList_some, List.mem_append, List.mem_singleton] at hx
            rcases hx with hx | rfl
            · exact hbefore x hx
            · exact hctl.trans (Bool.eq_false_iff.mpr hend)
          refine ⟨n + 1 + m, found, ?_, passed_drop hlt hpast hrest⟩
          simp [unrolled, hlen, hn, hc, hend, hm]
    · exact ⟨0, false, by rw [unrolled, if_neg hlen], .nothing _ xs⟩

theorem searchEol_passed (b : Build) (xs : List UInt8) :
    ∃ n found, b.searchEol xs = some (n, found) ∧ Passed (inRanges eolRanges) xs n found := by
  cases b with
  | sse42 => exact findcharFast_passed .sse42 eolRanges xs
  | portable => exact unrolled_passed (Nat.lt_succ_self _)

/-! Each fast parser implements the plain one. -/

section Implements

variable (b : Build)

/-- After a search that has found nothing, the test for the end is one that the loop
makes as well. -/
theorem checkEof_scan {p : UInt8 → Bool} {f : UInt8 → Move} {xs : List UInt8} {n : Nat}
    {found : Bool} (h : Passed p xs n found) (pos : Nat) (out : HttpRequest) :
    ((if found then pure () else checkEof) >>= fun _ => scan f >>= fun _ => pure ())
        (⟨pos, xs.drop n, out⟩ : Cursor UInt8 HttpRequest) =
      (scan f >>= fun _ => pure ()) ⟨pos, xs.drop n, out⟩ := by
  cases found with
  | true => rfl
  | false =>
    cases xs.drop n with
    | nil => rfl
    | cons c cs => rfl

theorem advanceToken_implements : Implements b.advanceToken advanceToken := by
  refine .bind (.lift _) fun tokStart => .bind ?_ fun toklen => .lift _
  exact implements_scanAfter (findcharFast_passed b tokenRanges) tokenMove_go checkEof_scan

/-- The loop halts where the search for a line end has found one. -/
theorem found_scan {xs : List UInt8} {n : Nat} {found : Bool}
    (h : Passed (inRanges eolRanges) xs n found) (pos : Nat) (out : HttpRequest) :
    (if found then pure () else scan eolMove >>= fun _ => pure ())
        (⟨pos, xs.drop n, out⟩ : Cursor UInt8 HttpRequest) =
      (scan eolMove >>= fun _ => pure ()) ⟨pos, xs.drop n, out⟩ := by
  cases found with
  | false => rfl
  | true =>
    obtain ⟨c, hc, hctl⟩ := h.here rfl
    have hhalt : eolMove c = .halt := by rw [eolMove_eq, if_pos hctl]
    have hdrop : xs.drop n = [] ++ c :: xs.drop (n + 1) := by
      obtain ⟨hlt, rfl⟩ := List.getElem?_eq_some_iff.mp hc
      exact List.drop_eq_getElem_cons hlt
    rw [hdrop, Scanner.bind_ok (scan_halts (by simp) hhalt _ pos out)]
    rfl

theorem getTokenToEol_implements : Implements b.getTokenToEol getTokenToEol := by
  refine .bind (.lift _) fun tokStart => .bind ?_ fun toklen => .bind (.lift _) fun _ => .lift _
  refine implements_scanAfter (searchEol_passed b) (fun c hc => ?_) found_scan
  rw [eolMove_eq, hc]
  rfl

theorem headerName_implements : Implements b.headerName headerName := by
  refine .bind (.lift _) fun start => .bind ?_ fun len => .ite (.lift _) ?_
  · exact implements_scanAfter (findcharFast_passed b nameRanges) nameMove_go checkEof_scan
  · exact .bind (.lift _) fun _ => .bind (.lift _) fun _ => .lift _

theorem headerValue_implements (name : Option Slice) :
    Implements (b.headerValue name) (headerValue name) :=
  .bind (getTokenToEol_implements b) fun _ => .lift _

theorem parseHeader_implements : Implements b.parseHeader parseHeader := by
  refine .bind (.lift _) fun c => .bind (.lift _) fun r => .ite ?_ ?_
  · exact .bind (.lift _) (headerValue_implements b)
  · exact .bind (headerName_implements b) (headerValue_implements b)

theorem lineEnd_implements {q : FastParse Unit} {p : Parse Unit} (h : Implements q p) :
    Implements (Build.lineEndOr q) (lineEnd p) :=
  .bind (.lift _) fun _ => .ite (.lift _) (.ite (.lift _) h)

theorem parseHeaders_implements (room : Nat) :
    Implements (b.parseHeaders room) (parseHeaders room) := by
  induction room with
  | zero => exact .lift _
  | succ room ih => exact lineEnd_implements (.bind (parseHeader_implements b) fun _ => ih)

theorem parseMethodPath_implements : Implements b.parseMethodPath parseMethodPath := by
  refine .bind (advanceToken_implements b) fun _ => .bind (.lift _) fun _ => .bind (.lift _) fun _ => ?_
  exact .bind (advanceToken_implements b) fun _ => .bind (.lift _) fun _ => .lift _

theorem parseRequest_implements (maxHeaders : Nat) :
    Implements (b.parseRequest maxHeaders) (parseRequest maxHeaders) := by
  refine .bind (.bind (.lift _) fun _ => parseMethodPath_implements b) fun _ => ?_
  exact .bind (.lift _) fun _ => .bind (.lift _) fun _ => parseHeaders_implements b maxHeaders

theorem parseMsg_implements : Implements b.parseMsg parseMsg :=
  .bind (.zoom (getTokenToEol_implements b)) fun _ => .lift _

theorem parseResponse_implements (maxHeaders : Nat) :
    Implements (b.parseResponse maxHeaders) (parseResponse maxHeaders) := by
  refine .bind (.lift _) fun _ => .bind (.lift _) fun _ => .bind (.lift _) fun _ => ?_
  refine .bind (.lift _) fun _ => .bind (.lift _) fun _ => .bind (parseMsg_implements b) fun _ => ?_
  exact .zoom (parseHeaders_implements b maxHeaders)

theorem gated_implements {σ : Type} {q : Checked UInt8 σ Unit} {p : Scanner UInt8 σ Unit}
    (h : Implements q p) (buf : List UInt8) (lastLen : Nat) (clear : σ) :
    Build.gated buf lastLen clear q = some (gated buf lastLen clear p) := by
  obtain ⟨r, hq, hr⟩ := h ⟨0, buf, clear⟩
  have hreturned : returned r = returned (p ⟨0, buf, clear⟩) := by
    generalize p ⟨0, buf, clear⟩ = r' at hr
    cases hr with
    | ok a s => rfl
    | error e hout => simp only [returned, hout]
  cases hcheck : (if lastLen ≠ 0 then isComplete buf lastLen else .ok ()) with
  | error e => simp only [Build.gated, gated, hcheck]
  | ok u => simp only [Build.gated, gated, hcheck, hq, Option.map_some, hreturned]

end Implements

/-- However the parsers are built, they return what the plain ones return and fill in
the same, and no search of theirs loads a byte past the end of the buffer. -/
theorem build_parsers_eq (b : Build) (buf : List UInt8) (lastLen : Nat) :
    (∀ r, b.phrParseRequest buf r lastLen = some (phrParseRequest buf r lastLen)) ∧
      (∀ maxHeaders, b.phrParseResponse buf maxHeaders lastLen =
        some (phrParseResponse buf maxHeaders lastLen)) ∧
      ∀ maxHeaders, b.phrParseHeaders buf maxHeaders lastLen =
        some (phrParseHeaders buf maxHeaders lastLen) := by
  refine ⟨fun r => ?_, fun maxHeaders => ?_, fun maxHeaders => ?_⟩
  · rw [Build.phrParseRequest, gated_implements (parseRequest_implements b r.numHeaders),
      phrParseRequest_eq_gated]
  · rw [Build.phrParseResponse, gated_implements (parseResponse_implements b maxHeaders),
      phrParseResponse]
  · rw [Build.phrParseHeaders, gated_implements (parseHeaders_implements b maxHeaders),
      phrParseHeaders, Option.map_some]

end HttpParser

end Jullop
