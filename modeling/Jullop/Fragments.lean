import Jullop.ReceivedBytes

/-! Requests that arrive in fragments, over several readable events of a fresh
context. -/

namespace Jullop

namespace HttpParser

/-- The index of the version: behind the second space. -/
def versionStart (b : List UInt8) : Nat :=
  let m := b.takeWhile (· ≠ SP)
  let t := (b.drop (m.length + 1)).takeWhile (· ≠ SP)
  m.length + 1 + (t.length + 1)

theorem versionStart_of_target {q : List UInt8} (h : Target q) (w : List UInt8) :
    versionStart (q ++ w) = q.length := by
  obtain @⟨l, m, t, hl, hm, ht⟩ := h
  have hlm : ∀ c ∈ l ++ m, decide (c ≠ SP) = true := by
    intro c hc
    rcases List.mem_append.mp hc with hc | hc
    · exact decide_eq_true (hl.ne_space c hc)
    · exact decide_eq_true (hm.ne_space c hc)
  have happ : l ++ (m ++ SP :: (t ++ [SP])) ++ w = (l ++ m) ++ SP :: (t ++ SP :: w) := by simp
  have hm' : ((l ++ m) ++ SP :: (t ++ SP :: w)).takeWhile (· ≠ SP) = l ++ m := by
    rw [List.takeWhile_append_of_pos hlm]
    simp
  have hdrop : ((l ++ m) ++ SP :: (t ++ SP :: w)).drop ((l ++ m).length + 1) = t ++ SP :: w := by
    rw [List.drop_append]
    simp
  have ht' : (t ++ SP :: w).takeWhile (· ≠ SP) = t := by
    rw [List.takeWhile_append_of_pos fun c hc => decide_eq_true (ht.ne_space c hc)]
    simp
  rw [versionStart, happ, hm', hdrop, ht']
  simp only [List.length_append, List.length_cons, List.length_nil]
  omega

theorem IsToken.plain {t : List UInt8} (h : IsToken t) : Plain t :=
  fun c hc => tokenMove_plain (by simp [h c hc])

theorem Version.length {v : List UInt8} (h : Version v) : v.length = 8 := by
  cases h
  rfl

theorem Version.plain {v : List UInt8} (h : Version v) : Plain v := by
  obtain @⟨d, hlow, hhigh⟩ := h
  have hd : d ≠ CR ∧ d ≠ LF := by
    constructor
    · rintro rfl
      exact absurd hlow (by decide)
    · rintro rfl
      exact absurd hlow (by decide)
  intro c hc
  simp only [List.mem_cons, List.not_mem_nil, or_false] at hc
  rcases hc with rfl | rfl | rfl | rfl | rfl | rfl | rfl | rfl
  all_goals first | exact hd | decide

theorem Head.bare {b : List UInt8} (h : Head 0 b) :
    ∃ q v e e', Target q ∧ Version v ∧ Eol e ∧ Eol e' ∧ b = q ++ (v ++ (e ++ e')) := by
  cases h with
  | intro hq hv he hls he' =>
    cases hls with
    | none => exact ⟨_, _, _, _, hq, hv, he, he', rfl⟩

theorem Eol.dropLast {e : List UInt8} (h : Eol e) : e = e.dropLast ++ [LF] := by
  cases h <;> rfl

theorem openTail_two_eols {e e' : List UInt8} (he : Eol e) (he' : Eol e') :
    OpenTail (e ++ e'.dropLast) := by
  cases he <;> cases he' <;> simp [openTail_cons, openTail_nil]

theorem not_openTail_two_eols {x e e' : List UInt8} (he : Eol e) (he' : Eol e') :
    ¬ OpenTail (x ++ (e ++ e')) := by
  intro h
  rw [he.dropLast] at h
  cases he' with
  | crlf => exact h.crlf ⟨x ++ e.dropLast, [], by simp⟩
  | lf => exact h.lf ⟨x ++ e.dropLast, [], by simp⟩

theorem openTail_lead {l cs : List UInt8} {c : UInt8} (hl : Lead l) (hc : c ≠ CR ∧ c ≠ LF)
    (h : OpenTail (c :: cs)) : OpenTail (l ++ c :: cs) := by
  rcases hl with rfl | he
  · exact h
  · cases he with
    | crlf =>
      rw [List.cons_append, openTail_cons, List.cons_append, openTail_cons]
      simp [h, hc.2, hc.1.symm]
    | lf =>
      rw [List.cons_append, openTail_cons]
      simp [h, hc.2, hc.1.symm]

theorem Target.openTail {q y : List UInt8} (h : Target q) (hy : OpenTail y) : OpenTail (q ++ y) := by
  obtain @⟨l, m, t, hl, hm, ht⟩ := h
  have hsp : SP ≠ CR ∧ SP ≠ LF := by decide
  have hplain : Plain (m ++ SP :: (t ++ [SP])) := by
    intro c hc
    simp only [List.mem_append, List.mem_cons, List.not_mem_nil, or_false] at hc
    rcases hc with hc | rfl | hc | rfl
    · exact hm.plain c hc
    · exact hsp
    · exact ht.plain c hc
    · exact hsp
  have hrest := (openTail_plain hplain y).mpr hy
  rw [List.append_assoc]
  rcases m with _ | ⟨c, m⟩
  · exact openTail_lead hl hsp hrest
  · exact openTail_lead hl (hplain c (by simp)) hrest

theorem Head.openTail {b : List UInt8} (h : Head 0 b) : OpenTail b.dropLast := by
  obtain ⟨q, v, e, e', hq, hv, he, he', rfl⟩ := h.bare
  have hne : e' ≠ [] := by cases he' <;> simp
  have hdrop : (q ++ (v ++ (e ++ e'))).dropLast = q ++ (v ++ (e ++ e'.dropLast)) := by
    rw [List.dropLast_append_of_ne_nil (by simp [hne]), List.dropLast_append_of_ne_nil (by simp [hne]),
      List.dropLast_append_of_ne_nil hne]
  rw [hdrop]
  exact hq.openTail ((openTail_plain hv.plain _).mpr (openTail_two_eols he he'))

theorem Head.openTail_prefix {b p : List UInt8} (h : Head 0 b) (hp : p <+: b) (hne : p ≠ b)
    (k : Nat) : OpenTail (p.drop k) := by
  have hpre : p <+: b.dropLast := by
    have hle := hp.length_le
    have hlen : p.length ≠ b.length := fun he => hne (hp.eq_of_length he)
    rw [List.dropLast_eq_take]
    exact List.prefix_take_iff.mpr ⟨hp, by omega⟩
  exact h.openTail.of_infix ((List.drop_suffix k p).isInfix.trans hpre.isInfix)

/-- The blank line is found as long as the search starts before it. -/
theorem Head.isComplete {b : List UInt8} (h : Head 0 b) {lastLen : Nat}
    (hlast : lastLen ≤ versionStart b + 8) : isComplete b lastLen = .ok () := by
  have hopen := h.openTail
  obtain ⟨q, v, e, e', hq, hv, he, he', rfl⟩ := h.bare
  rw [versionStart_of_target hq] at hlast
  have hv8 := hv.length
  have hne : e' ≠ [] := by cases he' <;> simp
  have hend : q ++ (v ++ (e ++ e')) = (q ++ (v ++ (e ++ e'))).dropLast ++ [LF] := by
    rw [he'.dropLast]
    simp [List.dropLast_append_of_ne_nil]
  have hle : lastLen - 3 ≤ (q ++ (v ++ (e ++ e'))).dropLast.length := by
    simp only [List.length_dropLast, List.length_append]
    have := List.length_pos_of_ne_nil hne
    omega
  have hdrop : (q ++ (v ++ (e ++ e'))).dropLast.drop (lastLen - 3) ++ [LF] =
      (q ++ (v ++ (e ++ e'))).drop (lastLen - 3) := by
    rw [← List.drop_append_of_le_length hle, ← hend]
  rw [isComplete_ok_iff]
  refine ⟨(q ++ (v ++ (e ++ e'))).dropLast.drop (lastLen - 3),
    hopen.of_infix (List.drop_suffix _ _).isInfix, ?_, hdrop ▸ List.prefix_rfl⟩
  rw [hdrop, ← List.append_assoc, List.drop_append_of_le_length (by rw [List.length_append]; omega)]
  exact not_openTail_two_eols he he'

end HttpParser

open HttpParser InputBuffer

/-- A readable event: chunks of data, and then nothing more for now. -/
def arrival (chunks : List (List UInt8)) : List ReadResult := chunks.map .data ++ [.wouldBlock]

/-- Successive readable events, as long as `try_parse_http_request` waits for
more. The events that it did not come to are returned. -/
def readEvents (c : RequestContext) :
    List (List ReadResult) → Option (ReadState × List (List ReadResult) × RequestContext)
  | [] => some (.readBusy, [], c)
  | e :: es => do
    let (st, c') ← tryParseHttpRequest c e
    if st = .readBusy then readEvents c' es else return (st, es, c')

/-- What the parser is given after the bytes `p` have arrived. -/
def parserInput (heap : Nat → UInt8) (p : List UInt8) : List UInt8 :=
  p ++ garbage heap p.length (capacity p.length - p.length)

/-- A context that has received `p` and nothing before it. -/
structure Reading (heap : Nat → UInt8) (p : List UInt8) (c : RequestContext) : Prop where
  untouched : c.inputBuffer.Untouched
  heap_eq : c.inputBuffer.heap = heap
  received : c.inputBuffer.received = p
  room : c.inputBuffer.offset < c.inputBuffer.length

theorem Reading.offset {heap : Nat → UInt8} {p : List UInt8} {c : RequestContext}
    (h : Reading heap p c) : c.inputBuffer.offset = p.length := by
  rw [← h.received, received_length]

theorem Reading.buffer {heap : Nat → UInt8} {p : List UInt8} {c : RequestContext}
    (h : Reading heap p c) : c.inputBuffer.buffer = parserInput heap p := by
  rw [buffer_eq, h.received, h.untouched.stale, h.untouched.length_eq h.room, h.offset, h.heap_eq,
    parserInput]

theorem reading_init (fd : Nat) (heap outputHeap : Nat → UInt8) (epollInfo : Nat) :
    Reading heap [] (initRequestContext fd heap outputHeap epollInfo) where
  untouched := untouched_init heap
  heap_eq := rfl
  received := by simp [initRequestContext, InputBuffer.received, inputBufferInit]
  room := by simp [initRequestContext, inputBufferInit, InputBuffer.length, garbage_length, bufSize]

theorem delivered_arrival (chunks : List (List UInt8)) :
    delivered (arrival chunks) = chunks.flatten := by
  induction chunks with
  | nil => rfl
  | cons chunk chunks ih => simpa [arrival, delivered] using ih

theorem readInto_arrival {b b' : InputBuffer} {chunks : List (List UInt8)} {st : ReadState}
    (h : inputBufferReadInto b (arrival chunks) = some (st, b')) : st = .readBusy := by
  induction chunks generalizing b with
  | nil =>
    simp only [arrival, List.map_nil, List.nil_append, inputBufferReadInto, Option.some.injEq,
      Prod.mk.injEq] at h
    exact h.1.symm
  | cons chunk chunks ih =>
    simp only [arrival, List.map_cons, List.cons_append, inputBufferReadInto,
      Option.ite_none_right_eq_some] at h
    exact ih h.2

theorem tryParse_arrival {heap : Nat → UInt8} {p : List UInt8} {c c' : RequestContext}
    {chunks : List (List UInt8)} {st : ReadState} (h : Reading heap p c)
    (ht : tryParseHttpRequest c (arrival chunks) = some (st, c')) :
    Reading heap (p ++ chunks.flatten) c' ∧
      st = .ofParse (.ofResult (phrParseRequest (parserInput heap (p ++ chunks.flatten))
        c.httpRequest p.length).1) ∧
      c'.httpRequest = (phrParseRequest (parserInput heap (p ++ chunks.flatten))
        c.httpRequest p.length).2 := by
  simp only [tryParseHttpRequest, Option.bind_eq_bind, Option.bind_eq_some_iff, Prod.exists] at ht
  obtain ⟨rst, b, hread, ht⟩ := ht
  obtain rfl := readInto_arrival hread
  obtain ⟨-, hrec, hlt, -⟩ := inputBufferReadInto_eq_some h.untouched.length_pos hread
  obtain ⟨hu, hheap⟩ := h.untouched.readInto hread
  rw [h.received, delivered_arrival] at hrec
  simp only [Option.pure_def, Option.some.injEq, Prod.mk.injEq] at ht
  obtain ⟨hst, rfl⟩ := ht
  have hreading : Reading heap (p ++ chunks.flatten)
      { c with inputBuffer := b, httpRequest := (httpRequestParse b c.inputBuffer.offset
        c.httpRequest).2, parsedBuffer := b.resizeCount } :=
    ⟨hu, hheap.trans h.heap_eq, hrec, hlt⟩
  have hbuf : b.buffer = parserInput heap (p ++ chunks.flatten) := hreading.buffer
  refine ⟨hreading, ?_, ?_⟩
  · rw [← hst, httpRequestParse, hbuf, h.offset]
  · rw [httpRequestParse, hbuf, h.offset]

theorem readInto_bytes {b : InputBuffer} (h : 0 < b.length) (f : List UInt8) :
    ∃ b', inputBufferReadInto b (arrival (f.map fun x => [x])) = some (.readBusy, b') := by
  induction f generalizing b with
  | nil => exact ⟨b.resize, rfl⟩
  | cons x f ih =>
    have hlt := b.resize_lt h
    have hfit : b.resize.offset + [x].length ≤ b.resize.length := Nat.succ_le_of_lt hlt
    have hpos : 0 < (b.resize.store [x]).length := by
      rw [store_length hfit]
      omega
    obtain ⟨b', hb'⟩ := ih hpos
    refine ⟨b', ?_⟩
    simp only [List.map_cons, arrival, List.cons_append, inputBufferReadInto, hfit, and_true, ne_eq,
      List.cons_ne_nil, not_false_eq_true, if_true]
    exact hb'

theorem tryParse_bytes {c : RequestContext} (h : 0 < c.inputBuffer.length) (f : List UInt8) :
    ∃ st c', tryParseHttpRequest c (arrival (f.map fun x => [x])) = some (st, c') := by
  obtain ⟨b', hb'⟩ := readInto_bytes h f
  simp [tryParseHttpRequest, hb']

/-- The fragment reaches the version, and fewer than nine bytes of the buffer
come from there on: the parser waits without a look at them. -/
def EndsInVersion (b f : List UInt8) : Prop :=
  versionStart b ≤ f.length ∧ capacity f.length < versionStart b + 9

theorem target_of_head {n : Nat} {b : List UInt8} (h : Head n b) :
    ∃ q w, Target q ∧ b = q ++ w ∧ versionStart b = q.length := by
  cases h with
  | intro hq hv he hls he' => exact ⟨_, _, hq, rfl, versionStart_of_target hq _⟩

theorem parserInput_length (heap : Nat → UInt8) (p : List UInt8) :
    (parserInput heap p).length = capacity p.length := by
  have hlt := lt_capacity p.length
  rw [parserInput, List.length_append, garbage_length]
  omega

theorem first_event_waits {n : Nat} {b f : List UInt8} (heap : Nat → UInt8) (r : HttpRequest)
    (hb : Head n b) (hf : f <+: b) (hin : EndsInVersion b f) :
    (phrParseRequest (parserInput heap f) r 0).1 = -2 ∧
      (phrParseRequest (parserInput heap f) r 0).2.numHeaders = 0 := by
  obtain ⟨q, w, hq, rfl, hstart⟩ := target_of_head hb
  have hfq : q <+: f := List.prefix_of_prefix_length_le (List.prefix_append q w) hf (hstart ▸ hin.1)
  obtain ⟨w', rfl⟩ := hfq
  have hlen := parserInput_length heap (q ++ w')
  have hlt := hin.2
  rw [hstart, ← hlen] at hlt
  simp only [parserInput, List.append_assoc, List.length_append] at hlt
  have hwait := parseRequest_of_version 0 clearRequest
    (w := w' ++ garbage heap (q ++ w').length (capacity (q ++ w').length - (q ++ w').length))
    hq (by rw [List.length_append, List.length_append]; omega) rfl r.numHeaders
  rw [phrParseRequest_of_check (.inl rfl), parserInput, List.append_assoc,
    parseResult_of_error hwait.1]
  exact ⟨rfl, hwait.2⟩

theorem garbage_const (x : UInt8) (start n : Nat) :
    garbage (fun _ => x) start n = List.replicate n x := by
  simp [garbage, List.map_const']

theorem first_event_needs {n : Nat} {b f : List UInt8} {r : HttpRequest} (hb : Head n b)
    (hf : f <+: b) (hne : f ≠ b)
    (hwait : ParseState.ofResult (phrParseRequest (parserInput (fun _ => 0) f) r 0).1 =
      .parseIncomplete) : EndsInVersion b f := by
  have hlt := lt_capacity f.length
  obtain ⟨k, hk⟩ := Nat.exists_eq_add_of_lt hlt
  have hinput : parserInput (fun _ => 0) f = f ++ 0 :: List.replicate k 0 := by
    have hsub : capacity f.length - f.length = k + 1 := by omega
    rw [parserInput, garbage_const, hsub, List.replicate_succ]
  rw [phrParseRequest_of_check (.inl rfl), hinput] at hwait
  rcases parseRequest_cases r.numHeaders (f ++ 0 :: List.replicate k 0) with
    hopen | ⟨n', b', ys, hb', -, heq⟩ | hbad
  · obtain ⟨q, w, hq, rfl, hw⟩ := hopen.nul_append
    obtain ⟨w', rfl⟩ := (List.prefix_append q w).trans hf
    have hstart := versionStart_of_target hq w'
    simp only [List.length_replicate] at hw
    rw [List.length_append] at hk hlt
    refine ⟨?_, ?_⟩
    · rw [hstart, List.length_append]
      omega
    · rw [hstart, List.length_append]
      omega
  · exfalso
    have hbf : b' <+: f := by
      rcases List.append_eq_append_iff.mp heq with ⟨c, rfl, hys⟩ | ⟨c, rfl, hys⟩
      · cases c with
        | nil => simp
        | cons x c =>
          rw [List.cons_append, List.cons.injEq] at hys
          exact absurd hb'.no_nul (by simp [← hys.1])
      · exact List.prefix_append _ _
    have hbb := hb.prefix_eq hb' (hbf.trans hf)
    exact hne (hf.eq_of_length (Nat.le_antisymm hf.length_le (hbb ▸ hbf.length_le)))
  · rw [parseResult_of_error (hbad 0 clearRequest rfl)] at hwait
    cases hwait

theorem later_event_needs {b p : List UInt8} {prevLen : Nat} {r : HttpRequest} (hb : Head 0 b)
    (hp : p <+: b) (hne : p ≠ b) (h0 : prevLen ≠ 0) (hlen : prevLen ≤ p.length)
    (hwait : ParseState.ofResult (phrParseRequest (parserInput (fun _ => CR) p) r prevLen).1 =
      .parseIncomplete) : capacity p.length = p.length + 1 := by
  have hlt := lt_capacity p.length
  by_contra hcap
  obtain ⟨k, hk⟩ := Nat.exists_eq_add_of_le (show 2 ≤ capacity p.length - p.length by omega)
  have hinput : parserInput (fun _ => CR) p = p ++ CR :: CR :: List.replicate k CR := by
    rw [parserInput, garbage_const, hk, Nat.add_comm, List.replicate_succ, List.replicate_succ]
  have hopen := (isComplete_incomplete_iff p prevLen).mpr (hb.openTail_prefix hp hne _)
  have hbad := isComplete_cr_cr hlen hopen (List.replicate k CR)
  rw [hinput, phrParseRequest_of_error h0 hbad] at hwait
  cases hwait

theorem later_event_waits (prevLen : Nat) {b p : List UInt8} (heap : Nat → UInt8)
    (r : HttpRequest) (hb : Head 0 b) (hp : p <+: b) (hne : p ≠ b)
    (hstart : versionStart b < p.length) (hend : p.length < versionStart b + 8)
    (hcap : capacity p.length = p.length + 1) (h0 : prevLen ≠ 0) (hlen : prevLen ≤ p.length) :
    phrParseRequest (parserInput heap p) r prevLen = (-2, clearRequest) := by
  have hopen := hb.openTail_prefix hp hne (prevLen - 3)
  obtain ⟨q, v, e, e', hq, hv, he, he', rfl⟩ := hb.bare
  rw [versionStart_of_target hq] at hstart hend
  obtain ⟨w, rfl⟩ := List.prefix_of_prefix_length_le (List.prefix_append q _) hp (by omega)
  rw [List.prefix_append_right_inj] at hp
  rw [List.length_append] at hstart hend
  have hw : w <+: v := List.prefix_of_prefix_length_le hp (List.prefix_append v _) (by
    rw [hv.length]
    omega)
  obtain ⟨w, d, rfl⟩ := List.eq_nil_or_concat w |>.resolve_left (by
    rintro rfl
    simp at hstart)
  simp only [List.concat_eq_append] at *
  have hd := hv.plain d (hw.subset (by simp))
  have hsplit : (q ++ (w ++ [d])).drop (prevLen - 3) = (q ++ w).drop (prevLen - 3) ++ [d] := by
    rw [← List.append_assoc, List.drop_append_of_le_length]
    simp only [List.length_append, List.length_cons, List.length_nil] at hlen ⊢
    omega
  have hinput : parserInput heap (q ++ (w ++ [d])) =
      q ++ (w ++ [d]) ++ [heap (q ++ (w ++ [d])).length] := by
    rw [parserInput, hcap, Nat.add_sub_cancel_left]
    rfl
  have hwait : isComplete (parserInput heap (q ++ (w ++ [d]))) prevLen = .error .incomplete := by
    rw [isComplete_incomplete_iff, hinput, List.drop_append_of_le_length (by omega), hsplit]
    rw [hsplit] at hopen
    exact openTail_snoc hopen hd _
  rw [phrParseRequest_of_error h0 hwait]
  rfl

/-- The request that the head `b` stands for, whatever follows it. -/
def Denotes (lines : Nat) (b : List UInt8) (out : HttpRequest) : Prop :=
  out.Within b.length ∧ ∀ room more, lines ≤ room →
    parseRequest room ⟨0, b ++ more, clearRequest⟩ = (.ok (), ⟨b.length, more, out⟩)

theorem last_event_finishes (prevLen : Nat) {n : Nat} {b : List UInt8} {r out : HttpRequest}
    (heap : Nat → UInt8) (hb : Head n b) (hout : Denotes n b out) (hn : n ≤ r.numHeaders)
    (hcheck : prevLen = 0 ∨ (n = 0 ∧ prevLen ≤ b.length ∧ prevLen ≤ versionStart b + 8)) :
    phrParseRequest (parserInput heap b) r prevLen = (toInt b.length, out) := by
  have hok : prevLen = 0 ∨ isComplete (parserInput heap b) prevLen = .ok () := by
    rcases hcheck with h0 | ⟨rfl, hlen, hstart⟩
    · exact .inl h0
    · have hok := hb.isComplete hstart
      exact .inr ((isComplete_append hlen (by simp [hok]) _).trans hok)
  rw [phrParseRequest_of_check hok, parserInput, hout.2 _ _ hn]
  rfl

theorem readEvents_cons {c : RequestContext} {e : List ReadResult} {es : List (List ReadResult)}
    {out : ReadState × List (List ReadResult) × RequestContext}
    (h : readEvents c (e :: es) = some out) :
    ∃ st c', tryParseHttpRequest c e = some (st, c') ∧
      ((st = .readBusy ∧ readEvents c' es = some out) ∨ (st ≠ .readBusy ∧ out = (st, es, c'))) := by
  simp only [readEvents, Option.bind_eq_bind, Option.bind_eq_some_iff, Prod.exists] at h
  obtain ⟨st, c', ht, h⟩ := h
  refine ⟨st, c', ht, ?_⟩
  by_cases hst : st = .readBusy
  · rw [if_pos hst] at h
    exact .inl ⟨hst, h⟩
  · rw [if_neg hst] at h
    exact .inr ⟨hst, (Option.some.inj h).symm⟩

def byteWise (frags : List (List UInt8)) : List (List (List UInt8)) :=
  frags.map fun f => f.map fun x => [x]

theorem bytes_flatten (f : List UInt8) : (f.map fun x => [x]).flatten = f := by
  induction f with
  | nil => rfl
  | cons x f ih => simpa using ih

theorem byteWise_flatten (frags : List (List UInt8)) :
    (byteWise frags).map List.flatten = frags := by
  simp [byteWise, Function.comp_def, bytes_flatten]

theorem readEvents_byteWise {heap : Nat → UInt8} {p : List UInt8} {c : RequestContext}
    (h : Reading heap p c) (frags : List (List UInt8)) :
    ∃ out, readEvents c ((byteWise frags).map arrival) = some out := by
  induction frags generalizing p c with
  | nil => exact ⟨_, rfl⟩
  | cons f frags ih =>
    obtain ⟨st, c', ht⟩ := tryParse_bytes h.untouched.length_pos f
    by_cases hst : st = .readBusy
    · obtain ⟨out, hout⟩ := ih (tryParse_arrival h ht).1
      refine ⟨out, ?_⟩
      simp only [byteWise, List.map_map] at hout
      simp [readEvents, byteWise, ht, hst, hout]
    · exact ⟨(st, (byteWise frags).map arrival, c'), by simp [readEvents, byteWise, ht, hst]⟩

def Fresh (c : RequestContext) : Prop :=
  ∃ fd inputHeap outputHeap epollInfo, c = initRequestContext fd inputHeap outputHeap epollInfo

/-- `try_parse_http_request` accepts `b` when it arrives in one readable event
of a fresh context. -/
def AcceptedWhole (b : List UInt8) : Prop :=
  ∃ c chunks c', Fresh c ∧ chunks.flatten = b ∧
    tryParseHttpRequest c (arrival chunks) = some (.readFinish, c')

/-- However the fragments are read, every call before the last one waits, and
the last one finishes with the request that `b` gives in one event. -/
def ReadsAs (b : List UInt8) (frags : List (List UInt8)) : Prop :=
  ∀ c (chunks : List (List (List UInt8))) st es c', Fresh c → chunks.map List.flatten = frags →
    readEvents c (chunks.map arrival) = some (st, es, c') →
    st = .readFinish ∧ es = [] ∧ ∀ d whole d', Fresh d → whole.flatten = b →
      tryParseHttpRequest d (arrival whole) = some (.readFinish, d') → c'.content = d'.content

theorem Fresh.reading {c : RequestContext} (h : Fresh c) :
    ∃ heap, Reading heap [] c ∧ c.httpRequest.numHeaders = 100 := by
  obtain ⟨fd, heap, outputHeap, epollInfo, rfl⟩ := h
  exact ⟨heap, reading_init fd heap outputHeap epollInfo, rfl⟩

theorem ofParse_finish {result : Int}
    (h : ReadState.ofParse (ParseState.ofResult result) = .readFinish) :
    result ≠ -1 ∧ result ≠ -2 := by
  refine parseState_finish ?_
  cases hp : ParseState.ofResult result with
  | parseFinish => rfl
  | parseError => simp [hp, ReadState.ofParse] at h
  | parseIncomplete => simp [hp, ReadState.ofParse] at h

theorem ofParse_busy {result : Int}
    (h : ReadState.ofParse (ParseState.ofResult result) = .readBusy) :
    ParseState.ofResult result = .parseIncomplete := by
  cases hp : ParseState.ofResult result with
  | parseFinish => simp [hp, ReadState.ofParse] at h
  | parseError => simp [hp, ReadState.ofParse] at h
  | parseIncomplete => rfl

theorem accepted_fits {n : Nat} {b : List UInt8} {heap : Nat → UInt8} {p : List UInt8}
    {c c' : RequestContext} {chunks : List (List UInt8)} (hb : Head n b) (hc : Reading heap p c)
    (hp : p ++ chunks.flatten = b)
    (ht : tryParseHttpRequest c (arrival chunks) = some (.readFinish, c')) :
    n ≤ c.httpRequest.numHeaders := by
  obtain ⟨-, hst, -⟩ := tryParse_arrival hc ht
  rw [hp] at hst
  have hfin := ofParse_finish hst.symm
  by_contra hn
  have hbad := parseRequest_of_many 0 clearRequest (garbage heap b.length (capacity b.length - b.length)) hb rfl (Nat.lt_of_not_le hn)
  rw [phrParseRequest] at hfin
  split at hfin
  · rename_i e he
    cases e with
    | malformed => exact hfin.1 rfl
    | incomplete => exact hfin.2 rfl
  · rw [parserInput, parseResult_of_error hbad] at hfin
    exact hfin.1 rfl

theorem event_finishes {n : Nat} {b : List UInt8} {heap : Nat → UInt8} {p : List UInt8}
    {c c' : RequestContext} {chunks : List (List UInt8)} {st : ReadState} {out : HttpRequest}
    (hb : Head n b) (hout : Denotes n b out) (hc : Reading heap p c)
    (hp : p ++ chunks.flatten = b) (hn : n ≤ c.httpRequest.numHeaders)
    (hcheck : p.length = 0 ∨ (n = 0 ∧ p.length ≤ versionStart b + 8))
    (ht : tryParseHttpRequest c (arrival chunks) = some (st, c')) :
    st = .ofParse (.ofResult (toInt b.length)) ∧ c'.content = out.content b := by
  obtain ⟨hc', hst, hreq⟩ := tryParse_arrival hc ht
  have hple : p.length ≤ b.length := by
    rw [← hp, List.length_append]
    omega
  have hparse := last_event_finishes p.length heap hb hout hn (by
    rcases hcheck with h0 | ⟨h0, hstart⟩
    · exact .inl h0
    · exact .inr ⟨h0, hple, hstart⟩)
  rw [hp, hparse] at hst hreq
  dsimp only at hst hreq
  refine ⟨hst, ?_⟩
  rw [RequestContext.content, hreq, hc'.buffer, hp, parserInput,
    HttpRequest.content_append hout.1]

theorem whole_accepted {n : Nat} {b : List UInt8} {out : HttpRequest} {d d' : RequestContext}
    {whole : List (List UInt8)} (hb : Head n b) (hout : Denotes n b out) (hd : Fresh d)
    (hw : whole.flatten = b)
    (ht : tryParseHttpRequest d (arrival whole) = some (.readFinish, d')) :
    n ≤ 100 ∧ ReadState.ofParse (.ofResult (toInt b.length)) = .readFinish ∧
      d'.content = out.content b := by
  obtain ⟨heap, hread, h100⟩ := hd.reading
  have hn := accepted_fits hb hread (by simpa using hw) ht
  obtain ⟨hst, hcontent⟩ :=
    event_finishes hb hout hread (by simpa using hw) hn (.inl rfl) ht
  exact ⟨by omega, hst.symm, hcontent⟩

theorem event_keeps_zero {heap : Nat → UInt8} {p : List UInt8} {c c' : RequestContext}
    {chunks : List (List UInt8)} {st : ReadState} (hc : Reading heap p c)
    (h0 : c.httpRequest.numHeaders = 0)
    (ht : tryParseHttpRequest c (arrival chunks) = some (st, c')) :
    c'.httpRequest.numHeaders = 0 := by
  obtain ⟨-, -, hreq⟩ := tryParse_arrival hc ht
  rw [hreq, phrParseRequest, h0]
  split
  · rfl
  · rw [parseResult_out]
    exact keeps_parseRequest _

theorem finished_cons {c c' : RequestContext} {heap : Nat → UInt8} {p f : List UInt8}
    {frags : List (List UInt8)} (hc : Reading heap p c)
    (h : readEvents c ((byteWise (f :: frags)).map arrival) = some (.readFinish, [], c')) :
    ∃ st c1, tryParseHttpRequest c (arrival (f.map fun x => [x])) = some (st, c1) ∧
      Reading heap (p ++ f) c1 ∧
      ((st = .readBusy ∧ readEvents c1 ((byteWise frags).map arrival) =
        some (.readFinish, [], c')) ∨ (st = .readFinish ∧ frags = [])) := by
  obtain ⟨st, c1, ht, hnext⟩ := readEvents_cons h
  have hc1 := (tryParse_arrival hc ht).1
  rw [bytes_flatten] at hc1
  refine ⟨st, c1, ht, hc1, ?_⟩
  rcases hnext with hnext | ⟨-, hout⟩
  · exact .inl hnext
  · simp only [Prod.mk.injEq] at hout
    refine .inr ⟨hout.1.symm, ?_⟩
    simpa [byteWise] using hout.2.1.symm

/-- Once no header fits any more, the request that is finished has none. -/
theorem finished_without_headers {n : Nat} {b : List UInt8} {heap : Nat → UInt8}
    {p : List UInt8} {c c' : RequestContext} {frags : List (List UInt8)} (hb : Head n b)
    (hc : Reading heap p c) (h0 : c.httpRequest.numHeaders = 0) (hp : p ++ frags.flatten = b)
    (h : readEvents c ((byteWise frags).map arrival) = some (.readFinish, [], c')) : n = 0 := by
  induction frags generalizing p c with
  | nil => simp [readEvents, byteWise] at h
  | cons f frags ih =>
    obtain ⟨st, c1, ht, hc1, ⟨rfl, hnext⟩ | ⟨rfl, rfl⟩⟩ := finished_cons hc h
    · exact ih hc1 (event_keeps_zero hc h0 ht) (by simpa using hp) hnext
    · have hn := accepted_fits hb hc (by simpa [bytes_flatten] using hp) ht
      omega

/-- After each fragment but the last the buffer has one byte left. -/
def OneShort (p : List UInt8) : List (List UInt8) → Prop
  | [] => True
  | f :: frags => (frags ≠ [] → capacity (p ++ f).length = (p ++ f).length + 1) ∧
      OneShort (p ++ f) frags

theorem finished_oneShort {b p : List UInt8} {c c' : RequestContext}
    {frags : List (List UInt8)} (hb : Head 0 b) (hc : Reading (fun _ => CR) p c) (hne : p ≠ [])
    (hp : p ++ frags.flatten = b) (hfrags : ∀ f ∈ frags, f ≠ [])
    (h : readEvents c ((byteWise frags).map arrival) = some (.readFinish, [], c')) :
    OneShort p frags := by
  induction frags generalizing p c with
  | nil => trivial
  | cons f frags ih =>
    obtain ⟨st, c1, ht, hc1, hnext⟩ := finished_cons hc h
    refine ⟨fun hmore => ?_, ?_⟩
    · obtain ⟨rfl, hnext⟩ | ⟨-, hnil⟩ := hnext
      · have hst := (tryParse_arrival hc ht).2.1
        rw [bytes_flatten] at hst
        have hflat : frags.flatten ≠ [] := by
          obtain ⟨g, gs, rfl⟩ := List.exists_cons_of_ne_nil hmore
          have hg := hfrags g (by simp)
          simp [hg]
        refine later_event_needs hb ⟨frags.flatten, by simpa using hp⟩ ?_ ?_ ?_
          (ofParse_busy hst.symm)
        · rintro rfl
          rw [List.flatten_cons, ← List.append_assoc] at hp
          exact hflat (by simpa using hp)
        · simpa using hne
        · simp
      · exact absurd hnil hmore
    · obtain ⟨rfl, hnext⟩ | ⟨-, rfl⟩ := hnext
      · exact ih hc1 (by simp [hne]) (by simpa using hp) (fun g hg => hfrags g (by simp [hg])) hnext
      · trivial

/-- The ways of cutting a request that do no harm. -/
def Harmless (lines : Nat) (b : List UInt8) : List (List UInt8) → Prop
  | [_] => True
  | [f, _] => lines = 0 ∧ EndsInVersion b f
  | [f, g, _] => lines = 0 ∧ EndsInVersion b f ∧ f.length + g.length + 1 = capacity f.length
  | _ => False

theorem length_of_bare {b : List UInt8} (h : Head 0 b) : b.length ≤ versionStart b + 12 := by
  obtain ⟨q, v, e, e', hq, hv, he, he', rfl⟩ := h.bare
  have hv8 := hv.length
  have heol : ∀ {e}, Eol e → e.length ≤ 2 := by
    intro e he
    cases he <;> simp
  have he2 := heol he
  have he2' := heol he'
  rw [versionStart_of_target hq]
  simp only [List.length_append]
  omega

theorem oneShort_harmless {b f : List UInt8} {frags : List (List UInt8)} (hb : Head 0 b)
    (hin : EndsInVersion b f) (hflat : f ++ frags.flatten = b) (hne : ∀ g ∈ frags, g ≠ [])
    (hshort : OneShort f frags) : Harmless 0 b (f :: frags) := by
  have hlen := length_of_bare hb
  have hlt := lt_capacity f.length
  have hstart := hin.1
  have hend := hin.2
  have hfull : ∀ p : List UInt8, f.length < p.length → p.length ≤ b.length →
      capacity p.length = p.length + 1 → p.length + 1 = capacity f.length := by
    intro p hp hpb hcap
    by_cases hless : p.length < capacity f.length
    · have hsame := capacity_of_lt (Nat.le_of_lt hp) hless
      omega
    · have hdouble := capacity_of_ge (Nat.le_of_not_lt hless)
      have h1024 : 1024 ≤ capacity f.length := by
        have hpow := Nat.two_pow_pos (Nat.size (f.length / 1024))
        rw [capacity]
        omega
      omega
  rcases frags with _ | ⟨g, _ | ⟨h, frags⟩⟩
  · trivial
  · exact ⟨rfl, hin⟩
  · have hg : 0 < g.length := List.length_pos_of_ne_nil (hne g (by simp))
    have hh : 0 < h.length := List.length_pos_of_ne_nil (hne h (by simp))
    have hsum := congrArg List.length hflat
    simp only [List.flatten_cons, List.length_append] at hsum
    have hfg := hfull (f ++ g) (by rw [List.length_append]; omega)
      (by rw [List.length_append]; omega) (hshort.1 (by simp))
    rw [List.length_append] at hfg
    rcases frags with _ | ⟨i, frags⟩
    · exact ⟨rfl, hin, hfg⟩
    · have hfgh := hfull (f ++ g ++ h) (by simp only [List.length_append]; omega)
        (by simp only [List.length_append]; omega) (hshort.2.1 (by simp))
      simp only [List.length_append] at hfgh
      omega

theorem readsAs_needs {n : Nat} {b : List UInt8} {frags : List (List UInt8)} (hb : Head n b)
    (hflat : frags.flatten = b) (hne : ∀ f ∈ frags, f ≠ []) (h : ReadsAs b frags) :
    Harmless n b frags := by
  have hrun : ∀ x : UInt8, ∃ c c', Fresh c ∧ Reading (fun _ => x) [] c ∧
      readEvents c ((byteWise frags).map arrival) = some (.readFinish, [], c') := by
    intro x
    have hread := reading_init 0 (fun _ => x) (fun _ => x) 0
    obtain ⟨⟨st, es, c'⟩, hout⟩ := readEvents_byteWise hread frags
    obtain ⟨rfl, rfl, -⟩ := h _ _ _ _ _ ⟨_, _, _, _, rfl⟩ (byteWise_flatten frags) hout
    exact ⟨_, c', ⟨_, _, _, _, rfl⟩, hread, hout⟩
  rcases frags with _ | ⟨f, _ | ⟨g, frags⟩⟩
  · obtain ⟨c, c', -, -, hout⟩ := hrun 0
    simp [readEvents, byteWise] at hout
  · trivial
  · have hpre : f <+: b := ⟨(g :: frags).flatten, by simpa using hflat⟩
    have hfb : f ≠ b := by
      rintro rfl
      have hg := hne g (by simp)
      simp [hg] at hflat
    have hin : EndsInVersion b f := by
      obtain ⟨c, c', -, hread, hout⟩ := hrun 0
      obtain ⟨st, c1, ht, -, ⟨rfl, -⟩ | ⟨-, hnil⟩⟩ := finished_cons hread hout
      · have hst := (tryParse_arrival hread ht).2.1
        rw [bytes_flatten] at hst
        exact first_event_needs hb hpre hfb (ofParse_busy hst.symm)
      · cases hnil
    obtain ⟨c, c', -, hread, hout⟩ := hrun CR
    obtain ⟨st, c1, ht, hc1, ⟨rfl, hnext⟩ | ⟨-, hnil⟩⟩ := finished_cons hread hout
    · have hreq := (tryParse_arrival hread ht).2.2
      rw [bytes_flatten] at hreq
      have h0 := (first_event_waits (fun _ => CR) c.httpRequest hb hpre hin).2
      obtain rfl := finished_without_headers hb hc1 (by rw [hreq]; exact h0) hflat hnext
      have hshort := finished_oneShort hb hc1 (hne f (by simp)) hflat
        (fun g hg => hne g (by simp [hg])) hnext
      exact oneShort_harmless hb hin hflat (fun g hg => hne g (by simp [hg])) hshort
    · cases hnil

theorem last_fragment {n : Nat} {b : List UInt8} {heap : Nat → UInt8} {p : List UInt8}
    {c c' : RequestContext} {chunks : List (List UInt8)} {st : ReadState}
    {es : List (List ReadResult)} {out : HttpRequest} (hb : Head n b) (hout : Denotes n b out)
    (hc : Reading heap p c) (hp : p ++ chunks.flatten = b) (hn : n ≤ c.httpRequest.numHeaders)
    (hcheck : p.length = 0 ∨ (n = 0 ∧ p.length ≤ versionStart b + 8))
    (hfin : ReadState.ofParse (.ofResult (toInt b.length)) = .readFinish)
    (h : readEvents c [arrival chunks] = some (st, es, c')) :
    st = .readFinish ∧ es = [] ∧ c'.content = out.content b := by
  obtain ⟨st1, c1, ht, hnext⟩ := readEvents_cons h
  obtain ⟨hst, hcontent⟩ := event_finishes hb hout hc hp hn hcheck ht
  rw [hfin] at hst
  rcases hnext with ⟨hbusy, -⟩ | ⟨-, heq⟩
  · rw [hst] at hbusy
    cases hbusy
  · simp only [Prod.mk.injEq] at heq
    obtain ⟨rfl, rfl, rfl⟩ := heq
    exact ⟨hst, rfl, hcontent⟩

theorem waiting_fragment {heap : Nat → UInt8} {p : List UInt8} {c : RequestContext}
    {chunks : List (List UInt8)} {es : List (List ReadResult)}
    {out : ReadState × List (List ReadResult) × RequestContext} (hc : Reading heap p c)
    (hwait : (phrParseRequest (parserInput heap (p ++ chunks.flatten)) c.httpRequest p.length).1 = -2)
    (h : readEvents c (arrival chunks :: es) = some out) :
    ∃ c1, Reading heap (p ++ chunks.flatten) c1 ∧ readEvents c1 es = some out := by
  obtain ⟨st1, c1, ht, hnext⟩ := readEvents_cons h
  obtain ⟨hc1, hst, -⟩ := tryParse_arrival hc ht
  rw [hwait] at hst
  rcases hnext with ⟨-, hnext⟩ | ⟨hbusy, -⟩
  · exact ⟨c1, hc1, hnext⟩
  · exact absurd hst hbusy

theorem two_fragments {b : List UInt8} {heap : Nat → UInt8} {c c' : RequestContext}
    {k l : List (List UInt8)} {st : ReadState} {es : List (List ReadResult)} {out : HttpRequest}
    (hb : Head 0 b) (hout : Denotes 0 b out) (hc : Reading heap [] c)
    (hflat : k.flatten ++ l.flatten = b) (hv : EndsInVersion b k.flatten)
    (hfin : ReadState.ofParse (.ofResult (toInt b.length)) = .readFinish)
    (h : readEvents c [arrival k, arrival l] = some (st, es, c')) :
    st = .readFinish ∧ es = [] ∧ c'.content = out.content b := by
  have hlt := lt_capacity k.flatten.length
  have hend := hv.2
  have hwait := first_event_waits heap c.httpRequest hb ⟨_, hflat⟩ hv
  obtain ⟨c1, hc1, hev⟩ := waiting_fragment hc hwait.1 h
  exact last_fragment hb hout hc1 hflat (Nat.zero_le _)
    (.inr ⟨rfl, by rw [List.nil_append]; omega⟩) hfin hev

theorem three_fragments {b : List UInt8} {heap : Nat → UInt8} {c c' : RequestContext}
    {k l m : List (List UInt8)} {st : ReadState} {es : List (List ReadResult)} {out : HttpRequest}
    (hb : Head 0 b) (hout : Denotes 0 b out) (hc : Reading heap [] c)
    (hflat : k.flatten ++ (l.flatten ++ m.flatten) = b) (hk : k.flatten ≠ []) (hl : l.flatten ≠ [])
    (hm : m.flatten ≠ []) (hv : EndsInVersion b k.flatten)
    (hshort : k.flatten.length + l.flatten.length + 1 = capacity k.flatten.length)
    (hfin : ReadState.ofParse (.ofResult (toInt b.length)) = .readFinish)
    (h : readEvents c [arrival k, arrival l, arrival m] = some (st, es, c')) :
    st = .readFinish ∧ es = [] ∧ c'.content = out.content b := by
  have hlt := lt_capacity k.flatten.length
  have hstart := hv.1
  have hend := hv.2
  have hkpos := List.length_pos_of_ne_nil hk
  have hlpos := List.length_pos_of_ne_nil hl
  have hwait := first_event_waits heap c.httpRequest hb ⟨_, hflat⟩ hv
  obtain ⟨c1, hc1, hev⟩ := waiting_fragment hc hwait.1 h
  rw [List.nil_append] at hc1
  have hlen : (k.flatten ++ l.flatten).length = k.flatten.length + l.flatten.length :=
    List.length_append
  have hcap : capacity (k.flatten ++ l.flatten).length = (k.flatten ++ l.flatten).length + 1 := by
    rw [capacity_of_lt (m := k.flatten.length) (by omega) (by omega)]
    omega
  have hpre : k.flatten ++ l.flatten <+: b := ⟨m.flatten, by simpa using hflat⟩
  have hproper : k.flatten ++ l.flatten ≠ b := by
    intro heq
    rw [← List.append_assoc, heq] at hflat
    exact hm (by simpa using hflat)
  have hwait2 := later_event_waits k.flatten.length heap c1.httpRequest hb hpre hproper (by omega)
    (by omega) hcap (by omega) (by omega)
  obtain ⟨c2, hc2, hev⟩ := waiting_fragment hc1 (by rw [hwait2]) hev
  exact last_fragment hb hout hc2 (by simpa using hflat) (Nat.zero_le _)
    (.inr ⟨rfl, by omega⟩) hfin hev

theorem harmless_reads {n : Nat} {b : List UInt8} {frags : List (List UInt8)} (hb : Head n b)
    (hacc : AcceptedWhole b) (hflat : frags.flatten = b) (hne : ∀ f ∈ frags, f ≠ [])
    (h : Harmless n b frags) : ReadsAs b frags := by
  obtain ⟨out, -, hin, hread⟩ := parseRequest_head hb
  have hout : Denotes n b out := ⟨hin, hread⟩
  obtain ⟨d, whole, d', hd, hw, ht⟩ := hacc
  obtain ⟨h100, hfin, -⟩ := whole_accepted hb hout hd hw ht
  intro c chunks st es c' hc hfrags hev
  obtain ⟨heap, hc, hlimit⟩ := hc.reading
  have hgoal : st = .readFinish ∧ es = [] ∧ c'.content = out.content b := by
    subst hfrags
    rcases chunks with _ | ⟨k, _ | ⟨l, _ | ⟨m, _ | ⟨x, xs⟩⟩⟩⟩
    · exact h.elim
    · simp only [List.map_cons, List.map_nil, List.flatten_cons, List.flatten_nil,
        List.append_nil] at hflat hev
      exact last_fragment hb hout hc hflat (by omega) (.inl rfl) hfin hev
    · obtain ⟨rfl, hv⟩ := h
      simp only [List.map_cons, List.map_nil, List.flatten_cons, List.flatten_nil,
        List.append_nil] at hflat hev
      exact two_fragments hb hout hc hflat hv hfin hev
    · obtain ⟨rfl, hv, hshort⟩ := h
      simp only [List.map_cons, List.map_nil, List.flatten_cons, List.flatten_nil,
        List.append_nil] at hflat hev hshort
      exact three_fragments hb hout hc hflat (hne _ (by simp)) (hne _ (by simp))
        (hne _ (by simp)) hv hshort hfin hev
    · exact h.elim
  refine ⟨hgoal.1, hgoal.2.1, fun d whole d' hd hw ht => ?_⟩
  rw [hgoal.2.2, (whole_accepted hb hout hd hw ht).2.2]

theorem acceptedWhole_of_head {n : Nat} {b : List UInt8} (hb : Head n b) (hn : n ≤ 100)
    (hfin : ReadState.ofParse (.ofResult (toInt b.length)) = .readFinish) : AcceptedWhole b := by
  obtain ⟨out, -, hin, hread⟩ := parseRequest_head hb
  have hc := reading_init 0 (fun _ => 0) (fun _ => 0) 0
  obtain ⟨st, c', ht⟩ := tryParse_bytes hc.untouched.length_pos b
  obtain ⟨hst, -⟩ := event_finishes hb ⟨hin, hread⟩ hc (by simp [bytes_flatten]) hn (.inl rfl) ht
  rw [hfin] at hst
  exact ⟨_, _, c', ⟨_, _, _, _, rfl⟩, bytes_flatten b, hst ▸ ht⟩

theorem fragments_read_as_whole_iff {n : Nat} {b : List UInt8} {frags : List (List UInt8)}
    (hb : Head n b) (hacc : AcceptedWhole b) (hflat : frags.flatten = b)
    (hne : ∀ f ∈ frags, f ≠ []) : ReadsAs b frags ↔ Harmless n b frags :=
  ⟨readsAs_needs hb hflat hne, harmless_reads hb hacc hflat hne⟩

def getRequest : List UInt8 := ascii "GET / HTTP/1.1\r\n\r\n"

theorem getRequest_head : Head 0 getRequest := by
  have hget : IsToken (ascii "GET") := by decide
  have hslash : IsToken (ascii "/") := by decide
  exact .intro (.intro (.inl rfl) hget hslash) (.intro (d := 0x31) (by decide) (by decide)) .crlf
    .none .crlf

theorem getRequest_accepted : AcceptedWhole getRequest :=
  acceptedWhole_of_head getRequest_head (by omega) (by decide)

/-- A request without headers whose version starts at the fourth last of the first 1024
bytes. -/
def longGetRequest : List UInt8 :=
  ascii "GET /" ++ List.replicate 1014 0x61 ++ ascii " HTTP/1.1\r\n\r\n"

/-- The first fragment ends in the version, the second fills the buffer up to one byte. -/
def longGetFragments : List (List UInt8) :=
  [longGetRequest.take 1021, (longGetRequest.drop 1021).take 2, longGetRequest.drop 1023]

theorem longGetRequest_head : Head 0 longGetRequest := by
  have hget : IsToken (ascii "GET") := by decide
  have hpath : IsToken (ascii "/" ++ List.replicate 1014 0x61) := by decide +kernel
  have hparts : longGetRequest =
      [] ++ (ascii "GET" ++ SP :: (ascii "/" ++ List.replicate 1014 0x61 ++ [SP])) ++
        ([0x48, 0x54, 0x54, 0x50, 0x2f, 0x31, 0x2e, 0x31] ++ ([CR, LF] ++ ([] ++ [CR, LF]))) := by
    decide +kernel
  rw [hparts]
  exact .intro (.intro (.inl rfl) hget hpath) (.intro (by decide) (by decide)) .crlf .none .crlf

theorem longGetRequest_accepted : AcceptedWhole longGetRequest :=
  acceptedWhole_of_head longGetRequest_head (by omega) (by decide +kernel)

theorem fragments_read_as_whole_iff_cut :
    Head 0 longGetRequest ∧ AcceptedWhole longGetRequest ∧
      longGetFragments.flatten = longGetRequest ∧ ReadsAs longGetRequest longGetFragments := by
  have hflat : longGetFragments.flatten = longGetRequest := by decide +kernel
  have hne : ∀ f ∈ longGetFragments, f ≠ [] := by decide +kernel
  have hharmless : Harmless 0 longGetRequest longGetFragments := by
    refine ⟨rfl, ⟨?_, ?_⟩, ?_⟩
    · decide +kernel
    · decide +kernel
    · decide +kernel
  exact ⟨longGetRequest_head, longGetRequest_accepted, hflat,
    (fragments_read_as_whole_iff longGetRequest_head longGetRequest_accepted hflat hne).mpr
      hharmless⟩

/-- Cut after its first byte, the request is refused: with zeros in the buffer
the first call returns `READ_ERROR`. -/
theorem fragments_not_read_as_whole :
    ¬ ∀ (n : Nat) (b : List UInt8) (frags : List (List UInt8)), Head n b → AcceptedWhole b →
      frags.flatten = b → (∀ f ∈ frags, f ≠ []) → ReadsAs b frags := by
  intro h
  have hflat : [ascii "G", ascii "ET / HTTP/1.1\r\n\r\n"].flatten = getRequest := by decide
  have hne : ∀ f ∈ [ascii "G", ascii "ET / HTTP/1.1\r\n\r\n"], f ≠ [] := by decide
  have hreads := h 0 getRequest _ getRequest_head getRequest_accepted hflat hne
  obtain ⟨-, hin⟩ := readsAs_needs getRequest_head hflat hne hreads
  exact absurd hin.1 (by decide)

end Jullop
