import Jullop.HttpParser
import Jullop.Transducer

/-! `phr_decode_chunked` of `picohttpparser.c`, which takes the chunked transfer
coding off a buffer in place, and the decoder of single bytes that it comes to. -/

namespace Jullop

inductive ChunkedState
  | inChunkSize
  | inChunkExt
  | inChunkData
  | inChunkCrlf
  | inTrailersLineHead
  | inTrailersLineMiddle
  deriving DecidableEq, Repr

/-- `struct phr_chunked_decoder`. -/
structure ChunkedDecoder where
  bytesLeftInChunk : Nat
  consumeTrailer : Bool
  hexCount : Nat
  state : ChunkedState
  deriving DecidableEq, Repr

namespace ChunkedDecoder

/-- Zero-filled but for what the application asks for. -/
def zeroed (consumeTrailer : Bool) : ChunkedDecoder := ⟨0, consumeTrailer, 0, .inChunkSize⟩

/-- `none` for -1. -/
def decodeHex (ch : UInt8) : Option Nat :=
  if 0x30 ≤ ch ∧ ch ≤ 0x39 then some (ch.toNat - 0x30)
  else if 0x41 ≤ ch ∧ ch ≤ 0x46 then some (ch.toNat - 0x41 + 0xa)
  else if 0x61 ≤ ch ∧ ch ≤ 0x66 then some (ch.toNat - 0x61 + 0xa)
  else none

/-- `memmove(buf + dst, buf + src, n)`, `none` where it leaves the buffer. -/
def memmove (buf : List UInt8) (dst src n : Nat) : Option (List UInt8) :=
  if dst + n ≤ buf.length ∧ src + n ≤ buf.length then
    some (buf.take dst ++ ((buf.drop src).take n ++ buf.drop (dst + n)))
  else none

/-- The variables of `phr_decode_chunked`; `buf` holds its `bufsz` bytes. -/
structure Frame where
  decoder : ChunkedDecoder
  buf : List UInt8
  src : Nat
  dst : Nat

namespace Frame

def bufsz (f : Frame) : Nat := f.buf.length

/-- The guarded `memmove` of `n` bytes from `src` to `dst`. -/
def pull (f : Frame) (n : Nat) : Option Frame :=
  if f.dst ≠ f.src then do
    let buf ← memmove f.buf f.dst f.src n
    return { f with buf := buf }
  else some f

end Frame

/-- Where control goes: to the head of the loop that `_state` selects, or to one
of the two labels at the end. -/
inductive Jump
  | again (f : Frame)
  | exit (ret : Int) (f : Frame)
  | complete (f : Frame)

def Frame.goto (f : Frame) (state : ChunkedState) : Jump :=
  .again { f with decoder := { f.decoder with state := state } }

/-- A digit of the chunk size, in `size_t`. -/
def addDigit (d : ChunkedDecoder) (v : Nat) : ChunkedDecoder :=
  { d with
    bytesLeftInChunk := (d.bytesLeftInChunk * 16 + v) % 2 ^ 64
    hexCount := d.hexCount + 1 }

/-- The next `n` bytes are handed out. -/
def Frame.take (f : Frame) (n : Nat) : Option Frame := do
  let g ← f.pull n
  return { g with
    decoder := { g.decoder with bytesLeftInChunk := g.decoder.bytesLeftInChunk - n }
    src := g.src + n
    dst := g.dst + n }

/-- One turn of the loop over the digits of a chunk size. -/
def turnChunkSize (f : Frame) : Option Jump :=
  if f.src = f.bufsz then some (.exit (-2) f)
  else do
    let c ← f.buf[f.src]?
    match decodeHex c with
    | none =>
      if f.decoder.hexCount = 0 then return .exit (-1) f
      else return .again { f with decoder := { f.decoder with hexCount := 0, state := .inChunkExt } }
    | some v =>
      if f.decoder.hexCount = 8 * 2 then return .exit (-1) f
      else return .again { f with decoder := f.decoder.addDigit v, src := f.src + 1 }

def turnChunkExt (f : Frame) : Option Jump :=
  if f.src = f.bufsz then some (.exit (-2) f)
  else do
    let c ← f.buf[f.src]?
    let f := { f with src := f.src + 1 }
    if c ≠ LF then return .again f
    else if f.decoder.bytesLeftInChunk = 0 then
      if f.decoder.consumeTrailer then return f.goto .inTrailersLineHead
      else return .complete f
    else return f.goto .inChunkData

def turnChunkData (f : Frame) : Option Jump := do
  let avail := f.bufsz - f.src
  if avail < f.decoder.bytesLeftInChunk then return .exit (-2) (← f.take avail)
  else return (← f.take f.decoder.bytesLeftInChunk).goto .inChunkCrlf

def turnChunkCrlf (f : Frame) : Option Jump :=
  if f.src = f.bufsz then some (.exit (-2) f)
  else do
    let c ← f.buf[f.src]?
    if c = CR then return .again { f with src := f.src + 1 }
    else if c ≠ LF then return .exit (-1) f
    else return ({ f with src := f.src + 1 } : Frame).goto .inChunkSize

def turnTrailersLineHead (f : Frame) : Option Jump :=
  if f.src = f.bufsz then some (.exit (-2) f)
  else do
    let c ← f.buf[f.src]?
    let f := { f with src := f.src + 1 }
    if c = CR then return .again f
    else if c = LF then return .complete f
    else return f.goto .inTrailersLineMiddle

def turnTrailersLineMiddle (f : Frame) : Option Jump :=
  if f.src = f.bufsz then some (.exit (-2) f)
  else do
    let c ← f.buf[f.src]?
    let f := { f with src := f.src + 1 }
    if c ≠ LF then return .again f
    else return f.goto .inTrailersLineHead

/-- The `switch`. A case that falls through has set `_state` to the next one. -/
def turn (f : Frame) : Option Jump :=
  match f.decoder.state with
  | .inChunkSize => turnChunkSize f
  | .inChunkExt => turnChunkExt f
  | .inChunkData => turnChunkData f
  | .inChunkCrlf => turnChunkCrlf f
  | .inTrailersLineHead => turnTrailersLineHead f
  | .inTrailersLineMiddle => turnTrailersLineMiddle f

/-- Conversion of a `size_t` to `ssize_t`. -/
def toSsize (n : Nat) : Int := Int.bmod n (2 ^ 64)

def loop : (fuel : Nat) → Frame → Option (Int × Frame)
  | 0, _ => none
  | fuel + 1, f => do
    match ← turn f with
    | .again g => loop fuel g
    | .exit ret g => return (ret, g)
    | .complete g => return (toSsize (g.bufsz - g.src), g)

/-- What the caller has after the call: the decoder, the buffer, `*_bufsz` and the
value returned. -/
structure Call where
  decoder : ChunkedDecoder
  buf : List UInt8
  bufsz : Nat
  ret : Int
  deriving DecidableEq, Repr

end ChunkedDecoder

open ChunkedDecoder

/-- `none` when the call reads or writes outside the buffer or does not return. -/
def phrDecodeChunked (decoder : ChunkedDecoder) (buf : List UInt8) : Option Call := do
  let (ret, f) ← loop (2 * buf.length + 2) ⟨decoder, buf, 0, 0⟩
  let g ← f.pull (f.bufsz - f.src)
  return ⟨g.decoder, g.buf, g.dst, ret⟩

def phrDecodeChunkedIsInData (decoder : ChunkedDecoder) : Bool :=
  decoder.state = .inChunkData

namespace ChunkedDecoder

open Transducer

/-- A byte of the line behind the digits of a chunk size. -/
def readExt (d : ChunkedDecoder) (c : UInt8) : Reply ChunkedDecoder UInt8 :=
  if c ≠ LF then .next d []
  else if d.bytesLeftInChunk = 0 then
    if d.consumeTrailer then .next { d with state := .inTrailersLineHead } [] else .last d
  else .next { d with state := .inChunkData } []

/-- What the decoder makes of one byte, with chunk sizes that do not wrap. -/
def read (d : ChunkedDecoder) (c : UInt8) : Reply ChunkedDecoder UInt8 :=
  match d.state with
  | .inChunkSize =>
    match decodeHex c with
    | none => if d.hexCount = 0 then .refuse else readExt { d with hexCount := 0, state := .inChunkExt } c
    | some v =>
      if d.hexCount = 16 then .refuse
      else .next
        { d with bytesLeftInChunk := d.bytesLeftInChunk * 16 + v, hexCount := d.hexCount + 1 } []
  | .inChunkExt => readExt d c
  | .inChunkData =>
    .next
      { d with
        bytesLeftInChunk := d.bytesLeftInChunk - 1
        state := if d.bytesLeftInChunk = 1 then .inChunkCrlf else .inChunkData } [c]
  | .inChunkCrlf =>
    if c = CR then .next d []
    else if c = LF then .next { d with state := .inChunkSize } []
    else .refuse
  | .inTrailersLineHead =>
    if c = CR then .next d []
    else if c = LF then .last d
    else .next { d with state := .inTrailersLineMiddle } []
  | .inTrailersLineMiddle =>
    if c = LF then .next { d with state := .inTrailersLineHead } [] else .next d []

/-! The loop in terms of single bytes. -/

/-- What holds of a decoder between two calls. -/
def Sound (d : ChunkedDecoder) : Prop :=
  match d.state with
  | .inChunkSize => d.hexCount ≤ 16 ∧ d.bytesLeftInChunk < 16 ^ d.hexCount
  | .inChunkExt => d.hexCount = 0 ∧ d.bytesLeftInChunk < 2 ^ 64
  | .inChunkData => d.hexCount = 0 ∧ 0 < d.bytesLeftInChunk ∧ d.bytesLeftInChunk < 2 ^ 64
  | _ => d.hexCount = 0 ∧ d.bytesLeftInChunk = 0

theorem sound_zeroed (t : Bool) : (zeroed t).Sound := by
  constructor
  · exact Nat.zero_le _
  · exact Nat.one_pos

theorem Sound.size_lt {d : ChunkedDecoder} (h : d.Sound) (hs : d.state = .inChunkSize) :
    d.bytesLeftInChunk < 2 ^ 64 := by
  simp only [Sound, hs] at h
  have hpow : 16 ^ d.hexCount ≤ 16 ^ 16 := Nat.pow_le_pow_right (by omega) h.1
  omega

theorem decodeHex_lt {c : UInt8} {v : Nat} (h : decodeHex c = some v) : v < 16 := by
  simp only [decodeHex, UInt8.le_iff_toNat_le] at h
  have h9 : (0x39 : UInt8).toNat = 0x39 := rfl
  have hF : (0x46 : UInt8).toNat = 0x46 := rfl
  have hf : (0x66 : UInt8).toNat = 0x66 := rfl
  split at h
  · cases h
    omega
  · split at h
    · cases h
      omega
    · split at h
      · cases h
        omega
      · cases h

theorem Sound.digit_lt {d : ChunkedDecoder} (h : d.Sound) (hs : d.state = .inChunkSize)
    (hn : d.hexCount ≠ 16) {v : Nat} (hv : v < 16) :
    d.bytesLeftInChunk * 16 + v < 16 ^ (d.hexCount + 1) ∧ 16 ^ (d.hexCount + 1) ≤ 2 ^ 64 := by
  simp only [Sound, hs] at h
  have hpow : 16 ^ (d.hexCount + 1) ≤ 16 ^ 16 := Nat.pow_le_pow_right (by omega) (by omega)
  rw [Nat.pow_succ] at hpow ⊢
  omega

theorem Sound.addDigit_eq {d : ChunkedDecoder} (h : d.Sound) (hs : d.state = .inChunkSize)
    (hn : d.hexCount ≠ 16) {v : Nat} (hv : v < 16) :
    d.addDigit v =
      { d with bytesLeftInChunk := d.bytesLeftInChunk * 16 + v, hexCount := d.hexCount + 1 } := by
  have hlt := h.digit_lt hs hn hv
  rw [addDigit, Nat.mod_eq_of_lt (by omega)]

namespace Frame

/-- The bytes handed out so far. -/
def decoded (f : Frame) : List UInt8 := f.buf.take f.dst

def unread (f : Frame) : List UInt8 := f.buf.drop f.src

/-- A bound on the turns that are left. -/
def work (f : Frame) : Nat :=
  2 * (f.bufsz - f.src) + if f.decoder.state = .inChunkSize then 1 else 0

/-- From `f` to `g` the bytes `out` are handed out, over bytes that were read. -/
structure Yields (f g : Frame) (out : List UInt8) : Prop where
  decoded_eq : g.decoded = f.decoded ++ out
  bufsz_eq : g.bufsz = f.bufsz
  dst_le : g.dst ≤ g.src
  src_le : g.src ≤ g.bufsz

theorem Yields.trans {f g k : Frame} {out out' : List UInt8} (h : Yields f g out)
    (h' : Yields g k out') : Yields f k (out ++ out') where
  decoded_eq := by rw [h'.decoded_eq, h.decoded_eq, List.append_assoc]
  bufsz_eq := h'.bufsz_eq.trans h.bufsz_eq
  dst_le := h'.dst_le
  src_le := h'.src_le

theorem pull_eq {f : Frame} (hdst : f.dst ≤ f.src) {n : Nat} (hn : f.src + n ≤ f.bufsz) :
    ∃ buf, f.pull n = some { f with buf := buf } ∧ buf.length = f.buf.length ∧
      buf.take (f.dst + n) = f.decoded ++ f.unread.take n ∧
      buf.drop (f.src + n) = f.buf.drop (f.src + n) := by
  simp only [bufsz] at hn
  by_cases he : f.dst = f.src
  · refine ⟨f.buf, if_neg (not_not.mpr he), rfl, ?_, rfl⟩
    rw [he, List.take_add, decoded, unread, he]
  · have hlen : (f.buf.take f.dst ++ (f.buf.drop f.src).take n).length = f.dst + n := by
      simp only [List.length_append, List.length_take, List.length_drop]
      omega
    refine ⟨f.buf.take f.dst ++ ((f.buf.drop f.src).take n ++ f.buf.drop (f.dst + n)), ?_, ?_, ?_, ?_⟩
    · have hin : f.dst + n ≤ f.buf.length ∧ f.src + n ≤ f.buf.length := by omega
      simp [pull, he, memmove, hin]
    · simp only [List.length_append, List.length_take, List.length_drop]
      omega
    · rw [← List.append_assoc, List.take_left' hlen]
      rfl
    · have hsplit : f.src + n = f.dst + n + (f.src - f.dst) := by omega
      rw [← List.append_assoc, hsplit, ← List.drop_drop, List.drop_left' hlen, List.drop_drop]

theorem take_eq {f : Frame} (hdst : f.dst ≤ f.src) {n : Nat} (hn : f.src + n ≤ f.bufsz) :
    ∃ g, f.take n = some g ∧ Yields f g (f.unread.take n) ∧ g.unread = f.unread.drop n ∧
      g.src = f.src + n ∧
      g.decoder = { f.decoder with bytesLeftInChunk := f.decoder.bytesLeftInChunk - n } := by
  obtain ⟨buf, hpull, hlen, htake, hdrop⟩ := pull_eq hdst hn
  refine ⟨⟨{ f.decoder with bytesLeftInChunk := f.decoder.bytesLeftInChunk - n }, buf, f.src + n,
    f.dst + n⟩, by simp [take, hpull], ⟨htake, hlen, ?_, ?_⟩, ?_, rfl, rfl⟩
  · change f.dst + n ≤ f.src + n
    omega
  · change f.src + n ≤ buf.length
    rw [hlen]
    exact hn
  · change buf.drop (f.src + n) = (f.buf.drop f.src).drop n
    rw [hdrop, List.drop_drop]

/-- Only `src` and the decoder change. -/
theorem yields_skip {f : Frame} (hdst : f.dst ≤ f.src) {n : Nat} (hn : f.src + n ≤ f.bufsz)
    (d : ChunkedDecoder) : Yields f { f with decoder := d, src := f.src + n } [] where
  decoded_eq := (List.append_nil _).symm
  bufsz_eq := rfl
  dst_le := Nat.le_trans hdst (Nat.le_add_right _ _)
  src_le := hn

theorem unread_eq_nil {f : Frame} (h : f.src = f.bufsz) : f.unread = [] := by
  rw [unread, h]
  exact List.drop_length

theorem exists_unread {f : Frame} (hsrc : f.src ≤ f.bufsz) (h : f.src ≠ f.bufsz) :
    ∃ c cs, f.unread = c :: cs ∧ f.buf[f.src]? = some c ∧ f.buf.drop (f.src + 1) = cs := by
  have hlt : f.src < f.buf.length := Nat.lt_of_le_of_ne hsrc h
  exact ⟨f.buf[f.src], _, List.drop_eq_getElem_cons hlt, List.getElem?_eq_getElem hlt, rfl⟩

end Frame

theorem readExt_ne_refuse (d : ChunkedDecoder) (c : UInt8) : readExt d c ≠ .refuse := by
  rw [readExt]
  split
  · simp
  · split
    · split <;> simp
    · simp

/-- What a turn leaves to the rest of the call. -/
def TurnOk (f : Frame) : Jump → Prop
  | .again g =>
    ∃ out, f.Yields g out ∧ g.decoder.Sound ∧ g.work < f.work ∧
      run read f.decoder f.unread = (run read g.decoder g.unread).after out
  | .exit ret g =>
    ∃ out, f.Yields g out ∧
      (ret = -2 ∧ run read f.decoder f.unread = ⟨.more, g.decoder, out⟩ ∨
        ret = -1 ∧ run read f.decoder f.unread = ⟨.refused, g.decoder, out⟩)
  | .complete g =>
    f.Yields g [] ∧ run read f.decoder f.unread = ⟨.done g.unread, g.decoder, []⟩

theorem Frame.src_lt_of_unread {f : Frame} {c : UInt8} {cs : List UInt8} (h : f.unread = c :: cs) :
    f.src + 1 ≤ f.bufsz := by
  have hlen := congrArg List.length h
  simp only [Frame.unread, List.length_drop, List.length_cons] at hlen
  simp only [Frame.bufsz]
  omega

section

variable {f : Frame} (hdst : f.dst ≤ f.src) (hsrc : f.src ≤ f.bufsz)
include hdst hsrc

theorem turnOk_wait (h : f.src = f.bufsz) : TurnOk f (.exit (-2) f) := by
  refine ⟨[], Frame.yields_skip (n := 0) hdst hsrc f.decoder, .inl ⟨rfl, ?_⟩⟩
  rw [Frame.unread_eq_nil h]
  rfl

variable {c : UInt8} {cs : List UInt8} (hc : f.unread = c :: cs)
include hc

theorem turnOk_refuse (h : read f.decoder c = .refuse) : TurnOk f (.exit (-1) f) := by
  refine ⟨[], Frame.yields_skip (n := 0) hdst hsrc f.decoder, .inr ⟨rfl, ?_⟩⟩
  rw [hc, run_refuse h]

variable (hcs : f.buf.drop (f.src + 1) = cs) {d : ChunkedDecoder}
include hcs
omit hsrc

theorem turnOk_next (h : read f.decoder c = .next d []) (hd : d.Sound) :
    TurnOk f (.again { f with decoder := d, src := f.src + 1 }) := by
  have hlt := Frame.src_lt_of_unread hc
  refine ⟨[], Frame.yields_skip hdst hlt d, hd, ?_, ?_⟩
  · simp only [Frame.work, Frame.bufsz] at hlt ⊢
    split <;> split <;> omega
  · rw [hc, run_next h, Frame.unread, hcs]

theorem turnOk_last (h : read f.decoder c = .last d) :
    TurnOk f (.complete { f with decoder := d, src := f.src + 1 }) := by
  refine ⟨Frame.yields_skip hdst (Frame.src_lt_of_unread hc) d, ?_⟩
  rw [hc, run_last h, Frame.unread, hcs]

end

section

variable {f : Frame} (hdst : f.dst ≤ f.src) (hsrc : f.src ≤ f.bufsz) (hd : f.decoder.Sound)
include hdst hsrc hd

theorem turnChunkExt_ok (hs : f.decoder.state = .inChunkExt) :
    ∃ j, turnChunkExt f = some j ∧ TurnOk f j := by
  by_cases hend : f.src = f.bufsz
  · exact ⟨_, if_pos hend, turnOk_wait hdst hsrc hend⟩
  · obtain ⟨c, cs, hc, hget, hcs⟩ := Frame.exists_unread hsrc hend
    simp only [Sound, hs] at hd
    simp only [turnChunkExt, hend, if_false, hget, Option.bind_eq_bind, Option.bind_some]
    by_cases hlf : c = LF
    · by_cases hleft : f.decoder.bytesLeftInChunk = 0
      · by_cases htrail : f.decoder.consumeTrailer = true
        · refine ⟨_, by simp only [hlf, hleft, htrail]; rfl, turnOk_next hdst hc hcs ?_ ?_⟩
          · simp only [read, hs, readExt, hlf, hleft, htrail]
            rfl
          · exact ⟨hd.1, hleft⟩
        · refine ⟨.complete { f with src := f.src + 1 }, by simp [hlf, hleft, htrail],
            turnOk_last hdst hc hcs ?_⟩
          simp [read, hs, readExt, hlf, hleft, htrail]
      · refine ⟨_, by simp only [hlf, hleft]; rfl, turnOk_next hdst hc hcs ?_ ?_⟩
        · simp only [read, hs, readExt, hlf, hleft]
          rfl
        · exact ⟨hd.1, Nat.pos_of_ne_zero hleft, hd.2⟩
    · refine ⟨_, by simp only [ne_eq, hlf, not_false_eq_true, if_true]; rfl,
        turnOk_next hdst hc hcs ?_ ?_⟩
      · simp only [read, hs, readExt, ne_eq, hlf, not_false_eq_true, if_true]
      · simpa only [Sound, hs] using hd

theorem turnChunkSize_ok (hs : f.decoder.state = .inChunkSize) :
    ∃ j, turnChunkSize f = some j ∧ TurnOk f j := by
  by_cases hend : f.src = f.bufsz
  · exact ⟨_, if_pos hend, turnOk_wait hdst hsrc hend⟩
  · obtain ⟨c, cs, hc, hget, hcs⟩ := Frame.exists_unread hsrc hend
    have hlt := hd.size_lt hs
    simp only [turnChunkSize, hend, if_false, hget, Option.bind_eq_bind, Option.bind_some]
    cases hv : decodeHex c with
    | none =>
      by_cases hn : f.decoder.hexCount = 0
      · refine ⟨_, by simp only [hn, if_true]; rfl, turnOk_refuse hdst hsrc hc ?_⟩
        simp only [read, hs, hv, hn, if_true]
      · -- the byte stays, to be read as the first one behind the digits
        refine ⟨.again { f with decoder := { f.decoder with hexCount := 0, state := .inChunkExt } },
          by simp only [hn, if_false]; rfl, [], Frame.yields_skip (n := 0) hdst hsrc _, ⟨rfl, hlt⟩,
          ?_, ?_⟩
        · simp [Frame.work, Frame.bufsz, hs]
        · have hread : read f.decoder c =
              read { f.decoder with hexCount := 0, state := .inChunkExt } c := by
            simp only [read, hs, hv, hn, if_false]
          rw [Result.after_nil]
          change run read f.decoder f.unread =
            run read { f.decoder with hexCount := 0, state := .inChunkExt } f.unread
          rw [hc]
          exact run_congr hread (readExt_ne_refuse _ c)
    | some v =>
      by_cases hn : f.decoder.hexCount = 16
      · refine ⟨_, by simp only [hn]; rfl, turnOk_refuse hdst hsrc hc ?_⟩
        simp only [read, hs, hv, hn, if_true]
      · refine ⟨_, by simp only [hn, if_false]; rfl, turnOk_next hdst hc hcs ?_ ?_⟩
        · simp only [read, hs, hv, hn, if_false]
          rw [hd.addDigit_eq hs hn (decodeHex_lt hv), hs]
        · rw [hd.addDigit_eq hs hn (decodeHex_lt hv)]
          simp only [Sound, hs] at hd ⊢
          exact ⟨by omega, (Sound.digit_lt (by simpa only [Sound, hs] using hd) hs hn
            (decodeHex_lt hv)).1⟩

end

theorem read_data {d : ChunkedDecoder} (hs : d.state = .inChunkData) (h : d.bytesLeftInChunk ≠ 1)
    (c : UInt8) :
    read d c = .next { d with bytesLeftInChunk := d.bytesLeftInChunk - 1 } [c] := by
  simp only [read, hs, h, if_false]

/-- A chunk that goes on beyond the bytes at hand. -/
theorem run_data_short {d : ChunkedDecoder} (hs : d.state = .inChunkData) {xs : List UInt8}
    (h : xs.length < d.bytesLeftInChunk) :
    run read d xs =
      ⟨.more, { d with bytesLeftInChunk := d.bytesLeftInChunk - xs.length }, xs⟩ := by
  induction xs generalizing d with
  | nil => rfl
  | cons c cs ih =>
    simp only [List.length_cons] at h
    have hrest := ih (d := { d with bytesLeftInChunk := d.bytesLeftInChunk - 1 }) hs
      (Nat.lt_sub_of_add_lt h)
    rw [run_next (read_data hs (by omega) c), hrest]
    simp only [Result.after, List.singleton_append, List.length_cons, Nat.sub_sub, Nat.add_comm]

/-- The bytes up to the end of a chunk. -/
theorem run_data_full {d : ChunkedDecoder} (hs : d.state = .inChunkData) {xs ys : List UInt8}
    (h : xs.length = d.bytesLeftInChunk) (hpos : 0 < d.bytesLeftInChunk) :
    run read d (xs ++ ys) =
      (run read { d with bytesLeftInChunk := 0, state := .inChunkCrlf } ys).after xs := by
  induction xs generalizing d with
  | nil =>
    rw [← h] at hpos
    exact absurd hpos (Nat.lt_irrefl 0)
  | cons c cs ih =>
    rw [List.length_cons] at h
    by_cases hone : d.bytesLeftInChunk = 1
    · obtain rfl : cs = [] := List.eq_nil_of_length_eq_zero (by omega)
      have hread : read d c =
          .next { d with bytesLeftInChunk := 0, state := .inChunkCrlf } [c] := by
        simp only [read, hs, hone, if_true]
      exact run_next hread
    · have hrest := ih (d := { d with bytesLeftInChunk := d.bytesLeftInChunk - 1 }) hs
        (Nat.eq_sub_of_add_eq h) (Nat.sub_pos_of_lt (by omega))
      rw [List.cons_append, run_next (read_data hs hone c), hrest, Result.after_after]
      rfl

section

variable {f : Frame} (hdst : f.dst ≤ f.src) (hsrc : f.src ≤ f.bufsz) (hd : f.decoder.Sound)
include hdst hsrc hd

theorem turnChunkData_ok (hs : f.decoder.state = .inChunkData) :
    ∃ j, turnChunkData f = some j ∧ TurnOk f j := by
  simp only [Sound, hs] at hd
  have hlen : f.unread.length = f.bufsz - f.src := List.length_drop
  by_cases hlt : f.bufsz - f.src < f.decoder.bytesLeftInChunk
  · obtain ⟨g, hg, hyields, -, -, hdec⟩ := Frame.take_eq hdst (n := f.bufsz - f.src) (by omega)
    refine ⟨.exit (-2) g, by simp [turnChunkData, hlt, hg], _, hyields, .inl ⟨rfl, ?_⟩⟩
    rw [run_data_short hs (by omega), List.take_of_length_le (by omega), hdec, hlen]
  · obtain ⟨g, hg, hyields, hunread, hgsrc, hdec⟩ :=
      Frame.take_eq hdst (n := f.decoder.bytesLeftInChunk) (by omega)
    have hfinal : ({ g.decoder with state := .inChunkCrlf } : ChunkedDecoder) =
        { f.decoder with bytesLeftInChunk := 0, state := .inChunkCrlf } := by
      rw [hdec, Nat.sub_self]
    refine ⟨g.goto .inChunkCrlf, by simp [turnChunkData, hlt, hg], _,
      ⟨hyields.decoded_eq, hyields.bufsz_eq, hyields.dst_le, hyields.src_le⟩, ?_, ?_, ?_⟩
    · change Sound { g.decoder with state := .inChunkCrlf }
      rw [hfinal]
      exact ⟨hd.1, rfl⟩
    · have hbufsz := hyields.bufsz_eq
      simp only [Frame.work, Frame.bufsz, hs, hgsrc] at hbufsz hlt hsrc ⊢
      simp only [reduceCtorEq, if_false]
      omega
    · change run read f.decoder f.unread =
        (run read { g.decoder with state := .inChunkCrlf } g.unread).after _
      rw [hfinal, hunread, ← run_data_full hs (by rw [List.length_take]; omega) hd.2.1,
        List.take_append_drop]

theorem turnChunkCrlf_ok (hs : f.decoder.state = .inChunkCrlf) :
    ∃ j, turnChunkCrlf f = some j ∧ TurnOk f j := by
  by_cases hend : f.src = f.bufsz
  · exact ⟨_, if_pos hend, turnOk_wait hdst hsrc hend⟩
  · obtain ⟨c, cs, hc, hget, hcs⟩ := Frame.exists_unread hsrc hend
    simp only [turnChunkCrlf, hend, if_false, hget, Option.bind_eq_bind, Option.bind_some]
    by_cases hcr : c = CR
    · refine ⟨.again { f with src := f.src + 1 }, by simp [hcr], turnOk_next hdst hc hcs ?_ hd⟩
      simp [read, hs, hcr]
    · simp only [Sound, hs] at hd
      by_cases hlf : c = LF
      · refine ⟨_, by simp only [hlf]; rfl, turnOk_next hdst hc hcs ?_ ?_⟩
        · simp only [read, hs, hlf, if_true]
          rfl
        · simp [Sound, hd]
      · refine ⟨.exit (-1) f, by simp [hcr, hlf], turnOk_refuse hdst hsrc hc ?_⟩
        simp [read, hs, hcr, hlf]

theorem turnTrailersLineHead_ok (hs : f.decoder.state = .inTrailersLineHead) :
    ∃ j, turnTrailersLineHead f = some j ∧ TurnOk f j := by
  by_cases hend : f.src = f.bufsz
  · exact ⟨_, if_pos hend, turnOk_wait hdst hsrc hend⟩
  · obtain ⟨c, cs, hc, hget, hcs⟩ := Frame.exists_unread hsrc hend
    simp only [turnTrailersLineHead, hend, if_false, hget, Option.bind_eq_bind, Option.bind_some]
    by_cases hcr : c = CR
    · refine ⟨.again { f with src := f.src + 1 }, by simp [hcr], turnOk_next hdst hc hcs ?_ hd⟩
      simp [read, hs, hcr]
    · by_cases hlf : c = LF
      · refine ⟨.complete { f with src := f.src + 1 }, by simp [hlf], turnOk_last hdst hc hcs ?_⟩
        simp [read, hs, hlf]
      · refine ⟨_, by simp only [hcr, hlf]; rfl, turnOk_next hdst hc hcs ?_ ?_⟩
        · simp only [read, hs, hcr, hlf, if_false]
        · simpa only [Sound, hs] using hd

theorem turnTrailersLineMiddle_ok (hs : f.decoder.state = .inTrailersLineMiddle) :
    ∃ j, turnTrailersLineMiddle f = some j ∧ TurnOk f j := by
  by_cases hend : f.src = f.bufsz
  · exact ⟨_, if_pos hend, turnOk_wait hdst hsrc hend⟩
  · obtain ⟨c, cs, hc, hget, hcs⟩ := Frame.exists_unread hsrc hend
    simp only [turnTrailersLineMiddle, hend, if_false, hget, Option.bind_eq_bind, Option.bind_some]
    by_cases hlf : c = LF
    · refine ⟨_, by simp only [hlf]; rfl, turnOk_next hdst hc hcs ?_ ?_⟩
      · simp only [read, hs, hlf, if_true]
      · simpa only [Sound, hs] using hd
    · refine ⟨.again { f with src := f.src + 1 }, by simp [hlf], turnOk_next hdst hc hcs ?_ hd⟩
      simp [read, hs, hlf]

theorem turn_ok : ∃ j, turn f = some j ∧ TurnOk f j := by
  rw [turn]
  cases hs : f.decoder.state with
  | inChunkSize => exact turnChunkSize_ok hdst hsrc hd hs
  | inChunkExt => exact turnChunkExt_ok hdst hsrc hd hs
  | inChunkData => exact turnChunkData_ok hdst hsrc hd hs
  | inChunkCrlf => exact turnChunkCrlf_ok hdst hsrc hd hs
  | inTrailersLineHead => exact turnTrailersLineHead_ok hdst hsrc hd hs
  | inTrailersLineMiddle => exact turnTrailersLineMiddle_ok hdst hsrc hd hs

end

/-- The value returned for a verdict, and the bytes it leaves unread. -/
def Returns (unread : List UInt8) (ret : Int) : Verdict UInt8 → Prop
  | .more => ret = -2
  | .refused => ret = -1
  | .done rest => ret = toSsize rest.length ∧ unread = rest

/-- The end of the loop, told by the byte decoder. -/
structure Ends (f : Frame) (ret : Int) (g : Frame) : Prop where
  yields : f.Yields g (run read f.decoder f.unread).out
  state_eq : g.decoder = (run read f.decoder f.unread).state
  returns : Returns g.unread ret (run read f.decoder f.unread).verdict

theorem Ends.of_again {f g k : Frame} {ret : Int} {out : List UInt8} (hy : f.Yields g out)
    (hrun : run read f.decoder f.unread = (run read g.decoder g.unread).after out)
    (h : Ends g ret k) : Ends f ret k where
  yields := by
    rw [hrun]
    exact hy.trans h.yields
  state_eq := by
    rw [hrun]
    exact h.state_eq
  returns := by
    rw [hrun]
    exact h.returns

theorem loop_ends {f : Frame} (hdst : f.dst ≤ f.src) (hsrc : f.src ≤ f.bufsz)
    (hd : f.decoder.Sound) {fuel : Nat} (hfuel : f.work < fuel) :
    ∃ ret g, loop fuel f = some (ret, g) ∧ Ends f ret g := by
  induction fuel generalizing f with
  | zero => exact absurd hfuel (Nat.not_lt_zero _)
  | succ fuel ih =>
    obtain ⟨j, hj, hok⟩ := turn_ok hdst hsrc hd
    cases j with
    | again g =>
      obtain ⟨out, hy, hgd, hwork, hrun⟩ := hok
      obtain ⟨ret, k, hloop, hends⟩ := ih hy.dst_le hy.src_le hgd (by omega)
      exact ⟨ret, k, by simp [loop, hj, hloop], hends.of_again hy hrun⟩
    | exit ret g =>
      refine ⟨ret, g, by simp [loop, hj], ?_⟩
      obtain ⟨out, hy, ⟨rfl, hrun⟩ | ⟨rfl, hrun⟩⟩ := hok
      · exact ⟨by rw [hrun]; exact hy, by rw [hrun], by rw [hrun]; rfl⟩
      · exact ⟨by rw [hrun]; exact hy, by rw [hrun], by rw [hrun]; rfl⟩
    | complete g =>
      obtain ⟨hy, hrun⟩ := hok
      have hlen : g.unread.length = g.bufsz - g.src := List.length_drop
      refine ⟨toSsize (g.bufsz - g.src), g, by simp [loop, hj], ?_⟩
      exact ⟨by rw [hrun]; exact hy, by rw [hrun], by rw [hrun]; exact ⟨by rw [hlen], rfl⟩⟩

/-- What a caller can tell from a call: by the value returned, the bytes decoded
and, once that is all, those left undecoded behind them. -/
def Call.result (k : Call) : Result ChunkedDecoder UInt8 UInt8 where
  verdict :=
    if k.ret = -2 then .more
    else if k.ret = -1 then .refused
    else .done ((k.buf.drop k.bufsz).take k.ret.toNat)
  state := k.decoder
  out := k.buf.take k.bufsz

theorem toSsize_eq {n : Nat} (h : n < 2 ^ 63) : toSsize n = n :=
  Int.bmod_eq_of_le (n := (n : Int)) (m := 2 ^ 64) (by omega) (by omega)

theorem Returns.verdict_eq {unread : List UInt8} {ret : Int} {v : Verdict UInt8}
    (h : Returns unread ret v) (hlen : unread.length < 2 ^ 63) (tail : List UInt8) :
    (if ret = -2 then .more
      else if ret = -1 then .refused else .done ((unread ++ tail).take ret.toNat)) = v := by
  cases v with
  | more =>
    obtain rfl : ret = -2 := h
    rfl
  | refused =>
    obtain rfl : ret = -1 := h
    rfl
  | done rest =>
    obtain ⟨hret, rfl⟩ := h
    rw [toSsize_eq hlen] at hret
    rw [if_neg (by omega), if_neg (by omega), hret, Int.toNat_natCast, List.take_left]

/-- A call stays inside its buffer, returns, and does what the byte decoder does
with the bytes of the buffer. -/
theorem phrDecodeChunked_eq_run {d : ChunkedDecoder} (hd : d.Sound) {buf : List UInt8}
    (hlen : buf.length < 2 ^ 63) :
    ∃ k, phrDecodeChunked d buf = some k ∧ k.result = run read d buf ∧
      k.buf.length = buf.length := by
  have hwork : (⟨d, buf, 0, 0⟩ : Frame).work < 2 * buf.length + 2 := by
    simp only [Frame.work, Frame.bufsz]
    split <;> omega
  obtain ⟨ret, g, hloop, hends⟩ :=
    loop_ends (f := ⟨d, buf, 0, 0⟩) (Nat.le_refl 0) (Nat.zero_le _) hd hwork
  have hy := hends.yields
  obtain ⟨buf', hpull, hlen', htake, -⟩ := Frame.pull_eq hy.dst_le
    (n := g.bufsz - g.src) (by have := hy.src_le; omega)
  have hsame : buf'.length = buf.length := hlen'.trans hy.bufsz_eq
  have hunread : g.unread.length = g.bufsz - g.src := List.length_drop
  have hgbuf : g.bufsz = buf.length := hy.bufsz_eq
  have hdec : g.decoded.length = g.dst := by
    have hdst := hy.dst_le
    have hsrc := hy.src_le
    simp only [Frame.bufsz] at hsrc
    simp only [Frame.decoded, List.length_take]
    omega
  -- the buffer holds the bytes decoded, then those unread, then what is left of old ones
  have hsplit : buf' = g.decoded ++ (g.unread ++ buf'.drop (g.dst + (g.bufsz - g.src))) := by
    rw [List.take_of_length_le (by omega : g.unread.length ≤ g.bufsz - g.src)] at htake
    rw [← List.append_assoc, ← htake, List.take_append_drop]
  refine ⟨⟨g.decoder, buf', g.dst, ret⟩, by simp [phrDecodeChunked, hloop, hpull], ?_, hsame⟩
  have hout : buf'.take g.dst = (run read d buf).out := by
    rw [hsplit, List.take_left' hdec]
    exact hy.decoded_eq
  have hverdict := hends.returns.verdict_eq (by omega) (buf'.drop (g.dst + (g.bufsz - g.src)))
  have hdrop : buf'.drop g.dst = g.unread ++ buf'.drop (g.dst + (g.bufsz - g.src)) := by
    conv_lhs => rw [hsplit, List.drop_left' hdec]
  rw [Call.result]
  simp only [hout, hdrop, hverdict, hends.state_eq]
  rfl

end ChunkedDecoder

end Jullop
