import Jullop.InputBuffer
import Jullop.Machine

/-! The input buffer over whole runs of `input_buffer_read_into` and
`input_buffer_reset`. Lengths do not wrap: a buffer has fewer than `2 ^ 63` bytes. -/

namespace Jullop

open InputBuffer

/-- The counts that `input_buffer_read_into` passes to `read(2)`, one for each of
the results that it gets. -/
def readCounts (b : InputBuffer) : List ReadResult → List Nat
  | [] => []
  | .data bytes :: rs =>
    (b.resize.length - b.resize.offset) :: readCounts (b.resize.store bytes) rs
  | _ :: _ => [b.resize.length - b.resize.offset]

inductive InputOp
  | readInto (rs : List ReadResult)
  | reset

inductive InputObs
  | readInto (state : ReadState) (bytes : List UInt8)
  | reset
  deriving DecidableEq

/-- One input buffer under any sequence of calls. -/
def inputStream (size : Nat) : Machine InputBuffer InputOp InputObs where
  init b := ∃ heap, b = inputBufferInit heap size
  step b
    | .readInto rs =>
      (inputBufferReadInto b rs).map fun (st, b') => (b', [.readInto st (delivered rs)])
    | .reset => some (inputBufferReset b, [.reset])

namespace InputObs

def isReset : InputObs → Bool
  | reset => true
  | _ => false

def bytes : InputObs → List UInt8
  | readInto _ bytes => bytes
  | reset => []

end InputObs

namespace InputStream

open InputObs

/-- The bytes received since the last reset. -/
def receivedBytes (tr : List InputObs) : List UInt8 :=
  (Trace.since isReset tr).flatMap InputObs.bytes

variable {size : Nat} {b b' : InputBuffer} {tr : List InputObs} {rs : List ReadResult}
  {st : ReadState}

/-- The buffer was doubled so many times. -/
def Doubled (size : Nat) (b : InputBuffer) : Prop := b.length = size * 2 ^ b.resizeCount

theorem Doubled.resize (h : Doubled size b) : Doubled size b.resize := by
  rw [InputBuffer.resize]
  split
  · have hlen : (b.buffer ++ garbage b.heap b.length b.length).length = 2 * b.length := by
      rw [List.length_append, garbage_length]
      simp only [length]
      omega
    have hdouble : 2 * b.length = size * 2 ^ (b.resizeCount + 1) := by
      rw [h, Nat.pow_succ, Nat.mul_comm 2, Nat.mul_assoc]
    exact hlen.trans hdouble
  · exact h

theorem Doubled.store {bytes : List UInt8} (h : Doubled size b)
    (hfit : b.offset + bytes.length ≤ b.length) : Doubled size (b.store bytes) := by
  rw [Doubled, store_length hfit]
  exact h

theorem Doubled.length_pos (h : Doubled size b) (hsize : 1 ≤ size) : 0 < b.length := by
  rw [h]
  exact Nat.mul_pos hsize (Nat.two_pow_pos _)

theorem Doubled.readInto (h : Doubled size b) (hr : inputBufferReadInto b rs = some (st, b')) :
    Doubled size b' :=
  readInto_keeps (P := Doubled size) (fun _ => .resize) (fun _ _ => .store) h hr

theorem readCounts_pos (hpos : 0 < b.length) (hr : inputBufferReadInto b rs = some (st, b')) :
    ∀ n ∈ readCounts b rs, 0 < n := by
  have hroom := b.resize_lt hpos
  induction rs generalizing b with
  | nil => simp [inputBufferReadInto] at hr
  | cons r rs ih =>
    cases r with
    | data bytes =>
      simp only [inputBufferReadInto, Option.ite_none_right_eq_some] at hr
      obtain ⟨⟨-, hfit⟩, hr⟩ := hr
      have hgrow := b.resize_length
      have hpos' : 0 < (b.resize.store bytes).length := by
        rw [store_length hfit]
        omega
      have hrest := ih hpos' hr ((b.resize.store bytes).resize_lt hpos')
      intro n hn
      rcases List.mem_cons.mp hn with rfl | hn
      · omega
      · exact hrest n hn
    | _ =>
      intro n hn
      simp only [readCounts, List.mem_singleton] at hn
      omega

structure Inv (size : Nat) (b : InputBuffer) (tr : List InputObs) : Prop where
  doubled : Doubled size b
  received : b.received = receivedBytes tr

theorem inputStream_inv (hsize : 1 ≤ size) (h : (inputStream size).Run b tr) : Inv size b tr := by
  refine Machine.Run.invariant (Inv size) ?_ ?_ h
  · rintro b ⟨heap, rfl⟩
    refine ⟨?_, rfl⟩
    simp [Doubled, length, inputBufferInit, garbage_length]
  · intro b tr op b' obs hi hs
    cases op with
    | readInto rs =>
      simp only [inputStream, Option.map_eq_some_iff, Prod.mk.injEq, Prod.exists] at hs
      obtain ⟨st, b', hs, rfl, rfl⟩ := hs
      obtain ⟨-, hrec, -, -⟩ := inputBufferReadInto_eq_some (hi.doubled.length_pos hsize) hs
      refine ⟨hi.doubled.readInto hs, ?_⟩
      rw [receivedBytes, Trace.flatMap_since_snoc, hrec, hi.received]
      rfl
    | reset =>
      simp only [inputStream, Option.some.injEq, Prod.mk.injEq] at hs
      obtain ⟨rfl, rfl⟩ := hs
      refine ⟨hi.doubled, ?_⟩
      rw [receivedBytes, Trace.flatMap_since_snoc]
      rfl

/-- The buffer holds what was received since the last reset, and `read(2)` is
always given room for more. -/
theorem inputStream_receives (hsize : 1 ≤ size) (h : (inputStream size).Run b tr) :
    b.offset ≤ b.length ∧ b.length = size * 2 ^ b.resizeCount ∧
    b.buffer.take b.offset = receivedBytes tr ∧
    ∀ rs st b', inputBufferReadInto b rs = some (st, b') → ∀ n ∈ readCounts b rs, 0 < n := by
  have hi := inputStream_inv hsize h
  refine ⟨b.offset_le, hi.doubled, hi.received, ?_⟩
  intro rs st b' hr
  exact readCounts_pos (hi.doubled.length_pos hsize) hr

/-- A buffer of two bytes is filled by one read and doubled before the next. -/
theorem inputStream_receives_two : ∃ b tr, (inputStream 2).Run b tr ∧ b.resizeCount = 1 ∧
    b.length = 2 * 2 ^ b.resizeCount ∧ b.buffer.take b.offset = receivedBytes tr := by
  have hexec : ((inputStream 2).exec (inputBufferInit (fun _ => 0) 2)
      [.readInto [.data [9], .wouldBlock], .reset, .readInto [.data [1, 2], .data [3], .wouldBlock]]).any
        (fun (x : InputBuffer × List InputObs) => x.1.resizeCount = 1) = true := by
    decide +kernel
  obtain ⟨⟨b, tr⟩, hs, hcount⟩ := (Option.any_eq_true _ _).mp hexec
  have hrun : (inputStream 2).Run b tr := .of_exec ⟨_, rfl⟩ hs
  obtain ⟨-, hlen, hreceived, -⟩ := inputStream_receives (by decide) hrun
  exact ⟨b, tr, hrun, of_decide_eq_true hcount, hlen, hreceived⟩

end InputStream

end Jullop
