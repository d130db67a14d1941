import Jullop.InputBuffer

/-! The buffer that a response is formatted into and written from,
`output_buffer.c`. -/

namespace Jullop

inductive WriteState
  | writeFinish
  | writeBusy
  | writeError
  deriving DecidableEq, Repr

/-- What one `write(2)` on a non-blocking socket returns. -/
inductive WriteResult
  | accepted (count : Nat)
  | zero
  | wouldBlock
  | failed
  deriving DecidableEq, Repr

structure OutputBuffer where
  heap : Nat → UInt8
  buffer : List UInt8
  writeFromOffset : Nat
  writeIntoOffset : Nat
  resizeCount : Nat
  from_le : writeFromOffset ≤ writeIntoOffset
  into_le : writeIntoOffset ≤ buffer.length

theorem OutputBuffer.init_into_le (heap : Nat → UInt8) (size : Nat) :
    0 ≤ (InputBuffer.garbage heap 0 size).length :=
  Nat.zero_le _

def outputBufferInit (heap : Nat → UInt8) (size : Nat) : OutputBuffer where
  heap := heap
  buffer := InputBuffer.garbage heap 0 size
  writeFromOffset := 0
  writeIntoOffset := 0
  resizeCount := 0
  from_le := Nat.le_refl 0
  into_le := OutputBuffer.init_into_le heap size

def outputBufferReset (b : OutputBuffer) : OutputBuffer :=
  { b with
    writeFromOffset := 0
    writeIntoOffset := 0
    from_le := Nat.le_refl 0
    into_le := Nat.zero_le _ }

/-- `vsnprintf` into the bytes of `dst`, for a format that expands to `text`: it
stores what fits before a final NUL. -/
def vsnprintf (dst text : List UInt8) : List UInt8 :=
  if dst = [] then []
  else
    text.take (dst.length - 1) ++ 0 :: dst.drop ((text.take (dst.length - 1)).length + 1)

theorem vsnprintf_length (dst text : List UInt8) : (vsnprintf dst text).length = dst.length := by
  rw [vsnprintf]
  split
  · simp_all
  · have hpos : 0 < dst.length := List.length_pos_of_ne_nil ‹_›
    simp only [List.length_append, List.length_cons, List.length_drop, List.length_take]
    omega

namespace OutputBuffer

def length (b : OutputBuffer) : Nat := b.buffer.length

def content (b : OutputBuffer) : List UInt8 := b.buffer.take b.writeIntoOffset

def resize (b : OutputBuffer) (minSize : Nat) : OutputBuffer :=
  let newSize := if minSize < 2 * b.length then 2 * b.length else minSize
  { b with
    buffer := b.buffer ++ InputBuffer.garbage b.heap b.length (newSize - b.length)
    resizeCount := b.resizeCount + 1
    into_le := by
      have := b.into_le
      simp only [List.length_append]
      omega }

def print (b : OutputBuffer) (text : List UInt8) : OutputBuffer :=
  { b with
    buffer := b.buffer.take b.writeIntoOffset ++ vsnprintf (b.buffer.drop b.writeIntoOffset) text
    into_le := by
      have := b.into_le
      simp only [List.length_append, vsnprintf_length, List.length_take, List.length_drop]
      omega }

theorem print_length (b : OutputBuffer) (text : List UInt8) :
    (b.print text).length = b.length := by
  have := b.into_le
  simp only [length, print, List.length_append, vsnprintf_length, List.length_take,
    List.length_drop]
  omega

theorem resize_length (b : OutputBuffer) (minSize : Nat) :
    minSize ≤ (b.resize minSize).length := by
  by_cases h : minSize < 2 * b.buffer.length
  · simp only [length, resize, InputBuffer.garbage, List.length_append, List.length_map,
      List.length_range', h, if_true]
    omega
  · simp only [length, resize, InputBuffer.garbage, List.length_append, List.length_map,
      List.length_range', h, if_false]
    omega

end OutputBuffer

/-- `output_buffer_append` of a format that expands to `text`. `vsnprintf`
fails, and the process exits, when the text is longer than an `int` can say. -/
def outputBufferAppend (b : OutputBuffer) (text : List UInt8) : Option OutputBuffer :=
  if 2 ^ 31 ≤ text.length then none
  else
    if h : b.length - b.writeIntoOffset < text.length then
      outputBufferAppend ((b.print text).resize (b.writeIntoOffset + text.length + 1)) text
    else
      some { b.print text with
        writeIntoOffset := b.writeIntoOffset + text.length
        from_le := Nat.le_trans b.from_le (Nat.le_add_right _ _)
        into_le := by
          have hle := b.into_le
          have hlen := b.print_length text
          simp only [OutputBuffer.length] at hlen h
          omega }
termination_by b.writeIntoOffset + text.length + 1 - b.length
decreasing_by
  have hle := b.into_le
  have hgrow := (b.print text).resize_length (b.writeIntoOffset + text.length + 1)
  have hinto : ((b.print text).resize (b.writeIntoOffset + text.length + 1)).writeIntoOffset =
      b.writeIntoOffset := rfl
  rw [hinto]
  simp only [OutputBuffer.length] at *
  omega

theorem outputBufferAppend_exists (b : OutputBuffer) (text : List UInt8)
    (h : text.length < 2 ^ 31) :
    ∃ b', outputBufferAppend b text = some b' := by
  fun_induction outputBufferAppend b text with
  | case1 b hlong => omega
  | case2 b _ _ ih => exact ih
  | case3 b => exact ⟨_, rfl⟩

theorem outputBufferAppend_from {b b' : OutputBuffer} {text : List UInt8}
    (h : outputBufferAppend b text = some b') : b'.writeFromOffset = b.writeFromOffset := by
  fun_induction outputBufferAppend b text with
  | case1 b hlong => cases h
  | case2 b _ _ ih => exact ih h
  | case3 b =>
    cases h
    rfl

/-- The results of `write(2)`, in order, up to the end of the loop, with the
bytes they accept. `none` when the list is not such a sequence of results. -/
def outputBufferWriteTo (b : OutputBuffer) :
    List WriteResult → Option (WriteState × List UInt8 × OutputBuffer)
  | [] => if b.writeFromOffset < b.writeIntoOffset then none else some (.writeFinish, [], b)
  | .accepted n :: ws =>
    if h : 0 < n ∧ b.writeFromOffset + n ≤ b.writeIntoOffset then
      (outputBufferWriteTo { b with writeFromOffset := b.writeFromOffset + n, from_le := h.2 } ws).map
        fun (st, bytes, b') => (st, (b.buffer.drop b.writeFromOffset).take n ++ bytes, b')
    else none
  | [.wouldBlock] =>
    if b.writeFromOffset < b.writeIntoOffset then some (.writeBusy, [], b) else none
  | [.zero] => if b.writeFromOffset < b.writeIntoOffset then some (.writeError, [], b) else none
  | [.failed] => if b.writeFromOffset < b.writeIntoOffset then some (.writeError, [], b) else none
  | _ :: _ :: _ => none

/-- The bytes that were accepted are the next ones of the content, and the loop
finishes only behind the last of them. -/
theorem outputBufferWriteTo_content {b b' : OutputBuffer} {ws : List WriteResult}
    {st : WriteState} {bytes : List UInt8} (h : outputBufferWriteTo b ws = some (st, bytes, b')) :
    b'.content = b.content ∧
      b.content.take b'.writeFromOffset = b.content.take b.writeFromOffset ++ bytes ∧
      (st = .writeFinish → b.content.take b'.writeFromOffset = b.content) := by
  fun_induction outputBufferWriteTo b ws generalizing st bytes with
  | case1 => cases h
  | case2 b hle =>
    have hlen : b.content.length ≤ b.writeFromOffset := by
      simp only [OutputBuffer.content, List.length_take]
      omega
    cases h
    simp [List.take_of_length_le hlen]
  | case3 b n ws hn ih =>
    simp only [Option.map_eq_some_iff, Prod.exists, Prod.mk.injEq] at h
    obtain ⟨st, bytes, b'', h, rfl, rfl, rfl⟩ := h
    obtain ⟨hcontent, hbytes, hfinish⟩ := ih h
    have hslice : (b.buffer.drop b.writeFromOffset).take n =
        (b.content.drop b.writeFromOffset).take n := by
      rw [OutputBuffer.content, List.drop_take, List.take_take, Nat.min_eq_left (by omega)]
    refine ⟨hcontent, ?_, hfinish⟩
    change b.content.take _ = b.content.take (b.writeFromOffset + n) ++ bytes at hbytes
    rw [hbytes, hslice, List.take_add, List.append_assoc]
  | case4 => cases h
  | case5 b => cases h; simp
  | case6 => cases h
  | case7 b => cases h; simp
  | case8 => cases h
  | case9 b => cases h; simp
  | case10 => cases h
  | case11 => cases h

end Jullop
