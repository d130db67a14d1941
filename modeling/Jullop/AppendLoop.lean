import Jullop.OutputStream

/-! The turns of the `while (1)` of `output_buffer_append`, with the arithmetic of
`size_t` that its `resize` is computed in. -/

namespace Jullop

namespace OutputBuffer

/-- The size that `resize` asks `realloc` for. -/
def resizeSize (length minSize : Nat) : Nat :=
  if minSize < (length <<< 1) % 2 ^ 64 then (length <<< 1) % 2 ^ 64 else minSize

def realloc (b : OutputBuffer) (size : Nat) (h : b.writeIntoOffset ≤ size) : OutputBuffer :=
  { b with
    buffer := b.buffer.take size ++ InputBuffer.garbage b.heap b.length (size - b.length)
    resizeCount := b.resizeCount + 1
    into_le := by
      have := b.into_le
      simp only [List.length_append, List.length_take]
      omega }

/-- What one turn comes to: `vsnprintf` fails and the process exits, the buffer is
resized, or it is resized to less than it holds, or the text is appended. -/
inductive AppendTurn
  | failed
  | resized (b : OutputBuffer)
  | truncated
  | appended (b : OutputBuffer)

theorem appended_from_le (b : OutputBuffer) (text : List UInt8) :
    (b.print text).writeFromOffset ≤ b.writeIntoOffset + text.length :=
  Nat.le_trans b.from_le (Nat.le_add_right _ _)

theorem appended_into_le (b : OutputBuffer) (text : List UInt8)
    (h : ¬ b.length - b.writeIntoOffset < text.length) :
    b.writeIntoOffset + text.length ≤ (b.print text).buffer.length := by
  have hle := b.into_le
  have hlen := b.print_length text
  simp only [OutputBuffer.length] at hlen h
  omega

def appendTurn (b : OutputBuffer) (text : List UInt8) : AppendTurn :=
  if 2 ^ 31 ≤ text.length then .failed
  else
    if h : b.length - b.writeIntoOffset < text.length then
      let size := resizeSize b.length ((b.writeIntoOffset + text.length + 1) % 2 ^ 64)
      if hsize : b.writeIntoOffset ≤ size then .resized ((b.print text).realloc size hsize)
      else .truncated
    else
      .appended { b.print text with
        writeIntoOffset := b.writeIntoOffset + text.length
        from_le := appended_from_le b text
        into_le := appended_into_le b text h }

/-- The turns of the loop, in order, as far as the fuel goes. -/
def appendLoop : (fuel : Nat) → OutputBuffer → List UInt8 → List AppendTurn
  | 0, _, _ => []
  | fuel + 1, b, text =>
    match appendTurn b text with
    | .resized b' => .resized b' :: appendLoop fuel b' text
    | turn => [turn]

variable {b : OutputBuffer} {text : List UInt8}

theorem resizeSize_eq {length minSize : Nat} (h : 2 * length < 2 ^ 64) :
    resizeSize length minSize = if minSize < 2 * length then 2 * length else minSize := by
  rw [resizeSize, Nat.shiftLeft_eq, Nat.pow_one, Nat.mul_comm, Nat.mod_eq_of_lt h]

theorem realloc_eq_resize {minSize : Nat} (hlen : 2 * b.length < 2 ^ 64) (hmin : b.length ≤ minSize)
    (h : b.writeIntoOffset ≤ resizeSize b.length minSize) :
    b.realloc (resizeSize b.length minSize) h = b.resize minSize := by
  have hle : b.buffer.length ≤ resizeSize b.length minSize := by
    rw [resizeSize_eq hlen]
    split
    · simp only [length] at *
      omega
    · exact hmin
  rw [resizeSize_eq hlen] at hle
  simp only [realloc, resize, resizeSize_eq hlen, List.take_of_length_le hle]

/-- A text that does not fit: the buffer is resized as `outputBufferAppend` says. -/
theorem appendTurn_resized (hint : text.length < 2 ^ 31)
    (hroom : b.length - b.writeIntoOffset < text.length)
    (hfit : b.writeIntoOffset + text.length + 1 < 2 ^ 64) (hlen : 2 * b.length < 2 ^ 64) :
    appendTurn b text =
      .resized ((b.print text).resize (b.writeIntoOffset + text.length + 1)) := by
  have hle := b.into_le
  have hprint := b.print_length text
  have hmin : b.length ≤ b.writeIntoOffset + text.length + 1 := by omega
  have hsize : b.writeIntoOffset ≤ resizeSize b.length (b.writeIntoOffset + text.length + 1) := by
    rw [resizeSize_eq hlen]
    split <;> omega
  rw [← hprint] at hlen hmin
  have hsame := realloc_eq_resize hlen hmin (hprint ▸ hsize)
  simp only [appendTurn, Nat.not_le.mpr hint, if_false, hroom, dif_pos, Nat.mod_eq_of_lt hfit,
    hsize, ← hsame, hprint]

theorem appendTurn_appended (hint : text.length < 2 ^ 31)
    (hroom : text.length ≤ b.length - b.writeIntoOffset) :
    ∃ b', appendTurn b text = .appended b' ∧ outputBufferAppend b text = some b' := by
  rw [outputBufferAppend]
  simp only [appendTurn, Nat.not_le.mpr hint, if_false, Nat.not_lt.mpr hroom, dif_neg,
    not_false_eq_true]
  exact ⟨_, rfl, rfl⟩

/-- The loop ends at its first turn, or at the second behind one resize, and does
what `outputBufferAppend` says. -/
theorem appendLoop_ends (hfit : b.writeIntoOffset + text.length + 1 < 2 ^ 64)
    (hlen : 2 * b.length < 2 ^ 64) (fuel : Nat) :
    (appendLoop (fuel + 2) b text = [.failed] ∧ outputBufferAppend b text = none) ∨
    (∃ b', appendLoop (fuel + 2) b text = [.appended b'] ∧ outputBufferAppend b text = some b') ∨
    ∃ b' b'', appendLoop (fuel + 2) b text = [.resized b', .appended b''] ∧
      outputBufferAppend b text = some b'' ∧ b'.resizeCount = b.resizeCount + 1 ∧
      b.length ≤ b'.length ∧ b'.writeIntoOffset = b.writeIntoOffset ∧ b'.content = b.content ∧
      b.writeIntoOffset + text.length < b'.length := by
  by_cases hint : 2 ^ 31 ≤ text.length
  · refine .inl ⟨?_, ?_⟩
    · simp only [appendLoop, appendTurn, if_pos hint]
    · rw [outputBufferAppend, if_pos hint]
  · by_cases hroom : b.length - b.writeIntoOffset < text.length
    · have hturn := appendTurn_resized (by omega) hroom hfit hlen
      have hgrow := (b.print text).resize_length (b.writeIntoOffset + text.length + 1)
      have hkeep := (b.print text).resize_length_le (b.writeIntoOffset + text.length + 1)
      have hcontent := (b.print text).resize_content (b.writeIntoOffset + text.length + 1)
      rw [print_content] at hcontent
      rw [print_length] at hkeep
      have hinto : ((b.print text).resize (b.writeIntoOffset + text.length + 1)).writeIntoOffset =
        b.writeIntoOffset := rfl
      have hnext : text.length ≤ ((b.print text).resize (b.writeIntoOffset + text.length + 1)).length -
          ((b.print text).resize (b.writeIntoOffset + text.length + 1)).writeIntoOffset := by
        omega
      obtain ⟨b'', hturn', happend⟩ := appendTurn_appended (by omega) hnext
      refine .inr (.inr ⟨_, b'', ?_, ?_, rfl, hkeep, hinto, hcontent, by omega⟩)
      · simp [appendLoop, hturn, hturn']
      · rw [outputBufferAppend, if_neg hint, dif_pos hroom, happend]
    · obtain ⟨b', hturn, happend⟩ := appendTurn_appended (by omega) (Nat.not_lt.mp hroom)
      refine .inr (.inl ⟨b', ?_, happend⟩)
      simp [appendLoop, hturn]

/-- Five bytes into a new buffer of four. -/
theorem appendLoop_ends_grown : ∃ b' b'',
    appendLoop 2 (outputBufferInit (fun _ => 0) 4) [1, 2, 3, 4, 5] = [.resized b', .appended b''] ∧
      0 + 5 < b'.length := by
  have hturn : ∃ b', appendTurn (outputBufferInit (fun _ => 0) 4) [1, 2, 3, 4, 5] = .resized b' :=
    ⟨_, rfl⟩
  obtain ⟨b', hturn⟩ := hturn
  have hloop : appendLoop 2 (outputBufferInit (fun _ => 0) 4) [1, 2, 3, 4, 5] =
      .resized b' :: appendLoop 1 b' [1, 2, 3, 4, 5] := by
    rw [appendLoop, hturn]
  have hends := @appendLoop_ends (outputBufferInit (fun _ => 0) 4) [1, 2, 3, 4, 5] (by decide)
    (by decide) 0
  rcases hends with ⟨hfailed, -⟩ | ⟨b'', happended, -⟩ | ⟨c, c', hgrown, -, -, -, -, -, hlt⟩
  · rw [hloop] at hfailed
    cases hfailed
  · rw [hloop] at happended
    cases happended
  · exact ⟨c, c', hgrown, hlt⟩

end OutputBuffer

end Jullop
