import Jullop.Machine
import Jullop.OutputBuffer

/-! The output buffer over whole runs of `output_buffer_append`,
`output_buffer_write_to` and `output_buffer_reset`: what its first bytes are, and
which of them `write(2)` has taken. -/

namespace Jullop

/-- What an append leaves of a text that finds so much room. A text that fills the
room loses its last byte to the NUL of `vsnprintf`. -/
def fitted (text : List UInt8) (room : Nat) : List UInt8 :=
  if text ≠ [] ∧ text.length = room then text.dropLast ++ [0] else text

theorem fitted_length (text : List UInt8) (room : Nat) :
    (fitted text room).length = text.length := by
  rw [fitted]
  split
  · rename_i h
    have hpos : 0 < text.length := List.length_pos_of_ne_nil h.1
    simp only [List.length_append, List.length_dropLast, List.length_singleton]
    omega
  · rfl

theorem fitted_of_ne {text : List UInt8} {room : Nat} (h : text.length ≠ room) :
    fitted text room = text :=
  if_neg fun hfit => h hfit.2

theorem fitted_eq_iff {text : List UInt8} {room : Nat} (h : 0 ∉ text) :
    fitted text room = text ↔ ¬ (text ≠ [] ∧ text.length = room) := by
  rw [fitted]
  split
  · rename_i hfit
    refine iff_of_false ?_ (not_not_intro hfit)
    intro heq
    have hmem : (0 : UInt8) ∈ text.dropLast ++ [0] := by simp
    rw [heq] at hmem
    exact h hmem
  · rename_i hfit
    exact iff_of_true rfl hfit

theorem vsnprintf_take {dst text : List UInt8} (h : text.length ≤ dst.length) :
    (vsnprintf dst text).take text.length = fitted text dst.length := by
  by_cases hdst : dst = []
  · subst hdst
    have htext : text = [] := List.eq_nil_of_length_eq_zero (Nat.le_zero.mp h)
    subst htext
    rfl
  · have hpos : 0 < dst.length := List.length_pos_of_ne_nil hdst
    rw [vsnprintf, if_neg hdst]
    by_cases hfit : text.length = dst.length
    · have hne : text ≠ [] := List.ne_nil_of_length_pos (by omega)
      have htake : text.take (dst.length - 1) = text.dropLast := by
        rw [List.dropLast_eq_take, hfit]
      have hlen : text.dropLast.length + 1 = text.length := by
        rw [List.length_dropLast]
        omega
      rw [fitted, if_pos ⟨hne, hfit⟩, htake, ← hlen, List.take_length_add_append, List.take_succ_cons,
        List.take_zero]
    · rw [fitted_of_ne hfit, List.take_of_length_le (i := dst.length - 1) (by omega),
        List.take_left]

namespace OutputBuffer

def room (b : OutputBuffer) : Nat := b.length - b.writeIntoOffset

theorem content_length (b : OutputBuffer) : b.content.length = b.writeIntoOffset := by
  have := b.into_le
  simp only [content, List.length_take]
  omega

theorem take_from (b : OutputBuffer) :
    b.buffer.take b.writeFromOffset = b.content.take b.writeFromOffset := by
  rw [content, List.take_take, Nat.min_eq_left b.from_le]

theorem print_content (b : OutputBuffer) (text : List UInt8) : (b.print text).content = b.content := by
  have hlen := b.content_length
  have hprint : (b.print text).content =
      (b.content ++ vsnprintf (b.buffer.drop b.writeIntoOffset) text).take b.writeIntoOffset := rfl
  rw [hprint, List.take_append_of_le_length (by omega), List.take_of_length_le (by omega)]

theorem resize_content (b : OutputBuffer) (minSize : Nat) :
    (b.resize minSize).content = b.content := by
  have hle := b.into_le
  simp only [content, resize]
  rw [List.take_append_of_le_length hle]

theorem resize_length_le (b : OutputBuffer) (minSize : Nat) :
    b.length ≤ (b.resize minSize).length := by
  simp only [length, resize, List.length_append]
  omega

end OutputBuffer

open OutputBuffer

theorem outputBufferAppend_content {b b' : OutputBuffer} {text : List UInt8}
    (h : outputBufferAppend b text = some b') :
    b'.content = b.content ++ fitted text b.room := by
  fun_induction outputBufferAppend b text with
  | case1 b hlong => cases h
  | case2 b hlong hroom ih =>
    have hgrow := (b.print text).resize_length (b.writeIntoOffset + text.length + 1)
    have hinto : ((b.print text).resize (b.writeIntoOffset + text.length + 1)).writeIntoOffset =
        b.writeIntoOffset := rfl
    have hroom' : text.length ≠
        ((b.print text).resize (b.writeIntoOffset + text.length + 1)).room := by
      rw [OutputBuffer.room, hinto]
      omega
    have hne : text.length ≠ b.room := by
      rw [OutputBuffer.room]
      omega
    rw [ih h, resize_content, print_content, fitted_of_ne hroom', fitted_of_ne hne]
  | case3 b hlong hroom =>
    cases h
    have hle := b.into_le
    have hdrop : (b.buffer.drop b.writeIntoOffset).length = b.room := by
      rw [List.length_drop]
      rfl
    have hfits : text.length ≤ (b.buffer.drop b.writeIntoOffset).length := by
      rw [hdrop, OutputBuffer.room]
      omega
    change (b.content ++ vsnprintf (b.buffer.drop b.writeIntoOffset) text).take
      (b.writeIntoOffset + text.length) = _
    have hlen : b.writeIntoOffset + text.length = b.content.length + text.length := by
      rw [b.content_length]
    rw [hlen, List.take_length_add_append, vsnprintf_take hfits, hdrop]

theorem outputBufferAppend_length {b b' : OutputBuffer} {text : List UInt8}
    (h : outputBufferAppend b text = some b') : b.length ≤ b'.length := by
  fun_induction outputBufferAppend b text with
  | case1 b hlong => cases h
  | case2 b hlong hroom ih =>
    have hprint := b.print_length text
    have hgrow := (b.print text).resize_length_le (b.writeIntoOffset + text.length + 1)
    have hrest := ih h
    omega
  | case3 b hlong hroom =>
    cases h
    exact Nat.le_of_eq (b.print_length text).symm

theorem outputBufferAppend_fits {b b' : OutputBuffer} {text : List UInt8}
    (h : outputBufferAppend b text = some b') (hroom : text.length ≤ b.room) :
    b'.length = b.length := by
  rw [OutputBuffer.room] at hroom
  rw [outputBufferAppend] at h
  split at h
  · cases h
  · rw [dif_neg (by omega)] at h
    cases h
    exact b.print_length text

theorem outputBufferAppend_into {b b' : OutputBuffer} {text : List UInt8}
    (h : outputBufferAppend b text = some b') :
    b'.writeIntoOffset = b.writeIntoOffset + text.length := by
  have hcontent := congrArg List.length (outputBufferAppend_content h)
  rwa [List.length_append, fitted_length, content_length, content_length] at hcontent

theorem outputBufferWriteTo_keeps {b b' : OutputBuffer} {ws : List WriteResult}
    {st : WriteState} {bytes : List UInt8} (h : outputBufferWriteTo b ws = some (st, bytes, b')) :
    b'.buffer = b.buffer ∧ b'.writeIntoOffset = b.writeIntoOffset ∧
      (st = .writeFinish ↔ b'.writeFromOffset = b'.writeIntoOffset) := by
  fun_induction outputBufferWriteTo b ws generalizing st bytes with
  | case1 => cases h
  | case2 b hle =>
    have hfrom := b.from_le
    cases h
    exact ⟨rfl, rfl, iff_of_true rfl (by omega)⟩
  | case3 b n ws hn ih =>
    simp only [Option.map_eq_some_iff, Prod.exists, Prod.mk.injEq] at h
    obtain ⟨st, bytes, b'', h, rfl, rfl, rfl⟩ := h
    exact ih h
  | case4 => cases h
  | case5 b hlt | case7 b hlt | case9 b hlt =>
    cases h
    exact ⟨rfl, rfl, iff_of_false (by simp) (by omega)⟩
  | case6 => cases h
  | case8 => cases h
  | case10 => cases h
  | case11 => cases h

inductive OutputOp
  | append (text : List UInt8)
  | write (ws : List WriteResult)
  | reset

/-- One finished call; an append is seen with the room that it found. -/
inductive OutputObs
  | appended (text : List UInt8) (room : Nat)
  | wrote (state : WriteState) (bytes : List UInt8)
  | reset
  deriving DecidableEq

/-- One output buffer under any sequence of calls. -/
def outputStream (size : Nat) : Machine OutputBuffer OutputOp OutputObs where
  init b := ∃ heap, b = outputBufferInit heap size
  step b
    | .append text => (outputBufferAppend b text).map fun b' => (b', [.appended text b.room])
    | .write ws =>
      (outputBufferWriteTo b ws).map fun (st, bytes, b') => (b', [.wrote st bytes])
    | .reset => some (outputBufferReset b, [.reset])

namespace OutputObs

def isReset : OutputObs → Bool
  | reset => true
  | _ => false

def text : OutputObs → List UInt8
  | appended text _ => text
  | _ => []

def stored : OutputObs → List UInt8
  | appended text room => fitted text room
  | _ => []

def accepted : OutputObs → List UInt8
  | wrote _ bytes => bytes
  | _ => []

/-- An append of a text that is as long as the room it found. -/
def ExactFit : OutputObs → Prop
  | appended text room => text ≠ [] ∧ text.length = room
  | _ => False

instance (o : OutputObs) : Decidable o.ExactFit :=
  match o with
  | appended text room => inferInstanceAs (Decidable (text ≠ [] ∧ text.length = room))
  | wrote _ _ => inferInstanceAs (Decidable False)
  | reset => inferInstanceAs (Decidable False)

theorem stored_length (o : OutputObs) : o.stored.length = o.text.length := by
  cases o with
  | appended text room => exact fitted_length text room
  | _ => rfl

theorem stored_eq_iff {o : OutputObs} (h : 0 ∉ o.text) : o.stored = o.text ↔ ¬ o.ExactFit := by
  cases o with
  | appended text room => exact fitted_eq_iff h
  | _ => exact iff_of_true rfl (fun hfit => hfit)

end OutputObs

namespace OutputStream

open OutputObs

/-- The texts appended since the last reset, one after the other. -/
def appendedBytes (tr : List OutputObs) : List UInt8 := (Trace.since isReset tr).flatMap OutputObs.text

def storedBytes (tr : List OutputObs) : List UInt8 := (Trace.since isReset tr).flatMap OutputObs.stored

/-- The bytes that `write(2)` has accepted since the last reset. -/
def acceptedBytes (tr : List OutputObs) : List UInt8 :=
  (Trace.since isReset tr).flatMap OutputObs.accepted

structure Inv (size : Nat) (b : OutputBuffer) (tr : List OutputObs) : Prop where
  size_le : size ≤ b.length
  content : b.content = storedBytes tr
  sent : b.buffer.take b.writeFromOffset = acceptedBytes tr

theorem Inv.start (heap : Nat → UInt8) (size : Nat) : Inv size (outputBufferInit heap size) [] := by
  refine ⟨?_, rfl, rfl⟩
  simp only [OutputBuffer.length, outputBufferInit, InputBuffer.garbage, List.length_map,
    List.length_range']
  exact Nat.le_refl _

variable {size : Nat} {b b' : OutputBuffer} {tr : List OutputObs}

theorem Inv.append {text : List UInt8} (h : Inv size b tr)
    (hs : outputBufferAppend b text = some b') : Inv size b' (tr ++ [.appended text b.room]) := by
  have hcontent := outputBufferAppend_content hs
  have hfrom := outputBufferAppend_from hs
  have hle := b.content_length
  have hfrom_le := b.from_le
  refine ⟨Nat.le_trans h.size_le (outputBufferAppend_length hs), ?_, ?_⟩
  · rw [storedBytes, Trace.flatMap_since_snoc, hcontent, h.content]
    rfl
  · rw [acceptedBytes, Trace.flatMap_since_snoc, b'.take_from, hcontent, hfrom,
      List.take_append_of_le_length (by omega), ← b.take_from, h.sent]
    exact (List.append_nil _).symm

theorem Inv.write {ws : List WriteResult} {st : WriteState} {bytes : List UInt8}
    (h : Inv size b tr) (hs : outputBufferWriteTo b ws = some (st, bytes, b')) :
    Inv size b' (tr ++ [.wrote st bytes]) := by
  obtain ⟨hbuffer, hinto, -⟩ := outputBufferWriteTo_keeps hs
  obtain ⟨hcontent, hbytes, -⟩ := outputBufferWriteTo_content hs
  refine ⟨?_, ?_, ?_⟩
  · rw [OutputBuffer.length, hbuffer]
    exact h.size_le
  · rw [storedBytes, Trace.flatMap_since_snoc, hcontent, h.content]
    exact (List.append_nil _).symm
  · rw [acceptedBytes, Trace.flatMap_since_snoc, b'.take_from, hcontent, hbytes, ← b.take_from,
      h.sent]
    rfl

theorem Inv.reset (h : Inv size b tr) : Inv size (outputBufferReset b) (tr ++ [.reset]) := by
  refine ⟨h.size_le, ?_, ?_⟩
  · rw [storedBytes, Trace.flatMap_since_snoc]
    rfl
  · rw [acceptedBytes, Trace.flatMap_since_snoc]
    rfl

theorem outputStream_inv (h : (outputStream size).Run b tr) : Inv size b tr := by
  refine Machine.Run.invariant (Inv size) ?_ ?_ h
  · rintro b ⟨heap, rfl⟩
    exact Inv.start heap size
  · intro b tr op b' obs hi hs
    cases op with
    | append text =>
      simp only [outputStream, Option.map_eq_some_iff, Prod.mk.injEq] at hs
      obtain ⟨b', hs, rfl, rfl⟩ := hs
      exact hi.append hs
    | write ws =>
      simp only [outputStream, Option.map_eq_some_iff, Prod.mk.injEq, Prod.exists] at hs
      obtain ⟨st, bytes, b', hs, rfl, rfl⟩ := hs
      exact hi.write hs
    | reset =>
      simp only [outputStream, Option.some.injEq, Prod.mk.injEq] at hs
      obtain ⟨rfl, rfl⟩ := hs
      exact hi.reset

/-- Pieces of the same lengths, put together, agree only where each of them does. -/
theorem flatMap_eq_iff {α β : Type*} {f g : α → List β} {l : List α}
    (h : ∀ x ∈ l, (f x).length = (g x).length) : l.flatMap f = l.flatMap g ↔ ∀ x ∈ l, f x = g x := by
  induction l with
  | nil => simp
  | cons x l ih =>
    have hx := h x (by simp)
    have hl := ih fun y hy => h y (by simp [hy])
    rw [List.flatMap_cons, List.flatMap_cons, List.forall_mem_cons, ← hl]
    constructor
    · exact fun heq => List.append_inj heq hx
    · rintro ⟨hhead, htail⟩
      rw [hhead, htail]

/-- The bytes of the buffer are the texts appended since the last reset exactly
when none of them filled the room that it found. -/
theorem append_concatenates_iff (h : (outputStream size).Run b tr) (hnul : 0 ∉ appendedBytes tr) :
    (b.writeIntoOffset = (appendedBytes tr).length ∧
      b.buffer.take b.writeIntoOffset = appendedBytes tr) ↔
      ∀ o ∈ Trace.since isReset tr, ¬ o.ExactFit := by
  have hi := outputStream_inv h
  have htext : ∀ o ∈ Trace.since isReset tr, 0 ∉ o.text := by
    intro o ho hmem
    exact hnul (List.mem_flatMap.mpr ⟨o, ho, hmem⟩)
  have hpieces : storedBytes tr = appendedBytes tr ↔ ∀ o ∈ Trace.since isReset tr, ¬ o.ExactFit := by
    rw [storedBytes, appendedBytes, flatMap_eq_iff fun o _ => o.stored_length]
    exact forall₂_congr fun o ho => stored_eq_iff (htext o ho)
  have hlen : b.writeIntoOffset = (appendedBytes tr).length := by
    rw [← b.content_length, hi.content, storedBytes, appendedBytes, List.length_flatMap, List.length_flatMap]
    simp only [stored_length]
  rw [← hpieces, ← hi.content]
  exact and_iff_right hlen

/-- Two texts in a buffer of eight bytes, with a write in between. -/
theorem append_concatenates_iff_short : ∃ b tr, (outputStream 8).Run b tr ∧
    appendedBytes tr = [1, 2, 3, 4, 5] ∧ b.buffer.take b.writeIntoOffset = appendedBytes tr := by
  have hexec : ((outputStream 8).exec (outputBufferInit (fun _ => 0) 8)
      [.append [7, 7, 7, 7, 7, 7, 7], .reset, .append [1, 2, 3], .write [.accepted 1, .wouldBlock],
        .append [4, 5]]).any (fun (x : OutputBuffer × List OutputObs) => appendedBytes x.2 = [1, 2, 3, 4, 5] ∧
          0 ∉ appendedBytes x.2 ∧ ∀ o ∈ Trace.since isReset x.2, ¬ o.ExactFit) = true := by
    decide +kernel
  obtain ⟨⟨b, tr⟩, hs, htr⟩ := (Option.any_eq_true _ _).mp hexec
  obtain ⟨htexts, hnul, hfit⟩ := of_decide_eq_true htr
  have hrun : (outputStream 8).Run b tr := .of_exec ⟨_, rfl⟩ hs
  exact ⟨b, tr, hrun, htexts, ((append_concatenates_iff hrun hnul).mpr hfit).2⟩

/-- A text of four bytes in a buffer of four loses its last byte. -/
theorem append_loses_last_byte : ¬ ∀ size b tr, (outputStream size).Run b tr →
    0 ∉ appendedBytes tr → b.writeIntoOffset = (appendedBytes tr).length ∧
      b.buffer.take b.writeIntoOffset = appendedBytes tr := by
  intro hall
  have hexec : ((outputStream 4).exec (outputBufferInit (fun _ => 0) 4)
      [.append [1, 2, 3, 4]]).any (fun (x : OutputBuffer × List OutputObs) => appendedBytes x.2 = [1, 2, 3, 4] ∧
        x.1.buffer = [1, 2, 3, 0]) = true := by
    decide +kernel
  obtain ⟨⟨b, tr⟩, hs, htr⟩ := (Option.any_eq_true _ _).mp hexec
  obtain ⟨htexts, hbuffer⟩ := of_decide_eq_true htr
  have hrun : (outputStream 4).Run b tr := .of_exec ⟨_, rfl⟩ hs
  obtain ⟨hinto, hbytes⟩ := hall 4 b tr hrun (by rw [htexts]; decide)
  rw [htexts] at hinto hbytes
  rw [hinto, hbuffer] at hbytes
  exact absurd hbytes (by decide)

/-- Every byte is written once and in its turn, whatever is appended in between. -/
theorem outputStream_delivers (h : (outputStream size).Run b tr) :
    b.writeFromOffset ≤ b.writeIntoOffset ∧ b.writeIntoOffset ≤ b.length ∧
    acceptedBytes tr = b.buffer.take b.writeFromOffset ∧
    (∀ text b', outputBufferAppend b text = some b' →
      b'.writeFromOffset = b.writeFromOffset ∧
        b'.buffer.take b.writeFromOffset = b.buffer.take b.writeFromOffset) ∧
    ∀ ws st bytes b', outputBufferWriteTo b ws = some (st, bytes, b') →
      b'.buffer = b.buffer ∧ b'.writeIntoOffset = b.writeIntoOffset ∧
        b.buffer.take b'.writeFromOffset = b.buffer.take b.writeFromOffset ++ bytes ∧
        (st = .writeFinish ↔ b'.writeFromOffset = b'.writeIntoOffset) ∧
        (st = .writeBusy ∨ st = .writeError → b'.writeFromOffset < b'.writeIntoOffset) := by
  refine ⟨b.from_le, b.into_le, (outputStream_inv h).sent.symm, ?_, ?_⟩
  · intro text b' hs
    have hfrom := outputBufferAppend_from hs
    have hlen := b.content_length
    have hle := b.from_le
    refine ⟨hfrom, ?_⟩
    rw [← hfrom, b'.take_from, hfrom, b.take_from, outputBufferAppend_content hs,
      List.take_append_of_le_length (by omega)]
  · intro ws st bytes b' hs
    obtain ⟨hbuffer, hinto, hfinish⟩ := outputBufferWriteTo_keeps hs
    obtain ⟨hcontent, hbytes, -⟩ := outputBufferWriteTo_content hs
    have hle := b'.from_le
    refine ⟨hbuffer, hinto, ?_, hfinish, ?_⟩
    · rw [b.take_from, ← hbytes, ← hcontent, ← b'.take_from, hbuffer]
    · intro hst
      have hne : st ≠ .writeFinish := by rcases hst with rfl | rfl <;> nofun
      rw [ne_eq, hfinish] at hne
      omega

/-- A short write, an append that makes the buffer grow, and the rest. -/
theorem outputStream_delivers_grown : ∃ b tr, (outputStream 4).Run b tr ∧
    acceptedBytes tr = [1, 2, 3, 4, 5, 6, 7] ∧
    acceptedBytes tr = b.buffer.take b.writeFromOffset := by
  have hexec : ((outputStream 4).exec (outputBufferInit (fun _ => 0) 4)
      [.append [1, 2, 3], .write [.accepted 2, .wouldBlock], .append [4, 5, 6, 7],
        .write [.accepted 1, .accepted 4]]).any (fun (x : OutputBuffer × List OutputObs) =>
          acceptedBytes x.2 = [1, 2, 3, 4, 5, 6, 7]) = true := by
    decide +kernel
  obtain ⟨⟨b, tr⟩, hs, htr⟩ := (Option.any_eq_true _ _).mp hexec
  have hrun : (outputStream 4).Run b tr := .of_exec ⟨_, rfl⟩ hs
  exact ⟨b, tr, hrun, of_decide_eq_true htr, (outputStream_delivers hrun).2.2.1⟩

end OutputStream

end Jullop
