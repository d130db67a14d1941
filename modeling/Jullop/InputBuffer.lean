import Mathlib.Algebra.Group.Nat.Defs
import Mathlib.Data.List.Basic
import Mathlib.Data.Nat.Size

/-! The growing buffer that a request is read into, `input_buffer.c`. -/

namespace Jullop

inductive ReadState
  | readFinish
  | readBusy
  | readError
  | clientDisconnect
  deriving DecidableEq, Repr

/-- What one `read(2)` on a non-blocking socket returns. -/
inductive ReadResult
  | data (bytes : List UInt8)
  | endOfStream
  | wouldBlock
  | failed
  deriving DecidableEq, Repr

/-- `buffer` holds all `length` bytes of the allocation. What `malloc` and
`realloc` leave in a byte that was never written is `heap` at its index. -/
structure InputBuffer where
  heap : Nat → UInt8
  buffer : List UInt8
  offset : Nat
  resizeCount : Nat
  offset_le : offset ≤ buffer.length

namespace InputBuffer

def length (b : InputBuffer) : Nat := b.buffer.length

def garbage (heap : Nat → UInt8) (start n : Nat) : List UInt8 := (List.range' start n).map heap

/-- The bytes received since the last reset. -/
def received (b : InputBuffer) : List UInt8 := b.buffer.take b.offset

def stale (b : InputBuffer) : List UInt8 := b.buffer.drop b.offset

end InputBuffer

open InputBuffer

def inputBufferInit (heap : Nat → UInt8) (size : Nat) : InputBuffer where
  heap := heap
  buffer := garbage heap 0 size
  offset := 0
  resizeCount := 0
  offset_le := Nat.zero_le _

def inputBufferReset (b : InputBuffer) : InputBuffer :=
  { b with offset := 0, offset_le := Nat.zero_le _ }

namespace InputBuffer

def resize (b : InputBuffer) : InputBuffer :=
  if b.offset = b.length then
    { b with
      buffer := b.buffer ++ garbage b.heap b.length b.length
      resizeCount := b.resizeCount + 1
      offset_le := by
        have := b.offset_le
        simp only [List.length_append]
        omega }
  else b

/-- The bytes that `read(2)` stores at the offset. -/
def store (b : InputBuffer) (bytes : List UInt8) : InputBuffer :=
  { b with
    buffer := b.received ++ bytes ++ b.buffer.drop (b.offset + bytes.length)
    offset := b.offset + bytes.length
    offset_le := by
      have := b.offset_le
      simp only [received, List.length_append, List.length_take]
      omega }

end InputBuffer

/-- The results of `read(2)`, in order, up to the one that ends the loop. `none`
when the list is not such a sequence of results. -/
def inputBufferReadInto (b : InputBuffer) : List ReadResult → Option (ReadState × InputBuffer)
  | [] => none
  | .data bytes :: rs =>
    let b := b.resize
    if bytes ≠ [] ∧ b.offset + bytes.length ≤ b.length then
      inputBufferReadInto (b.store bytes) rs
    else none
  | [.wouldBlock] => some (.readBusy, b.resize)
  | [.endOfStream] => some (.readError, b.resize)
  | [.failed] => some (.readError, b.resize)
  | _ :: _ :: _ => none

def delivered : List ReadResult → List UInt8
  | [] => []
  | .data bytes :: rs => bytes ++ delivered rs
  | _ :: rs => delivered rs

namespace InputBuffer

theorem received_length (b : InputBuffer) : b.received.length = b.offset := by
  have := b.offset_le
  simp only [received, List.length_take]
  omega

theorem buffer_eq (b : InputBuffer) : b.buffer = b.received ++ b.stale :=
  (List.take_append_drop _ _).symm

theorem resize_received (b : InputBuffer) : b.resize.received = b.received := by
  have hle := b.offset_le
  rw [resize]
  split
  · simp only [received]
    rw [List.take_append_of_le_length hle]
  · rfl

theorem store_received (b : InputBuffer) (bytes : List UInt8) :
    (b.store bytes).received = b.received ++ bytes := by
  have hlen : (b.received ++ bytes).length = b.offset + bytes.length := by
    rw [List.length_append, received_length]
  simp only [received, store] at hlen ⊢
  rw [List.take_append_of_le_length (by omega), List.take_of_length_le (by omega)]

theorem resize_lt (b : InputBuffer) (h : 0 < b.length) : b.resize.offset < b.resize.length := by
  have hle := b.offset_le
  simp only [length] at h
  rw [resize]
  split
  · simp only [length, garbage, List.length_append, List.length_map, List.length_range'] at *
    omega
  · rename_i hne
    simp only [length] at hne ⊢
    omega

theorem resize_length (b : InputBuffer) : b.length ≤ b.resize.length := by
  rw [resize]
  split
  · simp only [length, List.length_append]
    omega
  · exact Nat.le_refl _

theorem store_length {b : InputBuffer} {bytes : List UInt8}
    (h : b.offset + bytes.length ≤ b.length) : (b.store bytes).length = b.length := by
  have hrec := b.received_length
  simp only [length, store, List.length_append, List.length_drop] at *
  omega

end InputBuffer

theorem inputBufferReadInto_eq_some {b b' : InputBuffer} {rs : List ReadResult} {st : ReadState}
    (hpos : 0 < b.length) (h : inputBufferReadInto b rs = some (st, b')) :
    (st = .readBusy ∨ st = .readError) ∧ b'.received = b.received ++ delivered rs ∧
      b'.offset < b'.length ∧ b.length ≤ b'.length := by
  induction rs generalizing b with
  | nil => simp [inputBufferReadInto] at h
  | cons r rs ih =>
    cases r with
    | data bytes =>
      simp only [inputBufferReadInto, Option.ite_none_right_eq_some] at h
      obtain ⟨⟨hne, hle⟩, h⟩ := h
      have hlen := b.resize_length
      have hstore := store_length hle
      obtain ⟨hst, hrec, hlt, hmono⟩ := ih (b := b.resize.store bytes) (by omega) h
      refine ⟨hst, ?_, hlt, by omega⟩
      rw [hrec, store_received, resize_received, delivered, List.append_assoc]
    | _ =>
      cases rs with
      | cons r' rs => simp [inputBufferReadInto] at h
      | nil =>
        simp only [inputBufferReadInto, Option.some.injEq, Prod.mk.injEq] at h
        obtain ⟨rfl, rfl⟩ := h
        exact ⟨by simp, by simp [delivered, resize_received], resize_lt b hpos, resize_length b⟩

namespace InputBuffer

/-- The length that a buffer of 1024 bytes has grown to once it holds `n` bytes
and has room for more. -/
def capacity (n : Nat) : Nat := 1024 * 2 ^ Nat.size (n / 1024)

theorem lt_capacity (n : Nat) : n < capacity n := by
  have h := Nat.lt_size_self (n / 1024)
  rw [capacity]
  omega

theorem capacity_eq {n k : Nat} (hlt : n < 1024 * 2 ^ k) (hle : k = 0 ∨ 1024 * 2 ^ (k - 1) ≤ n) :
    capacity n = 1024 * 2 ^ k := by
  have hsize : Nat.size (n / 1024) ≤ k := Nat.size_le.mpr (by omega)
  have hsize' : k ≤ Nat.size (n / 1024) := by
    rcases hle with rfl | hle
    · exact Nat.zero_le _
    · have h := Nat.lt_size (m := k - 1) (n := n / 1024)
      have hdiv : 2 ^ (k - 1) ≤ n / 1024 := by omega
      have := h.mpr hdiv
      omega
  rw [capacity, Nat.le_antisymm hsize hsize']

theorem capacity_form (n : Nat) :
    ∃ k, capacity n = 1024 * 2 ^ k ∧ (k = 0 ∨ 1024 * 2 ^ (k - 1) ≤ n) := by
  refine ⟨Nat.size (n / 1024), rfl, ?_⟩
  by_cases h0 : Nat.size (n / 1024) = 0
  · exact .inl h0
  · have h := (Nat.lt_size (m := Nat.size (n / 1024) - 1) (n := n / 1024)).mp (by omega)
    exact .inr (by omega)

theorem capacity_of_lt {m n : Nat} (hmn : m ≤ n) (hlt : n < capacity m) :
    capacity n = capacity m := by
  obtain ⟨k, hk, hle⟩ := capacity_form m
  rw [hk] at hlt ⊢
  refine capacity_eq hlt ?_
  rcases hle with h0 | hle
  · exact .inl h0
  · exact .inr (by omega)

theorem capacity_of_ge {m n : Nat} (h : capacity m ≤ n) : 2 * capacity m ≤ capacity n := by
  obtain ⟨k, hk, -⟩ := capacity_form m
  obtain ⟨j, hj, hle⟩ := capacity_form n
  have hlt := lt_capacity n
  rw [hk] at h ⊢
  rw [hj] at hlt ⊢
  have hkj : k < j := by
    by_contra hjk
    have hpow := Nat.pow_le_pow_right (n := 2) (by omega) (Nat.le_of_not_lt hjk)
    omega
  have hpow := Nat.pow_le_pow_right (n := 2) (by omega) (Nat.succ_le_of_lt hkj)
  rw [Nat.pow_succ] at hpow
  omega

/-- A buffer made with 1024 bytes that was never reset: its length is the one
that its bytes need, and the bytes behind them were never written. -/
structure Untouched (b : InputBuffer) : Prop where
  form : ∃ k, b.length = 1024 * 2 ^ k ∧ (k = 0 ∨ 1024 * 2 ^ (k - 1) ≤ b.offset)
  stale : b.stale = garbage b.heap b.offset (b.length - b.offset)

theorem Untouched.length_eq {b : InputBuffer} (h : b.Untouched) (hlt : b.offset < b.length) :
    b.length = capacity b.offset := by
  obtain ⟨k, hk, hle⟩ := h.form
  rw [hk] at hlt ⊢
  exact (capacity_eq hlt hle).symm

theorem Untouched.length_pos {b : InputBuffer} (h : b.Untouched) : 0 < b.length := by
  obtain ⟨k, hk, -⟩ := h.form
  have hpow := Nat.two_pow_pos k
  omega

theorem garbage_length (heap : Nat → UInt8) (start n : Nat) : (garbage heap start n).length = n := by
  simp [garbage]

theorem garbage_drop (heap : Nat → UInt8) (start n m : Nat) :
    (garbage heap start n).drop m = garbage heap (start + m) (n - m) := by
  simp [garbage, ← List.map_drop, List.drop_range']

theorem untouched_init (heap : Nat → UInt8) : (inputBufferInit heap 1024).Untouched where
  form := ⟨0, by simp [length, inputBufferInit, garbage_length], .inl rfl⟩
  stale := by simp [stale, inputBufferInit, length, garbage_length]

theorem Untouched.resize {b : InputBuffer} (h : b.Untouched) : b.resize.Untouched := by
  rw [InputBuffer.resize]
  split
  · rename_i hfull
    obtain ⟨k, hk, hle⟩ := h.form
    have hlen : (b.buffer ++ garbage b.heap b.length b.length).length = 2 * b.length := by
      rw [List.length_append, garbage_length]
      simp only [length]
      omega
    refine ⟨⟨k + 1, ?_, .inr ?_⟩, ?_⟩
    · rw [length, hlen, hk, Nat.pow_succ]
      omega
    · have heq : 1024 * 2 ^ (k + 1 - 1) = b.offset := by rw [Nat.add_sub_cancel, ← hk, hfull]
      exact Nat.le_of_eq heq
    · simp only [InputBuffer.stale, hfull, length] at hlen ⊢
      rw [hlen, List.drop_append_of_le_length (Nat.le_refl _), List.drop_length, List.nil_append]
      congr 1
      omega
  · exact h

theorem Untouched.store {b : InputBuffer} (h : b.Untouched) {bytes : List UInt8}
    (hfit : b.offset + bytes.length ≤ b.length) : (b.store bytes).Untouched := by
  have hlen := store_length hfit
  refine ⟨?_, ?_⟩
  · obtain ⟨k, hk, hle⟩ := h.form
    refine ⟨k, by rw [hlen, hk], ?_⟩
    rcases hle with h0 | hle
    · exact .inl h0
    · exact .inr (Nat.le_trans hle (Nat.le_add_right _ _))
  · have hrec : (b.received ++ bytes).length = b.offset + bytes.length := by
      rw [List.length_append, received_length]
    have hst := h.stale
    rw [hlen]
    simp only [InputBuffer.stale, InputBuffer.store] at hst ⊢
    rw [← hrec, List.drop_left, hrec, ← List.drop_drop, hst, garbage_drop, Nat.sub_sub]

/-- What growing and storing keep, a call keeps, however many reads it makes. -/
theorem readInto_keeps {P : InputBuffer → Prop} (hresize : ∀ b, P b → P b.resize)
    (hstore : ∀ b bytes, P b → b.offset + bytes.length ≤ b.length → P (b.store bytes))
    {b b' : InputBuffer} {rs : List ReadResult} {st : ReadState} (h : P b)
    (hr : inputBufferReadInto b rs = some (st, b')) : P b' := by
  induction rs generalizing b with
  | nil => simp [inputBufferReadInto] at hr
  | cons r rs ih =>
    cases r with
    | data bytes =>
      simp only [inputBufferReadInto, Option.ite_none_right_eq_some] at hr
      obtain ⟨⟨-, hfit⟩, hr⟩ := hr
      exact ih (hstore _ _ (hresize b h) hfit) hr
    | _ =>
      cases rs with
      | cons r' rs => simp [inputBufferReadInto] at hr
      | nil =>
        simp only [inputBufferReadInto, Option.some.injEq, Prod.mk.injEq] at hr
        obtain ⟨-, rfl⟩ := hr
        exact hresize b h

theorem Untouched.readInto {b b' : InputBuffer} {rs : List ReadResult} {st : ReadState}
    (h : b.Untouched) (hr : inputBufferReadInto b rs = some (st, b')) :
    b'.Untouched ∧ b'.heap = b.heap := by
  refine readInto_keeps (P := fun x => x.Untouched ∧ x.heap = b.heap) ?_ ?_ ⟨h, rfl⟩ hr
  · intro x hx
    refine ⟨hx.1.resize, Eq.trans ?_ hx.2⟩
    rw [InputBuffer.resize]
    split <;> rfl
  · intro x bytes hx hfit
    exact ⟨hx.1.store hfit, hx.2⟩

end InputBuffer

end Jullop
