import Jullop.OutputBuffer
import Jullop.Machine

/-! Pointers that are passed as messages over a socket, `message_passing.c`. The
loops are cut at their system calls, because the other side of the socket can run
between two of them: a function here is one turn of the loop that bears its name. -/

namespace Jullop

/-- `sizeof(size_t)`, which is the size of a pointer too. -/
def sizeofSizeT : Nat := 8

/-- The `k` bytes of a number in memory, the lowest first. -/
def toBytes : Nat → Nat → List UInt8
  | 0, _ => []
  | k + 1, n => UInt8.ofNat n :: toBytes k (n / 256)

def ofBytes : List UInt8 → Nat
  | [] => 0
  | b :: bs => b.toNat + 256 * ofBytes bs

@[simp] theorem toBytes_length (k n : Nat) : (toBytes k n).length = k := by
  induction k generalizing n with
  | zero => rfl
  | succ k ih => simp [toBytes, ih]

theorem ofBytes_toBytes (k n : Nat) : ofBytes (toBytes k n) = n % 256 ^ k := by
  induction k generalizing n with
  | zero => simp [toBytes, ofBytes, Nat.mod_one]
  | succ k ih =>
    have hbyte : (UInt8.ofNat n).toNat = n % 256 := UInt8.toNat_ofNat'
    rw [toBytes, ofBytes, ih, hbyte, Nat.pow_succ', Nat.mod_mul]

structure Message where
  buffer : List UInt8
  offset : Nat
  buffer_length : buffer.length = sizeofSizeT

def messageInit (ptr : UInt64) : Message where
  buffer := toBytes sizeofSizeT ptr.toNat
  offset := 0
  buffer_length := toBytes_length _ _

def messageReset (m : Message) : Message := { m with offset := 0 }

/-- `none` is the failure of the assertion. -/
def messageGetPayload (m : Message) : Option UInt64 :=
  if m.offset = sizeofSizeT then some (UInt64.ofNat (ofBytes m.buffer)) else none

/-- The offset after a turn, and the state that is returned when the loop ends with
it. `none` when `write(2)` cannot have this result. -/
def writeAsync (bufferLen offset : Nat) : WriteResult → Option (Nat × Option WriteState)
  | .accepted count =>
    if 0 < count ∧ count ≤ bufferLen - offset then
      some (offset + count, if offset + count < bufferLen then none else some .writeFinish)
    else none
  | .zero => some (offset, some .writeError)
  | .wouldBlock => some (offset, some .writeBusy)
  | .failed => some (offset, some .writeError)

/-- Unlike `write_async`, the loop ends by the size of a pointer. -/
def readAsync (bufferLen offset : Nat) : ReadResult → Option (Nat × Option ReadState)
  | .data bytes =>
    if bytes ≠ [] ∧ bytes.length ≤ bufferLen - offset then
      some (offset + bytes.length,
        if offset + bytes.length < sizeofSizeT then none else some .readFinish)
    else none
  | .endOfStream => some (offset, some .readError)
  | .wouldBlock => some (offset, some .readBusy)
  | .failed => some (offset, some .readError)

def ReadResult.bytes : ReadResult → List UInt8
  | .data bytes => bytes
  | _ => []

def WriteResult.count : WriteResult → Nat
  | .accepted count => count
  | _ => 0

namespace Message

/-- The bytes that `read(2)` stores at the offset of the array. -/
def stored (m : Message) (bytes : List UInt8) : List UInt8 :=
  (m.buffer.take m.offset ++ bytes ++ m.buffer.drop (m.offset + bytes.length)).take sizeofSizeT

theorem stored_length (m : Message) (bytes : List UInt8) :
    (m.stored bytes).length = sizeofSizeT := by
  have hlen := m.buffer_length
  simp only [stored, List.length_take, List.length_append, List.length_drop]
  omega

def store (m : Message) (bytes : List UInt8) (offset : Nat) : Message where
  buffer := m.stored bytes
  offset := offset
  buffer_length := m.stored_length bytes

/-- The bytes that `write(2)` takes from the offset on. -/
def taken (m : Message) (count : Nat) : List UInt8 := (m.buffer.drop m.offset).take count

end Message

def messageWriteAsync (m : Message) (r : WriteResult) : Option (Message × Option WriteState) :=
  (writeAsync sizeofSizeT m.offset r).map fun (offset, st) => ({ m with offset := offset }, st)

def messageReadAsync (m : Message) (r : ReadResult) : Option (Message × Option ReadState) :=
  (readAsync sizeofSizeT m.offset r).map fun (offset, st) => (m.store r.bytes offset, st)

/-- The message after a turn, and whether the loop ends with it. An error is logged
and the loop goes on. -/
def messageWriteSync (m : Message) : WriteResult → Option (Message × Bool)
  | .accepted count =>
    if 0 < count ∧ count ≤ sizeofSizeT - m.offset then
      some ({ m with offset := m.offset + count }, decide (sizeofSizeT ≤ m.offset + count))
    else none
  | .zero => some (m, decide (sizeofSizeT ≤ m.offset))
  | .wouldBlock => some (m, decide (sizeofSizeT ≤ m.offset))
  | .failed => some (m, decide (sizeofSizeT ≤ m.offset))

def messageReadSync (m : Message) : ReadResult → Option (Message × Bool)
  | .data bytes =>
    if bytes ≠ [] ∧ bytes.length ≤ sizeofSizeT - m.offset then
      some (m.store bytes (m.offset + bytes.length),
        decide (sizeofSizeT ≤ m.offset + bytes.length))
    else none
  | .endOfStream => some (m, decide (sizeofSizeT ≤ m.offset))
  | .wouldBlock => some (m, decide (sizeofSizeT ≤ m.offset))
  | .failed => some (m, decide (sizeofSizeT ≤ m.offset))

end Jullop
