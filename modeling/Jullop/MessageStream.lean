import Jullop.MessagePassing

/-! A writer and a reader of pointer messages at the two ends of one byte stream.
Each system call is a step, so that the two interleave in every order, and each
returns what the environment wants of it. -/

namespace Jullop

inductive MessageMode
  | async
  | sync
  deriving DecidableEq

/-- What comes after a turn of a loop: another turn, a return with the message left
unfinished, or the return that finishes it. -/
inductive Turn
  | again
  | paused
  | finished
  deriving DecidableEq

namespace Message

def writeTurn (m : Message) (r : WriteResult) : MessageMode → Option (Message × Turn)
  | .async =>
    (messageWriteAsync m r).map fun
      | (m, none) => (m, .again)
      | (m, some .writeFinish) => (m, .finished)
      | (m, some _) => (m, .paused)
  | .sync => (messageWriteSync m r).map fun (m, ended) => (m, if ended then .finished else .again)

def readTurn (m : Message) (r : ReadResult) : MessageMode → Option (Message × Turn)
  | .async =>
    (messageReadAsync m r).map fun
      | (m, none) => (m, .again)
      | (m, some .readFinish) => (m, .finished)
      | (m, some _) => (m, .paused)
  | .sync => (messageReadSync m r).map fun (m, ended) => (m, if ended then .finished else .again)

end Message

inductive ReaderPhase
  /-- before `message_reset` -/
  | fresh
  | ready
  | reading (mode : MessageMode)
  /-- at `message_get_payload` -/
  | full
  deriving DecidableEq

/-- The writer has the pointers `todo` still to send, and is within a call of the
given mode or between two calls on the message that it sends. -/
structure MessageState where
  todo : List UInt64
  sending : Option (Message × Option MessageMode)
  stream : List UInt8
  message : Message
  reader : ReaderPhase

inductive MessageLabel
  | init
  | write (mode : MessageMode)
  | wrote (r : WriteResult)
  | reset
  | read (mode : MessageMode)
  | got (r : ReadResult)
  | getPayload

inductive MessageObs
  | written (bytes : List UInt8)
  | sent
  | taken (bytes : List UInt8)
  | payload (ptr : Option UInt64)
  deriving DecidableEq

namespace Turn

/-- What the writer does next, after a turn within a call. -/
def sending (mode : MessageMode) (m : Message) : Turn → Option (Message × Option MessageMode)
  | again => some (m, some mode)
  | paused => some (m, none)
  | finished => none

def reader (mode : MessageMode) : Turn → ReaderPhase
  | again => .reading mode
  | paused => .ready
  | finished => .full

def sent : Turn → List MessageObs
  | finished => [.sent]
  | _ => []

end Turn

/-- The pointers `ps` are sent one after the other. The message of the reader holds
anything before its first `message_reset`. -/
def messageStream (ps : List UInt64) : Machine MessageState MessageLabel MessageObs where
  init s := ∃ message, s = ⟨ps, none, [], message, .fresh⟩
  step s
    | .init =>
      match s.sending, s.todo with
      | none, ptr :: todo =>
        some ({ s with todo := todo, sending := some (messageInit ptr, none) }, [])
      | _, _ => none
    | .write mode =>
      match s.sending with
      | some (m, none) => some ({ s with sending := some (m, some mode) }, [])
      | _ => none
    | .wrote r =>
      match s.sending with
      | some (m, some mode) =>
        (m.writeTurn r mode).map fun (m', turn) =>
          ({ s with sending := turn.sending mode m', stream := s.stream ++ m.taken r.count },
            .written (m.taken r.count) :: turn.sent)
      | _ => none
    | .reset =>
      if s.reader = .fresh then
        some ({ s with message := messageReset s.message, reader := .ready }, [])
      else none
    | .read mode => if s.reader = .ready then some ({ s with reader := .reading mode }, []) else none
    | .got r =>
      match s.reader with
      | .reading mode =>
        if r.bytes <+: s.stream then
          (s.message.readTurn r mode).map fun (m, turn) =>
            ({ s with
                message := m, reader := turn.reader mode
                stream := s.stream.drop r.bytes.length },
              [.taken r.bytes])
        else none
      | _ => none
    | .getPayload =>
      if s.reader = .full then
        some ({ s with reader := .fresh }, [.payload (messageGetPayload s.message)])
      else none

namespace Message

variable {m m' : Message} {mode : MessageMode} {turn : Turn}

theorem stored_take {bytes : List UInt8} (h : m.offset + bytes.length ≤ sizeofSizeT) :
    (m.stored bytes).take (m.offset + bytes.length) = m.buffer.take m.offset ++ bytes := by
  have hlen := m.buffer_length
  have hfront : (m.buffer.take m.offset ++ bytes).length = m.offset + bytes.length := by
    rw [List.length_append, List.length_take]
    omega
  rw [stored, List.take_take, Nat.min_eq_left h, List.take_left' hfront]

/-- The two modes differ only in what they do when no byte is written. -/
theorem writeTurn_accepted (m : Message) (count : Nat) (mode : MessageMode) :
    m.writeTurn (.accepted count) mode =
      if 0 < count ∧ count ≤ sizeofSizeT - m.offset then
        some ({ m with offset := m.offset + count },
          if m.offset + count < sizeofSizeT then .again else .finished)
      else none := by
  by_cases hroom : 0 < count ∧ count ≤ sizeofSizeT - m.offset
  · by_cases hlt : m.offset + count < sizeofSizeT
    · have hnot : ¬ sizeofSizeT ≤ m.offset + count := by omega
      cases mode <;> simp [writeTurn, messageWriteAsync, writeAsync, messageWriteSync, hroom, hlt, hnot]
    · have hle : sizeofSizeT ≤ m.offset + count := by omega
      cases mode <;> simp [writeTurn, messageWriteAsync, writeAsync, messageWriteSync, hroom, hlt, hle]
  · cases mode <;> simp [writeTurn, messageWriteAsync, writeAsync, messageWriteSync, hroom]

theorem readTurn_data (m : Message) (bytes : List UInt8) (mode : MessageMode) :
    m.readTurn (.data bytes) mode =
      if bytes ≠ [] ∧ bytes.length ≤ sizeofSizeT - m.offset then
        some (m.store bytes (m.offset + bytes.length),
          if m.offset + bytes.length < sizeofSizeT then .again else .finished)
      else none := by
  by_cases hroom : bytes ≠ [] ∧ bytes.length ≤ sizeofSizeT - m.offset
  · by_cases hlt : m.offset + bytes.length < sizeofSizeT
    · have hnot : ¬ sizeofSizeT ≤ m.offset + bytes.length := by omega
      cases mode <;>
        simp [readTurn, messageReadAsync, readAsync, messageReadSync, ReadResult.bytes, hroom, hlt, hnot]
    · have hle : sizeofSizeT ≤ m.offset + bytes.length := by omega
      cases mode <;>
        simp [readTurn, messageReadAsync, readAsync, messageReadSync, ReadResult.bytes, hroom, hlt, hle]
  · cases mode <;> simp [readTurn, messageReadAsync, readAsync, messageReadSync, hroom]

theorem store_nil (m : Message) : m.store [] m.offset = m := by
  have hlen := m.buffer_length
  simp [store, stored, ← hlen]

theorem writeTurn_rest (m : Message) (hm : m.offset < sizeofSizeT) (mode : MessageMode) :
    m.writeTurn (.accepted (sizeofSizeT - m.offset)) mode =
      some ({ m with offset := sizeofSizeT }, .finished) := by
  have hall : m.offset + (sizeofSizeT - m.offset) = sizeofSizeT := by omega
  have hsome : sizeofSizeT - m.offset ≠ 0 := by omega
  simp [writeTurn_accepted, hall, Nat.pos_of_ne_zero hsome]

theorem readTurn_rest (m : Message) (hm : m.offset < sizeofSizeT) {bytes : List UInt8}
    (hlen : bytes.length = sizeofSizeT - m.offset) (mode : MessageMode) :
    ∃ m', m.readTurn (.data bytes) mode = some (m', .finished) := by
  have hall : m.offset + (sizeofSizeT - m.offset) = sizeofSizeT := by omega
  have hsome : bytes ≠ [] := by
    rw [← List.length_pos_iff]
    omega
  exact ⟨m.store bytes sizeofSizeT, by simp [readTurn_data, hlen, hall, hsome]⟩

theorem writeTurn_spec {r : WriteResult} (hm : m.offset < sizeofSizeT)
    (h : m.writeTurn r mode = some (m', turn)) :
    m'.buffer = m.buffer ∧ m'.offset = m.offset + r.count ∧ m'.offset ≤ sizeofSizeT ∧
      (turn = .finished ↔ m'.offset = sizeofSizeT) := by
  cases r with
  | accepted count =>
    rw [writeTurn_accepted, Option.ite_none_right_eq_some, Option.some.injEq, Prod.mk.injEq] at h
    obtain ⟨⟨-, hle⟩, rfl, rfl⟩ := h
    refine ⟨rfl, rfl, by simp only; omega, ?_⟩
    split
    · simp
      omega
    · simp
      omega
  | _ =>
    have hkept : m' = m ∧ turn ≠ .finished := by
      cases mode
      · simp only [writeTurn, messageWriteAsync, writeAsync, Option.map_some, Option.some.injEq,
          Prod.mk.injEq] at h
        obtain ⟨rfl, rfl⟩ := h
        simp
      · simp [writeTurn, messageWriteSync, Nat.not_le.mpr hm] at h
        simp [← h.1, ← h.2]
    obtain ⟨rfl, hturn⟩ := hkept
    exact ⟨rfl, rfl, Nat.le_of_lt hm, by simpa [hturn] using Nat.ne_of_lt hm⟩

theorem readTurn_spec {r : ReadResult} (hm : m.offset < sizeofSizeT)
    (h : m.readTurn r mode = some (m', turn)) :
    m'.offset = m.offset + r.bytes.length ∧
      m'.buffer.take m'.offset = m.buffer.take m.offset ++ r.bytes ∧ m'.offset ≤ sizeofSizeT ∧
      (turn = .finished ↔ m'.offset = sizeofSizeT) := by
  cases r with
  | data bytes =>
    rw [readTurn_data, Option.ite_none_right_eq_some, Option.some.injEq, Prod.mk.injEq] at h
    obtain ⟨⟨-, hle⟩, rfl, rfl⟩ := h
    have hfit : m.offset + bytes.length ≤ sizeofSizeT := by omega
    refine ⟨rfl, stored_take hfit, hfit, ?_⟩
    simp only [store]
    split
    · simp
      omega
    · simp
      omega
  | _ =>
    have hkept : m' = m ∧ turn ≠ .finished := by
      cases mode
      · simp only [readTurn, messageReadAsync, readAsync, ReadResult.bytes, store_nil,
          Option.map_some, Option.some.injEq, Prod.mk.injEq] at h
        obtain ⟨rfl, rfl⟩ := h
        simp
      · simp [readTurn, messageReadSync, Nat.not_le.mpr hm] at h
        simp [← h.1, ← h.2]
    obtain ⟨rfl, hturn⟩ := hkept
    exact ⟨rfl, by simp [ReadResult.bytes], Nat.le_of_lt hm,
      by simpa [hturn] using Nat.ne_of_lt hm⟩

end Message

namespace MessageObs

def writtenBytes : MessageObs → List UInt8
  | written bytes => bytes
  | _ => []

def takenBytes : MessageObs → List UInt8
  | taken bytes => bytes
  | _ => []

def payload? : MessageObs → Option (Option UInt64)
  | payload ptr => some ptr
  | _ => none

end MessageObs

namespace MessageStream

def writtenBytes (tr : List MessageObs) : List UInt8 := tr.flatMap MessageObs.writtenBytes

def takenBytes (tr : List MessageObs) : List UInt8 := tr.flatMap MessageObs.takenBytes

def sentMessages (tr : List MessageObs) : Nat := tr.count .sent

def payloads (tr : List MessageObs) : List (Option UInt64) := tr.filterMap MessageObs.payload?

/-- The bytes of a pointer. -/
def encode (ptr : UInt64) : List UInt8 := (messageInit ptr).buffer

@[simp] theorem encode_length (ptr : UInt64) : (encode ptr).length = sizeofSizeT :=
  (messageInit ptr).buffer_length

theorem flatMap_encode_length (ps : List UInt64) :
    (ps.flatMap encode).length = sizeofSizeT * ps.length := by
  induction ps with
  | nil => rfl
  | cons ptr ps ih =>
    rw [List.flatMap_cons, List.length_append, ih, encode_length, List.length_cons, Nat.mul_succ]
    omega

theorem messageGetPayload_encode {m : Message} {ptr : UInt64} (hoff : m.offset = sizeofSizeT)
    (hbuf : m.buffer = encode ptr) : messageGetPayload m = some ptr := by
  have hvalue : ofBytes (encode ptr) = ptr.toNat := by
    have hlt : ptr.toNat < 256 ^ sizeofSizeT := ptr.toNat_lt
    rw [encode, messageInit, ofBytes_toBytes, Nat.mod_eq_of_lt hlt]
  rw [messageGetPayload, if_pos hoff, hbuf, hvalue, UInt64.ofNat_toNat]

variable {ps : List UInt64} {s t : MessageState} {tr obs : List MessageObs}

def Sends (ps : List UInt64) (s : MessageState) (tr : List MessageObs) : Prop :=
  ∃ sent, sent.length = sentMessages tr ∧
    match s.sending with
    | none => ps = sent ++ s.todo ∧ writtenBytes tr = sent.flatMap encode
    | some (m, _) =>
      ∃ ptr, ps = sent ++ ptr :: s.todo ∧ m.buffer = encode ptr ∧ m.offset < sizeofSizeT ∧
        writtenBytes tr = sent.flatMap encode ++ (encode ptr).take m.offset

/-- The bytes of the message that is being read. -/
def partialRead (s : MessageState) : List UInt8 :=
  match s.reader with
  | .fresh => []
  | _ => s.message.buffer.take s.message.offset

def InBounds (s : MessageState) : Prop :=
  match s.reader with
  | .fresh => True
  | .full => s.message.offset = sizeofSizeT
  | _ => s.message.offset < sizeofSizeT

structure Inv (ps : List UInt64) (s : MessageState) (tr : List MessageObs) : Prop where
  sends : Sends ps s tr
  receives : ∃ got rest, ps = got ++ rest ∧ payloads tr = got.map some ∧
    takenBytes tr = got.flatMap encode ++ partialRead s
  inBounds : InBounds s
  between : writtenBytes tr = takenBytes tr ++ s.stream

theorem Sends.isPrefix (h : Sends ps s tr) : writtenBytes tr <+: ps.flatMap encode := by
  obtain ⟨sent, -, h⟩ := h
  split at h
  · obtain ⟨rfl, hw⟩ := h
    rw [hw, List.flatMap_append]
    exact List.prefix_append _ _
  · next m _ _ =>
    obtain ⟨ptr, rfl, -, -, hw⟩ := h
    rw [hw, List.flatMap_append, List.flatMap_cons]
    have hpart : (encode ptr).take m.offset <+: encode ptr := List.take_prefix _ _
    exact (List.prefix_append_right_inj _).mpr (hpart.trans (List.prefix_append _ _))

/-- The steps of the reader leave the writer alone. -/
theorem Sends.congr {tr' : List MessageObs} (h : Sends ps s tr) (hsending : t.sending = s.sending)
    (htodo : t.todo = s.todo) (hwritten : writtenBytes tr' = writtenBytes tr)
    (hsent : sentMessages tr' = sentMessages tr) : Sends ps t tr' := by
  rw [Sends, hsending, htodo, hwritten, hsent]
  exact h

theorem Inv.wrote {m m' : Message} {mode : MessageMode} {r : WriteResult} {turn : Turn}
    (h : Inv ps s tr) (hs : s.sending = some (m, some mode))
    (hr : m.writeTurn r mode = some (m', turn)) :
    Inv ps { s with sending := turn.sending mode m', stream := s.stream ++ m.taken r.count }
      (tr ++ .written (m.taken r.count) :: turn.sent) := by
  obtain ⟨⟨sent, hsent, hsends⟩, hreceives, hbounds, hbetween⟩ := h
  simp only [hs] at hsends
  obtain ⟨ptr, rfl, hbuf, hoff, hw⟩ := hsends
  obtain ⟨hbuf', hoff', hle, hfinished⟩ := Message.writeTurn_spec hoff hr
  have hbytes : writtenBytes tr ++ m.taken r.count =
      sent.flatMap encode ++ (encode ptr).take m'.offset := by
    rw [hw, hoff', List.take_add, Message.taken, hbuf, List.append_assoc]
  have hwritten : writtenBytes (tr ++ .written (m.taken r.count) :: turn.sent) =
      writtenBytes tr ++ m.taken r.count := by
    cases turn <;> simp [writtenBytes, MessageObs.writtenBytes, Turn.sent]
  have htaken : takenBytes (tr ++ .written (m.taken r.count) :: turn.sent) = takenBytes tr := by
    cases turn <;> simp [takenBytes, MessageObs.takenBytes, Turn.sent]
  have hpayloads : payloads (tr ++ .written (m.taken r.count) :: turn.sent) = payloads tr := by
    cases turn <;> simp [payloads, MessageObs.payload?, Turn.sent]
  refine ⟨?_, ?_, hbounds, ?_⟩
  · by_cases hfin : turn = .finished
    · subst hfin
      refine ⟨sent ++ [ptr], ?_, ?_, ?_⟩
      · simp [sentMessages, hsent, Turn.sent]
      · simp
      · rw [hwritten, hbytes, hfinished.mp rfl, List.take_of_length_le (Nat.le_of_eq (encode_length ptr)),
          List.flatMap_append, List.flatMap_singleton]
    · have hlt : m'.offset < sizeofSizeT := by
        have hne := mt hfinished.mpr hfin
        omega
      have hcount : sentMessages (tr ++ .written (m.taken r.count) :: turn.sent) =
          sentMessages tr := by
        cases turn <;> simp_all [sentMessages, Turn.sent]
      refine ⟨sent, by rw [hcount, hsent], ?_⟩
      rw [hwritten, hbytes]
      cases turn with
      | again => exact ⟨ptr, rfl, hbuf'.trans hbuf, hlt, rfl⟩
      | paused => exact ⟨ptr, rfl, hbuf'.trans hbuf, hlt, rfl⟩
      | finished => exact absurd rfl hfin
  · rw [hpayloads, htaken]
    exact hreceives
  · rw [hwritten, htaken, hbetween, List.append_assoc]

theorem Inv.got {m : Message} {mode : MessageMode} {r : ReadResult} {turn : Turn}
    (h : Inv ps s tr) (hs : s.reader = .reading mode) (hstream : r.bytes <+: s.stream)
    (hr : s.message.readTurn r mode = some (m, turn)) :
    Inv ps { s with
        message := m, reader := turn.reader mode
        stream := s.stream.drop r.bytes.length }
      (tr ++ [.taken r.bytes]) := by
  obtain ⟨hsends, ⟨got, rest, hps, hpayloads, htaken⟩, hbounds, hbetween⟩ := h
  simp only [InBounds, hs] at hbounds
  obtain ⟨hoff, hbuf, hle, hfinished⟩ := Message.readTurn_spec hbounds hr
  have hwritten' : writtenBytes (tr ++ [.taken r.bytes]) = writtenBytes tr := by
    simp [writtenBytes, MessageObs.writtenBytes]
  have htaken' : takenBytes (tr ++ [.taken r.bytes]) = takenBytes tr ++ r.bytes := by
    simp [takenBytes, MessageObs.takenBytes]
  refine ⟨?_, ⟨got, rest, hps, ?_, ?_⟩, ?_, ?_⟩
  · exact hsends.congr rfl rfl hwritten' (by simp [sentMessages])
  · simpa [payloads, List.filterMap_cons, MessageObs.payload?] using hpayloads
  · have hpart : partialRead s = s.message.buffer.take s.message.offset := by
      rw [partialRead, hs]
    rw [htaken', htaken, hpart, List.append_assoc, ← hbuf]
    cases turn <;> rfl
  · have hlt := mt hfinished.mpr
    cases turn with
    | again => exact Nat.lt_of_le_of_ne hle (hlt (by simp))
    | paused => exact Nat.lt_of_le_of_ne hle (hlt (by simp))
    | finished => exact hfinished.mp rfl
  · obtain ⟨after, hafter⟩ := hstream
    rw [hwritten', htaken', hbetween, ← hafter, List.drop_left, List.append_assoc]

/-- A message that is full holds the next pointer. -/
theorem Inv.full (h : Inv ps s tr) (hs : s.reader = .full) :
    ∃ got ptr rest, ps = got ++ ptr :: rest ∧ payloads tr = got.map some ∧
      takenBytes tr = (got ++ [ptr]).flatMap encode ∧ messageGetPayload s.message = some ptr := by
  obtain ⟨hsends, ⟨got, rest, rfl, hpayloads, htaken⟩, hbounds, hbetween⟩ := h
  simp only [InBounds, hs] at hbounds
  have hlen := s.message.buffer_length
  have hpart : partialRead s = s.message.buffer := by
    rw [partialRead, hs]
    exact List.take_of_length_le (by omega)
  have hinit : s.message.buffer <+: rest.flatMap encode := by
    have hwritten := hsends.isPrefix
    rw [hbetween, htaken, hpart, List.flatMap_append, List.append_assoc,
      List.prefix_append_right_inj] at hwritten
    exact (List.prefix_append _ _).trans hwritten
  cases rest with
  | nil =>
    have := hinit.length_le
    simp [hlen, sizeofSizeT] at this
  | cons ptr rest =>
    have hbuf : s.message.buffer = encode ptr := by
      rw [List.flatMap_cons] at hinit
      have hsize : s.message.buffer.length = (encode ptr).length := by
        rw [hlen, encode_length]
      have hfirst := List.prefix_of_prefix_length_le hinit (List.prefix_append (encode ptr) _)
        (Nat.le_of_eq hsize)
      exact hfirst.eq_of_length hsize
    refine ⟨got, ptr, rest, rfl, hpayloads, ?_, messageGetPayload_encode hbounds hbuf⟩
    rw [htaken, hpart, hbuf, List.flatMap_append, List.flatMap_singleton]

theorem Inv.start (message : Message) : Inv ps ⟨ps, none, [], message, .fresh⟩ [] where
  sends := ⟨[], rfl, rfl, rfl⟩
  receives := ⟨[], ps, rfl, rfl, rfl⟩
  inBounds := trivial
  between := rfl

theorem Inv.step {l : MessageLabel} (h : Inv ps s tr)
    (hs : (messageStream ps).step s l = some (t, obs)) : Inv ps t (tr ++ obs) := by
  cases l with
  | init =>
    simp only [messageStream] at hs
    split at hs
    · next ptr todo hsending htodo =>
      cases hs
      obtain ⟨⟨sent, hsent, hsends⟩, hreceives, hbounds, hbetween⟩ := h
      simp only [hsending, htodo] at hsends
      rw [List.append_nil]
      refine ⟨⟨sent, hsent, ptr, hsends.1, rfl, Nat.zero_lt_succ _, ?_⟩, hreceives, hbounds, hbetween⟩
      simpa [messageInit] using hsends.2
    · cases hs
  | write mode =>
    simp only [messageStream] at hs
    split at hs
    · next m hsending =>
      cases hs
      obtain ⟨⟨sent, hsent, hsends⟩, hreceives, hbounds, hbetween⟩ := h
      simp only [hsending] at hsends
      rw [List.append_nil]
      exact ⟨⟨sent, hsent, hsends⟩, hreceives, hbounds, hbetween⟩
    · cases hs
  | wrote r =>
    simp only [messageStream] at hs
    split at hs
    · next m mode hsending =>
      simp only [Option.map_eq_some_iff, Prod.mk.injEq, Prod.exists] at hs
      obtain ⟨m', turn, hr, rfl, rfl⟩ := hs
      exact h.wrote hsending hr
    · cases hs
  | reset =>
    simp only [messageStream, Option.ite_none_right_eq_some, Option.some.injEq, Prod.mk.injEq] at hs
    obtain ⟨hfresh, rfl, rfl⟩ := hs
    obtain ⟨hsends, ⟨got, rest, hps, hpayloads, htaken⟩, -, hbetween⟩ := h
    rw [List.append_nil]
    refine ⟨hsends, ⟨got, rest, hps, hpayloads, ?_⟩, Nat.zero_lt_succ _, hbetween⟩
    simpa [partialRead, hfresh, messageReset] using htaken
  | read mode =>
    simp only [messageStream, Option.ite_none_right_eq_some, Option.some.injEq, Prod.mk.injEq] at hs
    obtain ⟨hready, rfl, rfl⟩ := hs
    obtain ⟨hsends, ⟨got, rest, hps, hpayloads, htaken⟩, hbounds, hbetween⟩ := h
    rw [List.append_nil]
    refine ⟨hsends, ⟨got, rest, hps, hpayloads, ?_⟩, ?_, hbetween⟩
    · simpa [partialRead, hready] using htaken
    · simpa [InBounds, hready] using hbounds
  | got r =>
    simp only [messageStream] at hs
    split at hs
    · next mode hreading =>
      simp only [Option.ite_none_right_eq_some, Option.map_eq_some_iff, Prod.mk.injEq,
        Prod.exists] at hs
      obtain ⟨hstream, m, turn, hr, rfl, rfl⟩ := hs
      exact h.got hreading hstream hr
    · cases hs
  | getPayload =>
    simp only [messageStream, Option.ite_none_right_eq_some, Option.some.injEq, Prod.mk.injEq] at hs
    obtain ⟨hfull, rfl, rfl⟩ := hs
    obtain ⟨got, ptr, rest, hps, hpayloads, htaken, hpayload⟩ := h.full hfull
    obtain ⟨hsends, -, -, hbetween⟩ := h
    have hwritten : writtenBytes (tr ++ [.payload (messageGetPayload s.message)]) =
        writtenBytes tr := by
      simp [writtenBytes, MessageObs.writtenBytes]
    have htaken' : takenBytes (tr ++ [.payload (messageGetPayload s.message)]) = takenBytes tr := by
      simp [takenBytes, MessageObs.takenBytes]
    refine ⟨?_, ⟨got ++ [ptr], rest, by simp [hps], ?_, ?_⟩, trivial, ?_⟩
    · exact hsends.congr rfl rfl hwritten (by simp [sentMessages])
    · simp [payloads, MessageObs.payload?, hpayload, ← hpayloads]
    · rw [htaken', htaken]
      simp [partialRead]
    · rw [hwritten, htaken', hbetween]

theorem messageStream_inv (h : (messageStream ps).Run s tr) : Inv ps s tr := by
  refine Machine.Run.invariant (Inv ps) ?_ ?_ h
  · rintro s ⟨message, rfl⟩
    exact .start message
  · intro s tr l t obs hi hs
    exact hi.step hs

def writeOffset (s : MessageState) : Nat :=
  match s.sending with
  | none => 0
  | some (m, _) => m.offset

def readOffset (s : MessageState) : Nat :=
  match s.reader with
  | .fresh => 0
  | _ => s.message.offset

theorem Sends.length (h : Sends ps s tr) : writeOffset s < sizeofSizeT ∧
    (writtenBytes tr).length = sizeofSizeT * sentMessages tr + writeOffset s := by
  obtain ⟨sent, hsent, h⟩ := h
  rw [writeOffset]
  split at h
  · rw [h.2, flatMap_encode_length, hsent]
    exact ⟨Nat.zero_lt_succ _, rfl⟩
  · obtain ⟨ptr, -, -, hoff, hw⟩ := h
    refine ⟨hoff, ?_⟩
    rw [hw, List.length_append, flatMap_encode_length, hsent, List.length_take, encode_length,
      Nat.min_eq_left (Nat.le_of_lt hoff)]

theorem InBounds.length (h : InBounds s) :
    readOffset s ≤ sizeofSizeT ∧ (partialRead s).length = readOffset s := by
  obtain ⟨todo, sending, stream, message, reader⟩ := s
  have hlen := message.buffer_length
  have htake : message.offset ≤ sizeofSizeT →
      (message.buffer.take message.offset).length = message.offset := by
    rw [List.length_take]
    omega
  cases reader with
  | fresh => exact ⟨Nat.zero_le _, rfl⟩
  | ready => exact ⟨Nat.le_of_lt h, htake (Nat.le_of_lt h)⟩
  | reading mode => exact ⟨Nat.le_of_lt h, htake (Nat.le_of_lt h)⟩
  | full => exact ⟨Nat.le_of_eq h, htake (Nat.le_of_eq h)⟩

theorem Inv.taken_length (h : Inv ps s tr) :
    (takenBytes tr).length = sizeofSizeT * (payloads tr).length + readOffset s := by
  obtain ⟨got, rest, -, hpayloads, htaken⟩ := h.receives
  rw [htaken, hpayloads, List.length_append, flatMap_encode_length, List.length_map,
    h.inBounds.length.2]

/-- The steps that are left when nothing is held up. -/
def work (ps : List UInt64) (s : MessageState) (tr : List MessageObs) : Nat :=
  3 * s.todo.length +
    (match s.sending with
      | none => 0
      | some (_, none) => 2
      | some (_, some _) => 1) +
    4 * (ps.length - (payloads tr).length) +
    match s.reader with
      | .fresh => 3
      | .ready => 2
      | .reading _ => 1
      | .full => 0

theorem Inv.payloads_isPrefix (h : Inv ps s tr) : payloads tr <+: ps.map some := by
  obtain ⟨got, rest, rfl, hpayloads, -⟩ := h.receives
  rw [hpayloads, List.map_append]
  exact List.prefix_append _ _

/-- Once all is sent, the bytes of a message that is not yet read are there. -/
theorem Inv.stream_length (h : Inv ps s tr) (hsending : s.sending = none) (htodo : s.todo = [])
    (hleft : (payloads tr).length < ps.length) :
    sizeofSizeT - readOffset s ≤ s.stream.length := by
  have htaken := h.taken_length
  obtain ⟨⟨sent, -, hsends⟩, -, -, hbetween⟩ := h
  simp only [hsending, htodo, List.append_nil] at hsends
  obtain ⟨rfl, hw⟩ := hsends
  have hlen := congrArg List.length hbetween
  rw [hw, flatMap_encode_length, List.length_append, htaken] at hlen
  have hmul : sizeofSizeT * ((payloads tr).length + 1) ≤ sizeofSizeT * ps.length :=
    Nat.mul_le_mul_left _ hleft
  rw [Nat.mul_succ] at hmul
  omega

theorem exists_step (h : (messageStream ps).Run s tr) (hleft : payloads tr ≠ ps.map some) :
    ∃ l t obs, (messageStream ps).step s l = some (t, obs) ∧
      work ps t (tr ++ obs) < work ps s tr := by
  have hi := messageStream_inv h
  have hfew : (payloads tr).length < ps.length := by
    have hinit := hi.payloads_isPrefix
    have hle := hinit.length_le
    rw [List.length_map] at hle
    refine Nat.lt_of_le_of_ne hle ?_
    intro heq
    exact hleft (hinit.eq_of_length (by rw [heq, List.length_map]))
  have hstream := hi.stream_length
  obtain ⟨todo, sending, stream, message, reader⟩ := s
  rcases sending with _ | ⟨m, _ | mode⟩
  · rcases todo with _ | ⟨ptr, todo⟩
    · have hroom := hstream rfl rfl hfew
      cases reader with
      | fresh => exact ⟨.reset, _, _, rfl, by simp [work]⟩
      | ready => exact ⟨.read .async, _, _, rfl, by simp [work]⟩
      | reading mode =>
        have hlen : (stream.take (sizeofSizeT - message.offset)).length =
            sizeofSizeT - message.offset := by
          rw [List.length_take]
          exact Nat.min_eq_left hroom
        obtain ⟨m, hturn⟩ := message.readTurn_rest hi.inBounds hlen mode
        refine ⟨.got (.data (stream.take (sizeofSizeT - message.offset))),
          ⟨[], none, stream.drop (sizeofSizeT - message.offset), m, .full⟩,
          [.taken (stream.take (sizeofSizeT - message.offset))], ?_, ?_⟩
        · simp only [messageStream, ReadResult.bytes, hturn, hlen, List.take_prefix, if_true]
          rfl
        · simp [work, payloads, List.filterMap_cons, MessageObs.payload?]
      | full =>
        refine ⟨.getPayload, _, _, rfl, ?_⟩
        simp [work, payloads, MessageObs.payload?] at hfew ⊢
        omega
    · exact ⟨.init, _, _, rfl, by simp [work]; omega⟩
  · exact ⟨.write .async, _, _, rfl, by simp [work]⟩
  · have hturn := m.writeTurn_rest hi.sends.length.1 mode
    refine ⟨.wrote (.accepted (sizeofSizeT - m.offset)),
      ⟨todo, none, stream ++ m.taken (sizeofSizeT - m.offset), message, reader⟩,
      [.written (m.taken (sizeofSizeT - m.offset)), .sent], ?_, ?_⟩
    · simp only [messageStream, hturn]
      rfl
    · simp [work, payloads, List.filterMap_cons, MessageObs.payload?]

/-- However the bytes are broken up and the two sides interleaved, the payloads are
the pointers that were sent, in their order, and the assertion holds at each. Both
sides are always within the message that they are at, and the bytes of the messages
pass once each and in order. What is left can still be passed. -/
theorem messages_survive (h : (messageStream ps).Run s tr) :
    payloads tr <+: ps.map some ∧
      takenBytes tr =
        (ps.flatMap encode).take (sizeofSizeT * (payloads tr).length + readOffset s) ∧
      readOffset s ≤ sizeofSizeT ∧
      writtenBytes tr =
        (ps.flatMap encode).take (sizeofSizeT * sentMessages tr + writeOffset s) ∧
      writeOffset s < sizeofSizeT ∧ writtenBytes tr = takenBytes tr ++ s.stream ∧
      ∃ ls t obs, (messageStream ps).exec s ls = some (t, obs) ∧
        payloads (tr ++ obs) = ps.map some := by
  have hi := messageStream_inv h
  have hwritten := hi.sends.isPrefix
  have htaken : takenBytes tr <+: ps.flatMap encode := by
    rw [hi.between] at hwritten
    exact (List.prefix_append _ _).trans hwritten
  refine ⟨hi.payloads_isPrefix, ?_, hi.inBounds.length.1, ?_, hi.sends.length.1, hi.between, ?_⟩
  · rw [← hi.taken_length]
    exact List.prefix_iff_eq_take.mp htaken
  · rw [← hi.sends.length.2]
    exact List.prefix_iff_eq_take.mp hwritten
  · exact h.exec_of_progress (work ps) fun s tr => exists_step

/-- Both sides stop within the first of two messages, at different bytes of it. -/
theorem messages_survive_busy :
    ∃ s tr, (messageStream [0x12345678, 1]).Run s tr ∧ readOffset s = 2 ∧ writeOffset s = 3 ∧
      ∃ ls t obs, (messageStream [0x12345678, 1]).exec s ls = some (t, obs) ∧
        payloads (tr ++ obs) = [some 0x12345678, some 1] := by
  have hexec : ((messageStream [0x12345678, 1]).exec
      ⟨[0x12345678, 1], none, [], ⟨List.replicate 8 0, 5, rfl⟩, .fresh⟩
      [.init, .write .async, .reset, .read .async, .wrote (.accepted 3), .got (.data [0x78, 0x56]),
        .wrote .wouldBlock, .got .wouldBlock]).any
        (fun (x : MessageState × List MessageObs) =>
          readOffset x.1 = 2 ∧ writeOffset x.1 = 3) = true := by
    decide +kernel
  obtain ⟨⟨s, tr⟩, hs, hoffsets⟩ := (Option.any_eq_true _ _).mp hexec
  have hrun : (messageStream [0x12345678, 1]).Run s tr := .of_exec ⟨_, rfl⟩ hs
  obtain ⟨-, -, -, -, -, -, hrest⟩ := messages_survive hrun
  obtain ⟨hread, hwrite⟩ := of_decide_eq_true hoffsets
  exact ⟨s, tr, hrun, hread, hwrite, hrest⟩

end MessageStream

end Jullop
