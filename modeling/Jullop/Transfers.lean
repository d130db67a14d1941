import Jullop.MessagePassing

/-! The loops of `read_async` and `write_async` for buffers of any length: what they
ask of the system call and what they return, over any number of calls that resume
one transfer. -/

namespace Jullop

inductive TransferPhase
  | ready
  | calling
  | finished
  deriving DecidableEq

structure Transfer where
  offset : Nat
  phase : TransferPhase

inductive TransferLabel (Result : Type)
  | call
  | result (r : Result)

inductive TransferObs (State : Type)
  | requested (count : Nat)
  | returned (state : State) (offset : Nat)

variable {Result State : Type} [DecidableEq State]

/-- Calls of one of the two functions on one buffer, until it returns `finish`. -/
def transfers (turn : Nat → Result → Option (Nat × Option State)) (finish : State)
    (bufferLen offset : Nat) : Machine Transfer (TransferLabel Result) (TransferObs State) where
  init s := s = ⟨offset, .ready⟩
  step s l :=
    match s.phase, l with
    | .ready, .call => some ({ s with phase := .calling }, [])
    | .calling, .result r =>
      (turn s.offset r).map fun
        | (offset, none) => (⟨offset, .calling⟩, [.requested (bufferLen - s.offset)])
        | (offset, some state) =>
          (⟨offset, if state = finish then .finished else .ready⟩,
            [.requested (bufferLen - s.offset), .returned state offset])
    | _, _ => none

def TransferObs.Meets (finish : State) (bufferLen : Nat) : TransferObs State → Prop
  | requested count => 0 < count
  | returned state offset =>
    (state = finish ↔ offset = bufferLen) ∧ (state ≠ finish → offset < bufferLen)

/-- The contract of the two functions, over all sequences of results. -/
def TransfersMeet (turn : Nat → Result → Option (Nat × Option State)) (finish : State)
    (bufferLen offset : Nat) : Prop :=
  ∀ s tr, (transfers turn finish bufferLen offset).Run s tr →
    s.offset ≤ bufferLen ∧ ∀ o ∈ tr, o.Meets finish bufferLen

variable {turn : Nat → Result → Option (Nat × Option State)} {finish : State}
  {bufferLen offset : Nat}

/-- What a turn has to do. `Rest` holds of the offsets that a transfer can have
before it is finished. -/
def TurnMeets (Rest : Nat → Prop) (finish : State) (bufferLen : Nat) : Nat × Option State → Prop
  | (offset, none) => Rest offset
  | (offset, some state) => state = finish ∧ offset = bufferLen ∨ state ≠ finish ∧ Rest offset

def Transfer.Within (Rest : Nat → Prop) (bufferLen : Nat) (s : Transfer) : Prop :=
  if s.phase = .finished then s.offset = bufferLen else Rest s.offset

theorem Transfer.Within.step {Rest : Nat → Prop} (hrest : ∀ o, Rest o → o < bufferLen)
    (hturn : ∀ o r x, Rest o → turn o r = some x → TurnMeets Rest finish bufferLen x)
    {s t : Transfer} {l : TransferLabel Result} {obs : List (TransferObs State)}
    (h : s.Within Rest bufferLen)
    (hs : (transfers turn finish bufferLen offset).step s l = some (t, obs)) :
    t.Within Rest bufferLen ∧ ∀ o ∈ obs, o.Meets finish bufferLen := by
  obtain ⟨o, phase⟩ := s
  cases phase with
  | finished => cases l <;> simp [transfers] at hs
  | ready =>
    cases l with
    | result r => simp [transfers] at hs
    | call =>
      simp only [transfers, Option.some.injEq, Prod.mk.injEq] at hs
      obtain ⟨rfl, rfl⟩ := hs
      exact ⟨h, by simp⟩
  | calling =>
    cases l with
    | call => simp [transfers] at hs
    | result r =>
      have ho : Rest o := h
      have hpos : 0 < bufferLen - o := Nat.sub_pos_of_lt (hrest o ho)
      simp only [transfers, Option.map_eq_some_iff] at hs
      obtain ⟨⟨o', st⟩, hr, hs⟩ := hs
      have hmeets := hturn o r _ ho hr
      cases st with
      | none =>
        simp only [Prod.mk.injEq] at hs
        obtain ⟨rfl, rfl⟩ := hs
        refine ⟨hmeets, ?_⟩
        simpa [TransferObs.Meets] using hpos
      | some state =>
        simp only [Prod.mk.injEq] at hs
        obtain ⟨rfl, rfl⟩ := hs
        rcases hmeets with ⟨rfl, rfl⟩ | ⟨hne, hlt⟩
        · refine ⟨?_, ?_⟩
          · simp [Within]
          · simpa [TransferObs.Meets] using hpos
        · have hlt' := hrest o' hlt
          refine ⟨?_, ?_⟩
          · simpa [Within, hne] using hlt
          · simpa [TransferObs.Meets, hne, hlt', Nat.ne_of_lt hlt'] using hpos

theorem transfersMeet_of_turn {Rest : Nat → Prop} (hrest : ∀ o, Rest o → o < bufferLen)
    (hturn : ∀ o r x, Rest o → turn o r = some x → TurnMeets Rest finish bufferLen x)
    (h : Rest offset) : TransfersMeet turn finish bufferLen offset := by
  intro s tr hrun
  have hinv : s.Within Rest bufferLen ∧ ∀ o ∈ tr, o.Meets finish bufferLen := by
    refine Machine.Run.invariant (fun s tr => Transfer.Within Rest bufferLen s ∧
      ∀ o ∈ tr, TransferObs.Meets finish bufferLen o) ?_ ?_ hrun
    · rintro s rfl
      exact ⟨h, by simp⟩
    · rintro s tr l t obs ⟨hs, htr⟩ hstep
      obtain ⟨ht, hobs⟩ := hs.step hrest hturn hstep
      refine ⟨ht, ?_⟩
      intro o ho
      rcases List.mem_append.mp ho with ho | ho
      · exact htr o ho
      · exact hobs o ho
  refine ⟨?_, hinv.2⟩
  have hwithin := hinv.1
  rw [Transfer.Within] at hwithin
  split at hwithin
  · omega
  · exact Nat.le_of_lt (hrest _ hwithin)

theorem writeAsync_meets {o : Nat} {r : WriteResult} {x : Nat × Option WriteState}
    (ho : o < bufferLen) (h : writeAsync bufferLen o r = some x) :
    TurnMeets (· < bufferLen) .writeFinish bufferLen x := by
  cases r with
  | accepted count =>
    simp only [writeAsync, Option.ite_none_right_eq_some, Option.some.injEq] at h
    obtain ⟨⟨hpos, hle⟩, rfl⟩ := h
    by_cases hlt : o + count < bufferLen
    · simp [TurnMeets, hlt]
    · have hend : o + count = bufferLen := by omega
      simp [TurnMeets, hend]
  | _ =>
    cases h
    simpa [TurnMeets] using ho

/-- `read_async` on a buffer of the size of a pointer does what `write_async`
does. -/
theorem readAsync_meets_pointer {o : Nat} {r : ReadResult} {x : Nat × Option ReadState}
    (ho : o < sizeofSizeT) (h : readAsync sizeofSizeT o r = some x) :
    TurnMeets (· < sizeofSizeT) .readFinish sizeofSizeT x := by
  cases r with
  | data bytes =>
    simp only [readAsync, Option.ite_none_right_eq_some, Option.some.injEq] at h
    obtain ⟨⟨-, hle⟩, rfl⟩ := h
    by_cases hlt : o + bytes.length < sizeofSizeT
    · simp [TurnMeets, hlt]
    · have hend : o + bytes.length = sizeofSizeT := by omega
      simp [TurnMeets, hend]
  | _ =>
    cases h
    simpa [TurnMeets] using ho

/-- The last byte of a longer buffer cannot be read in two turns. -/
theorem readAsync_meets_last {o : Nat} {r : ReadResult} {x : Nat × Option ReadState}
    (hlen : sizeofSizeT < bufferLen) (ho : o + 1 = bufferLen)
    (h : readAsync bufferLen o r = some x) :
    TurnMeets (· + 1 = bufferLen) .readFinish bufferLen x := by
  cases r with
  | data bytes =>
    simp only [readAsync, Option.ite_none_right_eq_some, Option.some.injEq] at h
    obtain ⟨⟨hne, hle⟩, rfl⟩ := h
    have hpos := List.length_pos_iff.mpr hne
    have hend : o + bytes.length = bufferLen := by omega
    have hlong : ¬ bufferLen < sizeofSizeT := by omega
    simp [TurnMeets, hend, hlong]
  | _ =>
    cases h
    simpa [TurnMeets] using ho

/-- A short buffer is filled and the loop goes on: it asks for no bytes. -/
theorem readAsync_short (hoff : offset < bufferLen) (hlen : bufferLen < sizeofSizeT) :
    ¬ TransfersMeet (readAsync bufferLen) .readFinish bufferLen offset := by
  intro h
  have hexec : (transfers (readAsync bufferLen) .readFinish bufferLen offset).exec ⟨offset, .ready⟩
      [.call, .result (.data (List.replicate (bufferLen - offset) 0)), .result .endOfStream] =
      some (⟨bufferLen, .ready⟩,
        [.requested (bufferLen - offset), .requested 0, .returned .readError bufferLen]) := by
    have hfull : offset + (bufferLen - offset) = bufferLen := by omega
    have hsome : bufferLen - offset ≠ 0 := by omega
    simp [Machine.exec, transfers, readAsync, hfull, hlen, hsome]
  obtain ⟨-, hobs⟩ := h _ _ (.of_exec rfl hexec)
  exact absurd (hobs (.requested 0) (by simp)) (by simp [TransferObs.Meets])

/-- A long buffer is left with bytes to read once it holds a pointer. -/
theorem readAsync_long (hoff : offset + 1 < bufferLen) (hlen : sizeofSizeT < bufferLen) :
    ¬ TransfersMeet (readAsync bufferLen) .readFinish bufferLen offset := by
  intro h
  let count := max 1 (sizeofSizeT - offset)
  have hexec : (transfers (readAsync bufferLen) .readFinish bufferLen offset).exec ⟨offset, .ready⟩
      [.call, .result (.data (List.replicate count 0))] =
      some (⟨offset + count, .finished⟩,
        [.requested (bufferLen - offset), .returned .readFinish (offset + count)]) := by
    have hsome : count ≠ 0 := by omega
    have hroom : count ≤ bufferLen - offset := by omega
    have hlong : ¬ offset + count < sizeofSizeT := by omega
    simp [Machine.exec, transfers, readAsync, hsome, hroom, hlong]
  obtain ⟨-, hobs⟩ := h _ _ (.of_exec rfl hexec)
  have hmeets := (hobs (.returned .readFinish (offset + count)) (by simp)).1.mp rfl
  omega

/-- Only the length of a pointer, or the last byte of a longer buffer, is read as
it would be written. -/
theorem transfers_dual_iff (hoff : offset < bufferLen) :
    TransfersMeet (writeAsync bufferLen) .writeFinish bufferLen offset ∧
        TransfersMeet (readAsync bufferLen) .readFinish bufferLen offset ↔
      bufferLen = sizeofSizeT ∨ sizeofSizeT < bufferLen ∧ offset + 1 = bufferLen := by
  constructor
  · rintro ⟨-, hread⟩
    by_contra hnot
    rcases Nat.lt_trichotomy bufferLen sizeofSizeT with hlt | heq | hgt
    · exact readAsync_short hoff hlt hread
    · exact hnot (.inl heq)
    · exact readAsync_long (by omega) hgt hread
  · intro hcond
    refine ⟨transfersMeet_of_turn (fun _ ho => ho) (fun _ _ _ => writeAsync_meets) hoff, ?_⟩
    rcases hcond with rfl | ⟨hlong, hlast⟩
    · exact transfersMeet_of_turn (fun _ ho => ho) (fun _ _ _ => readAsync_meets_pointer) hoff
    · exact transfersMeet_of_turn (fun _ ho => by omega) (fun _ _ _ => readAsync_meets_last hlong) hlast

theorem transfers_dual_iff_pointer :
    TransfersMeet (writeAsync 8) .writeFinish 8 3 ∧ TransfersMeet (readAsync 8) .readFinish 8 3 :=
  (transfers_dual_iff (by decide)).mpr (.inl rfl)

/-- The first eight of sixteen bytes are taken for all of them. -/
theorem readAsync_sixteen_unfinished :
    ¬ TransfersMeet (readAsync 16) .readFinish 16 0 :=
  readAsync_long (by decide) (by decide)

end Jullop
