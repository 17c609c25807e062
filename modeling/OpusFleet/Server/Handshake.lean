import OpusFleet.Library.Words
import OpusFleet.Server.Framing
import OpusFleet.Server.Ingest

namespace OpusFleet.Server.Ingest

open Python Library Library.Words Protocol

theorem mapM_frame {frames : List Bytes} (h : ∀ f ∈ frames, f.length ≤ maxFrame) :
    frames.mapM frame = .ok (frames.map encodeFrame) := by
  induction frames with
  | nil => rfl
  | cons f frames ih =>
    rw [List.mapM_cons, frame_eq_ok (h f (by simp)), ih fun g hg ↦ h g (by simp [hg])]
    rfl

theorem firstFrame_eq {buf payload : Bytes} {frames : List Bytes} {rest : Bytes}
    (h : iterFrames buf = (payload :: frames, rest)) :
    firstFrame buf = some (payload, .ok (rest ++ frames.flatMap encodeFrame)) := by
  have hfit : ∀ f ∈ frames, f.length ≤ maxFrame := fun f hf ↦
    iterFrames_fits buf (by simp [h, hf])
  simp only [firstFrame, h, mapM_frame hfit]
  rfl

theorem firstFrame_none {buf rest : Bytes} (h : iterFrames buf = ([], rest)) :
    firstFrame buf = none := by simp only [firstFrame, h]

theorem readFrame_ok {ending : Ending} {buf payload leftover : Bytes}
    {chunks remaining : List Bytes}
    (h : readFrame ending buf chunks = .ok ((payload, leftover), remaining)) :
    ∃ consumed frames rest, chunks = consumed ++ remaining ∧
      iterFrames (buf ++ consumed.flatten) = (payload :: frames, rest) ∧
      leftover = rest ++ frames.flatMap encodeFrame := by
  induction chunks generalizing buf with
  | nil =>
    rcases hi : iterFrames buf with ⟨_ | ⟨f, frames⟩, rest⟩
    · simp [readFrame, firstFrame_none hi] at h
    · simp only [readFrame, firstFrame_eq hi, Except.map, Except.ok.injEq, Prod.mk.injEq] at h
      obtain ⟨⟨rfl, rfl⟩, rfl⟩ := h
      exact ⟨[], frames, rest, rfl, by simpa using hi, rfl⟩
  | cons chunk chunks ih =>
    rcases hi : iterFrames buf with ⟨_ | ⟨f, frames⟩, rest⟩
    · simp only [readFrame, firstFrame_none hi] at h
      split at h
      · simp at h
      · obtain ⟨consumed, frames, rest, rfl, hframes, hleft⟩ := ih h
        exact ⟨chunk :: consumed, frames, rest, rfl, by simpa using hframes, hleft⟩
    · simp only [readFrame, firstFrame_eq hi, Except.map, Except.ok.injEq, Prod.mk.injEq] at h
      obtain ⟨⟨rfl, rfl⟩, rfl⟩ := h
      exact ⟨[], frames, rest, rfl, by simpa using hi, rfl⟩

theorem readFrame_frame {payload more : Bytes} (hfits : payload.length ≤ maxFrame) (ending : Ending)
    (chunks : List Bytes) (hchunks : ∀ c ∈ chunks, c ≠ []) (buf : Bytes)
    (h : buf ++ chunks.flatten = encodeFrame payload ++ more) :
    ∃ leftover remaining, readFrame ending buf chunks = .ok ((payload, leftover), remaining) := by
  have hwhole := iterFrames_frame hfits more
  rw [← h, iterFrames_resumable.resume] at hwhole
  induction chunks generalizing buf with
  | nil =>
    rcases hi : iterFrames buf with ⟨_ | ⟨f, frames⟩, rest⟩
    · have hrest : iterFrames rest = ([], rest) := by
        have hr := iterFrames_resumable.parse_rest buf
        rwa [hi] at hr
      simp [hi, hrest] at hwhole
    · obtain rfl : f = payload := by simpa [hi] using congrArg (fun p ↦ p.1.head?) hwhole
      refine ⟨rest ++ frames.flatMap encodeFrame, [], ?_⟩
      simp only [readFrame, firstFrame_eq hi, Except.map]
  | cons chunk chunks ih =>
    rcases hi : iterFrames buf with ⟨_ | ⟨f, frames⟩, rest⟩
    · have hc : chunk ≠ [] := hchunks chunk (by simp)
      simp only [readFrame, firstFrame_none hi, if_neg hc]
      have happend : buf ++ chunk ++ chunks.flatten = encodeFrame payload ++ more := by
        rw [← h, List.flatten_cons, List.append_assoc]
      apply ih (fun c hc ↦ hchunks c (by simp [hc])) _ happend
      rw [← iterFrames_resumable.resume, happend, iterFrames_frame hfits]
    · obtain rfl : f = payload := by simpa [hi] using congrArg (fun p ↦ p.1.head?) hwhole
      refine ⟨rest ++ frames.flatMap encodeFrame, chunk :: chunks, ?_⟩
      simp only [readFrame, firstFrame_eq hi, Except.map]

/-- `_read_frame` loses no byte exactly when the partial tail it read commutes
with the further complete frames, that is when both repeat one block of bytes. -/
theorem readFrame_conserves_iff {ending : Ending} {consumed remaining : List Bytes}
    {payload leftover : Bytes}
    (h : readFrame ending [] (consumed ++ remaining) = .ok ((payload, leftover), remaining)) :
    (frame payload).map (· ++ leftover) = .ok consumed.flatten ↔
      SameBlock (iterFrames consumed.flatten).2
        ((iterFrames consumed.flatten).1.tail.flatMap encodeFrame) := by
  obtain ⟨read, frames, rest, hread, hframes, hleft⟩ := readFrame_ok h
  obtain rfl := List.append_cancel_right hread
  rw [List.nil_append] at hframes
  have hjoin := iterFrames_joined consumed.flatten
  have hfit : payload.length ≤ maxFrame := iterFrames_fits consumed.flatten (by simp [hframes])
  rw [hframes] at hjoin ⊢
  rw [frame_eq_ok hfit, hleft, ← append_comm_iff]
  simp only [Except.map, Except.ok.injEq, List.tail_cons]
  rw [← hjoin, List.flatMap_cons, List.append_assoc, List.append_cancel_left_eq]

theorem readFrame_conserves_iff_cut :
    (frame [65]).map (· ++ [7, 0, 1, 66]) =
        .ok ([[0, 1], [65, 0, 1, 66, 7]] : List Bytes).flatten ↔
      SameBlock (iterFrames ([[0, 1], [65, 0, 1, 66, 7]] : List Bytes).flatten).2
        ((iterFrames ([[0, 1], [65, 0, 1, 66, 7]] : List Bytes).flatten).1.tail.flatMap
          encodeFrame) :=
  @readFrame_conserves_iff .eof [[0, 1], [65, 0, 1, 66, 7]] [] [65] [7, 0, 1, 66] (by decide)

/-- A first frame, a second one and one byte of a third in one chunk: the byte
that came last is handed over first. -/
theorem readFrame_moves_tail :
    readFrame .eof [] [[0, 1, 65, 0, 1, 66, 7]] = .ok (([65], [7, 0, 1, 66]), []) ∧
      (frame [65]).map (· ++ [7, 0, 1, 66]) ≠ .ok [0, 1, 65, 0, 1, 66, 7] := by
  decide

end OpusFleet.Server.Ingest
