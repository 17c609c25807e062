import OpusFleet.Server.Protocol

namespace OpusFleet.Server.Protocol

open Python Library.Octets Library.Incremental

theorem frame_eq_ok {payload : Bytes} (h : payload.length ≤ maxFrame) :
    frame payload = .ok (encodeFrame payload) := if_neg (by omega)

@[simp] theorem encodeFrame_length (payload : Bytes) :
    (encodeFrame payload).length = 2 + payload.length := by simp [encodeFrame]

theorem encodeFrame_cons (payload : Bytes) : ∃ hi lo : UInt8,
    encodeFrame payload = hi :: lo :: payload ∧
      (payload.length ≤ maxFrame → hi.toNat * 256 + lo.toNat = payload.length) := by
  refine ⟨UInt8.ofNat (payload.length / 256), UInt8.ofNat payload.length, rfl, fun h ↦ ?_⟩
  simp only [maxFrame] at h
  simp only [UInt8.toNat_ofNat']
  omega

theorem encodeFrame_bytes {hi lo : UInt8} {payload : Bytes}
    (h : payload.length = hi.toNat * 256 + lo.toNat) :
    encodeFrame payload = hi :: lo :: payload := by
  have hh := hi.toNat_lt
  have hl := lo.toNat_lt
  have h₁ : UInt8.ofNat (payload.length / 256) = hi := by
    apply UInt8.toNat_inj.mp
    rw [UInt8.toNat_ofNat']
    omega
  have h₂ : UInt8.ofNat payload.length = lo := by
    apply UInt8.toNat_inj.mp
    rw [UInt8.toNat_ofNat']
    omega
  rw [encodeFrame, packBE_two, h₁, h₂]
  rfl

/-- No complete frame starts the buffer: not even a length prefix, or fewer
bytes after it than it announces. -/
def Incomplete (rest : Bytes) : Prop :=
  rest.length < 2 ∨ rest.length < 2 + unpackBE (rest.take 2)

theorem unpackBE_prefix (hi lo : UInt8) (tail : Bytes) :
    unpackBE ((hi :: lo :: tail).take 2) = hi.toNat * 256 + lo.toNat := by
  simp only [List.take_succ_cons, List.take_zero, unpackBE, List.reverse_cons, List.reverse_nil,
    List.nil_append, List.cons_append, unpackLE]
  omega

/-- A buffer cut into whole frames and a tail that holds none. -/
structure Decomposes (buf : Bytes) (frames : List Bytes) (rest : Bytes) : Prop where
  joined : frames.flatMap encodeFrame ++ rest = buf
  fits : ∀ f ∈ frames, f.length ≤ maxFrame
  tail : Incomplete rest

section Loop

variable {buf : Bytes} {off : ℕ}

theorem drop_two (h : 2 ≤ buf.length - off) :
    buf.drop off = buf.getD off 0 :: buf.getD (off + 1) 0 :: buf.drop (off + 2) := by
  rw [List.drop_eq_getElem_cons (by omega : off < buf.length),
    List.drop_eq_getElem_cons (by omega : off + 1 < buf.length),
    List.getD_eq_getElem _ _ (by omega : off < buf.length),
    List.getD_eq_getElem _ _ (by omega : off + 1 < buf.length)]

theorem drop_frame (h : 2 ≤ buf.length - off) {ln : ℕ}
    (hln : ln = (buf.getD off 0).toNat * 256 + (buf.getD (off + 1) 0).toNat)
    (hfit : 2 + ln ≤ buf.length - off) :
    encodeFrame (slice buf (off + 2) (off + 2 + ln)) ++ buf.drop (off + 2 + ln) = buf.drop off := by
  have hlen : (slice buf (off + 2) (off + 2 + ln)).length = ln := by
    simp only [slice, List.length_take, List.length_drop]
    omega
  rw [encodeFrame_bytes (hlen.trans hln), drop_two h, List.cons_append, List.cons_append, slice,
    Nat.add_sub_cancel_left, ← List.drop_drop (i := ln), List.take_append_drop]

theorem incomplete_drop (h : ¬ (2 ≤ buf.length - off)) : Incomplete (buf.drop off) := by
  left
  rw [List.length_drop]
  omega

theorem iterFramesLoop_decomposes (rounds : ℕ) (frames : List Bytes) (hoff : off ≤ buf.length)
    (hrounds : buf.length < off + rounds)
    (hjoin : frames.flatMap encodeFrame ++ buf.drop off = buf)
    (hfits : ∀ f ∈ frames, f.length ≤ maxFrame) :
    ∃ found rest, iterFramesLoop buf rounds off frames = some (found, rest) ∧
      Decomposes buf found rest := by
  induction rounds generalizing off frames with
  | zero => omega
  | succ rounds ih =>
    by_cases h : 2 ≤ buf.length - off
    swap
    · exact ⟨frames, buf.drop off, if_neg h, hjoin, hfits, incomplete_drop h⟩
    simp only [iterFramesLoop, if_pos h, shift_or]
    generalize hln : (buf.getD off 0).toNat * 256 + (buf.getD (off + 1) 0).toNat = ln
    by_cases hfit : buf.length - off < 2 + ln
    · refine ⟨frames, buf.drop off, if_pos hfit, hjoin, hfits, .inr ?_⟩
      rw [drop_two h, unpackBE_prefix, hln, ← drop_two h, List.length_drop]
      exact hfit
    · rw [if_neg hfit]
      refine ih _ (by omega) (by omega) ?_ ?_
      · rw [List.flatMap_append, List.flatMap_singleton, List.append_assoc,
          drop_frame h hln.symm (by omega), hjoin]
      · intro f hf
        rcases List.mem_append.mp hf with hf | hf
        · exact hfits f hf
        · rw [List.mem_singleton.mp hf]
          have h₁ := (buf.getD off 0).toNat_lt
          have h₂ := (buf.getD (off + 1) 0).toNat_lt
          simp only [slice, List.length_take, List.length_drop, maxFrame]
          omega

/-- The loop is left before `buf.length + 1` rounds are over. -/
theorem iterFramesLoop_left (buf : Bytes) : ∃ found rest,
    iterFramesLoop buf (buf.length + 1) 0 [] = some (found, rest) ∧ Decomposes buf found rest :=
  iterFramesLoop_decomposes _ [] (Nat.zero_le _) (by omega) rfl (by simp)

end Loop

theorem iterFrames_decomposes (buf : Bytes) :
    Decomposes buf (iterFrames buf).1 (iterFrames buf).2 := by
  obtain ⟨found, rest, hloop, hcut⟩ := iterFramesLoop_left buf
  rw [iterFrames, hloop]
  exact hcut

theorem encodeFrame_append_inj {p q x y : Bytes} (hp : p.length ≤ maxFrame)
    (hq : q.length ≤ maxFrame) (h : encodeFrame p ++ x = encodeFrame q ++ y) : p = q ∧ x = y := by
  obtain ⟨hi, lo, hep, hlp⟩ := encodeFrame_cons p
  obtain ⟨hi', lo', heq, hlq⟩ := encodeFrame_cons q
  rw [hep, heq] at h
  simp only [List.cons_append, List.cons.injEq] at h
  obtain ⟨rfl, rfl, h⟩ := h
  exact List.append_inj h ((hlp hp).symm.trans (hlq hq))

theorem not_incomplete_frame {p x : Bytes} (hp : p.length ≤ maxFrame) :
    ¬ Incomplete (encodeFrame p ++ x) := by
  obtain ⟨hi, lo, he, hl⟩ := encodeFrame_cons p
  have hl := hl hp
  rw [he]
  rintro (h | h)
  · simp only [List.cons_append, List.length_cons] at h
    omega
  · rw [List.cons_append, List.cons_append, unpackBE_prefix, hl] at h
    simp only [List.length_cons, List.length_append] at h
    omega

theorem Decomposes.unique {buf : Bytes} {fs gs : List Bytes} {r s : Bytes}
    (h : Decomposes buf fs r) (h' : Decomposes buf gs s) : fs = gs ∧ r = s := by
  induction fs generalizing buf gs with
  | nil =>
    cases gs with
    | nil => exact ⟨rfl, by simpa using h.joined.trans h'.joined.symm⟩
    | cons g gs =>
      have hr : r = encodeFrame g ++ (gs.flatMap encodeFrame ++ s) := by
        simpa using h.joined.trans h'.joined.symm
      exact absurd (hr ▸ h.tail) (not_incomplete_frame (h'.fits g (by simp)))
  | cons f fs ih =>
    cases gs with
    | nil =>
      have hs : s = encodeFrame f ++ (fs.flatMap encodeFrame ++ r) := by
        simpa using h'.joined.trans h.joined.symm
      exact absurd (hs ▸ h'.tail) (not_incomplete_frame (h.fits f (by simp)))
    | cons g gs =>
      have he := h.joined.trans h'.joined.symm
      simp only [List.flatMap_cons, List.append_assoc] at he
      obtain ⟨rfl, ht⟩ := encodeFrame_append_inj (h.fits f (by simp)) (h'.fits g (by simp)) he
      have hf : Decomposes _ fs r := ⟨rfl, fun x hx ↦ h.fits x (by simp [hx]), h.tail⟩
      have hg : Decomposes _ gs s := ⟨ht.symm, fun x hx ↦ h'.fits x (by simp [hx]), h'.tail⟩
      obtain ⟨rfl, rfl⟩ := ih hf hg
      exact ⟨rfl, rfl⟩

theorem iterFrames_eq {buf rest : Bytes} {frames : List Bytes} (h : Decomposes buf frames rest) :
    iterFrames buf = (frames, rest) := by
  obtain ⟨h₁, h₂⟩ := (iterFrames_decomposes buf).unique h
  exact Prod.ext h₁ h₂

theorem iterFrames_flatMap {frames : List Bytes} (h : ∀ f ∈ frames, f.length ≤ maxFrame) :
    iterFrames (frames.flatMap encodeFrame) = (frames, []) :=
  iterFrames_eq ⟨List.append_nil _, h, .inl (by simp)⟩

theorem two_mul_length_le (frames : List Bytes) :
    2 * frames.length ≤ (frames.flatMap encodeFrame).length := by
  induction frames with
  | nil => simp
  | cons f fs ih =>
    simp only [List.flatMap_cons, List.length_append, encodeFrame_length, List.length_cons]
    omega

theorem Decomposes.rounds {buf rest : Bytes} {frames : List Bytes}
    (h : Decomposes buf frames rest) :
    2 * frames.length ≤ buf.length := by
  rw [← h.joined, List.length_append]
  exact Nat.le_add_right_of_le (two_mul_length_le frames)

theorem iterFramesLoop_eq {buf : Bytes} {rounds : ℕ} (h : buf.length < rounds) :
    iterFramesLoop buf rounds 0 [] = some (iterFrames buf) := by
  obtain ⟨found, rest, hloop, hcut⟩ :=
    iterFramesLoop_decomposes rounds [] (Nat.zero_le buf.length) (by omega) rfl (by simp)
  rw [hloop, iterFrames_eq hcut]

/-- The frames and the tail `iter_frames` returns are the one way to cut the buffer into whole
frames and a tail without one, and the loop comes to its end: each frame takes two bytes or more,
and the loop is left before it has made more rounds than the buffer has bytes and one. -/
theorem iterFrames_only_cut (buf : Bytes) :
    (∀ f ∈ (iterFrames buf).1, frame f = .ok (encodeFrame f)) ∧
    (iterFrames buf).1.flatMap encodeFrame ++ (iterFrames buf).2 = buf ∧
    Incomplete (iterFrames buf).2 ∧
    (∀ (fs : List Bytes) (r : Bytes), (∀ f ∈ fs, f.length ≤ 65535) → Incomplete r →
      fs.flatMap encodeFrame ++ r = buf → fs = (iterFrames buf).1 ∧ r = (iterFrames buf).2) ∧
    2 * (iterFrames buf).1.length ≤ buf.length ∧
    ∀ rounds, buf.length < rounds → iterFramesLoop buf rounds 0 [] = some (iterFrames buf) := by
  have h := iterFrames_decomposes buf
  refine ⟨fun f hf ↦ frame_eq_ok (h.fits f hf), h.joined, h.tail, ?_, h.rounds,
    fun rounds hrounds ↦ iterFramesLoop_eq hrounds⟩
  intro fs r hfits htail hjoin
  exact Decomposes.unique ⟨hjoin, hfits, htail⟩ h

theorem iterFrames_fits (buf : Bytes) {f : Bytes} (hf : f ∈ (iterFrames buf).1) :
    f.length ≤ maxFrame :=
  (iterFrames_decomposes buf).fits f hf

theorem iterFrames_joined (buf : Bytes) :
    (iterFrames buf).1.flatMap encodeFrame ++ (iterFrames buf).2 = buf :=
  (iterFrames_decomposes buf).joined

@[simp] theorem iterFrames_nil : iterFrames [] = ([], []) := rfl

theorem iterFrames_frame {payload : Bytes} (h : payload.length ≤ maxFrame) (more : Bytes) :
    iterFrames (encodeFrame payload ++ more) = (payload :: (iterFrames more).1,
      (iterFrames more).2) := by
  have hmore := iterFrames_decomposes more
  refine iterFrames_eq ⟨?_, ?_, hmore.tail⟩
  · rw [List.flatMap_cons, List.append_assoc, hmore.joined]
  · intro f hf
    rcases List.mem_cons.mp hf with rfl | hf
    · exact h
    · exact hmore.fits f hf

theorem iterFrames_resumable : Resumable iterFrames where
  resume buf more := by
    have h := iterFrames_decomposes buf
    have h' := iterFrames_decomposes ((iterFrames buf).2 ++ more)
    refine iterFrames_eq ⟨?_, ?_, h'.tail⟩
    · rw [List.flatMap_append, List.append_assoc, h'.joined, ← List.append_assoc, h.joined]
    · intro f hf
      rcases List.mem_append.mp hf with hf | hf
      · exact h.fits f hf
      · exact h'.fits f hf

end OpusFleet.Server.Protocol
