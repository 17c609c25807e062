import OpusFleet.Server.Listening

namespace OpusFleet.Server.Live

open Python Library Library.Runs Segmenter

variable {ω : Type} [DecidableEq ω]

section Leaks

variable {decoder : List Bytes → Bytes → Option Bytes} {s s' : State ω} {e : Event ω} {imei : Str}
    {value : Bytes}
variable {es after : List (Event ω)}

/-- The decoder of a device is there without a listener, and nobody is about to free it. -/
def State.Leaks (s : State ω) (imei : Str) : Prop :=
  (s.decoders.get imei).isSome = true ∧ ¬ s.watched imei ∧ s.freeing ≠ some imei

/-- The decoder of a device was freed while the worker had checked a message of that device and not
yet looked up its decoder, and since then nobody has come to listen. -/
def Crossed (decoder : List Bytes → Bytes → Option Bytes) (imei : Str) (value : Bytes)
    (es after : List (Event ω)) : Prop :=
  ∃ before m, es = before ++ .free :: after ∧ run (step decoder) .init before = some m ∧
    m.freeing = some imei ∧
    m.worker = .checked imei value ∧ ∀ ws, .join ws imei ∉ after

theorem Crossed.later (h : Crossed decoder imei value es after) (hjoin : ∀ ws, e ≠ .join ws imei) :
    Crossed decoder imei value (es ++ [e]) (after ++ [e]) := by
  obtain ⟨before, m, hes, hm, hfreeing, hworker, hnone⟩ := h
  refine ⟨before, m, by rw [hes, List.append_assoc, List.cons_append], hm, hfreeing, hworker,
    fun ws hws ↦ ?_⟩
  rcases List.mem_append.mp hws with hws | hws
  · exact hnone ws hws
  · exact hjoin ws (List.mem_singleton.mp hws).symm

omit [DecidableEq ω] in
theorem lookUp_known (s : State ω) (imei x : Str) (value : Bytes) :
    ((s.lookUp x value).decoders.get imei).isSome = true ↔
      (s.decoders.get imei).isSome = true ∨ x = imei ∧ (packetOf value).isSome = true := by
  rw [State.lookUp, packetOf]
  cases hparse : Protocol.parseAudio value with
  | error e => cases e <;> simp
  | ok audio =>
    by_cases hx : x = imei
    · subst hx
      cases hget : s.decoders.get x <;> simp [hget]
    · cases hget : s.decoders.get x <;> simp [Dict.get_set_ne _ _ (Ne.symm hx), hx]

omit [DecidableEq ω] in
theorem decode_known (decoder : List Bytes → Bytes → Option Bytes) (s : State ω) (imei x : Str)
    (past : List Bytes)
    (opus : Bytes) : ((s.decode decoder x past opus).decoders.get imei).isSome = true ↔
      (s.decoders.get imei).isSome = true := by
  rw [State.decode]
  dsimp only
  cases hget : s.decoders.get x with
  | none => rfl
  | some past' =>
    by_cases hx : imei = x
    · simp [hx, hget]
    · simp [Dict.get_set_ne _ _ hx]

omit [DecidableEq ω] in
theorem lookUp_worker (s : State ω) (imei x : Str) (value value' : Bytes) :
    (s.lookUp x value).worker ≠ .checked imei value' := by
  rw [State.lookUp]
  split <;> simp

omit [DecidableEq ω] in
theorem decode_worker (decoder : List Bytes → Bytes → Option Bytes) (s : State ω) (imei x : Str)
    (past : List Bytes)
    (opus value : Bytes) : (s.decode decoder x past opus).worker ≠ .checked imei value := by
  rw [State.decode]
  dsimp only
  split <;> simp

structure Leftover (imei : Str) (value : Bytes) (after : List (Event ω)) (s : State ω) : Prop where
  tabled : Tabled s
  room : s.room imei = ∅
  freeing : s.freeing ≠ some imei
  frame : .lookUp ∉ after ∧ s.worker = .checked imei value ∨ .lookUp ∈ after ∧
    (s.decoders.get imei).isSome = true

omit [DecidableEq ω] in
theorem Leftover.keep (h : Leftover imei value after s) (htabled : Tabled s')
    (hroom : s'.room imei = s.room imei)
    (hfreeing : s'.freeing ≠ some imei) (hworker : s'.worker = s.worker)
    (hdecoder : (s'.decoders.get imei).isSome = true ↔ (s.decoders.get imei).isSome = true)
    (he : e ≠ .lookUp) :
    Leftover imei value (after ++ [e]) s' := by
  refine ⟨htabled, hroom.trans h.room, hfreeing, ?_⟩
  rw [hworker, hdecoder]
  simpa [he.symm] using h.frame

theorem step_leftover (hpacket : (packetOf value).isSome = true) (h : Leftover imei value after s)
    (hjoin : ∀ ws, e ≠ .join ws imei) (hstep : step decoder s e = some s') :
    Leftover imei value (after ++ [e]) s' := by
  have htabled := step_tabled h.tabled hstep
  cases step_turn hstep with
  | @join ws x hidle hfresh =>
    have hother : imei ≠ x := fun hx ↦ hjoin ws (by rw [hx])
    exact h.keep htabled (by simp [hother]) h.freeing rfl .rfl (by simp)
  | @leave ws x hidle hwaits =>
    have hother : x ≠ imei := by
      rintro rfl
      have hmem := (h.tabled.room x ws).mpr hwaits
      rw [h.room] at hmem
      cases hmem
    refine h.keep htabled (by simp [hother.symm]) ?_ rfl .rfl (by simp)
    simp only [State.leave]
    split <;> simp [hother]
  | @free x hfreeing =>
    have hother : imei ≠ x := by
      rintro rfl
      exact h.freeing hfreeing
    exact h.keep htabled rfl (by simp) rfl (by rw [Dict.get_pop_ne _ hother]) (by simp)
  | broadcast | idle | error => exact h.keep htabled rfl h.freeing rfl .rfl (by simp)
  | @poll key payload hpolls =>
    obtain ⟨worker, hpoll⟩ := poll_tables s key payload
    rw [hpoll] at htabled ⊢
    obtain ⟨-, hchecked⟩ | hleft := h.frame
    · cases hpolls.symm.trans hchecked
    · exact ⟨htabled, h.room, h.freeing, .inr ⟨by simp [hleft.1], hleft.2⟩⟩
  | @lookUp x payload hchecks =>
    obtain ⟨decoders, worker, hlookUp⟩ := lookUp_tables s x payload
    have hroom : (s.lookUp x payload).room imei = ∅ := by
      rw [hlookUp]
      exact h.room
    have hfreeing : (s.lookUp x payload).freeing = s.freeing := by rw [hlookUp]
    refine ⟨htabled, hroom, hfreeing ▸ h.freeing, .inr ⟨by simp, ?_⟩⟩
    rw [lookUp_known]
    obtain ⟨-, hchecked⟩ | hleft := h.frame
    · obtain ⟨rfl, rfl⟩ : imei = x ∧ value = payload := by simpa using hchecked.symm.trans hchecks
      exact .inr ⟨rfl, hpacket⟩
    · exact .inl hleft.2
  | @decode x past opus htunes =>
    have hknown := decode_known decoder s imei x past opus
    obtain ⟨-, hchecked⟩ | hleft := h.frame
    · cases htunes.symm.trans hchecked
    · exact ⟨htabled, h.room, h.freeing, .inr ⟨by simp [hleft.1], hknown.mpr hleft.2⟩⟩
  | @target x pcm hholds =>
    obtain ⟨framesOut, htarget⟩ := target_tables s x pcm
    rw [htarget] at htabled ⊢
    obtain ⟨-, hchecked⟩ | hleft := h.frame
    · cases hholds.symm.trans hchecked
    · exact ⟨htabled, h.room, h.freeing, .inr ⟨by simp [hleft.1], hleft.2⟩⟩

theorem crossed_leftover (hcrossed : Crossed decoder imei value es after)
    (hpacket : (packetOf value).isSome = true)
    (hrun : run (step decoder) .init es = some s) : Leftover imei value after s := by
  obtain ⟨before, m, rfl, hm, hfreeing, hworker, hnone⟩ := hcrossed
  obtain ⟨m', m₁, hm', hfree, hafter⟩ := run_cut hrun
  obtain rfl := Option.some.inj (hm'.symm.trans hm)
  clear hrun
  induction after using List.reverseRecOn generalizing s with
  | nil =>
    obtain rfl : m₁ = s := by simpa using hafter
    have htabled := step_tabled (run_tabled hm) hfree
    cases step_turn hfree with
    | free => exact ⟨htabled, (run_tabled hm).freeing imei hfreeing, by simp,
      .inl ⟨by simp, hworker⟩⟩
  | append_singleton after e ih =>
    obtain ⟨m₂, hm₂, hstep⟩ := (run_concat _).mp hafter
    refine step_leftover hpacket (ih (fun ws h ↦ hnone ws (by simp [h])) hm₂) ?_ hstep
    rintro ws rfl
    exact hnone ws (by simp)

/-- Where a decoder without a listener comes from, and a frame in hand that nobody listens to. -/
structure Traced (decoder : List Bytes → Bytes → Option Bytes) (imei : Str) (es : List (Event ω))
    (s : State ω) :
    Prop where
  leaks : s.Leaks imei → ∃ value after, Crossed decoder imei value es after ∧
    (packetOf value).isSome = true ∧
    .lookUp ∈ after
  owes : ∀ value, s.worker = .checked imei value → ¬ s.watched imei → s.freeing ≠ some imei →
    ∃ after, Crossed decoder imei value es after

theorem Traced.keep (h : Traced decoder imei es s) (hjoin : ∀ ws, e ≠ .join ws imei)
    (hleaks : s'.Leaks imei → s.Leaks imei)
    (howes : ∀ value, s'.worker = .checked imei value → ¬ s'.watched imei → s'.freeing ≠ some imei →
      s.worker = .checked imei value ∧ ¬ s.watched imei ∧ s.freeing ≠ some imei) :
    Traced decoder imei (es ++ [e]) s' := by
  refine ⟨fun hl ↦ ?_, fun value hworker hwatched hfreeing ↦ ?_⟩
  · obtain ⟨value, after, hcrossed, hpacket, hdecode⟩ := h.leaks (hleaks hl)
    exact ⟨value, after ++ [e], hcrossed.later hjoin, hpacket, by simp [hdecode]⟩
  · obtain ⟨hworker, hwatched, hfreeing⟩ := howes value hworker hwatched hfreeing
    obtain ⟨after, hcrossed⟩ := h.owes value hworker hwatched hfreeing
    exact ⟨after ++ [e], hcrossed.later hjoin⟩

theorem poll_watched (hpolls : s.worker = .polling) (key : Option Bytes) (payload : Bytes)
    (h : (s.poll key payload).worker = .checked imei value) : s.watched imei := by
  rw [State.poll] at h
  split at h
  · cases h
  · split at h
    · next hwatched =>
      obtain ⟨rfl, -⟩ := Worker.checked.inj h
      exact hwatched
    · cases hpolls.symm.trans h

theorem lookUp_traced (h : Traced decoder imei es s) {x : Str} {payload : Bytes}
    (hchecks : s.worker = .checked x payload) :
    Traced decoder imei (es ++ [.lookUp]) (s.lookUp x payload) := by
  obtain ⟨decoders, worker, hlookUp⟩ := lookUp_tables s x payload
  refine ⟨fun hl ↦ ?_, fun value hworker ↦ absurd hworker (lookUp_worker s imei x payload value)⟩
  obtain ⟨hknown, hwatched, hfree⟩ := hl
  rw [lookUp_known] at hknown
  rw [hlookUp] at hwatched hfree
  obtain hknown | ⟨rfl, hpacket⟩ := hknown
  · obtain ⟨value, after, hcrossed, hpacket, -⟩ := h.leaks ⟨hknown, hwatched, hfree⟩
    exact ⟨value, after ++ [.lookUp], hcrossed.later (by simp), hpacket, by simp⟩
  · obtain ⟨after, hcrossed⟩ := h.owes payload hchecks hwatched hfree
    exact ⟨payload, after ++ [.lookUp], hcrossed.later (by simp), hpacket, by simp⟩

theorem step_traced (hrun : run (step decoder) .init es = some s) (h : Traced decoder imei es s)
    (hstep : step decoder s e = some s') : Traced decoder imei (es ++ [e]) s' := by
  cases step_turn hstep with
  | @join ws x hidle hfresh =>
    by_cases hx : x = imei
    · subst hx
      have hwatched : (s.join ws x).watched x := by simp [State.watched]
      exact ⟨fun hl ↦ absurd hwatched hl.2.1, fun _ _ hnot ↦ absurd hwatched hnot⟩
    · have hroom : (s.join ws x).watched imei ↔ s.watched imei := by
        simp [State.watched, Ne.symm hx]
      refine h.keep (by simp [hx]) (fun hl ↦ ⟨hl.1, hroom.not.mp hl.2.1, hl.2.2⟩) ?_
      exact fun value hworker hnot hfree ↦ ⟨hworker, hroom.not.mp hnot, hfree⟩
  | @leave ws x hidle hwaits =>
    by_cases hx : x = imei
    · subst hx
      have hdone : (s.leave ws x).watched x ∨ (s.leave ws x).freeing = some x := by
        rw [State.watched, leave_room, if_pos rfl, State.leave]
        by_cases hrest : (s.room x).erase ws = ∅ <;> simp [hrest]
      refine ⟨fun hl ↦ ?_, fun _ _ hnot hfree ↦ ?_⟩
      · exact absurd hdone (not_or.mpr hl.2)
      · exact absurd hdone (not_or.mpr ⟨hnot, hfree⟩)
    · have hroom : (s.leave ws x).watched imei ↔ s.watched imei := by
        simp [State.watched, Ne.symm hx]
      have hfree : s.freeing ≠ some imei := by simp [hidle]
      refine h.keep (by simp) (fun hl ↦ ⟨hl.1, hroom.not.mp hl.2.1, hfree⟩) ?_
      exact fun value hworker hnot _ ↦ ⟨hworker, hroom.not.mp hnot, hfree⟩
  | @free x hfreeing =>
    by_cases hx : x = imei
    · subst hx
      refine ⟨fun hl ↦ ?_, fun value hworker _ _ ↦ ?_⟩
      · have hknown := hl.1
        simp at hknown
      · exact ⟨[], es, s, rfl, hrun, hfreeing, hworker, by simp⟩
    · have hother : s.freeing ≠ some imei := by simp [hfreeing, hx]
      refine h.keep (by simp) (fun hl ↦ ⟨?_, hl.2.1, hother⟩) fun value hworker hnot _ ↦
        ⟨hworker, hnot, hother⟩
      have hknown := hl.1
      rwa [Dict.get_pop_ne _ (Ne.symm hx)] at hknown
  | broadcast | idle | error =>
    exact h.keep (by simp) id fun value hworker hnot hfree ↦ ⟨hworker, hnot, hfree⟩
  | @poll key payload hpolls =>
    have hwatched (value : Bytes) : (s.poll key payload).worker = .checked imei value →
        s.watched imei :=
      poll_watched hpolls key payload
    obtain ⟨worker, hpoll⟩ := poll_tables s key payload
    rw [hpoll] at hwatched ⊢
    exact h.keep (by simp) id fun value hworker hnot _ ↦ absurd (hwatched value hworker) hnot
  | lookUp hchecks => exact lookUp_traced h hchecks
  | @decode x past opus htunes =>
    refine h.keep (by simp) (fun hl ↦ ⟨(decode_known decoder s imei x past opus).mp hl.1, hl.2⟩) ?_
    exact fun value hworker _ _ ↦ absurd hworker (decode_worker decoder s imei x past opus value)
  | @target x pcm hholds =>
    obtain ⟨framesOut, htarget⟩ := target_tables s x pcm
    rw [htarget]
    exact h.keep (by simp) id fun value hworker _ _ ↦ by cases hworker

/-- Just one race leaves a decoder behind. A device without listeners has a decoder, and nobody
about to free it, exactly where its last listener's clean-up ran after the worker had checked a
frame of that device and before it looked up the decoder, and nobody has come since. -/
theorem decoder_leaks_iff (imei : Str) (hrun : run (step decoder) .init es = some s) :
    s.Leaks imei ↔ ∃ value after, Crossed decoder imei value es after ∧
      (packetOf value).isSome = true ∧ .lookUp ∈ after := by
  constructor
  · have hinit : Traced decoder imei [] (State.init : State ω) := by
      refine ⟨fun hl ↦ ?_, fun value hworker ↦ by cases hworker⟩
      have hknown := hl.1
      simp [State.init] at hknown
    have htraced : Traced decoder imei es s :=
      run_induction hinit (fun _ _ _ _ hm h _ hstep ↦ step_traced hm h hstep)
        (throughout_true es) hrun
    exact htraced.leaks
  · rintro ⟨value, after, hcrossed, hpacket, hlookUp⟩
    have hleft := crossed_leftover hcrossed hpacket hrun
    obtain ⟨hnot, -⟩ | ⟨-, hknown⟩ := hleft.frame
    · exact absurd hlookUp hnot
    · exact ⟨hknown, fun hwatched ↦ hwatched hleft.room, hleft.freeing⟩

/-- A frame of A is in hand while its only listener leaves. -/
def parting : List (Event ℕ) := [.join 0 (lit "A"), .poll (some (ascii "A")) (packet [7]), .leave 0]

theorem decoder_leaks_iff_parting :
    ∃ s, run (step reciting) .init (parting ++ .free :: [.lookUp, .decode, .target]) = some s ∧
      s.Leaks (lit "A") := by
  have hruns : (run (step reciting) .init (parting ++ .free :: [.lookUp, .decode, .target])).map
      (fun s ↦ s.worker) = some .polling := by decide +kernel
  have hparts : (run (step reciting) .init parting).map (fun m : State ℕ ↦ (m.freeing, m.worker)) =
      some (some (lit "A"), .checked (lit "A") (packet [7])) := by decide +kernel
  obtain ⟨s, hs, -⟩ := Option.map_eq_some_iff.mp hruns
  obtain ⟨m, hm, hpart⟩ := Option.map_eq_some_iff.mp hparts
  obtain ⟨hfreeing, hworker⟩ := Prod.mk.inj hpart
  refine ⟨s, hs, (decoder_leaks_iff (lit "A") hs).mpr ?_⟩
  exact ⟨packet [7], [.lookUp, .decode, .target], ⟨parting, m, rfl, hm, hfreeing, hworker, by simp⟩,
    by decide, by simp⟩

/-- Where the clean-up runs between the look-up and the decoding, no decoder is left. -/
example : (run (step reciting) .init
    [.join 0 (lit "A"), .poll (some (ascii "A")) (packet [7]), .lookUp, .leave 0, .free,
      .decode, .target]).map
      (fun s : State ℕ ↦ (s.decoders.get (lit "A"), s.worker)) = some (none, .polling) := by
  decide +kernel

end Leaks

end OpusFleet.Server.Live
