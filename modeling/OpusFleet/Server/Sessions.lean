import OpusFleet.Server.Dispatch
import OpusFleet.Server.Handshake

namespace OpusFleet.Server

open Python Library Protocol Auth Library.Incremental

section Fold

/-- A STAT frame, if it is one, carries a JSON object or text that the decoder rejects. -/
def StatFits (limit : ℕ) (payload : Bytes) : Prop :=
  (∀ v, classify limit payload = .ok (.stat v) → ∃ entries, v = .dict entries) ∧
    classify limit payload ≠ .error .recursion

theorem raises_eq_false_iff (limit : ℕ) (payload : Bytes) :
    raises limit payload = false ↔ StatFits limit payload := by
  unfold raises StatFits
  rcases hc : classify limit payload with e | kind
  · obtain ⟨text, rfl⟩ | rfl := classify_protocol hc <;> simp
  · rcases kind with id | ⟨id, mac⟩ | v | p
    · simp
    · simp
    · cases v <;> simp
    · simp

def dispatchStep (limit : ℕ) (peer : Peer) (s : Str × List Call) (payload : Bytes) :
    Str × List Call :=
  match classify limit payload with
  | .ok (.hello id) => (id, s.2 ++ [connectCall id peer])
  | .ok (.stat (.dict entries)) => (s.1, s.2 ++ [statCall s.1 entries])
  | .ok (.audio _) => (s.1, s.2 ++ [audioCall s.1 payload])
  | _ => s

/-- The calls a stream stands for: its complete frames in order, then the disconnect. -/
def streamCalls (limit : ℕ) (peer : Peer) (stream : Bytes) : List Call :=
  let s := (iterFrames stream).1.foldl (dispatchStep limit peer) (lit "unknown", [])
  s.2 ++ [disconnectCall s.1]

theorem dispatchStep_eq (limit : ℕ) (peer : Peer) (s : Str × List Call) (payload : Bytes) :
    dispatchStep limit peer s payload = (idAfter limit peer false s.1 payload,
      s.2 ++ ((emits limit peer false s.1 payload).map Prod.snd).toList) := by
  unfold dispatchStep idAfter emits
  rcases classify limit payload with e | kind
  · simp
  · rcases kind with id | ⟨id, mac⟩ | v | p
    · simp
    · simp
    · cases v <;> simp
    · simp

theorem transcript_eq_foldl (limit : ℕ) (peer : Peer) (frames : List Bytes) (s : Str × List Call)
    (hfit : ∀ f ∈ frames, StatFits limit f) :
    s.2 ++ transcript limit peer false s.1 frames =
      (frames.foldl (dispatchStep limit peer) s).2 ++
        [disconnectCall (frames.foldl (dispatchStep limit peer) s).1] := by
  induction frames generalizing s with
  | nil => rfl
  | cons f frames ih =>
    have hr := (raises_eq_false_iff limit f).mpr (hfit f (by simp))
    rw [List.foldl_cons, ← ih _ fun g hg ↦ hfit g (by simp [hg]), dispatchStep_eq, transcript, hr]
    cases hem : emits limit peer false s.1 f <;> simp [idAfter, hem]

end Fold

section Handle

def Link.lone (chunks : List Bytes) : Link where
  peer := ⟨lit "10.0.0.1", lit "('10.0.0.1', 40000)"⟩
  nonce := ⟨List.replicate 16 0, rfl⟩
  chunks := chunks
  ending := .eof
  challengeDrains := true
  okDrains := true

def Registry.none : Registry := fun _ ↦ .ok .none

variable (env : Env) (registry : Registry) (link : Link) (ing : Ingest)

theorem handle_accepted {ing₀ ing₁ : Ingest} {sent : Bytes} {accepted : Ingest.Accepted}
    {chunks : List Bytes} (hallow : ing.allow env link.peer = (ing₀, true))
    (hshake : ing₀.handshake env registry link = (ing₁, sent, .ok (accepted, chunks))) :
    (ing.handle env registry link).1 =
      (ing₁.session env link.peer accepted.authed link.ending accepted.imei accepted.leftover
        chunks).1 := by
  simp only [Ingest.handle, hallow, not_true_eq_false, if_false, hshake]

theorem allow_silent (peer : Peer) : Produced env ing [] (ing.allow env peer).1 ∧
    (ing.allow env peer).1.dispatched = ing.dispatched ∧
    (ing.allow env peer).1.online = ing.online := by
  rw [Ingest.allow]
  rcases ing.limiter.allow peer.ip (env.clock ing.ticks) with ⟨limiter, ok, why⟩
  exact ⟨Produced.silent rfl rfl rfl, rfl, rfl⟩

/-- With authentication disabled the calls of a connection are the fold of the one dispatch
function over the frames of its whole stream, whatever the cut, and each call is either in
the queue or counted as dropped. -/
theorem handle_calls_eq_fold (hmode : env.mode = .disabled)
    (hallow : (ing.allow env link.peer).2 = true) (hchunks : ∀ c ∈ link.chunks, c ≠ [])
    (hstat : ∀ f ∈ (iterFrames link.chunks.flatten).1, StatFits env.limit f) :
    ∃ new, Produced env ing new (ing.handle env registry link).1 ∧
      new.map Call.timeless = streamCalls env.limit link.peer link.chunks.flatten := by
  have hshake : (ing.allow env link.peer).1.handshake env registry link =
      ((ing.allow env link.peer).1, [], .ok (⟨none, false, []⟩, link.chunks)) := if_pos hmode
  rw [handle_accepted env registry link ing (Prod.ext rfl hallow) hshake]
  obtain ⟨new, hp, ht, -⟩ := session_spec env link.peer false link.ending link.chunks hchunks
    (ing.allow env link.peer).1 (lit "unknown") []
  rw [iterFrames_resumable.feed_settled [] rfl, List.nil_append] at ht
  refine ⟨new, (allow_silent env ing link.peer).1.trans hp, ht.trans ?_⟩
  exact transcript_eq_foldl env.limit link.peer _ (lit "unknown", []) hstat

theorem handle_calls_eq_fold_cut :
    ∃ new, Produced (Env.calm .disabled) (.init 64 120) new
        ((Ingest.init 64 120).handle (Env.calm .disabled) Registry.none
          (.lone [[0], [7] ++ ascii "HELL", ascii "O:A"])).1 ∧
      new.map Call.timeless = streamCalls 1000 (Link.lone []).peer
        ([[0], [7] ++ ascii "HELL", ascii "O:A"] : List Bytes).flatten :=
  handle_calls_eq_fold (Env.calm .disabled) Registry.none
    (.lone [[0], [7] ++ ascii "HELL", ascii "O:A"]) (.init 64 120) rfl
      (by decide +kernel) (by decide)
    fun f hf ↦ (raises_eq_false_iff _ f).mp <| by
      have hi : (iterFrames ([[0], [7] ++ ascii "HELL", ascii "O:A"] : List Bytes).flatten).1 =
          [ascii "HELLO:A"] := by decide
      obtain rfl := List.mem_singleton.mp (hi ▸ hf)
      decide

theorem handled_eq_self_iff (limit : ℕ) (frames : List Bytes) :
    handled limit frames = frames ↔ ∀ f ∈ frames.dropLast, StatFits limit f := by
  induction frames with
  | nil => simp [handled]
  | cons f frames ih =>
    simp only [handled, ← raises_eq_false_iff]
    cases frames with
    | nil => cases hr : raises limit f <;> simp [handled]
    | cons g frames =>
      simp only [← raises_eq_false_iff] at ih
      cases hr : raises limit f
      · simpa [hr] using ih
      · simp [hr]

theorem handshake_dispatched : (ing.handshake env registry link).1.dispatched = ing.dispatched := by
  unfold Ingest.handshake
  split
  · rfl
  split
  · rfl
  split
  · rfl
  split
  · rfl
  split
  · split <;> rfl
  · rfl

theorem handshake_quiet : Produced env ing [] (ing.handshake env registry link).1 := by
  have hquiet : (ing.handshake env registry link).1.calls = ing.calls ∧
      (ing.handshake env registry link).1.queue = ing.queue ∧
      (ing.handshake env registry link).1.dropped = ing.dropped := by
    unfold Ingest.handshake
    split
    · exact ⟨rfl, rfl, rfl⟩
    split
    · exact ⟨rfl, rfl, rfl⟩
    split
    · exact ⟨rfl, rfl, rfl⟩
    split
    · exact ⟨rfl, rfl, rfl⟩
    split
    · split <;> exact ⟨rfl, rfl, rfl⟩
    · exact ⟨rfl, rfl, rfl⟩
  exact Produced.silent hquiet.1 hquiet.2.1 hquiet.2.2

theorem handshake_ok {ing₁ : Ingest} {sent : Bytes} {accepted : Ingest.Accepted}
    {chunks : List Bytes}
    (hshake : ing.handshake env registry link = (ing₁, sent, .ok (accepted, chunks))) :
    (env.mode = .disabled ∧ accepted = ⟨none, false, []⟩ ∧ chunks = link.chunks) ∨
      (env.mode ≠ .disabled ∧ ∃ payload leftover,
        Ingest.readFrame link.ending [] link.chunks = .ok ((payload, leftover), chunks) ∧
        Ingest.checkFrame env registry link.nonce link.peer payload leftover = .ok accepted) := by
  unfold Ingest.handshake at hshake
  by_cases hmode : env.mode = .disabled
  · simp only [if_pos hmode, Prod.mk.injEq, Except.ok.injEq] at hshake
    exact .inl ⟨hmode, hshake.2.2.1.symm, hshake.2.2.2.symm⟩
  rw [if_neg hmode] at hshake
  refine .inr ⟨hmode, ?_⟩
  split at hshake
  · simp at hshake
  split at hshake
  · simp at hshake
  · next payload leftover unread hread =>
    split at hshake
    · simp at hshake
    · next acc hcheck =>
      suffices acc = accepted ∧ unread = chunks from
        ⟨payload, leftover, this.2 ▸ hread, this.1 ▸ hcheck⟩
      split at hshake
      · split at hshake
        · simp at hshake
        · split at hshake
          · simpa using congrArg (fun r ↦ r.2.2) hshake
          · simp at hshake
      · simpa using congrArg (fun r ↦ r.2.2) hshake

theorem handshake_unread {ing₁ : Ingest} {sent : Bytes} {accepted : Ingest.Accepted}
    {chunks : List Bytes}
    (hshake : ing.handshake env registry link = (ing₁, sent, .ok (accepted, chunks))) :
    chunks ⊆ link.chunks := by
  obtain ⟨-, -, rfl⟩ | ⟨-, payload, leftover, hread, -⟩ := handshake_ok env registry link ing hshake
  · exact List.Subset.refl _
  · obtain ⟨consumed, _, _, he, -, -⟩ := Ingest.readFrame_ok hread
    exact he ▸ List.subset_append_right _ _

/-- After the handshake the loop is handed exactly the frames of what the handshake left
over and of the chunks to come, provided one more chunk comes or nothing complete was left
over, and no frame but the last one raises. -/
theorem handle_dispatches_iff (hallow : (ing.allow env link.peer).2 = true)
    (hchunks : ∀ c ∈ link.chunks, c ≠ []) {ing₁ : Ingest} {sent : Bytes}
    {accepted : Ingest.Accepted} {chunks : List Bytes}
    (hshake : (ing.allow env link.peer).1.handshake env registry link =
      (ing₁, sent, .ok (accepted, chunks))) :
    (ing.handle env registry link).1.dispatched =
        ing.dispatched ++ (iterFrames (accepted.leftover ++ chunks.flatten)).1 ↔
      (chunks ≠ [] ∨ (iterFrames accepted.leftover).1 = []) ∧
        ∀ f ∈ (iterFrames (accepted.leftover ++ chunks.flatten)).1.dropLast,
          StatFits env.limit f := by
  have hne : ∀ c ∈ chunks, c ≠ [] := fun c hc ↦
    hchunks c (handshake_unread env registry link _ hshake hc)
  have hd₁ : ing₁.dispatched = ing.dispatched := by
    have h := handshake_dispatched env registry link (ing.allow env link.peer).1
    rw [hshake] at h
    exact h.trans (allow_silent env ing link.peer).2.1
  obtain ⟨-, -, -, hd⟩ := session_spec env link.peer accepted.authed link.ending chunks hne ing₁
    accepted.imei accepted.leftover
  rw [handle_accepted env registry link ing (Prod.ext rfl hallow) hshake, hd, hd₁,
    List.append_cancel_left_eq, ← handled_eq_self_iff]
  rcases chunks with _ | ⟨chunk, chunks⟩
  · simp only [feed_nil, handled, List.flatten_nil, List.append_nil, ne_eq, not_true_eq_false,
      false_or]
    constructor
    · intro h
      exact ⟨h.symm, by rw [← h]; rfl⟩
    · exact fun h ↦ h.1.symm
  · rw [iterFrames_resumable.feed_eq _ _ (by simp)]
    simp

theorem handle_dispatches_iff_hello :
    ((Ingest.init 64 120).handle (Env.calm .optional) Registry.none
        (.lone [encodeFrame (ascii "HELLO:A"), [0]])).1.dispatched =
        [] ++ (iterFrames (encodeFrame (ascii "HELLO:A") ++ [[0]].flatten)).1 ↔
      (([[0]] : List Bytes) ≠ [] ∨ (iterFrames (encodeFrame (ascii "HELLO:A"))).1 = []) ∧
        ∀ f ∈ (iterFrames (encodeFrame (ascii "HELLO:A") ++ [[0]].flatten)).1.dropLast,
          StatFits 1000 f :=
  @handle_dispatches_iff (Env.calm .optional) Registry.none
    (.lone [encodeFrame (ascii "HELLO:A"), [0]]) (.init 64 120) (by decide +kernel) (by decide) _ _
    ⟨some (lit "A"), false, encodeFrame (ascii "HELLO:A")⟩ [[0]] rfl

/-- A legacy device whose HELLO is all it sends before it closes is let in and never heard. -/
theorem handle_strands_hello :
    ((Ingest.init 64 120).allow (Env.calm .optional) (Link.lone []).peer).2 = true ∧
    (((Ingest.init 64 120).allow (Env.calm .optional) (Link.lone []).peer).1.handshake
      (Env.calm .optional) Registry.none (.lone [encodeFrame (ascii "HELLO:A")])).2.2 =
        .ok (⟨some (lit "A"), false, encodeFrame (ascii "HELLO:A")⟩, []) ∧
    (iterFrames (encodeFrame (ascii "HELLO:A"))).1 = [ascii "HELLO:A"] ∧
    ((Ingest.init 64 120).handle (Env.calm .optional) Registry.none
      (.lone [encodeFrame (ascii "HELLO:A")])).1.dispatched = [] := by
  refine ⟨?_, ?_, ?_, ?_⟩
  · decide +kernel
  · rfl
  · decide
  · decide +kernel

end Handle

section Malformed

variable (limit : ℕ) (peer : Peer) (authed : Bool)

end Malformed

section Isolation

def emitted (ing ing' : Ingest) : List Call := (ing'.calls.drop ing.calls.length).map Call.timeless

theorem Produced.emitted {env : Env} {ing ing' : Ingest} {new : List Call}
    (h : Produced env ing new ing') : emitted ing ing' = new.map Call.timeless := by
  rw [Server.emitted, h.calls, List.drop_left]

theorem loads_garbled (limit : ℕ) : loads limit (lit "x") = .error .value := by
  have hbad : Json.scanToken 120 [] = (.bad, []) := rfl
  have ht : Json.tokenize (lit "x") = [.bad] := by
    rw [Json.tokenize_cons rfl hbad, Json.tokenize_nil]
  rw [loads, ht]
  rfl

end Isolation

end OpusFleet.Server
