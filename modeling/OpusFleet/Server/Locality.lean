import OpusFleet.Server.Connections

namespace OpusFleet.Server

open Python Library Protocol Auth Library.Runs

/-- The same world for another process: what `env` shows from `ing` on, `ing'` is
shown from where it stands itself. -/
def Env.seenFrom (env : Env) (ing ing' : Ingest) : Env where
  mode := env.mode
  hmac := env.hmac
  clock n := env.clock (n - ing'.ticks + ing.ticks)
  broker n := env.broker (n - ing'.calls.length + ing.calls.length)
  limit := env.limit

structure Env.Aligned (env env' : Env) (a b : Ingest) : Prop where
  mode : env'.mode = env.mode
  hmac : env'.hmac = env.hmac
  limit : env'.limit = env.limit
  clock : ∀ k, env'.clock (b.ticks + k) = env.clock (a.ticks + k)
  broker : ∀ k, env'.broker (b.calls.length + k) = env.broker (a.calls.length + k)

theorem aligned_seenFrom (env : Env) (a b : Ingest) : env.Aligned (env.seenFrom a b) a b := by
  refine ⟨rfl, rfl, rfl, ?_, ?_⟩
  · intro k
    simp only [Env.seenFrom]
    congr 1
    omega
  · intro k
    simp only [Env.seenFrom]
    congr 1
    omega

/-- What a stretch of code says and how often it reads the clock. -/
structure Moves (new : List Call) (sent : List Message) (n : ℕ) (a a' : Ingest) : Prop where
  calls : a'.calls = a.calls ++ new
  queue : a'.queue = a.queue ++ sent
  ticks : a'.ticks = a.ticks + n

/-- Two stretches of code that say the same, however much was said before. -/
def Parallel (a a' b b' : Ingest) : Prop :=
  ∃ new sent n, Moves new sent n a a' ∧ Moves new sent n b b'

theorem Moves.trans {new new' : List Call} {sent sent' : List Message} {n n' : ℕ} {a b c : Ingest}
    (h : Moves new sent n a b) (h' : Moves new' sent' n' b c) :
    Moves (new ++ new') (sent ++ sent') (n + n') a c := by
  refine ⟨?_, ?_, ?_⟩
  · rw [h'.calls, h.calls, List.append_assoc]
  · rw [h'.queue, h.queue, List.append_assoc]
  · rw [h'.ticks, h.ticks, Nat.add_assoc]

theorem Moves.still (n : ℕ) {a a' : Ingest} (hcalls : a'.calls = a.calls)
    (hqueue : a'.queue = a.queue) (hticks : a'.ticks = a.ticks + n) : Moves [] [] n a a' :=
  ⟨by simp [hcalls], by simp [hqueue], hticks⟩

theorem Parallel.trans {a a' a'' b b' b'' : Ingest} (h : Parallel a a' b b')
    (h' : Parallel a' a'' b' b'') :
    Parallel a a'' b b'' := by
  obtain ⟨_, _, _, ha, hb⟩ := h
  obtain ⟨_, _, _, ha', hb'⟩ := h'
  exact ⟨_, _, _, ha.trans ha', hb.trans hb'⟩

theorem Parallel.refl (a b : Ingest) : Parallel a a b b :=
  ⟨[], [], 0, .still 0 rfl rfl rfl, .still 0 rfl rfl rfl⟩

section Aligned

variable {env env' : Env} {a a' b b' : Ingest}

theorem Env.Aligned.moves (h : env.Aligned env' a b) (hp : Parallel a a' b b') :
    env.Aligned env' a' b' := by
  obtain ⟨new, sent, n, ha, hb⟩ := hp
  refine ⟨h.mode, h.hmac, h.limit, ?_, ?_⟩
  · intro k
    rw [ha.ticks, hb.ticks, Nat.add_assoc, Nat.add_assoc]
    exact h.clock (n + k)
  · intro k
    rw [ha.calls, hb.calls, List.length_append, List.length_append, Nat.add_assoc, Nat.add_assoc]
    exact h.broker (new.length + k)

theorem Env.Aligned.stamp (h : env.Aligned env' a b) : b.stamp env' = a.stamp env := by
  have hclock : env'.clock b.ticks = env.clock a.ticks := h.clock 0
  rw [Ingest.stamp, Ingest.stamp, hclock]

theorem produce_parallel (h : env.Aligned env' a b) (topic : Topic) (key : Str) (value : Payload) :
    Parallel a (a.produce env topic key value) b (b.produce env' topic key value) := by
  have hbroker : env'.broker b.calls.length = env.broker a.calls.length := h.broker 0
  rw [Ingest.produce, Ingest.produce, hbroker]
  cases env.broker a.calls.length with
  | enqueued => exact ⟨[⟨topic, key, value⟩], [Call.message ⟨topic, key, value⟩], 0,
    ⟨rfl, rfl, rfl⟩, ⟨rfl, rfl, rfl⟩⟩
  | bufferError | kafkaException =>
    refine ⟨[⟨topic, key, value⟩], [], 0, ⟨rfl, ?_, rfl⟩, ⟨rfl, ?_, rfl⟩⟩ <;> simp

theorem report_parallel (h : env.Aligned env' a b) {n : ℕ} (ha : Moves [] [] n a a')
    (hb : Moves [] [] n b b')
    (topic : Topic) (key : Str) {value value' : Payload} (hvalue : value' = value) :
    Parallel a (a'.produce env topic key value) b (b'.produce env' topic key value') := by
  have hmoves : Parallel a a' b b' := ⟨_, _, n, ha, hb⟩
  rw [hvalue]
  exact hmoves.trans (produce_parallel (h.moves hmoves) topic key value)

theorem tick_parallel : Parallel a a.tick b b.tick :=
  ⟨[], [], 1, .still 1 rfl rfl rfl, .still 1 rfl rfl rfl⟩

variable (peer : Peer)

theorem hello_parallel (h : env.Aligned env' a b) (imei : Str) :
    Parallel a (a.hello env peer imei) b (b.hello env' peer imei) := by
  refine report_parallel (n := 2) h ?_ ?_ .events imei ?_
  · exact .still 2 rfl rfl rfl
  · exact .still 2 rfl rfl rfl
  · have hstamp : b.tick.stamp env' = a.tick.stamp env := (h.moves tick_parallel).stamp
    exact congrArg (Ingest.connectEvent imei peer) hstamp

theorem stat_parallel (h : env.Aligned env' a b) (imei : Str) (entries : List (Str × Value)) :
    Parallel a (a.stat env imei entries) b (b.stat env' imei entries) := by
  refine report_parallel (n := 1) h ?_ ?_ .stat imei ?_
  · exact .still 1 rfl rfl rfl
  · exact .still 1 rfl rfl rfl
  · exact congrArg (Ingest.statReport imei entries) h.stamp

theorem audio_parallel (h : env.Aligned env' a b) (imei : Str) (payload : Bytes) :
    Parallel a (a.audio env imei payload) b (b.audio env' imei payload) := by
  refine report_parallel (n := 0) h ?_ ?_ .audio imei rfl
  · exact .still 0 rfl rfl rfl
  · exact .still 0 rfl rfl rfl

theorem cleanup_parallel (h : env.Aligned env' a b) (imei : Str) :
    Parallel a (a.cleanup env peer imei) b (b.cleanup env' peer imei) := by
  refine report_parallel (n := 1) h ?_ ?_ .events imei ?_
  · exact .still 1 rfl rfl rfl
  · exact .still 1 rfl rfl rfl
  · exact congrArg (Ingest.disconnectEvent imei) h.stamp

def Matched {α : Type} (a b : Ingest) (p q : Ingest × α) : Prop := Parallel a p.1 b q.1 ∧ q.2 = p.2

theorem Matched.parts {α : Type} {p q : Ingest × α} (h : Matched a b p q) :
    ∃ a' b' out, p = (a', out) ∧ q = (b', out) ∧ Parallel a a' b b' :=
  ⟨p.1, q.1, p.2, rfl, Prod.ext rfl h.2, h.1⟩

theorem dispatch_matched (h : env.Aligned env' a b) (authed : Bool) (imei : Str) (payload : Bytes) :
    Matched a b (a.dispatch env peer authed imei payload)
      (b.dispatch env' peer authed imei payload) := by
  rw [Ingest.dispatch, Ingest.dispatch, h.limit]
  split
  iterate 3 exact ⟨.refl a b, rfl⟩
  · split
    · exact ⟨.refl a b, rfl⟩
    · exact ⟨hello_parallel peer h _, rfl⟩
  · exact ⟨stat_parallel h imei _, rfl⟩
  · exact ⟨tick_parallel, rfl⟩
  · exact ⟨audio_parallel h imei payload, rfl⟩

theorem frameLoop_matched (authed : Bool) (frames : List Bytes)
    (h : env.Aligned env' a b) (imei : Str) :
    Matched a b (a.frameLoop env peer authed imei frames)
      (b.frameLoop env' peer authed imei frames) := by
  induction frames generalizing a b imei with
  | nil => exact ⟨.refl a b, rfl⟩
  | cons f frames ih =>
    have hlog : Parallel a { a with dispatched := a.dispatched ++ [f] } b
        { b with dispatched := b.dispatched ++ [f] } :=
      ⟨[], [], 0, .still 0 rfl rfl rfl, .still 0 rfl rfl rfl⟩
    obtain ⟨a₁, b₁, out, ha, hb, hp⟩ := (dispatch_matched peer (h.moves hlog) authed imei f).parts
    rw [Ingest.frameLoop, Ingest.frameLoop, ha, hb]
    cases out with
    | error e => exact ⟨hlog.trans hp, rfl⟩
    | ok id =>
      obtain ⟨hrest, hends⟩ := ih ((h.moves hlog).moves hp) id
      exact ⟨(hlog.trans hp).trans hrest, hends⟩

theorem serve_matched (h : env.Aligned env' a b) (authed : Bool) (imei : Str) (buf : Bytes) :
    Matched a b (a.serve env peer authed imei buf) (b.serve env' peer authed imei buf) := by
  obtain ⟨a₁, b₁, ⟨id, raised⟩, ha, hb, hp⟩ :=
    (frameLoop_matched peer authed (iterFrames buf).1 h imei).parts
  rw [Ingest.serve, Ingest.serve, ha, hb]
  cases raised with
  | none => exact ⟨hp, rfl⟩
  | some e => exact ⟨hp.trans (cleanup_parallel peer (h.moves hp) id), rfl⟩

theorem refuse_matched (h : env.Aligned env' a b) (e : Exc) :
    Matched a b (a.refuse env peer e) (b.refuse env' peer e) := by
  rw [Ingest.refuse, Ingest.refuse]
  split
  · exact ⟨⟨[], [], 0, .still 0 rfl rfl rfl, .still 0 rfl rfl rfl⟩, rfl⟩
  · exact ⟨cleanup_parallel peer h _, rfl⟩

theorem checkFrame_aligned (h : env.Aligned env' a b) :
    Ingest.checkFrame env' = Ingest.checkFrame env := by
  funext registry nonce peer payload leftover
  simp only [Ingest.checkFrame, h.limit, h.mode, h.hmac]

variable (conn : Connection)

theorem answer_matched (h : env.Aligned env' a b) (registry : Registry) (payload leftover : Bytes) :
    Matched a b (a.answer env registry conn payload leftover)
      (b.answer env' registry conn payload leftover) := by
  rw [Ingest.answer, Ingest.answer, checkFrame_aligned h]
  split
  · exact refuse_matched conn.peer h _
  · split
    · split
      · exact refuse_matched conn.peer h _
      · exact ⟨.refl a b, rfl⟩
    · exact ⟨⟨[], [], 0, .still 0 rfl rfl rfl, .still 0 rfl rfl rfl⟩, rfl⟩

/-- What a connection does next depends on itself and on what it is shown, and on nothing
that other connections have done. -/
theorem resume_matched (h : env.Aligned env' a b) (input : Input) :
    Option.Rel (Matched a b) (a.resume env conn input) (b.resume env' conn input) := by
  have hstays (phase : Phase) : Matched a b (a, phase) (b, phase) := ⟨.refl a b, rfl⟩
  have hcloses (imei : Str) : Matched a b (a.cleanup env conn.peer imei, Phase.closed)
      (b.cleanup env' conn.peer imei, Phase.closed) := ⟨cleanup_parallel conn.peer h imei, rfl⟩
  cases input with
  | drained ok =>
    simp only [Ingest.resume]
    split
    · split
      · exact .some (hstays _)
      · exact .some (hcloses _)
    · split
      · exact .some (hstays _)
      · exact .some (hcloses _)
    · exact .some (hcloses _)
    · exact .none
  | recv chunk registry =>
    simp only [Ingest.resume]
    split
    · exact .none
    · split
      · split
        · exact .some (hstays _)
        · exact .some (refuse_matched conn.peer h _)
        · exact .some (answer_matched conn h registry _ _)
      · exact .some (serve_matched conn.peer h _ _ _)
      · exact .none
  | ended ending =>
    simp only [Ingest.resume]
    split
    · exact .some (refuse_matched conn.peer h _)
    · exact .some (hcloses _)
    · exact .none

end Aligned

end OpusFleet.Server
