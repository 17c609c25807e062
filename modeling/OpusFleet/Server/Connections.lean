import OpusFleet.Library.Runs
import OpusFleet.Server.Sessions
import OpusFleet.Server.Speech

namespace OpusFleet.Server

open Python Library Protocol Auth Library.Runs Library.Incremental

/-- Where the coroutine of a connection stands: what it awaits, or that it is done. -/
inductive Phase
  | challenging
  | reading (buf : Bytes)
  | greeting (accepted : Ingest.Accepted)
  | denying
  | serving (authed : Bool) (imei : Str) (buf : Bytes)
  | closed
  deriving DecidableEq

structure Connection where
  peer : Peer
  nonce : Nonce
  phase : Phase

/-- What wakes a connection: a drain ends, bytes come in (with what the registry holds at
that moment), or the socket ends. -/
inductive Input
  | drained (ok : Bool)
  | recv (chunk : Bytes) (registry : Registry)
  | ended (ending : Ending)

inductive Event
  | accept (c : ℕ) (peer : Peer) (nonce : Nonce)
  | wake (c : ℕ) (input : Input)

/-- The process with its connections. `log` is history: each call of `_produce`
with the connection that made it. -/
structure System where
  ing : Ingest
  conns : ℕ → Option Connection
  log : List (ℕ × Call)

namespace Ingest

variable (env : Env)

def refuse (peer : Peer) (ing : Ingest) (e : Exc) : Ingest × Phase :=
  if refuses e then ({ ing with denied := ing.denied + 1 }, .denying)
  else (cleanup env peer ing (lit "unknown"), .closed)

def answer (registry : Registry) (conn : Connection) (ing : Ingest) (payload leftover : Bytes) :
    Ingest × Phase :=
  match checkFrame env registry conn.nonce conn.peer payload leftover with
  | .error e => ing.refuse env conn.peer e
  | .ok accepted =>
    if accepted.authed then
      match okFrame (accepted.claimed.getD []) with
      | .error e => ing.refuse env conn.peer e
      | .ok _ => (ing, .greeting accepted)
    else
      ({ ing with unauthenticated := ing.unauthenticated + 1 },
        .serving false accepted.imei accepted.leftover)

def serve (peer : Peer) (authed : Bool) (ing : Ingest) (imei : Str) (buf : Bytes) :
    Ingest × Phase :=
  match frameLoop env peer authed ing imei (iterFrames buf).1 with
  | (ing, imei, none) => (ing, .serving authed imei (iterFrames buf).2)
  | (ing, imei, some _) => (cleanup env peer ing imei, .closed)

/-- What a connection does from one await to the next. -/
def resume (ing : Ingest) (conn : Connection) : Input → Option (Ingest × Phase)
  | .drained ok =>
    match conn.phase with
    | .challenging =>
      if ok then some (ing, .reading [])
      else some (cleanup env conn.peer ing (lit "unknown"), .closed)
    | .greeting accepted =>
      if ok then some (ing, .serving accepted.authed accepted.imei accepted.leftover)
      else some (cleanup env conn.peer ing (lit "unknown"), .closed)
    | .denying => some (cleanup env conn.peer ing (lit "unknown"), .closed)
    | _ => none
  | .recv chunk registry =>
    if chunk = [] then none
    else
      match conn.phase with
      | .reading buf =>
        match firstFrame (buf ++ chunk) with
        | none => some (ing, .reading (buf ++ chunk))
        | some (_, .error e) => some (ing.refuse env conn.peer e)
        | some (payload, .ok leftover) => some (ing.answer env registry conn payload leftover)
      | .serving authed imei buf => some (ing.serve env conn.peer authed imei (buf ++ chunk))
      | _ => none
  | .ended ending =>
    match conn.phase with
    | .reading _ => some (ing.refuse env conn.peer
        (ending.raised.getD (.auth (lit "connection closed during handshake"))))
    | .serving _ imei _ => some (cleanup env conn.peer ing imei, .closed)
    | _ => none

end Ingest

def Auth.Mode.opening : Mode → Phase
  | .disabled => .serving false (lit "unknown") []
  | _ => .challenging

namespace System

def init (maxConcurrent maxPerMinute : ℤ) : System :=
  ⟨.init maxConcurrent maxPerMinute, fun _ ↦ none, []⟩

def settle (s : System) (c : ℕ) (conn : Connection) (ing : Ingest) : System where
  ing := ing
  conns := Function.update s.conns c (some conn)
  log := s.log ++ (ing.calls.drop s.ing.calls.length).map fun call ↦ (c, call)

def step (env : Env) (s : System) : Event → Option System
  | .accept c peer nonce =>
    match s.conns c with
    | some _ => none
    | none =>
      let (ing, ok) := s.ing.allow env peer
      some (s.settle c ⟨peer, nonce, if ok then env.mode.opening else .closed⟩ ing)
  | .wake c input =>
    match s.conns c with
    | none => none
    | some conn => (s.ing.resume env conn input).map fun (ing, phase) ↦
        s.settle c { conn with phase := phase } ing

end System

section Farewell

/-- The id that a connection goes offline under when its handshake raises `e`,
unless `e` is answered with DENY. -/
def quits (e : Exc) : Option Str := if Ingest.refuses e then none else some (lit "unknown")

namespace Connection

variable (env : Env) (conn : Connection)

def refusal (registry : Registry) (buf : Bytes) : Option Exc :=
  match Ingest.firstFrame buf with
  | none => none
  | some (_, .error e) => some e
  | some (payload, .ok leftover) =>
    match Ingest.checkFrame env registry conn.nonce conn.peer payload leftover with
    | .error e => some e
    | .ok accepted =>
      if accepted.authed then
        match Ingest.okFrame (accepted.claimed.getD []) with
        | .error e => some e
        | .ok _ => none
      else none

/-- The id that a connection goes offline under on an input, if the input ends it. -/
def farewell : Input → Option Str
  | .drained ok =>
    match conn.phase with
    | .challenging | .greeting _ => if ok then none else some (lit "unknown")
    | .denying => some (lit "unknown")
    | _ => none
  | .recv chunk registry =>
    match conn.phase with
    | .reading buf => (conn.refusal env registry (buf ++ chunk)).bind quits
    | .serving authed imei buf =>
      if (iterFrames (buf ++ chunk)).1.any (raises env.limit) then
        some (lastId env.limit conn.peer authed imei (iterFrames (buf ++ chunk)).1)
      else none
    | _ => none
  | .ended ending =>
    match conn.phase with
    | .reading _ => quits (ending.raised.getD (.auth (lit "connection closed during handshake")))
    | .serving _ imei _ => some imei
    | _ => none

end Connection

end Farewell

section Turns

variable {env : Env} {ing ing' : Ingest} {conn : Connection} {input : Input} {phase : Phase}

def Phase.Outside (phase : Phase) : Prop := ∀ authed imei buf, phase ≠ .serving authed imei buf

def Phase.Ready (phase : Phase) : Prop :=
  phase ≠ .closed ∧ ∀ authed imei buf, phase = .serving authed imei buf → imei ≠ []

theorem accepted_named (accepted : Ingest.Accepted) : accepted.imei ≠ [] := by
  rcases accepted with ⟨_ | _ | ⟨x, xs⟩, authed, leftover⟩ <;> simp [Ingest.Accepted.imei, lit]

/-- What a connection says between two awaits: nothing before the main loop, talk in it, and
a goodbye under its last id when it ends. -/
inductive Turn (env : Env) (ing : Ingest) (conn : Connection) (input : Input) :
    Ingest → Phase → Prop
  | waits {ing' : Ingest} {phase : Phase} (hphase : conn.phase.Outside)
      (hquiet : Produced env ing [] ing') (htracks : ing.Consistent → ing'.Consistent)
      (hready : phase.Ready) (hstays : conn.farewell env input = none) :
      Turn env ing conn input ing' phase
  | leaves {ing' : Ingest} {bye : Call} (hphase : conn.phase.Outside)
      (hnew : Produced env ing [bye] ing') (htracks : ing.Consistent → ing'.Consistent)
      (hbye : bye.timeless = disconnectCall (lit "unknown"))
      (hends : conn.farewell env input = some (lit "unknown")) :
        Turn env ing conn input ing' .closed
  | serves {ing' : Ingest} {authed : Bool} {imei last : Str} {buf rest : Bytes} {new : List Call}
      (hphase : conn.phase = .serving authed imei buf) (hnew : Produced env ing new ing')
      (htracks : ing.Consistent → ing'.Consistent)
      (htalk : Talk conn.peer authed imei (new.map Call.timeless) last)
      (hstays : conn.farewell env input = none) :
      Turn env ing conn input ing' (.serving authed last rest)
  | closes {ing' : Ingest} {authed : Bool} {imei last : Str} {buf : Bytes} {new : List Call}
      {bye : Call} (hphase : conn.phase = .serving authed imei buf)
      (hnew : Produced env ing (new ++ [bye]) ing') (htracks : ing.Consistent → ing'.Consistent)
      (htalk : Talk conn.peer authed imei (new.map Call.timeless) last)
      (hbye : bye.timeless = disconnectCall last) (hends : conn.farewell env input = some last) :
      Turn env ing conn input ing' .closed

theorem turn_gone (hphase : conn.phase.Outside)
    (hends : conn.farewell env input = some (lit "unknown")) :
    Turn env ing conn input (Ingest.cleanup env conn.peer ing (lit "unknown")) .closed := by
  obtain ⟨bye, hp, hb⟩ := cleanup_produced env conn.peer ing (lit "unknown")
  exact .leaves hphase hp (cleanup_consistent env conn.peer · _) hb hends

theorem turn_closes {authed : Bool} {imei : Str} {buf : Bytes}
    (hphase : conn.phase = .serving authed imei buf) (hends : conn.farewell env input = some imei) :
    Turn env ing conn input (Ingest.cleanup env conn.peer ing imei) .closed := by
  obtain ⟨bye, hp, hb⟩ := cleanup_produced env conn.peer ing imei
  have hnew : Produced env ing ([] ++ [bye]) _ := hp
  exact .closes hphase hnew (cleanup_consistent env conn.peer · _) (Talk.silent _ _ _) hb hends

theorem turn_refuse (hphase : conn.phase.Outside) {e : Exc}
    (hquits : conn.farewell env input = quits e) :
    Turn env ing conn input (ing.refuse env conn.peer e).1 (ing.refuse env conn.peer e).2 := by
  rw [quits] at hquits
  rw [Ingest.refuse]
  split
  · next he =>
    refine .waits hphase (Produced.silent rfl rfl rfl) id ?_ (by rw [hquits, if_pos he])
    simp [Phase.Ready]
  · next he => exact turn_gone hphase (by rw [hquits, if_neg he])

theorem turn_serve {authed : Bool} {imei : Str} {buf : Bytes}
    (hphase : conn.phase = .serving authed imei buf) (chunk : Bytes) (registry : Registry) :
    Turn env ing conn (.recv chunk registry) (ing.serve env conn.peer authed imei (buf ++ chunk)).1
      (ing.serve env conn.peer authed imei (buf ++ chunk)).2 := by
  obtain ⟨new, hp, ht, -⟩ :=
    frameLoop_spec env conn.peer authed (iterFrames (buf ++ chunk)).1 ing imei
  obtain ⟨calls, hcalls, htalk⟩ := transcript_talk env.limit conn.peer authed imei
    (iterFrames (buf ++ chunk)).1
  rw [hcalls] at ht
  have htracks (h : ing.Consistent) :=
    frameLoop_consistent env conn.peer authed (iterFrames (buf ++ chunk)).1 h imei
  have hraises := frameLoop_raises env conn.peer authed (iterFrames (buf ++ chunk)).1 ing imei
  have hfarewell : conn.farewell env (.recv chunk registry) =
      if (iterFrames (buf ++ chunk)).1.any (raises env.limit) then
        some (lastId env.limit conn.peer authed imei (iterFrames (buf ++ chunk)).1) else none := by
    simp only [Connection.farewell, hphase]
  rw [Ingest.serve]
  rcases hl : ing.frameLoop env conn.peer authed imei (iterFrames (buf ++ chunk)).1
    with ⟨ing₁, id, r⟩
  rw [hl] at hp ht htracks hraises
  obtain ⟨hnew, hlast⟩ := List.append_inj' ht rfl
  obtain hid : id = lastId _ _ _ _ _ := by simpa [disconnectCall] using hlast
  rw [← hnew, ← hid] at htalk
  rw [← hraises, ← hid] at hfarewell
  cases r with
  | none => exact .serves hphase hp htracks htalk hfarewell
  | some e =>
    obtain ⟨bye, hp', hb⟩ := cleanup_produced env conn.peer ing₁ id
    exact .closes hphase (hp.trans hp')
      (fun h ↦ cleanup_consistent env conn.peer (htracks h) id) htalk hb
      hfarewell

theorem turn_waits (hphase : conn.phase.Outside) (hready : phase.Ready)
    (hstays : conn.farewell env input = none) : Turn env ing conn input ing phase :=
  .waits hphase (Produced.silent rfl rfl rfl) id hready hstays

theorem turn_answer {buf chunk payload leftover : Bytes} (hphase : conn.phase = .reading buf)
    (registry : Registry)
    (hfirst : Ingest.firstFrame (buf ++ chunk) = some (payload, .ok leftover)) :
    Turn env ing conn (.recv chunk registry) (ing.answer env registry conn payload leftover).1
      (ing.answer env registry conn payload leftover).2 := by
  have houtside : conn.phase.Outside := by simp [Phase.Outside, hphase]
  have hfarewell : conn.farewell env (.recv chunk registry) =
      (conn.refusal env registry (buf ++ chunk)).bind quits := by
    simp only [Connection.farewell, hphase]
  rw [Connection.refusal, hfirst] at hfarewell
  dsimp only at hfarewell
  rw [Ingest.answer]
  split
  · next hcheck =>
    rw [hcheck] at hfarewell
    exact turn_refuse houtside hfarewell
  · next accepted hcheck =>
    rw [hcheck] at hfarewell
    dsimp only at hfarewell
    split
    · next hauthed =>
      rw [if_pos hauthed] at hfarewell
      split
      · next hok =>
        rw [hok] at hfarewell
        exact turn_refuse houtside hfarewell
      · next hok =>
        rw [hok] at hfarewell
        exact turn_waits houtside (by simp [Phase.Ready]) hfarewell
    · next hauthed =>
      rw [if_neg hauthed] at hfarewell
      refine .waits houtside (Produced.silent rfl rfl rfl) id ?_ hfarewell
      simp [Phase.Ready, accepted_named]

theorem Turn.congr {p : Ingest × Phase} (ht : Turn env ing conn input p.1 p.2)
    (h : some p = some (ing', phase)) : Turn env ing conn input ing' phase := by
  obtain rfl := Option.some.inj h
  exact ht

theorem resume_closed (hclosed : conn.phase = .closed) (input : Input) :
    ing.resume env conn input = none := by
  cases input <;> simp [Ingest.resume, hclosed]

theorem resume_unclosed {p : Ingest × Phase} (h : ing.resume env conn input = some p) :
    conn.phase ≠ .closed := by
  intro hclosed
  rw [resume_closed hclosed] at h
  cases h

theorem resume_turn (h : ing.resume env conn input = some (ing', phase)) :
    Turn env ing conn input ing' phase := by
  have houtside (h : ∀ a i b, conn.phase ≠ .serving a i b) : conn.phase.Outside := h
  cases input with
  | drained ok =>
    cases hc : conn.phase with
    | challenging | greeting accepted =>
      simp only [Ingest.resume, hc] at h
      split at h
      · next hok =>
        refine (turn_waits (houtside (by simp [hc])) ?_ ?_).congr h
        · simp [Phase.Ready, accepted_named]
        · simp [Connection.farewell, hc, hok]
      · next hok => exact (turn_gone (houtside (by simp [hc]))
          (by simp [Connection.farewell, hc, hok])).congr h
    | denying =>
      simp only [Ingest.resume, hc] at h
      exact (turn_gone (houtside (by simp [hc])) (by simp only [Connection.farewell, hc])).congr h
    | reading buf | serving a i b | closed => simp [Ingest.resume, hc] at h
  | recv chunk registry =>
    by_cases hchunk : chunk = []
    · simp [Ingest.resume, hchunk] at h
    cases hc : conn.phase with
    | reading buf =>
      have hphase : conn.phase.Outside := houtside (by simp [hc])
      simp only [Ingest.resume, hc, if_neg hchunk] at h
      split at h
      · next hfirst =>
        exact (turn_waits hphase (by simp [Phase.Ready])
          (by simp [Connection.farewell, hc, Connection.refusal, hfirst])).congr h
      · next hfirst =>
        exact (turn_refuse hphase
          (by simp [Connection.farewell, hc, Connection.refusal, hfirst])).congr h
      · next hfirst => exact (turn_answer hc registry hfirst).congr h
    | serving authed imei buf =>
      simp only [Ingest.resume, hc, if_neg hchunk] at h
      exact (turn_serve hc chunk registry).congr h
    | challenging | greeting accepted | denying | closed =>
      simp [Ingest.resume, hc, hchunk] at h
  | ended ending =>
    cases hc : conn.phase with
    | reading buf =>
      have hphase : conn.phase.Outside := houtside (by simp [hc])
      simp only [Ingest.resume, hc] at h
      exact (turn_refuse hphase (by simp only [Connection.farewell, hc])).congr h
    | serving authed imei buf =>
      simp only [Ingest.resume, hc] at h
      exact (turn_closes hc (by simp only [Connection.farewell, hc])).congr h
    | challenging | greeting accepted | denying | closed => simp [Ingest.resume, hc] at h

theorem Turn.produced (h : Turn env ing conn input ing' phase) :
    ∃ new, Produced env ing new ing' := by
  cases h with
  | waits houtside hquiet => exact ⟨_, hquiet⟩
  | leaves houtside hleave => exact ⟨_, hleave⟩
  | serves hserving hserve => exact ⟨_, hserve⟩
  | closes hserving hclose => exact ⟨_, hclose⟩

end Turns

section Steps

variable {env : Env} {s s' : System}

theorem settle_log {c : ℕ} {conn : Connection} {ing' : Ingest} {new : List Call}
    (h : Produced env s.ing new ing') :
    (s.settle c conn ing').log = s.log ++ new.map fun call ↦ (c, call) := by
  rw [System.settle, h.calls, List.drop_left]

theorem settle_conns (c : ℕ) (conn : Connection) (ing' : Ingest) (c' : ℕ) :
    (s.settle c conn ing').conns c' = if c' = c then some conn else s.conns c' :=
  Function.update_apply _ _ _ _

theorem settle_some {conn' : Connection} {c' : ℕ}
    (h : (s.settle c conn ing').conns c' = some conn') :
    (c' = c ∧ conn' = conn) ∨ (c' ≠ c ∧ s.conns c' = some conn') := by
  rw [settle_conns] at h
  split at h
  · next heq => exact .inl ⟨heq, (Option.some.inj h).symm⟩
  · next hne => exact .inr ⟨hne, h⟩

theorem settle_none {c' : ℕ} (h : (s.settle c conn ing').conns c' = none) :
    c' ≠ c ∧ s.conns c' = none := by
  rw [settle_conns] at h
  split at h
  · cases h
  · next hne => exact ⟨hne, h⟩

theorem step_cases {e : Event} (h : System.step env s e = some s') :
    (∃ c peer nonce ing' phase, e = .accept c peer nonce ∧ s.conns c = none ∧
      s' = s.settle c ⟨peer, nonce, phase⟩ ing' ∧ Produced env s.ing [] ing' ∧
      ing'.online = s.ing.online ∧ (phase = env.mode.opening ∨ phase = .closed)) ∨
    ∃ c input conn ing' phase, e = .wake c input ∧ s.conns c = some conn ∧
      s.ing.resume env conn input = some (ing', phase) ∧
      s' = s.settle c { conn with phase := phase } ing' := by
  cases e with
  | accept c peer nonce =>
    cases hc : s.conns c with
    | some conn => simp [System.step, hc] at h
    | none =>
      obtain ⟨hquiet, -, honline⟩ := allow_silent env s.ing peer
      simp only [System.step, hc] at h
      rcases hallow : s.ing.allow env peer with ⟨ing', ok⟩
      rw [hallow] at h hquiet honline
      refine .inl ⟨c, peer, nonce, ing', _, rfl, hc, (Option.some.inj h).symm, hquiet, honline, ?_⟩
      cases ok with
      | true => exact .inl rfl
      | false => exact .inr rfl
  | wake c input =>
    cases hc : s.conns c with
    | none => simp [System.step, hc] at h
    | some conn =>
      simp only [System.step, hc, Option.map_eq_some_iff] at h
      obtain ⟨⟨ing', phase⟩, hr, hs⟩ := h
      exact .inr ⟨c, input, conn, ing', phase, rfl, hc, hr, hs.symm⟩

end Steps

section Sequential

variable (env : Env) (peer : Peer) (nonce : Nonce)

def localStep (s : Ingest × Phase) (input : Input) : Option (Ingest × Phase) :=
  s.1.resume env ⟨peer, nonce, s.2⟩ input

theorem serving_runs (authed : Bool) (ending : Ending) (chunks : List Bytes)
    (hchunks : ∀ c ∈ chunks, c ≠ []) (ing : Ingest) (imei : Str) (buf : Bytes) :
    ∃ inputs, run (localStep env peer nonce) (ing, .serving authed imei buf) inputs =
      some ((ing.session env peer authed ending imei buf chunks).1, .closed) := by
  induction chunks generalizing ing imei buf with
  | nil => exact ⟨[.ended ending], rfl⟩
  | cons chunk chunks ih =>
    have hc : chunk ≠ [] := hchunks chunk (by simp)
    have hrest : ∀ c ∈ chunks, c ≠ [] := fun c h ↦ hchunks c (by simp [h])
    have hstep : localStep env peer nonce (ing, .serving authed imei buf)
        (.recv chunk Registry.none) = some (ing.serve env peer authed imei (buf ++ chunk)) := by
      simp only [localStep, Ingest.resume, if_neg hc]
    simp only [Ingest.session, Ingest.mainLoop, if_neg hc]
    rcases hl : ing.frameLoop env peer authed imei (iterFrames (buf ++ chunk)).1
      with ⟨ing₁, id, _ | e⟩
    · obtain ⟨inputs, hi⟩ := ih hrest ing₁ id (iterFrames (buf ++ chunk)).2
      refine ⟨.recv chunk Registry.none :: inputs, ?_⟩
      rw [run_cons, hstep, Ingest.serve, hl]
      exact hi
    · refine ⟨[.recv chunk Registry.none], ?_⟩
      rw [run_cons, hstep, Ingest.serve, hl]
      rfl

theorem reading_runs (registry : Registry) (ending : Ending) (chunks : List Bytes)
    (hchunks : ∀ c ∈ chunks, c ≠ []) (ing : Ingest) (buf : Bytes)
    (hbuf : Ingest.firstFrame buf = none) :
    ∃ inputs, run (localStep env peer nonce) (ing, .reading buf) inputs = some
      (match Ingest.readFrame ending buf chunks with
        | .error e => ing.refuse env peer e
        | .ok ((payload, leftover), _) =>
          ing.answer env registry ⟨peer, nonce, .reading []⟩ payload leftover) := by
  induction chunks generalizing buf with
  | nil =>
    refine ⟨[.ended ending], ?_⟩
    simp only [Ingest.readFrame, hbuf]
    rfl
  | cons chunk chunks ih =>
    have hc : chunk ≠ [] := hchunks chunk (by simp)
    have hrest : ∀ c ∈ chunks, c ≠ [] := fun c h ↦ hchunks c (by simp [h])
    simp only [Ingest.readFrame, hbuf, if_neg hc]
    rcases hf : Ingest.firstFrame (buf ++ chunk) with _ | ⟨payload, e | leftover⟩
    · obtain ⟨inputs, hi⟩ := ih hrest (buf ++ chunk) hf
      refine ⟨.recv chunk registry :: inputs, ?_⟩
      rw [run_cons]
      simp only [localStep, Ingest.resume, if_neg hc, hf, Option.bind_some]
      exact hi
    · refine ⟨[.recv chunk registry], ?_⟩
      rw [run_cons]
      simp only [localStep, Ingest.resume, if_neg hc, hf, Option.bind_some]
      rw [Ingest.readFrame.eq_def]
      simp [hf, Except.map]
    · refine ⟨[.recv chunk registry], ?_⟩
      rw [run_cons]
      simp only [localStep, Ingest.resume, if_neg hc, hf, Option.bind_some]
      rw [Ingest.readFrame.eq_def]
      simp only [hf, Except.map]
      rfl

def Ingest.refused (ing : Ingest) (e : Exc) : Ingest :=
  Ingest.cleanup env peer (if Ingest.refuses e then { ing with denied := ing.denied + 1 } else ing)
    (lit "unknown")

theorem refuse_runs (ing : Ingest) (e : Exc) :
    ∃ inputs, run (localStep env peer nonce) (ing.refuse env peer e) inputs =
      some (ing.refused env peer e, .closed) := by
  rw [Ingest.refuse, Ingest.refused]
  by_cases h : Ingest.refuses e = true
  · refine ⟨[.drained true], ?_⟩
    simp [h, localStep, Ingest.resume]
  · refine ⟨[], ?_⟩
    simp [h]

variable (link : Link) (registry : Registry) (ing : Ingest) {ing₀ : Ingest}

theorem handle_refused {sent : Bytes} {e : Exc} (hallow : ing.allow env link.peer = (ing₀, true))
    (hshake : ing₀.handshake env registry link = (ing₀, sent, .error e)) :
    (ing.handle env registry link).1 = ing₀.refused env link.peer e := by
  simp only [Ingest.handle, hallow, not_true_eq_false, if_false, hshake, Ingest.refused]
  by_cases h : Ingest.refuses e = true <;> simp [h]

theorem answer_runs (hchunks : ∀ c ∈ link.chunks, c ≠ [])
    (hallow : ing.allow env link.peer = (ing₀, true)) (hmode : env.mode ≠ .disabled)
    (hdrain : link.challengeDrains = true) {payload leftover : Bytes} {chunks : List Bytes}
    (hread : Ingest.readFrame link.ending [] link.chunks = .ok ((payload, leftover), chunks)) :
    ∃ inputs, run (localStep env link.peer link.nonce)
      (ing₀.answer env registry ⟨link.peer, link.nonce, .reading []⟩ payload leftover) inputs =
      some ((ing.handle env registry link).1, .closed) := by
  have hne : ∀ c ∈ chunks, c ≠ [] := by
    obtain ⟨consumed, _, _, he, -, -⟩ := Ingest.readFrame_ok hread
    intro c hc
    exact hchunks c (he ▸ List.mem_append_right _ hc)
  rcases hcheck : Ingest.checkFrame env registry link.nonce link.peer payload leftover
    with e | accepted
  · have hshake : ing₀.handshake env registry link =
        (ing₀, Ingest.challengeFrame link.nonce, .error e) := by
      simp [Ingest.handshake, hmode, hdrain, hread, hcheck]
    simp only [Ingest.answer, hcheck]
    rw [handle_refused env link registry ing hallow hshake]
    exact refuse_runs env link.peer link.nonce ing₀ e
  by_cases hauthed : accepted.authed = true
  swap
  · have hshake : ing₀.handshake env registry link =
        ({ ing₀ with unauthenticated := ing₀.unauthenticated + 1 },
          Ingest.challengeFrame link.nonce, .ok (accepted, chunks)) := by
      simp [Ingest.handshake, hmode, hdrain, hread, hcheck, hauthed]
    simp only [Ingest.answer, hcheck, if_neg hauthed]
    rw [handle_accepted env registry link ing hallow hshake, Bool.eq_false_of_not_eq_true hauthed]
    exact serving_runs env link.peer link.nonce false link.ending chunks hne _ _ _
  rcases hok : Ingest.okFrame (accepted.claimed.getD []) with e | reply
  · have hshake : ing₀.handshake env registry link =
        (ing₀, Ingest.challengeFrame link.nonce, .error e) := by
      simp [Ingest.handshake, hmode, hdrain, hread, hcheck, hauthed, hok]
    simp only [Ingest.answer, hcheck, if_pos hauthed, hok]
    rw [handle_refused env link registry ing hallow hshake]
    exact refuse_runs env link.peer link.nonce ing₀ e
  simp only [Ingest.answer, hcheck, if_pos hauthed, hok]
  by_cases hreply : link.okDrains = true
  · have hshake : ing₀.handshake env registry link =
        (ing₀, Ingest.challengeFrame link.nonce ++ reply, .ok (accepted, chunks)) := by
      simp [Ingest.handshake, hmode, hdrain, hread, hcheck, hauthed, hok, hreply]
    rw [handle_accepted env registry link ing hallow hshake]
    obtain ⟨inputs, hi⟩ := serving_runs env link.peer link.nonce accepted.authed link.ending chunks
      hne ing₀ accepted.imei accepted.leftover
    exact ⟨.drained true :: inputs, hi⟩
  · have hshake : ing₀.handshake env registry link =
        (ing₀, Ingest.challengeFrame link.nonce ++ reply, .error .connection) := by
      simp [Ingest.handshake, hmode, hdrain, hread, hcheck, hauthed, hok, hreply]
    rw [handle_refused env link registry ing hallow hshake]
    exact ⟨[.drained false], rfl⟩

theorem handle_runs (hchunks : ∀ c ∈ link.chunks, c ≠ [])
    (hallow : ing.allow env link.peer = (ing₀, true)) :
    ∃ inputs, run (localStep env link.peer link.nonce) (ing₀, env.mode.opening) inputs =
      some ((ing.handle env registry link).1, .closed) := by
  by_cases hmode : env.mode = .disabled
  · have hshake : ing₀.handshake env registry link =
        (ing₀, [], .ok (⟨none, false, []⟩, link.chunks)) := if_pos hmode
    rw [handle_accepted env registry link ing hallow hshake, hmode]
    exact serving_runs env link.peer link.nonce false link.ending link.chunks hchunks ing₀ _ []
  have hopen : env.mode.opening = .challenging := by
    cases hm : env.mode with
    | disabled => exact absurd hm hmode
    | optional => rfl
    | required => rfl
  rw [hopen]
  by_cases hdrain : link.challengeDrains = true
  swap
  · have hshake : ing₀.handshake env registry link =
        (ing₀, Ingest.challengeFrame link.nonce, .error .connection) := by
      simp [Ingest.handshake, hmode, hdrain]
    rw [handle_refused env link registry ing hallow hshake]
    exact ⟨[.drained false], rfl⟩
  obtain ⟨inputs, hi⟩ := reading_runs env link.peer link.nonce registry link.ending link.chunks
    hchunks ing₀ [] rfl
  have hstart : run (localStep env link.peer link.nonce) (ing₀, .challenging)
      (.drained true :: inputs) = _ := hi
  rcases hread : Ingest.readFrame link.ending [] link.chunks with e | ⟨⟨payload, leftover⟩, chunks⟩
  · have hshake : ing₀.handshake env registry link =
        (ing₀, Ingest.challengeFrame link.nonce, .error e) := by
      simp [Ingest.handshake, hmode, hdrain, hread]
    rw [handle_refused env link registry ing hallow hshake]
    obtain ⟨inputs', hi'⟩ := refuse_runs env link.peer link.nonce ing₀ e
    rw [hread] at hstart
    exact ⟨_, run_trans hstart hi'⟩
  · obtain ⟨inputs', hi'⟩ := answer_runs env link registry ing hchunks hallow hmode hdrain hread
    rw [hread] at hstart
    exact ⟨_, run_trans hstart hi'⟩

end Sequential

section Lift

variable (env : Env) (c : ℕ)

theorem wake_runs {peer : Peer} {nonce : Nonce} {inputs : List Input} {s : System}
    {phase phase' : Phase} {ing' : Ingest} (hc : s.conns c = some ⟨peer, nonce, phase⟩)
    (hrun : run (localStep env peer nonce) (s.ing, phase) inputs = some (ing', phase')) :
    ∃ s', run (System.step env) s (inputs.map (.wake c)) = some s' ∧ s'.ing = ing' ∧
      s'.conns c = some ⟨peer, nonce, phase'⟩ := by
  induction inputs generalizing s phase with
  | nil =>
    obtain ⟨rfl, rfl⟩ : s.ing = ing' ∧ phase = phase' := by simpa using hrun
    exact ⟨s, rfl, rfl, hc⟩
  | cons input inputs ih =>
    rw [run_cons, Option.bind_eq_some_iff] at hrun
    obtain ⟨⟨ing₁, phase₁⟩, hstep, hrest⟩ := hrun
    have hsys : System.step env s (.wake c input) =
        some (s.settle c ⟨peer, nonce, phase₁⟩ ing₁) := by
      simp only [System.step, hc]
      rw [localStep] at hstep
      rw [hstep]
      rfl
    obtain ⟨s', hs', hing, hconn⟩ := ih (s := s.settle c ⟨peer, nonce, phase₁⟩ ing₁)
      (Function.update_self _ _ _) hrest
    refine ⟨s', ?_, hing, hconn⟩
    rw [List.map_cons, run_cons, hsys]
    exact hs'

/-- The event loop can run `handle` on a new connection through without interruption. -/
theorem handle_simulated (registry : Registry) (link : Link) (s : System) (hnew : s.conns c = none)
    (hchunks : ∀ c ∈ link.chunks, c ≠ []) :
    ∃ (inputs : List Input) (s' : System), run (System.step env) s
        (.accept c link.peer link.nonce :: inputs.map (.wake c)) = some s' ∧
      s'.ing = (s.ing.handle env registry link).1 ∧
      s'.conns c = some ⟨link.peer, link.nonce, .closed⟩ := by
  rcases hallow : s.ing.allow env link.peer with ⟨ing₀, ok⟩
  have hstep : System.step env s (.accept c link.peer link.nonce) = some (s.settle c
      ⟨link.peer, link.nonce, if ok then env.mode.opening else .closed⟩ ing₀) := by
    simp only [System.step, hnew, hallow]
  cases ok with
  | false =>
    refine ⟨[], s.settle c ⟨link.peer, link.nonce, .closed⟩ ing₀, ?_, ?_, ?_⟩
    · rw [run_cons, hstep]
      rfl
    · simp [System.settle, Ingest.handle, hallow]
    · simp [System.settle]
  | true =>
    obtain ⟨inputs, hi⟩ := handle_runs env link registry s.ing hchunks hallow
    obtain ⟨s', hs', hing, hconn⟩ := wake_runs env c (s := s.settle c _ ing₀)
      (Function.update_self _ _ _) hi
    refine ⟨inputs, s', ?_, hing, hconn⟩
    rw [run_cons, hstep]
    exact hs'

end Lift

end OpusFleet.Server
